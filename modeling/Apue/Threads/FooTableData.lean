import Apue.Threads.FooTableChains

/-!
# What each store does to the hash table

One lemma for every statement of 11-11.c that changes the table, an object or the references to it:
`Table` holds again after `malloc` (with or without its `free`), after the new object is linked and
inserted, after `f_count` is stored with one reference more or less, after an object is taken out of
its chain, and after it is freed.
-/

namespace Apue.FooTable
open Linked Threads

variable {T : Type*} [Fintype T] {d : Data T} {L : Fin NHASH → List ℕ} {t : T} {fp : ℕ} {id : ℤ}

theorem Table.counted (h : Table d L) : Counted d L where
  chained := ⟨h.chain, h.members⟩
  tableLive := h.tableLive
  count := h.count
  dead := h.dead
  fresh fp hfp := ⟨(h.fresh fp hfp).1, (h.fresh fp hfp).2.1, (h.fresh fp hfp).2.2.1⟩
  once fp := (h.once fp).2.1

/-- Here no object is without references, and it is freed once and by a call that says so. -/
theorem Counted.table (h : Counted d L) (howned : ∀ fp, d.Live fp → 1 ≤ d.refs fp)
    (hzeros : ∀ fp, d.brk ≤ fp → d.zeros fp = 0) (honce : ∀ fp, d.inserts fp ≤ 1 ∧ d.zeros fp ≤ d.frees fp)
    (hfreed : ∀ fp, d.inserts fp = 1 → d.frees fp ≤ d.unlinks fp ∧ d.zeros fp = d.frees fp) : Table d L where
  chain := h.chained.chain
  members := h.chained.members
  tableLive := h.tableLive
  count := h.count
  owned := howned
  dead := h.dead
  fresh fp hfp := ⟨(h.fresh fp hfp).1, (h.fresh fp hfp).2.1, (h.fresh fp hfp).2.2, hzeros fp hfp⟩
  once fp := ⟨(honce fp).1, h.once fp, (honce fp).2⟩
  freed := hfreed

theorem Table.not_inTable_brk (h : Table d L) : ¬ d.InTable d.brk := h.counted.not_inTable_brk

theorem Table.zeros_fresh (h : Table d L) (fp : ℕ) (hfp : d.brk ≤ fp) : d.zeros fp = 0 :=
  (h.fresh fp hfp).2.2.2

theorem Table.inserts_zeros (h : Table d L) (fp : ℕ) : d.inserts fp ≤ 1 ∧ d.zeros fp ≤ d.frees fp :=
  ⟨(h.once fp).1, (h.once fp).2.2⟩

variable [DecidableEq T] in
theorem Table.malloc (t : T) (id : ℤ) (h : Table d L) : Table (d.malloc t id) L := by
  have hfresh := h.fresh d.brk le_rfl
  refine (h.counted.malloc t id).table ?_ (fun x hx => h.zeros_fresh x (Nat.le_of_succ_le hx))
    h.inserts_zeros h.freed
  intro x hx
  by_cases hxe : x = d.brk
  · rw [hxe, refs_malloc t id (h.dead _ not_live_brk)]
  · rw [refs_malloc_of_ne t id hxe]
    exact h.owned x (((live_malloc t id hfresh.2.2.1 x).mp hx).resolve_right hxe)

theorem Table.mallocFree (h : Table d L) : Table d.mallocFree L := by
  refine h.counted.mallocFree.table (fun x hx => h.owned x ((live_mallocFree d x).mp hx))
    (fun x hx => h.zeros_fresh x (Nat.le_of_succ_le hx)) (fun x => ?_) fun x hx => ?_
  · obtain ⟨hone, hzero⟩ := h.inserts_zeros x
    refine ⟨hone, hzero.trans ?_⟩
    by_cases hx : x = d.brk
    · subst hx
      simp [Data.mallocFree, bump]
    · simp [Data.mallocFree, bump_of_ne hx]
  · have hne : x ≠ d.brk := by
      rintro rfl
      exact absurd (h.fresh d.brk le_rfl).1 (by rw [show d.inserts d.brk = 1 from hx]; decide)
    simpa [Data.mallocFree, bump_of_ne hne] using h.freed x hx

theorem Table.setNext (h : Table d L) (hfp : ¬ d.InTable fp) (q : Option ℕ) : Table (d.setNext fp q) L :=
  (h.counted.setNext hfp q).table h.owned h.zeros_fresh h.inserts_zeros h.freed

theorem Table.insert (h : Table d L) (hlive : d.Live fp) (hins : d.inserts fp = 0)
    (hnext : d.next fp = d.fh (d.bucket fp)) :
    Table { d.setHead (d.bucket fp) (some fp) with inserts := bump d.inserts fp }
      (Function.update L (d.bucket fp) (fp :: L (d.bucket fp))) := by
  refine (h.counted.insert hlive hins hnext).table h.owned h.zeros_fresh (fun x => ?_) fun x hx => ?_
  · by_cases hx : x = fp
    · subst hx
      simpa [Data.setHead, bump, hins] using (h.once x).2.2
    · simpa [Data.setHead, bump_of_ne hx] using h.inserts_zeros x
  · by_cases hxe : x = fp
    · subst hxe
      have hzero : d.zeros x = d.frees x := by
        have hle := (h.once x).2.2
        have hfree := hlive.2
        omega
      exact ⟨hlive.2.le.trans (Nat.zero_le _), hzero⟩
    · refine h.freed x ?_
      simpa [Data.setHead, bump_of_ne hxe] using hx

variable [DecidableEq T] in
theorem Table.store (h : Table d L) (hlive : d.Live fp) {v : BitVec 32} {n : ℕ}
    (hv : v.toInt + d.own t fp = (d.mem fp).fCount.toInt + n) (hpos : 1 ≤ v.toInt) :
    Table ((d.setCount fp v).setOwn t fp n) L := by
  refine (h.counted.store hlive hv).table (fun x hx => ?_) h.zeros_fresh h.inserts_zeros h.freed
  by_cases hxe : x = fp
  · subst hxe
    have hrefs := h.counted.refs_store hlive hv
    omega
  · rw [refs_store_of_ne t v n hxe]
    exact h.owned x hx

theorem Table.unlink (h : Table d L) (hin : d.InTable fp) {fh : Fin NHASH → Option ℕ} {mem : ℕ → Foo}
    (hcell : ∀ x, (mem x).fCount = (d.mem x).fCount ∧ (mem x).fId = (d.mem x).fId)
    (hchain : ∀ b, Chain (fun x => (mem x).fNext) (fh b) ((L b).erase fp)) :
    Table { d with fh, mem, unlinks := bump d.unlinks fp } fun b => (L b).erase fp := by
  refine (h.counted.unlink hin hcell hchain).table h.owned h.zeros_fresh h.inserts_zeros fun x hx => ?_
  by_cases hxe : x = fp
  · subst hxe
    obtain ⟨hfree, hzero⟩ := h.freed x hx
    rw [hin.2] at hfree
    exact ⟨hfree.trans (Nat.zero_le _), hzero⟩
  · simpa [bump_of_ne hxe] using h.freed x hx

variable [DecidableEq T] in
theorem Table.free (h : Table d L) (hlive : d.Live fp) (hrefs : d.refs fp = 1) (hown : d.own t fp = 1)
    (hun : d.unlinks fp = 1) :
    Table { d.setOwn t fp (d.own t fp - 1) with
      frees := bump d.frees fp, zeros := bump d.zeros fp } L := by
  have hzero : (d.setOwn t fp (d.own t fp - 1)).refs fp = 0 := by
    have hset := refs_setOwn d t fp (d.own t fp - 1)
    omega
  have hrefs_ne : ∀ x ≠ fp, (d.setOwn t fp (d.own t fp - 1)).refs x = d.refs x :=
    fun x hx => refs_setOwn_of_ne _ hx
  refine (h.counted.free hlive hun hzero hrefs_ne).table (fun x hx => ?_) (fun x hx => ?_) (fun x => ?_)
    fun x hx => ?_
  · have hne : x ≠ fp := by
      rintro rfl
      exact absurd hx.2 (by simp [bump])
    refine (h.owned x ⟨hx.1, ?_⟩).trans (hrefs_ne x hne).ge
    rw [← hx.2]
    exact (bump_of_ne hne).symm
  · exact (bump_of_ne (ne_of_live hlive hx)).trans (h.zeros_fresh x hx)
  · obtain ⟨hone, hle⟩ := h.inserts_zeros x
    refine ⟨hone, ?_⟩
    by_cases hne : x = fp
    · subst hne
      simpa [bump] using hle
    · simpa [bump_of_ne hne] using hle
  · obtain ⟨hfree, heq⟩ := h.freed x hx
    by_cases hne : x = fp
    · subst hne
      have hfree : d.frees x = 0 := hlive.2
      simpa [Data.setOwn, bump, hfree, hun] using heq.trans hfree
    · simpa [Data.setOwn, bump_of_ne hne] using ⟨hfree, heq⟩

end Apue.FooTable

import Apue.Threads.FooTableInv

/-!
# Chains, references and counts

What both locking schemes have in common, and what each statement does to it. `Chained` is about the chains
alone: where a walk along one of them is, and how it changes when an object is put in front or taken out.
`Counted` adds that `f_count` is the number of references for every object that is there, and that nobody
has a reference to one that is not. It leaves open whether there are objects without references.
-/

namespace Apue.FooTable
open Linked Threads

variable {T : Type*} {d d' : Data T} {L : Fin NHASH → List ℕ} {t : T} {fp x : ℕ} {id : ℤ}

/-! ### The chains -/

/-- The chains of the table and what is on them. -/
structure Chained (d : Data T) (L : Fin NHASH → List ℕ) : Prop where
  chain : ∀ b, Chain d.next (d.fh b) (L b)
  members : ∀ b fp, fp ∈ L b ↔ d.InTable fp ∧ d.bucket fp = b

theorem Chained.mem_bucket (h : Chained d L) (hfp : d.InTable fp) : fp ∈ L (d.bucket fp) :=
  (h.members _ fp).mpr ⟨hfp, rfl⟩

theorem Chained.inTable_of_head (h : Chained d L) {b : Fin NHASH} (hx : d.fh b = some x) :
    d.InTable x := by
  have hchain := h.chain b
  rw [hx] at hchain
  refine ((h.members b x).mp ?_).1
  cases hL : L b with
  | nil => exact absurd (hL ▸ hchain) (by simp)
  | cons y post =>
    rw [hL, chain_cons, Option.some.injEq] at hchain
    simp [hchain.1]

theorem Chained.inTable_of_next (h : Chained d L) (hin : d.InTable fp) (hx : d.next fp = some x) :
    d.InTable x := by
  obtain ⟨pre, post, hL⟩ := List.append_of_mem (h.mem_bucket hin)
  have hchain := h.chain (d.bucket fp)
  rw [hL] at hchain
  have hhead := hchain.next_eq
  rw [hx] at hhead
  have hmem : x ∈ post := List.mem_of_mem_head? (Option.mem_def.mpr hhead.symm)
  refine ((h.members (d.bucket fp) x).mp ?_).1
  simp [hL, hmem]

theorem Chained.walk_on (h : Chained d L) {b : Fin NHASH} {pre mid post : List ℕ}
    (hL : L b = pre ++ x :: mid ++ fp :: post) (hne : d.next x ≠ some fp) :
    ∃ y mid', mid = y :: mid' ∧ d.next x = some y := by
  have hchain := h.chain b
  rw [hL, List.append_assoc, List.cons_append] at hchain
  have hnext := hchain.next_eq
  cases mid with
  | nil => exact absurd hnext hne
  | cons y mid => exact ⟨y, mid, rfl, hnext⟩

theorem Chained.walk_start (h : Chained d L) (hin : d.InTable fp) (hne : d.fh (d.bucket fp) ≠ some fp) :
    ∃ y pre mid post, d.fh (d.bucket fp) = some y ∧ L (d.bucket fp) = pre ++ y :: mid ++ fp :: post := by
  obtain ⟨pre, post, hL⟩ := List.append_of_mem (h.mem_bucket hin)
  have hchain := h.chain (d.bucket fp)
  rw [hL] at hchain
  cases pre with
  | nil => exact absurd hchain.1 hne
  | cons y pre => exact ⟨y, [], pre, post, hchain.1, by simp [hL]⟩

theorem Chained.congr (h : Chained d L) (hfh : d'.fh = d.fh) (hin : ∀ x, d'.InTable x ↔ d.InTable x)
    (hcell : ∀ x, d.InTable x → d'.next x = d.next x ∧ (d'.mem x).fId = (d.mem x).fId) : Chained d' L := by
  constructor
  · intro b
    rw [hfh]
    refine (chain_congr fun x hx => ?_).mp (h.chain b)
    exact (hcell x ((h.members b x).mp hx).1).1.symm
  · intro b x
    rw [h.members, hin]
    refine and_congr_right fun hx => ?_
    rw [Data.bucket, Data.bucket, (hcell x hx).2]

theorem Chained.insert (h : Chained d L) (hins : d.inserts fp = 0) (hun : d.unlinks fp = 0)
    (hnext : d.next fp = d.fh (d.bucket fp)) :
    Chained { d.setHead (d.bucket fp) (some fp) with inserts := bump d.inserts fp }
      (Function.update L (d.bucket fp) (fp :: L (d.bucket fp))) := by
  have hin : ∀ x, Data.InTable { d.setHead (d.bucket fp) (some fp) with inserts := bump d.inserts fp } x ↔
      x = fp ∨ d.InTable x := fun x => by
    by_cases hx : x = fp
    · subst hx
      simp [Data.InTable, Data.setHead, bump, hins, hun]
    · simp [Data.InTable, Data.setHead, bump, hx]
  constructor
  · intro b
    by_cases hb : b = d.bucket fp
    · subst hb
      simp only [Data.setHead, Function.update_self]
      exact ⟨rfl, hnext ▸ h.chain (d.bucket fp)⟩
    · simp only [Data.setHead, Function.update_of_ne hb]
      exact h.chain b
  · intro b x
    rw [hin]
    by_cases hb : b = d.bucket fp
    · subst hb
      rw [Function.update_self, List.mem_cons, h.members]
      constructor
      · rintro (rfl | hx)
        · exact ⟨Or.inl rfl, rfl⟩
        · exact ⟨Or.inr hx.1, hx.2⟩
      · rintro ⟨rfl | hx, hbx⟩
        · exact Or.inl rfl
        · exact Or.inr ⟨hx, hbx⟩
    · rw [Function.update_of_ne hb, h.members]
      constructor
      · exact fun hx => ⟨Or.inr hx.1, hx.2⟩
      · rintro ⟨rfl | hx, hbx⟩
        · exact absurd hbx.symm hb
        · exact ⟨hx, hbx⟩

theorem Chained.unlink (h : Chained d L) {fh : Fin NHASH → Option ℕ} {mem : ℕ → Foo}
    (hid : ∀ x, (mem x).fId = (d.mem x).fId)
    (hchain : ∀ b, Chain (fun x => (mem x).fNext) (fh b) ((L b).erase fp)) :
    Chained { d with fh, mem, unlinks := bump d.unlinks fp } fun b => (L b).erase fp := by
  have hin : ∀ x, Data.InTable { d with fh, mem, unlinks := bump d.unlinks fp } x ↔
      d.InTable x ∧ x ≠ fp := fun x => by
    by_cases hx : x = fp
    · subst hx
      simp [Data.InTable, bump]
    · simp [Data.InTable, bump, hx]
  refine ⟨hchain, fun b x => ?_⟩
  have hbucket : Data.bucket { d with fh, mem, unlinks := bump d.unlinks fp } x = d.bucket x := by
    rw [Data.bucket, Data.bucket, hid]
  rw [(h.chain b).nodup.mem_erase_iff, h.members, hin, hbucket]
  constructor
  · rintro ⟨hx, hmem, hb⟩
    exact ⟨⟨hmem, hx⟩, hb⟩
  · rintro ⟨⟨hmem, hx⟩, hb⟩
    exact ⟨hx, hmem, hb⟩

theorem Chained.erase_head (h : Chained d L) (hin : d.InTable fp) (hhead : d.fh (d.bucket fp) = some fp)
    (b : Fin NHASH) :
    Chain d.next (Function.update d.fh (d.bucket fp) (d.next fp) b) ((L b).erase fp) := by
  by_cases hb : b = d.bucket fp
  · subst hb
    have hchain := h.chain (d.bucket fp)
    cases hL : L (d.bucket fp) with
    | nil => exact absurd (h.mem_bucket hin) (by simp [hL])
    | cons x post =>
      rw [hL, chain_cons, hhead] at hchain
      obtain rfl := Option.some.inj hchain.1
      rw [Function.update_self, List.erase_cons_head]
      exact hchain.2
  · rw [Function.update_of_ne hb, List.erase_of_not_mem]
    · exact h.chain b
    · exact fun hmem => hb ((h.members b fp).mp hmem).2.symm

theorem Chained.erase_next (h : Chained d L) {pre mid post : List ℕ}
    (hL : L (d.bucket fp) = pre ++ x :: mid ++ fp :: post) (hnext : d.next x = some fp) (b : Fin NHASH) :
    Chain (Function.update d.next x (d.next fp)) (d.fh b) ((L b).erase fp) := by
  by_cases hb : b = d.bucket fp
  · subst hb
    have hchain := h.chain (d.bucket fp)
    rw [hL] at hchain ⊢
    have hnodup := hchain.nodup
    -- the cell that points to `fp` is the one before it
    obtain rfl : mid = [] := by
      rw [List.append_assoc, List.cons_append] at hchain
      have hhead := hchain.next_eq
      cases mid with
      | nil => rfl
      | cons y mid =>
        rw [hnext] at hhead
        obtain rfl : fp = y := by simpa using hhead
        exact absurd List.mem_cons_self (List.disjoint_of_nodup_append hnodup (by simp))
    rw [List.append_assoc, List.singleton_append] at hchain hnodup ⊢
    have hpre : fp ∉ pre := by
      intro hmem
      exact (List.disjoint_of_nodup_append hnodup) hmem (by simp)
    have hne : x ≠ fp := by
      rintro rfl
      have htail := (List.nodup_append.mp hnodup).2.1
      simp at htail
    rw [List.erase_append_right _ hpre, List.erase_cons_tail (by simpa using hne), List.erase_cons_head]
    exact hchain.unlink
  · have hfp : fp ∉ L b := fun hmem => hb ((h.members b fp).mp hmem).2.symm
    have hx : x ∉ L b := by
      intro hmem
      have hx' : x ∈ L (d.bucket fp) := by simp [hL]
      exact hb (((h.members b x).mp hmem).2.symm.trans ((h.members _ x).mp hx').2)
    rw [List.erase_of_not_mem hfp]
    exact (h.chain b).update_notMem hx

/-! ### Objects -/

theorem not_live_brk : ¬ d.Live d.brk := fun h => lt_irrefl _ h.1

theorem ne_of_live (hlive : d.Live fp) (hx : d.brk ≤ x) : x ≠ fp := by
  rintro rfl
  exact absurd hlive.1 (Nat.not_lt.mpr hx)

theorem bump_of_ne {f : ℕ → ℕ} (h : x ≠ fp) : bump f fp x = f x := Function.update_of_ne h _ _

theorem cell_setNext (d : Data T) (fp x : ℕ) (q : Option ℕ) :
    ((d.setNext fp q).mem x).fCount = (d.mem x).fCount ∧ ((d.setNext fp q).mem x).fId = (d.mem x).fId := by
  by_cases hx : x = fp
  · subst hx
    simp [Data.setNext]
  · simp [Data.setNext, Function.update_of_ne hx]

section own
variable [DecidableEq T]

theorem cell_store (d : Data T) (t : T) (fp x : ℕ) (v : BitVec 32) (n : ℕ) :
    (((d.setCount fp v).setOwn t fp n).mem x).fNext = (d.mem x).fNext ∧
      (((d.setCount fp v).setOwn t fp n).mem x).fId = (d.mem x).fId := by
  by_cases hx : x = fp
  · subst hx
    simp [Data.setCount, Data.setOwn]
  · simp [Data.setCount, Data.setOwn, Function.update_of_ne hx]

theorem held_zero (d : Data T) (t : T) (fp : ℕ) : d.held t fp 0 = d := by
  simp [Data.held, Data.setOwn, Data.setCount]

theorem held_succ (d : Data T) (t : T) (fp n : ℕ) : (d.held t fp n).held t fp 1 = d.held t fp (n + 1) := by
  simp [Data.held, Data.setOwn, Data.setCount, BitVec.ofNat_add, Nat.add_assoc, BitVec.add_assoc]

theorem held_own (d : Data T) (t : T) (fp n : ℕ) : (d.held t fp n).own t fp = d.own t fp + n := by
  simp [Data.held, Data.setOwn]

theorem mem_malloc_of_ne (t : T) (id : ℤ) (hx : x ≠ d.brk) : (d.malloc t id).mem x = d.mem x := by
  simp [Data.malloc, Function.update_of_ne hx]

theorem live_malloc (t : T) (id : ℤ) (h : d.frees d.brk = 0) (x : ℕ) :
    (d.malloc t id).Live x ↔ d.Live x ∨ x = d.brk := by
  simp only [Data.Live, Data.malloc]
  constructor
  · rintro ⟨hx, hfree⟩
    by_cases hxe : x = d.brk
    · exact Or.inr hxe
    · exact Or.inl ⟨by omega, hfree⟩
  · rintro (⟨hx, hfree⟩ | rfl)
    · exact ⟨by omega, hfree⟩
    · exact ⟨by omega, h⟩

variable [Fintype T]

theorem refs_malloc (t : T) (id : ℤ) (h : d.refs d.brk = 0) : (d.malloc t id).refs d.brk = 1 := by
  have hown : d.own t d.brk = 0 := Nat.le_zero.mp (h ▸ own_le_refs)
  have hset := refs_setOwn d t d.brk 1
  rw [hown, h] at hset
  exact hset

theorem refs_malloc_of_ne (t : T) (id : ℤ) (hx : x ≠ d.brk) : (d.malloc t id).refs x = d.refs x :=
  refs_setOwn_of_ne 1 hx

theorem refs_store_of_ne (t : T) (v : BitVec 32) (n : ℕ) (hx : x ≠ fp) :
    ((d.setCount fp v).setOwn t fp n).refs x = d.refs x :=
  refs_setOwn_of_ne (d := d.setCount fp v) n hx

theorem refs_give (d : Data T) (u : T) (x : ℕ) (hown : 1 ≤ d.own t fp) :
    (d.give t u fp).refs x = d.refs x := by
  by_cases hx : x = fp
  · subst hx
    have hdown := refs_setOwn d t x (d.own t x - 1)
    have hup := refs_setOwn (d.setOwn t x (d.own t x - 1)) u x
      ((d.setOwn t x (d.own t x - 1)).own u x + 1)
    rw [Data.give]
    omega
  · rw [Data.give, refs_setOwn_of_ne _ hx, refs_setOwn_of_ne _ hx]

omit [Fintype T] in
theorem own_give_of_ne (d : Data T) {u v : T} (hx : x ≠ fp) : (d.give t u fp).own v x = d.own v x := by
  by_cases hu : v = u <;> by_cases ht : v = t <;> subst_vars <;>
    simp_all [Data.give, Data.setOwn, Function.update_apply]

omit [Fintype T] in
theorem own_le_give (d : Data T) {u v : T} (hv : v ≠ t) : d.own v x ≤ (d.give t u fp).own v x := by
  by_cases hx : x = fp
  · subst hx
    by_cases hu : v = u
    · subst hu
      simp [Data.give, Data.setOwn, Function.update_of_ne hv]
    · simp [Data.give, Data.setOwn, Function.update_of_ne hv, Function.update_of_ne hu]
  · rw [own_give_of_ne d hx]

end own

theorem live_mallocFree (d : Data T) (x : ℕ) : d.mallocFree.Live x ↔ d.Live x := by
  simp only [Data.Live, Data.mallocFree]
  by_cases hx : x = d.brk
  · subst hx
    simp [bump]
  · rw [bump_of_ne hx]
    omega

/-! ### Counts -/

theorem toInt_add_one {v : BitVec 32} (h : v.toInt < INT_MAX) : (v + 1).toInt = v.toInt + 1 := by
  have hle := v.le_toInt
  rw [BitVec.toInt_add, Int.bmod_def]
  simp [INT_MAX] at *
  omega

theorem toInt_sub_one {v : BitVec 32} (h : 0 < v.toInt) : (v - 1).toInt = v.toInt - 1 := by
  have hlt := v.toInt_lt
  rw [BitVec.toInt_sub, Int.bmod_def]
  simp at *
  omega

variable [Fintype T]

/-- What holds of the chains and of every object. -/
structure Counted (d : Data T) (L : Fin NHASH → List ℕ) : Prop where
  chained : Chained d L
  tableLive : ∀ fp, d.InTable fp → d.Live fp
  count : ∀ fp, d.Live fp → (d.mem fp).fCount.toInt = d.refs fp
  dead : ∀ fp, ¬ d.Live fp → d.refs fp = 0
  fresh : ∀ fp, d.brk ≤ fp → d.inserts fp = 0 ∧ d.unlinks fp = 0 ∧ d.frees fp = 0
  once : ∀ fp, d.unlinks fp ≤ d.inserts fp

theorem Counted.not_inTable_brk (h : Counted d L) : ¬ d.InTable d.brk := by
  intro hin
  have hzero := (h.fresh d.brk le_rfl).1
  rw [hin.1] at hzero
  exact absurd hzero one_ne_zero

theorem Counted.own_brk (h : Counted d L) (t : T) : d.own t d.brk = 0 :=
  Nat.le_zero.mp (h.dead _ not_live_brk ▸ own_le_refs)

variable [DecidableEq T] in
theorem Counted.malloc (h : Counted d L) (t : T) (id : ℤ) : Counted (d.malloc t id) L := by
  have hlive := live_malloc t id (h.fresh d.brk le_rfl).2.2
  constructor
  case chained =>
    refine h.chained.congr rfl (fun _ => Iff.rfl) fun x hx => ?_
    have hne : x ≠ d.brk := fun hxe => h.not_inTable_brk (hxe ▸ hx)
    rw [Data.next, Data.next, mem_malloc_of_ne t id hne]
    exact ⟨rfl, rfl⟩
  case tableLive => exact fun x hx => (hlive x).mpr (Or.inl (h.tableLive x hx))
  case count =>
    intro x hx
    by_cases hxe : x = d.brk
    · subst hxe
      rw [refs_malloc t id (h.dead _ not_live_brk)]
      simp [Data.malloc]
    · rw [mem_malloc_of_ne t id hxe, refs_malloc_of_ne t id hxe]
      exact h.count x (((hlive x).mp hx).resolve_right hxe)
  case dead =>
    intro x hx
    rw [hlive, not_or] at hx
    rw [refs_malloc_of_ne t id hx.2]
    exact h.dead x hx.1
  case fresh => exact fun x hx => h.fresh x (Nat.le_of_succ_le hx)
  case once => exact h.once

theorem Counted.mallocFree (h : Counted d L) : Counted d.mallocFree L := by
  have hlive := live_mallocFree d
  constructor
  case chained => exact ⟨h.chained.chain, h.chained.members⟩
  case tableLive => exact fun x hx => (hlive x).mpr (h.tableLive x hx)
  case count => exact fun x hx => h.count x ((hlive x).mp hx)
  case dead => exact fun x hx => h.dead x (fun hl => hx ((hlive x).mpr hl))
  case fresh =>
    intro x hx
    have hne : x ≠ d.brk := Nat.ne_of_gt hx
    simpa [Data.mallocFree, bump_of_ne hne] using h.fresh x (Nat.le_of_succ_le hx)
  case once => exact h.once

/-- The link of an object outside the table is nobody's business. -/
theorem Counted.setNext (h : Counted d L) (hfp : ¬ d.InTable fp) (q : Option ℕ) :
    Counted (d.setNext fp q) L := by
  constructor
  case chained =>
    refine h.chained.congr rfl (fun _ => Iff.rfl) fun x hx => ⟨?_, (cell_setNext d fp x q).2⟩
    have hne : x ≠ fp := fun hxe => hfp (hxe ▸ hx)
    simp [Data.next, Data.setNext, Function.update_of_ne hne]
  case count =>
    intro x hx
    rw [(cell_setNext d fp x q).1]
    exact h.count x hx
  case tableLive => exact h.tableLive
  case dead => exact h.dead
  case fresh => exact h.fresh
  case once => exact h.once

theorem Counted.insert (h : Counted d L) (hlive : d.Live fp) (hins : d.inserts fp = 0)
    (hnext : d.next fp = d.fh (d.bucket fp)) :
    Counted { d.setHead (d.bucket fp) (some fp) with inserts := bump d.inserts fp }
      (Function.update L (d.bucket fp) (fp :: L (d.bucket fp))) := by
  have hun : d.unlinks fp = 0 := Nat.le_zero.mp (hins ▸ h.once fp)
  constructor
  case chained => exact h.chained.insert hins hun hnext
  case tableLive =>
    intro x hx
    by_cases hxe : x = fp
    · exact hxe ▸ hlive
    · have hin : d.InTable x := by simpa [Data.InTable, Data.setHead, bump_of_ne hxe] using hx
      exact h.tableLive x hin
  case count => exact h.count
  case dead => exact h.dead
  case fresh =>
    intro x hx
    simpa [Data.setHead, bump_of_ne (ne_of_live hlive hx)] using h.fresh x hx
  case once =>
    intro x
    by_cases hx : x = fp
    · subst hx
      simp [Data.setHead, bump, hins, hun]
    · simpa [Data.setHead, bump_of_ne hx] using h.once x

variable [DecidableEq T] in
theorem Counted.refs_store (h : Counted d L) (hlive : d.Live fp) {v : BitVec 32} {n : ℕ}
    (hv : v.toInt + d.own t fp = (d.mem fp).fCount.toInt + n) :
    (((d.setCount fp v).setOwn t fp n).refs fp : ℤ) = v.toInt := by
  have hset := refs_setOwn (d.setCount fp v) t fp n
  have hcount := h.count fp hlive
  change _ + d.own t fp = d.refs fp + n at hset
  omega

variable [DecidableEq T] in
theorem Counted.store (h : Counted d L) (hlive : d.Live fp) {v : BitVec 32} {n : ℕ}
    (hv : v.toInt + d.own t fp = (d.mem fp).fCount.toInt + n) : Counted ((d.setCount fp v).setOwn t fp n) L := by
  constructor
  case chained => exact h.chained.congr rfl (fun _ => Iff.rfl) fun x _ => cell_store d t fp x v n
  case tableLive => exact h.tableLive
  case count =>
    intro x hx
    by_cases hxe : x = fp
    · subst hxe
      rw [h.refs_store hlive hv]
      simp [Data.setCount, Data.setOwn]
    · rw [refs_store_of_ne t v n hxe, ← h.count x hx]
      simp [Data.setCount, Data.setOwn, Function.update_of_ne hxe]
  case dead =>
    intro x hx
    have hne : x ≠ fp := fun hxe => hx (hxe ▸ hlive)
    rw [refs_store_of_ne t v n hne]
    exact h.dead x hx
  case fresh => exact h.fresh
  case once => exact h.once

variable [DecidableEq T] in
theorem Counted.give (h : Counted d L) (u : T) (hown : 1 ≤ d.own t fp) : Counted (d.give t u fp) L where
  chained := ⟨h.chained.chain, h.chained.members⟩
  tableLive := h.tableLive
  count x hx := (h.count x hx).trans (congrArg Nat.cast (refs_give d u x hown).symm)
  dead x hx := (refs_give d u x hown).trans (h.dead x hx)
  fresh := h.fresh
  once := h.once

theorem Counted.unlink (h : Counted d L) (hin : d.InTable fp) {fh : Fin NHASH → Option ℕ} {mem : ℕ → Foo}
    (hcell : ∀ x, (mem x).fCount = (d.mem x).fCount ∧ (mem x).fId = (d.mem x).fId)
    (hchain : ∀ b, Chain (fun x => (mem x).fNext) (fh b) ((L b).erase fp)) :
    Counted { d with fh, mem, unlinks := bump d.unlinks fp } fun b => (L b).erase fp := by
  constructor
  case chained => exact h.chained.unlink (fun x => (hcell x).2) hchain
  case tableLive =>
    intro x hx
    by_cases hxe : x = fp
    · exact hxe ▸ h.tableLive fp hin
    · have hin' : d.InTable x := by simpa [Data.InTable, bump_of_ne hxe] using hx
      exact h.tableLive x hin'
  case count =>
    intro x hx
    rw [(hcell x).1]
    exact h.count x hx
  case dead => exact h.dead
  case fresh =>
    intro x hx
    simpa [bump_of_ne (ne_of_live (h.tableLive fp hin) hx)] using h.fresh x hx
  case once =>
    intro x
    by_cases hx : x = fp
    · subst hx
      simp [bump, hin.1, hin.2]
    · simpa [bump_of_ne hx] using h.once x

theorem Counted.free (h : Counted d L) (hlive : d.Live fp) (hun : d.unlinks fp = 1) {own : T → ℕ → ℕ}
    {zeros : ℕ → ℕ} (hrefs : ∑ t, own t fp = 0) (hrefs_ne : ∀ x ≠ fp, ∑ t, own t x = d.refs x) :
    Counted { d with own, zeros, frees := bump d.frees fp } L := by
  have hlive' : ∀ x, Data.Live { d with own, zeros, frees := bump d.frees fp } x ↔ d.Live x ∧ x ≠ fp := by
    intro x
    by_cases hx : x = fp
    · subst hx
      simp [Data.Live, bump]
    · simp [Data.Live, bump_of_ne hx, hx]
  constructor
  case chained => exact ⟨h.chained.chain, h.chained.members⟩
  case tableLive =>
    intro x hx
    refine (hlive' x).mpr ⟨h.tableLive x hx, ?_⟩
    rintro rfl
    exact absurd (hun ▸ hx.2) (by decide)
  case count =>
    intro x hx
    obtain ⟨hx, hne⟩ := (hlive' x).mp hx
    exact (h.count x hx).trans (congrArg Nat.cast (hrefs_ne x hne).symm)
  case dead =>
    intro x hx
    by_cases hne : x = fp
    · exact hne ▸ hrefs
    · refine (hrefs_ne x hne).trans (h.dead x fun hl => hx ((hlive' x).mpr ⟨hl, hne⟩))
  case fresh =>
    intro x hx
    simpa [bump_of_ne (ne_of_live hlive hx)] using h.fresh x hx
  case once => exact h.once

end Apue.FooTable

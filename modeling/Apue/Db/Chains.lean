import Apue.Db.Disk
import Apue.Lib.Linked
import Mathlib.Data.Fin.SuccPred
import Mathlib.Data.List.Perm.Subperm

/-!
# The free list and the hash chains (db/db.c)

`Chained`: every record is in exactly one of the lists, but for those that are on their way from one to another. A
hash chain has the records whose keys hash to it, each key once, and the free list has blank ones. A record leaves a
list (`Chained.unlink`) and comes to the front of one (`Chained.push`).

`Maps`: the hash chains say what every key is bound to.
-/

namespace Apue.Db

structure Chained (d : Disk) (lists : Fin (NHASH_DEF + 1) → List ℕ) (out : List ℕ) : Prop where
  above : ∀ s ∈ d.slots, start ≤ s.off
  chain : ∀ i, Linked.Chain d.next (some (cell i)) (cell i :: lists i)
  slot : ∀ i, ∀ o ∈ lists i, ∃ s ∈ d.slots, s.off = o
  apart : ∀ i j, ∀ o ∈ lists i, o ∈ lists j → i = j
  moving : ∀ o ∈ out, (∃ s ∈ d.slots, s.off = o) ∧ ∀ i, o ∉ lists i
  cover : ∀ s ∈ d.slots, s.off ∈ out ∨ ∃ i, s.off ∈ lists i
  hash : ∀ h : Fin NHASH_DEF, ∀ o ∈ lists h.succ, _db_hash (d.key o) = h
  unique : ∀ h : Fin NHASH_DEF, ∀ o ∈ lists h.succ, ∀ o' ∈ lists h.succ, d.key o = d.key o' → o = o'
  blank : ∀ o ∈ lists 0, Blank (d.key o) ∧ Blank (d.data o)

/-- In the i-th list the pointer to the record `o` is at `c`. -/
def PointsTo (lists : Fin (NHASH_DEF + 1) → List ℕ) (i : Fin (NHASH_DEF + 1)) (c o : ℕ) : Prop :=
  ∃ pre post, cell i :: lists i = pre ++ c :: o :: post

/-- The record that `c` points to is taken out of its list. -/
def Disk.unlink (d : Disk) (c o : ℕ) : Disk := { d with next := Function.update d.next c (d.next o) }

/-- The record gets this key and comes to the front of the list. -/
def Disk.push (d : Disk) (i : Fin (NHASH_DEF + 1)) (o : ℕ) (k : CStr) : Disk :=
  { d with next := Function.update (Function.update d.next o (d.next (cell i))) (cell i) (some o),
           key := Function.update d.key o k }

def Disk.setdata (d : Disk) (o : ℕ) (v : CStr) : Disk := { d with data := Function.update d.data o v }

def Disk.addslot (d : Disk) (s : Slot) : Disk := { d with slots := d.slots ++ [s] }

section Chained
variable {d : Disk} {lists : Fin (NHASH_DEF + 1) → List ℕ} {out : List ℕ} {i j : Fin (NHASH_DEF + 1)}
  {o c : ℕ} {k v : CStr}

theorem Chained.start_le (h : Chained d lists out) (ho : o ∈ lists i) : start ≤ o := by
  obtain ⟨s, hs, rfl⟩ := h.slot i o ho
  exact h.above s hs

theorem Chained.nodup (h : Chained d lists out) (i : Fin (NHASH_DEF + 1)) : (lists i).Nodup :=
  (List.nodup_cons.mp (h.chain i).nodup).2

theorem cell_ne (i : Fin (NHASH_DEF + 1)) (ho : start ≤ o) : cell i ≠ o := by
  have := cell_lt i
  omega

theorem Chained.mem_erase (h : Chained d lists out) {o' : ℕ} :
    o' ∈ (lists i).erase o ↔ o' ∈ lists i ∧ o' ≠ o := by
  rw [(h.nodup i).mem_erase_iff, and_comm]

theorem Chained.notMem (h : Chained d lists out) (hc : c ∈ cell i :: lists i) (hij : j ≠ i) :
    c ∉ cell j :: lists j := by
  intro hcj
  rcases List.mem_cons.mp hc with rfl | hc <;> rcases List.mem_cons.mp hcj with hcj | hcj
  · exact hij (cell_injective hcj).symm
  · exact cell_ne i (h.start_le hcj) rfl
  · exact cell_ne j (h.start_le hc) hcj.symm
  · exact hij (h.apart j i c hcj hc)

theorem PointsTo.mem (h : PointsTo lists i c o) : o ∈ lists i := by
  obtain ⟨pre, post, hl⟩ := h
  cases pre with
  | nil =>
    obtain ⟨-, hl⟩ := List.cons.inj hl
    rw [hl]
    exact List.mem_cons_self
  | cons a pre =>
    obtain ⟨-, hl⟩ := List.cons.inj hl
    rw [hl]
    simp

theorem PointsTo.pointer_mem (h : PointsTo lists i c o) : c ∈ cell i :: lists i := by
  obtain ⟨pre, post, hl⟩ := h
  rw [hl]
  simp

theorem Chained.next_eq (h : Chained d lists out) (hpt : PointsTo lists i c o) : d.next c = some o := by
  obtain ⟨pre, post, hl⟩ := hpt
  have hchain := h.chain i
  rw [hl] at hchain
  exact hchain.next_eq

theorem Chained.pointer_ne (h : Chained d lists out) (hpt : PointsTo lists i c o) : c ≠ o := by
  obtain ⟨pre, post, hl⟩ := hpt
  have hnodup := (h.chain i).nodup
  rw [hl] at hnodup
  simp only [List.nodup_append, List.nodup_cons, List.mem_cons] at hnodup
  exact fun hco => hnodup.2.1.1 (.inl hco)

theorem Chained.unlink (h : Chained d lists []) (hpt : PointsTo lists i c o) :
    Chained (d.unlink c o) (fun j => (lists j).erase o) [o] := by
  have hc := hpt.pointer_mem
  have ho := hpt.mem
  obtain ⟨pre, post, hl⟩ := hpt
  have hne : cell i ≠ o := cell_ne i (h.start_le ho)
  refine ⟨h.above, ?_, ?_, ?_, ?_, ?_, ?_, ?_, ?_⟩
  · intro j
    by_cases hij : j = i
    · subst hij
      have hchain := (h.chain j).erase hl
      rw [List.erase_cons_tail (by simpa using hne)] at hchain
      exact hchain
    · have hnot : o ∉ lists j := fun hoj => hij (h.apart j i o hoj ho)
      rw [List.erase_of_not_mem hnot]
      exact (h.chain j).update_notMem (h.notMem hc hij)
  · intro j o' ho'
    exact h.slot j o' (h.mem_erase.mp ho').1
  · intro j j' o' ho' ho''
    exact h.apart j j' o' (h.mem_erase.mp ho').1 (h.mem_erase.mp ho'').1
  · intro o' ho'
    rw [List.mem_singleton.mp ho']
    exact ⟨h.slot i o ho, fun j hj => (h.mem_erase.mp hj).2 rfl⟩
  · intro s hs
    by_cases hso : s.off = o
    · exact .inl (List.mem_singleton.mpr hso)
    · obtain ⟨j, hj⟩ := (h.cover s hs).resolve_left List.not_mem_nil
      exact .inr ⟨j, h.mem_erase.mpr ⟨hj, hso⟩⟩
  · intro g o' ho'
    exact h.hash g o' (h.mem_erase.mp ho').1
  · intro g o' ho' o'' ho''
    exact h.unique g o' (h.mem_erase.mp ho').1 o'' (h.mem_erase.mp ho'').1
  · intro o' ho'
    exact h.blank o' (h.mem_erase.mp ho').1

theorem mem_update_cons {o' : ℕ} : o' ∈ Function.update lists i (o :: lists i) j ↔ o' ∈ lists j ∨ j = i ∧ o' = o := by
  rw [Function.update_apply]
  split
  · rename_i hji
    rw [List.mem_cons, hji]
    tauto
  · rename_i hji
    exact ⟨.inl, fun h => h.resolve_right fun h => hji h.1⟩

theorem Chained.push (h : Chained d lists [o])
    (hkey : ∀ g : Fin NHASH_DEF, i = g.succ → _db_hash k = g ∧ ∀ o' ∈ lists i, d.key o' ≠ k)
    (hblank : i = 0 → Blank k ∧ Blank (d.data o)) :
    Chained (d.push i o k) (Function.update lists i (o :: lists i)) [] := by
  obtain ⟨⟨s, hs, hso⟩, hnot⟩ := h.moving o (List.mem_singleton.mpr rfl)
  have hstart : start ≤ o := hso ▸ h.above s hs
  have hfresh : ∀ j, o ∉ cell j :: lists j := fun j hmem =>
    (List.mem_cons.mp hmem).elim (fun hoj => cell_ne j hstart hoj.symm) (hnot j)
  have hne : ∀ {j o'}, o' ∈ lists j → o' ≠ o := fun ho' hoo => hnot _ (hoo ▸ ho')
  refine ⟨h.above, ?_, ?_, ?_, ?_, ?_, ?_, ?_, ?_⟩
  · intro j
    by_cases hij : j = i
    · subst hij
      rw [Function.update_self]
      exact (h.chain j).push (hfresh j)
    · rw [Function.update_of_ne hij]
      exact ((h.chain j).update_notMem (hfresh j)).update_notMem (h.notMem List.mem_cons_self hij)
  · intro j o' ho'
    rcases mem_update_cons.mp ho' with ho' | ⟨-, rfl⟩
    · exact h.slot j o' ho'
    · exact ⟨s, hs, hso⟩
  · intro j j' o' ho' ho''
    rcases mem_update_cons.mp ho' with ho' | ⟨rfl, rfl⟩ <;> rcases mem_update_cons.mp ho'' with ho'' | ⟨hj, hoo⟩
    · exact h.apart j j' o' ho' ho''
    · exact absurd hoo (hne ho')
    · exact absurd rfl (hne ho'')
    · exact hj.symm
  · exact fun o' ho' => absurd ho' List.not_mem_nil
  · intro t ht
    rcases h.cover t ht with hto | ⟨j, hj⟩
    · exact .inr ⟨i, mem_update_cons.mpr (.inr ⟨rfl, List.mem_singleton.mp hto⟩)⟩
    · exact .inr ⟨j, mem_update_cons.mpr (.inl hj)⟩
  · intro g o' ho'
    rcases mem_update_cons.mp ho' with ho' | ⟨hgi, rfl⟩
    · simp only [Disk.push, Function.update_of_ne (hne ho')]
      exact h.hash g o' ho'
    · simp only [Disk.push, Function.update_self]
      exact (hkey g hgi.symm).1
  · intro g o' ho' o'' ho'' hsame
    rcases mem_update_cons.mp ho' with hin | ⟨hgi, hoo⟩ <;> rcases mem_update_cons.mp ho'' with hin' | ⟨hgi', hoo'⟩
    · simp only [Disk.push, Function.update_of_ne (hne hin), Function.update_of_ne (hne hin')] at hsame
      exact h.unique g o' hin o'' hin' hsame
    · simp only [Disk.push, hoo', Function.update_of_ne (hne hin), Function.update_self] at hsame
      exact absurd hsame ((hkey g hgi'.symm).2 o' (hgi' ▸ hin))
    · simp only [Disk.push, hoo, Function.update_of_ne (hne hin'), Function.update_self] at hsame
      exact absurd hsame.symm ((hkey g hgi.symm).2 o'' (hgi ▸ hin'))
    · exact hoo.trans hoo'.symm
  · intro o' ho'
    rcases mem_update_cons.mp ho' with ho' | ⟨hi, rfl⟩
    · simp only [Disk.push, Function.update_of_ne (hne ho')]
      exact h.blank o' ho'
    · simp only [Disk.push, Function.update_self]
      exact hblank hi.symm

theorem Chained.setdata (h : Chained d lists out) (ho : o ∈ lists 0 → Blank v) : Chained (d.setdata o v) lists out := by
  refine ⟨h.above, h.chain, h.slot, h.apart, h.moving, h.cover, h.hash, h.unique, fun o' ho' => ?_⟩
  refine ⟨(h.blank o' ho').1, ?_⟩
  simp only [Disk.setdata, Function.update_apply]
  split
  · rename_i hoo
    exact ho (hoo ▸ ho')
  · exact (h.blank o' ho').2

theorem Chained.addslot (h : Chained d lists []) {s : Slot} (hs : start ≤ s.off)
    (hnew : ∀ t ∈ d.slots, t.off ≠ s.off) :
    Chained (d.addslot s) lists [s.off] := by
  refine ⟨?_, h.chain, ?_, h.apart, ?_, ?_, h.hash, h.unique, h.blank⟩
  · intro t ht
    rcases mem_snoc.mp ht with ht | rfl
    · exact h.above t ht
    · exact hs
  · intro i o ho
    obtain ⟨t, ht, hto⟩ := h.slot i o ho
    exact ⟨t, List.mem_append_left _ ht, hto⟩
  · intro o ho
    obtain rfl := List.mem_singleton.mp ho
    refine ⟨⟨s, List.mem_append_right _ (List.mem_singleton.mpr rfl), rfl⟩, fun i hi => ?_⟩
    obtain ⟨t, ht, hto⟩ := h.slot i s.off hi
    exact hnew t ht hto
  · intro t ht
    rcases mem_snoc.mp ht with ht | rfl
    · exact .inr ((h.cover t ht).resolve_left List.not_mem_nil)
    · exact .inl (List.mem_singleton.mpr rfl)

theorem chained_empty : Chained .empty (fun _ => []) [] where
  above := fun _ hs => absurd hs List.not_mem_nil
  chain := fun _ => ⟨rfl, rfl⟩
  slot := fun _ _ ho => absurd ho List.not_mem_nil
  apart := fun _ _ _ ho => absurd ho List.not_mem_nil
  moving := fun _ ho => absurd ho List.not_mem_nil
  cover := fun _ hs => absurd hs List.not_mem_nil
  hash := fun _ _ ho => absurd ho List.not_mem_nil
  unique := fun _ _ ho => absurd ho List.not_mem_nil
  blank := fun _ ho => absurd ho List.not_mem_nil

end Chained

/-! ### What the chains say -/

/-- The list that a key belongs to. -/
def chainOf (k : CStr) : Fin (NHASH_DEF + 1) := (_db_hash k).succ

def Maps (d : Disk) (lists : Fin (NHASH_DEF + 1) → List ℕ) (m : CStr → Option CStr) : Prop :=
  ∀ k v, m k = some v ↔ ∃ o ∈ lists (chainOf k), d.key o = k ∧ d.data o = v

section Maps
variable {d : Disk} {lists : Fin (NHASH_DEF + 1) → List ℕ} {out : List ℕ} {m : CStr → Option CStr} {o : ℕ}
  {k v : CStr}

theorem Maps.none_iff (hm : Maps d lists m) : m k = none ↔ ∀ o ∈ lists (chainOf k), d.key o ≠ k := by
  rw [Option.eq_none_iff_forall_ne_some]
  constructor
  · intro h o ho hk
    exact h _ ((hm k _).mpr ⟨o, ho, hk, rfl⟩)
  · intro h v hv
    obtain ⟨o, ho, hk, -⟩ := (hm k v).mp hv
    exact h o ho hk

theorem Maps.erase (hm : Maps d lists m) (h : Chained d lists out) (ho : o ∈ lists (chainOf (d.key o)))
    {d' : Disk} {lists' : Fin (NHASH_DEF + 1) → List ℕ}
    (hlists : ∀ k o', o' ∈ lists' (chainOf k) ↔ o' ∈ lists (chainOf k) ∧ o' ≠ o)
    (hkey : ∀ o' ≠ o, d'.key o' = d.key o') (hdata : ∀ o' ≠ o, d'.data o' = d.data o') :
    Maps d' lists' (Function.update m (d.key o) none) := by
  intro k v
  have hcongr : (∃ o' ∈ lists' (chainOf k), d'.key o' = k ∧ d'.data o' = v) ↔
      ∃ o' ∈ lists (chainOf k), o' ≠ o ∧ d.key o' = k ∧ d.data o' = v := by
    constructor
    · rintro ⟨o', ho', hk, hv⟩
      obtain ⟨ho', hne⟩ := (hlists k o').mp ho'
      exact ⟨o', ho', hne, hkey o' hne ▸ hk, hdata o' hne ▸ hv⟩
    · rintro ⟨o', ho', hne, hk, hv⟩
      exact ⟨o', (hlists k o').mpr ⟨ho', hne⟩, (hkey o' hne).trans hk, (hdata o' hne).trans hv⟩
  rw [hcongr, Function.update_apply]
  split
  · rename_i hko
    subst hko
    refine ⟨fun h => absurd h (by simp), ?_⟩
    rintro ⟨o', ho', hne, hk, -⟩
    exact absurd (h.unique _ o' ho' o ho hk) hne
  · rename_i hko
    rw [hm k v]
    constructor
    · rintro ⟨o', ho', hk, hv⟩
      exact ⟨o', ho', fun hoo => hko (by rw [← hk, hoo]), hk, hv⟩
    · rintro ⟨o', ho', -, hk, hv⟩
      exact ⟨o', ho', hk, hv⟩

theorem Maps.congr (hm : Maps d lists m) {d' : Disk} {lists' : Fin (NHASH_DEF + 1) → List ℕ}
    (hlists : ∀ k, lists' (chainOf k) = lists (chainOf k))
    (hsame : ∀ k, ∀ o ∈ lists (chainOf k), d'.key o = d.key o ∧ d'.data o = d.data o) : Maps d' lists' m := by
  intro k v
  rw [hm k v, hlists k]
  constructor
  · rintro ⟨o, ho, hk, hv⟩
    exact ⟨o, ho, (hsame k o ho).1.trans hk, (hsame k o ho).2.trans hv⟩
  · rintro ⟨o, ho, hk, hv⟩
    exact ⟨o, ho, (hsame k o ho).1 ▸ hk, (hsame k o ho).2 ▸ hv⟩

theorem Chained.push_chain (h : Chained d lists [o]) (hm : Maps d lists m) (hk : m k = none) :
    Chained (d.push (chainOf k) o k) (Function.update lists (chainOf k) (o :: lists (chainOf k))) [] := by
  refine h.push (fun g hg => ⟨Fin.succ_injective _ hg, hm.none_iff.mp hk⟩) fun h0 => ?_
  exact absurd h0 (Fin.succ_ne_zero _)

theorem Maps.push (h : Chained d lists [o]) (hm : Maps d lists m) (hk : m k = none) :
    Maps (d.push (chainOf k) o k) (Function.update lists (chainOf k) (o :: lists (chainOf k)))
      (Function.update m k (some (d.data o))) := by
  have hne : ∀ {k' o'}, o' ∈ lists (chainOf k') → o' ≠ o := fun ho' hoo =>
    (h.moving o (List.mem_singleton.mpr rfl)).2 _ (hoo ▸ ho')
  intro k' v
  simp only [mem_update_cons]
  rw [Function.update_apply]
  split
  · rename_i hkk
    subst hkk
    rw [Option.some.injEq]
    constructor
    · intro hv
      exact ⟨o, .inr ⟨rfl, rfl⟩, Function.update_self .., hv⟩
    · rintro ⟨o', ho' | ⟨-, rfl⟩, hk', hv⟩
      · simp only [Disk.push, Function.update_of_ne (hne ho')] at hk'
        exact absurd hk' (hm.none_iff.mp hk o' ho')
      · exact hv
  · rename_i hkk
    rw [hm k' v]
    constructor
    · rintro ⟨o', ho', hk', hv⟩
      exact ⟨o', .inl ho', (Function.update_of_ne (hne ho') ..).trans hk', hv⟩
    · rintro ⟨o', ho' | ⟨-, rfl⟩, hk', hv⟩
      · simp only [Disk.push, Function.update_of_ne (hne ho')] at hk'
        exact ⟨o', ho', hk', hv⟩
      · simp only [Disk.push, Function.update_self] at hk'
        exact absurd hk'.symm hkk

theorem Maps.setdata (hm : Maps d lists m) (h : Chained d lists out) (ho : o ∈ lists (chainOf (d.key o))) :
    Maps (d.setdata o v) lists (Function.update m (d.key o) (some v)) := by
  intro k w
  rw [Function.update_apply]
  simp only [Disk.setdata]
  split
  · rename_i hko
    subst hko
    rw [Option.some.injEq]
    constructor
    · intro hv
      exact ⟨o, ho, rfl, by rw [Function.update_self, hv]⟩
    · rintro ⟨o', ho', hk, hv⟩
      obtain rfl := h.unique _ o' ho' o ho hk
      rw [Function.update_self] at hv
      exact hv
  · rename_i hko
    rw [hm k w]
    have hne : ∀ {o'}, d.key o' = k → o' ≠ o := fun hk hoo => hko (by rw [← hk, hoo])
    constructor
    · rintro ⟨o', ho', hk, hv⟩
      exact ⟨o', ho', hk, (Function.update_of_ne (hne hk) ..).trans hv⟩
    · rintro ⟨o', ho', hk, hv⟩
      rw [Function.update_of_ne (hne hk)] at hv
      exact ⟨o', ho', hk, hv⟩

theorem maps_empty : Maps .empty (fun _ => []) fun _ => none := by
  intro k v
  simp

end Maps

end Apue.Db

import Apue.Lib.Slots

/-!
# The client table (Chapter-17/open-2/17-27.c)

`client` is an array of `client_size` slots, null at first; `client_alloc` makes it longer by `NALLOC`
free slots, `client_add` takes the first free one, `client_del` frees the one with the descriptor. A slot
whose `fd` is -1 is `none`: its `uid` is never read.
-/

namespace Apue.OpenServer
open Slots

def NALLOC : ℕ := 10

structure Client where
  fd : ℕ
  uid : UInt32
  deriving DecidableEq

/-- The globals `client` and `client_size`; the array has `client_size` slots. -/
structure Clients where
  client : Option (List (Option Client))
  client_size : ℕ
  size : (client.getD []).length = client_size

namespace Clients

/-- The slots of the array. -/
def array (t : Clients) : List (Option Client) := t.client.getD []

theorem length_array (t : Clients) : t.array.length = t.client_size := t.size

/-- Before the first `client_alloc`. -/
def start : Clients := ⟨none, 0, rfl⟩

/-- `client_alloc`. -/
def clientAlloc (t : Clients) : Clients where
  client := some (t.array ++ List.replicate NALLOC none)
  client_size := t.client_size + NALLOC
  size := by
    rw [Option.getD_some, List.length_append, List.length_replicate, t.length_array]

/-- An assignment to slot `i`. -/
def put (t : Clients) (i : ℕ) (c : Option Client) : Clients where
  client := t.client.map fun l => l.set i c
  client_size := t.client_size
  size := by
    rw [← t.size]
    cases t.client with
    | none => rfl
    | some l => exact List.length_set

/-- The loop over the slots of `client_add`. -/
def freeSlot (t : Clients) : Option ℕ := t.array.findIdx? Option.isNone

theorem array_clientAlloc (t : Clients) :
    t.clientAlloc.array = t.array ++ List.replicate NALLOC none := rfl

theorem freeSlot_clientAlloc (t : Clients) : t.clientAlloc.freeSlot ≠ none := by
  intro h
  have hall := List.findIdx?_eq_none_iff.mp h none
  rw [array_clientAlloc] at hall
  exact absurd (hall (List.mem_append_right _ (by simp [NALLOC]))) (by simp)

/-- `client_add` from `again` on. -/
def again (t : Clients) (fd : ℕ) (uid : UInt32) : ℕ × Clients :=
  match _h : t.freeSlot with
  | some i => (i, t.put i (some ⟨fd, uid⟩))
  | none => again t.clientAlloc fd uid
termination_by if t.freeSlot = none then 1 else 0
decreasing_by
  rw [if_neg t.freeSlot_clientAlloc, if_pos ‹_›]
  exact Nat.one_pos

/-- `client_add`. -/
def clientAdd (t : Clients) (fd : ℕ) (uid : UInt32) : ℕ × Clients :=
  again (if t.client = none then t.clientAlloc else t) fd uid

/-- `client_del`; `none` when it calls `log_quit`. -/
def clientDel (t : Clients) (fd : ℕ) : Option Clients :=
  (t.array.findIdx? fun c => (c.map Client.fd) = some fd).map fun i => t.put i none

/-! ### What the operations do to the slots -/

@[simp] theorem slot_start : slot start.array = fun _ => none := slot_nil

theorem slot_clientAlloc (t : Clients) : slot t.clientAlloc.array = slot t.array := by
  rw [array_clientAlloc, slot_append_replicate]

theorem array_put (t : Clients) (i : ℕ) (c : Option Client) : (t.put i c).array = t.array.set i c := by
  show (t.client.map fun l => l.set i c).getD [] = (t.client.getD []).set i c
  cases t.client with
  | none => rfl
  | some l => rfl

theorem again_spec (t : Clients) (fd : ℕ) (uid : UInt32) :
    ∃ i t', again t fd uid = (i, t') ∧ i < t'.client_size ∧ t.client_size ≤ t'.client_size ∧
      slot t.array i = none ∧
      slot t'.array = Function.update (slot t.array) i (some ⟨fd, uid⟩) := by
  induction t using again.induct with
  | case1 t i hfree =>
    obtain ⟨hlt, hslot⟩ := slot_of_findIdx? hfree
    refine ⟨i, t.put i (some ⟨fd, uid⟩), ?_, ?_, Nat.le_refl _, hslot, ?_⟩
    · unfold again
      split
      · rename_i j hj
        rw [hfree, Option.some.injEq] at hj
        rw [hj]
      · rename_i hnone
        rw [hfree] at hnone
        exact absurd hnone (by simp)
    · rw [length_array] at hlt
      exact hlt
    · rw [array_put, slot_set hlt]
  | case2 t hnone ih =>
    obtain ⟨i, t', hagain, hlt, hle, hslot, hslots⟩ := ih
    rw [slot_clientAlloc] at hslot hslots
    refine ⟨i, t', ?_, hlt, Nat.le_trans (Nat.le_add_right _ _) hle, hslot, hslots⟩
    unfold again
    split
    · rename_i j hj
      rw [hnone] at hj
      exact absurd hj (by simp)
    · exact hagain

theorem clientAdd_spec (t : Clients) (fd : ℕ) (uid : UInt32) :
    ∃ i t', clientAdd t fd uid = (i, t') ∧ i < t'.client_size ∧ t.client_size ≤ t'.client_size ∧
      slot t.array i = none ∧
      slot t'.array = Function.update (slot t.array) i (some ⟨fd, uid⟩) := by
  unfold clientAdd
  split
  · obtain ⟨i, t', hagain, hlt, hle, hslot, hslots⟩ := again_spec t.clientAlloc fd uid
    rw [slot_clientAlloc] at hslot hslots
    exact ⟨i, t', hagain, hlt, Nat.le_trans (Nat.le_add_right _ _) hle, hslot, hslots⟩
  · exact again_spec t fd uid

theorem client_size_again (t : Clients) (fd : ℕ) (uid : UInt32) :
    (again t fd uid).2.client_size = if t.freeSlot = none then t.client_size + NALLOC else t.client_size := by
  unfold again
  split
  · rename_i i hfree
    rw [if_neg (by simp [hfree])]
    rfl
  · rename_i hnone
    rw [if_pos hnone]
    unfold again
    split
    · rfl
    · rename_i hnone'
      exact absurd hnone' t.freeSlot_clientAlloc

theorem client_size_clientAdd (t : Clients) (fd : ℕ) (uid : UInt32) :
    (clientAdd t fd uid).2.client_size = t.client_size ∨
      (clientAdd t fd uid).2.client_size = t.client_size + NALLOC := by
  unfold clientAdd
  split
  · rw [client_size_again, if_neg t.freeSlot_clientAlloc]
    exact Or.inr rfl
  · rw [client_size_again]
    split
    · exact Or.inr rfl
    · exact Or.inl rfl

theorem clientDel_spec {t : Clients} {i : ℕ} {c : Client} (hslot : slot t.array i = some c)
    (huniq : ∀ j c', slot t.array j = some c' → c'.fd = c.fd → j = i) :
    ∃ t', clientDel t c.fd = some t' ∧ t'.client_size = t.client_size ∧
      slot t'.array = Function.update (slot t.array) i none := by
  have hlt := lt_of_slot hslot
  have hfind : (t.array.findIdx? fun c' => (c'.map Client.fd) = some c.fd) = some i := by
    rw [List.findIdx?_eq_some_iff_getElem]
    refine ⟨hlt, ?_, ?_⟩
    · have hget := getElem?_of_slot hslot
      rw [List.getElem?_eq_getElem hlt, Option.some.injEq] at hget
      simp [hget]
    · intro j hj hsame
      rw [decide_eq_true_eq, Option.map_eq_some_iff] at hsame
      obtain ⟨c', hc', hfd⟩ := hsame
      have hslot' : slot t.array j = some c' := by
        rw [← hc']
        exact slot_of_getElem? (List.getElem?_eq_getElem _)
      exact absurd (huniq j c' hslot' hfd) (by omega)
  refine ⟨t.put i none, ?_, rfl, ?_⟩
  · rw [clientDel, hfind, Option.map_some]
  · rw [array_put, slot_set hlt]

end Clients

end Apue.OpenServer

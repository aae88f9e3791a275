import Apue.OpenServer.ClientTable
import Apue.Lib.Transition
import Mathlib.Data.List.Nodup
import Mathlib.Data.List.Perm.Subperm

/-!
# The client table over time (Chapter-17/open-2/17-27.c)

Any sequence of `client_add` and `client_del` calls: a descriptor that is not in the table is added, one
that is in it is deleted. `live` are the clients that were added and not deleted, each with the index that
`client_add` returned for it. `client_table_run` says that they are the occupied slots.
-/

namespace Apue.OpenServer
open Clients Slots Transition

structure History where
  table : Clients
  live : List (ℕ × Client)

namespace History

inductive Op where
  | add (fd : ℕ) (uid : UInt32)
  | del (fd : ℕ)

/-- There is a client with this descriptor. -/
def Has (h : History) (fd : ℕ) : Prop := fd ∈ h.live.map fun x => x.2.fd

instance (h : History) (fd : ℕ) : Decidable (h.Has fd) := inferInstanceAs (Decidable (_ ∈ _))

/-- A call; none when `client_del` calls `log_quit`. -/
def step (h : History) : Op → Option History
  | .add fd uid =>
    if h.Has fd then none
    else some
      { table := (clientAdd h.table fd uid).2
        live := h.live ++ [((clientAdd h.table fd uid).1, ⟨fd, uid⟩)] }
  | .del fd =>
    if h.Has fd then
      (clientDel h.table fd).map fun table => { table, live := h.live.filter fun x => x.2.fd ≠ fd }
    else none

def start : History := ⟨Clients.start, []⟩

/-! ### The invariant -/

structure Inv (h : History) : Prop where
  slots : ∀ i c, slot h.table.array i = some c ↔ (i, c) ∈ h.live
  fds : (h.live.map fun x => x.2.fd).Nodup
  size : NALLOC ∣ h.table.client_size

variable {h h' : History} {fd i : ℕ} {uid : UInt32} {c : Client} {op : Op}

theorem Inv.uniq (hinv : Inv h) {j : ℕ} {c' : Client} (hi : slot h.table.array i = some c)
    (hj : slot h.table.array j = some c') (hfd : c'.fd = c.fd) : j = i := by
  have hpair := List.inj_on_of_nodup_map hinv.fds ((hinv.slots j c').mp hj) ((hinv.slots i c).mp hi) hfd
  exact (Prod.mk.inj hpair).1

theorem Inv.indices (hinv : Inv h) : (h.live.map Prod.fst).Nodup := by
  refine List.Nodup.map_on ?_ (List.Nodup.of_map _ hinv.fds)
  rintro ⟨i, c⟩ hi ⟨j, c'⟩ hj hij
  obtain rfl : i = j := hij
  have hslot := ((hinv.slots i c).mpr hi).symm.trans ((hinv.slots i c').mpr hj)
  rw [Option.some.inj hslot]

theorem Inv.length_le (hinv : Inv h) : h.live.length ≤ h.table.client_size := by
  have hsub : h.live.map Prod.fst ⊆ List.range h.table.client_size := by
    intro i hi
    obtain ⟨⟨j, c⟩, hx, rfl⟩ := List.mem_map.mp hi
    have hlt := lt_of_slot ((hinv.slots j c).mpr hx)
    rw [length_array] at hlt
    exact List.mem_range.mpr hlt
  have hle := (hinv.indices.subperm hsub).length_le
  rwa [List.length_map, List.length_range] at hle

theorem Inv.slot_of_has (hinv : Inv h) (hfd : h.Has fd) :
    ∃ i c, slot h.table.array i = some c ∧ c.fd = fd := by
  obtain ⟨⟨i, c⟩, hx, rfl⟩ := List.mem_map.mp hfd
  exact ⟨i, c, (hinv.slots i c).mpr hx, rfl⟩

/-! ### The two operations -/

/-- `client_add` returns the index of a slot that was free, puts the client there and leaves the other slots
alone; the array grows at most once. -/
structure Added (h : History) (fd : ℕ) (uid : UInt32) (i : ℕ) (t : Clients) : Prop where
  free : slot h.table.array i = none
  slots : slot t.array = Function.update (slot h.table.array) i (some ⟨fd, uid⟩)
  size : t.client_size = h.table.client_size ∨ t.client_size = h.table.client_size + NALLOC

theorem added (h : History) (fd : ℕ) (uid : UInt32) :
    Added h fd uid (clientAdd h.table fd uid).1 (clientAdd h.table fd uid).2 := by
  obtain ⟨i, t, hadd, -, -, hfree, hslots⟩ := clientAdd_spec h.table fd uid
  have hsize := client_size_clientAdd h.table fd uid
  rw [hadd] at hsize ⊢
  exact ⟨hfree, hslots, hsize⟩

theorem Inv.deleted (hinv : Inv h) (hi : slot h.table.array i = some c) :
    ∃ t, clientDel h.table c.fd = some t ∧ t.client_size = h.table.client_size ∧
      slot t.array = Function.update (slot h.table.array) i none :=
  clientDel_spec hi fun _ _ hj hfd => hinv.uniq hi hj hfd

theorem Inv.add (hinv : Inv h) (hs : step h (.add fd uid) = some h') : Inv h' := by
  obtain ⟨hnot, hs⟩ := Option.ite_none_left_eq_some.mp hs
  obtain rfl := Option.some.inj hs
  obtain ⟨hfree, hslots, hsize⟩ := added h fd uid
  refine ⟨fun j c => ?_, ?_, ?_⟩
  · show slot (clientAdd h.table fd uid).2.array j = some c ↔ _
    rw [hslots, List.mem_append, List.mem_singleton, Prod.mk.injEq]
    by_cases hj : j = (clientAdd h.table fd uid).1
    · subst hj
      have hnone : ((clientAdd h.table fd uid).1, c) ∉ h.live := by
        rw [← hinv.slots, hfree]
        simp
      simp [hnone, eq_comm]
    · rw [Function.update_of_ne hj, hinv.slots]
      simp [hj]
  · rw [List.map_append, List.nodup_append]
    refine ⟨hinv.fds, List.nodup_singleton _, fun a ha b hb => ?_⟩
    obtain rfl := List.mem_singleton.mp hb
    rintro rfl
    exact hnot ha
  · show NALLOC ∣ (clientAdd h.table fd uid).2.client_size
    obtain hsize | hsize := hsize
    · rw [hsize]
      exact hinv.size
    · rw [hsize]
      exact Nat.dvd_add hinv.size (Nat.dvd_refl _)

theorem Inv.del (hinv : Inv h) (hs : step h (.del fd) = some h') : Inv h' := by
  obtain ⟨hhas, hs⟩ := Option.ite_none_right_eq_some.mp hs
  obtain ⟨i, c, hi, rfl⟩ := hinv.slot_of_has hhas
  obtain ⟨t, hdel, hsize, hslots⟩ := hinv.deleted hi
  rw [hdel, Option.map_some, Option.some.injEq] at hs
  subst hs
  refine ⟨fun j c' => ?_, hinv.fds.sublist (List.filter_sublist.map _), hsize ▸ hinv.size⟩
  show slot t.array j = some c' ↔ _
  rw [hslots, List.mem_filter, ← hinv.slots]
  by_cases hj : j = i
  · subst hj
    rw [Function.update_self]
    simp only [reduceCtorEq, false_iff, not_and]
    intro hc'
    rw [hi, Option.some.injEq] at hc'
    simp [hc']
  · rw [Function.update_of_ne hj]
    refine (and_iff_left_of_imp fun hc' => ?_).symm
    have hne : c'.fd ≠ c.fd := fun hfd => hj (hinv.uniq hi hc' hfd)
    simpa using hne

theorem step_inv (h : History) (op : Op) (h' : History) (hinv : Inv h) (hs : step h op = some h') : Inv h' := by
  cases op with
  | add fd uid => exact hinv.add hs
  | del fd => exact hinv.del hs

theorem start_inv : Inv start where
  slots i c := by simp [start]
  fds := List.nodup_nil
  size := Nat.dvd_zero _

/-! ### Every run -/

/-- What the table promises after any calls: its occupied slots are the clients added and not deleted, each in
the slot that `client_add` returned. The next call does what it should, whatever it is. -/
structure Right (h : History) : Prop where
  slots : ∀ i c, slot h.table.array i = some c ↔ (i, c) ∈ h.live
  indices : (h.live.map Prod.fst).Nodup
  fds : (h.live.map fun x => x.2.fd).Nodup
  size : NALLOC ∣ h.table.client_size ∧ h.live.length ≤ h.table.client_size
  add : ∀ fd uid, ¬ h.Has fd → ∃ h', step h (.add fd uid) = some h' ∧
    Added h fd uid (clientAdd h.table fd uid).1 h'.table ∧
      h'.live = h.live ++ [((clientAdd h.table fd uid).1, ⟨fd, uid⟩)]
  del : ∀ fd, h.Has fd → ∃ h' i c, step h (.del fd) = some h' ∧ slot h.table.array i = some c ∧ c.fd = fd ∧
    slot h'.table.array = Function.update (slot h.table.array) i none ∧
      h'.table.client_size = h.table.client_size

theorem Inv.right (hinv : Inv h) : Right h where
  slots := hinv.slots
  indices := hinv.indices
  fds := hinv.fds
  size := ⟨hinv.size, hinv.length_le⟩
  add fd uid hnot := ⟨_, if_neg hnot, added h fd uid, rfl⟩
  del fd hhas := by
    obtain ⟨i, c, hi, rfl⟩ := hinv.slot_of_has hhas
    obtain ⟨t, hdel, hsize, hslots⟩ := hinv.deleted hi
    refine ⟨⟨t, h.live.filter fun x => x.2.fd ≠ c.fd⟩, i, c, ?_, hi, rfl, hslots, hsize⟩
    rw [step, if_pos hhas, hdel]
    rfl

theorem client_table_run (hreach : Reaches step start h) : Right h :=
  (hreach.invariant step_inv start_inv).right

/-- Two clients, of whom the first leaves. -/
theorem client_table_run_leave : ∃ h, Right h ∧ h.live.map Prod.snd = [⟨6, 1000⟩] := by
  obtain ⟨h₁, hs₁, -, hl₁⟩ := (client_table_run (Reaches.refl step start)).add 5 0 (by decide)
  have hreach₁ : Reaches step start h₁ := (Reaches.refl _ _).head hs₁
  obtain ⟨h₂, hs₂, -, hl₂⟩ := (client_table_run hreach₁).add 6 1000 (by simp [Has, hl₁, start])
  have hreach₂ : Reaches step start h₂ := hreach₁.trans ((Reaches.refl _ _).head hs₂)
  obtain ⟨h₃, i, c, hs₃, -⟩ := (client_table_run hreach₂).del 5 (by simp [Has, hl₁, hl₂, start])
  refine ⟨h₃, client_table_run (hreach₂.trans ((Reaches.refl _ _).head hs₃)), ?_⟩
  obtain ⟨-, hs₃⟩ := Option.ite_none_right_eq_some.mp hs₃
  obtain ⟨t, -, rfl⟩ := Option.map_eq_some_iff.mp hs₃
  simp [hl₁, hl₂, start]

end History

end Apue.OpenServer

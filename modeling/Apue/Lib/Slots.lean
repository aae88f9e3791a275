import Mathlib.Data.List.Basic
import Mathlib.Logic.Function.Basic

/-!
# Arrays of slots

An array of slots is a list of `Option A`: a slot is free or holds something. `slot l i` is what is in
slot `i`; outside of the array there is nothing. The lemmas say what putting something into a slot, or
more free slots at the end, changes.
-/

namespace Slots

variable {A : Type*} {l : List (Option A)} {i : ℕ}

/-- What is in slot `i`. -/
def slot (l : List (Option A)) (i : ℕ) : Option A := (l[i]?).join

@[simp] theorem slot_nil : slot ([] : List (Option A)) = fun _ => none := by
  funext i
  simp [slot]

theorem slot_of_getElem? {v : Option A} (h : l[i]? = some v) : slot l i = v := by
  rw [slot, h, Option.join_some]

theorem lt_of_slot {a : A} (h : slot l i = some a) : i < l.length := by
  by_contra hge
  rw [slot, List.getElem?_eq_none (by omega), Option.join_none] at h
  exact absurd h (by simp)

theorem getElem?_of_slot {a : A} (h : slot l i = some a) : l[i]? = some (some a) := by
  have hlt := lt_of_slot h
  rw [slot, List.getElem?_eq_getElem hlt, Option.join_some] at h
  rw [List.getElem?_eq_getElem hlt, h]

theorem slot_set (h : i < l.length) (v : Option A) :
    slot (l.set i v) = Function.update (slot l) i v := by
  funext j
  by_cases hj : j = i
  · subst hj
    rw [Function.update_self, slot, List.getElem?_set_self h, Option.join_some]
  · rw [Function.update_of_ne hj, slot, slot, List.getElem?_set_ne (Ne.symm hj)]

/-- Free slots at the end are as good as none. -/
theorem slot_append_replicate (n : ℕ) : slot (l ++ List.replicate n none) = slot l := by
  funext i
  unfold slot
  by_cases h : i < l.length
  · rw [List.getElem?_append_left h]
  · have hout : l[i]? = none := List.getElem?_eq_none (by omega)
    rw [List.getElem?_append_right (by omega), hout, List.getElem?_replicate]
    split
    · rfl
    · rfl

theorem slot_of_findIdx? (h : l.findIdx? Option.isNone = some i) : i < l.length ∧ slot l i = none := by
  obtain ⟨hlt, hnone, -⟩ := List.findIdx?_eq_some_iff_getElem.mp h
  refine ⟨hlt, ?_⟩
  rw [slot, List.getElem?_eq_getElem hlt, Option.join_some]
  exact Option.isNone_iff_eq_none.mp hnone

end Slots

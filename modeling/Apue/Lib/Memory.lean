import Mathlib.Data.List.Basic
import Mathlib.Data.Nat.Notation

/-!
# Memory as a function of the address

* `load mem a k`: the `k` cells from `a` on.
* `store mem a bs`: the memory with `bs` from `a` on.
* `load_store` says that a piece is found where it was put; pieces are joined by `load_add` and `store_store`.
-/

namespace Memory

variable {A : Type*}

def load (mem : ℕ → A) (a k : ℕ) : List A := (List.range k).map fun i => mem (a + i)

def store (mem : ℕ → A) (a : ℕ) (bs : List A) : ℕ → A :=
  fun b => if a ≤ b then (bs[b - a]?).getD (mem b) else mem b

section lemmas
variable (mem : ℕ → A) (a k l : ℕ) (bs cs : List A)

@[simp] theorem length_load : (load mem a k).length = k := by simp [load]

@[simp] theorem load_zero : load mem a 0 = [] := rfl

@[simp] theorem store_nil : store mem a [] = mem := by
  funext b
  simp [store]

theorem load_add : load mem a (k + l) = load mem a k ++ load mem (a + k) l := by
  simp [load, List.range_add, Function.comp_def, Nat.add_assoc]

theorem take_load (h : k ≤ l) : (load mem a l).take k = load mem a k := by
  obtain ⟨m, rfl⟩ := Nat.exists_eq_add_of_le h
  rw [load_add, List.take_left' (length_load mem a k)]

theorem load_store : load (store mem a bs) a bs.length = bs := by
  refine List.ext_getElem (by simp) fun i hi hi' => ?_
  simp [load, store, hi']

theorem store_store : store (store mem a bs) (a + bs.length) cs = store mem a (bs ++ cs) := by
  funext b
  simp only [store]
  by_cases hb : a + bs.length ≤ b
  · have hsub : b - a - bs.length = b - (a + bs.length) := Nat.sub_sub ..
    have hnone : bs[b - a]? = none := List.getElem?_eq_none (by omega)
    rw [if_pos hb, if_pos (by omega), if_pos (by omega), List.getElem?_append_right (by omega), hsub, hnone,
      Option.getD_none]
  · rw [if_neg hb]
    by_cases ha : a ≤ b
    · rw [if_pos ha, if_pos ha, List.getElem?_append_left (by omega)]
    · rw [if_neg ha, if_neg ha]

end lemmas

end Memory

import Mathlib.Data.List.Flatten
import Mathlib.Data.List.Basic

/-!
# Breadth-first search of a tree

A tree is seen through the children of each node, in order.

* `level children k q`: the nodes `k` steps below those of `q`; `upTo children n q`: the first `n` levels, one
  after the other.
* `search children found fuel q`: the search with a queue. It looks at the first node, and puts its children at
  the end.
* `search_eq`: when some level is empty, the search ends, and it has found the first one level by level.
-/

namespace Levels

variable {D R : Type*} (children : D → List D)

def level : ℕ → List D → List D
  | 0, q => q
  | k + 1, q => level k (q.flatMap children)

def upTo : ℕ → List D → List D
  | 0, _ => []
  | n + 1, q => q ++ upTo n (q.flatMap children)

/-- None when the fuel runs out. -/
def search (found : D → Option R) : ℕ → List D → Option (Option R)
  | 0, _ => none
  | _ + 1, [] => some none
  | fuel + 1, d :: rest =>
    match found d with
    | some r => some (some r)
    | none => search found fuel (rest ++ children d)

variable {children} {found : D → Option R} {d : D} {p q rest : List D} {k n fuel : ℕ}

theorem level_append : level children k (p ++ q) = level children k p ++ level children k q := by
  induction k generalizing p q with
  | zero => rfl
  | succ k ih => rw [level, List.flatMap_append, ih]; rfl

/-- The children of one level are the next one. -/
theorem level_succ : level children (k + 1) q = (level children k q).flatMap children := by
  induction k generalizing q with
  | zero => rfl
  | succ k ih => exact ih

theorem upTo_nil : upTo children n [] = [] := by
  induction n with
  | zero => rfl
  | succ n ih => exact ih

theorem mem_upTo : d ∈ upTo children n q ↔ ∃ k < n, d ∈ level children k q := by
  induction n generalizing q with
  | zero => simp [upTo]
  | succ n ih =>
    rw [upTo, List.mem_append, ih]
    constructor
    · rintro (hd | ⟨k, hk, hd⟩)
      · exact ⟨0, Nat.succ_pos n, hd⟩
      · exact ⟨k + 1, Nat.succ_lt_succ hk, hd⟩
    · rintro ⟨k, hk, hd⟩
      cases k with
      | zero => exact .inl hd
      | succ k => exact .inr ⟨k, Nat.lt_of_succ_lt_succ hk, hd⟩

/-- The first nodes, and then the tree below the others and their children. -/
theorem upTo_append (p rest : List D) : upTo children n (p ++ rest) ++ level children n p =
    p ++ upTo children n (rest ++ p.flatMap children) := by
  induction n generalizing p rest with
  | zero => exact (List.append_nil p).symm
  | succ n ih =>
    have hih := ih (p.flatMap children) (rest.flatMap children)
    rw [upTo, upTo, level, List.flatMap_append, List.flatMap_append, List.append_assoc, hih]
    simp only [List.append_assoc]

/-- When some level is empty, the search finds what comes first in the levels above. -/
theorem search_eq (hempty : level children n q = []) (hfuel : (upTo children n q).length < fuel) :
    search children found fuel q = some ((upTo children n q).findSome? found) := by
  induction fuel generalizing q with
  | zero => exact absurd hfuel (Nat.not_lt_zero _)
  | succ fuel ih =>
    cases q with
    | nil => rw [search, upTo_nil, List.findSome?_nil]
    | cons d rest =>
      obtain ⟨hd, hrest⟩ := List.append_eq_nil_iff.1 ((level_append (p := [d])).symm.trans hempty)
      have hnext : level children n (rest ++ children d) = [] := by
        have hchildren : level children n (children d) = level children (n + 1) [d] := by
          rw [level, List.flatMap_singleton]
        rw [level_append, hrest, hchildren, level_succ, hd]
        rfl
      have hcons : upTo children n (d :: rest) = d :: upTo children n (rest ++ children d) := by
        have happend : upTo children n ([d] ++ rest) ++ level children n [d] = _ := upTo_append [d] rest
        rwa [hd, List.append_nil, List.flatMap_singleton] at happend
      rw [hcons, List.length_cons] at hfuel
      rw [search, hcons, List.findSome?_cons]
      cases hfound : found d with
      | some r => rfl
      | none => exact ih hnext (Nat.lt_of_succ_lt_succ hfuel)

end Levels

import Mathlib.Data.List.Nodup
import Mathlib.Logic.Function.Basic

/-!
# Linked lists in memory

Memory is seen through its link fields: `next : A → Option A` (and `prev` for doubly linked lists)
over an arbitrary type `A` of addresses, `none` being the null pointer.

* `Chain next p l`: following `next` from the pointer `p` visits exactly `l` and ends in null. A
  chain is determined by its first pointer (`Chain.unique`), so it has no cycle (`Chain.nodup`). `Chain.erase`
  takes a cell out, `Chain.push` and `Chain.snoc` put one in.
* `DSeg next prev p l q`: the cells of `l` are doubly linked in this order, the first one's `prev`
  being `p` and the last one's `next` being `q`. `dseg_append` cuts a segment in two; the `_congr`
  lemmas say that only the links of members matter; `DSeg.setNext_last` and `DSeg.setPrev_first`
  redirect the two ends.
-/

namespace Linked

variable {A : Type*}

/-! ### Singly linked -/

/-- Following `next` from `p` visits exactly `l` and ends in null. -/
def Chain (next : A → Option A) : Option A → List A → Prop
  | p, [] => p = none
  | p, a :: l => p = some a ∧ Chain next (next a) l

section Chain
variable {next next' : A → Option A} {p : Option A} {a b : A} {l l' pre post : List A}

@[simp] theorem chain_nil : Chain next p [] ↔ p = none := Iff.rfl

@[simp] theorem chain_cons : Chain next p (a :: l) ↔ p = some a ∧ Chain next (next a) l := Iff.rfl

theorem chain_congr (h : ∀ x ∈ l, next x = next' x) : Chain next p l ↔ Chain next' p l := by
  induction l generalizing p with
  | nil => rfl
  | cons x l ih =>
    rw [chain_cons, chain_cons, h x (by simp), ih fun y hy => h y (by simp [hy])]

theorem Chain.unique (h : Chain next p l) (h' : Chain next p l') : l = l' := by
  induction l generalizing p l' with
  | nil =>
    cases l' with
    | nil => rfl
    | cons y l' => exact absurd (h.symm.trans h'.1) (by simp)
  | cons x l ih =>
    cases l' with
    | nil => exact absurd (h'.symm.trans h.1) (by simp)
    | cons y l' =>
      obtain rfl : x = y := Option.some.inj (h.1.symm.trans h'.1)
      rw [ih h.2 h'.2]

theorem Chain.head_eq (h : Chain next p l) : p = l.head? := by
  cases l with
  | nil => exact h
  | cons x l => exact h.1

theorem Chain.suffix (h : Chain next p (pre ++ a :: post)) : Chain next (some a) (a :: post) := by
  induction pre generalizing p with
  | nil => exact ⟨rfl, h.2⟩
  | cons x pre ih => exact ih h.2

theorem Chain.nodup (h : Chain next p l) : l.Nodup := by
  induction l generalizing p with
  | nil => exact List.nodup_nil
  | cons x l ih =>
    refine List.nodup_cons.mpr ⟨fun hmem => ?_, ih h.2⟩
    obtain ⟨pre, post, rfl⟩ := List.append_of_mem hmem
    have hfirst : Chain next (some x) (x :: (pre ++ x :: post)) := ⟨rfl, h.2⟩
    have hsecond : Chain next (some x) (x :: post) := Chain.suffix h.2
    have hlen := congrArg List.length (hfirst.unique hsecond)
    simp at hlen
    omega

/-- The pointer a walk stands at: null after the last cell, the next cell before it. -/
theorem Chain.next_eq (h : Chain next p (pre ++ a :: post)) : next a = post.head? := by
  have hsuf := h.suffix.2
  cases post with
  | nil => exact hsuf
  | cons b post => exact hsuf.1

variable [DecidableEq A]

theorem Chain.update_notMem {v : Option A} (h : Chain next p l) (ha : a ∉ l) :
    Chain (Function.update next a v) p l :=
  (chain_congr fun x hx => by rw [Function.update_of_ne (ne_of_mem_of_not_mem hx ha)]).mp h

/-- Pointing the cell before `a` past it takes `a` out of the chain. -/
theorem Chain.unlink (h : Chain next p (pre ++ b :: a :: post)) :
    Chain (Function.update next b (next a)) p (pre ++ b :: post) := by
  have hnodup := h.nodup
  induction pre generalizing p with
  | nil =>
    obtain ⟨hp, hb, hpost⟩ := h
    have hnot : b ∉ post := by simp at hnodup; tauto
    refine ⟨hp, ?_⟩
    rw [Function.update_self]
    exact hpost.update_notMem hnot
  | cons x pre ih =>
    have hx : x ≠ b := by rintro rfl; simp at hnodup
    refine ⟨h.1, ?_⟩
    rw [Function.update_of_ne hx]
    exact ih h.2 (List.Nodup.of_cons hnodup)

theorem Chain.snoc (h : Chain next p (l ++ [a])) (hb : b ∉ l ++ [a]) (hnext : next b = none) :
    Chain (Function.update next a (some b)) p (l ++ [a, b]) := by
  have hnodup := h.nodup
  induction l generalizing p with
  | nil =>
    have hne : b ≠ a := by simpa using hb
    exact ⟨h.1, Function.update_self .., by rw [chain_nil, Function.update_of_ne hne, hnext]⟩
  | cons x l ih =>
    have hx : x ≠ a := by
      rintro rfl
      simp at hnodup
    refine ⟨h.1, ?_⟩
    rw [Function.update_of_ne hx]
    exact ih h.2 (fun hmem => hb (List.mem_cons_of_mem x hmem)) (List.Nodup.of_cons hnodup)

theorem Chain.erase (h : Chain next p l) (hl : l = pre ++ b :: a :: post) :
    Chain (Function.update next b (next a)) p (l.erase a) := by
  have hnodup := h.nodup
  subst hl
  have hpre : a ∉ pre ∧ a ≠ b := by
    simp only [List.nodup_append, List.nodup_cons, List.mem_cons] at hnodup
    exact ⟨fun ha => hnodup.2.2 a ha a (.inr (.inl rfl)) rfl, fun hab => hnodup.2.1.1 (.inl hab.symm)⟩
  rw [List.erase_append_right _ hpre.1, List.erase_cons_tail (by simpa using hpre.2.symm), List.erase_cons_head]
  exact h.unlink

theorem Chain.push (h : Chain next p (b :: l)) (ha : a ∉ b :: l) :
    Chain (Function.update (Function.update next a (next b)) b (some a)) p (b :: a :: l) := by
  have hnodup := h.nodup
  have hne : a ≠ b := fun hab => ha (hab ▸ List.mem_cons_self)
  have hl : b ∉ l := (List.nodup_cons.mp hnodup).1
  refine ⟨h.1, Function.update_self .., ?_⟩
  rw [Function.update_of_ne hne, Function.update_self]
  exact (h.2.update_notMem fun hmem => ha (List.mem_cons_of_mem b hmem)).update_notMem hl

end Chain

/-! ### Doubly linked -/

/-- The cells of `l` are doubly linked in this order, between `p` before them and `q` after them. -/
def DSeg (next prev : A → Option A) : Option A → List A → Option A → Prop
  | _, [], _ => True
  | p, a :: l, q => prev a = p ∧ next a = l.head?.or q ∧ DSeg next prev (some a) l q

section DSeg
variable {next next' prev prev' : A → Option A} {p q r : Option A} {a : A} {l l₁ l₂ : List A}

@[simp] theorem dseg_nil : DSeg next prev p [] q := trivial

@[simp] theorem dseg_cons : DSeg next prev p (a :: l) q ↔
    prev a = p ∧ next a = l.head?.or q ∧ DSeg next prev (some a) l q := Iff.rfl

theorem dseg_congr (h : ∀ x ∈ l, next x = next' x ∧ prev x = prev' x) :
    DSeg next prev p l q ↔ DSeg next' prev' p l q := by
  induction l generalizing p with
  | nil => rfl
  | cons x l ih =>
    rw [dseg_cons, dseg_cons, (h x (by simp)).1, (h x (by simp)).2,
      ih fun y hy => h y (by simp [hy])]

theorem dseg_append : DSeg next prev p (l₁ ++ l₂) q ↔
    DSeg next prev p l₁ (l₂.head?.or q) ∧ DSeg next prev (l₁.getLast?.or p) l₂ q := by
  induction l₁ generalizing p with
  | nil => simp
  | cons x l₁ ih =>
    have hlast : (x :: l₁).getLast?.or p = l₁.getLast?.or (some x) := by
      cases l₁ with
      | nil => rfl
      | cons y l₁ => simp [List.getLast?_cons]
    have hhead : (l₁ ++ l₂).head?.or q = l₁.head?.or (l₂.head?.or q) := by
      cases l₁ <;> simp
    rw [List.cons_append, dseg_cons, dseg_cons, ih, hlast, hhead]
    tauto

/-- What a member's links hold, given where it stands. -/
theorem DSeg.links (h : DSeg next prev p (l₁ ++ a :: l₂) q) :
    prev a = l₁.getLast?.or p ∧ next a = l₂.head?.or q := by
  rw [dseg_append, dseg_cons] at h
  exact ⟨h.2.1, h.2.2.1⟩

theorem DSeg.chain (h : DSeg next prev p l none) : Chain next l.head? l := by
  induction l generalizing p with
  | nil => rfl
  | cons x l ih =>
    refine ⟨rfl, ?_⟩
    rw [h.2.1, Option.or_none]
    exact ih h.2.2

variable [DecidableEq A]

theorem DSeg.setNext_notMem {v : Option A} (h : DSeg next prev p l q) (ha : a ∉ l) :
    DSeg (Function.update next a v) prev p l q :=
  (dseg_congr fun x hx => ⟨by rw [Function.update_of_ne (ne_of_mem_of_not_mem hx ha)], rfl⟩).mp h

theorem DSeg.setPrev_notMem {v : Option A} (h : DSeg next prev p l q) (ha : a ∉ l) :
    DSeg next (Function.update prev a v) p l q :=
  (dseg_congr fun x hx => ⟨rfl, by rw [Function.update_of_ne (ne_of_mem_of_not_mem hx ha)]⟩).mp h

/-- Redirecting the last cell's `next` moves the far end of a segment. -/
theorem DSeg.setNext_last (h : DSeg next prev p (l ++ [a]) q) (ha : a ∉ l) :
    DSeg (Function.update next a r) prev p (l ++ [a]) r := by
  rw [dseg_append] at h ⊢
  refine ⟨h.1.setNext_notMem ha, h.2.1, ?_, trivial⟩
  simp

theorem DSeg.setPrev_first (h : DSeg next prev p (a :: l) q) (ha : a ∉ l) :
    DSeg next (Function.update prev a r) r (a :: l) q :=
  ⟨Function.update_self .., h.2.1, h.2.2.setPrev_notMem ha⟩

end DSeg

end Linked

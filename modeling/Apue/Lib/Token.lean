import Mathlib.Data.List.TakeWhile

/-!
# Splitting at separators, piece by piece

`tokens sep s` are the maximal runs of `s` without a separator. `next sep s` takes the first of them off,
together with the separators in front of it and the one behind it, as `strtok` does. `tokens_of_next`
says that taking one after the other gives them all, and `length_of_next` that this comes to an end.
-/

namespace Token

variable {A : Type*} {sep : A → Bool} {s t rest : List A}

/-- The maximal runs without a separator, in order. -/
def tokens (sep : A → Bool) (s : List A) : List (List A) :=
  (s.splitOnP sep).filter fun t => !t.isEmpty

/-- The first token and what is left behind its separator. -/
def next (sep : A → Bool) (s : List A) : Option (List A × List A) :=
  match s.dropWhile sep with
  | [] => none
  | c :: l => some ((c :: l).takeWhile (!sep ·), ((c :: l).dropWhile (!sep ·)).drop 1)

@[simp] theorem tokens_nil : tokens sep [] = [] := by
  simp [tokens]

theorem tokens_cons_of_sep {c : A} (h : sep c = true) : tokens sep (c :: s) = tokens sep s := by
  simp [tokens, List.splitOnP_cons_eq_if_modifyHead, h]

theorem tokens_append_cons (s : List A) {c : A} (hc : sep c = true) (t : List A) :
    tokens sep (s ++ c :: t) = tokens sep s ++ tokens sep t := by
  unfold tokens
  rw [List.splitOnP_append_cons s t hc, List.filter_append]

theorem tokens_dropWhile (s : List A) : tokens sep (s.dropWhile sep) = tokens sep s := by
  induction s with
  | nil => rfl
  | cons c s ih =>
    rw [List.dropWhile_cons]
    split
    · rename_i h
      rw [ih, tokens_cons_of_sep h]
    · rfl

theorem tokens_word (hne : t ≠ []) (ht : ∀ c ∈ t, sep c = false) : tokens sep t = [t] := by
  simp [tokens, List.splitOnP_eq_singleton ht, hne]

theorem tokens_of_next_none (h : next sep s = none) : tokens sep s = [] := by
  rw [← tokens_dropWhile]
  unfold next at h
  split at h
  · rename_i hnil
    rw [hnil, tokens_nil]
  · exact absurd h (by simp)

/-- What `next` takes off: separators, the token, and the separator behind it if there is one. -/
theorem split_of_next (h : next sep s = some (t, rest)) :
    t ≠ [] ∧ (∀ c ∈ t, sep c = false) ∧
      (s = s.takeWhile sep ++ t ∧ rest = [] ∨
        ∃ c, sep c = true ∧ s = s.takeWhile sep ++ t ++ c :: rest) := by
  unfold next at h
  split at h
  · exact absurd h (by simp)
  · rename_i c l hcl
    rw [Option.some.injEq, Prod.mk.injEq] at h
    obtain ⟨ht, hrest⟩ := h
    have hc : sep c = false := by
      have hhead := List.head?_dropWhile_not sep s
      rw [hcl] at hhead
      simpa using hhead
    have hne : t ≠ [] := by
      rw [← ht, List.takeWhile_cons]
      simp [hc]
    have hword : ∀ x ∈ t, sep x = false := by
      intro x hx
      rw [← ht] at hx
      simpa using List.mem_takeWhile_imp hx
    refine ⟨hne, hword, ?_⟩
    have hsplit := List.takeWhile_append_dropWhile (p := sep) (l := s)
    rw [hcl, ← List.takeWhile_append_dropWhile (p := (!sep ·)) (l := c :: l), ht] at hsplit
    cases hd : (c :: l).dropWhile (!sep ·) with
    | nil =>
      rw [hd] at hrest hsplit
      refine Or.inl ⟨?_, by rw [← hrest, List.drop_nil]⟩
      rw [List.append_nil] at hsplit
      exact hsplit.symm
    | cons x r =>
      have hx : sep x = true := by
        have hhead := List.head?_dropWhile_not (!sep ·) (c :: l)
        rw [hd] at hhead
        simpa using hhead
      rw [hd, List.drop_succ_cons, List.drop_zero] at hrest
      rw [hd, hrest, ← List.append_assoc] at hsplit
      exact Or.inr ⟨x, hx, hsplit.symm⟩

theorem tokens_takeWhile_append (s t : List A) : tokens sep (s.takeWhile sep ++ t) = tokens sep t := by
  have hall : ∀ c ∈ s.takeWhile sep, sep c = true := fun c hc => List.mem_takeWhile_imp hc
  generalize s.takeWhile sep = ws at hall
  induction ws with
  | nil => rfl
  | cons c ws ih =>
    rw [List.cons_append, tokens_cons_of_sep (hall c List.mem_cons_self)]
    exact ih fun x hx => hall x (List.mem_cons_of_mem c hx)

theorem tokens_of_next (h : next sep s = some (t, rest)) : tokens sep s = t :: tokens sep rest := by
  obtain ⟨hne, hword, ⟨hs, rfl⟩ | ⟨c, hc, hs⟩⟩ := split_of_next h
  · rw [hs, tokens_takeWhile_append, tokens_word hne hword, tokens_nil]
  · rw [hs, List.append_assoc, tokens_takeWhile_append, tokens_append_cons _ hc, tokens_word hne hword,
      List.singleton_append]

theorem length_of_next (h : next sep s = some (t, rest)) : rest.length < s.length := by
  obtain ⟨hne, -, ⟨hs, rfl⟩ | ⟨c, -, hs⟩⟩ := split_of_next h
  · have hpos := List.length_pos_iff.mpr hne
    rw [hs, List.length_append, List.length_nil]
    omega
  · rw [hs, List.length_append, List.length_cons]
    omega

end Token

import Apue.Lib.CString
import Apue.Lib.Token

/-!
# Splitting a buffer in place

`strtok` puts a null byte behind each token of a buffer and remembers where to go on, so it returns a pointer
into the buffer where `Token.next` returns the token itself. `strtok_of_next` says that they agree: the
buffer becomes a part that is done with and the rest that `next` leaves, and the token is the string at the
pointer.
-/

namespace Strtok
open Token

/-- A buffer with a null byte somewhere, and the place to go on from. -/
structure Buffer where
  buf : List UInt8
  save : ℕ

/-- The string that a pointer into a buffer points to. -/
def strAt (buf : List UInt8) (p : ℕ) : CStr := CStr.ofBuf (buf.drop p)

/-- `strtok(s, delim)`; it goes on from where it was when `s` is null. -/
def strtok (sep : UInt8 → Bool) (st : Buffer) (s : Option ℕ) : Option ℕ × Buffer :=
  let p := s.getD st.save
  let token := p + ((st.buf.drop p).takeWhile sep).length
  if st.buf.getD token 0 = 0 then (none, { st with save := token })
  else
    let stop := token + ((st.buf.drop token).takeWhile fun c => !sep c && c ≠ 0).length
    if st.buf.getD stop 0 = 0 then (some token, { st with save := stop })
    else (some token, ⟨st.buf.set stop 0, stop + 1⟩)

variable {sep : UInt8 → Bool} {s pre stale word rest : List UInt8}

theorem strtok_some (st : Buffer) (p : ℕ) : strtok sep st (some p) = strtok sep ⟨st.buf, p⟩ none := rfl

theorem strAt_append (pre word stale : List UInt8) (h : 0 ∉ word) :
    (strAt (pre ++ word ++ 0 :: stale) pre.length).bytes = word := by
  rw [strAt, List.append_assoc, List.drop_left]
  exact congrArg CStr.bytes (CStr.ofBuf_bytes ⟨word, h⟩ stale)

theorem takeWhile_append_cons {p : UInt8 → Bool} {c : UInt8} {l : List UInt8} (hs : ∀ x ∈ s, p x = true)
    (hc : p c = false) : (s ++ c :: l).takeWhile p = s := by
  rw [List.takeWhile_append_of_pos hs, List.takeWhile_cons_of_neg (by simp [hc]), List.append_nil]

theorem getD_append_length (pre : List UInt8) (c : UInt8) (l : List UInt8) :
    (pre ++ c :: l).getD pre.length 0 = c := by
  simp

theorem left_of_strtok {st st' : Buffer} {p : Option ℕ} {token : ℕ}
    (h : strtok sep st p = (some token, st')) :
    st'.buf.length - st'.save < st.buf.length - p.getD st.save := by
  unfold strtok at h
  simp only at h
  split at h
  · cases h
  rename_i htoken
  have hlt : p.getD st.save + ((st.buf.drop (p.getD st.save)).takeWhile sep).length < st.buf.length := by
    by_contra hge
    exact htoken (by rw [List.getD_eq_getElem?_getD, List.getElem?_eq_none (by omega), Option.getD_none])
  split at h
  · rename_i hstop
    obtain ⟨-, rfl⟩ := Prod.mk.inj h
    -- the null byte behind the token is not its first byte
    have hne : ((st.buf.drop (p.getD st.save + ((st.buf.drop (p.getD st.save)).takeWhile sep).length)).takeWhile
        fun c => !sep c && decide (c ≠ 0)).length ≠ 0 := by
      intro hzero
      rw [hzero, Nat.add_zero] at hstop
      exact htoken hstop
    simp only
    omega
  · obtain ⟨-, rfl⟩ := Prod.mk.inj h
    simp only [List.length_set]
    omega

variable (h0 : sep 0 = false)
include h0

theorem strtok_of_next_none (hnext : next sep s = none) (pre stale : List UInt8) :
    strtok sep ⟨pre ++ s ++ 0 :: stale, pre.length⟩ none =
      (none, ⟨pre ++ s ++ 0 :: stale, pre.length + s.length⟩) := by
  have hall : ∀ c ∈ s, sep c = true := by
    unfold next at hnext
    split at hnext
    · rename_i hdrop
      exact List.dropWhile_eq_nil_iff.mp hdrop
    · cases hnext
  have hspan : ((pre ++ s ++ 0 :: stale).drop pre.length).takeWhile sep = s := by
    rw [List.append_assoc, List.drop_left, takeWhile_append_cons hall h0]
  have hnul : (pre ++ s ++ 0 :: stale).getD (pre.length + s.length) 0 = 0 := by
    rw [← List.length_append, getD_append_length]
  unfold strtok
  simp only [Option.getD_none, hspan, hnul, if_true]

omit h0 in
/-- A token between separators and a byte `x` that ends it: the byte becomes null if it is not yet. -/
theorem strtok_word {ws : List UInt8} {x : UInt8} (hws : ∀ c ∈ ws, sep c = true) (hne : word ≠ [])
    (hword : ∀ c ∈ word, sep c = false) (hnul : 0 ∉ word) (hx : sep x = true ∨ x = 0) (pre post : List UInt8) :
    strtok sep ⟨pre ++ ws ++ word ++ x :: post, pre.length⟩ none =
      (some (pre ++ ws).length,
        if x = 0 then ⟨pre ++ ws ++ word ++ x :: post, (pre ++ ws ++ word).length⟩
        else ⟨pre ++ ws ++ word ++ 0 :: post, (pre ++ ws ++ word).length + 1⟩) := by
  obtain ⟨c, l, rfl⟩ := List.exists_cons_of_ne_nil hne
  have hne0 : ∀ y ∈ c :: l, y ≠ 0 := fun y hy hy0 => hnul (hy0 ▸ hy)
  have hspan : ((pre ++ ws ++ c :: l ++ x :: post).drop pre.length).takeWhile sep = ws := by
    rw [List.append_assoc, List.append_assoc, List.drop_left, List.cons_append,
      takeWhile_append_cons hws (hword c List.mem_cons_self)]
  have htoken : pre.length + ws.length = (pre ++ ws).length := by rw [List.length_append]
  have hstart : (pre ++ ws ++ c :: l ++ x :: post).getD (pre ++ ws).length 0 = c := by
    rw [List.append_assoc, List.cons_append, getD_append_length]
  have hin : ∀ y ∈ c :: l, (!sep y && decide (y ≠ 0)) = true := by
    intro y hy
    simp [hword y hy, hne0 y hy]
  have hout : (!sep x && decide (x ≠ 0)) = false := by
    obtain hx | hx := hx <;> simp [hx]
  have hspan' : ((pre ++ ws ++ c :: l ++ x :: post).drop (pre ++ ws).length).takeWhile
      (fun y => !sep y && decide (y ≠ 0)) = c :: l := by
    rw [List.append_assoc, List.drop_left, takeWhile_append_cons hin hout]
  have hstop : (pre ++ ws).length + (c :: l).length = (pre ++ ws ++ c :: l).length :=
    List.length_append.symm
  have hend : (pre ++ ws ++ c :: l ++ x :: post).getD (pre ++ ws ++ c :: l).length 0 = x :=
    getD_append_length ..
  have hset : (pre ++ ws ++ c :: l ++ x :: post).set (pre ++ ws ++ c :: l).length 0 =
      pre ++ ws ++ c :: l ++ 0 :: post := by
    rw [List.set_append_right _ _ le_rfl, Nat.sub_self, List.set_cons_zero]
  unfold strtok
  simp only [Option.getD_none, hspan, htoken, hstart, if_neg (hne0 c List.mem_cons_self), hspan', hstop, hend,
    hset]
  split
  · rfl
  · rfl

theorem strtok_of_next (hs : 0 ∉ s) (hnext : next sep s = some (word, rest)) (pre stale : List UInt8) :
    ∃ tail, strtok sep ⟨pre ++ s ++ 0 :: stale, pre.length⟩ none =
        (some (pre ++ s.takeWhile sep).length,
          ⟨pre ++ s.takeWhile sep ++ word ++ tail ++ rest ++ 0 :: stale,
            (pre ++ s.takeWhile sep ++ word ++ tail).length⟩) ∧
      (tail = [0] ∨ tail = [] ∧ rest = []) ∧
      (s.takeWhile sep ++ word ++ tail ++ rest).length = s.length ∧ 0 ∉ word ∧ 0 ∉ rest := by
  obtain ⟨hne, hword, hsplit⟩ := split_of_next hnext
  have hws : ∀ c ∈ s.takeWhile sep, sep c = true := fun c hc => List.mem_takeWhile_imp hc
  generalize s.takeWhile sep = ws at hsplit hws ⊢
  obtain ⟨rfl, rfl⟩ | ⟨x, hx, rfl⟩ := hsplit
  · have hnul : 0 ∉ word := fun h => hs (List.mem_append_right _ h)
    have hstep := strtok_word hws hne hword hnul (Or.inr rfl) pre stale
    rw [if_pos rfl] at hstep
    refine ⟨[], ?_, Or.inr ⟨rfl, rfl⟩, by simp, hnul, List.not_mem_nil⟩
    rw [← List.append_assoc, hstep]
    simp
  · have hnul : 0 ∉ word := fun h => hs (by simp [h])
    have hx0 : x ≠ 0 := by
      rintro rfl
      rw [h0] at hx
      cases hx
    have hstep := strtok_word hws hne hword hnul (Or.inl hx) pre (rest ++ 0 :: stale)
    rw [if_neg hx0] at hstep
    refine ⟨[0], ?_, Or.inl rfl, by simp, hnul, fun h => hs (by simp [h])⟩
    have hbuf : pre ++ (ws ++ word ++ x :: rest) ++ 0 :: stale = pre ++ ws ++ word ++ x :: (rest ++ 0 :: stale) := by
      simp
    rw [hbuf, hstep]
    simp [Nat.add_assoc]

end Strtok

import Apue.Lib.Strtok
import Apue.OpenServer.Isolation

/-!
# `buf_args` in its buffer (Chapter-17/open-1/17-23.c, the same in open-2)

What `bufArgs` says with lists, `buf_args` does with pointers into the buffer that `strtok` cuts up, in an
array `argv` of `MAXARGC` elements. `bufArgs_refines` says that it comes to the same: the strings at `argv`
are the list that `bufArgs` hands over.

The first pointer is `buf` itself and not what `strtok` returned, so the first argument still has the white
space in front of it. `buf_args_iff` says when that shows.
-/

namespace Apue.OpenServer.InPlace
open Strtok Token

/-- The local variables `argc` and `argv`, and the indices at which something was stored in `argv`. -/
structure Args where
  argc : ℕ
  argv : ℕ → Option ℕ
  stores : List ℕ

/-- `argv[argc] = ptr`. -/
def Args.store (a : Args) (ptr : Option ℕ) : Args :=
  { a with argv := Function.update a.argv a.argc ptr, stores := a.stores ++ [a.argc] }

/-- `++argc`. -/
def Args.incr (a : Args) : Args := { a with argc := a.argc + 1 }

/-- What `optfunc` is called with: `argc`, `argv` and the buffer that `argv` points into. -/
structure Call where
  argc : ℕ
  argv : ℕ → Option ℕ
  buf : List UInt8

/-- What `buf_args` returns, the calls of `optfunc`, and the indices at which `argv` was stored to. -/
structure Result where
  value : ℤ
  calls : List Call
  stores : List ℕ

/-- The call of `optfunc`. -/
def call (optfunc : Call → ℤ) (a : Args) (st : Buffer) : Result :=
  let c : Call := ⟨a.argc, a.argv, st.buf⟩
  ⟨optfunc c, [c], a.stores⟩

/-- The loop, and the call behind it. -/
def bufArgsLoop (optfunc : Call → ℤ) (st : Buffer) (a : Args) : Result :=
  match _h : strtok isWhite st none with
  | (none, st) => call optfunc (a.incr.store none) st
  | (some ptr, st) =>
    if a.incr.argc ≥ MAXARGC - 1 then ⟨-1, [], a.stores⟩
    else bufArgsLoop optfunc st (a.incr.store (some ptr))
termination_by st.buf.length - st.save
decreasing_by exact left_of_strtok ‹_›

/-- `buf_args(buf, optfunc)`; `argv` is what is in the array at first, and `save` where an earlier use of
`strtok` has stopped. -/
def bufArgs (optfunc : Call → ℤ) (buf : List UInt8) (argv : ℕ → Option ℕ) (save : ℕ) : Result :=
  match strtok isWhite ⟨buf, save⟩ (some 0) with
  | (none, _) => ⟨-1, [], []⟩
  | (some _, st) => bufArgsLoop optfunc st (Args.store ⟨0, argv, []⟩ (some 0))

/-! ### The loop -/

theorem isWhite_zero : isWhite 0 = false := rfl

/-- What `optfunc` gets from a loop that starts with `a`, and `words` are still to come: the buffer is as it
was in front of `pre.length`, and `argv` up to `a.argc`. -/
structure Passed (a : Args) (pre s stale : List UInt8) (words : List (List UInt8)) (c : Call) : Prop where
  argc : c.argc = a.argc + words.length + 1
  null : c.argv c.argc = none
  buf : ∃ s', s'.length = s.length ∧ c.buf = pre ++ s' ++ 0 :: stale
  before : ∀ i ≤ a.argc, c.argv i = a.argv i
  strings : ∀ k (hk : k < words.length), ∃ p, c.argv (a.argc + 1 + k) = some p ∧
    (strAt c.buf p).bytes = words[k]

theorem Passed.cons {a : Args} {pre ws word tail rest s stale : List UInt8} {words : List (List UInt8)} {c : Call}
    (h : Passed (a.incr.store (some (pre ++ ws).length)) (pre ++ ws ++ word ++ tail) rest stale words c)
    (hword : 0 ∉ word) (htail : tail = [0] ∨ tail = [] ∧ rest = [])
    (hlen : (ws ++ word ++ tail ++ rest).length = s.length) : Passed a pre s stale (word :: words) c := by
  obtain ⟨s', hs', hbuf⟩ := h.buf
  have hargc : (a.incr.store (some (pre ++ ws).length)).argc = a.argc + 1 := rfl
  constructor
  case argc =>
    rw [h.argc, hargc, List.length_cons]
    omega
  case null => exact h.null
  case buf => exact ⟨ws ++ word ++ tail ++ s', by simp [← hlen, hs'], by simp [hbuf]⟩
  case before =>
    intro i hi
    rw [h.before i (by omega)]
    exact Function.update_of_ne (by simp [Args.incr]; omega) ..
  case strings =>
    intro k hk
    cases k with
    | zero =>
      refine ⟨(pre ++ ws).length, ?_, ?_⟩
      · rw [Nat.add_zero, h.before (a.argc + 1) (by omega)]
        exact Function.update_self ..
      · rw [hbuf]
        obtain rfl | ⟨rfl, rfl⟩ := htail
        · have hsplit : pre ++ ws ++ word ++ [0] ++ s' ++ 0 :: stale = pre ++ ws ++ word ++ 0 :: (s' ++ 0 :: stale) := by
            simp
          rw [hsplit]
          exact strAt_append _ _ _ hword
        · obtain rfl := List.length_eq_zero_iff.mp hs'
          rw [List.append_nil, List.append_nil]
          exact strAt_append _ _ _ hword
    | succ k =>
      obtain ⟨p, hp, hstr⟩ := h.strings k (by simpa using hk)
      refine ⟨p, ?_, by simpa using hstr⟩
      rw [hargc] at hp
      rw [← hp]
      congr 1
      omega

variable (optfunc : Call → ℤ)

theorem bufArgsLoop_spec (s pre stale : List UInt8) (a : Args) (hs : 0 ∉ s) (hargc : a.argc < MAXARGC - 1)
    (hstores : ∀ i ∈ a.stores, i < MAXARGC) :
    ∃ r, bufArgsLoop optfunc ⟨pre ++ s ++ 0 :: stale, pre.length⟩ a = r ∧ (∀ i ∈ r.stores, i < MAXARGC) ∧
      if a.argc + (tokens isWhite s).length < MAXARGC - 1 then
        ∃ c, r.calls = [c] ∧ r.value = optfunc c ∧ Passed a pre s stale (tokens isWhite s) c
      else r.calls = [] ∧ r.value = -1 := by
  have hmax : MAXARGC = 50 := rfl
  refine ⟨_, rfl, ?_⟩
  generalize hwords : tokens isWhite s = words
  induction words generalizing s pre a with
  | nil =>
    have hnext : next isWhite s = none := by
      cases hnext : next isWhite s with
      | none => rfl
      | some x => simp [tokens_of_next hnext] at hwords
    unfold bufArgsLoop
    rw [strtok_of_next_none isWhite_zero hnext, if_pos (by simpa using hargc)]
    refine ⟨fun i hi => ?_, _, rfl, rfl, rfl, Function.update_self .., ⟨s, rfl, rfl⟩, fun i hi => ?_,
      fun k hk => by simp at hk⟩
    · obtain hi | hi : i ∈ a.stores ∨ i = a.argc + 1 := by simpa [call, Args.store, Args.incr] using hi
      · exact hstores i hi
      · omega
    · exact Function.update_of_ne (by simp [Args.incr]; omega) ..
  | cons word words ih =>
    obtain ⟨⟨word', rest⟩, hnext⟩ : ∃ x, next isWhite s = some x := by
      cases hnext : next isWhite s with
      | none => simp [tokens_of_next_none hnext] at hwords
      | some x => exact ⟨x, rfl⟩
    obtain ⟨rfl, hrest⟩ : word' = word ∧ tokens isWhite rest = words := by
      rw [tokens_of_next hnext] at hwords
      exact List.cons.inj hwords
    obtain ⟨tail, hstrtok, htail, hlen, hword0, hrest0⟩ := strtok_of_next isWhite_zero hs hnext pre stale
    generalize s.takeWhile isWhite = ws at hstrtok hlen
    unfold bufArgsLoop
    rw [hstrtok]
    simp only
    by_cases hfull : a.argc + 1 ≥ MAXARGC - 1
    · rw [if_pos (show a.incr.argc ≥ MAXARGC - 1 from hfull), if_neg (by rw [List.length_cons]; omega)]
      exact ⟨hstores, rfl, rfl⟩
    · rw [if_neg (show ¬ a.incr.argc ≥ MAXARGC - 1 from hfull)]
      have hstores' : ∀ i ∈ (a.incr.store (some (pre ++ ws).length)).stores, i < MAXARGC := by
        intro i hi
        obtain hi | hi : i ∈ a.stores ∨ i = a.argc + 1 := by simpa [Args.store, Args.incr] using hi
        · exact hstores i hi
        · omega
      have hargc' : (a.incr.store (some (pre ++ ws).length)).argc = a.argc + 1 := rfl
      obtain ⟨hst, hcalls⟩ := ih rest (pre ++ ws ++ word' ++ tail) (a.incr.store (some (pre ++ ws).length))
        hrest0 (by omega) hstores' hrest
      refine ⟨hst, ?_⟩
      rw [hargc'] at hcalls
      by_cases hroom : a.argc + 1 + words.length < MAXARGC - 1
      · rw [if_pos hroom] at hcalls
        rw [if_pos (by rw [List.length_cons]; omega)]
        obtain ⟨c, hc, hvalue, hpassed⟩ := hcalls
        exact ⟨c, hc, hvalue, hpassed.cons hword0 htail hlen⟩
      · rw [if_neg hroom] at hcalls
        rw [if_neg (by rw [List.length_cons]; omega)]
        exact hcalls

/-! ### The whole function -/

/-- `argc` and `argv` are the words. -/
structure Call.Of (c : Call) (words : List (List UInt8)) : Prop where
  argc : c.argc = words.length
  strings : ∀ i (hi : i < words.length), ∃ p, c.argv i = some p ∧ (strAt c.buf p).bytes = words[i]
  null : c.argv c.argc = none

theorem Passed.of {argv : ℕ → Option ℕ} {ws word tail rest stale : List UInt8} {words : List (List UInt8)} {c : Call}
    (h : Passed (Args.store ⟨0, argv, []⟩ (some 0)) (ws ++ word ++ tail) rest stale words c) (hws : 0 ∉ ws ++ word)
    (htail : tail = [0] ∨ tail = [] ∧ rest = []) : c.Of ((ws ++ word) :: words) := by
  have hargc : (Args.store ⟨0, argv, []⟩ (some 0)).argc = 0 := rfl
  constructor
  case argc =>
    rw [h.argc, hargc, List.length_cons]
    omega
  case null => exact h.null
  case strings =>
    intro i hi
    cases i with
    | zero =>
      refine ⟨0, ?_, ?_⟩
      · rw [h.before 0 (Nat.zero_le _)]
        simp [Args.store]
      · obtain ⟨s', hs', hbuf⟩ := h.buf
        rw [hbuf]
        obtain rfl | ⟨rfl, rfl⟩ := htail
        · have hsplit : ws ++ word ++ [0] ++ s' ++ 0 :: stale = [] ++ (ws ++ word) ++ 0 :: (s' ++ 0 :: stale) := by
            simp
          rw [hsplit]
          exact strAt_append [] _ _ hws
        · obtain rfl := List.length_eq_zero_iff.mp hs'
          rw [List.append_nil, List.append_nil]
          exact strAt_append [] _ _ hws
    | succ i =>
      obtain ⟨p, hp, hstr⟩ := h.strings i (by simpa using hi)
      refine ⟨p, ?_, by simpa using hstr⟩
      rw [← hp, hargc]
      congr 1
      omega

/-- `argv[0]` is one string only. -/
theorem Call.Of.front_eq_nil {c : Call} {ws word : List UInt8} {words : List (List UInt8)}
    (h : c.Of ((ws ++ word) :: words)) (h' : c.Of (word :: words)) : ws = [] := by
  obtain ⟨p, hp, hstr⟩ := h.strings 0 (by simp)
  obtain ⟨p', hp', hstr'⟩ := h'.strings 0 (by simp)
  obtain rfl : p = p' := Option.some.inj (hp.symm.trans hp')
  exact List.append_left_eq_self.mp (hstr.symm.trans hstr')

section bufArgs
variable (s : CStr) (stale : List UInt8) (argv : ℕ → Option ℕ) (save : ℕ)

theorem bufArgs_refines : ∃ r, bufArgs optfunc (s.bytes ++ 0 :: stale) argv save = r ∧
    (∀ i ∈ r.stores, i < MAXARGC) ∧
    match OpenServer.bufArgs s id with
    | none => r.calls = [] ∧ r.value = -1
    | some words => ∃ c, r.calls = [c] ∧ r.value = optfunc c ∧ c.Of words := by
  refine ⟨_, rfl, ?_⟩
  rw [bufArgs_eq]
  unfold bufArgs
  rw [strtok_some]
  cases hnext : next isWhite s.bytes with
  | none =>
    have hstrtok := strtok_of_next_none isWhite_zero hnext [] stale
    rw [List.nil_append, List.length_nil] at hstrtok
    rw [tokens_of_next_none hnext, hstrtok]
    exact ⟨fun i hi => absurd hi List.not_mem_nil, rfl, rfl⟩
  | some x =>
    obtain ⟨word, rest⟩ := x
    obtain ⟨tail, hstrtok, htail, -, hword, hrest⟩ := strtok_of_next isWhite_zero s.noNul hnext [] stale
    have hws : 0 ∉ s.bytes.takeWhile isWhite ++ word := by
      rw [List.mem_append, not_or]
      exact ⟨fun h => absurd (List.mem_takeWhile_imp h) (by decide), hword⟩
    rw [List.nil_append, List.nil_append, List.length_nil] at hstrtok
    rw [tokens_of_next hnext, hstrtok]
    obtain ⟨r, rfl, hstores, hcalls⟩ := bufArgsLoop_spec optfunc rest (s.bytes.takeWhile isWhite ++ word ++ tail) stale
      (Args.store ⟨0, argv, []⟩ (some 0)) hrest (show 0 < MAXARGC - 1 by decide)
      (fun i hi => by
        obtain rfl : i = 0 := by simpa [Args.store] using hi
        decide)
    refine ⟨hstores, ?_⟩
    rw [show (Args.store ⟨0, argv, []⟩ (some 0)).argc = 0 from rfl, Nat.zero_add] at hcalls
    simp only
    by_cases hroom : (tokens isWhite rest).length < MAXARGC - 1
    · rw [if_pos hroom] at hcalls ⊢
      obtain ⟨c, hc, hvalue, hpassed⟩ := hcalls
      exact ⟨c, hc, hvalue, hpassed.of hws htail⟩
    · rw [if_neg hroom] at hcalls ⊢
      exact hcalls

/-- The strings at `argv` are the words of the buffer, `optfunc` is called once with them and what it returns is
returned, or there are no words or too many, and it is not called. -/
def Right (r : Result) : Prop :=
  (∀ i ∈ r.stores, i < MAXARGC) ∧
    if tokens isWhite s.bytes = [] ∨ MAXARGC - 1 < (tokens isWhite s.bytes).length then
      r.calls = [] ∧ r.value = -1
    else ∃ c, r.calls = [c] ∧ r.value = optfunc c ∧ c.Of (tokens isWhite s.bytes)

/-- `buf_args` does what it should unless there is white space in front of the first of its words. -/
theorem buf_args_iff : Right optfunc s (bufArgs optfunc (s.bytes ++ 0 :: stale) argv save) ↔
    s.bytes.takeWhile isWhite = [] ∨ tokens isWhite s.bytes = [] ∨
      MAXARGC - 1 < (tokens isWhite s.bytes).length := by
  have hmax : MAXARGC = 50 := rfl
  obtain ⟨r, hr, hstores, hcalls⟩ := bufArgs_refines optfunc s stale argv save
  rw [hr, Right]
  rw [bufArgs_eq] at hcalls
  cases hwords : tokens isWhite s.bytes with
  | nil =>
    rw [hwords] at hcalls
    simpa using And.intro hstores hcalls
  | cons word words =>
    rw [hwords] at hcalls
    simp only at hcalls
    by_cases hroom : words.length < MAXARGC - 1
    · rw [if_pos hroom] at hcalls
      obtain ⟨c, hc, hvalue, hof⟩ := hcalls
      have hsome : ¬ (word :: words = [] ∨ MAXARGC - 1 < (word :: words).length) := by
        rw [List.length_cons]
        simp only [reduceCtorEq, false_or]
        omega
      rw [if_neg hsome, or_iff_left hsome]
      constructor
      · rintro ⟨-, c', hc', -, hof'⟩
        obtain rfl : c = c' := List.singleton_inj.mp (hc.symm.trans hc')
        exact hof.front_eq_nil hof'
      · intro hws
        rw [hws, List.nil_append] at hof
        exact ⟨hstores, c, hc, hvalue, hof⟩
    · rw [if_neg hroom] at hcalls
      have hmany : MAXARGC - 1 < (word :: words).length := by
        rw [List.length_cons]
        omega
      simp only [hmany, or_true, iff_true]
      exact ⟨hstores, hcalls⟩

end bufArgs

/-- A blank and an `a`. -/
def blankWord : CStr := ⟨[32, 97], by decide⟩

/-- The first argument is the word with the blank in front of it. -/
theorem buf_args_keeps_blank :
    tokens isWhite blankWord.bytes = [[97]] ∧
      ∃ c p, (bufArgs (fun _ => 0) (blankWord.bytes ++ [0]) (fun _ => none) 0).calls = [c] ∧ c.argc = 1 ∧
        c.argv 0 = some p ∧ (strAt c.buf p).bytes = [32, 97] := by
  have hwords : OpenServer.bufArgs blankWord id = some [[32, 97]] := by
    rw [bufArgs_eq]
    rfl
  obtain ⟨r, rfl, -, hcalls⟩ := bufArgs_refines (fun _ => 0) blankWord [] (fun _ => none) 0
  rw [hwords] at hcalls
  obtain ⟨c, hc, -, hof⟩ := hcalls
  obtain ⟨p, hp, hstr⟩ := hof.strings 0 (by decide)
  exact ⟨by decide, c, p, hc, hof.argc, hp, hstr⟩

end Apue.OpenServer.InPlace

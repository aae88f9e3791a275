import Apue.OpenServer.Request

/-!
# What one client sees of another (Chapter-17/open-2/17-31.c)

The answer to a request is a function of the request alone, whatever was served before
(`reply_of_not_terminated`, `reply_of_splits`), unless it ends in a null byte and `buf_args` gives up on
it: then nobody has written `errmsg`, and the client is sent the last error message some other request
left there (`reply_of_not_splits`). `isolation_iff` says so for all histories.
-/

namespace Apue.OpenServer
open Token

variable {F : Type*}

/-! ### What buf_args returns -/

theorem bufArgsLoop_eq {argc : ℕ} (s : List UInt8) (argv : List (List UInt8))
    (hargc : argc < MAXARGC - 1) :
    bufArgsLoop s argc argv = if argc + (tokens isWhite s).length < MAXARGC - 1 then
      some (argv ++ tokens isWhite s) else none := by
  induction s, argc, argv using bufArgsLoop.induct with
  | case1 s argc argv hnone =>
    unfold bufArgsLoop
    split
    · rw [tokens_of_next_none hnone, List.length_nil, Nat.add_zero, if_pos hargc, List.append_nil]
    · rename_i hsome
      rw [hnone] at hsome
      exact absurd hsome (by simp)
  | case2 s argc argv ptr rest hsome hfull =>
    unfold bufArgsLoop
    split
    · rename_i hnone
      rw [hnone] at hsome
      exact absurd hsome (by simp)
    · rename_i hsome'
      rw [hsome] at hsome'
      rw [if_pos hfull, tokens_of_next hsome, List.length_cons, if_neg (by omega)]
  | case3 s argc argv ptr rest hsome hroom ih =>
    unfold bufArgsLoop
    split
    · rename_i hnone
      rw [hnone] at hsome
      exact absurd hsome (by simp)
    · rename_i ptr' rest' hsome'
      rw [hsome, Option.some.injEq, Prod.mk.injEq] at hsome'
      obtain ⟨rfl, rfl⟩ := hsome'
      rw [if_neg hroom, ih (by omega), tokens_of_next hsome, List.length_cons, List.append_assoc,
        List.singleton_append]
      congr 1
      rw [Nat.add_right_comm, Nat.add_assoc]

theorem bufArgs_eq {R : Type*} (buf : CStr) (optfunc : List (List UInt8) → R) :
    bufArgs buf optfunc = match tokens isWhite buf.bytes with
      | [] => none
      | word :: words =>
        if words.length < MAXARGC - 1 then
          some (optfunc ((buf.bytes.takeWhile isWhite ++ word) :: words))
        else none := by
  unfold bufArgs
  cases hnext : next isWhite buf.bytes with
  | none =>
    rw [tokens_of_next_none hnext]
  | some x =>
    obtain ⟨word, rest⟩ := x
    rw [tokens_of_next hnext]
    simp only
    rw [bufArgsLoop_eq _ _ (by decide), Nat.zero_add]
    split
    · rfl
    · rfl

/-- The request has between one word and `MAXARGC - 1`. -/
def Splits (bytes : List UInt8) : Prop :=
  1 ≤ (tokens isWhite (CStr.ofBuf bytes).bytes).length ∧
    (tokens isWhite (CStr.ofBuf bytes).bytes).length < MAXARGC

theorem bufArgs_eq_none_iff {R : Type*} (bytes : List UInt8) (optfunc : List (List UInt8) → R) :
    bufArgs (CStr.ofBuf bytes) optfunc = none ↔ ¬ Splits bytes := by
  rw [bufArgs_eq, Splits]
  have hmax : MAXARGC = 50 := rfl
  cases htok : tokens isWhite (CStr.ofBuf bytes).bytes with
  | nil => simp
  | cons word words =>
    simp only [List.length_cons]
    split <;> simp <;> omega

/-! ### Requests and histories -/

/-- What a client sends, who it is, and how `open` and `strerror` answer while it is served. -/
structure Request (F : Type*) where
  bytes : List UInt8
  uid : UInt32
  env : Env F
  pos : bytes ≠ []

/-- The last byte of the request is null. -/
def Request.Terminated (q : Request F) : Prop := q.bytes.getLast q.pos = 0

/-- One turn of the loop: the request is read into the buffer, behind it is `stale` from before. -/
def serve (g : Globals) (q : Request F) (stale : List UInt8) : Call F × Globals :=
  handleRequest q.env g (q.bytes ++ stale) q.bytes.length q.uid

/-- The globals after a history of requests, each with what was left in the buffer. -/
def after (history : List (Request F × List UInt8)) : Globals :=
  history.foldl (fun g q => (serve g q.1 q.2).2) Globals.start

theorem getD_last (q : Request F) (stale : List UInt8) :
    (q.bytes ++ stale).getD (q.bytes.length - 1) 0 = q.bytes.getLast q.pos := by
  have hpos := List.length_pos_iff.mpr q.pos
  have hlt : q.bytes.length - 1 < q.bytes.length := by omega
  rw [List.getD_eq_getElem?_getD, List.getElem?_append_left hlt, List.getElem?_eq_getElem hlt,
    Option.getD_some, List.getLast_eq_getElem]

theorem ofBuf_stale {q : Request F} (h : q.Terminated) (stale : List UInt8) :
    CStr.ofBuf (q.bytes ++ stale) = CStr.ofBuf q.bytes := by
  have hsplit := List.dropLast_append_getLast q.pos
  rw [Request.Terminated] at h
  rw [h] at hsplit
  rw [← hsplit, List.append_assoc, List.singleton_append]
  exact CStr.ofBuf_append _ _ _

section serve
variable {q : Request F} (g g' : Globals) (stale stale' : List UInt8)

theorem reply_of_not_terminated (h : ¬ q.Terminated) :
    (serve g q stale).1 = (serve g' q stale').1 := by
  have h' : q.bytes.getLast q.pos ≠ 0 := h
  unfold serve handleRequest handleRequestOf
  rw [getD_last, getD_last, if_pos h', if_pos h', CStr.take_ofBuf, CStr.take_ofBuf]

theorem cliArgs_eq (command : CStr) (argv : List (List UInt8)) :
    (∃ pathname oflag, ∀ g, cliArgsOf command g argv = (true, { g with pathname, oflag })) ∨
      ∀ g, cliArgsOf command g argv = (false, { g with errmsg := usage }) := by
  unfold cliArgsOf
  split
  · rename_i arg0 arg1 arg2
    by_cases h : arg0 = command.bytes
    · exact Or.inl ⟨arg1, Stdio.atoi arg2, fun g => if_pos h⟩
    · exact Or.inr fun g => if_neg h
  · exact Or.inr fun g => rfl

theorem reply_of_splits (h : q.Terminated) (hsplits : Splits q.bytes) :
    (serve g q stale).1 = (serve g' q stale').1 := by
  have h' : ¬ q.bytes.getLast q.pos ≠ 0 := not_not.mpr h
  unfold serve handleRequest handleRequestOf
  rw [getD_last, getD_last, if_neg h', if_neg h', ofBuf_stale h, ofBuf_stale h, bufArgs_eq, bufArgs_eq]
  obtain ⟨hpos, hlt⟩ := hsplits
  cases htok : tokens isWhite (CStr.ofBuf q.bytes).bytes with
  | nil => simp [htok] at hpos
  | cons word words =>
    have hroom : words.length < MAXARGC - 1 := by
      rw [htok, List.length_cons] at hlt
      omega
    simp only [if_pos hroom]
    rcases cliArgs_eq CS_OPEN ((List.takeWhile isWhite (CStr.ofBuf q.bytes).bytes ++ word) :: words) with
      ⟨pathname, oflag, hok⟩ | husage
    · rw [hok, hok]
      simp only
      cases q.env.openFile pathname oflag with
      | error errno => rfl
      | ok newfd => rfl
    · rw [husage, husage]

theorem reply_of_not_splits (h : q.Terminated) (hsplits : ¬ Splits q.bytes) :
    (serve g q stale).1 = .sendErr (-1) g.errmsg.str.bytes := by
  have h' : ¬ q.bytes.getLast q.pos ≠ 0 := not_not.mpr h
  unfold serve handleRequest handleRequestOf
  rw [getD_last, if_neg h', ofBuf_stale h, (bufArgs_eq_none_iff _ _).mpr hsplits]

end serve

/-- A request of one word. -/
def oneWord (env : Env F) : Request F := ⟨[97, 0], 0, env, by simp⟩

theorem errmsg_oneWord (env : Env F) : (after [(oneWord env, [])]).errmsg = usage := by
  have hargs : ∀ g, bufArgs (CStr.ofBuf [97, 0]) (cliArgsOf CS_OPEN g) =
      some (false, { g with errmsg := usage }) := by
    intro g
    rw [bufArgs_eq]
    rfl
  show (handleRequest env Globals.start [97, 0] 2 0).2.errmsg = usage
  unfold handleRequest handleRequestOf
  rw [if_neg (by decide), hargs]

/-- **The answer to a request is independent of what was served before exactly when** it does not end
in a null byte or `buf_args` can split it. -/
theorem isolation_iff (q : Request F) :
    (∀ h₁ h₂ : List (Request F × List UInt8), ∀ stale₁ stale₂,
      (serve (after h₁) q stale₁).1 = (serve (after h₂) q stale₂).1) ↔
    ¬ q.Terminated ∨ Splits q.bytes := by
  constructor
  · intro hsame
    by_contra hbad
    rw [not_or, not_not] at hbad
    have h := hsame [] [(oneWord q.env, [])] [] []
    rw [reply_of_not_splits _ _ hbad.1 hbad.2, reply_of_not_splits _ _ hbad.1 hbad.2,
      errmsg_oneWord] at h
    have hbytes : Globals.start.errmsg.str.bytes = usage.str.bytes := (Call.sendErr.inj h).2
    exact absurd hbytes (by decide)
  · rintro (hterm | hsplits) h₁ h₂ stale₁ stale₂
    · exact reply_of_not_terminated _ _ _ _ hterm
    · by_cases hterm : q.Terminated
      · exact reply_of_splits _ _ _ _ hterm hsplits
      · exact reply_of_not_terminated _ _ _ _ hterm

/-- A machine without files. -/
def noFiles : Env F := ⟨fun _ _ => .error 2, fun _ => CStr.empty⟩

/-- A request of a single blank. -/
def blank : Request ℕ := ⟨[32, 0], 0, noFiles, by simp⟩

/-- The first client gets an empty message for it, the next one the usage message of the first. -/
theorem isolation_breaks : ∃ (q : Request ℕ) (h₁ h₂ : List (Request ℕ × List UInt8)),
    (serve (after h₁) q []).1 ≠ (serve (after h₂) q []).1 := by
  refine ⟨blank, [], [(oneWord noFiles, [])], ?_⟩
  have hterm : blank.Terminated := rfl
  have hsplits : ¬ Splits blank.bytes := by
    unfold Splits
    decide
  rw [reply_of_not_splits _ _ hterm hsplits, reply_of_not_splits _ _ hterm hsplits, errmsg_oneWord]
  intro h
  have hbytes : Globals.start.errmsg.str.bytes = usage.str.bytes := (Call.sendErr.inj h).2
  exact absurd hbytes (by decide)

end Apue.OpenServer

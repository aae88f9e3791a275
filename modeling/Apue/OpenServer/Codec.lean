import Apue.OpenServer.Isolation

/-!
# The request of csopen (Chapter-17/open-2/17-25.c)

`csopen` writes the command word, the name and the flags, with blanks between them and a null byte at the
end; nothing in the name is escaped. `handleRequest_request` says what `handle_request` makes of it: the
server gets to `open` exactly when the name has one word, and opens that word with the flags
(`csopen_opens`). White space before or after the word is lost on the way (`csopen_opens_other`).
-/

namespace Apue.OpenServer
open Token Stdio

variable {F : Type*}

def INT_MAX : ℕ := 2147483647

def space : CStr := ⟨ascii " ", by decide⟩

/-- The three pieces that `writev` writes, with the command word of the server. -/
def requestIov (command name : CStr) (oflag : ℕ) : List (List UInt8) :=
  [command.bytes ++ space.bytes, name.bytes, space.bytes ++ (CStr.decimal oflag).bytes ++ [0]]

/-- The text of the request, without the null byte. -/
def requestText (command name : CStr) (oflag : ℕ) : CStr :=
  command ++ space ++ name ++ space ++ CStr.decimal oflag

theorem flatten_requestIov (command name : CStr) (oflag : ℕ) :
    (requestIov command name oflag).flatten = (requestText command name oflag).bytes ++ [0] := by
  simp [requestIov, requestText]

/-- The arguments of `csopen`. -/
structure Ask where
  name : CStr
  oflag : ℕ
  le : oflag ≤ INT_MAX

def Ask.iov (q : Ask) : List (List UInt8) := requestIov CS_OPEN q.name q.oflag

def Ask.bytes (q : Ask) : List UInt8 := q.iov.flatten

theorem isWhite_of_mem {n : ℕ} {c : UInt8} (h : c ∈ CStr.digitBytes n) : isWhite c = false := by
  have hdigit := CStr.toNat_digitBytes h
  by_contra hwhite
  rw [Bool.not_eq_false, isWhite, Bool.or_eq_true, Bool.or_eq_true, decide_eq_true_eq,
    decide_eq_true_eq, decide_eq_true_eq] at hwhite
  rcases hwhite with (rfl | rfl) | rfl
  · exact absurd hdigit (by decide)
  · exact absurd hdigit (by decide)
  · exact absurd hdigit (by decide)

/-! ### Words -/

/-- A word of its own, as a command word has to be. -/
def Word (command : CStr) : Prop := command.bytes ≠ [] ∧ command.bytes.all (fun c => !isWhite c) = true

instance (command : CStr) : Decidable (Word command) := inferInstanceAs (Decidable (_ ∧ _))

section words
variable {command name : CStr} {oflag : ℕ}

theorem tokens_requestText (hcommand : Word command) :
    tokens isWhite (requestText command name oflag).bytes =
      command.bytes :: (tokens isWhite name.bytes ++ [CStr.digitBytes oflag]) := by
  have htext : (requestText command name oflag).bytes =
      command.bytes ++ 32 :: (name.bytes ++ 32 :: CStr.digitBytes oflag) := by
    simp only [requestText, CStr.bytes_append, CStr.decimal_natCast]
    simp [space, ascii, CStr.digits]
  have hword : tokens isWhite command.bytes = [command.bytes] :=
    tokens_word hcommand.1 fun c hc => by simpa using List.all_eq_true.mp hcommand.2 c hc
  have hflags : tokens isWhite (CStr.digitBytes oflag) = [CStr.digitBytes oflag] :=
    tokens_word (CStr.digitBytes_ne_nil _) fun c hc => isWhite_of_mem hc
  have hblank : isWhite 32 = true := rfl
  rw [htext, tokens_append_cons _ hblank, tokens_append_cons _ hblank, hword, hflags,
    List.singleton_append]

theorem takeWhile_requestText (hcommand : Word command) :
    (requestText command name oflag).bytes.takeWhile isWhite = [] := by
  obtain ⟨c, rest, hbytes⟩ := List.exists_cons_of_ne_nil hcommand.1
  have hwhite : isWhite c = false := by
    have hall := hcommand.2
    rw [hbytes, List.all_cons, Bool.and_eq_true] at hall
    simpa using hall.1
  have htext : (requestText command name oflag).bytes = command.bytes ++
      (space.bytes ++ (name.bytes ++ (space.bytes ++ (CStr.decimal oflag).bytes))) := by
    simp [requestText]
  rw [htext, hbytes, List.cons_append]
  exact List.takeWhile_cons_of_neg (by simp [hwhite])

end words

/-! ### What the server does with it -/

section serve
variable (env : Env F) (g : Globals) {command : CStr} (name : CStr) {oflag : ℕ}

/-- The answer to the request, and the globals behind it. -/
def answerTo (oflag : ℕ) : Call F × Globals :=
  match tokens isWhite name.bytes with
  | [word] =>
    let g := { g with pathname := word, oflag }
    match env.openFile word oflag with
    | .error errno =>
      let errmsg := openError env word errno
      (.sendErr (-1) errmsg.str.bytes, { g with errmsg })
    | .ok f => (.sendFd f, g)
  | words =>
    if words.length + 2 < MAXARGC then (.sendErr (-1) usage.str.bytes, { g with errmsg := usage })
    else (.sendErr (-1) g.errmsg.str.bytes, g)

theorem bufArgs_requestText {R : Type*} (hcommand : Word command) (optfunc : List (List UInt8) → R) :
    bufArgs (requestText command name oflag) optfunc =
      if (tokens isWhite name.bytes).length + 2 < MAXARGC then
        some (optfunc (command.bytes :: (tokens isWhite name.bytes ++ [CStr.digitBytes oflag])))
      else none := by
  rw [bufArgs_eq, tokens_requestText hcommand, takeWhile_requestText hcommand]
  have hmax : MAXARGC = 50 := rfl
  simp only [List.length_append, List.length_singleton, List.nil_append]
  split
  · rw [if_pos (by omega)]
  · rw [if_neg (by omega)]

theorem cliArgs_of_length {argv : List (List UInt8)} (h : argv.length ≠ 3) :
    cliArgsOf command g argv = (false, { g with errmsg := usage }) := by
  unfold cliArgsOf
  split
  · exact absurd rfl h
  · rfl

theorem args_requestText (hcommand : Word command) (hle : oflag ≤ INT_MAX) :
    bufArgs (requestText command name oflag) (cliArgsOf command g) =
      match tokens isWhite name.bytes with
      | [word] => some (true, { g with pathname := word, oflag })
      | words => if words.length + 2 < MAXARGC then some (false, { g with errmsg := usage }) else none := by
  rw [bufArgs_requestText name hcommand]
  cases htok : tokens isWhite name.bytes with
  | nil =>
    rw [if_pos (by decide), cliArgs_of_length g (by simp)]
    rfl
  | cons word words =>
    cases words with
    | nil =>
      have hflags : atoi (CStr.digitBytes oflag) = oflag := atoi_digits (Nat.lt_succ_of_le hle)
      have hargs : cliArgsOf command g [command.bytes, word, CStr.digitBytes oflag] =
          (true, { g with pathname := word, oflag }) := by
        simp only [cliArgsOf, hflags, if_true]
      have hroom : [word].length + 2 < MAXARGC := show 3 < MAXARGC by decide
      rw [if_pos hroom]
      exact congrArg some hargs
    | cons word' words => rw [cliArgs_of_length g (by simp)]

theorem ofBuf_requestIov (stale : List UInt8) :
    CStr.ofBuf ((requestIov command name oflag).flatten ++ stale) = requestText command name oflag := by
  rw [flatten_requestIov, List.append_assoc, List.singleton_append]
  exact CStr.ofBuf_bytes _ _

theorem getD_requestIov (stale : List UInt8) :
    ((requestIov command name oflag).flatten ++ stale).getD ((requestIov command name oflag).flatten.length - 1)
      0 = 0 := by
  rw [flatten_requestIov, List.append_assoc]
  simp

theorem handleRequestOf_requestIov (hcommand : Word command) (hle : oflag ≤ INT_MAX) (unterminated : CStr)
    (stale : List UInt8) :
    handleRequestOf command unterminated env g ((requestIov command name oflag).flatten ++ stale)
      (requestIov command name oflag).flatten.length = answerTo env g name oflag := by
  unfold handleRequestOf answerTo
  rw [if_neg (by rw [getD_requestIov]; decide), ofBuf_requestIov, args_requestText g name hcommand hle]
  cases htok : tokens isWhite name.bytes with
  | nil => rfl
  | cons word words =>
    cases words with
    | nil =>
      cases hopen : env.openFile word oflag with
      | error errno => simp only [hopen]
      | ok f => simp only [hopen]
    | cons word' words =>
      by_cases hroom : (word :: word' :: words).length + 2 < MAXARGC
      · simp only [if_pos hroom]
      · simp only [if_neg hroom]

theorem answerTo_sendFd {f : F} (h : (answerTo env g name oflag).1 = .sendFd f) :
    ∃ word, tokens isWhite name.bytes = [word] ∧ env.openFile word oflag = .ok f := by
  unfold answerTo at h
  split at h
  · rename_i word hword
    refine ⟨word, hword, ?_⟩
    cases hopen : env.openFile word oflag with
    | error errno => simp [hopen] at h
    | ok f' =>
      simp only [hopen, Call.sendFd.injEq] at h
      rw [h]
  · split at h
    · exact absurd h (by simp)
    · exact absurd h (by simp)

theorem fits_answerTo : (answerTo env g name oflag).1.Fits := by
  have hfits (e : Errmsg) : (Call.sendErr (F := F) (-1) e.str.bytes).Fits := ⟨e.str.noNul, e.le⟩
  unfold answerTo
  split
  · rename_i word _
    cases env.openFile word oflag with
    | error errno => exact hfits _
    | ok f => exact ⟨by simp [Call.text], Nat.zero_le _⟩
  · split
    · exact hfits _
    · exact hfits _

end serve

/-! ### What is opened -/

section opened
variable (env : Env F) (g : Globals) (q : Ask) (stale : List UInt8) (uid : UInt32)

theorem handleRequest_request :
    handleRequest env g (q.bytes ++ stale) q.bytes.length uid = answerTo env g q.name q.oflag :=
  handleRequestOf_requestIov env g q.name (by decide) q.le _ stale

/-- The arguments of `open` in `handle_request`, if it gets there. -/
def openArgs (buf : List UInt8) (nread : ℕ) : Option (List UInt8 × ℤ) :=
  if buf.getD (nread - 1) 0 ≠ 0 then none
  else
    match bufArgs (CStr.ofBuf buf) (cliArgs g) with
    | some (true, g) => some (g.pathname, g.oflag)
    | _ => none

theorem handleRequest_openArgs (buf : List UInt8) (nread : ℕ) :
    match openArgs g buf nread with
    | none => ∃ errmsg, ∀ env : Env F, (handleRequest env g buf nread uid).1 = .sendErr (-1) errmsg
    | some (pathname, oflag) => ∀ env : Env F,
      match env.openFile pathname oflag with
      | .ok f => (handleRequest env g buf nread uid).1 = .sendFd f
      | .error _ => ∃ errmsg, (handleRequest env g buf nread uid).1 = .sendErr (-1) errmsg := by
  unfold openArgs handleRequest handleRequestOf
  by_cases hlast : buf.getD (nread - 1) 0 ≠ 0
  · simp only [if_pos hlast]
    exact ⟨_, fun _ => rfl⟩
  · simp only [if_neg hlast]
    have hcli : cliArgs g = cliArgsOf CS_OPEN g := rfl
    rw [hcli]
    cases hargs : bufArgs (CStr.ofBuf buf) (cliArgsOf CS_OPEN g) with
    | none => exact ⟨_, fun _ => rfl⟩
    | some x =>
      obtain ⟨ok, g'⟩ := x
      cases ok with
      | false => exact ⟨_, fun _ => rfl⟩
      | true =>
        intro env
        cases hopen : env.openFile g'.pathname g'.oflag with
        | error errno =>
          simp only [hopen]
          exact ⟨_, rfl⟩
        | ok f => simp only [hopen]

theorem openArgs_request : openArgs g (q.bytes ++ stale) q.bytes.length =
    match tokens isWhite q.name.bytes with
    | [word] => some (word, (q.oflag : ℤ))
    | _ => none := by
  have hlast : ¬ (q.bytes ++ stale).getD (q.bytes.length - 1) 0 ≠ 0 := by
    rw [Ask.bytes, Ask.iov, getD_requestIov]
    decide
  have hargs := args_requestText g q.name (show Word CS_OPEN by decide) q.le
  have hcli : cliArgs g = cliArgsOf CS_OPEN g := rfl
  unfold openArgs
  rw [if_neg hlast, Ask.bytes, Ask.iov, ofBuf_requestIov, hcli, hargs]
  cases tokens isWhite q.name.bytes with
  | nil => rfl
  | cons word words =>
    cases words with
    | nil => rfl
    | cons word' words =>
      by_cases hroom : (word :: word' :: words).length + 2 < MAXARGC
      · simp only [if_pos hroom]
      · simp only [if_neg hroom]

/-- The server opens a file exactly when the name has one word, and then that word, with the flags. -/
theorem csopen_opens :
    (∀ pathname oflag, openArgs g (q.bytes ++ stale) q.bytes.length = some (pathname, oflag) ↔
      tokens isWhite q.name.bytes = [pathname] ∧ oflag = q.oflag) ∧
    ((∀ word, tokens isWhite q.name.bytes ≠ [word]) →
      openArgs g (q.bytes ++ stale) q.bytes.length = none ∧ ∃ errmsg, ∀ env : Env F,
        (handleRequest env g (q.bytes ++ stale) q.bytes.length uid).1 = .sendErr (-1) errmsg) := by
  have hargs := openArgs_request g q stale
  constructor
  · intro pathname oflag
    rw [hargs]
    split
    · rename_i word hword
      simp [hword, eq_comm]
    · rename_i hnot
      simp only [reduceCtorEq, false_iff, not_and]
      exact fun hword => absurd hword (hnot pathname)
  · intro hnot
    have hnone : openArgs g (q.bytes ++ stale) q.bytes.length = none := by
      rw [hargs]
      split
      · rename_i word hword
        exact absurd hword (hnot word)
      · rfl
    have hreply := handleRequest_openArgs (F := F) g uid (q.bytes ++ stale) q.bytes.length
    rw [hnone] at hreply
    exact ⟨hnone, hreply⟩

end opened

/-- The name is a blank and an `a`. -/
def blankFirst : Ask := ⟨⟨ascii " a", by decide⟩, 0, by decide⟩

/-- The server opens the file `a`. -/
theorem csopen_opens_other : blankFirst.name.bytes.any isWhite = true ∧ blankFirst.bytes.length ≤ MAXLINE ∧
    openArgs .start blankFirst.bytes blankFirst.bytes.length = some (ascii "a", 0) ∧
    blankFirst.name.bytes ≠ ascii "a" := by
  have htokens : tokens isWhite blankFirst.name.bytes = [ascii "a"] := by decide
  have hargs := openArgs_request .start blankFirst []
  rw [htokens, List.append_nil] at hargs
  exact ⟨by decide, by decide, hargs, by decide⟩

theorem fits_handleRequest (env : Env F) (g : Globals) (buf : List UInt8) (nread : ℕ) (uid : UInt32) :
    (handleRequest env g buf nread uid).1.Fits := by
  have herr : ∀ errcode (m : Errmsg), (Call.sendErr (F := F) errcode m.str.bytes).Fits := fun _ m =>
    ⟨m.str.noNul, m.le⟩
  have hfd : ∀ f : F, (Call.sendFd f).Fits := fun f => ⟨List.not_mem_nil, Nat.zero_le _⟩
  unfold handleRequest handleRequestOf
  split
  · exact herr _ _
  · split
    · exact herr _ _
    · exact herr _ _
    · split
      · exact herr _ _
      · exact hfd _

end Apue.OpenServer

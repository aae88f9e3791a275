import Apue.Lib.Stdio
import Apue.Lib.Token
import Apue.OpenServer.FdPassing

/-!
# Serving one request (Chapter-17/open-2: 17-23.c, 17-24.c, 17-28.c and 17-31.c)

`handle_request` checks that the buffer ends in a null byte, has `buf_args` split it at white space,
`cli_args` check the words, opens the file and answers with `send_fd` or `send_err`. `errmsg`,
`pathname` and `oflag` are globals of the server. `open(2)` is a parameter: what it returns for a path
and flags, a descriptor or an `errno`; so is `strerror`.

`log_msg` has no part in the answer, but behind an error `handle_request` calls it with `errmsg` as the
format (`logFormat`), and a conversion in it would take arguments that are not there (`noConversion`).
-/

namespace Apue.OpenServer
open Token Stdio

def MAXARGC : ℕ := 50

/-- The characters of `WHITE`: space, tab, newline. -/
def isWhite (c : UInt8) : Bool := c = 32 || c = 9 || c = 10

/-! ### buf_args -/

/-- The loop of `buf_args`; `argv` has `argc + 1` entries. -/
def bufArgsLoop (s : List UInt8) (argc : ℕ) (argv : List (List UInt8)) : Option (List (List UInt8)) :=
  match _h : next isWhite s with
  | none => some argv
  | some (ptr, rest) =>
    if argc + 1 ≥ MAXARGC - 1 then none else bufArgsLoop rest (argc + 1) (argv ++ [ptr])
termination_by s.length
decreasing_by exact length_of_next ‹_›

/-- `buf_args` on the string in `buf`; `none` when it returns -1 without calling `optfunc`. The first
argument is `buf` itself, up to the end of the first word. -/
def bufArgs {R : Type*} (buf : CStr) (optfunc : List (List UInt8) → R) : Option R :=
  match next isWhite buf.bytes with
  | none => none
  | some (word, rest) =>
    (bufArgsLoop rest 0 [buf.bytes.takeWhile isWhite ++ word]).map optfunc

/-! ### cli_args -/

def CS_OPEN : CStr := ⟨ascii "/tmp/opend.socket", by decide⟩

/-- What `errmsg` can hold: `snprintf` is called with the size `MAXLINE - 1`. -/
structure Errmsg where
  str : CStr
  le : str.length ≤ MAXLINE - 2
  deriving DecidableEq

/-- `snprintf(errmsg, MAXLINE - 1, ..)`. -/
def snprintf (s : CStr) : Errmsg where
  str := s.take (MAXLINE - 2)
  le := by
    rw [CStr.length_take]
    exact Nat.min_le_left _ _

/-- The globals of the server that `handle_request` works with. -/
structure Globals where
  errmsg : Errmsg
  pathname : List UInt8
  oflag : ℤ

/-- The globals when the server starts. -/
def Globals.start : Globals := ⟨⟨CStr.empty, Nat.zero_le _⟩, [], 0⟩

def usage : Errmsg := ⟨⟨ascii "usage: <pathname> <oflag>\n", by decide⟩, by decide⟩

/-- `cli_args`, with the command word of the server: whether it returns 0, and the globals. -/
def cliArgsOf (command : CStr) (g : Globals) (argv : List (List UInt8)) : Bool × Globals :=
  match argv with
  | [arg0, arg1, arg2] =>
    if arg0 = command.bytes then (true, { g with pathname := arg1, oflag := atoi arg2 })
    else (false, { g with errmsg := usage })
  | _ => (false, { g with errmsg := usage })

def cliArgs (g : Globals) (argv : List (List UInt8)) : Bool × Globals := cliArgsOf CS_OPEN g argv

/-! ### handle_request -/

/-- `%d` of a `uid_t`, which is unsigned. -/
def decimalUid (uid : UInt32) : CStr := CStr.decimal uid.toBitVec.toInt

def notTerminated : CStr := ⟨ascii " not null terminated: ", by decide⟩
def requestFrom : CStr := ⟨ascii "request from uid ", by decide⟩
def cannotOpen : CStr := ⟨ascii "cannot open ", by decide⟩
def colon : CStr := ⟨ascii ": ", by decide⟩
def newline : CStr := ⟨ascii "\n", by decide⟩

variable {F : Type*}

/-- What the world outside decides: how `open` ends, and the texts of the errors. -/
structure Env (F : Type*) where
  openFile : List UInt8 → ℤ → Except ℕ F
  strerror : ℕ → CStr

/-- What `handle_request` puts into `errmsg` when `open` fails. -/
def openError (env : Env F) (pathname : List UInt8) (errno : ℕ) : Errmsg :=
  snprintf (cannotOpen ++ CStr.ofBuf pathname ++ colon ++ env.strerror errno ++ newline)

/-- `handle_request`, with the command word of the server and the text for a request without a null byte:
what is sent to the client, and the globals. -/
def handleRequestOf (command unterminated : CStr) (env : Env F) (g : Globals) (buf : List UInt8)
    (nread : ℕ) : Call F × Globals :=
  if buf.getD (nread - 1) 0 ≠ 0 then
    let errmsg := snprintf (unterminated ++ ((CStr.ofBuf buf).take nread).padLeft nread ++ newline)
    (.sendErr (-1) errmsg.str.bytes, { g with errmsg })
  else
    match bufArgs (CStr.ofBuf buf) (cliArgsOf command g) with
    | none => (.sendErr (-1) g.errmsg.str.bytes, g)
    | some (false, g) => (.sendErr (-1) g.errmsg.str.bytes, g)
    | some (true, g) =>
      match env.openFile g.pathname g.oflag with
      | .error errno =>
        let errmsg := openError env g.pathname errno
        (.sendErr (-1) errmsg.str.bytes, { g with errmsg })
      | .ok newfd => (.sendFd newfd, g)

/-- `handle_request(buf, nread, clifd, uid)`. -/
def handleRequest (env : Env F) (g : Globals) (buf : List UInt8) (nread : ℕ) (uid : UInt32) :
    Call F × Globals :=
  handleRequestOf CS_OPEN (requestFrom ++ decimalUid uid ++ notTerminated) env g buf nread

/-! ### log_msg -/

/-- The format of the last `log_msg` of `handle_request`, when that is `errmsg`. -/
def logFormat (env : Env F) (g : Globals) (buf : List UInt8) (nread : ℕ) (uid : UInt32) : Option CStr :=
  if buf.getD (nread - 1) 0 ≠ 0 then none
  else
    match handleRequest env g buf nread uid with
    | (.sendErr _ _, g) => some g.errmsg.str
    | (.sendFd _, _) => none

/-- Every `%` of a format is one of a pair. -/
def noConversion : List UInt8 → Bool
  | [] => true
  | [c] => c ≠ 37
  | c :: d :: s => if c = 37 then d = 37 && noConversion s else noConversion (d :: s)

end Apue.OpenServer

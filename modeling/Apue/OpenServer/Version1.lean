import Apue.Lib.Stdio
import Apue.OpenServer.Codec

/-!
# Requests of version 1 (Chapter-17/open-1: 17-18.c, 17-19.c, 17-22.c and 17-24.c)

In version 1 the command word is `open`, and the server has only one client, the process that has started it.
`handleRequest_request` says what its `handle_request` makes of a request of `csopen`.

The client's `main` asks for one file after the other: `lines` are the names that it takes from its standard
input, and `opened` is the file that it gets for one of them.
-/

namespace Apue.OpenServer.V1
open Token

variable {F : Type*}

def CL_OPEN : CStr := ⟨ascii "open", by decide⟩

/-- The arguments of `csopen`; the text of the flags has to fit in `buf[10]`. -/
structure Ask where
  name : CStr
  oflag : ℕ
  lt : oflag < 10 ^ 8

def Ask.iov (q : Ask) : List (List UInt8) := requestIov CL_OPEN q.name q.oflag

def Ask.bytes (q : Ask) : List UInt8 := q.iov.flatten

def cliArgs (g : Globals) (argv : List (List UInt8)) : Bool × Globals := cliArgsOf CL_OPEN g argv

def notTerminated : CStr := ⟨ascii "request not nullterminated: ", by decide⟩

/-- `handle_request(buf, nread, fd)`. -/
def handleRequest (env : Env F) (g : Globals) (buf : List UInt8) (nread : ℕ) : Call F × Globals :=
  handleRequestOf CL_OPEN notTerminated env g buf nread

/-! ### What the server does with a request -/

section serve
variable (env : Env F) (g : Globals) (q : Ask) (stale : List UInt8)

theorem handleRequest_request :
    handleRequest env g (q.bytes ++ stale) q.bytes.length = answerTo env g q.name q.oflag := by
  have hle : q.oflag ≤ INT_MAX := le_of_lt (q.lt.trans (by decide))
  exact handleRequestOf_requestIov env g q.name (by decide) hle _ stale

/-- The file that the server sends: the one with the only word of the name. -/
def opened : Option F :=
  match tokens isWhite q.name.bytes with
  | [word] =>
    match env.openFile word q.oflag with
    | .error _ => none
    | .ok f => some f
  | _ => none

/-- A descriptor comes if a file is opened, and otherwise the error -1. -/
theorem answer_answerTo : answer (answerTo env g q.name q.oflag).1.arg =
    match opened env q with
    | some f => .ok f
    | none => .error (-1) := by
  have herr : answer (F := F) (.error (errArg (-1))) = .error (-1) := rfl
  unfold answerTo opened
  cases tokens isWhite q.name.bytes with
  | nil => exact herr
  | cons word words =>
    cases words with
    | nil =>
      simp only
      cases env.openFile word q.oflag with
      | error errno => exact herr
      | ok f => rfl
    | cons word' words =>
      simp only
      split
      · exact herr
      · exact herr

end serve

/-! ### The lines of the client -/

/-- `line` without the newline at its end; none when there is no last byte to look at. -/
def trim (line : CStr) : Option CStr :=
  match line.bytes.getLast? with
  | none => none
  | some c => some (if c = 10 then line.take (line.length - 1) else line)

/-- The names that `main` takes from its standard input, which `fgets` cuts into pieces. -/
def lines (input : List UInt8) : List CStr :=
  match _h : Stdio.fgets MAXLINE input with
  | none => []
  | some (chunk, rest) => ((trim (CStr.ofBuf chunk)).getD CStr.empty) :: lines rest
termination_by input.length
decreasing_by
  obtain ⟨hsplit, hne, -⟩ := Stdio.fgets_eq_some (show 2 ≤ MAXLINE by decide) _h
  rw [← hsplit, List.length_append]
  have hpos := List.length_pos_iff.mpr hne
  omega

theorem lines_of_fgets {input chunk rest : List UInt8} (h : Stdio.fgets MAXLINE input = some (chunk, rest)) :
    lines input = (trim (CStr.ofBuf chunk)).getD CStr.empty :: lines rest := by
  rw [lines]
  split
  · rename_i hnone
    rw [hnone] at h
    cases h
  · rename_i chunk' rest' hsome
    obtain ⟨rfl, rfl⟩ := Prod.mk.inj (Option.some.inj (hsome.symm.trans h))
    rfl

theorem lines_nil : lines [] = [] := by
  rw [lines]
  split
  · rfl
  · rename_i hsome
    cases hsome

theorem trim_ne_none {chunk : List UInt8} (hne : chunk ≠ []) (h : 0 ∉ chunk) : trim (CStr.ofBuf chunk) ≠ none := by
  unfold trim
  rw [CStr.bytes_ofBuf h]
  obtain ⟨c, hc⟩ := Option.ne_none_iff_exists'.mp (mt List.getLast?_eq_none_iff.mp hne)
  simp [hc]

end Apue.OpenServer.V1

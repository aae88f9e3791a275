import Apue.Lib.CString
import Apue.Lib.Descriptors
import Apue.Lib.Transition

/-!
# `popen` and `pclose` (Chapter-15/15-12.c)

One process with any descriptors and streams calls `my_popen` and `my_pclose`. Each call comes with the
outcomes of the system calls in it. Between calls the caller may change its descriptors and open and
close streams of its own, but it leaves the streams of `my_popen` to `my_pclose`.

* Streams and children are numbered as they come and stay in their lists after they are closed and
  waited for. A child keeps the descriptors with which it reaches `execl`.
* `childpid` has `maxfd` elements; reading or writing outside of it sets `fault`, after which nothing
  runs.
* The loop around `waitpid` is one outcome: what it returns after any number of `EINTR`.
-/

namespace Apue.Popen
open Descriptors Transition

/-- What a descriptor is open on: a file of the caller's, or an end of the n-th pipe of `my_popen`. -/
inductive File (F : Type*) where
  | other (f : F)
  | pipeR (n : ℕ)
  | pipeW (n : ℕ)

inductive Mode where
  | r
  | w
  deriving DecidableEq

/-- The byte `type[k]`, which is null behind the string. -/
def typeAt (type : CStr) (k : ℕ) : UInt8 := type.bytes.getD k 0

/-- The mode that `type` names; the letters are `r` and `w`. -/
def mode (type : CStr) : Option Mode :=
  if (typeAt type 0 ≠ 119 ∧ typeAt type 0 ≠ 114) ∨ typeAt type 1 ≠ 0 then none
  else if typeAt type 0 = 114 then some .r else some .w

inductive Errno where
  | EINVAL
  | EMFILE
  /-- What a failed call left there. -/
  | sys
  deriving DecidableEq

structure Stream where
  fd : ℕ
  /-- The child, for a stream that `my_popen` returned. -/
  child : Option ℕ
  isOpen : Bool
  deriving DecidableEq

structure Child (F : Type*) where
  pid : ℕ
  fds : Table (File F)
  /-- The streams whose `my_pclose` waited for the child. -/
  waitedBy : List ℕ

structure State (F : Type*) where
  fds : Table (File F)
  childpid : Option (ℕ → ℕ)
  maxfd : ℕ
  streams : List Stream
  children : List (Child F)
  pipes : ℕ
  fault : Bool

variable {F : Type*}

namespace State

/-- An assignment to `childpid[i]`. -/
def store (s : State F) (i pid : ℕ) : State F :=
  if i < s.maxfd then { s with childpid := s.childpid.map fun t => Function.update t i pid }
  else { s with fault := true }

def closeFd (s : State F) (fd : ℕ) : State F := { s with fds := s.fds.close fd }

def fileno (s : State F) (fp : ℕ) : ℕ := (s.streams[fp]?).elim 0 Stream.fd

/-- `fclose`: the descriptor is gone, whatever it returns, and with it every stream on it. -/
def fclose (s : State F) (fp : ℕ) : State F :=
  { s with
    streams := s.streams.map fun st => if st.fd = s.fileno fp then { st with isOpen := false } else st
    fds := s.fds.close (s.fileno fp) }

/-- The child that `waitpid` finds. -/
def waitable (s : State F) (pid : ℕ) : Option ℕ :=
  s.children.findIdx? fun c => c.pid = pid ∧ c.waitedBy = []

/-- `waitpid`, in `my_pclose` of the stream `fp`. -/
def reap (s : State F) (fp k : ℕ) : State F :=
  { s with children := s.children.modify k fun c => { c with waitedBy := c.waitedBy ++ [fp] } }

end State

/-! ### `my_popen` -/

/-- The outcomes in `my_popen`: what `open_max` says, whether `calloc` succeeds, below which number a
descriptor can be opened, the child that `fork` makes, and whether `fdopen` succeeds. -/
structure PopenEnv where
  openMax : ℕ
  calloc : Bool
  limit : ℕ
  fork : Option ℕ
  fdopen : Bool

/-- The table is there, or is allocated now; `false` when that fails. -/
def State.allocTable (s : State F) (e : PopenEnv) : State F × Bool :=
  match s.childpid with
  | some _ => (s, true)
  | none =>
    let s := { s with maxfd := e.openMax }
    if e.calloc then ({ s with childpid := some fun _ => 0 }, true) else (s, false)

/-- The end of the pipe that the parent keeps, and the one it closes. -/
def Mode.parentEnd : Mode → ℕ → ℕ → ℕ
  | .r, pfd0, _ => pfd0
  | .w, _, pfd1 => pfd1

def Mode.childEnd : Mode → ℕ → ℕ → ℕ
  | .r, _, pfd1 => pfd1
  | .w, pfd0, _ => pfd0

/-- `STDOUT_FILENO` or `STDIN_FILENO`. -/
def Mode.std : Mode → ℕ
  | .r => 1
  | .w => 0

/-- The numbers that the child closes before `execl`. -/
def State.recorded (s : State F) : List ℕ :=
  (List.range s.maxfd).filter fun i => (s.childpid.elim 0 fun t => t i) > 0

/-- The descriptors with which the child reaches `execl`. -/
def State.childFds (s : State F) (m : Mode) (pfd0 pfd1 : ℕ) : Table (File F) :=
  let t := s.fds.close (m.parentEnd pfd0 pfd1)
  let t := if m.childEnd pfd0 pfd1 ≠ m.std then
    (t.dup2 (m.childEnd pfd0 pfd1) m.std).close (m.childEnd pfd0 pfd1) else t
  t.closeAll s.recorded

def State.fork (s : State F) (m : Mode) (pfd0 pfd1 pid : ℕ) : State F :=
  { s with children := s.children ++ [⟨pid, s.childFds m pfd0 pfd1, []⟩] }

/-- What the parent does after `fork`. -/
def State.finish (s : State F) (m : Mode) (pfd0 pfd1 pid k : ℕ) (fdopen : Bool) :
    State F × Except Errno ℕ :=
  let s := s.closeFd (m.childEnd pfd0 pfd1)
  if fdopen then
    let fp := s.streams.length
    let fd := m.parentEnd pfd0 pfd1
    (State.store { s with streams := s.streams ++ [⟨fd, some k, true⟩] } fd pid, .ok fp)
  else (s, .error .sys)

def State.myPopen (s : State F) (type : CStr) (e : PopenEnv) : State F × Except Errno ℕ :=
  match mode type with
  | none => (s, .error .EINVAL)
  | some m =>
    match s.allocTable e with
    | (s, false) => (s, .error .sys)
    | (s, true) =>
      match s.fds.pipe e.limit (.pipeR s.pipes) (.pipeW s.pipes) with
      | none => (s, .error .sys)
      | some (pfd0, pfd1, fds) =>
        let s := { s with fds := fds, pipes := s.pipes + 1 }
        if pfd0 ≥ s.maxfd ∨ pfd1 ≥ s.maxfd then ((s.closeFd pfd0).closeFd pfd1, .error .EMFILE)
        else
          match e.fork with
          | none => (s, .error .sys)
          | some pid => (s.fork m pfd0 pfd1 pid).finish m pfd0 pfd1 pid s.children.length e.fdopen

/-! ### `my_pclose` -/

/-- The outcomes in `my_pclose`; `waitpid` is the status it ends with, or `none`. -/
structure PcloseEnv where
  fclose : Bool
  waitpid : Option ℤ

def State.myPclose (s : State F) (fp : ℕ) (e : PcloseEnv) : State F × Except Errno ℤ :=
  match s.childpid with
  | none => (s, .error .EINVAL)
  | some t =>
    let fd := s.fileno fp
    if fd > s.maxfd then (s, .error .EINVAL)
    -- childpid[maxfd] is behind the table
    else if fd = s.maxfd then ({ s with fault := true }, .error .sys)
    else if t fd = 0 then (s, .error .EINVAL)
    else
      let s := (s.store fd 0).fclose fp
      if e.fclose then
        match e.waitpid, s.waitable (t fd) with
        | some stat, some k => (s.reap fp k, .ok stat)
        | _, _ => (s, .error .sys)
      else (s, .error .sys)

/-! ### Runs -/

/-- The stream `fp`, which `my_popen` returned with the child `k`, is open on `fd`. -/
def State.Popened (s : State F) (fp fd k : ℕ) : Prop := s.streams[fp]? = some ⟨fd, some k, true⟩

/-- An open stream of `my_popen` is on the descriptor. -/
def State.Taken (s : State F) (fd : ℕ) : Prop :=
  ∃ st ∈ s.streams, st.isOpen = true ∧ st.child.isSome = true ∧ st.fd = fd

instance (s : State F) (fd : ℕ) : Decidable (s.Taken fd) := inferInstanceAs (Decidable (∃ _ ∈ _, _))

/-- The child that `fork` makes has a pid that no child has which is not waited for. -/
def State.Fresh (s : State F) (pid : ℕ) : Prop :=
  0 < pid ∧ ∀ c ∈ s.children, c.waitedBy = [] → c.pid ≠ pid

instance (s : State F) (pid : ℕ) : Decidable (s.Fresh pid) := inferInstanceAs (Decidable (_ ∧ _))

/-- The stream is open, with this child if `my_popen` returned it. -/
def State.opened (s : State F) (fp : ℕ) : Option Stream := (s.streams[fp]?).filter Stream.isOpen

/-- Calls of the two functions, and what the caller does with its own descriptors and streams: it opens
or closes a descriptor, makes it a copy of another one, opens a stream on one and closes a stream. -/
inductive Act (F : Type*) where
  | popen (type : CStr) (e : PopenEnv)
  | pclose (fp : ℕ) (e : PcloseEnv)
  | open (fd : ℕ) (f : F)
  | dup (fd fd' : ℕ)
  | close (fd : ℕ)
  | fdopen (fd : ℕ)
  | fclose (fp : ℕ)

def step (s : State F) : Act F → Option (State F)
  | .popen type e =>
    if s.fault = false ∧ ∀ pid ∈ e.fork, s.Fresh pid then some (s.myPopen type e).1 else none
  | .pclose fp e =>
    if s.fault = false ∧ (s.opened fp).isSome then some (s.myPclose fp e).1 else none
  | .open fd f =>
    if s.fault = false ∧ ¬ s.Taken fd then some { s with fds := s.fds.put fd (.other f) } else none
  | .dup fd fd' =>
    if s.fault = false ∧ ¬ s.Taken fd' then some { s with fds := s.fds.dup2 fd fd' } else none
  | .close fd => if s.fault = false ∧ ¬ s.Taken fd then some (s.closeFd fd) else none
  | .fdopen fd =>
    if s.fault = false ∧ (s.fds fd).isSome then
      some { s with streams := s.streams ++ [⟨fd, none, true⟩] }
    else none
  | .fclose fp =>
    if s.fault = false ∧ (s.opened fp).isSome ∧ ¬ s.Taken (s.fileno fp) then some (s.fclose fp) else none

/-- Before the first call, with any descriptors and open streams. -/
def start (fds : Table F) (streams : List ℕ) : State F where
  fds fd := (fds fd).map .other
  childpid := none
  maxfd := 0
  streams := streams.map fun fd => ⟨fd, none, true⟩
  children := []
  pipes := 0
  fault := false

end Apue.Popen

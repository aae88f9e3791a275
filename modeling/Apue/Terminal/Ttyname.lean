import Apue.Lib.CString
import Apue.Lib.Levels
import Apue.Lib.Linked

/-!
# `ttyname` (Chapter-18/18-15.c)

`my_ttyname` looks for the name of a terminal in `/dev` and the directories below it. The directories that are
still to be searched are in a linked list, to which `searchdir` appends while `my_ttyname` goes along it; every
path is put together in the one buffer `pathname`.

Nothing is left out of the memory: the nodes of the list have addresses and are freed in the end, and the buffer
has its size. What the program must not do is an error (`Stuck`). Allocations succeed.
-/

namespace Apue.Ttyname

def POSIX_PATH_MAX : ℕ := 256

/-! ### Files -/

inductive FileType where
  | dir
  | chr
  | other
  deriving DecidableEq

structure Stat where
  type : FileType
  dev : ℕ
  ino : ℕ
  deriving DecidableEq

/-- What `readdir` puts into `d_name`. -/
structure Name where
  text : CStr
  nonempty : text.bytes ≠ []
  noSlash : 47 ∉ text.bytes

def slash : CStr := .ofBuf [47]

/-- The path of an entry. -/
def join (dirname name : CStr) : CStr := dirname ++ slash ++ name

/-- `.` or `..`. -/
def IsDot (name : CStr) : Prop := name.bytes = [46] ∨ name.bytes = [46, 46]

instance (name : CStr) : Decidable (IsDot name) := inferInstanceAs (Decidable (_ ∨ _))

/-- What `stat` and `opendir` find at a path; both may fail. -/
structure Fs where
  stat : CStr → Option Stat
  opendir : CStr → Option (List Name)
  dots : ∀ dirname name st, IsDot name → stat (join dirname name) = some st → st.type = .dir

/-- A descriptor: `isatty` and `fstat`. -/
structure Fd where
  isatty : Bool
  fstat : Option Stat

def devName : CStr := .ofBuf (ascii "/dev")

def devFd : CStr := .ofBuf (ascii "/dev/fd")

def devStdin : CStr := .ofBuf (ascii "/dev/stdin")

def devStdout : CStr := .ofBuf (ascii "/dev/stdout")

def devStderr : CStr := .ofBuf (ascii "/dev/stderr")

/-! ### The memory -/

/-- `struct devdir`. -/
structure Devdir where
  d_next : Option ℕ
  d_name : CStr

/-- `mem` has the nodes that are not free, all of them below `brk`. -/
structure State where
  head : Option ℕ
  tail : Option ℕ
  mem : ℕ → Option Devdir
  brk : ℕ
  pathname : List UInt8

/-- A write behind the end of `pathname`, a null pointer or one to a node that is free, or no fuel. -/
inductive Stuck where
  | overflow
  | pointer
  | fuel
  deriving DecidableEq

namespace State

/-- The string in `pathname`. -/
def text (s : State) : CStr := .ofBuf s.pathname

/-- `strcpy(pathname + off, str)`. -/
def strcpyAt (s : State) (off : ℕ) (str : CStr) : Except Stuck State :=
  if off + str.length < s.pathname.length then
    .ok { s with pathname := s.pathname.take off ++ CStr.strcpy (s.pathname.drop off) str }
  else .error .overflow

/-- `strncpy(pathname + off, str, _POSIX_PATH_MAX - off)`, whose last argument is a `size_t`. -/
def strncpyAt (s : State) (off : ℕ) (str : CStr) : Except Stuck State :=
  if off ≤ POSIX_PATH_MAX ∧ POSIX_PATH_MAX ≤ s.pathname.length then
    .ok { s with
      pathname := s.pathname.take off ++ CStr.strncpy (s.pathname.drop off) str (POSIX_PATH_MAX - off) }
  else .error .overflow

/-- `*a`. -/
def deref (s : State) (a : ℕ) : Except Stuck Devdir :=
  match s.mem a with
  | none => .error .pointer
  | some ddp => .ok ddp

end State

/-! ### The functions -/

/-- The first test in `add`. -/
def EndsInDot (dirname : CStr) : Prop :=
  let len := dirname.length
  dirname.bytes.getD (len - 1) 0 = 46 ∧
    (dirname.bytes.getD (len - 2) 0 = 47 ∨
      (dirname.bytes.getD (len - 2) 0 = 46 ∧ dirname.bytes.getD (len - 3) 0 = 47))

instance (dirname : CStr) : Decidable (EndsInDot dirname) := inferInstanceAs (Decidable (_ ∧ _))

def add (s : State) (dirname : CStr) : Except Stuck State := do
  if EndsInDot dirname then return s
  if dirname = devFd then return s
  let ddp := s.brk
  let s := { s with mem := Function.update s.mem ddp (some ⟨none, dirname⟩), brk := s.brk + 1 }
  match s.tail with
  | none => return { s with head := some ddp, tail := some ddp }
  | some last =>
    let d ← s.deref last
    return { s with mem := Function.update s.mem last (some { d with d_next := some ddp }), tail := some ddp }

/-- The paths that `searchdir` passes over. -/
def IsStdio (path : CStr) : Prop := path = devStdin ∨ path = devStdout ∨ path = devStderr

instance (path : CStr) : Decidable (IsStdio path) := inferInstanceAs (Decidable (_ ∨ _ ∨ _))

/-- The loop over the entries of a directory. -/
def readLoop (fs : Fs) (fdstat : Stat) (devlen : ℕ) : List Name → State → Except Stuck (State × Option CStr)
  | [], s => return (s, none)
  | dirp :: rest, s => do
    let s ← s.strncpyAt devlen dirp.text
    if IsStdio s.text then readLoop fs fdstat devlen rest s
    else
      match fs.stat s.text with
      | none => readLoop fs fdstat devlen rest s
      | some devstat =>
        if devstat.type = .dir then
          let s ← add s s.text
          readLoop fs fdstat devlen rest s
        else if devstat.ino = fdstat.ino ∧ devstat.dev = fdstat.dev then return (s, some s.text)
        else readLoop fs fdstat devlen rest s

def searchdir (fs : Fs) (fdstat : Stat) (s : State) (dirname : CStr) : Except Stuck (State × Option CStr) := do
  let s ← s.strcpyAt 0 dirname
  match fs.opendir dirname with
  | none => return (s, none)
  | some entries =>
    -- strcat
    let s ← s.strcpyAt s.text.length slash
    readLoop fs fdstat s.text.length entries s

/-- The loop of `my_ttyname` over the list. -/
def walk (fs : Fs) (fdstat : Stat) : ℕ → State → Option ℕ → Except Stuck (State × Option CStr)
  | 0, _, _ => .error .fuel
  | _ + 1, s, none => return (s, none)
  | fuel + 1, s, some ddp => do
    let d ← s.deref ddp
    let (s, rval) ← searchdir fs fdstat s d.d_name
    match rval with
    | some path => return (s, some path)
    | none =>
      let d ← s.deref ddp
      walk fs fdstat fuel s d.d_next

def freeLoop : ℕ → State → Option ℕ → Except Stuck State
  | 0, _, _ => .error .fuel
  | _ + 1, s, none => return s
  | fuel + 1, s, some ddp => do
    let d ← s.deref ddp
    freeLoop fuel { s with mem := Function.update s.mem ddp none } d.d_next

def cleanup (fuel : ℕ) (s : State) : Except Stuck State := do
  let s ← freeLoop fuel s s.head
  return { s with head := none, tail := none }

def myTtyname (fs : Fs) (fd : Fd) (fuel : ℕ) (s : State) : Except Stuck (State × Option CStr) := do
  if fd.isatty = false then return (s, none)
  match fd.fstat with
  | none => return (s, none)
  | some fdstat =>
    if fdstat.type ≠ .chr then return (s, none)
    let (s, rval) ← searchdir fs fdstat s devName
    let (s, rval) ← match rval with
      | some path => pure (s, some path)
      | none => walk fs fdstat fuel s s.head
    let s ← cleanup fuel s
    return (s, rval)

/-! ### What it should find -/

/-- The directories that are searched: not `/dev/fd`, and not the standard streams either. -/
def Searched (path : CStr) : Prop := path ≠ devFd ∧ ¬ IsStdio path

instance : DecidablePred Searched := fun _ => inferInstanceAs (Decidable (_ ∧ _))

/-- The paths of some entries, without `.` and `..`. -/
def pathsOf (dirname : CStr) (names : List Name) : List CStr :=
  (names.filter fun e => ¬ IsDot e.text).map fun e => join dirname e.text

namespace Fs
variable (fs : Fs)

def paths (dirname : CStr) : List CStr := pathsOf dirname ((fs.opendir dirname).getD [])

def IsDir (path : CStr) : Prop := (fs.stat path).elim False fun st => st.type = .dir

instance (path : CStr) : Decidable (fs.IsDir path) :=
  match h : fs.stat path with
  | none => isFalse (by simp [IsDir, h])
  | some st => decidable_of_iff (st.type = .dir) (by simp [IsDir, h])

/-- The file is the terminal. -/
def Matches (fdstat : Stat) (path : CStr) : Prop :=
  (fs.stat path).elim False fun st => st.type ≠ .dir ∧ st.ino = fdstat.ino ∧ st.dev = fdstat.dev

instance (fdstat : Stat) (path : CStr) : Decidable (fs.Matches fdstat path) :=
  match h : fs.stat path with
  | none => isFalse (by simp [Matches, h])
  | some st => decidable_of_iff (st.type ≠ .dir ∧ st.ino = fdstat.ino ∧ st.dev = fdstat.dev) (by simp [Matches, h])

/-- A directory that one comes to from `/dev`, with a condition on those on the way. -/
inductive Dir (ok : CStr → Prop) : CStr → Prop
  | dev : Dir ok devName
  | sub {dirname path : CStr} (hdir : Dir ok dirname) (hmem : path ∈ fs.paths dirname)
    (hpath : fs.IsDir path) (hok : ok path) : Dir ok path

/-- An entry of such a directory, but not one of the standard streams. -/
def Entry (ok : CStr → Prop) (path : CStr) : Prop :=
  ∃ dirname, fs.Dir ok dirname ∧ path ∈ fs.paths dirname ∧ ¬ IsStdio path

/-- Those of some paths that are searched later. -/
def dirsIn (paths : List CStr) : List CStr := paths.filter fun path => fs.IsDir path ∧ Searched path

/-- The first of some paths that is the terminal. -/
def findIn (fdstat : Stat) (paths : List CStr) : Option CStr :=
  paths.find? fun path => ¬ IsStdio path ∧ fs.Matches fdstat path

def subdirs (dirname : CStr) : List CStr := fs.dirsIn (fs.paths dirname)

def found (fdstat : Stat) (dirname : CStr) : Option CStr := fs.findIn fdstat (fs.paths dirname)

/-- Every path is short enough: a directory has room for the slash and for `.`, an entry is not cut off. -/
structure Fits : Prop where
  dir : ∀ dirname, fs.Dir Searched dirname → dirname.length + 1 < POSIX_PATH_MAX
  entry : ∀ dirname path, fs.Dir Searched dirname → path ∈ fs.paths dirname →
    path.length < POSIX_PATH_MAX

end Fs

/-- No list and no node, and a null byte at the end of `pathname`. -/
structure Ready (s : State) : Prop where
  head : s.head = none
  tail : s.tail = none
  mem : ∀ a, s.mem a = none
  length : s.pathname.length = POSIX_PATH_MAX + 1
  last : s.pathname[POSIX_PATH_MAX]? = some 0

end Apue.Ttyname

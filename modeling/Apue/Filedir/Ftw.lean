import Apue.Lib.CString

/-!
# A walk through a file hierarchy (filedir/ftw8.c)

`fullpath` is memory that all levels of the recursion share: each puts a name behind the directory of its caller and
cuts the path back afterwards, and makes the memory larger where a name might not fit. A write behind its end, or a
string without a null byte, is `none`.

`Right` is what the walk is for: each file at or below the path it starts from is looked at once, but a directory that
cannot be read is looked at once more, with a slash behind its path.
-/

namespace Apue.Ftw

def NAME_MAX : ℕ := 255
def PATH_MAX : ℕ := 4096
def S_IFMT : ℕ := 0o170000
def S_IFDIR : ℕ := 0o040000
def SLASH : UInt8 := 47

def S_ISDIR (st_mode : ℕ) : Bool := st_mode &&& S_IFMT == S_IFDIR

def slash : CStr := .ofBuf [SLASH]
def dot : CStr := .ofBuf (ascii ".")
def dotdot : CStr := .ofBuf (ascii "..")

/-- What `lstat` and `opendir` find at a path; both may fail. Nobody changes the files during the walk. -/
structure Fs where
  lstat : CStr → Option ℕ
  opendir : CStr → Option (List CStr)
  /-- `ENAMETOOLONG`. -/
  long : ∀ path, PATH_MAX ≤ path.length → lstat path = none
  names : ∀ path entries, opendir path = some entries → ∀ name ∈ entries, name.length ≤ NAME_MAX ∧ SLASH ∉ name.bytes
  nodup : ∀ path entries, opendir path = some entries → entries.Nodup

inductive FileType where
  | FTW_F
  | FTW_D
  | FTW_DNR
  | FTW_NS
  deriving DecidableEq

/-- The arguments of the function that is called. After an error of `lstat` there is no mode. -/
structure Call where
  pathname : CStr
  st_mode : Option ℕ
  type : FileType
  deriving DecidableEq

/-! ### The memory -/

def put (buf : List UInt8) (i : ℕ) (c : UInt8) : Option (List UInt8) :=
  if i < buf.length then some (buf.set i c) else none

/-- `strcpy(&buf[n], s)`. -/
def strcpyAt (buf : List UInt8) (n : ℕ) (s : CStr) : Option (List UInt8) :=
  if n + s.length < buf.length then some (buf.take n ++ CStr.strcpy (buf.drop n) s) else none

def string (buf : List UInt8) : Option CStr := if 0 ∈ buf then some (.ofBuf buf) else none

/-- `heap` is what new memory happens to hold. -/
def realloc (heap : ℕ → UInt8) (buf : List UInt8) (size : ℕ) : List UInt8 :=
  buf.take size ++ (List.range (size - buf.length)).map heap

def pathAlloc (heap : ℕ → UInt8) : List UInt8 := (List.range PATH_MAX).map heap

/-! ### The walk -/

variable {σ : Type}

/-- The loop over the entries of a directory, whose path has `n` bytes. -/
def readdirs (dopath : List UInt8 → σ → Option (List UInt8 × σ × ℤ)) (n : ℕ) :
    List CStr → List UInt8 → σ → Option (List UInt8 × σ × ℤ)
  | [], fullpath, a => some (fullpath, a, 0)
  | d_name :: entries, fullpath, a =>
    if d_name = dot ∨ d_name = dotdot then readdirs dopath n entries fullpath a
    else do
      let fullpath ← strcpyAt fullpath n d_name
      let (fullpath, a, ret) ← dopath fullpath a
      if ret ≠ 0 then some (fullpath, a, ret) else readdirs dopath n entries fullpath a

/-- `dopath`, at most `fuel` levels deep. -/
def dopath (fs : Fs) (heap : ℕ → UInt8) (func : σ → Call → σ × ℤ) :
    ℕ → List UInt8 → σ → Option (List UInt8 × σ × ℤ)
  | 0, _, _ => none
  | fuel + 1, fullpath, a => do
    let path ← string fullpath
    match fs.lstat path with
    | none => some (fullpath, func a ⟨path, none, .FTW_NS⟩)
    | some st_mode =>
      if S_ISDIR st_mode = false then some (fullpath, func a ⟨path, some st_mode, .FTW_F⟩)
      else
        let (a, ret) := func a ⟨path, some st_mode, .FTW_D⟩
        if ret ≠ 0 then some (fullpath, a, ret)
        else
          let n := path.length
          let fullpath :=
            if n + NAME_MAX + 2 > fullpath.length then realloc heap fullpath (fullpath.length * 2) else fullpath
          let fullpath ← put fullpath n SLASH
          let fullpath ← put fullpath (n + 1) 0
          let dirname ← string fullpath
          match fs.opendir dirname with
          | none => some (fullpath, func a ⟨dirname, some st_mode, .FTW_DNR⟩)
          | some entries =>
            let (fullpath, a, ret) ← readdirs (dopath fs heap func fuel) (n + 1) entries fullpath a
            let fullpath ← put fullpath n 0
            some (fullpath, a, ret)

/-- Every level makes the path longer, and `lstat` fails when it is too long. -/
def DEPTH : ℕ := PATH_MAX + 2

def myftw (fs : Fs) (heap : ℕ → UInt8) (func : σ → Call → σ × ℤ) (pathname : CStr) (a : σ) :
    Option (List UInt8 × σ × ℤ) := do
  let fullpath := pathAlloc heap
  let fullpath :=
    if fullpath.length ≤ pathname.length then realloc heap fullpath (pathname.length * 2) else fullpath
  let fullpath ← strcpyAt fullpath 0 pathname
  dopath fs heap func DEPTH fullpath a

/-! ### Counting -/

def S_IFREG : ℕ := 0o100000
def S_IFBLK : ℕ := 0o060000
def S_IFCHR : ℕ := 0o020000
def S_IFIFO : ℕ := 0o010000
def S_IFLNK : ℕ := 0o120000
def S_IFSOCK : ℕ := 0o140000

/-- `dumped` says that `err_dump` has ended the program. -/
structure Counts where
  nreg : ℕ
  ndir : ℕ
  nblk : ℕ
  nchr : ℕ
  nfifo : ℕ
  nslink : ℕ
  nsock : ℕ
  dumped : Bool
  deriving DecidableEq

def myfunc (n : Counts) (c : Call) : Counts × ℤ :=
  match c.type with
  | .FTW_F =>
    let fmt := c.st_mode.getD 0 &&& S_IFMT
    if fmt = S_IFREG then ({ n with nreg := n.nreg + 1 }, 0)
    else if fmt = S_IFBLK then ({ n with nblk := n.nblk + 1 }, 0)
    else if fmt = S_IFCHR then ({ n with nchr := n.nchr + 1 }, 0)
    else if fmt = S_IFIFO then ({ n with nfifo := n.nfifo + 1 }, 0)
    else if fmt = S_IFLNK then ({ n with nslink := n.nslink + 1 }, 0)
    else if fmt = S_IFSOCK then ({ n with nsock := n.nsock + 1 }, 0)
    else if fmt = S_IFDIR then ({ n with dumped := true }, 1)
    else (n, 0)
  | .FTW_D => ({ n with ndir := n.ndir + 1 }, 0)
  | .FTW_DNR => (n, 0)
  | .FTW_NS => (n, 0)

/-- What `main` has counted when it prints. -/
def main (fs : Fs) (heap : ℕ → UInt8) (pathname : CStr) : Option (Counts × ℤ) := do
  let (_, n, ret) ← myftw fs heap myfunc pathname ⟨0, 0, 0, 0, 0, 0, 0, false⟩
  some (n, ret)

/-! ### What it is for -/

/-- The calls one after the other, until one returns something else than 0. -/
def visit (func : σ → Call → σ × ℤ) : List Call → σ → σ × ℤ
  | [], a => (a, 0)
  | c :: calls, a => if (func a c).2 ≠ 0 then func a c else visit func calls (func a c).1

/-- The files at and below a path, each directory in front of what is in it. -/
def calls (fs : Fs) : ℕ → CStr → List Call
  | 0, _ => []
  | fuel + 1, path =>
    match fs.lstat path with
    | none => [⟨path, none, .FTW_NS⟩]
    | some st_mode =>
      if S_ISDIR st_mode = false then [⟨path, some st_mode, .FTW_F⟩]
      else
        ⟨path, some st_mode, .FTW_D⟩ ::
          match fs.opendir (path ++ slash) with
          | none => [⟨path ++ slash, some st_mode, .FTW_DNR⟩]
          | some entries =>
            (entries.filter fun name => ¬(name = dot ∨ name = dotdot)).flatMap fun name =>
              calls fs fuel (path ++ slash ++ name)

def walk (fs : Fs) (pathname : CStr) : List Call := calls fs DEPTH pathname

/-- `child` is an entry of the directory `path`. -/
def Entry (fs : Fs) (path child : CStr) : Prop :=
  ∃ st_mode entries name, fs.lstat path = some st_mode ∧ S_ISDIR st_mode = true ∧
    fs.opendir (path ++ slash) = some entries ∧ name ∈ entries ∧ ¬(name = dot ∨ name = dotdot) ∧
    child = path ++ slash ++ name

/-- The file at `path` is `root` or below it. -/
inductive Below (fs : Fs) (root : CStr) : CStr → Prop
  | root : Below fs root root
  | entry {path child : CStr} : Below fs root path → Entry fs path child → Below fs root child

/-- The call has the right type and mode. -/
def Call.Fits (fs : Fs) (c : Call) : Prop :=
  match c.type with
  | .FTW_NS => fs.lstat c.pathname = none ∧ c.st_mode = none
  | .FTW_F => ∃ st_mode, fs.lstat c.pathname = some st_mode ∧ S_ISDIR st_mode = false ∧ c.st_mode = some st_mode
  | .FTW_D => ∃ st_mode, fs.lstat c.pathname = some st_mode ∧ S_ISDIR st_mode = true ∧ c.st_mode = some st_mode
  | .FTW_DNR => ∃ path st_mode, fs.lstat path = some st_mode ∧ S_ISDIR st_mode = true ∧ c.st_mode = some st_mode ∧
      c.pathname = path ++ slash ∧ fs.opendir c.pathname = none

/-- The calls that are about a file, without those that only tell that a directory cannot be read. -/
def files (calls : List Call) : List CStr := (calls.filter fun c => c.type ≠ .FTW_DNR).map Call.pathname

/-- The call that follows when a directory cannot be read. -/
def unread (fs : Fs) (c : Call) : List Call :=
  if c.type = .FTW_D ∧ (fs.opendir (c.pathname ++ slash)).isNone then [⟨c.pathname ++ slash, c.st_mode, .FTW_DNR⟩] else []

/-- How many of the files have this format. -/
def tally (fs : Fs) (fmt : ℕ) (files : List CStr) : ℕ :=
  files.countP fun path => (fs.lstat path).map (· &&& S_IFMT) = some fmt

def counts (fs : Fs) (files : List CStr) : Counts where
  nreg := tally fs S_IFREG files
  ndir := tally fs S_IFDIR files
  nblk := tally fs S_IFBLK files
  nchr := tally fs S_IFCHR files
  nfifo := tally fs S_IFIFO files
  nslink := tally fs S_IFLNK files
  nsock := tally fs S_IFSOCK files
  dumped := false

/-- The path `p` is `path` or starts with it and a slash. -/
def Behind (path p : CStr) : Prop := p = path ∨ (path ++ slash).bytes <+: p.bytes

structure Right (fs : Fs) (root : CStr) (calls : List Call) : Prop where
  fits : ∀ c ∈ calls, c.Fits fs
  once : (files calls).Nodup
  /-- A directory comes before what is in it. -/
  order : (files calls).Pairwise fun p q => ¬Behind q p
  all : ∀ path, path ∈ files calls ↔ Below fs root path
  unread : calls = (calls.filter fun c => c.type ≠ .FTW_DNR).flatMap fun c => c :: unread fs c

end Apue.Ftw

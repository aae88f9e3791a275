import Apue.Lib.File
import Apue.Lib.Transition
import Mathlib.Logic.Function.Basic
import Mathlib.Data.Fintype.Basic

/-!
# The two rot13 filters (Chapter-14/14-20.c and 14-21.c)

`syncMain` is the synchronous filter: read a block, translate it, write it, until a read returns
nothing. The asynchronous one keeps up to `NBUF` operations going; it is a state machine with two
parties. The program (`Act.main`) visits one buffer of the scan, or tests `numop` after the scan, or
comes back from `aio_suspend`. The kernel (`Act.complete i`) finishes the operation on `bufs[i].aiocb`
at any moment: a read delivers what the file has there, up to `aio_nbytes`, a write writes all its
bytes. Until then `aio_error` says `EINPROGRESS`.

The files are open and different, and `aio_read`, `aio_write` and `aio_suspend` themselves succeed.
`size` is the length of the input file.
-/

namespace Apue.Rot13
open File Transition

def BSZ : ℕ := 4096

def NBUF : ℕ := 8

/-- `translate` of 14-21.c, which leaves the newline alone. -/
def translate (c : UInt8) : UInt8 :=
  if c ≥ 110 then c - 13       -- 'n'
  else if c ≥ 97 then c + 13   -- 'a'
  else if c ≥ 78 then c - 13   -- 'N'
  else if c = 10 then c        -- '\n'
  else c + 13

/-! ### The synchronous filter -/

/-- The loop of 14-20.c with `tr` for its `translate`: `rest` is still to be read. -/
def syncLoop (tr : UInt8 → UInt8) (rest out : List UInt8) : List UInt8 :=
  if 0 < (pread rest 0 BSZ).length then
    syncLoop tr (rest.drop (pread rest 0 BSZ).length) (out ++ (pread rest 0 BSZ).map tr)
  else out
termination_by rest.length
decreasing_by
  have hlen := length_pread rest 0 BSZ
  simp only [List.length_drop]
  omega

/-- The output file of 14-20.c. -/
def syncMain (tr : UInt8 → UInt8) (input : List UInt8) : List UInt8 := syncLoop tr input []

/-! ### The asynchronous filter -/

inductive Rwop where
  | UNUSED
  | READ_PENDING
  | WRITE_PENDING
  deriving DecidableEq

inductive Fd where
  | ifd
  | ofd
  deriving DecidableEq

structure Aiocb where
  aioFildes : Fd
  aioOffset : ℕ
  aioNbytes : ℕ

/-- `struct buf`; `aio_buf` always points to `data`. -/
structure Buf where
  op : Rwop
  last : Bool
  aiocb : Aiocb
  data : List UInt8

/-- What the kernel knows about an aiocb: no operation, one going on, or one finished with `n` bytes
that `aio_return` has not fetched yet. -/
inductive Aio where
  | none
  | reading
  | writing
  | done (n : ℕ)
  deriving DecidableEq

inductive Exit where
  | shortRead
  | shortWrite
  | aioError
  deriving DecidableEq

/-- Inside the scan at buffer `i`, after it, in `aio_suspend`, out of the loop, or gone. -/
inductive Pc where
  | scan (i : Fin NBUF)
  | check
  | suspend
  | left
  | exit (e : Exit)
  deriving DecidableEq

structure State where
  bufs : Fin NBUF → Buf
  aio : Fin NBUF → Aio
  aiolist : Fin NBUF → Option (Fin NBUF)
  numop : ℤ
  off : ℕ
  out : List UInt8
  pc : Pc

namespace State

/-- The program point after buffer `i` of the scan. -/
def after (i : Fin NBUF) : Pc := if h : i.val + 1 < NBUF then .scan ⟨i.val + 1, h⟩ else .check

/-- `case UNUSED` with data left to read. -/
def startRead (s : State) (size : ℕ) (i : Fin NBUF) : State :=
  { s with
    bufs := Function.update s.bufs i
      { s.bufs i with
        op := .READ_PENDING
        last := (s.bufs i).last || decide (size ≤ s.off + BSZ)
        aiocb := ⟨.ifd, s.off, BSZ⟩ }
    aio := Function.update s.aio i .reading
    aiolist := Function.update s.aiolist i (some i)
    numop := s.numop + 1
    off := s.off + BSZ
    pc := after i }

/-- `case READ_PENDING` with `n` bytes read. -/
def startWrite (s : State) (i : Fin NBUF) (n : ℕ) : State :=
  { s with
    bufs := Function.update s.bufs i
      { s.bufs i with
        op := .WRITE_PENDING
        data := ((s.bufs i).data.take n).map translate ++ (s.bufs i).data.drop n
        aiocb := ⟨.ofd, (s.bufs i).aiocb.aioOffset, n⟩ }
    aio := Function.update s.aio i .writing
    pc := after i }

/-- `case WRITE_PENDING` with everything written. -/
def release (s : State) (i : Fin NBUF) : State :=
  { s with
    bufs := Function.update s.bufs i { s.bufs i with op := .UNUSED }
    aio := Function.update s.aio i .none
    aiolist := Function.update s.aiolist i none
    numop := s.numop - 1
    pc := after i }

/-- One buffer of the scan. -/
def scan (s : State) (size : ℕ) (i : Fin NBUF) : State :=
  match (s.bufs i).op, s.aio i with
  | .UNUSED, _ => if s.off < size then s.startRead size i else { s with pc := after i }
  | _, .reading | _, .writing => { s with pc := after i }
  | _, .none => { s with pc := .exit .aioError }
  | .READ_PENDING, .done n =>
    if n ≠ BSZ ∧ (s.bufs i).last = false then { s with pc := .exit .shortRead }
    else s.startWrite i n
  | .WRITE_PENDING, .done n =>
    if n ≠ (s.bufs i).aiocb.aioNbytes then { s with pc := .exit .shortWrite } else s.release i

/-- `aio_suspend` returns when an operation on the list is no longer in progress. -/
def Ready (s : State) : Prop :=
  ∃ i k, s.aiolist i = some k ∧ s.aio k ≠ .reading ∧ s.aio k ≠ .writing

instance (s : State) : Decidable s.Ready := inferInstanceAs (Decidable (Exists _))

/-- The kernel finishes the operation on `bufs[i].aiocb`. -/
def complete (s : State) (input : List UInt8) (i : Fin NBUF) : Option State :=
  let b := s.bufs i
  match s.aio i with
  | .reading =>
    let file := match b.aiocb.aioFildes with | .ifd => input | .ofd => s.out
    let bytes := pread file b.aiocb.aioOffset b.aiocb.aioNbytes
    some { s with
      bufs := Function.update s.bufs i { b with data := bytes ++ b.data.drop bytes.length }
      aio := Function.update s.aio i (.done bytes.length) }
  | .writing =>
    match b.aiocb.aioFildes with
    | .ifd => none
    | .ofd =>
      some { s with
        out := pwrite 0 s.out b.aiocb.aioOffset (b.data.take b.aiocb.aioNbytes)
        aio := Function.update s.aio i (.done b.aiocb.aioNbytes) }
  | .none | .done _ => none

end State

/-- The program takes its next step, or the kernel finishes an operation. -/
inductive Act where
  | main
  | complete (i : Fin NBUF)

def step (input : List UInt8) (s : State) : Act → Option State
  | .main =>
    match s.pc with
    | .scan i => some (s.scan input.length i)
    | .check =>
      if s.numop = 0 then
        some { s with pc := if s.off ≥ input.length then .left else .scan ⟨0, by decide⟩ }
      else some { s with pc := .suspend }
    | .suspend => if s.Ready then some { s with pc := .scan ⟨0, by decide⟩ } else none
    | .left | .exit _ => none
  | .complete i => s.complete input i

/-- All buffers free and zeroed, the output file truncated. -/
def start : State where
  bufs := fun _ => ⟨.UNUSED, false, ⟨.ifd, 0, 0⟩, List.replicate BSZ 0⟩
  aio := fun _ => .none
  aiolist := fun _ => none
  numop := 0
  off := 0
  out := []
  pc := .scan ⟨0, by decide⟩

end Apue.Rot13

import Apue.Db.Format
import Apue.Lib.File

/-!
# A database handle and how it reads and writes (db/db.c)

`none` stands for `err_dump` and `err_quit`, which end the process. The system calls themselves do not fail here,
and one process has the database to itself, so that the locks never wait.

`_db_dodelete` hands `idxbuf` itself to `_db_writeidx`, whose `sprintf` then reads the key from the buffer that it
prints into. C leaves undefined what comes out, so what `_db_writeidx` prints is a parameter: it is `text` wherever
the key is not in `idxbuf`.
-/

namespace Apue.Db
open Stdio

structure DB where
  /-- The two files. -/
  idx : List UInt8
  dat : List UInt8
  /-- The file offset of `idxfd`. `datfd` is read and written behind an `lseek` only. -/
  pos : ℕ
  /-- The strings at the start of the buffers. -/
  idxbuf : CStr
  datbuf : CStr
  idxoff : ℕ
  idxlen : ℕ
  datoff : ℕ
  datlen : ℕ
  ptrval : ℤ
  ptroff : ℤ
  chainoff : ℕ
  deriving DecidableEq

inductive Whence
  | SET
  | END
  deriving DecidableEq

/-- What `lseek` returns, `offset` not being negative. -/
def lseek (file : List UInt8) (offset : ℕ) : Whence → ℕ
  | .SET => offset
  | .END => file.length + offset

def _db_readptr (db : DB) (offset : ℤ) : Option (ℤ × DB) :=
  if offset < 0 then none
  else
    let asciiptr := File.pread db.idx offset.toNat PTR_SZ
    if asciiptr.length = PTR_SZ then some (atol asciiptr, { db with pos := offset.toNat + PTR_SZ })
    else none

/-- From the current offset on if `offset` is 0, and -1 at the end of the file then. -/
def _db_readidx (db : DB) (offset : ℤ) : Option (ℤ × DB) :=
  if offset < 0 then none
  else
    let idxoff := if offset = 0 then db.pos else offset.toNat
    let ascii := File.pread db.idx idxoff (PTR_SZ + IDXLEN_SZ)
    if ascii.length = PTR_SZ + IDXLEN_SZ then
      let ptrval := atol (ascii.take PTR_SZ)
      let len := atol (ascii.drop PTR_SZ)
      -- `idxlen` is unsigned: what is negative is far too large
      if (IDXLEN_MIN : ℤ) ≤ len ∧ len ≤ IDXLEN_MAX then
        let buf := File.pread db.idx (idxoff + (PTR_SZ + IDXLEN_SZ)) len.toNat
        if buf.length = len.toNat then
          match parse buf with
          | none => none
          | some (key, datoff, datlen) =>
            some (ptrval, { db with pos := idxoff + (PTR_SZ + IDXLEN_SZ) + len.toNat, idxbuf := key,
                                    idxoff := idxoff, idxlen := len.toNat, datoff := datoff, datlen := datlen,
                                    ptrval := ptrval })
        else none
      else none
    else if ascii = [] ∧ offset = 0 then some (-1, { db with idxoff := idxoff })
    else none

def _db_readdat (db : DB) : Option (CStr × DB) :=
  let buf := File.pread db.dat db.datoff db.datlen
  if buf.length = db.datlen ∧ buf.getLast? = some NEWLINE then
    some (CStr.ofBuf buf.dropLast, { db with datbuf := CStr.ofBuf buf.dropLast })
  else none

def _db_writedat (db : DB) (data : CStr) (offset : ℕ) (whence : Whence) : DB :=
  let datoff := lseek db.dat offset whence
  { db with datoff := datoff, datlen := data.length + 1,
            dat := File.pwrite 0 db.dat datoff (data.bytes ++ [NEWLINE]) }

/-- An index record. -/
def record (ptrval : ℕ) (line : List UInt8) : List UInt8 :=
  field PTR_SZ ptrval ++ field IDXLEN_SZ line.length ++ line

def _db_writeidx (print : CStr → ℕ → ℕ → List UInt8) (db : DB) (key : CStr) (offset : ℕ) (whence : Whence)
    (ptrval : ℤ) : Option DB :=
  if ptrval < 0 ∨ (PTR_MAX : ℤ) < ptrval then none
  else
    let line := print key db.datoff db.datlen
    if line.length < IDXLEN_MIN ∨ IDXLEN_MAX < line.length then none
    else
      let idxoff := lseek db.idx offset whence
      let bytes := record ptrval.toNat line
      some { db with ptrval := ptrval, idxbuf := CStr.ofBuf line, idxoff := idxoff, pos := idxoff + bytes.length,
                     idx := File.pwrite 0 db.idx idxoff bytes }

def _db_writeptr (db : DB) (offset ptrval : ℤ) : Option DB :=
  if ptrval < 0 ∨ (PTR_MAX : ℤ) < ptrval then none
  else if offset < 0 then none
  else
    some { db with pos := offset.toNat + PTR_SZ,
                   idx := File.pwrite 0 db.idx offset.toNat (field PTR_SZ ptrval.toNat) }

end Apue.Db

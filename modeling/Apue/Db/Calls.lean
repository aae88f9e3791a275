import Apue.Db.Handle

/-!
# The calls (db/db.c)

`_db_find_and_lock`, `_db_findfree` and `db_nextrec` walk the file in loops of at most one round for each byte of it:
a chain that has not ended by then goes round in a circle. The counters, which nothing reads, are left out.
-/

namespace Apue.Db

/-- The loop of `_db_find_and_lock`: 0 if the chain has ended. -/
def find_loop (key : CStr) : ℕ → ℤ → DB → Option (ℤ × DB)
  | 0, _, _ => none
  | n + 1, offset, db =>
    if offset = 0 then some (0, db)
    else do
      let (nextoffset, db) ← _db_readidx db offset
      if db.idxbuf = key then some (offset, db)
      else find_loop key n nextoffset { db with ptroff := offset }

def _db_find_and_lock (db : DB) (key : CStr) : Option (ℤ × DB) := do
  let chainoff := (_db_hash key).val * PTR_SZ + HASH_OFF
  let db := { db with chainoff := chainoff, ptroff := chainoff }
  let (offset, db) ← _db_readptr db db.ptroff
  let (offset, db) ← find_loop key (db.idx.length + 1) offset db
  some (if offset = 0 then -1 else 0, db)

def db_fetch (db : DB) (key : CStr) : Option (Option CStr × DB) := do
  let (rc, db) ← _db_find_and_lock db key
  if rc < 0 then some (none, db)
  else do
    let (ptr, db) ← _db_readdat db
    some (some ptr, db)

/-- `n` blanks. -/
def blanks (n : ℕ) : CStr := ⟨List.replicate n SPACE, fun h => absurd (List.eq_of_mem_replicate h) (by decide)⟩

section onto
variable (onto : CStr → ℕ → ℕ → List UInt8)

/-- `onto` is what `sprintf` makes of a key in `idxbuf`. -/
def _db_dodelete (db : DB) : Option DB := do
  let db := { db with datbuf := blanks (db.datlen - 1), idxbuf := blanks db.idxbuf.length }
  let db := _db_writedat db db.datbuf db.datoff .SET
  let (freeptr, db) ← _db_readptr db FREE_OFF
  let saveptr := db.ptrval
  let db ← _db_writeidx onto db db.idxbuf db.idxoff .SET freeptr
  let db ← _db_writeptr db FREE_OFF db.idxoff
  _db_writeptr db db.ptroff saveptr

def db_delete (db : DB) (key : CStr) : Option (ℤ × DB) := do
  let (rc, db) ← _db_find_and_lock db key
  if rc = 0 then do
    let db ← _db_dodelete onto db
    some (0, db)
  else some (-1, db)

end onto

/-- The loop of `_db_findfree`, and `saveoffset` where it ends. -/
def findfree_loop (keylen datlen : ℕ) : ℕ → ℤ → ℤ → DB → Option (ℤ × ℤ × DB)
  | 0, _, _, _ => none
  | n + 1, saveoffset, offset, db =>
    if offset = 0 then some (0, saveoffset, db)
    else do
      let (nextoffset, db) ← _db_readidx db offset
      if db.idxbuf.length = keylen ∧ db.datlen = datlen then some (offset, saveoffset, db)
      else findfree_loop keylen datlen n offset nextoffset db

def _db_findfree (db : DB) (keylen datlen : ℕ) : Option (ℤ × DB) := do
  let (offset, db) ← _db_readptr db FREE_OFF
  let (offset, saveoffset, db) ← findfree_loop keylen datlen (db.idx.length + 1) FREE_OFF offset db
  if offset = 0 then some (-1, db)
  else do
    let db ← _db_writeptr db saveoffset db.ptrval
    some (0, db)

/-! The flags of `db_store`: insert a new record only, replace an existing one, either. -/

def DB_INSERT : ℤ := 1
def DB_REPLACE : ℤ := 2
def DB_STORE : ℤ := 3

/-- `db->idxoff` is set by `_db_writeidx`; the record goes to the front of the hash chain. -/
def append (db : DB) (key data : CStr) (ptrval : ℤ) : Option DB := do
  let db := _db_writedat db data 0 .END
  let db ← _db_writeidx text db key 0 .END ptrval
  _db_writeptr db db.chainoff db.idxoff

def db_store (onto : CStr → ℕ → ℕ → List UInt8) (db : DB) (key data : CStr) (flag : ℤ) : Option (ℤ × DB) :=
  let datlen := data.length + 1
  if flag ≠ DB_INSERT ∧ flag ≠ DB_REPLACE ∧ flag ≠ DB_STORE then some (-1, db)
  else if datlen < DATLEN_MIN ∨ DATLEN_MAX < datlen then none
  else do
    let (rc, db) ← _db_find_and_lock db key
    if rc < 0 then
      if flag = DB_REPLACE then some (-1, db)
      else do
        let (ptrval, db) ← _db_readptr db db.chainoff
        let (rc, db) ← _db_findfree db key.length datlen
        if rc < 0 then do
          let db ← append db key data ptrval
          some (0, db)
        else do
          let db := _db_writedat db data db.datoff .SET
          let db ← _db_writeidx text db key db.idxoff .SET ptrval
          let db ← _db_writeptr db db.chainoff db.idxoff
          some (0, db)
    else if flag = DB_INSERT then some (1, db)
    else if datlen ≠ db.datlen then do
      let db ← _db_dodelete onto db
      let (ptrval, db) ← _db_readptr db db.chainoff
      let db ← append db key data ptrval
      some (0, db)
    else some (0, _db_writedat db data db.datoff .SET)

def db_rewind (db : DB) : DB :=
  let offset := (NHASH_DEF + 1) * PTR_SZ
  { db with idxoff := offset + 1, pos := offset + 1 }

def Blank (s : CStr) : Prop := ∀ c ∈ s.bytes, c = SPACE

instance (s : CStr) : Decidable (Blank s) := inferInstanceAs (Decidable (∀ c ∈ s.bytes, c = SPACE))

/-- The loop of `db_nextrec`, which skips the records whose key is all blank: false at the end of the file. -/
def nextrec_loop : ℕ → DB → Option (Bool × DB)
  | 0, _ => none
  | n + 1, db => do
    let (ptr, db) ← _db_readidx db 0
    if ptr < 0 then some (false, db)
    else if Blank db.idxbuf then nextrec_loop n db
    else some (true, db)

/-- The key, which is copied out, and the data. -/
def db_nextrec (db : DB) : Option (Option (CStr × CStr) × DB) := do
  let (found, db) ← nextrec_loop (db.idx.length + 1) db
  if found then do
    let key := db.idxbuf
    let (ptr, db) ← _db_readdat db
    some (some (key, ptr), db)
  else some (none, db)

/-- What `db_open` writes into a new index file. -/
def init : List UInt8 := (List.replicate (NHASH_DEF + 1) (field PTR_SZ 0)).flatten ++ [NEWLINE]

/-- What `open` makes of a file that may exist: `none` if it fails. -/
def openFile (file : Option (List UInt8)) (creat trunc : Bool) : Option (List UInt8) :=
  match file with
  | none => if creat then some [] else none
  | some bytes => some (if trunc then [] else bytes)

/-- The database of these two files, and a null pointer if one of them is not there. -/
def db_open (idx dat : Option (List UInt8)) (creat trunc : Bool) : Option DB :=
  match openFile idx creat trunc, openFile dat creat trunc with
  | some idx, some dat =>
    let idx := if creat && trunc && idx.isEmpty then init else idx
    some (db_rewind { idx := idx, dat := dat, pos := 0, idxbuf := .empty, datbuf := .empty, idxoff := 0, idxlen := 0,
                      datoff := 0, datlen := 0, ptrval := 0, ptroff := 0, chainoff := 0 })
  | _, _ => none

end Apue.Db

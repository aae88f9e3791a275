import Apue.Lib.Linked
import Apue.Lib.Threads
import Apue.Lib.Transition

/-!
# The reference-counted hash table (Chapter-11/11-11.c)

Any number of threads `T` run `foo_alloc`, `foo_hold`, `foo_find` and `foo_release`. Every lock, every
unlock and every statement that touches shared memory is a step of its own, and `f_count++` and
`f_count--` are a load and a store.

* Objects are numbered in the order `malloc` hands them out and a number is never used twice, so a
  pointer to a freed object stays recognisable: touching one sets `fault`, after which nothing runs.
* The mutex `f_lock` of an object is in `fLock`, the other fields of `struct foo` in `mem`.
* `own t fp` is the number of references to `fp` that `t` owns. A reference is created by the store of
  `f_count` (in `foo_alloc` and `foo_hold`) and is given up when `foo_release` stores the lower count or
  frees the object.
* `f_count` is an `int`, so it counts up to `INT_MAX` references. One more makes it negative, and after
  2 ^ 32 more it is back where it was. `Room` is the condition on a step that this does not happen.
* `inserts`, `unlinks` and `frees` count how often that happened to an object, `zeros` the calls of
  `foo_release` on it that returned 0.

`Machine T P` is what this table shares with the one of 11-12.c: the same memory and locks, for program
points `P` of its own.
-/

namespace Apue.FooTable
open Threads Transition

def NHASH : ℕ := 29

/-- `HASH(id)`: an `int` converted to `unsigned long`. -/
def HASH (id : ℤ) : Fin NHASH := ⟨(id % 2 ^ 64).toNat % NHASH, Nat.mod_lt _ (by decide)⟩

def INT_MAX : ℕ := 2 ^ 31 - 1

/-- `struct foo`, less its mutex. -/
structure Foo where
  fCount : BitVec 32
  fId : ℤ
  fNext : Option ℕ

/-- The table, the objects and what is counted about them. -/
structure Data (T : Type*) where
  fh : Fin NHASH → Option ℕ
  mem : ℕ → Foo
  brk : ℕ
  own : T → ℕ → ℕ
  inserts : ℕ → ℕ
  unlinks : ℕ → ℕ
  frees : ℕ → ℕ
  zeros : ℕ → ℕ

structure Machine (T P : Type*) extends Data T where
  hashlock : Mutex T
  fLock : ℕ → Mutex T
  pc : T → P
  fault : Bool

variable {T P : Type*}

/-- The object is allocated and not freed. -/
def Data.Live (d : Data T) (fp : ℕ) : Prop := fp < d.brk ∧ d.frees fp = 0

instance (d : Data T) (fp : ℕ) : Decidable (d.Live fp) := inferInstanceAs (Decidable (_ ∧ _))

/-- The object was inserted and not yet unlinked. -/
def Data.InTable (d : Data T) (fp : ℕ) : Prop := d.inserts fp = 1 ∧ d.unlinks fp = 0

/-- The references to an object, all threads together. -/
def Data.refs [Fintype T] (d : Data T) (fp : ℕ) : ℕ := ∑ t, d.own t fp

/-- One more of something for `fp`. -/
def bump (f : ℕ → ℕ) (fp : ℕ) : ℕ → ℕ := Function.update f fp (f fp + 1)

section step
variable [DecidableEq T]

namespace Data

def setOwn (d : Data T) (t : T) (fp n : ℕ) : Data T :=
  { d with own := Function.update d.own t (Function.update (d.own t) fp n) }

def setCount (d : Data T) (fp : ℕ) (v : BitVec 32) : Data T :=
  { d with mem := Function.update d.mem fp { d.mem fp with fCount := v } }

def setNext (d : Data T) (fp : ℕ) (p : Option ℕ) : Data T :=
  { d with mem := Function.update d.mem fp { d.mem fp with fNext := p } }

def setHead (d : Data T) (b : Fin NHASH) (p : Option ℕ) : Data T :=
  { d with fh := Function.update d.fh b p }

/-- `n` references more for `t`, all counted. -/
def held (d : Data T) (t : T) (fp n : ℕ) : Data T :=
  (d.setCount fp ((d.mem fp).fCount + BitVec.ofNat 32 n)).setOwn t fp (d.own t fp + n)

/-- One reference changes hands. -/
def give (d : Data T) (t u : T) (fp : ℕ) : Data T :=
  let d' := d.setOwn t fp (d.own t fp - 1)
  d'.setOwn u fp (d'.own u fp + 1)

/-- `malloc` followed by the initialisation of the new object. -/
def malloc (d : Data T) (t : T) (id : ℤ) : Data T :=
  { d with
    mem := Function.update d.mem d.brk { d.mem d.brk with fCount := 1, fId := id }
    brk := d.brk + 1
    own := Function.update d.own t (Function.update (d.own t) d.brk 1) }

/-- `malloc`, then `free` because the mutex could not be initialised. -/
def mallocFree (d : Data T) : Data T :=
  { d with brk := d.brk + 1, frees := bump d.frees d.brk }

end Data

namespace Machine

/-- The thread goes on at `pc` with the data `d`. -/
def goto (s : Machine T P) (t : T) (d : Data T) (pc : P) : Machine T P :=
  { s with toData := d, pc := Function.update s.pc t pc }

/-- Touching the object `fp`: a fault when it is not there. -/
def access (s : Machine T P) (fp : ℕ) (next : Option (Machine T P)) : Option (Machine T P) :=
  if s.Live fp then next else some { s with fault := true }

omit [DecidableEq T] in
theorem access_of_live (s : Machine T P) {fp : ℕ} (hlive : s.Live fp) (next : Option (Machine T P)) :
    s.access fp next = next :=
  if_pos hlive

omit [DecidableEq T] in
theorem access_of_dead (s : Machine T P) {fp : ℕ} (hdead : ¬ s.Live fp) (next : Option (Machine T P)) :
    s.access fp next = some { s with fault := true } :=
  if_neg hdead

def lockHash (s : Machine T P) (t : T) (pc : P) : Option (Machine T P) :=
  (s.hashlock.lock t).map fun l => { s with hashlock := l, pc := Function.update s.pc t pc }

def unlockHash (s : Machine T P) (t : T) (pc : P) : Option (Machine T P) :=
  some { s with hashlock := none, pc := Function.update s.pc t pc }

def lockFoo (s : Machine T P) (t : T) (fp : ℕ) (pc : P) : Option (Machine T P) :=
  s.access fp <| ((s.fLock fp).lock t).map fun l =>
    { s with fLock := Function.update s.fLock fp l, pc := Function.update s.pc t pc }

def unlockFoo (s : Machine T P) (t : T) (fp : ℕ) (pc : P) : Option (Machine T P) :=
  s.access fp <| some
    { s with fLock := Function.update s.fLock fp none, pc := Function.update s.pc t pc }

/-- An empty table; what `malloc` will find in the memory it hands out is arbitrary. -/
def start (idle : P) (mem : ℕ → Foo) : Machine T P where
  fh := fun _ => none
  mem := mem
  brk := 0
  own := fun _ _ => 0
  inserts := fun _ => 0
  unlinks := fun _ => 0
  frees := fun _ => 0
  zeros := fun _ => 0
  hashlock := none
  fLock := fun _ => none
  pc := fun _ => idle
  fault := false

end Machine

/-- A thread calls a function, takes its next step, or hands a reference it owns to another thread. A
call of `foo_alloc` comes with the outcomes of `malloc` and `pthread_mutex_init`. -/
inductive Act (T : Type*) where
  | alloc (t : T) (id : ℤ) (malloced inited : Bool)
  | hold (t : T) (fp : ℕ)
  | find (t : T) (id : ℤ)
  | release (t : T) (fp : ℕ)
  | move (t : T)
  | give (t u : T) (fp : ℕ)

/-- The step does not give an object more references than `f_count` counts; `adds p` is the object that
the statement at `p` gives a reference to. -/
def Room [Fintype T] (adds : P → Option ℕ) (s : Machine T P) : Act T → Prop
  | .move t => ∀ fp ∈ adds (s.pc t), s.refs fp < INT_MAX
  | _ => True

instance [Fintype T] (adds : P → Option ℕ) (s : Machine T P) : ∀ a, Decidable (Room adds s a)
  | .move t => inferInstanceAs (Decidable (∀ fp ∈ adds (s.pc t), s.refs fp < INT_MAX))
  | .alloc .. | .hold .. | .find .. | .release .. | .give .. => isTrue trivial

/-- The program points. A flag says, for `foo_hold`, whether `foo_find` called it, and for the
decrement in `foo_release`, whether it is the one under `hashlock`. -/
inductive Pc where
  | idle
  -- foo_alloc, after malloc and the initialisation of the new object
  | allocHash (fp : ℕ) (id : ℤ)
  | allocNext (fp : ℕ) (id : ℤ)
  | allocHead (fp : ℕ) (id : ℤ)
  | allocLock (fp : ℕ)
  | allocUnhash (fp : ℕ)
  | allocUnlock (fp : ℕ)
  -- foo_hold
  | holdLock (fp : ℕ) (found : Bool)
  | holdLoad (fp : ℕ) (found : Bool)
  | holdStore (fp : ℕ) (v : BitVec 32) (found : Bool)
  | holdUnlock (fp : ℕ) (found : Bool)
  -- foo_find
  | findHash (id : ℤ)
  | findHead (id : ℤ)
  | findTest (id : ℤ) (fp : Option ℕ)
  | findUnhash (fp : Option ℕ)
  -- foo_release
  | relLock (fp : ℕ)
  | relTest (fp : ℕ)
  | relUnlock (fp : ℕ)
  | relHash (fp : ℕ)
  | relLock2 (fp : ℕ)
  | relTest2 (fp : ℕ)
  | relHead (fp : ℕ)
  | relCmp (fp : ℕ) (idx : Fin NHASH) (tfp : Option ℕ)
  | relWalk (fp : ℕ) (tfp : Option ℕ)
  | relUnhash (fp : ℕ)
  | relUnlock2 (fp : ℕ)
  | relFree (fp : ℕ)
  | decLoad (fp : ℕ) (hashed : Bool)
  | decStore (fp : ℕ) (v : BitVec 32) (hashed : Bool)
  | decUnlock (fp : ℕ) (hashed : Bool)
  | decUnhash
  deriving DecidableEq

@[simp] def Pc.adds : Pc → Option ℕ
  | .holdStore fp _ _ => some fp
  | _ => none

abbrev State (T : Type*) := Machine T Pc

/-- The next statement of a thread that is inside one of the four functions. -/
def State.move (s : State T) (t : T) : Pc → Option (State T)
  | .idle => none
  | .allocHash fp id => s.lockHash t (.allocNext fp id)
  | .allocNext fp id =>
    s.access fp (some (s.goto t (s.setNext fp (s.fh (HASH id))) (.allocHead fp id)))
  | .allocHead fp id =>
    some (s.goto t { s.setHead (HASH id) (some fp) with inserts := bump s.inserts fp } (.allocLock fp))
  | .allocLock fp => s.lockFoo t fp (.allocUnhash fp)
  | .allocUnhash fp => s.unlockHash t (.allocUnlock fp)
  | .allocUnlock fp => s.unlockFoo t fp .idle
  | .holdLock fp found => s.lockFoo t fp (.holdLoad fp found)
  | .holdLoad fp found =>
    s.access fp (some (s.goto t s.toData (.holdStore fp (s.mem fp).fCount found)))
  | .holdStore fp v found =>
    s.access fp (some
      (s.goto t ((s.setCount fp (v + 1)).setOwn t fp (s.own t fp + 1)) (.holdUnlock fp found)))
  | .holdUnlock fp found => s.unlockFoo t fp (if found then .findUnhash (some fp) else .idle)
  | .findHash id => s.lockHash t (.findHead id)
  | .findHead id => some (s.goto t s.toData (.findTest id (s.fh (HASH id))))
  | .findTest _ none => some (s.goto t s.toData (.findUnhash none))
  | .findTest id (some fp) =>
    s.access fp (some (s.goto t s.toData
      (if (s.mem fp).fId = id then .holdLock fp true else .findTest id (s.mem fp).fNext)))
  | .findUnhash _ => s.unlockHash t .idle
  | .relLock fp => s.lockFoo t fp (.relTest fp)
  | .relTest fp =>
    s.access fp (some (s.goto t s.toData
      (if (s.mem fp).fCount = 1 then .relUnlock fp else .decLoad fp false)))
  | .relUnlock fp => s.unlockFoo t fp (.relHash fp)
  | .relHash fp => s.lockHash t (.relLock2 fp)
  | .relLock2 fp => s.lockFoo t fp (.relTest2 fp)
  | .relTest2 fp =>
    s.access fp (some (s.goto t s.toData
      (if (s.mem fp).fCount = 1 then .relHead fp else .decLoad fp true)))
  | .relHead fp =>
    s.access fp (some (s.goto t s.toData
      (.relCmp fp (HASH (s.mem fp).fId) (s.fh (HASH (s.mem fp).fId)))))
  | .relCmp fp idx tfp =>
    if tfp = some fp then
      s.access fp (some (s.goto t
        { s.setHead idx (s.mem fp).fNext with unlinks := bump s.unlinks fp } (.relUnhash fp)))
    else some (s.goto t s.toData (.relWalk fp tfp))
  | .relWalk _ none => some { s with fault := true }
  | .relWalk fp (some tfp) =>
    s.access tfp <|
      if (s.mem tfp).fNext = some fp then
        s.access fp (some (s.goto t
          { s.setNext tfp (s.mem fp).fNext with unlinks := bump s.unlinks fp } (.relUnhash fp)))
      else some (s.goto t s.toData (.relWalk fp (s.mem tfp).fNext))
  | .relUnhash fp => s.unlockHash t (.relUnlock2 fp)
  | .relUnlock2 fp => s.unlockFoo t fp (.relFree fp)
  | .relFree fp =>
    s.access fp (some (s.goto t
      { s.setOwn t fp (s.own t fp - 1) with
        frees := bump s.frees fp, zeros := bump s.zeros fp } .idle))
  | .decLoad fp hashed =>
    s.access fp (some (s.goto t s.toData (.decStore fp (s.mem fp).fCount hashed)))
  | .decStore fp v hashed =>
    s.access fp (some
      (s.goto t ((s.setCount fp (v - 1)).setOwn t fp (s.own t fp - 1)) (.decUnlock fp hashed)))
  | .decUnlock fp hashed => s.unlockFoo t fp (if hashed then .decUnhash else .idle)
  | .decUnhash => s.unlockHash t .idle

/-- One step. A thread calls `foo_hold` and `foo_release` only on a reference it owns. -/
def step (s : State T) : Act T → Option (State T)
  | .alloc t id malloced inited =>
    if s.fault = false ∧ s.pc t = .idle then
      some <| if malloced then
        if inited then s.goto t (s.malloc t id) (.allocHash s.brk id)
        else s.goto t s.mallocFree .idle
      else s
    else none
  | .hold t fp =>
    if s.fault = false ∧ s.pc t = .idle ∧ 1 ≤ s.own t fp then
      some (s.goto t s.toData (.holdLock fp false))
    else none
  | .find t id =>
    if s.fault = false ∧ s.pc t = .idle then some (s.goto t s.toData (.findHash id)) else none
  | .release t fp =>
    if s.fault = false ∧ s.pc t = .idle ∧ 1 ≤ s.own t fp then
      some (s.goto t s.toData (.relLock fp))
    else none
  | .move t => if s.fault = false then s.move t (s.pc t) else none
  | .give t u fp =>
    if s.fault = false ∧ s.pc t = .idle ∧ 1 ≤ s.own t fp then
      some { s with toData := s.toData.give t u fp }
    else none

end step

def start (mem : ℕ → Foo) : State T := .start .idle mem

end Apue.FooTable

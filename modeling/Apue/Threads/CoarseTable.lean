import Apue.Threads.FooTable

/-!
# The hash table with the coarser lock (Chapter-11/11-12.c)

The same table, of the same objects, with a `foo_release` that decrements `f_count` under `hashlock` and
leaves the object's mutex alone. `foo_hold` still increments it under that mutex, so nothing keeps the two
from each other.

* `Machine` is that of 11-11.c, with its memory, its locks and its `malloc`. `f_count++` and `--f_count` are
  a load and a store. `zeros` stays 0, because `foo_release` returns nothing here.
* A reference is given up by the store of `--f_count`. The thread whose store makes it 0 goes on to unlink
  and free the object.
-/

namespace Apue.CoarseTable
open FooTable Threads Transition

/-- The program points. The flag says whether `foo_find` called `foo_hold`. -/
inductive Pc where
  | idle
  -- foo_alloc, after malloc and the initialisation of the new object
  | allocHash (fp : ℕ) (id : ℤ)
  | allocNext (fp : ℕ) (id : ℤ)
  | allocHead (fp : ℕ) (id : ℤ)
  | allocLock (fp : ℕ)
  | allocUnhash (fp : ℕ)
  | allocUnlock (fp : ℕ)
  -- foo_hold
  | holdLock (fp : ℕ) (found : Bool)
  | holdLoad (fp : ℕ) (found : Bool)
  | holdStore (fp : ℕ) (v : BitVec 32) (found : Bool)
  | holdUnlock (fp : ℕ) (found : Bool)
  -- foo_find
  | findHash (id : ℤ)
  | findHead (id : ℤ)
  | findTest (id : ℤ) (fp : Option ℕ)
  | findUnhash (fp : Option ℕ)
  -- foo_release
  | relHash (fp : ℕ)
  | relLoad (fp : ℕ)
  | relStore (fp : ℕ) (v : BitVec 32)
  | relHead (fp : ℕ)
  | relCmp (fp : ℕ) (idx : Fin NHASH) (tfp : Option ℕ)
  | relWalk (fp : ℕ) (tfp : Option ℕ)
  | relUnhash (fp : ℕ)
  | relFree (fp : ℕ)
  | relDone
  deriving DecidableEq

@[simp] def Pc.adds : Pc → Option ℕ
  | .holdStore fp _ _ => some fp
  | _ => none

abbrev State (T : Type*) := Machine T Pc

variable {T : Type*}

section step
variable [DecidableEq T]

/-- The next statement of a thread that is inside one of the four functions. -/
def State.move (s : State T) (t : T) : Pc → Option (State T)
  | .idle => none
  | .allocHash fp id => s.lockHash t (.allocNext fp id)
  | .allocNext fp id =>
    s.access fp (some (s.goto t (s.setNext fp (s.fh (HASH id))) (.allocHead fp id)))
  | .allocHead fp id =>
    some (s.goto t { s.setHead (HASH id) (some fp) with inserts := bump s.inserts fp } (.allocLock fp))
  | .allocLock fp => s.lockFoo t fp (.allocUnhash fp)
  | .allocUnhash fp => s.unlockHash t (.allocUnlock fp)
  | .allocUnlock fp => s.unlockFoo t fp .idle
  | .holdLock fp found => s.lockFoo t fp (.holdLoad fp found)
  | .holdLoad fp found =>
    s.access fp (some (s.goto t s.toData (.holdStore fp (s.mem fp).fCount found)))
  | .holdStore fp v found =>
    s.access fp (some
      (s.goto t ((s.setCount fp (v + 1)).setOwn t fp (s.own t fp + 1)) (.holdUnlock fp found)))
  | .holdUnlock fp found => s.unlockFoo t fp (if found then .findUnhash (some fp) else .idle)
  | .findHash id => s.lockHash t (.findHead id)
  | .findHead id => some (s.goto t s.toData (.findTest id (s.fh (HASH id))))
  | .findTest _ none => some (s.goto t s.toData (.findUnhash none))
  | .findTest id (some fp) =>
    s.access fp (some (s.goto t s.toData
      (if (s.mem fp).fId = id then .holdLock fp true else .findTest id (s.mem fp).fNext)))
  | .findUnhash _ => s.unlockHash t .idle
  | .relHash fp => s.lockHash t (.relLoad fp)
  | .relLoad fp => s.access fp (some (s.goto t s.toData (.relStore fp (s.mem fp).fCount)))
  | .relStore fp v =>
    s.access fp (some
      (s.goto t ((s.setCount fp (v - 1)).setOwn t fp (s.own t fp - 1))
        (if v - 1 = 0 then .relHead fp else .relDone)))
  | .relHead fp =>
    s.access fp (some (s.goto t s.toData
      (.relCmp fp (HASH (s.mem fp).fId) (s.fh (HASH (s.mem fp).fId)))))
  | .relCmp fp idx tfp =>
    if tfp = some fp then
      s.access fp (some (s.goto t
        { s.setHead idx (s.mem fp).fNext with unlinks := bump s.unlinks fp } (.relUnhash fp)))
    else some (s.goto t s.toData (.relWalk fp tfp))
  | .relWalk _ none => some { s with fault := true }
  | .relWalk fp (some tfp) =>
    s.access tfp <|
      if (s.mem tfp).fNext = some fp then
        s.access fp (some (s.goto t
          { s.setNext tfp (s.mem fp).fNext with unlinks := bump s.unlinks fp } (.relUnhash fp)))
      else some (s.goto t s.toData (.relWalk fp (s.mem tfp).fNext))
  | .relUnhash fp => s.unlockHash t (.relFree fp)
  | .relFree fp => s.access fp (some (s.goto t { s.toData with frees := bump s.frees fp } .idle))
  | .relDone => s.unlockHash t .idle

/-- One step. A thread calls `foo_hold` and `foo_release` only on a reference it owns. -/
def step (s : State T) : Act T → Option (State T)
  | .alloc t id malloced inited =>
    if s.fault = false ∧ s.pc t = .idle then
      some <| if malloced then
        if inited then s.goto t (s.malloc t id) (.allocHash s.brk id)
        else s.goto t s.mallocFree .idle
      else s
    else none
  | .hold t fp =>
    if s.fault = false ∧ s.pc t = .idle ∧ 1 ≤ s.own t fp then
      some (s.goto t s.toData (.holdLock fp false))
    else none
  | .find t id =>
    if s.fault = false ∧ s.pc t = .idle then some (s.goto t s.toData (.findHash id)) else none
  | .release t fp =>
    if s.fault = false ∧ s.pc t = .idle ∧ 1 ≤ s.own t fp then
      some (s.goto t s.toData (.relHash fp))
    else none
  | .move t => if s.fault = false then s.move t (s.pc t) else none
  | .give t u fp =>
    if s.fault = false ∧ s.pc t = .idle ∧ 1 ≤ s.own t fp then
      some { s with toData := s.toData.give t u fp }
    else none

end step

def start (mem : ℕ → Foo) : State T := .start .idle mem

/-! ### What may not overlap -/

/-- The object whose `f_count` the thread loads next. -/
@[simp] def Pc.loads : Pc → Option ℕ
  | .holdLoad fp _ | .relLoad fp => some fp
  | _ => none

/-- The `f_count` the thread has loaded and will store changed. -/
@[simp] def Pc.loaded : Pc → Option (ℕ × BitVec 32)
  | .holdStore fp v _ | .relStore fp v => some (fp, v)
  | _ => none

/-- The object the thread has found unreferenced and not yet freed. -/
@[simp] def Pc.removing : Pc → Option ℕ
  | .relHead fp | .relCmp fp _ _ | .relWalk fp _ | .relUnhash fp | .relFree fp => some fp
  | _ => none

/-- The condition on a step: no thread loads a count that another one has loaded and not yet stored. -/
def Atomic (s : State T) : Act T → Prop
  | .move t => ∀ fp, (s.pc t).loads = some fp → ∀ u v, (s.pc u).loaded ≠ some (fp, v)
  | _ => True

/-- What the table promises in a state. An object without references is about to be freed by the thread
that released the last one, which nobody can keep from it. -/
structure Exact [Fintype T] [DecidableEq T] (s : State T) : Prop where
  counts : ∀ fp, s.Live fp → (s.mem fp).fCount.toInt = s.refs fp
  noFault : s.fault = false
  referenced : ∀ fp, 1 ≤ s.refs fp → s.Live fp
  released : ∀ fp, s.Live fp → s.refs fp = 0 → ∃ t, (s.pc t).removing = some fp ∧
    ∃ n s', run step s (List.replicate n (.move t)) = some s' ∧ ¬ s'.Live fp

end Apue.CoarseTable

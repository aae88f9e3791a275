import Apue.Lib.Threads
import Apue.Threads.JobQueue

/-!
# The lock of the job queue (Chapter-11/11-14.c)

Any number of threads run `job_insert`, `job_append`, `job_remove` and `job_find` on one queue; every
lock, every pointer write and every unlock is a step of its own. `Code` is the part of an operation
between its lock and its unlock, one constructor per statement; run alone it does what `JobQueue`
says (`code_exec`).

`queue_init` ends with `pthread_rwlock_rdlock` where it should initialise the lock, so it returns
with the lock held for reading by nobody in particular. `queue_never_free`: from then on the lock is
never free, no `job_insert` or `job_append` ever gets past its `pthread_rwlock_wrlock`, and the
locking property of the queue (`LockingCorrect`) is false for any number of threads.
-/

namespace Apue.JobQueue
open Transition Threads

/-! ### The threads -/

/-- A call of one of the four operations on the queue. -/
inductive Call (A I : Type*) where
  | insert (jp : A)
  | append (jp : A)
  | remove (jp : A)
  | find (id : I)
  deriving DecidableEq

/-- The operations that write to the queue. -/
def Call.Mutates {A I : Type*} : Call A I → Prop
  | .insert _ | .append _ | .remove _ => True
  | .find _ => False

/-- The lock each operation takes: `job_remove` takes it for reading. -/
def Call.acquire {A I : Type*} : Call A I → RwLock → Option RwLock
  | .insert _ | .append _ => RwLock.wrlock
  | .remove _ | .find _ => RwLock.rdlock

/-- The statements left before the unlock: each one changes the memory (`none` when it follows a null
pointer) and goes on as the memory it ran in tells. -/
inductive Code (Q A I : Type*) where
  | unlock
  | write (act : Mem Q A I → Option (Mem Q A I)) (rest : Mem Q A I → Code Q A I)

variable {Q A I T : Type*}

/-- The memory after the statements left, with no other thread in between. -/
def Code.exec : Code Q A I → Mem Q A I → Option (Mem Q A I)
  | .unlock, m => some m
  | .write act rest, m => (act m).bind fun m' => (rest m).exec m'

section code
variable [DecidableEq Q] [DecidableEq A]

/-- One last write. -/
def Code.last (act : Mem Q A I → Option (Mem Q A I)) : Code Q A I :=
  .write act fun _ => .unlock

/-- The statements of an operation between its lock and its unlock. `job_find` writes nothing and has
its own program point. -/
def Call.code (qp : Q) : Call A I → Code Q A I
  | .insert jp =>
    .write (fun m => some (m.setNext jp (m.queue qp).qHead)) fun _ =>
    .write (fun m => some (m.setPrev jp none)) fun _ =>
    .write (fun m => match (m.queue qp).qHead with
      | some h => some (m.setPrev h (some jp))
      | none => some (m.setTail qp (some jp))) fun _ =>
    .last fun m => some (m.setHead qp (some jp))
  | .append jp =>
    .write (fun m => some (m.setPrev jp (m.queue qp).qTail)) fun _ =>
    .write (fun m => match (m.queue qp).qTail with
      | some t => some (m.setNext t (some jp))
      | none => some (m.setHead qp (some jp))) fun _ =>
    .last fun m => some (m.setTail qp (some jp))
  | .remove jp =>
    .write some fun m =>
      if (m.queue qp).qHead = some jp then
        .write (fun m => some (m.setHead qp (m.next jp))) fun m =>
          if (m.queue qp).qTail = some jp then .last fun m => some (m.setTail qp none)
          else .last fun m => (m.next jp).map fun nx => m.setPrev nx (m.prev jp)
      else if (m.queue qp).qTail = some jp then
        .write some fun m =>
          if (m.queue qp).qHead = some jp then .last fun m => some (m.setHead qp none)
          else .last fun m => (m.prev jp).map fun pv => m.setNext pv (m.next jp)
      else
        .write (fun m => (m.prev jp).map fun pv => m.setNext pv (m.next jp)) fun _ =>
        .last fun m => (m.next jp).map fun nx => m.setPrev nx (m.prev jp)
  | .find _ => .unlock

end code

/-- Where a thread is: in no operation, between the lock and the unlock of one, or in the loop of
`job_find` at the pointer `jp`. -/
inductive Pc (Q A I : Type*) where
  | idle
  | inside (c : Call A I) (code : Code Q A I)
  | finding (id : I) (jp : Option A)

/-- The thread is between the lock and the unlock of the operation `c`. -/
def Pc.In : Pc Q A I → Call A I → Prop
  | .idle, _ => False
  | .inside c' _, c => c' = c
  | .finding id _, c => c = .find id

/-- Whether the thread is in some operation. -/
def Pc.busy : Pc Q A I → Bool
  | .idle => false
  | _ => true

@[simp] theorem Pc.busy_idle : (Pc.idle : Pc Q A I).busy = false := rfl

/-- The queue's lock, the memory (`none` once a null pointer was followed) and the threads. -/
structure State (Q A I T : Type*) where
  lock : RwLock
  mem : Option (Mem Q A I)
  pc : T → Pc Q A I

/-- A thread calls an operation (and takes the lock), or takes its next step. -/
inductive Act (A I T : Type*) where
  | call (t : T) (c : Call A I)
  | move (t : T)

section threads
variable [DecidableEq Q] [DecidableEq A] [DecidableEq I] [DecidableEq T]

/-- The first program point inside an operation. -/
def Call.enter (qp : Q) (m : Mem Q A I) : Call A I → Pc Q A I
  | .find id => .finding id (m.queue qp).qHead
  | c => .inside c (c.code qp)

def tstep (qp : Q) (s : State Q A I T) : Act A I T → Option (State Q A I T)
  | .call t c =>
    match s.pc t, s.mem with
    | .idle, some m =>
      (c.acquire s.lock).map fun l => { s with lock := l, pc := Function.update s.pc t (c.enter qp m) }
    | _, _ => none
  | .move t =>
    match s.pc t, s.mem with
    | .inside _ .unlock, some _ =>
      some { s with lock := s.lock.unlock, pc := Function.update s.pc t .idle }
    | .inside c (.write act rest), some m =>
      some { s with mem := act m, pc := Function.update s.pc t (.inside c (rest m)) }
    | .finding _ none, some _ =>
      some { s with lock := s.lock.unlock, pc := Function.update s.pc t .idle }
    | .finding id (some jp), some m =>
      if (m.job jp).jId = id then
        some { s with pc := Function.update s.pc t (.inside (.find id) .unlock) }
      else some { s with pc := Function.update s.pc t (.finding id (m.next jp)) }
    | _, _ => none

/-- `queue_init` on a queue whose lock is in state `l`: it takes the lock for reading. -/
def queueInit (qp : Q) (m : Mem Q A I) (l : RwLock) : Option (State Q A I T) :=
  let m := (m.setHead qp none).setTail qp none
  l.rdlock.map fun l => ⟨l, some m, fun _ => .idle⟩

/-! ### The locking property -/

/-- While a thread is inside a mutating operation, no other thread is inside any. -/
def Exclusive (s : State Q A I T) : Prop :=
  ∀ t c, (s.pc t).In c → c.Mutates → ∀ t' c', (s.pc t').In c' → t' = t

/-- When no thread is inside an operation, the lock is free and every operation can start. -/
def FreeWhenIdle (qp : Q) (s : State Q A I T) : Prop :=
  (∀ t, s.pc t = .idle) → s.lock.Free ∧ ∀ t c, (tstep qp s (.call t c)).isSome

/-- What the lock is for, over every state the threads can reach from `s`. -/
def LockingCorrect (qp : Q) (s : State Q A I T) : Prop :=
  ∀ s', Reaches (tstep qp) s s' → Exclusive s' ∧ FreeWhenIdle qp s'

end threads

/-! ### The statements do what the operation does -/

/-- The operation of `JobQueue` a call is. -/
def Call.op (qp : Q) : Call A I → Option (Op Q A)
  | .insert jp => some (.insert qp jp)
  | .append jp => some (.append qp jp)
  | .remove jp => some (.remove qp jp)
  | .find _ => none

theorem code_exec [DecidableEq Q] [DecidableEq A] {qp : Q} {c : Call A I} {op : Op Q A}
    (hop : c.op qp = some op) (m : Mem Q A I) : (c.code qp).exec m = op.exec m := by
  cases c with
  | insert jp =>
    obtain rfl := Option.some.inj hop
    simp only [Call.code, Code.last, Code.exec, Option.bind_some, Op.exec, jobInsert,
      Mem.queue_setNext, Mem.queue_setPrev]
    cases (m.queue qp).qHead <;> rfl
  | append jp =>
    obtain rfl := Option.some.inj hop
    simp only [Call.code, Code.last, Code.exec, Option.bind_some, Op.exec, jobAppend,
      Mem.queue_setPrev]
    cases (m.queue qp).qTail <;> rfl
  | remove jp =>
    obtain rfl := Option.some.inj hop
    simp only [Call.code, Code.last, Code.exec, Option.bind_some, Op.exec, jobRemove]
    split_ifs <;> simp_all [Code.exec]
    cases hpv : m.prev jp <;> simp [hpv]
  | find id => cases hop

/-! ### After `queue_init` -/

/-- What `queue_init` leaves behind, for good: no writer, and one reader more than the threads in an
operation; so nobody is in `job_insert` or `job_append`. -/
structure HeldForReading [Fintype T] (s : State Q A I T) : Prop where
  writer : s.lock.writer = false
  readers : ∑ t, (s.pc t).busy.toNat + 1 ≤ s.lock.readers
  noWriter : ∀ t jp, ¬ (s.pc t).In (.insert jp) ∧ ¬ (s.pc t).In (.append jp)

section held
variable [DecidableEq T] [Fintype T] {s : State Q A I T}

omit [DecidableEq T] in
theorem queueInit_held [DecidableEq Q] {qp : Q} {m : Mem Q A I} {l : RwLock} (h : queueInit qp m l = some s) :
    HeldForReading s := by
  obtain ⟨l', hl, rfl⟩ := Option.map_eq_some_iff.mp h
  obtain ⟨hw, rfl⟩ := RwLock.rdlock_eq_some.mp hl
  exact ⟨rfl, by simp [Pc.busy], fun _ _ => ⟨id, id⟩⟩

omit [DecidableEq T] in
theorem HeldForReading.not_free (h : HeldForReading s) : ¬ s.lock.Free := by
  have := h.readers
  rintro ⟨hr, -⟩
  omega

theorem HeldForReading.enter (h : HeldForReading s) {t : T} (hidle : s.pc t = .idle)
    {p : Pc Q A I} (hbusy : p.busy = true) (hp : ∀ jp, ¬ p.In (.insert jp) ∧ ¬ p.In (.append jp)) :
    HeldForReading { s with lock := ⟨s.lock.readers + 1, false⟩, pc := Function.update s.pc t p } := by
  have hsum := sum_update s.pc t p fun p => p.busy.toNat
  have hr := h.readers
  refine ⟨rfl, ?_, fun t' jp => ?_⟩
  · simp only [hidle, hbusy, Pc.busy_idle, Bool.toNat_false, Bool.toNat_true] at hsum
    simp only
    omega
  · by_cases ht : t' = t
    · subst ht
      simpa using hp jp
    · simpa [ht] using h.noWriter t' jp

theorem HeldForReading.leave (h : HeldForReading s) {t : T} (hbusy : (s.pc t).busy = true) :
    HeldForReading { s with lock := s.lock.unlock, pc := Function.update s.pc t .idle } := by
  have hsum := sum_update s.pc t .idle fun p => p.busy.toNat
  have hr := h.readers
  rw [RwLock.unlock_reader h.writer]
  refine ⟨rfl, ?_, fun t' jp => ?_⟩
  · simp only [hbusy, Pc.busy_idle, Bool.toNat_false, Bool.toNat_true] at hsum
    simp only
    omega
  · by_cases ht : t' = t
    · subst ht
      simp [Pc.In]
    · simpa [ht] using h.noWriter t' jp

theorem HeldForReading.stay (h : HeldForReading s) {t : T} {p : Pc Q A I} {mem : Option (Mem Q A I)}
    (hbusy : p.busy = (s.pc t).busy) (hp : ∀ c, p.In c → (s.pc t).In c) :
    HeldForReading { s with mem := mem, pc := Function.update s.pc t p } := by
  have hsum := sum_update s.pc t p fun p => p.busy.toNat
  have hr := h.readers
  refine ⟨h.writer, ?_, fun t' jp => ?_⟩
  · simp only [hbusy] at hsum
    simp only
    omega
  · by_cases ht : t' = t
    · subst ht
      have := h.noWriter t' jp
      simp only [Function.update_self]
      exact ⟨fun hc => this.1 (hp _ hc), fun hc => this.2 (hp _ hc)⟩
    · simpa [ht] using h.noWriter t' jp

end held

section init
variable [DecidableEq Q] [DecidableEq A] [DecidableEq I] [DecidableEq T] [Fintype T]
  {qp : Q} {s s' : State Q A I T}

theorem HeldForReading.blocked (h : HeldForReading s) (t : T) (jp : A) :
    tstep qp s (.call t (.insert jp)) = none ∧ tstep qp s (.call t (.append jp)) = none := by
  have hr : s.lock.readers ≠ 0 := by
    have := h.readers
    omega
  constructor <;> simp only [tstep, Call.acquire, RwLock.wrlock_eq_none hr] <;> split <;> rfl

theorem HeldForReading.step (a : Act A I T) (h : HeldForReading s) (hstep : tstep qp s a = some s') :
    HeldForReading s' := by
  cases a with
  | call t c =>
    simp only [tstep] at hstep
    split at hstep
    · rename_i m hidle hmem
      obtain ⟨l, hl, rfl⟩ := Option.map_eq_some_iff.mp hstep
      have hr : s.lock.readers ≠ 0 := by
        have := h.readers
        omega
      cases c with
      | insert jp => simp [Call.acquire, RwLock.wrlock_eq_none hr] at hl
      | append jp => simp [Call.acquire, RwLock.wrlock_eq_none hr] at hl
      | remove jp =>
        obtain ⟨-, rfl⟩ := RwLock.rdlock_eq_some.mp hl
        exact h.enter hidle rfl fun jp' => by simp [Call.enter, Pc.In]
      | find id =>
        obtain ⟨-, rfl⟩ := RwLock.rdlock_eq_some.mp hl
        exact h.enter hidle rfl fun jp' => by simp [Call.enter, Pc.In]
    · cases hstep
  | move t =>
    simp only [tstep] at hstep
    split at hstep
    · rename_i c m hpc hmem
      obtain rfl := Option.some.inj hstep
      exact h.leave (by simp [hpc, Pc.busy])
    · rename_i c act rest m hpc hmem
      obtain rfl := Option.some.inj hstep
      exact h.stay (by simp [hpc, Pc.busy]) fun c' hc => by rw [hpc]; exact hc
    · rename_i id m hpc hmem
      obtain rfl := Option.some.inj hstep
      exact h.leave (by simp [hpc, Pc.busy])
    · rename_i id jp m hpc hmem
      split_ifs at hstep
      · obtain rfl := Option.some.inj hstep
        exact h.stay (by simp [hpc, Pc.busy]) fun c' hc => by simpa [hpc, Pc.In, eq_comm] using hc
      · obtain rfl := Option.some.inj hstep
        exact h.stay (by simp [hpc, Pc.busy]) fun c' hc => by rw [hpc]; exact hc
    · cases hstep

/-- **The queue's lock never works**: whatever state the lock was in before `queue_init` took it, in
every state any number of threads can then reach, the lock is not free, no insertion or append can
start and none is running; so the locking property is false, already in the state `queue_init`
returns with. -/
theorem queue_never_free {m : Mem Q A I} {l : RwLock} (h : queueInit qp m l = some s) :
    ¬ LockingCorrect qp s ∧ ∀ s', Reaches (tstep qp) s s' → ¬ s'.lock.Free ∧ ∀ t jp,
      tstep qp s' (.call t (.insert jp)) = none ∧ tstep qp s' (.call t (.append jp)) = none ∧
      ¬ (s'.pc t).In (.insert jp) ∧ ¬ (s'.pc t).In (.append jp) := by
  have hheld := queueInit_held h
  refine ⟨fun hcorrect => ?_, fun s' hreach => ?_⟩
  · have hidle : ∀ t, s.pc t = .idle := by
      obtain ⟨l', hl, rfl⟩ := Option.map_eq_some_iff.mp h
      exact fun t => rfl
    exact hheld.not_free ((hcorrect s (Reaches.refl _ _)).2 hidle).1
  · have hheld' : HeldForReading s' :=
      hreach.invariant (fun s a t hs hst => HeldForReading.step a hs hst) hheld
    exact ⟨hheld'.not_free, fun t jp => ⟨(hheld'.blocked t jp).1, (hheld'.blocked t jp).2,
      (hheld'.noWriter t jp).1, (hheld'.noWriter t jp).2⟩⟩

end init

/-- A queue set up over an unlocked lock, and two threads. -/
theorem queue_never_free_two : ∃ s : State Unit ℕ ℕ (Fin 2),
    queueInit () blank ⟨0, false⟩ = some s ∧ ¬ LockingCorrect () s :=
  ⟨_, rfl, (queue_never_free (m := blank) (l := ⟨0, false⟩) rfl).1⟩

/-- With two threads: right after `queue_init` no thread is in an operation and yet the lock is not
free and `job_insert` blocks; and two threads can be inside `job_remove` together. -/
theorem queue_locking_fails : ∃ s : State Unit ℕ ℕ (Fin 2),
    queueInit () blank ⟨0, false⟩ = some s ∧ (∀ t, s.pc t = .idle) ∧ ¬ s.lock.Free ∧
    tstep () s (.call 0 (.insert 1)) = none ∧
    ∃ s', run (tstep ()) s [.call 0 (.remove 1), .call 1 (.remove 1)] = some s' ∧ ¬ Exclusive s' := by
  refine ⟨_, rfl, fun _ => rfl, by decide, rfl, _, rfl, fun hex => ?_⟩
  exact absurd (hex 0 (.remove 1) rfl trivial 1 (.remove 1) rfl) (by decide)

end Apue.JobQueue

import Apue.Lib.Transition
import Mathlib.Data.Int.Notation

/-!
# A call after a timeout (Chapter-12/12-8.c, Chapter-12/12-4.c)

One call of `timeout(when, func, arg)` and the thread it may start, statement by statement. The block of
`struct to_info` belongs to the caller until `makethread` has started the thread, and to the thread from
then on; touching it when it is not there, or freeing it twice, sets `fault`.

The source ends where the call of `func` on the other ways through is missing: a deadline that is not in
the future, and a `malloc` or `makethread` that fails, lead to no call at all (`timeout_once_iff`). No
way through leaks the block. And `SECTONSEC` is a tenth of what it should be, so the thread is given a wrong
time to wait whenever a second has to be borrowed (`to_wait_iff`).
-/

namespace Apue.Timeout
open Transition

structure Timespec where
  sec : ℤ
  nsec : ℤ
  deriving DecidableEq

/-- `SECTONSEC`, as the source has it. -/
def SECTONSEC : ℤ := 100000000

variable {Fn Arg : Type*}

structure ToInfo (Fn Arg : Type*) where
  fn : Fn
  arg : Arg
  wait : Timespec

/-- What a call meets: the arguments, the time, and whether `malloc` and the three calls in `makethread`
succeed. -/
structure Env (Fn Arg : Type*) where
  when : Timespec
  func : Fn
  arg : Arg
  now : Timespec
  malloc : Bool
  attrInit : Bool
  setDetach : Bool
  create : Bool

/-- The test for a deadline in the future. -/
def Env.Later (e : Env Fn Arg) : Prop :=
  e.when.sec > e.now.sec ∨ (e.when.sec = e.now.sec ∧ e.when.nsec > e.now.nsec)

instance (e : Env Fn Arg) : Decidable e.Later := inferInstanceAs (Decidable (_ ∨ _))

/-- `to_wait`. -/
def Env.toWait (e : Env Fn Arg) : Timespec :=
  if e.when.nsec ≥ e.now.nsec then ⟨e.when.sec - e.now.sec, e.when.nsec - e.now.nsec⟩
  else ⟨e.when.sec - e.now.sec - 1, SECTONSEC + (e.when.nsec - e.now.nsec)⟩

def Env.info (e : Env Fn Arg) : ToInfo Fn Arg := ⟨e.func, e.arg, e.toWait⟩

/-- A time that `clock_nanosleep` sleeps for; any other one makes it return at once. -/
def Timespec.Valid (t : Timespec) : Prop := 0 ≤ t.sec ∧ 0 ≤ t.nsec ∧ t.nsec < 1000000000

instance (t : Timespec) : Decidable t.Valid := inferInstanceAs (Decidable (_ ∧ _))

/-- The block of `struct to_info`. -/
inductive Block (Fn Arg : Type*) where
  | unborn
  | live (info : ToInfo Fn Arg)
  | freed

/-- The program points of `timeout` and of `makethread` in it. `err` is whether `makethread` fails. -/
inductive Pc where
  | test
  | malloc
  | attrInit
  | setDetach
  | create
  | destroy (err : Bool)
  | check (err : Bool)
  | free
  | returned
  deriving DecidableEq

/-- The program points of `timeout_helper`. -/
inductive HelperPc where
  | sleep
  | call (slept : Bool)
  | free
  | done
  deriving DecidableEq

/-- A call of `fn`, by the thread or by the caller of `timeout`; whether the thread is detached and has
slept before. -/
structure Call (Fn Arg : Type*) where
  fn : Fn
  arg : Arg
  inHelper : Bool
  detached : Bool
  slept : Bool

structure State (Fn Arg : Type*) where
  pc : Pc
  /-- The thread attribute in `makethread`. -/
  detached : Bool
  /-- How many threads `makethread` started, and where the last one is. -/
  started : ℕ
  helper : Option HelperPc
  block : Block Fn Arg
  calls : List (Call Fn Arg)
  fault : Bool

namespace State

def goto (s : State Fn Arg) (pc : Pc) : State Fn Arg := { s with pc := pc }

def helperTo (s : State Fn Arg) (pc : HelperPc) : State Fn Arg := { s with helper := some pc }

/-- Reading the block. -/
def read (s : State Fn Arg) (k : ToInfo Fn Arg → State Fn Arg) : State Fn Arg :=
  match s.block with
  | .live info => k info
  | _ => { s with fault := true }

end State

/-- The next statement of `timeout`, in its caller. -/
def callerStep (e : Env Fn Arg) (s : State Fn Arg) : Option (State Fn Arg) :=
  match s.pc with
  | .test => some (s.goto (if e.Later then .malloc else .returned))
  | .malloc =>
    some (if e.malloc then { s.goto .attrInit with block := .live e.info } else s.goto .returned)
  | .attrInit => some (s.goto (if e.attrInit then .setDetach else .check true))
  | .setDetach =>
    some (if e.setDetach then { s.goto .create with detached := true } else s.goto (.destroy true))
  | .create =>
    some (if e.create then { s.goto (.destroy false) with started := s.started + 1, helper := some .sleep }
      else s.goto (.destroy true))
  | .destroy err => some (s.goto (.check err))
  | .check err => some (s.goto (if err then .free else .returned))
  | .free => some (s.read fun _ => { s.goto .returned with block := .freed })
  | .returned => none

/-- The next statement of `timeout_helper`, in the thread. -/
def helperStep (s : State Fn Arg) : Option (State Fn Arg) :=
  match s.helper with
  | none => none
  | some .sleep => some (s.read fun info => s.helperTo (.call info.wait.Valid))
  | some (.call slept) =>
    some (s.read fun info =>
      { s.helperTo .free with calls := s.calls ++ [⟨info.fn, info.arg, true, s.detached, slept⟩] })
  | some .free => some (s.read fun _ => { s.helperTo .done with block := .freed })
  | some .done => none

inductive Act where
  | caller
  | helper
  deriving DecidableEq

def step (e : Env Fn Arg) (s : State Fn Arg) : Act → Option (State Fn Arg)
  | .caller => if s.fault then none else callerStep e s
  | .helper => if s.fault then none else helperStep s

def start : State Fn Arg := ⟨.test, false, 0, none, .unborn, [], false⟩

/-- Everything is over. -/
def State.Final (e : Env Fn Arg) (s : State Fn Arg) : Prop := ∀ a, step e s a = none

/-- The block was freed, or there never was one. -/
def State.Released (s : State Fn Arg) : Prop :=
  match s.block with
  | .live _ => False
  | _ => True

/-- Exactly one call of `func(arg)`. When a thread makes it, that thread is the only one, detached, and has
slept before. -/
def State.Once (e : Env Fn Arg) (s : State Fn Arg) : Prop :=
  ∃ c, s.calls = [c] ∧ c.fn = e.func ∧ c.arg = e.arg ∧
    (c.inHelper = true → s.started = 1 ∧ c.detached = true ∧ c.slept = true)

/-! ### The invariant -/

/-- `makethread` succeeds. -/
def Env.Threads (e : Env Fn Arg) : Prop := e.attrInit = true ∧ e.setDetach = true ∧ e.create = true

/-- The call that the thread makes. -/
def Env.call (e : Env Fn Arg) : Call Fn Arg := ⟨e.func, e.arg, true, true, decide e.toWait.Valid⟩

/-- Nothing was started, and the block is as said. -/
structure Alone (s : State Fn Arg) (block : Block Fn Arg) : Prop where
  started : s.started = 0
  helper : s.helper = none
  calls : s.calls = []
  block : s.block = block

/-- The thread has the block, until it has made the call. -/
def Helped (e : Env Fn Arg) (s : State Fn Arg) : Prop :=
  s.started = 1 ∧ s.detached = true ∧ match s.helper with
    | some .sleep => s.block = .live e.info ∧ s.calls = []
    | some (.call slept) => s.block = .live e.info ∧ s.calls = [] ∧ slept = decide e.toWait.Valid
    | some .free => s.block = .live e.info ∧ s.calls = [e.call]
    | some .done => s.block = .freed ∧ s.calls = [e.call]
    | none => False

/-- What holds at each point of `timeout`. -/
def At (e : Env Fn Arg) (s : State Fn Arg) : Pc → Prop
  | .test => Alone s .unborn
  | .malloc => e.Later ∧ Alone s .unborn
  | .attrInit => e.Later ∧ e.malloc = true ∧ Alone s (.live e.info)
  | .setDetach => e.Later ∧ e.malloc = true ∧ e.attrInit = true ∧ Alone s (.live e.info)
  | .create => e.Later ∧ e.malloc = true ∧ e.attrInit = true ∧ e.setDetach = true ∧ s.detached = true ∧
      Alone s (.live e.info)
  | .destroy true | .check true | .free => ¬ e.Threads ∧ Alone s (.live e.info)
  | .destroy false | .check false => (e.Later ∧ e.malloc = true ∧ e.Threads) ∧ Helped e s
  | .returned => (e.Later ∧ e.malloc = true ∧ e.Threads) ∧ Helped e s ∨
      ¬ (e.Later ∧ e.malloc = true ∧ e.Threads) ∧ (Alone s .unborn ∨ Alone s .freed)

structure Inv (e : Env Fn Arg) (s : State Fn Arg) : Prop where
  at_pc : At e s s.pc
  noFault : s.fault = false

variable {e : Env Fn Arg} {s s' : State Fn Arg} {a : Act}

theorem Alone.goto {block : Block Fn Arg} (h : Alone s block) (pc : Pc) : Alone (s.goto pc) block :=
  ⟨h.started, h.helper, h.calls, h.block⟩

theorem callerStep_inv (h : Inv e s) (hs : callerStep e s = some s') : Inv e s' := by
  obtain ⟨hat, hfault⟩ := h
  cases hpc : s.pc with
  | test =>
    rw [hpc] at hat
    simp only [callerStep, hpc, Option.some.injEq] at hs
    subst hs
    by_cases hlater : e.Later
    · rw [if_pos hlater]
      exact ⟨⟨hlater, hat.goto _⟩, hfault⟩
    · rw [if_neg hlater]
      exact ⟨Or.inr ⟨fun h => hlater h.1, Or.inl (hat.goto _)⟩, hfault⟩
  | malloc =>
    rw [hpc] at hat
    obtain ⟨hlater, halone⟩ := hat
    simp only [callerStep, hpc, Option.some.injEq] at hs
    subst hs
    cases hmalloc : e.malloc with
    | true => exact ⟨⟨hlater, hmalloc, halone.started, halone.helper, halone.calls, rfl⟩, hfault⟩
    | false => exact ⟨Or.inr ⟨by simp [hmalloc], Or.inl (halone.goto _)⟩, hfault⟩
  | attrInit =>
    rw [hpc] at hat
    obtain ⟨hlater, hmalloc, halone⟩ := hat
    simp only [callerStep, hpc, Option.some.injEq] at hs
    subst hs
    cases hinit : e.attrInit with
    | true => exact ⟨⟨hlater, hmalloc, hinit, halone.goto _⟩, hfault⟩
    | false => exact ⟨⟨by simp [Env.Threads, hinit], halone.goto _⟩, hfault⟩
  | setDetach =>
    rw [hpc] at hat
    obtain ⟨hlater, hmalloc, hinit, halone⟩ := hat
    simp only [callerStep, hpc, Option.some.injEq] at hs
    subst hs
    cases hdetach : e.setDetach with
    | true =>
      exact ⟨⟨hlater, hmalloc, hinit, hdetach, rfl, halone.started, halone.helper, halone.calls,
        halone.block⟩, hfault⟩
    | false => exact ⟨⟨by simp [Env.Threads, hdetach], halone.goto _⟩, hfault⟩
  | create =>
    rw [hpc] at hat
    obtain ⟨hlater, hmalloc, hinit, hdetach, hdetached, halone⟩ := hat
    simp only [callerStep, hpc, Option.some.injEq] at hs
    subst hs
    cases hcreate : e.create with
    | true =>
      refine ⟨⟨⟨hlater, hmalloc, hinit, hdetach, hcreate⟩, ?_, hdetached, halone.block, halone.calls⟩, hfault⟩
      show s.started + 1 = 1
      rw [halone.started]
    | false => exact ⟨⟨by simp [Env.Threads, hcreate], halone.goto _⟩, hfault⟩
  | destroy err =>
    rw [hpc] at hat
    simp only [callerStep, hpc, Option.some.injEq] at hs
    subst hs
    cases err with
    | true => exact ⟨⟨hat.1, hat.2.goto _⟩, hfault⟩
    | false => exact ⟨hat, hfault⟩
  | check err =>
    rw [hpc] at hat
    simp only [callerStep, hpc, Option.some.injEq] at hs
    subst hs
    cases err with
    | true => exact ⟨⟨hat.1, hat.2.goto _⟩, hfault⟩
    | false => exact ⟨Or.inl hat, hfault⟩
  | free =>
    rw [hpc] at hat
    obtain ⟨hnot, halone⟩ := hat
    simp only [callerStep, hpc, State.read, halone.block, Option.some.injEq] at hs
    subst hs
    exact ⟨Or.inr ⟨fun h => hnot h.2.2, Or.inr ⟨halone.started, halone.helper, halone.calls, rfl⟩⟩, hfault⟩
  | returned => simp [callerStep, hpc] at hs

theorem Alone.helperStep_eq {block : Block Fn Arg} (h : Alone s block) : helperStep s = none := by
  simp only [helperStep, h.helper]

theorem Helped.step (h : Helped e s) (hs : helperStep s = some s') :
    Helped e s' ∧ s'.pc = s.pc ∧ s'.fault = s.fault := by
  obtain ⟨hstarted, hdetached, h⟩ := h
  cases hhelper : s.helper with
  | none => simp [helperStep, hhelper] at hs
  | some pc =>
    rw [hhelper] at h
    cases pc with
    | sleep =>
      simp only [helperStep, hhelper, State.read, h.1, Option.some.injEq] at hs
      subst hs
      exact ⟨⟨hstarted, hdetached, h.1, h.2, rfl⟩, rfl, rfl⟩
    | call slept =>
      obtain ⟨hblock, hcalls, rfl⟩ := h
      simp only [helperStep, hhelper, State.read, hblock, Option.some.injEq] at hs
      subst hs
      refine ⟨⟨hstarted, hdetached, hblock, ?_⟩, rfl, rfl⟩
      show s.calls ++ [⟨e.func, e.arg, true, s.detached, _⟩] = _
      rw [hcalls, hdetached]
      rfl
    | free =>
      simp only [helperStep, hhelper, State.read, h.1, Option.some.injEq] at hs
      subst hs
      exact ⟨⟨hstarted, hdetached, rfl, h.2⟩, rfl, rfl⟩
    | done => simp [helperStep, hhelper] at hs

theorem At.helped {pc : Pc} (hat : At e s pc) (halone : ∀ block, ¬ Alone s block) :
    Helped e s ∧ ∀ s', Helped e s' → At e s' pc := by
  cases pc with
  | test | malloc | attrInit | setDetach | create | free => simp [At, halone] at hat
  | destroy err | check err =>
    cases err with
    | true => exact absurd hat.2 (halone _)
    | false => exact ⟨hat.2, fun _ h => ⟨hat.1, h⟩⟩
  | returned =>
    obtain ⟨hcond, hhelped⟩ | ⟨-, hat | hat⟩ := hat
    · exact ⟨hhelped, fun _ h => Or.inl ⟨hcond, h⟩⟩
    · exact absurd hat (halone _)
    · exact absurd hat (halone _)

theorem helperStep_inv (h : Inv e s) (hs : helperStep s = some s') : Inv e s' := by
  have halone : ∀ block, ¬ Alone s block := by
    intro block halone
    rw [halone.helperStep_eq] at hs
    cases hs
  obtain ⟨hhelped, hat⟩ := h.at_pc.helped halone
  obtain ⟨hhelped', hpc, hfault⟩ := hhelped.step hs
  refine ⟨?_, by rw [hfault, h.noFault]⟩
  rw [hpc]
  exact hat s' hhelped'

theorem step_inv (e : Env Fn Arg) (s : State Fn Arg) (a : Act) (s' : State Fn Arg) (h : Inv e s)
    (hs : step e s a = some s') : Inv e s' := by
  cases a <;> simp only [step, h.noFault, Bool.false_eq_true, if_false] at hs
  · exact callerStep_inv h hs
  · exact helperStep_inv h hs

theorem start_inv (e : Env Fn Arg) : Inv e start := ⟨⟨rfl, rfl, rfl, rfl⟩, rfl⟩

/-! ### Every run -/

theorem Inv.final (h : Inv e s) (hfinal : s.Final e) :
    s.pc = .returned ∧ (s.helper = none ∨ s.helper = some .done) := by
  have hcaller := hfinal .caller
  have hhelper := hfinal .helper
  simp only [step, h.noFault, Bool.false_eq_true, if_false] at hcaller hhelper
  constructor
  · cases hpc : s.pc <;> simp_all [callerStep]
  · cases hpc : s.helper with
    | none => exact Or.inl rfl
    | some pc => cases pc <;> simp_all [helperStep]

/-- What the thread is given to wait is a time in the future, unless the borrow of `SECTONSEC` leaves a
negative number of nanoseconds or there are too many of them. -/
theorem Env.valid_toWait (h : e.Later) :
    e.toWait.Valid ↔ -SECTONSEC ≤ e.when.nsec - e.now.nsec ∧ e.when.nsec - e.now.nsec < 1000000000 := by
  unfold Env.Later at h
  unfold Env.toWait Timespec.Valid SECTONSEC
  split <;> simp only <;> omega

theorem Helped.once_iff (h : Helped e s) (hdone : s.helper = none ∨ s.helper = some .done) :
    s.Released ∧ (s.Once e ↔ e.toWait.Valid) := by
  obtain ⟨hstarted, -, h⟩ := h
  obtain hdone | hdone := hdone <;> rw [hdone] at h
  · exact h.elim
  · obtain ⟨hblock, hcalls⟩ := h
    refine ⟨by simp [State.Released, hblock], ?_⟩
    constructor
    · rintro ⟨c, hc, -, -, hslept⟩
      obtain rfl : e.call = c := List.singleton_inj.mp (hcalls.symm.trans hc)
      exact of_decide_eq_true (hslept rfl).2.2
    · exact fun hvalid => ⟨e.call, hcalls, rfl, rfl, fun _ => ⟨hstarted, rfl, decide_eq_true hvalid⟩⟩

theorem Alone.not_once {block : Block Fn Arg} (h : Alone s block) : ¬ s.Once e := by
  rintro ⟨c, hc, -⟩
  rw [h.calls] at hc
  cases hc

/-- On no way through is the block touched after it was freed, or left over. When everything is over,
`func(arg)` has been called exactly once if and only if the deadline is in the future, `malloc` and
`makethread` succeed, and the nanoseconds come out in range. -/
theorem timeout_once_iff (e : Env Fn Arg) (h : Reaches (step e) start s) :
    s.fault = false ∧ (s.Final e → s.Released ∧ (s.Once e ↔ e.Later ∧ e.malloc = true ∧ e.Threads ∧
      -SECTONSEC ≤ e.when.nsec - e.now.nsec ∧ e.when.nsec - e.now.nsec < 1000000000)) := by
  have hinv : Inv e s := h.invariant (step_inv e) (start_inv e)
  refine ⟨hinv.noFault, fun hfinal => ?_⟩
  obtain ⟨hpc, hdone⟩ := hinv.final hfinal
  have hat := hinv.at_pc
  rw [hpc] at hat
  obtain ⟨⟨hlater, hmalloc, hthreads⟩, hhelped⟩ | ⟨hcond, halone⟩ := hat
  · obtain ⟨hreleased, honce⟩ := hhelped.once_iff hdone
    rw [honce, Env.valid_toWait hlater]
    exact ⟨hreleased, fun hrange => ⟨hlater, hmalloc, hthreads, hrange⟩, fun h => h.2.2.2⟩
  · have hnot : ¬ s.Once e := by
      obtain h | h := halone <;> exact h.not_once
    refine ⟨?_, iff_of_false hnot fun h => hcond ⟨h.1, h.2.1, h.2.2.1⟩⟩
    obtain h | h := halone <;> simp [State.Released, h.block]

/-! ### What the thread is given to wait -/

def Timespec.Normalised (t : Timespec) : Prop := 0 ≤ t.nsec ∧ t.nsec < 1000000000

instance (t : Timespec) : Decidable t.Normalised := inferInstanceAs (Decidable (_ ∧ _))

/-- The time in nanoseconds. -/
def Timespec.total (t : Timespec) : ℤ := t.sec * 1000000000 + t.nsec

theorem Inv.helped (h : Inv e s) {pc : HelperPc} (hhelper : s.helper = some pc) : Helped e s := by
  have halone : ∀ block, ¬ Alone s block := by
    intro block halone
    rw [halone.helper] at hhelper
    cases hhelper
  exact (h.at_pc.helped halone).1

theorem Env.toWait_iff (hwhen : e.when.Normalised) (hnow : e.now.Normalised) (hlater : e.Later) :
    e.toWait.Valid ∧ e.toWait.total = e.when.total - e.now.total ↔ e.now.nsec ≤ e.when.nsec := by
  unfold Env.Later at hlater
  unfold Timespec.Normalised at hwhen hnow
  unfold Timespec.Valid Timespec.total
  by_cases hborrow : e.when.nsec ≥ e.now.nsec
  · rw [Env.toWait, if_pos hborrow]
    simp only
    omega
  · rw [Env.toWait, if_neg hborrow, SECTONSEC]
    simp only
    omega

/-- The time in the block that the thread finds is that from `now` to `when` if and only if the nanoseconds
of `when` are not less than those of `now`. -/
theorem to_wait_iff (hwhen : e.when.Normalised) (hnow : e.now.Normalised) (hlater : e.Later)
    (h : Reaches (step e) start s) (hhelper : s.helper = some .sleep) {info : ToInfo Fn Arg}
    (hblock : s.block = .live info) :
    info.wait.Valid ∧ info.wait.total = e.when.total - e.now.total ↔ e.now.nsec ≤ e.when.nsec := by
  have hinv : Inv e s := h.invariant (step_inv e) (start_inv e)
  obtain ⟨-, -, hhelped⟩ := hinv.helped hhelper
  rw [hhelper] at hhelped
  obtain rfl : e.info = info := Block.live.inj (hhelped.1.symm.trans hblock)
  exact e.toWait_iff hwhen hnow hlater

/-! ### Every run ends -/

/-- The steps still to come in `timeout` and in the thread it may start. -/
def Pc.left : Pc → ℕ
  | .test => 11
  | .malloc => 10
  | .attrInit => 9
  | .setDetach => 8
  | .create => 7
  | .destroy _ => 3
  | .check _ => 2
  | .free => 1
  | .returned => 0

def HelperPc.left : HelperPc → ℕ
  | .sleep => 3
  | .call _ => 2
  | .free => 1
  | .done => 0

def State.left (s : State Fn Arg) : ℕ :=
  if s.fault then 0 else 1 + s.pc.left + s.helper.elim 0 HelperPc.left

theorem State.left_read {k : ToInfo Fn Arg → State Fn Arg} (hs : s.fault = false)
    (hk : ∀ info, (k info).left < s.left) : (s.read k).left < s.left := by
  unfold State.read
  split
  · exact hk _
  · rw [State.left, State.left, if_pos rfl, if_neg (by simp [hs])]
    omega

theorem step_left (e : Env Fn Arg) (s : State Fn Arg) (a : Act) (s' : State Fn Arg)
    (hs : step e s a = some s') : s'.left < s.left := by
  cases hfault : s.fault with
  | true => cases a <;> simp [step, hfault] at hs
  | false =>
    cases a with
    | caller =>
      simp only [step, hfault, Bool.false_eq_true, if_false] at hs
      cases hpc : s.pc <;> simp only [callerStep, hpc, Option.some.injEq, reduceCtorEq] at hs <;> subst hs
      case free =>
        refine State.left_read hfault fun info => ?_
        simp [State.left, State.goto, hfault, hpc, Pc.left]
      case create =>
        split <;> simp [State.left, State.goto, hfault, hpc, Pc.left, HelperPc.left]
        omega
      all_goals first
        | split <;> simp [State.left, State.goto, hfault, hpc, Pc.left]
        | simp [State.left, State.goto, hfault, hpc, Pc.left]
    | helper =>
      simp only [step, hfault, Bool.false_eq_true, if_false] at hs
      cases hhelper : s.helper with
      | none => simp [helperStep, hhelper] at hs
      | some pc =>
        cases pc <;> simp only [helperStep, hhelper, Option.some.injEq, reduceCtorEq] at hs <;> subst hs
        all_goals
          refine State.left_read hfault fun info => ?_
          simp [State.left, State.helperTo, hfault, hhelper, HelperPc.left]

theorem timeout_ends (e : Env Fn Arg) {as : List Act} (hrun : run (step e) start as = some s) :
    as.length ≤ 12 :=
  length_le_of_decreasing (step_left e) hrun

/-! ### Both outcomes -/

/-- Ten seconds from 5.2 s on, and everything succeeds. -/
def inTenSeconds : Env String ℕ :=
  { when := ⟨15, 200000000⟩, func := "retry", arg := 7, now := ⟨5, 200000000⟩, malloc := true,
    attrInit := true, setDetach := true, create := true }

/-- The thread runs before `makethread` has returned. -/
def helperFirst : List Act :=
  List.replicate 5 .caller ++ List.replicate 3 .helper ++ List.replicate 2 .caller

theorem timeout_once_iff_inTenSeconds : ∃ s, run (step inTenSeconds) start helperFirst = some s ∧
    s.Final inTenSeconds ∧ s.fault = false ∧ (s.Final inTenSeconds → s.Released ∧
      (s.Once inTenSeconds ↔ inTenSeconds.Later ∧ inTenSeconds.malloc = true ∧ inTenSeconds.Threads ∧
        -SECTONSEC ≤ inTenSeconds.when.nsec - inTenSeconds.now.nsec ∧
        inTenSeconds.when.nsec - inTenSeconds.now.nsec < 1000000000)) :=
  ⟨_, rfl, fun a => by cases a <;> rfl, timeout_once_iff inTenSeconds ⟨helperFirst, rfl⟩⟩

theorem to_wait_iff_inTenSeconds : ∃ s info, run (step inTenSeconds) start (List.replicate 5 .caller) = some s ∧
    s.block = .live info ∧ (info.wait.Valid ∧
      info.wait.total = inTenSeconds.when.total - inTenSeconds.now.total ↔
        inTenSeconds.now.nsec ≤ inTenSeconds.when.nsec) :=
  ⟨_, _, rfl, rfl, to_wait_iff (by decide) (by decide) (by decide) ⟨List.replicate 5 .caller, rfl⟩ rfl rfl⟩

/-- From 5.9 s to 7.1 s. -/
def borrowed : Env String ℕ := { inTenSeconds with when := ⟨7, 100000000⟩, now := ⟨5, 900000000⟩ }

/-- The thread is to wait for 1 s less 0.7 s, which is no time that can be slept. -/
theorem to_wait_misses_borrow : borrowed.when.Normalised ∧ borrowed.now.Normalised ∧ borrowed.Later ∧
    ∃ s info, run (step borrowed) start (List.replicate 5 .caller) = some s ∧ s.helper = some .sleep ∧
      s.block = .live info ∧ info.wait = ⟨1, -700000000⟩ ∧
      ¬ (info.wait.Valid ∧ info.wait.total = borrowed.when.total - borrowed.now.total) :=
  ⟨by decide, by decide, by decide, _, _, rfl, rfl, rfl, rfl, by decide⟩

/-- A deadline that is already over. -/
def overdue : Env String ℕ := { inTenSeconds with when := ⟨5, 100000000⟩ }

/-- `timeout` returns, and nobody has called or will call `func`. -/
theorem timeout_drops_call : ∃ s, run (step overdue) start [.caller] = some s ∧
    s.Final overdue ∧ s.calls = [] ∧ ¬ s.Once overdue := by
  refine ⟨_, rfl, fun a => by cases a <;> rfl, rfl, ?_⟩
  rintro ⟨c, hc, -⟩
  cases hc

end Apue.Timeout

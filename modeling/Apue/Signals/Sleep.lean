import Apue.Lib.Signals
import Apue.Lib.Transition

/-!
# `mysleep3` (Chapter-10/10-29.c)

One call, statement by statement; between any two of them a second may pass, a caught signal may come and a
signal may be delivered. `ours` follows the alarm that the call has set.

`SIGALRM` is blocked before the alarm is set, so its signal waits for `sigsuspend` (`Inv.ours`) and the process
cannot sleep for ever (`Inv.awake`). The mask is put back and the alarm is cancelled, but `oldact` is never
used: `mysleep3_iff`.
-/

namespace Apue.Sleep
open Signals Transition

def SIGALRM : ℕ := 14

/-- The statements of `mysleep3`. Between `sigsuspend` and `cancel` it is `waiting` for a signal, then `woken`
by one. -/
inductive Pc where
  | sigaction
  | block
  | alarm
  | sigdelset
  | sigsuspend
  | waiting
  | woken
  | cancel
  | restore
  | returned
  deriving DecidableEq

/-- The alarm of the call: not there, scheduled, its signal pending, its signal delivered. -/
inductive Alarm where
  | none
  | scheduled
  | expired
  | consumed
  deriving DecidableEq

structure State (H : Type*) where
  pc : Pc
  process : Process H
  /-- The seconds left, when an alarm is scheduled. -/
  alarm : Option ℕ
  oldact : Sigaction H
  oldmask : Finset ℕ
  susmask : Finset ℕ
  /-- The mask that `sigsuspend` puts back. -/
  saved : Finset ℕ
  unslept : ℕ
  ours : Alarm

inductive Act where
  | move
  /-- A second passes. -/
  | tick
  /-- A signal comes that is caught. -/
  | raise (sig : ℕ)
  | deliver (sig : ℕ)
  deriving DecidableEq

variable {H : Type*} (sig_alrm : H) (seconds : ℕ)

def newact : Sigaction H := ⟨.fn sig_alrm, ∅, 0⟩

namespace State

/-- The next statement. -/
def move (s : State H) : Option (State H) :=
  match s.pc with
  | .sigaction =>
    some { s with
      pc := .block
      oldact := s.process.disp SIGALRM
      process := s.process.sigaction SIGALRM (newact sig_alrm) }
  | .block => some { s with pc := .alarm, oldmask := s.process.mask, process := s.process.block {SIGALRM} }
  | .alarm =>
    some { s with
      pc := .sigdelset
      alarm := if seconds = 0 then none else some seconds
      ours := if seconds = 0 then .none else .scheduled }
  | .sigdelset => some { s with pc := .sigsuspend, susmask := s.oldmask.erase SIGALRM }
  | .sigsuspend =>
    some { s with pc := .waiting, saved := s.process.mask, process := s.process.setMask s.susmask }
  | .waiting => none
  | .woken => some { s with pc := .cancel, process := s.process.setMask s.saved }
  | .cancel =>
    some { s with
      pc := .restore
      unslept := s.alarm.getD 0
      alarm := none
      ours := if s.ours = .scheduled then .none else s.ours }
  | .restore => some { s with pc := .returned, process := s.process.setMask s.oldmask }
  | .returned => none

/-- At the end of the last second the signal comes. -/
def tick (s : State H) : Option (State H) :=
  match s.alarm with
  | none => none
  | some (n + 2) => some { s with alarm := some (n + 1) }
  | some _ =>
    some { s with
      alarm := none
      process := s.process.raise SIGALRM
      ours := if s.ours = .scheduled then .expired else s.ours }

def raise (s : State H) (sig : ℕ) : Option (State H) :=
  if s.process.Caught sig then some { s with process := s.process.raise sig } else none

/-- The handler runs and returns. -/
def deliver (s : State H) (sig : ℕ) : Option (State H) :=
  if s.process.Deliverable sig then
    some { s with
      process := s.process.deliver sig
      ours := if sig = SIGALRM ∧ s.ours = .expired then .consumed else s.ours
      pc := if s.pc = .waiting then .woken else s.pc }
  else none

/-- `mysleep3` is called. -/
def entry (p : Process H) (alarm : Option ℕ) : State H := ⟨.sigaction, p, alarm, p.disp 0, ∅, ∅, ∅, 0, .none⟩

end State

def step (s : State H) : Act → Option (State H)
  | .move => s.move sig_alrm seconds
  | .tick => s.tick
  | .raise sig => s.raise sig
  | .deliver sig => s.deliver sig

/-- A call that was entered in the state `p` of the process. -/
structure Right (p : Process H) (s : State H) : Prop where
  notMissed : s.pc = .sigsuspend → s.ours ≠ .consumed
  disp : s.pc = .returned → s.process.disp SIGALRM = p.disp SIGALRM
  mask : s.pc = .returned → s.process.mask = p.mask
  alarm : s.pc = .returned → s.alarm = none
  unslept : s.pc = .returned → s.unslept ≤ seconds

/-! ### The invariant -/

namespace Pc

/-- The mask at a program point, when it was `mask` at the entry. -/
@[simp] def mask (mask : Finset ℕ) : Pc → Finset ℕ
  | .sigaction | .block | .returned => mask
  | .waiting | .woken => mask.erase SIGALRM
  | _ => mask ∪ {SIGALRM}

/-- Before `alarm(seconds)`. -/
@[simp] def Early : Pc → Prop
  | .sigaction | .block | .alarm => True
  | _ => False

/-- `alarm(seconds)` has been called and no signal has come to `sigsuspend`. -/
@[simp] def Asleep : Pc → Prop
  | .sigdelset | .sigsuspend | .waiting => True
  | _ => False

/-- `alarm(seconds)` has been called, `alarm(0)` has not. -/
@[simp] def Armed : Pc → Prop
  | .sigdelset | .sigsuspend | .waiting | .woken | .cancel => True
  | _ => False

/-- `alarm(0)` has been called. -/
@[simp] def Late : Pc → Prop
  | .restore | .returned => True
  | _ => False

end Pc

/-- Of a call entered in the state `p` of the process. -/
structure Inv (sig_alrm : H) (seconds : ℕ) (p : Process H) (s : State H) : Prop where
  disp : s.pc ≠ .sigaction → s.process.disp SIGALRM = newact sig_alrm
  mask : s.process.mask = s.pc.mask p.mask
  oldmask : s.pc ≠ .sigaction → s.pc ≠ .block → s.oldmask = p.mask
  susmask : s.pc = .sigsuspend → s.susmask = p.mask.erase SIGALRM
  saved : s.pc = .waiting ∨ s.pc = .woken → s.saved = p.mask ∪ {SIGALRM}
  early : s.pc.Early → s.ours = .none
  /-- The signal of the alarm is not delivered in front of `sigsuspend`, nor without an end to it. -/
  ours : s.pc.Asleep → s.ours ≠ .consumed
  awake : s.pc.Asleep → 0 < seconds → s.alarm.isSome ∨ SIGALRM ∈ s.process.pending
  armed : s.pc.Armed → s.alarm.getD 0 ≤ seconds
  late : s.pc.Late → s.alarm = none ∧ s.unslept ≤ seconds

variable {sig_alrm seconds} {p : Process H} {s t : State H}

theorem inv_entry (p : Process H) (alarm : Option ℕ) : Inv sig_alrm seconds p (.entry p alarm) where
  disp := fun h => absurd rfl h
  mask := rfl
  oldmask := fun h => absurd rfl h
  susmask := fun h => nomatch h
  saved := fun h => by simp [State.entry] at h
  early := fun _ => rfl
  ours := fun h => h.elim
  awake := fun h => h.elim
  armed := fun h => h.elim
  late := fun h => h.elim

namespace Inv

theorem blocked (h : Inv sig_alrm seconds p s) (hpc : s.pc.Asleep) (hwaiting : s.pc ≠ .waiting) :
    SIGALRM ∈ s.process.mask := by
  rw [h.mask]
  cases hs : s.pc <;> simp_all [Pc.Asleep, Pc.mask]

/-! One statement each. -/

section statements
variable (h : Inv sig_alrm seconds p s) (hs : s.move sig_alrm seconds = some t)
include h hs

theorem sigaction (hpc : s.pc = .sigaction) : Inv sig_alrm seconds p t := by
  have hmask := h.mask
  unfold State.move at hs
  rw [hpc] at hs hmask
  obtain rfl := Option.some.inj hs
  exact
    { disp := fun _ => Process.disp_sigaction_self _
      mask := hmask
      oldmask := fun _ hblock => absurd rfl hblock
      susmask := nofun
      saved := fun hsaved => hsaved.elim nofun nofun
      early := fun _ => h.early (by rw [hpc]; trivial)
      ours := False.elim
      awake := False.elim
      armed := False.elim
      late := False.elim }

theorem block (hpc : s.pc = .block) : Inv sig_alrm seconds p t := by
  have hmask := h.mask
  unfold State.move at hs
  rw [hpc] at hs hmask
  obtain rfl := Option.some.inj hs
  exact
    { disp := fun _ => h.disp (by rw [hpc]; decide)
      mask := by rw [Process.mask_block, hmask]; rfl
      oldmask := fun _ _ => hmask
      susmask := nofun
      saved := fun hsaved => hsaved.elim nofun nofun
      early := fun _ => h.early (by rw [hpc]; trivial)
      ours := False.elim
      awake := False.elim
      armed := False.elim
      late := False.elim }

theorem alarm (hpc : s.pc = .alarm) : Inv sig_alrm seconds p t := by
  have hmask := h.mask
  unfold State.move at hs
  rw [hpc] at hs hmask
  obtain rfl := Option.some.inj hs
  exact
    { disp := fun _ => h.disp (by rw [hpc]; decide)
      mask := hmask
      oldmask := fun _ _ => h.oldmask (by rw [hpc]; decide) (by rw [hpc]; decide)
      susmask := nofun
      saved := fun hsaved => hsaved.elim nofun nofun
      early := False.elim
      ours := fun _ => by dsimp only; split <;> decide
      awake := fun _ hpos => .inl (by rw [if_neg hpos.ne']; rfl)
      armed := fun _ => by dsimp only; split <;> simp
      late := False.elim }

theorem sigdelset (hpc : s.pc = .sigdelset) : Inv sig_alrm seconds p t := by
  have hmask := h.mask
  unfold State.move at hs
  rw [hpc] at hs hmask
  obtain rfl := Option.some.inj hs
  have hasleep : s.pc.Asleep := by rw [hpc]; trivial
  have holdmask : s.oldmask = p.mask := h.oldmask (by rw [hpc]; decide) (by rw [hpc]; decide)
  exact
    { disp := fun _ => h.disp (by rw [hpc]; decide)
      mask := hmask
      oldmask := fun _ _ => holdmask
      susmask := fun _ => congrArg (Finset.erase · SIGALRM) holdmask
      saved := fun hsaved => hsaved.elim nofun nofun
      early := False.elim
      ours := fun _ => h.ours hasleep
      awake := fun _ => h.awake hasleep
      armed := fun _ => h.armed (by rw [hpc]; trivial)
      late := False.elim }

theorem sigsuspend (hpc : s.pc = .sigsuspend) : Inv sig_alrm seconds p t := by
  have hmask := h.mask
  unfold State.move at hs
  rw [hpc] at hs hmask
  obtain rfl := Option.some.inj hs
  have hasleep : s.pc.Asleep := by rw [hpc]; trivial
  exact
    { disp := fun _ => h.disp (by rw [hpc]; decide)
      mask := h.susmask hpc
      oldmask := fun _ _ => h.oldmask (by rw [hpc]; decide) (by rw [hpc]; decide)
      susmask := nofun
      saved := fun _ => hmask
      early := False.elim
      ours := fun _ => h.ours hasleep
      awake := fun _ => h.awake hasleep
      armed := fun _ => h.armed (by rw [hpc]; trivial)
      late := False.elim }

theorem woken (hpc : s.pc = .woken) : Inv sig_alrm seconds p t := by
  unfold State.move at hs
  rw [hpc] at hs
  obtain rfl := Option.some.inj hs
  exact
    { disp := fun _ => h.disp (by rw [hpc]; decide)
      mask := h.saved (.inr hpc)
      oldmask := fun _ _ => h.oldmask (by rw [hpc]; decide) (by rw [hpc]; decide)
      susmask := nofun
      saved := fun hsaved => hsaved.elim nofun nofun
      early := False.elim
      ours := False.elim
      awake := False.elim
      armed := fun _ => h.armed (by rw [hpc]; trivial)
      late := False.elim }

theorem cancel (hpc : s.pc = .cancel) : Inv sig_alrm seconds p t := by
  have hmask := h.mask
  unfold State.move at hs
  rw [hpc] at hs hmask
  obtain rfl := Option.some.inj hs
  exact
    { disp := fun _ => h.disp (by rw [hpc]; decide)
      mask := hmask
      oldmask := fun _ _ => h.oldmask (by rw [hpc]; decide) (by rw [hpc]; decide)
      susmask := nofun
      saved := fun hsaved => hsaved.elim nofun nofun
      early := False.elim
      ours := False.elim
      awake := False.elim
      armed := False.elim
      late := fun _ => ⟨rfl, h.armed (by rw [hpc]; trivial)⟩ }

theorem restore (hpc : s.pc = .restore) : Inv sig_alrm seconds p t := by
  unfold State.move at hs
  rw [hpc] at hs
  obtain rfl := Option.some.inj hs
  exact
    { disp := fun _ => h.disp (by rw [hpc]; decide)
      mask := h.oldmask (by rw [hpc]; decide) (by rw [hpc]; decide)
      oldmask := fun _ _ => h.oldmask (by rw [hpc]; decide) (by rw [hpc]; decide)
      susmask := nofun
      saved := fun hsaved => hsaved.elim nofun nofun
      early := False.elim
      ours := False.elim
      awake := False.elim
      armed := False.elim
      late := fun _ => h.late (by rw [hpc]; trivial) }

theorem move : Inv sig_alrm seconds p t := by
  cases hpc : s.pc with
  | sigaction => exact h.sigaction hs hpc
  | block => exact h.block hs hpc
  | alarm => exact h.alarm hs hpc
  | sigdelset => exact h.sigdelset hs hpc
  | sigsuspend => exact h.sigsuspend hs hpc
  | waiting => exact absurd hs (by simp [State.move, hpc])
  | woken => exact h.woken hs hpc
  | cancel => exact h.cancel hs hpc
  | restore => exact h.restore hs hpc
  | returned => exact absurd hs (by simp [State.move, hpc])

end statements

theorem tick (h : Inv sig_alrm seconds p s) (hs : s.tick = some t) : Inv sig_alrm seconds p t := by
  unfold State.tick at hs
  split at hs
  · cases hs
  · rename_i n halarm
    obtain rfl := Option.some.inj hs
    exact { h with
      awake := fun _ _ => .inl rfl
      armed := fun hpc => by
        have hle := h.armed hpc
        rw [halarm, Option.getD_some] at hle
        exact (Nat.le_succ _).trans hle
      late := fun hpc => absurd ((h.late hpc).1.symm.trans halarm) (by simp) }
  · rename_i n hn halarm
    obtain rfl := Option.some.inj hs
    exact { h with
      disp := fun hpc => by rw [Process.disp_raise, h.disp hpc]
      mask := by rw [Process.mask_raise, h.mask]
      early := fun hpc => by rw [h.early hpc]; rfl
      ours := fun hpc => by
        have hours := h.ours hpc
        split <;> simp_all
      awake := fun hpc _ => by
        have hcaught : s.process.Caught SIGALRM := ⟨sig_alrm, by rw [h.disp (by rintro hs; simp [hs] at hpc)]; rfl⟩
        exact .inr hcaught.pending_raise
      armed := fun _ => Nat.zero_le _
      late := fun hpc => ⟨rfl, (h.late hpc).2⟩ }

theorem raise {sig : ℕ} (h : Inv sig_alrm seconds p s) (hs : s.raise sig = some t) :
    Inv sig_alrm seconds p t := by
  unfold State.raise at hs
  split at hs
  · obtain rfl := Option.some.inj hs
    exact { h with
      disp := fun hpc => by rw [Process.disp_raise, h.disp hpc]
      mask := by rw [Process.mask_raise, h.mask]
      awake := fun hpc hpos => (h.awake hpc hpos).imp_right (Process.pending_raise _) }
  · cases hs

theorem deliver {sig : ℕ} (h : Inv sig_alrm seconds p s) (hs : s.deliver sig = some t) :
    Inv sig_alrm seconds p t := by
  unfold State.deliver at hs
  split at hs
  swap
  · cases hs
  rename_i hdeliverable
  obtain rfl := Option.some.inj hs
  by_cases hpc : s.pc = .waiting
  · have hmask := h.mask
    rw [hpc] at hmask
    rw [if_pos hpc]
    exact
      { disp := fun _ => h.disp (by rw [hpc]; decide)
        mask := hmask
        oldmask := fun _ _ => h.oldmask (by rw [hpc]; decide) (by rw [hpc]; decide)
        susmask := nofun
        saved := fun _ => h.saved (.inl hpc)
        early := False.elim
        ours := False.elim
        awake := False.elim
        armed := fun _ => h.armed (by rw [hpc]; trivial)
        late := False.elim }
  · have hne : s.pc.Asleep → SIGALRM ≠ sig := by
      rintro hasleep rfl
      exact hdeliverable.2.1 (h.blocked hasleep hpc)
    simp only [hpc, if_false]
    exact { h with
      early := fun hearly => by simp [h.early hearly]
      ours := fun hasleep => by
        rw [if_neg (fun hsig => hne hasleep hsig.1.symm)]
        exact h.ours hasleep
      awake := fun hasleep hpos => (h.awake hasleep hpos).imp_right fun hmem =>
        Process.pending_deliver _ hmem (hne hasleep) }

theorem step {a : Act} (h : Inv sig_alrm seconds p s) (hs : step sig_alrm seconds s a = some t) :
    Inv sig_alrm seconds p t := by
  cases a with
  | move => exact h.move hs
  | tick => exact h.tick hs
  | raise sig => exact h.raise hs
  | deliver sig => exact h.deliver hs

end Inv

theorem inv_reaches {alarm : Option ℕ} (h : Reaches (step sig_alrm seconds) (.entry p alarm) s) :
    Inv sig_alrm seconds p s :=
  h.invariant (fun _ _ _ hs => hs.step) (inv_entry p alarm)

theorem awake_reaches {alarm : Option ℕ} (h : Reaches (step sig_alrm seconds) (.entry p alarm) s)
    (hpos : 0 < seconds) (hpc : s.pc = .waiting) : s.alarm.isSome ∨ s.process.Deliverable SIGALRM := by
  have hs := inv_reaches h
  have hasleep : s.pc.Asleep := by rw [hpc]; trivial
  refine (hs.awake hasleep hpos).imp_right fun hpending => ⟨hpending, ?_, sig_alrm, ?_⟩
  · rw [hs.mask, hpc]
    exact Finset.notMem_erase SIGALRM p.mask
  · rw [hs.disp (by rw [hpc]; decide)]
    rfl

/-- When a call has done what it should. -/
theorem mysleep3_iff (sig_alrm : H) (seconds : ℕ) (p : Process H) (alarm : Option ℕ) {s : State H}
    (h : Reaches (step sig_alrm seconds) (.entry p alarm) s) :
    Right seconds p s ↔ (s.pc = .returned → p.disp SIGALRM = newact sig_alrm) := by
  have hs := inv_reaches h
  have hdisp (hpc : s.pc = .returned) : s.process.disp SIGALRM = newact sig_alrm :=
    hs.disp (by rw [hpc]; decide)
  have hlate (hpc : s.pc = .returned) : s.alarm = none ∧ s.unslept ≤ seconds := hs.late (by rw [hpc]; trivial)
  constructor
  · intro hright hpc
    exact (hright.disp hpc).symm.trans (hdisp hpc)
  · intro hentry
    exact
      { notMissed := fun hpc => hs.ours (by rw [hpc]; trivial)
        disp := fun hpc => (hdisp hpc).trans (hentry hpc).symm
        mask := fun hpc => by rw [hs.mask, hpc]; rfl
        alarm := fun hpc => (hlate hpc).1
        unslept := fun hpc => (hlate hpc).2 }

/-- Every signal goes to `sig_alrm`; another signal ends the wait after one of two seconds. -/
theorem mysleep3_iff_oneSlept : ∃ s : State Unit,
    s.pc = .returned ∧ s.unslept = 1 ∧ Right 2 ⟨fun _ => newact (), ∅, ∅⟩ s := by
  have hrun : Reaches (step () 2) (.entry ⟨fun _ => newact (), ∅, ∅⟩ none) _ :=
    ⟨[.move, .move, .move, .move, .move, .tick, .raise 10, .deliver 10, .move, .move, .move], rfl⟩
  exact ⟨_, rfl, rfl, (mysleep3_iff () 2 ⟨fun _ => newact (), ∅, ∅⟩ none hrun).2 fun _ => rfl⟩

/-- The default disposition is not put back. -/
theorem mysleep3_keeps_sigalrm : ∃ s : State Unit,
    Reaches (step () 1) (.entry ⟨fun _ => ⟨.dfl, ∅, 0⟩, ∅, ∅⟩ none) s ∧ s.pc = .returned ∧
      ¬ Right 1 ⟨fun _ => ⟨.dfl, ∅, 0⟩, ∅, ∅⟩ s := by
  refine ⟨_, ⟨[.move, .move, .move, .move, .move, .tick, .deliver SIGALRM, .move, .move, .move], rfl⟩, rfl, ?_⟩
  intro h
  cases h.disp rfl

end Apue.Sleep

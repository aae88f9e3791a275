import Apue.Lib.Awaits
import Apue.Lib.Signals
import Mathlib.Data.Finset.Card
import Mathlib.Data.Prod.Lex

/-!
# Waiting for `SIGQUIT` (Chapter-10/10-23.c)

The program statement by statement; between any two of them signals may come and be delivered, any number of them
and of any kind. `came` follows whether there has been a `SIGQUIT`.

`SIGQUIT` is blocked while `quitflag` is looked at, so it cannot come between the test and `sigsuspend`
(`Core.asleep`): `quit_run`.
-/

namespace Apue.Quit
open Signals Transition

def SIGINT : ℕ := 2
def SIGQUIT : ℕ := 3

/-- The default action does not end the process: it is ignored, or stops or continues it. -/
def Mild (sig : ℕ) : Prop := sig ∈ ([17, 18, 19, 20, 21, 22, 23, 28] : List ℕ)

instance (sig : ℕ) : Decidable (Mild sig) := inferInstanceAs (Decidable (sig ∈ _))

/-- The statements of `main`. In `sigsuspend` it is `waiting` for a signal, then `woken` by one. -/
inductive Pc where
  | signalInt
  | signalQuit
  | block
  | test
  | sigsuspend
  | waiting
  | woken
  | clear
  | restore
  | exit
  | exited
  | failed
  | killed
  deriving DecidableEq

/-- `lines` is how often `sig_int` has written `interrupt`; `saved` is the mask that `sigsuspend` puts back. -/
structure State where
  pc : Pc
  process : Process Unit
  quitflag : Bool
  oldmask : Finset ℕ
  saved : Finset ℕ
  lines : ℕ
  came : Bool

inductive Act where
  | move
  /-- The system call fails, and `err_sys` ends the process. -/
  | fail
  | raise (sig : ℕ)
  | deliver (sig : ℕ)
  deriving DecidableEq

def newact : Sigaction Unit := ⟨.fn (), ∅, 0⟩

namespace Pc

/-- The process is gone. -/
def Ended (pc : Pc) : Prop := pc = .exited ∨ pc = .failed ∨ pc = .killed

/-- `main` is behind the loop. -/
def Passed : Pc → Prop
  | .clear | .restore | .exit | .exited => True
  | _ => False

/-- `SIGQUIT` has no handler yet. -/
def Early : Pc → Prop
  | .signalInt | .signalQuit => True
  | _ => False

/-- The mask at a program point, when it was `mask` in the beginning. -/
def mask (mask : Finset ℕ) : Pc → Finset ℕ
  | .test | .sigsuspend | .clear | .restore => mask ∪ {SIGQUIT}
  | .waiting | .woken => ∅
  | _ => mask

instance (pc : Pc) : Decidable pc.Ended := inferInstanceAs (Decidable (_ ∨ _ ∨ _))

end Pc

namespace State

/-- The next statement. -/
def move (s : State) : Option State :=
  match s.pc with
  | .signalInt => some { s with pc := .signalQuit, process := s.process.sigaction SIGINT newact }
  | .signalQuit => some { s with pc := .block, process := s.process.sigaction SIGQUIT newact }
  | .block => some { s with pc := .test, oldmask := s.process.mask, process := s.process.block {SIGQUIT} }
  | .test => some { s with pc := if s.quitflag = false then .sigsuspend else .clear }
  | .sigsuspend => some { s with pc := .waiting, saved := s.process.mask, process := s.process.setMask ∅ }
  | .waiting => none
  | .woken => some { s with pc := .test, process := s.process.setMask s.saved }
  | .clear => some { s with pc := .restore, quitflag := false }
  | .restore => some { s with pc := .exit, process := s.process.setMask s.oldmask }
  | .exit => some { s with pc := .exited }
  | .exited | .failed | .killed => none

def fail (s : State) : Option State :=
  match s.pc with
  | .signalInt | .signalQuit | .block | .restore => some { s with pc := .failed }
  | _ => none

/-- A signal comes. -/
def raise (s : State) (sig : ℕ) : Option State :=
  if s.pc.Ended then none
  else
    let process := s.process.raise sig
    some { s with process, came := s.came || decide (sig = SIGQUIT ∧ SIGQUIT ∈ process.pending) }

/-- The handler. -/
def sig_int (s : State) (signo : ℕ) : State :=
  if signo = SIGINT then { s with lines := s.lines + 1 }
  else if signo = SIGQUIT then { s with quitflag := true }
  else s

/-- What happens to a signal that is pending and not blocked. A handler that returns ends `sigsuspend`. -/
def deliver (s : State) (sig : ℕ) : Option State :=
  if s.pc.Ended ∨ sig ∉ s.process.pending ∨ sig ∈ s.process.mask then none
  else
    let s := { s with process := s.process.deliver sig }
    match (s.process.disp sig).handler with
    | .fn () => some { s.sig_int sig with pc := if s.pc = .waiting then .woken else s.pc }
    | .ign => some s
    | .dfl => if Mild sig then some s else some { s with pc := .killed }

/-- `main` is called. -/
def entry (p : Process Unit) : State := ⟨.signalInt, p, false, ∅, ∅, 0, decide (SIGQUIT ∈ p.pending)⟩

end State

def step (s : State) : Act → Option State
  | .move => s.move
  | .fail => s.fail
  | .raise sig => s.raise sig
  | .deliver sig => s.deliver sig

/-- What happens without a new signal. -/
def Act.Quiet : Act → Prop
  | .move | .fail | .deliver _ => True
  | .raise _ => False

/-- A run that began in the state `p` of the process. -/
structure Right (p : Process Unit) (s : State) : Prop where
  /-- It does not sleep when `quitflag` is set. -/
  asleep : s.pc = .waiting → s.quitflag = false
  /-- The signal is still blocked behind the loop. -/
  blocked : s.pc = .clear ∨ s.pc = .restore → SIGQUIT ∈ s.process.mask
  cleared : s.pc = .restore → s.quitflag = false
  mask : s.pc = .exit ∨ s.pc = .exited → s.process.mask = p.mask

/-! ### The invariant -/

/-- What holds as long as no call has failed and no signal has killed the process. -/
structure Core (p : Process Unit) (s : State) : Prop where
  mask : s.process.mask = s.pc.mask p.mask
  oldmask : ¬ s.pc.Early → s.pc ≠ .block → s.oldmask = p.mask
  saved : s.pc = .waiting ∨ s.pc = .woken → s.saved = p.mask ∪ {SIGQUIT}
  caught : ¬ s.pc.Early → s.process.disp SIGQUIT = newact
  asleep : s.pc = .sigsuspend ∨ s.pc = .waiting → s.quitflag = false
  came : s.came = true → SIGQUIT ∈ s.process.pending ∨ s.quitflag = true ∨ s.pc.Passed
  cleared : s.pc = .restore → s.quitflag = false

/-- What is known of `SIGQUIT` in any case. -/
structure Told (s : State) : Prop where
  /-- An ignored signal is not pending. -/
  ign : (s.process.disp SIGQUIT).handler = .ign → SIGQUIT ∉ s.process.pending
  pending : SIGQUIT ∈ s.process.pending → s.came = true
  flag : s.quitflag = true → s.came = true
  passed : s.pc.Passed → s.came = true

structure Inv (p : Process Unit) (s : State) : Prop where
  core : s.pc = .failed ∨ s.pc = .killed ∨ Core p s
  told : Told s

variable {p : Process Unit} {s t : State}

theorem entry_inv (hign : (p.disp SIGQUIT).handler = .ign → SIGQUIT ∉ p.pending) : Inv p (.entry p) where
  core := .inr (.inr
    { mask := rfl
      oldmask := fun h => absurd trivial h
      saved := fun h => h.elim nofun nofun
      caught := fun h => absurd trivial h
      asleep := fun h => h.elim nofun nofun
      came := fun h => .inl (of_decide_eq_true h)
      cleared := nofun })
  told :=
    { ign := hign
      pending := fun h => decide_eq_true h
      flag := nofun
      passed := False.elim }

theorem deliver_cases {sig : ℕ} (hs : s.deliver sig = some t) :
    ¬ s.pc.Ended ∧ sig ∈ s.process.pending ∧ sig ∉ s.process.mask ∧
      let u : State := { s with process := s.process.deliver sig }
      ((s.process.disp sig).handler = .fn () ∧
          t = { u.sig_int sig with pc := if s.pc = .waiting then .woken else s.pc } ∨
        ((s.process.disp sig).handler = .ign ∨ (s.process.disp sig).handler = .dfl ∧ Mild sig) ∧ t = u ∨
        ((s.process.disp sig).handler = .dfl ∧ ¬ Mild sig) ∧ t = { u with pc := .killed }) := by
  unfold State.deliver at hs
  split at hs
  · cases hs
  rename_i hguard
  obtain ⟨hpc, hmem, hmask⟩ : ¬ s.pc.Ended ∧ sig ∈ s.process.pending ∧ sig ∉ s.process.mask := by
    simpa only [not_or, not_not] using hguard
  refine ⟨hpc, hmem, hmask, ?_⟩
  cases hhandler : (s.process.disp sig).handler with
  | fn h =>
    simp only [Process.disp_deliver, hhandler] at hs
    exact .inl ⟨rfl, (Option.some.inj hs).symm⟩
  | ign =>
    simp only [Process.disp_deliver, hhandler] at hs
    exact .inr (.inl ⟨.inl rfl, (Option.some.inj hs).symm⟩)
  | dfl =>
    simp only [Process.disp_deliver, hhandler] at hs
    split at hs
    · rename_i hmild
      exact .inr (.inl ⟨.inr ⟨rfl, hmild⟩, (Option.some.inj hs).symm⟩)
    · rename_i hmild
      exact .inr (.inr ⟨⟨rfl, hmild⟩, (Option.some.inj hs).symm⟩)

/-! One statement each. -/

namespace Core

section statements
variable (h : Core p s) (hs : s.move = some t)
include h hs

theorem signalInt (hpc : s.pc = .signalInt) : Core p t := by
  have hmask := h.mask
  have hcame := h.came
  unfold State.move at hs
  rw [hpc] at hs hmask hcame
  obtain rfl := Option.some.inj hs
  exact
    { mask := hmask
      oldmask := fun hearly => absurd trivial hearly
      saved := fun hsaved => hsaved.elim nofun nofun
      caught := fun hearly => absurd trivial hearly
      asleep := fun hasleep => hasleep.elim nofun nofun
      came := hcame
      cleared := nofun }

theorem signalQuit (hpc : s.pc = .signalQuit) : Core p t := by
  have hmask := h.mask
  have hcame := h.came
  unfold State.move at hs
  rw [hpc] at hs hmask hcame
  obtain rfl := Option.some.inj hs
  exact
    { mask := hmask
      oldmask := fun _ hblock => absurd rfl hblock
      saved := fun hsaved => hsaved.elim nofun nofun
      caught := fun _ => Process.disp_sigaction_self _
      asleep := fun hasleep => hasleep.elim nofun nofun
      came := hcame
      cleared := nofun }

theorem block (hpc : s.pc = .block) : Core p t := by
  have hmask := h.mask
  have hcame := h.came
  have hcaught := h.caught (by rw [hpc]; exact id)
  unfold State.move at hs
  rw [hpc] at hs hmask hcame
  obtain rfl := Option.some.inj hs
  exact
    { mask := by rw [Process.mask_block, hmask]; rfl
      oldmask := fun _ _ => hmask
      saved := fun hsaved => hsaved.elim nofun nofun
      caught := fun _ => hcaught
      asleep := fun hasleep => hasleep.elim nofun nofun
      came := hcame
      cleared := nofun }

theorem test (hpc : s.pc = .test) : Core p t := by
  have hmask := h.mask
  have hcame := h.came
  have hcaught := h.caught (by rw [hpc]; exact id)
  have holdmask := h.oldmask (by rw [hpc]; exact id) (by rw [hpc]; decide)
  unfold State.move at hs
  rw [hpc] at hs hmask hcame
  obtain rfl := Option.some.inj hs
  by_cases hflag : s.quitflag = false
  · rw [if_pos hflag]
    exact
      { mask := hmask
        oldmask := fun _ _ => holdmask
        saved := fun hsaved => hsaved.elim nofun nofun
        caught := fun _ => hcaught
        asleep := fun _ => hflag
        came := hcame
        cleared := nofun }
  · rw [if_neg hflag]
    exact
      { mask := hmask
        oldmask := fun _ _ => holdmask
        saved := fun hsaved => hsaved.elim nofun nofun
        caught := fun _ => hcaught
        asleep := fun hasleep => hasleep.elim nofun nofun
        came := fun _ => .inr (.inr trivial)
        cleared := nofun }

theorem sigsuspend (hpc : s.pc = .sigsuspend) : Core p t := by
  have hmask := h.mask
  have hcame := h.came
  have hcaught := h.caught (by rw [hpc]; exact id)
  have holdmask := h.oldmask (by rw [hpc]; exact id) (by rw [hpc]; decide)
  have hasleep := h.asleep (.inl hpc)
  unfold State.move at hs
  rw [hpc] at hs hmask hcame
  obtain rfl := Option.some.inj hs
  exact
    { mask := rfl
      oldmask := fun _ _ => holdmask
      saved := fun _ => hmask
      caught := fun _ => hcaught
      asleep := fun _ => hasleep
      came := hcame
      cleared := nofun }

theorem woken (hpc : s.pc = .woken) : Core p t := by
  have hcame := h.came
  have hcaught := h.caught (by rw [hpc]; exact id)
  have holdmask := h.oldmask (by rw [hpc]; exact id) (by rw [hpc]; decide)
  have hsaved := h.saved (.inr hpc)
  unfold State.move at hs
  rw [hpc] at hs hcame
  obtain rfl := Option.some.inj hs
  exact
    { mask := hsaved
      oldmask := fun _ _ => holdmask
      saved := fun hsaved => hsaved.elim nofun nofun
      caught := fun _ => hcaught
      asleep := fun hasleep => hasleep.elim nofun nofun
      came := hcame
      cleared := nofun }

theorem clear (hpc : s.pc = .clear) : Core p t := by
  have hmask := h.mask
  have hcaught := h.caught (by rw [hpc]; exact id)
  have holdmask := h.oldmask (by rw [hpc]; exact id) (by rw [hpc]; decide)
  unfold State.move at hs
  rw [hpc] at hs hmask
  obtain rfl := Option.some.inj hs
  exact
    { mask := hmask
      oldmask := fun _ _ => holdmask
      saved := fun hsaved => hsaved.elim nofun nofun
      caught := fun _ => hcaught
      asleep := fun hasleep => hasleep.elim nofun nofun
      came := fun _ => .inr (.inr trivial)
      cleared := fun _ => rfl }

theorem leave (hpc : s.pc = .restore ∨ s.pc = .exit) : Core p t := by
  have hmask := h.mask
  have hcaught := h.caught (by rcases hpc with hpc | hpc <;> rw [hpc] <;> exact id)
  have holdmask := h.oldmask (by rcases hpc with hpc | hpc <;> rw [hpc] <;> exact id)
    (by rcases hpc with hpc | hpc <;> rw [hpc] <;> decide)
  unfold State.move at hs
  rcases hpc with hpc | hpc <;> rw [hpc] at hs hmask <;> obtain rfl := Option.some.inj hs
  · exact
      { mask := holdmask
        oldmask := fun _ _ => holdmask
        saved := fun hsaved => hsaved.elim nofun nofun
        caught := fun _ => hcaught
        asleep := fun hasleep => hasleep.elim nofun nofun
        came := fun _ => .inr (.inr trivial)
        cleared := nofun }
  · exact
      { mask := hmask
        oldmask := fun _ _ => holdmask
        saved := fun hsaved => hsaved.elim nofun nofun
        caught := fun _ => hcaught
        asleep := fun hasleep => hasleep.elim nofun nofun
        came := fun _ => .inr (.inr trivial)
        cleared := nofun }

theorem move : Core p t := by
  cases hpc : s.pc with
  | signalInt => exact h.signalInt hs hpc
  | signalQuit => exact h.signalQuit hs hpc
  | block => exact h.block hs hpc
  | test => exact h.test hs hpc
  | sigsuspend => exact h.sigsuspend hs hpc
  | waiting => exact absurd hs (by simp [State.move, hpc])
  | woken => exact h.woken hs hpc
  | clear => exact h.clear hs hpc
  | restore => exact h.leave hs (.inl hpc)
  | exit => exact h.leave hs (.inr hpc)
  | exited => exact absurd hs (by simp [State.move, hpc])
  | failed => exact absurd hs (by simp [State.move, hpc])
  | killed => exact absurd hs (by simp [State.move, hpc])

end statements

theorem raise {sig : ℕ} (h : Core p s) (hs : s.raise sig = some t) : Core p t := by
  unfold State.raise at hs
  split at hs
  · cases hs
  · obtain rfl := Option.some.inj hs
    exact { h with
      mask := (Process.mask_raise _).trans h.mask
      caught := fun hearly => (congrFun (Process.disp_raise _) SIGQUIT).trans (h.caught hearly)
      came := fun hcame => by
        obtain hcame | hsig := (Bool.or_eq_true _ _).mp hcame
        · exact (h.came hcame).imp_left (Process.pending_raise _)
        · exact .inl (of_decide_eq_true hsig).2 }

theorem ignore {sig : ℕ} (h : Core p s) (hne : SIGQUIT ≠ sig) : Core p { s with process := s.process.deliver sig } :=
  { h with came := fun hcame => (h.came hcame).imp_left fun hmem => Process.pending_deliver _ hmem hne }

theorem wake (h : Core p s) : Core p { s with pc := if s.pc = .waiting then .woken else s.pc } := by
  by_cases hpc : s.pc = .waiting
  · have hmask := h.mask
    have hcame := h.came
    rw [hpc] at hmask hcame
    rw [if_pos hpc]
    exact
      { mask := hmask
        oldmask := fun _ _ => h.oldmask (by rw [hpc]; exact id) (by rw [hpc]; decide)
        saved := fun _ => h.saved (.inl hpc)
        caught := fun _ => h.caught (by rw [hpc]; exact id)
        asleep := fun hasleep => hasleep.elim nofun nofun
        came := hcame
        cleared := nofun }
  · rwa [if_neg hpc]

theorem handle {sig lines : ℕ} {quitflag : Bool} (h : Core p s) (hpc : s.pc ≠ .waiting)
    (hmask : sig ∉ s.process.mask)
    (hflag : sig = SIGQUIT ∧ quitflag = true ∨ SIGQUIT ≠ sig ∧ quitflag = s.quitflag) :
    Core p { s with process := s.process.deliver sig, quitflag, lines } := by
  have hblocked : s.pc = .sigsuspend ∨ s.pc = .restore → quitflag = s.quitflag := by
    intro hpc
    obtain ⟨rfl, -⟩ | ⟨-, hflag⟩ := hflag
    · rw [h.mask] at hmask
      rcases hpc with hpc | hpc <;> rw [hpc] at hmask <;>
        exact absurd (Finset.mem_union_right _ (Finset.mem_singleton_self _)) hmask
    · exact hflag
  exact { h with
    asleep := fun hasleep => by
      obtain hasleep | hasleep := hasleep
      · exact (hblocked (.inl hasleep)).trans (h.asleep (.inl hasleep))
      · exact absurd hasleep hpc
    came := fun hcame => by
      obtain ⟨-, hflag⟩ | ⟨hne, hflag⟩ := hflag
      · exact .inr (.inl hflag)
      · exact (h.came hcame).imp (Process.pending_deliver _ · hne) (.imp_left hflag.trans)
    cleared := fun hpc => (hblocked (.inr hpc)).trans (h.cleared hpc) }

theorem sig_int {sig : ℕ} (h : Core p s) (hmask : sig ∉ s.process.mask) :
    Core p { ({ s with process := s.process.deliver sig } : State).sig_int sig with
      pc := if s.pc = .waiting then .woken else s.pc } := by
  have hpc : (if s.pc = .waiting then .woken else s.pc) ≠ Pc.waiting := by
    split
    · nofun
    · assumption
  unfold State.sig_int
  split
  · rename_i hint
    exact h.wake.handle hpc hmask (.inr ⟨by rw [hint]; decide, rfl⟩)
  · split
    · rename_i hquit
      exact h.wake.handle hpc hmask (.inl ⟨hquit, rfl⟩)
    · rename_i hquit
      exact h.wake.handle hpc hmask (.inr ⟨Ne.symm hquit, rfl⟩)

end Core

namespace Told

theorem move (h : Told s) (hs : s.move = some t) : Told t := by
  have hpassed := h.passed
  unfold State.move at hs
  split at hs
  case h_1 hpc =>
    obtain rfl := Option.some.inj hs
    have hdisp : (s.process.sigaction SIGINT newact).disp SIGQUIT = s.process.disp SIGQUIT :=
      Process.disp_sigaction_of_ne _ (by decide)
    exact ⟨fun hign => h.ign (by rwa [hdisp] at hign), h.pending, h.flag, False.elim⟩
  case h_2 hpc =>
    obtain rfl := Option.some.inj hs
    refine ⟨fun hign => ?_, h.pending, h.flag, False.elim⟩
    rw [Process.disp_sigaction_self] at hign
    cases hign
  case h_4 hpc =>
    obtain rfl := Option.some.inj hs
    refine ⟨h.ign, h.pending, h.flag, fun hpassed => h.flag ?_⟩
    by_contra hflag
    rw [if_pos (Bool.eq_false_iff.mpr hflag)] at hpassed
    exact hpassed
  case h_8 hpc =>
    obtain rfl := Option.some.inj hs
    exact ⟨h.ign, h.pending, nofun, fun _ => hpassed (by rw [hpc]; trivial)⟩
  case h_9 hpc | h_10 hpc =>
    obtain rfl := Option.some.inj hs
    exact ⟨h.ign, h.pending, h.flag, fun _ => hpassed (by rw [hpc]; trivial)⟩
  case h_3 | h_5 | h_7 =>
    obtain rfl := Option.some.inj hs
    exact ⟨h.ign, h.pending, h.flag, False.elim⟩
  all_goals cases hs

theorem raise {sig : ℕ} (h : Told s) (hs : s.raise sig = some t) : Told t := by
  unfold State.raise at hs
  split at hs
  · cases hs
  · obtain rfl := Option.some.inj hs
    exact
      { ign := fun hign hmem => by
          simp only [Process.disp_raise] at hign
          obtain hmem | ⟨rfl, hne⟩ := (Process.mem_pending_raise _).mp hmem
          · exact h.ign hign hmem
          · exact hne hign
        pending := fun hmem => by
          obtain hold | ⟨rfl, -⟩ := (Process.mem_pending_raise _).mp hmem
          · exact (Bool.or_eq_true _ _).mpr (.inl (h.pending hold))
          · exact (Bool.or_eq_true _ _).mpr (.inr (decide_eq_true ⟨rfl, hmem⟩))
        flag := fun hflag => (Bool.or_eq_true _ _).mpr (.inl (h.flag hflag))
        passed := fun hpassed => (Bool.or_eq_true _ _).mpr (.inl (h.passed hpassed)) }

theorem deliver {sig lines : ℕ} {quitflag : Bool} {pc : Pc} (h : Told s) (hmem : sig ∈ s.process.pending)
    (hflag : sig = SIGQUIT ∧ quitflag = true ∨ quitflag = s.quitflag) (hpc : pc.Passed → s.pc.Passed) :
    Told { s with pc, process := s.process.deliver sig, quitflag, lines } where
  ign hign hquit := h.ign hign (Finset.mem_of_mem_erase hquit)
  pending hquit := h.pending (Finset.mem_of_mem_erase hquit)
  flag hset := by
    obtain ⟨rfl, -⟩ | hflag := hflag
    · exact h.pending hmem
    · exact h.flag (hflag.symm.trans hset)
  passed hpassed := h.passed (hpc hpassed)

theorem sig_int {sig : ℕ} (h : Told s) (hmem : sig ∈ s.process.pending) :
    Told { ({ s with process := s.process.deliver sig } : State).sig_int sig with
      pc := if s.pc = .waiting then .woken else s.pc } := by
  have hpc : (if s.pc = .waiting then .woken else s.pc).Passed → s.pc.Passed := by
    split
    · exact False.elim
    · exact id
  unfold State.sig_int
  split
  · exact h.deliver hmem (.inr rfl) hpc
  · split
    · rename_i hquit
      exact h.deliver hmem (.inl ⟨hquit, rfl⟩) hpc
    · exact h.deliver hmem (.inr rfl) hpc

end Told

namespace Inv

theorem core_of (h : Inv p s) (hpc : ¬ s.pc.Ended) : Core p s :=
  (h.core.resolve_left fun hfailed => hpc (.inr (.inl hfailed))).resolve_left fun hkilled => hpc (.inr (.inr hkilled))

theorem move (h : Inv p s) (hs : s.move = some t) : Inv p t := by
  have hpc : ¬ s.pc.Ended := by
    rintro (hpc | hpc | hpc) <;> simp [State.move, hpc] at hs
  exact ⟨.inr (.inr ((h.core_of hpc).move hs)), h.told.move hs⟩

theorem fail (h : Inv p s) (hs : s.fail = some t) : Inv p t := by
  unfold State.fail at hs
  split at hs
  case h_5 => cases hs
  all_goals
    obtain rfl := Option.some.inj hs
    exact ⟨.inl rfl, h.told.ign, h.told.pending, h.told.flag, False.elim⟩

theorem raise {sig : ℕ} (h : Inv p s) (hs : s.raise sig = some t) : Inv p t := by
  have hpc : ¬ s.pc.Ended := fun hpc => by simp [State.raise, hpc] at hs
  exact ⟨.inr (.inr ((h.core_of hpc).raise hs)), h.told.raise hs⟩

theorem deliver {sig : ℕ} (h : Inv p s) (hs : s.deliver sig = some t) : Inv p t := by
  obtain ⟨hpc, hmem, hmask, ⟨-, rfl⟩ | ⟨hhandler, rfl⟩ | ⟨-, rfl⟩⟩ := deliver_cases hs
  · exact ⟨.inr (.inr ((h.core_of hpc).sig_int hmask)), h.told.sig_int hmem⟩
  · refine ⟨.inr (.inr ((h.core_of hpc).ignore ?_)), h.told.deliver hmem (.inr rfl) id⟩
    rintro rfl
    obtain hign | ⟨-, hmild⟩ := hhandler
    · exact h.told.ign hign hmem
    · exact absurd hmild (by decide)
  · exact ⟨.inr (.inl rfl), h.told.deliver hmem (.inr rfl) False.elim⟩

theorem step {a : Act} (h : Inv p s) (hs : step s a = some t) : Inv p t := by
  cases a with
  | move => exact h.move hs
  | fail => exact h.fail hs
  | raise sig => exact h.raise hs
  | deliver sig => exact h.deliver hs

theorem right (h : Inv p s) : Right p s := by
  have hcore (hpc : s.pc ≠ .failed ∧ s.pc ≠ .killed) : Core p s := (h.core.resolve_left hpc.1).resolve_left hpc.2
  exact
    { asleep := fun hpc => (hcore (by rw [hpc]; decide)).asleep (.inr hpc)
      blocked := fun hpc => by
        rw [(hcore (by rcases hpc with hpc | hpc <;> rw [hpc] <;> decide)).mask]
        rcases hpc with hpc | hpc <;> rw [hpc] <;> exact Finset.mem_union_right _ (Finset.mem_singleton_self _)
      cleared := fun hpc => (hcore (by rw [hpc]; decide)).cleared hpc
      mask := fun hpc => by
        rw [(hcore (by rcases hpc with hpc | hpc <;> rw [hpc] <;> decide)).mask]
        rcases hpc with hpc | hpc <;> rw [hpc] <;> rfl }

end Inv

/-! ### Every run -/

/-- How far it is to the next `sigsuspend` or to the end. -/
def Pc.rank : Pc → ℕ
  | .signalInt => 10
  | .signalQuit => 9
  | .block => 8
  | .woken => 7
  | .test => 6
  | .clear => 5
  | .restore => 4
  | .exit => 3
  | .sigsuspend => 2
  | .waiting => 1
  | .exited | .failed | .killed => 0

/-- Every signal is delivered once, and between two of them `main` comes to `sigsuspend` or to the end. -/
def State.fuel (s : State) : ℕ ×ₗ ℕ := toLex (s.process.pending.card, s.pc.rank)

theorem fuel_lt_of_rank (hpending : t.process.pending = s.process.pending) (hrank : t.pc.rank < s.pc.rank) :
    t.fuel < s.fuel :=
  Prod.Lex.toLex_lt_toLex.mpr (.inr ⟨congrArg Finset.card hpending, hrank⟩)

theorem move_fuel (hs : s.move = some t) : t.fuel < s.fuel := by
  unfold State.move at hs
  split at hs
  case h_4 hpc =>
    obtain rfl := Option.some.inj hs
    refine fuel_lt_of_rank rfl ?_
    rw [hpc]
    dsimp only
    split <;> decide
  case h_6 | h_11 | h_12 | h_13 => cases hs
  all_goals
    rename_i hpc
    obtain rfl := Option.some.inj hs
    exact fuel_lt_of_rank rfl (by simp [hpc, Pc.rank])

theorem fail_fuel (hs : s.fail = some t) : t.fuel < s.fuel := by
  unfold State.fail at hs
  split at hs
  case h_5 => cases hs
  all_goals
    rename_i hpc
    obtain rfl := Option.some.inj hs
    exact fuel_lt_of_rank rfl (by simp [hpc, Pc.rank])

theorem deliver_fuel {sig : ℕ} (hs : s.deliver sig = some t) : t.fuel < s.fuel := by
  obtain ⟨-, hmem, -, hcases⟩ := deliver_cases hs
  have hpending : t.process.pending = s.process.pending.erase sig := by
    obtain ⟨-, rfl⟩ | ⟨-, rfl⟩ | ⟨-, rfl⟩ := hcases
    · unfold State.sig_int
      split
      · rfl
      · split <;> rfl
    · rfl
    · rfl
  exact Prod.Lex.toLex_lt_toLex.mpr (.inl (by rw [hpending]; exact Finset.card_erase_lt_of_mem hmem))

theorem fuel_lt {a : Act} (hquiet : a.Quiet) (hs : step s a = some t) : t.fuel < s.fuel := by
  cases a with
  | raise sig => exact hquiet.elim
  | move => exact move_fuel hs
  | fail => exact fail_fuel hs
  | deliver sig => exact deliver_fuel hs

theorem goes (h : Inv p s) (hcame : s.came = true) : s.pc.Ended ∨ ∃ a t, a.Quiet ∧ step s a = some t := by
  by_cases hpc : s.pc.Ended
  · exact .inl hpc
  refine .inr ?_
  by_cases hwaiting : s.pc = .waiting
  · have hcore := h.core_of hpc
    have hmem : SIGQUIT ∈ s.process.pending := by
      obtain hmem | hflag | hpassed := hcore.came hcame
      · exact hmem
      · rw [hcore.asleep (.inr hwaiting)] at hflag
        cases hflag
      · rw [hwaiting] at hpassed
        exact hpassed.elim
    have hmask : SIGQUIT ∉ s.process.mask := by
      rw [hcore.mask, hwaiting]
      exact Finset.notMem_empty _
    have hcaught : (s.process.disp SIGQUIT).handler = .fn () := by
      rw [hcore.caught (by rw [hwaiting]; exact id)]
      rfl
    refine ⟨.deliver SIGQUIT, ?_⟩
    simp only [step, State.deliver, hpc, hmem, hmask, not_true_eq_false, or_self, if_false, Process.disp_deliver,
      hcaught]
    exact ⟨_, trivial, rfl⟩
  · refine ⟨.move, ?_⟩
    have hmove : ∃ t, s.move = some t := by
      unfold State.move
      cases hs : s.pc <;> simp_all [Pc.Ended]
    exact hmove.imp fun t ht => ⟨trivial, ht⟩

theorem came_step {a : Act} (hcame : s.came = true) (hs : step s a = some t) : t.came = true := by
  cases a with
  | move =>
    simp only [step, State.move] at hs
    split at hs <;> first | cases hs; exact hcame | cases hs
  | fail =>
    simp only [step, State.fail] at hs
    split at hs <;> first | cases hs; exact hcame | cases hs
  | raise sig =>
    simp only [step, State.raise] at hs
    split at hs
    · cases hs
    · obtain rfl := Option.some.inj hs
      exact (Bool.or_eq_true _ _).mpr (.inl hcame)
  | deliver sig =>
    obtain ⟨-, -, -, ⟨-, rfl⟩ | ⟨-, rfl⟩ | ⟨-, rfl⟩⟩ := deliver_cases hs
    · unfold State.sig_int
      split
      · exact hcame
      · split <;> exact hcame
    · exact hcame
    · exact hcame

/-- `main` leaves the loop only when there has been a `SIGQUIT`, and it cannot miss one; in the end the mask is as
it was. -/
theorem quit_run (p : Process Unit) (hign : (p.disp SIGQUIT).handler = .ign → SIGQUIT ∉ p.pending) :
    Awaits step Act.Quiet (fun s => s.came = true) (fun s => s.pc.Passed) (fun s => s.pc.Ended) (.entry p) ∧
      ∀ s, Reaches step (.entry p) s → Right p s := by
  constructor
  · exact Awaits.of_invariant State.fuel (fun s a t h hs => h.step hs) (fun s h => h.told.passed)
      (fun s a t _ hcame hs => came_step hcame hs) (fun s h => goes h) (fun s a t _ hquiet hs => fuel_lt hquiet hs)
      (entry_inv hign)
  · exact fun s hs => (hs.invariant (fun _ _ _ h hstep => Inv.step h hstep) (entry_inv hign)).right

/-- A `SIGINT` while `main` waits, and a `SIGQUIT` between the test and `sigsuspend`. -/
theorem quit_run_between : ∃ s, Reaches step (.entry ⟨fun _ => ⟨.dfl, ∅, 0⟩, ∅, ∅⟩) s ∧ s.pc = .exited ∧ s.lines = 1 ∧
    Right ⟨fun _ => ⟨.dfl, ∅, 0⟩, ∅, ∅⟩ s := by
  have hrun : Reaches step (.entry ⟨fun _ => ⟨.dfl, ∅, 0⟩, ∅, ∅⟩) _ :=
    ⟨[.move, .move, .move, .move, .move, .raise SIGINT, .deliver SIGINT, .move, .move, .raise SIGQUIT, .move,
      .deliver SIGQUIT, .move, .move, .move, .move, .move], rfl⟩
  exact ⟨_, hrun, rfl, rfl, (quit_run ⟨fun _ => ⟨.dfl, ∅, 0⟩, ∅, ∅⟩ (by decide)).2 _ hrun⟩

end Apue.Quit

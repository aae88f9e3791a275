import Apue.Lib.Awaits
import Apue.Lib.Threads
import Apue.Signals.Quit

/-!
# Waiting for `SIGQUIT` with a thread of its own (Chapter-12/12-16.c)

The other version of 10-23.c: `thr_fn` takes the signals with `sigwait` and sets `quitflag` under `lock`, and `main`
waits for it with `pthread_cond_wait`. Any interleaving of the two, with any signals in between, and
`pthread_cond_wait` may return for no reason.

`main` looks at the flag and goes to sleep without letting the mutex go in between, so `thr_fn` cannot set the flag
and signal before `main` is asleep (`Shape.asleep`): `quit_thread_run`.
-/

namespace Apue.QuitThread
open Signals Threads Transition Quit

inductive Party where
  | main
  | thr
  deriving DecidableEq

/-- The statements of `main`. It is `waiting` in `pthread_cond_wait`, then takes the mutex again. -/
inductive Main where
  | sigmask
  | create
  | lock
  | test
  | waiting
  | relock
  | unlock
  | clear
  | restore
  | exit
  | exited
  | failed
  | killed
  deriving DecidableEq

inductive Thr where
  | none
  | sigwait
  | print
  | lock
  | set
  | unlock
  | signal
  | unexpected
  | returned
  deriving DecidableEq

/-- `process` has the mask of the main thread, `thrmask` is the other one. There are no handlers. -/
structure State where
  main : Main
  thr : Thr
  process : Process Empty
  thrmask : Finset ℕ
  oldmask : Finset ℕ
  mutex : Mutex Party
  quitflag : Bool
  lines : ℕ
  came : Bool

inductive Act where
  | main
  | thr
  /-- A call of this thread fails, and `err_exit` or `err_sys` ends the process. -/
  | fail (p : Party)
  | sigwait (sig : ℕ)
  | spurious
  | raise (sig : ℕ)
  | deliver (sig : ℕ)
  deriving DecidableEq

/-- What `thr_fn` waits for. -/
def mask : Finset ℕ := {SIGINT, SIGQUIT}

/-- The process is gone. -/
def Main.Ended (m : Main) : Prop := m = .exited ∨ m = .failed ∨ m = .killed

instance (m : Main) : Decidable m.Ended := inferInstanceAs (Decidable (_ ∨ _ ∨ _))

namespace State

/-- The next statement of `main`. -/
def moveMain (s : State) : Option State :=
  match s.main with
  | .sigmask => some { s with main := .create, oldmask := s.process.mask, process := s.process.block mask }
  | .create => some { s with main := .lock, thr := .sigwait, thrmask := s.process.mask }
  | .lock | .relock => (s.mutex.lock .main).map fun mutex => { s with main := .test, mutex }
  | .test => if s.quitflag = false then some { s with main := .waiting, mutex := none } else some { s with main := .unlock }
  | .waiting => none
  | .unlock => some { s with main := .clear, mutex := none }
  | .clear => some { s with main := .restore, quitflag := false }
  | .restore => some { s with main := .exit, process := s.process.setMask s.oldmask }
  | .exit => some { s with main := .exited }
  | .exited | .failed | .killed => none

/-- The next statement of `thr_fn`; `sigwait` has an action of its own. -/
def moveThr (s : State) : Option State :=
  match s.thr with
  | .none | .sigwait | .returned => none
  | .print => some { s with thr := .sigwait, lines := s.lines + 1 }
  | .lock => (s.mutex.lock .thr).map fun mutex => { s with thr := .set, mutex }
  | .set => some { s with thr := .unlock, quitflag := true }
  | .unlock => some { s with thr := .signal, mutex := none }
  | .signal => some { s with thr := .returned, main := if s.main = .waiting then .relock else s.main }
  | .unexpected => some { s with main := .failed }

def fail (s : State) : Party → Option State
  | .main => if s.main = .sigmask ∨ s.main = .create ∨ s.main = .restore then some { s with main := .failed } else none
  | .thr => if s.thr = .sigwait then some { s with main := .failed } else none

/-- `sigwait` returns with `sig`. -/
def sigwait (s : State) (sig : ℕ) : Option State :=
  if s.thr = .sigwait ∧ sig ∈ s.process.pending ∧ sig ∈ mask then
    some { s with
      process := s.process.deliver sig
      thr := if sig = SIGINT then .print else if sig = SIGQUIT then .lock else .unexpected }
  else none

/-- `pthread_cond_wait` returns for no reason. -/
def spurious (s : State) : Option State := if s.main = .waiting then some { s with main := .relock } else none

/-- A signal comes. -/
def raise (s : State) (sig : ℕ) : State :=
  let process := s.process.raise sig
  { s with process, came := s.came || decide (sig = SIGQUIT ∧ SIGQUIT ∈ process.pending) }

/-- What happens to a signal that is pending, when one of the threads does not block it. -/
def deliver (s : State) (sig : ℕ) : Option State :=
  if sig ∈ s.process.pending ∧ (sig ∉ s.process.mask ∨ s.thr ≠ .none ∧ sig ∉ s.thrmask) then
    let s := { s with process := s.process.deliver sig }
    if (s.process.disp sig).handler = .ign ∨ Mild sig then some s else some { s with main := .killed }
  else none

/-- `main` is called. -/
def entry (p : Process Empty) : State :=
  ⟨.sigmask, .none, p, ∅, ∅, none, false, 0, decide (SIGQUIT ∈ p.pending)⟩

end State

def step (s : State) (a : Act) : Option State :=
  if s.main.Ended then none
  else match a with
    | .main => s.moveMain
    | .thr => s.moveThr
    | .fail p => s.fail p
    | .sigwait sig => s.sigwait sig
    | .spurious => s.spurious
    | .raise sig => some (s.raise sig)
    | .deliver sig => s.deliver sig

/-- What happens without a new signal, or an idle return of `pthread_cond_wait`. -/
def Act.Quiet : Act → Prop
  | .raise _ | .spurious => False
  | _ => True

/-- `main` is behind the loop. -/
def Main.Passed : Main → Prop
  | .unlock | .clear | .restore | .exit | .exited => True
  | _ => False

/-- A run that began in the state `p` of the process. -/
structure Right (p : Process Empty) (s : State) : Prop where
  /-- `thr_fn` does not return before `main` has been woken up. -/
  asleep : s.main = .waiting → s.thr ≠ .returned
  /-- Nobody else is at `quitflag` at the same time. -/
  apart : s.main = .test ∨ s.main = .clear → s.thr ≠ .set
  /-- `sigwait` does not return anything else. -/
  expected : ¬ s.main.Ended → s.thr ≠ .unexpected
  /-- Only `sigwait` takes the two signals. -/
  masked : s.main ≠ .sigmask → s.main ≠ .exit → ¬ s.main.Ended → ∀ sig ∈ QuitThread.mask, s.deliver sig = none
  mask : s.main = .exit ∨ s.main = .exited → s.process.mask = p.mask

/-! ### The invariant -/

namespace Main

def Holds : Main → Prop
  | .test | .unlock => True
  | _ => False

/-- Before `thr_fn` runs. -/
def Early : Main → Prop
  | .sigmask | .create => True
  | _ => False

/-- `quitflag` has been set back. -/
def Late : Main → Prop
  | .restore | .exit | .exited => True
  | _ => False

/-- The mask at a program point, when it was `m` in the beginning. -/
def mask (m : Finset ℕ) : Main → Finset ℕ
  | .sigmask | .exit | .exited => m
  | _ => m ∪ QuitThread.mask

end Main

namespace Thr

def Holds : Thr → Prop
  | .set | .unlock => True
  | _ => False

/-- `sigwait` has returned with `SIGQUIT`. -/
def Took : Thr → Prop
  | .lock | .set | .unlock | .signal | .returned => True
  | _ => False

/-- `quitflag` has been set. -/
def Told : Thr → Prop
  | .unlock | .signal | .returned => True
  | _ => False

end Thr

/-- Where the two are, with the mutex and the flag. -/
structure Shape (main : Main) (thr : Thr) (mutex : Mutex Party) (quitflag : Bool) : Prop where
  holdsMain : mutex = some .main ↔ main.Holds
  holdsThr : mutex = some .thr ↔ thr.Holds
  early : thr = .none ↔ main.Early
  flag : quitflag = true → thr.Told
  told : thr.Told → quitflag = true ∨ main.Late
  passed : main.Passed → thr.Told
  asleep : main = .waiting → thr ≠ .returned
  expected : thr ≠ .unexpected

namespace Shape
variable {main : Main} {thr : Thr} {mutex : Mutex Party} {quitflag : Bool}

/-! `main` -/

theorem create (h : Shape .create thr mutex quitflag) : Shape .lock .sigwait mutex quitflag := by
  obtain rfl : thr = .none := h.early.mpr trivial
  exact ⟨h.holdsMain, h.holdsThr, ⟨nofun, False.elim⟩, h.flag, False.elim, False.elim, nofun, nofun⟩

theorem lockMain (h : Shape main thr none quitflag) (hmain : main = .lock ∨ main = .relock) :
    Shape .test thr (some .main) quitflag := by
  have hearly := h.early
  have htold := h.told
  have hthr := h.holdsThr
  have hlate : ¬ main.Early ∧ ¬ main.Late := by rcases hmain with rfl | rfl <;> exact ⟨id, id⟩
  exact
    { holdsMain := ⟨fun _ => trivial, fun _ => rfl⟩
      holdsThr := ⟨nofun, fun hholds => absurd (hthr.mpr hholds) nofun⟩
      early := ⟨fun hnone => absurd (hearly.mp hnone) hlate.1, False.elim⟩
      flag := h.flag
      told := fun ht => .inl ((htold ht).resolve_right hlate.2)
      passed := False.elim
      asleep := nofun
      expected := h.expected }

theorem wait (h : Shape .test thr mutex false) : Shape .waiting thr none false where
  holdsMain := ⟨nofun, False.elim⟩
  holdsThr := ⟨nofun, fun hholds => by
    have hmain := h.holdsMain.mpr trivial
    rw [h.holdsThr.mpr hholds] at hmain
    cases hmain⟩
  early := h.early
  flag := h.flag
  told := h.told
  passed := False.elim
  asleep := by
    rintro - rfl
    obtain hflag | hlate := h.told trivial
    · cases hflag
    · exact hlate
  expected := h.expected

theorem leave (h : Shape .test thr mutex true) : Shape .unlock thr mutex true :=
  ⟨h.holdsMain, h.holdsThr, h.early, h.flag, fun _ => .inl rfl, fun _ => h.flag rfl, nofun, h.expected⟩

theorem unlockMain (h : Shape .unlock thr mutex quitflag) : Shape .clear thr none quitflag where
  holdsMain := ⟨nofun, False.elim⟩
  holdsThr := ⟨nofun, fun hholds => by
    have hmain := h.holdsMain.mpr trivial
    rw [h.holdsThr.mpr hholds] at hmain
    cases hmain⟩
  early := h.early
  flag := h.flag
  told := h.told
  passed := fun _ => h.passed trivial
  asleep := nofun
  expected := h.expected

theorem clear (h : Shape .clear thr mutex quitflag) : Shape .restore thr mutex false :=
  ⟨h.holdsMain, h.holdsThr, h.early, nofun, fun _ => .inr trivial, fun _ => h.passed trivial, nofun, h.expected⟩

theorem exit (h : Shape main thr mutex quitflag) (hmain : main = .restore ∨ main = .exit) {main' : Main}
    (hmain' : main' = .exit ∨ main' = .exited) : Shape main' thr mutex quitflag := by
  rcases hmain with rfl | rfl <;> rcases hmain' with rfl | rfl <;>
    exact ⟨h.holdsMain, h.holdsThr, h.early, h.flag, fun _ => .inr trivial, fun _ => h.passed trivial, nofun, h.expected⟩

theorem wake (h : Shape .waiting thr mutex quitflag) : Shape .relock thr mutex quitflag :=
  ⟨h.holdsMain, h.holdsThr, h.early, h.flag, h.told, False.elim, nofun, h.expected⟩

/-! `thr_fn` -/

theorem goto (h : Shape main thr mutex quitflag) {thr' : Thr} (hholds : ¬ thr.Holds) (htold : ¬ thr.Told)
    (hnone : thr ≠ .none) (hthr' : thr' = .sigwait ∨ thr' = .print ∨ thr' = .lock) : Shape main thr' mutex quitflag := by
  have hthr : ¬ thr'.Holds ∧ ¬ thr'.Told ∧ thr' ≠ .none ∧ thr' ≠ .returned ∧ thr' ≠ .unexpected := by
    rcases hthr' with rfl | rfl | rfl <;> exact ⟨id, id, nofun, nofun, nofun⟩
  exact
    { holdsMain := h.holdsMain
      holdsThr := ⟨fun hm => absurd (h.holdsThr.mp hm) hholds, fun hm => absurd hm hthr.1⟩
      early := ⟨fun hn => absurd hn hthr.2.2.1, fun hearly => absurd (h.early.mpr hearly) hnone⟩
      flag := fun hflag => absurd (h.flag hflag) htold
      told := fun ht => absurd ht hthr.2.1
      passed := fun hpassed => absurd (h.passed hpassed) htold
      asleep := fun _ => hthr.2.2.2.1
      expected := hthr.2.2.2.2 }

theorem lockThr (h : Shape main .lock none quitflag) : Shape main .set (some .thr) quitflag where
  holdsMain := ⟨nofun, fun hholds => absurd (h.holdsMain.mpr hholds) nofun⟩
  holdsThr := ⟨fun _ => trivial, fun _ => rfl⟩
  early := ⟨nofun, fun hearly => absurd (h.early.mpr hearly) nofun⟩
  flag := h.flag
  told := False.elim
  passed := h.passed
  asleep := nofun
  expected := nofun

theorem set (h : Shape main .set mutex quitflag) : Shape main .unlock mutex true where
  holdsMain := h.holdsMain
  holdsThr := h.holdsThr
  early := ⟨nofun, fun hearly => absurd (h.early.mpr hearly) nofun⟩
  flag _ := trivial
  told _ := .inl rfl
  passed _ := trivial
  asleep := nofun
  expected := nofun

theorem unlockThr (h : Shape main .unlock mutex quitflag) : Shape main .signal none quitflag where
  holdsMain := ⟨nofun, fun hholds => by
    have hthr := h.holdsThr.mpr trivial
    rw [h.holdsMain.mpr hholds] at hthr
    cases hthr⟩
  holdsThr := ⟨nofun, False.elim⟩
  early := ⟨nofun, fun hearly => absurd (h.early.mpr hearly) nofun⟩
  flag _ := trivial
  told _ := h.told trivial
  passed _ := trivial
  asleep := nofun
  expected := nofun

theorem signal (h : Shape main .signal mutex quitflag) :
    Shape (if main = .waiting then .relock else main) .returned mutex quitflag := by
  have hearly : ¬ main.Early := fun hearly => absurd (h.early.mpr hearly) nofun
  by_cases hmain : main = .waiting
  · subst hmain
    rw [if_pos rfl]
    exact ⟨h.holdsMain, h.holdsThr, ⟨nofun, False.elim⟩, fun _ => trivial, fun _ => h.told trivial, False.elim, nofun, nofun⟩
  · rw [if_neg hmain]
    exact ⟨h.holdsMain, h.holdsThr, ⟨nofun, fun he => absurd he hearly⟩, fun _ => trivial, fun _ => h.told trivial,
      fun _ => trivial, fun hw => absurd hw hmain, nofun⟩

end Shape

/-- What holds as long as no call has failed and no signal has killed the process. -/
structure Core (p : Process Empty) (s : State) : Prop where
  shape : Shape s.main s.thr s.mutex s.quitflag
  mask : s.process.mask = s.main.mask p.mask
  oldmask : s.main ≠ .sigmask → s.oldmask = p.mask
  thrmask : s.thr ≠ .none → s.thrmask = p.mask ∪ QuitThread.mask
  came : s.came = true → SIGQUIT ∈ s.process.pending ∨ s.thr.Took

/-- What is known of `SIGQUIT` in any case. -/
structure Told (s : State) : Prop where
  /-- An ignored signal is not pending. -/
  ign : (s.process.disp SIGQUIT).handler = .ign → SIGQUIT ∉ s.process.pending
  pending : SIGQUIT ∈ s.process.pending → s.came = true
  took : s.thr.Took → s.came = true

structure Inv (p : Process Empty) (s : State) : Prop where
  core : s.main = .failed ∨ s.main = .killed ∨ Core p s
  told : Told s

variable {p : Process Empty} {s t : State}

theorem entry_inv (hign : (p.disp SIGQUIT).handler = .ign → SIGQUIT ∉ p.pending) : Inv p (.entry p) where
  core := .inr (.inr
    { shape := ⟨⟨nofun, False.elim⟩, ⟨nofun, False.elim⟩, ⟨fun _ => trivial, fun _ => rfl⟩, nofun, False.elim,
        False.elim, nofun, nofun⟩
      mask := rfl
      oldmask := fun h => absurd rfl h
      thrmask := fun h => absurd rfl h
      came := fun h => .inl (of_decide_eq_true h) })
  told := ⟨hign, fun h => decide_eq_true h, False.elim⟩

namespace Inv

theorem core_of (h : Inv p s) (hmain : ¬ s.main.Ended) : Core p s :=
  (h.core.resolve_left fun hfailed => hmain (.inr (.inl hfailed))).resolve_left
    fun hkilled => hmain (.inr (.inr hkilled))

theorem ended {main : Main} (h : Inv p s) (hmain : main = .failed ∨ main = .killed) : Inv p { s with main } where
  core := hmain.imp_right .inl
  told := ⟨h.told.ign, h.told.pending, h.told.took⟩

theorem moveMain (h : Inv p s) (hs : s.moveMain = some t) : Inv p t := by
  have hended : ¬ s.main.Ended := by rintro (hmain | hmain | hmain) <;> simp [State.moveMain, hmain] at hs
  obtain ⟨hshape, hmask, holdmask, hthrmask, hcame⟩ := h.core_of hended
  obtain ⟨hign, hpending, htook⟩ := h.told
  unfold State.moveMain at hs
  split at hs
  case h_1 hmain =>
    obtain rfl := Option.some.inj hs
    rw [hmain] at hshape hmask
    refine ⟨.inr (.inr ⟨?_, ?_, fun _ => hmask, hthrmask, hcame⟩), ⟨hign, hpending, htook⟩⟩
    · exact ⟨hshape.holdsMain, hshape.holdsThr, hshape.early, hshape.flag, hshape.told, False.elim, nofun, hshape.expected⟩
    · rw [Process.mask_block, hmask]
      rfl
  case h_2 hmain =>
    obtain rfl := Option.some.inj hs
    rw [hmain] at hshape hmask holdmask
    have hnone : s.thr = .none := hshape.early.mpr trivial
    refine ⟨.inr (.inr ⟨hshape.create, hmask, fun _ => holdmask nofun, fun _ => hmask, fun hc => ?_⟩),
      ⟨hign, hpending, False.elim⟩⟩
    rw [hnone] at hcame
    exact (hcame hc).imp_right False.elim
  case h_3 hmain | h_4 hmain =>
    obtain ⟨mutex, hlock, rfl⟩ := Option.map_eq_some_iff.mp hs
    obtain ⟨hmutex, rfl⟩ := Mutex.lock_eq_some.mp hlock
    rw [hmutex] at hshape
    rw [hmain] at hmask holdmask
    exact ⟨.inr (.inr ⟨hshape.lockMain (by simp [hmain]), hmask, fun _ => holdmask nofun, hthrmask, hcame⟩),
      ⟨hign, hpending, htook⟩⟩
  case h_5 hmain =>
    rw [hmain] at hshape hmask holdmask
    split at hs
    · rename_i hflag
      obtain rfl := Option.some.inj hs
      rw [hflag] at hshape
      refine ⟨.inr (.inr ⟨?_, hmask, fun _ => holdmask nofun, hthrmask, hcame⟩), ⟨hign, hpending, htook⟩⟩
      dsimp only
      rw [hflag]
      exact hshape.wait
    · rename_i hflag
      obtain rfl := Option.some.inj hs
      rw [Bool.not_eq_false] at hflag
      rw [hflag] at hshape
      refine ⟨.inr (.inr ⟨?_, hmask, fun _ => holdmask nofun, hthrmask, hcame⟩), ⟨hign, hpending, htook⟩⟩
      dsimp only
      rw [hflag]
      exact hshape.leave
  case h_7 hmain =>
    obtain rfl := Option.some.inj hs
    rw [hmain] at hshape hmask holdmask
    exact ⟨.inr (.inr ⟨hshape.unlockMain, hmask, fun _ => holdmask nofun, hthrmask, hcame⟩), ⟨hign, hpending, htook⟩⟩
  case h_8 hmain =>
    obtain rfl := Option.some.inj hs
    rw [hmain] at hshape hmask holdmask
    exact ⟨.inr (.inr ⟨hshape.clear, hmask, fun _ => holdmask nofun, hthrmask, hcame⟩), ⟨hign, hpending, htook⟩⟩
  case h_9 hmain =>
    obtain rfl := Option.some.inj hs
    rw [hmain] at holdmask
    exact ⟨.inr (.inr ⟨hshape.exit (.inl hmain) (.inl rfl), holdmask nofun, fun _ => holdmask nofun, hthrmask, hcame⟩),
      ⟨hign, hpending, htook⟩⟩
  case h_10 hmain =>
    obtain rfl := Option.some.inj hs
    rw [hmain] at hmask holdmask
    exact ⟨.inr (.inr ⟨hshape.exit (.inr hmain) (.inr rfl), hmask, fun _ => holdmask nofun, hthrmask, hcame⟩),
      ⟨hign, hpending, htook⟩⟩
  all_goals cases hs

theorem moveThr (h : Inv p s) (hended : ¬ s.main.Ended) (hs : s.moveThr = some t) : Inv p t := by
  obtain ⟨hshape, hmask, holdmask, hthrmask, hcame⟩ := h.core_of hended
  obtain ⟨hign, hpending, htook⟩ := h.told
  unfold State.moveThr at hs
  split at hs
  case h_4 hthr =>
    obtain rfl := Option.some.inj hs
    rw [hthr] at hshape hthrmask hcame
    exact ⟨.inr (.inr ⟨hshape.goto id id nofun (.inl rfl), hmask, holdmask, fun _ => hthrmask nofun, hcame⟩),
      ⟨hign, hpending, False.elim⟩⟩
  case h_5 hthr =>
    obtain ⟨mutex, hlock, rfl⟩ := Option.map_eq_some_iff.mp hs
    obtain ⟨hmutex, rfl⟩ := Mutex.lock_eq_some.mp hlock
    rw [hthr, hmutex] at hshape
    rw [hthr] at hthrmask htook
    exact ⟨.inr (.inr ⟨hshape.lockThr, hmask, holdmask, fun _ => hthrmask nofun, fun _ => .inr trivial⟩),
      ⟨hign, hpending, htook⟩⟩
  case h_6 hthr =>
    obtain rfl := Option.some.inj hs
    rw [hthr] at hshape hthrmask htook
    exact ⟨.inr (.inr ⟨hshape.set, hmask, holdmask, fun _ => hthrmask nofun, fun _ => .inr trivial⟩),
      ⟨hign, hpending, htook⟩⟩
  case h_7 hthr =>
    obtain rfl := Option.some.inj hs
    rw [hthr] at hshape hthrmask htook
    exact ⟨.inr (.inr ⟨hshape.unlockThr, hmask, holdmask, fun _ => hthrmask nofun, fun _ => .inr trivial⟩),
      ⟨hign, hpending, htook⟩⟩
  case h_8 hthr =>
    obtain rfl := Option.some.inj hs
    rw [hthr] at hshape hthrmask htook
    refine ⟨.inr (.inr ⟨hshape.signal, ?_, fun hne => holdmask ?_, fun _ => hthrmask nofun, fun _ => .inr trivial⟩),
      ⟨hign, hpending, htook⟩⟩
    · rw [hmask]
      split
      · rename_i hmain
        rw [hmain]
        rfl
      · rfl
    · rintro hmain
      exact hne (by simp [hmain])
  case h_9 hthr => exact absurd hthr hshape.expected
  all_goals cases hs

theorem sigwait {sig : ℕ} (h : Inv p s) (hended : ¬ s.main.Ended) (hs : s.sigwait sig = some t) : Inv p t := by
  obtain ⟨hshape, hmask, holdmask, hthrmask, hcame⟩ := h.core_of hended
  obtain ⟨hign, hpending, -⟩ := h.told
  obtain ⟨⟨hthr, hmem, hsig⟩, hs⟩ := Option.ite_none_right_eq_some.mp hs
  obtain rfl := Option.some.inj hs
  rw [hthr] at hshape hthrmask hcame
  have herase : SIGQUIT ∈ (s.process.deliver sig).pending → SIGQUIT ∈ s.process.pending := Finset.mem_of_mem_erase
  obtain rfl | rfl : sig = SIGINT ∨ sig = SIGQUIT := by simpa [QuitThread.mask] using hsig
  · rw [if_pos rfl]
    refine ⟨.inr (.inr ⟨hshape.goto id id nofun (.inr (.inl rfl)), hmask, holdmask, fun _ => hthrmask nofun,
      fun hc => ?_⟩), ⟨fun hi hq => hign hi (herase hq), fun hq => hpending (herase hq), False.elim⟩⟩
    exact (hcame hc).imp (Process.pending_deliver _ · (by decide)) False.elim
  · rw [if_neg (by decide), if_pos rfl]
    exact ⟨.inr (.inr ⟨hshape.goto id id nofun (.inr (.inr rfl)), hmask, holdmask, fun _ => hthrmask nofun,
      fun _ => .inr trivial⟩), ⟨fun hi hq => hign hi (herase hq), fun hq => hpending (herase hq), fun _ => hpending hmem⟩⟩

theorem spurious (h : Inv p s) (hs : s.spurious = some t) : Inv p t := by
  obtain ⟨hmain, hs⟩ := Option.ite_none_right_eq_some.mp hs
  obtain rfl := Option.some.inj hs
  obtain ⟨hshape, hmask, holdmask, hthrmask, hcame⟩ := h.core_of (by rw [hmain]; decide)
  rw [hmain] at hshape hmask holdmask
  exact ⟨.inr (.inr ⟨hshape.wake, hmask, fun _ => holdmask nofun, hthrmask, hcame⟩),
    ⟨h.told.ign, h.told.pending, h.told.took⟩⟩

theorem raise (h : Inv p s) (hended : ¬ s.main.Ended) (sig : ℕ) : Inv p (s.raise sig) := by
  obtain ⟨hshape, hmask, holdmask, hthrmask, hcame⟩ := h.core_of hended
  refine ⟨.inr (.inr ⟨hshape, (Process.mask_raise _).trans hmask, holdmask, hthrmask, fun hc => ?_⟩), ?_⟩
  · obtain hc | hsig := (Bool.or_eq_true _ _).mp hc
    · exact (hcame hc).imp_left (Process.pending_raise _)
    · exact .inl (of_decide_eq_true hsig).2
  · refine ⟨fun hign hmem => ?_, fun hmem => ?_, fun htook => (Bool.or_eq_true _ _).mpr (.inl (h.told.took htook))⟩
    · simp only [State.raise, Process.disp_raise] at hign
      obtain hmem | ⟨rfl, hne⟩ := (Process.mem_pending_raise _).mp hmem
      · exact h.told.ign hign hmem
      · exact hne hign
    · obtain hold | ⟨rfl, -⟩ := (Process.mem_pending_raise _).mp hmem
      · exact (Bool.or_eq_true _ _).mpr (.inl (h.told.pending hold))
      · exact (Bool.or_eq_true _ _).mpr (.inr (decide_eq_true ⟨rfl, hmem⟩))

theorem deliver {sig : ℕ} (h : Inv p s) (hended : ¬ s.main.Ended) (hs : s.deliver sig = some t) : Inv p t := by
  obtain ⟨⟨hmem, hmask⟩, hs⟩ := Option.ite_none_right_eq_some.mp hs
  have hcore := h.core_of hended
  have hpending : SIGQUIT ∈ (s.process.deliver sig).pending → SIGQUIT ∈ s.process.pending := Finset.mem_of_mem_erase
  have htold : Told { s with process := s.process.deliver sig } :=
    ⟨fun hign hq => h.told.ign hign (hpending hq), fun hq => h.told.pending (hpending hq), h.told.took⟩
  dsimp only at hs
  split at hs
  · rename_i hkeeps
    obtain rfl := Option.some.inj hs
    refine ⟨.inr (.inr ⟨hcore.shape, hcore.mask, hcore.oldmask, hcore.thrmask, fun hcame => ?_⟩), htold⟩
    by_cases htook : s.thr.Took
    · exact .inr htook
    · refine (hcore.came hcame).imp_left fun hq => Process.pending_deliver _ hq ?_
      rintro rfl
      obtain hign | hmild := hkeeps
      · exact h.told.ign hign hmem
      · exact absurd hmild (by decide)
  · obtain rfl := Option.some.inj hs
    exact ⟨.inr (.inl rfl), ⟨htold.ign, htold.pending, htold.took⟩⟩

theorem step {a : Act} (h : Inv p s) (hs : step s a = some t) : Inv p t := by
  obtain ⟨hended, hs⟩ := Option.ite_none_left_eq_some.mp hs
  cases a with
  | main => exact h.moveMain hs
  | thr => exact h.moveThr hended hs
  | fail q =>
    cases q <;> obtain ⟨-, hs⟩ := Option.ite_none_right_eq_some.mp hs <;> obtain rfl := Option.some.inj hs <;>
      exact h.ended (.inl rfl)
  | sigwait sig => exact h.sigwait hended hs
  | spurious => exact h.spurious hs
  | raise sig => exact Option.some.inj hs ▸ h.raise hended sig
  | deliver sig => exact h.deliver hended hs

theorem passed (h : Inv p s) (hpassed : s.main.Passed) : s.came = true := by
  have hcore : Core p s := (h.core.resolve_left fun hm => by rw [hm] at hpassed; exact hpassed).resolve_left
    fun hm => by rw [hm] at hpassed; exact hpassed
  have htold := hcore.shape.passed hpassed
  refine h.told.took ?_
  cases hthr : s.thr <;> rw [hthr] at htold <;> trivial

theorem right (h : Inv p s) : Right p s where
  asleep hmain := (h.core_of (by rw [hmain]; decide)).shape.asleep hmain
  apart := by
    rintro (hmain | hmain) hthr
    · have hshape := (h.core_of (by rw [hmain]; decide)).shape
      have hholds := hshape.holdsMain.mpr (by rw [hmain]; trivial)
      rw [hshape.holdsThr.mpr (by rw [hthr]; trivial)] at hholds
      cases hholds
    · have htold := (h.core_of (by rw [hmain]; decide)).shape.passed (by rw [hmain]; trivial)
      rw [hthr] at htold
      exact htold
  expected hended := (h.core_of hended).shape.expected
  masked := by
    intro hsigmask hexit hended sig hsig
    have hcore := h.core_of hended
    have hin : sig ∈ s.process.mask := by
      rw [hcore.mask]
      cases hmain : s.main with
      | sigmask => exact absurd hmain hsigmask
      | exit => exact absurd hmain hexit
      | exited => exact absurd (.inl hmain) hended
      | _ => exact Finset.mem_union_right _ hsig
    refine if_neg ?_
    rintro ⟨-, hout | ⟨hthr, hout⟩⟩
    · exact hout hin
    · rw [hcore.thrmask hthr] at hout
      exact hout (Finset.mem_union_right _ hsig)
  mask := by
    rintro (hmain | hmain)
    · rw [(h.core_of (by rw [hmain]; decide)).mask, hmain]
      rfl
    · obtain hfailed | hkilled | hcore := h.core
      · rw [hmain] at hfailed
        cases hfailed
      · rw [hmain] at hkilled
        cases hkilled
      · rw [hcore.mask, hmain]
        rfl

end Inv

/-! ### Every run -/

/-- How far `main` is from going to sleep, or from the end. -/
def Main.rank : Main → ℕ
  | .sigmask => 60
  | .create => 50
  | .lock | .relock => 9
  | .test => 8
  | .unlock => 6
  | .clear => 5
  | .restore => 4
  | .exit => 3
  | .waiting => 1
  | .exited | .failed | .killed => 0

/-- How far `thr_fn` is from the next signal, or from the end. -/
def Thr.rank : Thr → ℕ
  | .lock => 40
  | .set => 30
  | .unlock => 25
  | .signal => 20
  | .print => 11
  | .sigwait => 10
  | .none | .unexpected | .returned => 0

/-- Every signal is taken once, and `main` is woken up once. -/
def State.fuel (s : State) : ℕ ×ₗ ℕ := toLex (s.process.pending.card, s.main.rank + s.thr.rank)

theorem fuel_lt_of_rank (hpending : t.process.pending = s.process.pending)
    (hrank : t.main.rank + t.thr.rank < s.main.rank + s.thr.rank) : t.fuel < s.fuel :=
  Prod.Lex.toLex_lt_toLex.mpr (.inr ⟨congrArg Finset.card hpending, hrank⟩)

theorem fuel_lt_of_taken {sig : ℕ} (hmem : sig ∈ s.process.pending)
    (hpending : t.process.pending = s.process.pending.erase sig) : t.fuel < s.fuel :=
  Prod.Lex.toLex_lt_toLex.mpr (.inl (by rw [hpending]; exact Finset.card_erase_lt_of_mem hmem))

theorem rank_pos (hended : ¬ s.main.Ended) : 0 < s.main.rank := by
  cases hmain : s.main with
  | exited => exact absurd (.inl hmain) hended
  | failed => exact absurd (.inr (.inl hmain)) hended
  | killed => exact absurd (.inr (.inr hmain)) hended
  | _ => decide

theorem ended_fuel (hended : ¬ s.main.Ended) : ({ s with main := .failed } : State).fuel < s.fuel :=
  fuel_lt_of_rank rfl (Nat.add_lt_add_right (rank_pos hended) _)

theorem moveMain_fuel (h : Inv p s) (hs : s.moveMain = some t) : t.fuel < s.fuel := by
  unfold State.moveMain at hs
  split at hs
  case h_2 hmain =>
    have hthr : s.thr = .none := (h.core_of (by rw [hmain]; decide)).shape.early.mpr (by rw [hmain]; trivial)
    obtain rfl := Option.some.inj hs
    exact fuel_lt_of_rank rfl (by simp [hmain, hthr, Main.rank, Thr.rank])
  case h_3 hmain | h_4 hmain =>
    obtain ⟨mutex, -, rfl⟩ := Option.map_eq_some_iff.mp hs
    exact fuel_lt_of_rank rfl (by simp [hmain, Main.rank])
  case h_5 hmain =>
    split at hs <;> obtain rfl := Option.some.inj hs <;> exact fuel_lt_of_rank rfl (by simp [hmain, Main.rank])
  case h_6 | h_11 | h_12 | h_13 => cases hs
  all_goals
    rename_i hmain
    obtain rfl := Option.some.inj hs
    exact fuel_lt_of_rank rfl (by simp [hmain, Main.rank])

theorem moveThr_fuel (hended : ¬ s.main.Ended) (hs : s.moveThr = some t) : t.fuel < s.fuel := by
  unfold State.moveThr at hs
  split at hs
  case h_5 hthr =>
    obtain ⟨mutex, -, rfl⟩ := Option.map_eq_some_iff.mp hs
    exact fuel_lt_of_rank rfl (by simp [hthr, Thr.rank])
  case h_8 hthr =>
    obtain rfl := Option.some.inj hs
    refine fuel_lt_of_rank rfl ?_
    simp only [hthr]
    split
    · rename_i hmain
      simp [hmain, Main.rank, Thr.rank]
    · simp [Thr.rank]
  case h_9 hthr =>
    exact Option.some.inj hs ▸ ended_fuel hended
  case h_1 | h_2 | h_3 => cases hs
  all_goals
    rename_i hthr
    obtain rfl := Option.some.inj hs
    exact fuel_lt_of_rank rfl (by simp [hthr, Thr.rank])

theorem fuel_lt {a : Act} (h : Inv p s) (hquiet : a.Quiet) (hs : step s a = some t) : t.fuel < s.fuel := by
  obtain ⟨hended, hs⟩ := Option.ite_none_left_eq_some.mp hs
  cases a with
  | main => exact moveMain_fuel h hs
  | thr => exact moveThr_fuel hended hs
  | fail q =>
    cases q <;> obtain ⟨-, hs⟩ := Option.ite_none_right_eq_some.mp hs <;>
      exact Option.some.inj hs ▸ ended_fuel hended
  | sigwait sig =>
    obtain ⟨⟨-, hmem, -⟩, hs⟩ := Option.ite_none_right_eq_some.mp hs
    obtain rfl := Option.some.inj hs
    exact fuel_lt_of_taken hmem rfl
  | spurious => exact hquiet.elim
  | raise sig => exact hquiet.elim
  | deliver sig =>
    obtain ⟨⟨hmem, -⟩, hs⟩ := Option.ite_none_right_eq_some.mp hs
    dsimp only at hs
    split at hs <;> obtain rfl := Option.some.inj hs <;> exact fuel_lt_of_taken hmem rfl

theorem moveMain_cases (s : State) : s.main.Ended ∨ (∃ t, s.moveMain = some t) ∨ s.main = .waiting ∨
    ((s.main = .lock ∨ s.main = .relock) ∧ s.mutex ≠ none) := by
  cases hmain : s.main with
  | exited => exact .inl (.inl rfl)
  | failed => exact .inl (.inr (.inl rfl))
  | killed => exact .inl (.inr (.inr rfl))
  | waiting => exact .inr (.inr (.inl rfl))
  | lock | relock =>
    cases hmutex : s.mutex with
    | none => exact .inr (.inl (by simp [State.moveMain, hmain, hmutex, Mutex.lock]))
    | some q => exact .inr (.inr (.inr ⟨by simp, Option.some_ne_none q⟩))
  | test =>
    refine .inr (.inl ?_)
    unfold State.moveMain
    rw [hmain]
    dsimp only
    split <;> exact ⟨_, rfl⟩
  | _ => exact .inr (.inl (by simp [State.moveMain, hmain]))

theorem moveThr_cases (s : State) : (∃ t, s.moveThr = some t) ∨ s.thr = .none ∨ s.thr = .sigwait ∨ s.thr = .returned ∨
    (s.thr = .lock ∧ s.mutex ≠ none) := by
  cases hthr : s.thr with
  | none => exact .inr (.inl rfl)
  | sigwait => exact .inr (.inr (.inl rfl))
  | returned => exact .inr (.inr (.inr (.inl rfl)))
  | lock =>
    cases hmutex : s.mutex with
    | none => exact .inl (by simp [State.moveThr, hthr, hmutex, Mutex.lock])
    | some q => exact .inr (.inr (.inr (.inr ⟨rfl, Option.some_ne_none q⟩)))
  | _ => exact .inl (by simp [State.moveThr, hthr])

theorem goes (h : Inv p s) (hcame : s.came = true) : s.main.Ended ∨ ∃ a t, a.Quiet ∧ step s a = some t := by
  by_cases hended : s.main.Ended
  · exact .inl hended
  refine .inr ?_
  obtain ⟨hshape, -, -, -, hcore⟩ := h.core_of hended
  have hstep {a : Act} : step s a = (match a with
      | .main => s.moveMain
      | .thr => s.moveThr
      | .fail p => s.fail p
      | .sigwait sig => s.sigwait sig
      | .spurious => s.spurious
      | .raise sig => some (s.raise sig)
      | .deliver sig => s.deliver sig) := if_neg hended
  obtain hmain | ⟨t, ht⟩ | hmain | ⟨hmain, hmutex⟩ := moveMain_cases s
  · exact absurd hmain hended
  · exact ⟨.main, t, trivial, hstep.trans ht⟩
  · obtain ⟨t, ht⟩ | hthr | hthr | hthr | ⟨hthr, hmutex⟩ := moveThr_cases s
    · exact ⟨.thr, t, trivial, hstep.trans ht⟩
    · have hearly := hshape.early.mp hthr
      rw [hmain] at hearly
      exact hearly.elim
    · have hmem : SIGQUIT ∈ s.process.pending := by
        rw [hthr] at hcore
        exact (hcore hcame).resolve_right id
      exact ⟨.sigwait SIGQUIT, _, trivial, hstep.trans (if_pos ⟨hthr, hmem, by decide⟩)⟩
    · exact absurd hthr (hshape.asleep hmain)
    · -- nobody holds the mutex
      obtain ⟨q, hq⟩ := Option.ne_none_iff_exists'.mp hmutex
      cases q with
      | main =>
        have hholds := hshape.holdsMain.mp hq
        rw [hmain] at hholds
        exact hholds.elim
      | thr =>
        have hholds := hshape.holdsThr.mp hq
        rw [hthr] at hholds
        exact hholds.elim
  · have hthr : s.thr.Holds := by
      obtain ⟨q, hq⟩ := Option.ne_none_iff_exists'.mp hmutex
      cases q with
      | main =>
        have hholds := hshape.holdsMain.mp hq
        rcases hmain with hmain | hmain <;> rw [hmain] at hholds <;> exact hholds.elim
      | thr => exact hshape.holdsThr.mp hq
    obtain ⟨t, ht⟩ | hidle := moveThr_cases s
    · exact ⟨.thr, t, trivial, hstep.trans ht⟩
    · rcases hidle with hidle | hidle | hidle | ⟨hidle, -⟩ <;> rw [hidle] at hthr <;> exact hthr.elim

theorem moveMain_came (hs : s.moveMain = some t) : t.came = s.came := by
  unfold State.moveMain at hs
  split at hs
  case h_3 | h_4 =>
    obtain ⟨mutex, -, rfl⟩ := Option.map_eq_some_iff.mp hs
    rfl
  case h_5 => split at hs <;> exact Option.some.inj hs ▸ rfl
  case h_6 | h_11 | h_12 | h_13 => cases hs
  all_goals exact Option.some.inj hs ▸ rfl

theorem moveThr_came (hs : s.moveThr = some t) : t.came = s.came := by
  unfold State.moveThr at hs
  split at hs
  case h_5 =>
    obtain ⟨mutex, -, rfl⟩ := Option.map_eq_some_iff.mp hs
    rfl
  case h_1 | h_2 | h_3 => cases hs
  all_goals exact Option.some.inj hs ▸ rfl

theorem came_step {a : Act} (hcame : s.came = true) (hs : step s a = some t) : t.came = true := by
  obtain ⟨-, hs⟩ := Option.ite_none_left_eq_some.mp hs
  cases a with
  | main => exact (moveMain_came hs).trans hcame
  | thr => exact (moveThr_came hs).trans hcame
  | fail q => cases q <;> obtain ⟨-, hs⟩ := Option.ite_none_right_eq_some.mp hs <;> exact Option.some.inj hs ▸ hcame
  | sigwait sig =>
    obtain ⟨-, hs⟩ := Option.ite_none_right_eq_some.mp hs
    exact Option.some.inj hs ▸ hcame
  | spurious =>
    obtain ⟨-, hs⟩ := Option.ite_none_right_eq_some.mp hs
    exact Option.some.inj hs ▸ hcame
  | raise sig => exact Option.some.inj hs ▸ (Bool.or_eq_true _ _).mpr (.inl hcame)
  | deliver sig =>
    obtain ⟨-, hs⟩ := Option.ite_none_right_eq_some.mp hs
    dsimp only at hs
    split at hs <;> exact Option.some.inj hs ▸ hcame

/-- `main` leaves the loop only when there has been a `SIGQUIT`, and it cannot miss one; the two threads are never at
`quitflag` together. -/
theorem quit_thread_run (p : Process Empty) (hign : (p.disp SIGQUIT).handler = .ign → SIGQUIT ∉ p.pending) :
    Awaits step Act.Quiet (fun s => s.came = true) (fun s => s.main.Passed) (fun s => s.main.Ended) (.entry p) ∧
      ∀ s, Reaches step (.entry p) s → Right p s := by
  constructor
  · exact Awaits.of_invariant State.fuel (fun s a t h hs => h.step hs) (fun s h => h.passed)
      (fun s a t _ hcame hs => came_step hcame hs) (fun s h => goes h) (fun s a t h hquiet hs => fuel_lt h hquiet hs)
      (entry_inv hign)
  · exact fun s hs => (hs.invariant (fun _ _ _ h hstep => Inv.step h hstep) (entry_inv hign)).right

/-- A `SIGINT` comes first, and the `SIGQUIT` while `main` is between the test and the end of `pthread_cond_wait`. -/
theorem quit_thread_run_between : ∃ s, Reaches step (.entry ⟨fun _ => ⟨.dfl, ∅, 0⟩, ∅, ∅⟩) s ∧ s.main = .exited ∧
    s.lines = 1 ∧ Right ⟨fun _ => ⟨.dfl, ∅, 0⟩, ∅, ∅⟩ s := by
  have hrun : Reaches step (.entry ⟨fun _ => ⟨.dfl, ∅, 0⟩, ∅, ∅⟩) _ :=
    ⟨[.main, .main, .raise SIGINT, .main, .raise SIGQUIT, .sigwait SIGINT, .thr, .sigwait SIGQUIT, .main, .thr, .thr,
      .spurious, .thr, .thr, .main, .main, .main, .main, .main, .main], rfl⟩
  exact ⟨_, hrun, rfl, rfl, (quit_thread_run ⟨fun _ => ⟨.dfl, ∅, 0⟩, ∅, ∅⟩ (by decide)).2 _ hrun⟩

end Apue.QuitThread

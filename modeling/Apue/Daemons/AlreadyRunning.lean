import Apue.Lib.CString
import Apue.Lib.File
import Apue.Lib.Transition
import Mathlib.Logic.Function.Basic

/-!
# The single-instance daemon (Chapter-13/13-6.c, Chapter-14/14-9.c)

Any number of processes `P` start, call `already_running`, any number of times, and exit or are killed at
any moment. `LOCKFILE` is one file with whatever an earlier holder left in it. A `fcntl` write lock
excludes other processes, and the holder loses it by exiting or by closing the file.

`write` is given `strlen(buf)-1` bytes of the pid, so its last digit is never written:
`already_running_run` says that the lock keeps out every second daemon and that the file never names the
one that runs.
-/

namespace Apue.Daemons
open Transition

/-- A `pid_t` of a process. -/
structure Pid where
  val : ℕ
  pos : 0 < val
  lt : val < 2 ^ 31

/-- `sprintf(buf, "%ld", (long)getpid())`. -/
def Pid.buf (pid : Pid) : CStr := .digits pid.val

theorem Pid.length_buf_lt (pid : Pid) : pid.buf.length < 16 := by
  have hlen : (CStr.digitBytes pid.val).length ≤ 10 :=
    CStr.length_digitBytes_le (by omega) (Nat.lt_trans pid.lt (by norm_num))
  show (CStr.digitBytes pid.val).length < 16
  omega

namespace AlreadyRunning

variable {P : Type*}

inductive Pc where
  | unborn
  | run
  -- the statements of already_running, after open
  | lock
  | ftruncate
  | write
  | close
  | exited
  deriving DecidableEq

structure State (P : Type*) where
  file : List UInt8
  /-- Who has the write lock on the file. -/
  holder : Option P
  pc : P → Pc
  /-- A call of `already_running` has returned 0. -/
  won : P → Bool

/-- What `lockfile` returns: 0, or -1 with `EACCES` or `EAGAIN`, or -1 with another error. -/
inductive LockResult where
  | locked
  | busy
  | failed
  deriving DecidableEq

variable [DecidableEq P]

def lockfile (holder : Option P) (p : P) (failed : Bool) : LockResult :=
  if failed then .failed else if holder = none ∨ holder = some p then .locked else .busy

namespace State

def goto (s : State P) (p : P) (pc : Pc) : State P := { s with pc := Function.update s.pc p pc }

/-- The locks of a process that exits or closes the file are gone. -/
def unlock (s : State P) (p : P) : State P :=
  { s with holder := if s.holder = some p then none else s.holder }

def exit (s : State P) (p : P) : State P := (s.unlock p).goto p .exited

end State

/-- What a process does: it starts, calls `already_running`, goes on in the call, or exits. `opened` and
`failed` are the outcomes of `open` and of a `fcntl` that fails for a reason of its own. -/
inductive Act (P : Type*) where
  | start (p : P)
  | call (p : P) (opened : Bool)
  | next (p : P) (failed : Bool)
  | exit (p : P)

def step (pid : P → Pid) (s : State P) : Act P → Option (State P)
  | .start p => if s.pc p = .unborn then some (s.goto p .run) else none
  | .call p opened =>
    if s.pc p = .run then some (if opened then s.goto p .lock else s.exit p) else none
  | .next p failed =>
    match s.pc p with
    | .lock =>
      match lockfile s.holder p failed with
      | .locked => some { s.goto p .ftruncate with holder := some p }
      | .busy => some (s.goto p .close)
      | .failed => some (s.exit p)
    | .ftruncate => some { s.goto p .write with file := [] }
    | .write =>
      let buf := (pid p).buf
      some { s.goto p .run with
        file := File.pwrite 0 s.file 0 (buf.bytes.take (buf.length - 1))
        won := Function.update s.won p true }
    | .close => some ((s.unlock p).goto p .run)
    | _ => none
  | .exit p => if s.pc p ≠ .unborn ∧ s.pc p ≠ .exited then some (s.exit p) else none

/-- Nobody has started; the file may hold anything. -/
def start (file : List UInt8) : State P := ⟨file, none, fun _ => .unborn, fun _ => false⟩

/-- A live process to which `already_running` has returned 0. -/
def State.Daemon (s : State P) (p : P) : Prop :=
  s.won p = true ∧ s.pc p ≠ .unborn ∧ s.pc p ≠ .exited

/-- The file, read as a decimal number, is the pid of the process. -/
def State.Recorded (pid : P → Pid) (s : State P) (p : P) : Prop :=
  CStr.number s.file = some (pid p).val

instance (pid : P → Pid) (s : State P) (p : P) : Decidable (s.Recorded pid p) :=
  inferInstanceAs (Decidable (_ = _))

/-! ### The invariant -/

/-- The process has the lock. -/
def Holds (pc : Pc) (won : Bool) : Prop :=
  match pc with
  | .ftruncate | .write => True
  | .run | .lock => won = true
  | .unborn | .close | .exited => False

/-- What the write of `already_running` leaves in the file. -/
def recorded (pid : Pid) : List UInt8 := (CStr.digitBytes pid.val).dropLast

structure Inv (pid : P → Pid) (s : State P) : Prop where
  holder : ∀ p, s.holder = some p ↔ Holds (s.pc p) (s.won p)
  notWon : ∀ p, s.pc p = .unborn ∨ s.pc p = .close → s.won p = false
  empty : ∀ p, s.pc p = .write → s.file = []
  written : ∀ p, s.won p = true → s.pc p = .run ∨ s.pc p = .lock ∨ s.pc p = .ftruncate →
    s.file = recorded (pid p)

variable {pid : P → Pid} {s s' : State P} {p q : P} {a : Act P}

theorem pwrite_nil (bytes : List UInt8) : File.pwrite 0 [] 0 bytes = bytes := by
  unfold File.pwrite
  split
  · exact Eq.symm ‹_›
  · simp [File.pad]

theorem take_buf (pid : Pid) : pid.buf.bytes.take (pid.buf.length - 1) = recorded pid :=
  (List.dropLast_eq_take ..).symm

/-- What the invariant says of one process. -/
structure Own (pid : P → Pid) (s : State P) (p : P) : Prop where
  holder : s.holder = some p ↔ Holds (s.pc p) (s.won p)
  notWon : s.pc p = .unborn ∨ s.pc p = .close → s.won p = false
  empty : s.pc p = .write → s.file = []
  written : s.won p = true → s.pc p = .run ∨ s.pc p = .lock ∨ s.pc p = .ftruncate → s.file = recorded (pid p)

/-- A step of `p` keeps the invariant when it leaves the other processes alone, gives the lock to `p` or
takes it from `p` only, and changes the file only while `p` has the lock. -/
theorem Inv.move (h : Inv pid s) (hpc : ∀ q, q ≠ p → s'.pc q = s.pc q ∧ s'.won q = s.won q)
    (hholder : ∀ q, q ≠ p → (s'.holder = some q ↔ s.holder = some q))
    (hfile : s'.file = s.file ∨ s.holder = some p) (hown : Own pid s' p) : Inv pid s' := by
  have hsame : ∀ q, q ≠ p → Holds (s.pc q) (s.won q) → s'.file = s.file := by
    intro q hq hholds
    obtain hfile | hp := hfile
    · exact hfile
    · have hheld := (h.holder q).mpr hholds
      exact absurd (Option.some.inj (hheld.symm.trans hp)) hq
  constructor
  · intro q
    by_cases hq : q = p
    · exact hq ▸ hown.holder
    · rw [hholder q hq, (hpc q hq).1, (hpc q hq).2]
      exact h.holder q
  · intro q
    by_cases hq : q = p
    · exact hq ▸ hown.notWon
    · rw [(hpc q hq).1, (hpc q hq).2]
      exact h.notWon q
  · intro q
    by_cases hq : q = p
    · exact hq ▸ hown.empty
    · rw [(hpc q hq).1]
      intro hw
      rw [hsame q hq (by rw [hw]; trivial)]
      exact h.empty q hw
  · intro q
    by_cases hq : q = p
    · exact hq ▸ hown.written
    · rw [(hpc q hq).1, (hpc q hq).2]
      intro hwon hw
      rw [hsame q hq ?_]
      · exact h.written q hwon hw
      · obtain hw | hw | hw := hw <;> rw [hw]
        exacts [hwon, hwon, trivial]

theorem Inv.goto (h : Inv pid s) {pc : Pc} (hholder : s.holder = some p ↔ Holds pc (s.won p))
    (hnotWon : pc = .unborn ∨ pc = .close → s.won p = false) (hempty : pc = .write → s.file = [])
    (hwritten : s.won p = true → pc = .run ∨ pc = .lock ∨ pc = .ftruncate → s.file = recorded (pid p)) :
    Inv pid (s.goto p pc) := by
  refine h.move (fun _ hq => ⟨Function.update_of_ne hq .., rfl⟩) (fun _ _ => Iff.rfl) (Or.inl rfl) ?_
  have hpc : (s.goto p pc).pc p = pc := Function.update_self ..
  refine ⟨?_, ?_, ?_, ?_⟩ <;> rw [hpc]
  exacts [hholder, hnotWon, hempty, hwritten]

theorem unlock_holder_of_ne (hq : q ≠ p) : (s.unlock p).holder = some q ↔ s.holder = some q := by
  unfold State.unlock
  split
  · rename_i hp
    simp [hp, Ne.symm hq]
  · rfl

theorem unlock_holder_self : (s.unlock p).holder ≠ some p := by
  unfold State.unlock
  split
  · simp
  · assumption

theorem Inv.exit (h : Inv pid s) : Inv pid (s.exit p) := by
  refine h.move (fun _ hq => ⟨Function.update_of_ne hq .., rfl⟩) (fun _ => unlock_holder_of_ne)
    (Or.inl rfl) ?_
  have hpc : (s.exit p).pc p = .exited := Function.update_self ..
  refine ⟨?_, ?_, ?_, ?_⟩ <;> rw [hpc]
  · exact iff_of_false unlock_holder_self id
  all_goals simp

theorem Inv.locked (h : Inv pid s) (hp : s.pc p = .lock) (hfree : s.holder = none ∨ s.holder = some p) :
    Inv pid { s.goto p .ftruncate with holder := some p } := by
  refine h.move (fun _ hq => ⟨Function.update_of_ne hq .., rfl⟩) (fun q hq => ?_) (Or.inl rfl) ?_
  · obtain hfree | hfree := hfree <;> simp [hfree, Ne.symm hq]
  · have hpc : ({ s.goto p .ftruncate with holder := some p } : State P).pc p = .ftruncate :=
      Function.update_self ..
    refine ⟨?_, ?_, ?_, fun hwon _ => h.written p hwon (Or.inr (Or.inl hp))⟩ <;> rw [hpc] <;> simp [Holds]

theorem Inv.ftruncate (h : Inv pid s) (hp : s.pc p = .ftruncate) :
    Inv pid { s.goto p .write with file := [] } := by
  have hheld : s.holder = some p := by
    rw [h.holder, hp]
    trivial
  refine h.move (fun _ hq => ⟨Function.update_of_ne hq .., rfl⟩) (fun _ _ => Iff.rfl) (Or.inr hheld) ?_
  have hpc : ({ s.goto p .write with file := [] } : State P).pc p = .write := Function.update_self ..
  refine ⟨?_, ?_, fun _ => rfl, ?_⟩ <;> rw [hpc]
  · exact iff_of_true hheld trivial
  all_goals simp

theorem Inv.write (h : Inv pid s) (hp : s.pc p = .write) :
    Inv pid { s.goto p .run with file := recorded (pid p), won := Function.update s.won p true } := by
  have hheld : s.holder = some p := by
    rw [h.holder, hp]
    trivial
  refine h.move (fun _ hq => ⟨Function.update_of_ne hq .., Function.update_of_ne hq ..⟩)
    (fun _ _ => Iff.rfl) (Or.inr hheld) ?_
  have hpc : Function.update s.pc p .run p = .run := Function.update_self ..
  have hwon : Function.update s.won p true p = true := Function.update_self ..
  refine ⟨iff_of_true hheld ?_, ?_, ?_, fun _ _ => rfl⟩
  · show Holds (Function.update s.pc p .run p) (Function.update s.won p true p)
    rw [hpc, hwon]
    rfl
  · show Function.update s.pc p .run p = _ ∨ Function.update s.pc p .run p = _ → _
    simp
  · show Function.update s.pc p .run p = _ → _
    simp

theorem step_inv (pid : P → Pid) (s : State P) (a : Act P) (s' : State P) (h : Inv pid s)
    (hs : step pid s a = some s') : Inv pid s' := by
  cases a with
  | start p =>
    obtain ⟨hp, hs⟩ := Option.ite_none_right_eq_some.mp hs
    obtain rfl := Option.some.inj hs
    have hwon := h.notWon p (Or.inl hp)
    apply h.goto
    · rw [h.holder, hp]
      simp [Holds, hwon]
    all_goals simp [hwon]
  | call p opened =>
    obtain ⟨hp, hs⟩ := Option.ite_none_right_eq_some.mp hs
    obtain rfl := Option.some.inj hs
    cases opened with
    | false => exact h.exit
    | true =>
      apply h.goto
      · rw [h.holder, hp]
        rfl
      · simp
      · simp
      · exact fun hwon _ => h.written p hwon (Or.inl hp)
  | next p failed =>
    simp only [step] at hs
    split at hs
    case h_1 hp =>
      split at hs
      case h_1 hlock =>
        obtain rfl := Option.some.inj hs
        refine h.locked hp ?_
        unfold lockfile at hlock
        split at hlock
        · cases hlock
        · split at hlock
          · assumption
          · cases hlock
      case h_2 hlock =>
        obtain rfl := Option.some.inj hs
        have hnot : s.holder ≠ some p := by
          intro hheld
          unfold lockfile at hlock
          rw [if_pos (Or.inr hheld)] at hlock
          split at hlock <;> cases hlock
        have hwon : s.won p = false := by
          rw [Ne, h.holder, hp] at hnot
          simpa [Holds] using hnot
        apply h.goto
        · exact iff_of_false hnot id
        all_goals simp [hwon]
      case h_3 =>
        exact Option.some.inj hs ▸ h.exit
    case h_2 hp => exact Option.some.inj hs ▸ h.ftruncate hp
    case h_3 hp =>
      obtain rfl := Option.some.inj hs
      rw [take_buf, h.empty p hp, pwrite_nil]
      exact h.write hp
    case h_4 hp =>
      obtain rfl := Option.some.inj hs
      have hwon := h.notWon p (Or.inr hp)
      have hnot : s.holder ≠ some p := by
        rw [Ne, h.holder, hp]
        exact id
      have hsame : s.unlock p = s := by
        simp [State.unlock, hnot]
      rw [hsame]
      apply h.goto
      · simp [Holds, hwon, hnot]
      all_goals simp [hwon]
    case h_5 => cases hs
  | exit p =>
    obtain ⟨-, hs⟩ := Option.ite_none_right_eq_some.mp hs
    exact Option.some.inj hs ▸ h.exit

omit [DecidableEq P] in
theorem start_inv (pid : P → Pid) (file : List UInt8) : Inv pid (start file : State P) := by
  constructor <;> simp [start, Holds]

/-! ### Every run -/

omit [DecidableEq P] in
theorem Inv.holder_of_daemon (h : Inv pid s) (hp : s.Daemon p) : s.holder = some p := by
  obtain ⟨hwon, hborn, hlive⟩ := hp
  have hopen : s.pc p ≠ .close := by
    intro hpc
    have hnot := h.notWon p (Or.inr hpc)
    rw [hwon] at hnot
    cases hnot
  rw [h.holder]
  cases hpc : s.pc p <;> simp_all [Holds]

/-- At most one process is the daemon, and `LOCKFILE` holds its pid without the last digit, or nothing
while it calls again: never its pid. -/
theorem already_running_run (pid : P → Pid) (file : List UInt8)
    (h : Reaches (step pid) (start file) s) :
    (∀ p q, s.Daemon p → s.Daemon q → p = q) ∧
      ∀ p, s.Daemon p → ¬ s.Recorded pid p ∧ (s.pc p = .run → s.file = recorded (pid p)) := by
  have hinv : Inv pid s := h.invariant (step_inv pid) (start_inv pid file)
  refine ⟨fun p q hp hq => ?_, fun p hp => ⟨fun hrec => ?_, fun hpc => hinv.written p hp.1 (Or.inl hpc)⟩⟩
  · exact Option.some.inj ((hinv.holder_of_daemon hp).symm.trans (hinv.holder_of_daemon hq))
  · have hheld := hinv.holder_of_daemon hp
    rw [hinv.holder] at hheld
    have hfile : s.file = recorded (pid p) ∨ s.file = [] := by
      cases hpc : s.pc p with
      | write => exact Or.inr (hinv.empty p hpc)
      | run | lock | ftruncate => exact Or.inl (hinv.written p hp.1 (by simp [hpc]))
      | unborn | close | exited =>
        rw [hpc] at hheld
        exact hheld.elim
    unfold State.Recorded at hrec
    obtain hfile | hfile := hfile <;> rw [hfile] at hrec
    · exact CStr.number_dropLast_digitBytes _ hrec
    · cases hrec

/-- Pids 1234 and 1235. -/
def twoPids (p : Fin 2) : Pid := ⟨1234 + p.val, by omega, by omega⟩

/-- Both processes start and call `already_running`; the first one gets 0, the second one 1. -/
def bothCall {P : Type*} (p q : P) : List (Act P) :=
  [.start p, .start q, .call p true, .call q true, .next p false, .next q false, .next p false,
    .next q false, .next p false]

theorem already_running_run_bothCall : ∃ s, run (step twoPids) (start (ascii "777777")) (bothCall 0 1) = some s ∧
    (∀ p q, s.Daemon p → s.Daemon q → p = q) ∧
    ∀ p, s.Daemon p → ¬ s.Recorded twoPids p ∧ (s.pc p = .run → s.file = recorded (twoPids p)) :=
  ⟨_, rfl, already_running_run twoPids (ascii "777777") ⟨bothCall 0 1, rfl⟩⟩

/-- The first process is the daemon, and the file says 123 instead of 1234. -/
theorem lockfile_misses_digit : ∃ s, run (step twoPids) (start (ascii "777777")) (bothCall 0 1) = some s ∧
    s.Daemon 0 ∧ s.file = ascii "123" ∧ ¬ s.Recorded twoPids 0 := by
  refine ⟨_, rfl, ⟨rfl, by decide, by decide⟩, by decide, fun hrec => ?_⟩
  have hnumber : CStr.number (ascii "123") = some 123 := by simp [CStr.number, ascii]
  exact absurd (hnumber.symm.trans hrec) (by decide)

end AlreadyRunning

end Apue.Daemons

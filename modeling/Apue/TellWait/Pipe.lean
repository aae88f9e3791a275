import Apue.Lib.Handshake
import Apue.Lib.Transition

/-!
# The handshake over two pipes (Chapter-15/15-7.c)

Parent and child run programs made of `TELL_CHILD` and `WAIT_CHILD` calls in the parent and
`TELL_PARENT` and `WAIT_PARENT` calls in the child. After `TELL_WAIT` and `fork` both processes hold
both ends of `pfd1` and `pfd2`, until they exit.

* A byte in a pipe is kept together with the process that wrote it.
* `pipe_tell_wait_run`: every wait takes one tell, nobody sleeps who was told, nobody reads a wrong byte
  or one of its own.
* `counts_step`: every step is a step of the counting handshake, or none.
-/

namespace Apue.TellWait

/-- The two processes after `fork`. -/
inductive Side where
  | parent
  | child
  deriving DecidableEq, Repr

def Side.peer : Side → Side
  | .parent => .child
  | .child => .parent

@[simp] theorem Side.peer_peer (p : Side) : p.peer.peer = p := by cases p <;> rfl

theorem Side.peer_ne (p : Side) : p.peer ≠ p := by cases p <;> decide

theorem Side.eq_or_eq_peer (p q : Side) : q = p ∨ q = p.peer := by cases p <;> cases q <;> decide

/-- What a program calls: to tell the other process, or to wait for it. -/
inductive Call where
  | tell
  | wait
  deriving DecidableEq, Repr

end Apue.TellWait

namespace Apue.TellWait.Pipe
open Transition Handshake

inductive Fd where
  | pfd1
  | pfd2
  deriving DecidableEq

/-- The system call a function makes: `write` of one byte, or `read` of one byte that must be `c`. -/
inductive Op where
  | write (fd : Fd) (c : Char)
  | read (fd : Fd) (c : Char)

def TELL_PARENT : Op := .write .pfd2 'c'
def WAIT_PARENT : Op := .read .pfd1 'p'
def TELL_CHILD : Op := .write .pfd1 'p'
def WAIT_CHILD : Op := .read .pfd2 'c'

/-- The function that a process calls to tell the other one, or to wait for it. -/
def op : Side → Call → Op
  | .parent, .tell => TELL_CHILD
  | .parent, .wait => WAIT_CHILD
  | .child, .tell => TELL_PARENT
  | .child, .wait => WAIT_PARENT

/-- A byte in a pipe, and who wrote it. -/
structure Msg where
  byte : Char
  writer : Side
  deriving DecidableEq

inductive Pc where
  | run
  | call (c : Call)
  | exited
  | errSys
  | errQuit
  deriving DecidableEq

structure State where
  counts : Counts Side
  pipe : Fd → List Msg
  pc : Side → Pc
  /-- The calls a process has still to make. -/
  prog : Side → List Call
  /-- The bytes a process has read. -/
  got : Side → List Msg

/-- The process has all four descriptors open. -/
def State.HasEnds (s : State) (p : Side) : Prop := s.pc p ≠ .exited ∧ s.pc p ≠ .errSys ∧ s.pc p ≠ .errQuit

instance (s : State) (p : Side) : Decidable (s.HasEnds p) := inferInstanceAs (Decidable (_ ∧ _))

def State.goto (s : State) (p : Side) (pc : Pc) : State := { s with pc := Function.update s.pc p pc }

def State.send (s : State) (p : Side) (fd : Fd) (m : Msg) : State :=
  { s with
    counts := s.counts.tell p
    pipe := Function.update s.pipe fd (s.pipe fd ++ [m]) }

/-- The process takes the byte `m` from the pipe and leaves `rest`. -/
def State.take (s : State) (p : Side) (fd : Fd) (m : Msg) (rest : List Msg) : State :=
  { s with
    pipe := Function.update s.pipe fd rest
    got := Function.update s.got p (s.got p ++ [m]) }

/-- The wait of the process returns. -/
def State.woken (s : State) (p : Side) : State := { s with counts := s.counts.wait p }

/-- The system call `o` of the process `p`, with room for `cap` bytes in a pipe. A full pipe makes
`write` wait and an empty one makes `read` wait, as long as somebody holds the other end. -/
def State.io (s : State) (cap : ℕ) (p : Side) : Op → Option State
  | .write fd c =>
    if s.HasEnds .parent ∨ s.HasEnds .child then
      if (s.pipe fd).length < cap then
        some ((s.send p fd ⟨c, p⟩).goto p .run)
      else none
    else some (s.goto p .errSys)
  | .read fd c =>
    match s.pipe fd with
    | [] => if s.HasEnds .parent ∨ s.HasEnds .child then none else some (s.goto p .errSys)
    | m :: rest =>
      if m.byte = c then some (((s.take p fd m rest).woken p).goto p .run)
      else some ((s.take p fd m rest).goto p .errQuit)

/-- A process makes the next call of its program, goes on in the call it is in, or exits. -/
inductive Act where
  | call (p : Side)
  | io (p : Side)
  | exit (p : Side)

def step (cap : ℕ) (s : State) : Act → Option State
  | .call p =>
    match s.pc p, s.prog p with
    | .run, c :: rest => some { s.goto p (.call c) with prog := Function.update s.prog p rest }
    | _, _ => none
  | .io p =>
    match s.pc p with
    | .call c => s.io cap p (op p c)
    | _ => none
  | .exit p => if s.pc p = .run then some (s.goto p .exited) else none

/-- After `TELL_WAIT` and `fork`. -/
def start (prog : Side → List Call) : State where
  counts := Counts.zero
  pipe := fun _ => []
  pc := fun _ => .run
  prog := prog
  got := fun _ => []

/-! ### The invariant -/

/-- The pipe that the process writes to. -/
def out : Side → Fd
  | .parent => .pfd1
  | .child => .pfd2

/-- What the process writes. -/
def msg : Side → Msg
  | .parent => ⟨'p', .parent⟩
  | .child => ⟨'c', .child⟩

theorem op_tell (p : Side) : op p .tell = .write (out p) (msg p).byte := by cases p <;> rfl

theorem op_wait (p : Side) : op p .wait = .read (out p.peer) (msg p.peer).byte := by cases p <;> rfl

@[simp] theorem msg_writer (p : Side) : (msg p).writer = p := by cases p <;> rfl

theorem msg_eq (p : Side) : ⟨(msg p).byte, p⟩ = msg p := by cases p <;> rfl

theorem out_ne {p q : Side} (h : q ≠ p) : out q ≠ out p := by
  cases p <;> cases q <;> first | exact absurd rfl h | decide

structure Inv (s : State) : Prop where
  /-- A pipe holds as many bytes as there are tells that no wait has taken. -/
  count : ∀ p, s.counts.tells p = s.counts.waits p.peer + (s.pipe (out p)).length
  sent : ∀ p m, m ∈ s.pipe (out p) → m = msg p
  noError : ∀ p, s.pc p ≠ .errSys ∧ s.pc p ≠ .errQuit
  got : ∀ p m, m ∈ s.got p → m.writer = p.peer

variable {cap : ℕ} {s s' : State} {p : Side}

theorem Inv.goto (h : Inv s) {pc : Pc} (hpc : pc ≠ .errSys ∧ pc ≠ .errQuit) : Inv (s.goto p pc) where
  count := h.count
  sent := h.sent
  noError q := by
    show Function.update s.pc p pc q ≠ _ ∧ Function.update s.pc p pc q ≠ _
    by_cases hq : q = p
    · subst hq
      rwa [Function.update_self]
    · rw [Function.update_of_ne hq]
      exact h.noError q
  got := h.got

theorem hasEnds_of_call {c : Call} (hp : s.pc p = .call c) : s.HasEnds .parent ∨ s.HasEnds .child := by
  have hends : s.HasEnds p := by simp [State.HasEnds, hp]
  cases p with
  | parent => exact Or.inl hends
  | child => exact Or.inr hends

theorem io_tell (hp : s.pc p = .call .tell) :
    s.io cap p (op p .tell) = if (s.pipe (out p)).length < cap then
      some ((s.send p (out p) (msg p)).goto p .run) else none := by
  rw [op_tell, State.io, if_pos (hasEnds_of_call hp), msg_eq]

theorem Inv.io_wait (h : Inv s) (cap : ℕ) (hp : s.pc p = .call .wait) :
    (s.pipe (out p.peer) = [] ∧ s.io cap p (op p .wait) = none) ∨
      ∃ rest, s.pipe (out p.peer) = msg p.peer :: rest ∧ s.io cap p (op p .wait) =
        some (((s.take p (out p.peer) (msg p.peer) rest).woken p).goto p .run) := by
  rw [op_wait]
  cases hpipe : s.pipe (out p.peer) with
  | nil =>
    refine Or.inl ⟨rfl, ?_⟩
    simp only [State.io, hpipe, if_pos (hasEnds_of_call hp)]
  | cons m rest =>
    obtain rfl : m = msg p.peer := h.sent p.peer m (by simp [hpipe])
    refine Or.inr ⟨rest, rfl, ?_⟩
    simp only [State.io, hpipe, if_true]

theorem Inv.send (h : Inv s) : Inv (s.send p (out p) (msg p)) where
  count q := by
    have hq := h.count q
    show (s.counts.tell p).tells q =
      s.counts.waits q.peer + (Function.update s.pipe (out p) _ (out q)).length
    by_cases hqp : q = p
    · subst hqp
      rw [Counts.tell_tells_self, Function.update_self, List.length_append, List.length_singleton]
      omega
    · rwa [Counts.tell_tells_of_ne _ hqp, Function.update_of_ne (out_ne hqp)]
  sent q m hm := by
    change m ∈ Function.update s.pipe (out p) _ (out q) at hm
    by_cases hqp : q = p
    · subst hqp
      rw [Function.update_self, List.mem_append, List.mem_singleton] at hm
      obtain hm | hm := hm
      · exact h.sent q m hm
      · exact hm
    · rw [Function.update_of_ne (out_ne hqp)] at hm
      exact h.sent q m hm
  noError := h.noError
  got := h.got

theorem Inv.take (h : Inv s) {rest : List Msg} (hpipe : s.pipe (out p.peer) = msg p.peer :: rest) :
    Inv ((s.take p (out p.peer) (msg p.peer) rest).woken p) where
  count q := by
    have hq := h.count q
    show s.counts.tells q =
      (s.counts.wait p).waits q.peer + (Function.update s.pipe (out p.peer) rest (out q)).length
    obtain rfl | rfl := Side.eq_or_eq_peer p q
    · rw [Counts.wait_waits_of_ne _ q.peer_ne, Function.update_of_ne (out_ne q.peer_ne.symm)]
      exact hq
    · rw [hpipe, Side.peer_peer, List.length_cons] at hq
      rw [Side.peer_peer, Counts.wait_waits_self, Function.update_self]
      omega
  sent q m hm := by
    change m ∈ Function.update s.pipe (out p.peer) rest (out q) at hm
    by_cases hqp : q = p.peer
    · subst hqp
      rw [Function.update_self] at hm
      exact h.sent p.peer m (by simp [hpipe, hm])
    · rw [Function.update_of_ne (out_ne hqp)] at hm
      exact h.sent q m hm
  noError := h.noError
  got q m hm := by
    change m ∈ Function.update s.got p (s.got p ++ [msg p.peer]) q at hm
    by_cases hqp : q = p
    · subst hqp
      rw [Function.update_self, List.mem_append, List.mem_singleton] at hm
      obtain hm | rfl := hm
      · exact h.got q m hm
      · exact msg_writer q.peer
    · rw [Function.update_of_ne hqp] at hm
      exact h.got q m hm

/-- What a step can do to a state that meets the invariant: a process calls or exits, it tells, or its
wait returns. -/
theorem Inv.step_cases (h : Inv s) {a : Act} (hs : step cap s a = some s') :
    (∃ p pc prog, (pc = .exited ∨ ∃ c, pc = .call c) ∧ s' = { s.goto p pc with prog := prog }) ∨
      (∃ p, s' = (s.send p (out p) (msg p)).goto p .run) ∨
      ∃ p rest, s.pipe (out p.peer) = msg p.peer :: rest ∧
        s' = ((s.take p (out p.peer) (msg p.peer) rest).woken p).goto p .run := by
  cases a with
  | call p =>
    simp only [step] at hs
    split at hs
    · exact Or.inl ⟨p, _, _, Or.inr ⟨_, rfl⟩, (Option.some.inj hs).symm⟩
    · exact absurd hs (by simp)
  | exit p =>
    obtain ⟨-, hs⟩ := Option.ite_none_right_eq_some.mp hs
    exact Or.inl ⟨p, _, s.prog, Or.inl rfl, (Option.some.inj hs).symm⟩
  | io p =>
    cases hp : s.pc p with
    | call c =>
      simp only [step, hp] at hs
      cases c with
      | tell =>
        rw [io_tell hp] at hs
        obtain ⟨-, hs⟩ := Option.ite_none_right_eq_some.mp hs
        exact Or.inr (Or.inl ⟨p, (Option.some.inj hs).symm⟩)
      | wait =>
        obtain ⟨-, hio⟩ | ⟨rest, hpipe, hio⟩ := h.io_wait cap hp
        · exact absurd (hio.symm.trans hs) (by simp)
        · exact Or.inr (Or.inr ⟨p, rest, hpipe, (Option.some.inj (hio.symm.trans hs)).symm⟩)
    | _ => simp [step, hp] at hs

theorem step_inv (cap : ℕ) (s : State) (a : Act) (s' : State) (h : Inv s) (hs : step cap s a = some s') :
    Inv s' := by
  obtain ⟨p, pc, prog, hpc, rfl⟩ | ⟨p, rfl⟩ | ⟨p, rest, hpipe, rfl⟩ := h.step_cases hs
  · have hgoto : Inv (s.goto p pc) := by
      apply h.goto
      obtain rfl | ⟨c, rfl⟩ := hpc <;> simp
    exact ⟨hgoto.count, hgoto.sent, hgoto.noError, hgoto.got⟩
  · exact h.send.goto (by simp)
  · exact (h.take hpipe).goto (by simp)

theorem start_inv (prog : Side → List Call) : Inv (start prog) where
  count _ := rfl
  sent _ _ hm := absurd hm (by simp [start])
  noError _ := by simp [start]
  got _ _ hm := absurd hm (by simp [start])

theorem counts_step (cap : ℕ) (s : State) (a : Act) (s' : State) (h : Inv s) (hs : step cap s a = some s') :
    s'.counts = s.counts ∨ ∃ e, s.counts.step Side.peer e = some s'.counts := by
  obtain ⟨p, pc, prog, -, rfl⟩ | ⟨p, rfl⟩ | ⟨p, rest, hpipe, rfl⟩ := h.step_cases hs
  · exact Or.inl rfl
  · exact Or.inr ⟨.tell p, rfl⟩
  · refine Or.inr ⟨.wait p, ?_⟩
    have hcount := h.count p.peer
    rw [hpipe, Side.peer_peer, List.length_cons] at hcount
    exact if_pos (by omega)

/-! ### Every run -/

/-- The process is in a wait and cannot go on. -/
def State.Blocked (cap : ℕ) (s : State) (p : Side) : Prop :=
  s.pc p = .call .wait ∧ step cap s (.io p) = none

/-- A wait returns for every tell, and only then; the bytes are the right ones. -/
structure Right (cap : ℕ) (s : State) : Prop where
  balanced : s.counts.Balanced Side.peer
  woken : s.counts.Woken Side.peer (s.Blocked cap)
  noError : ∀ p, s.pc p ≠ .errSys ∧ s.pc p ≠ .errQuit
  notOwn : ∀ p m, m ∈ s.got p → m.writer ≠ p

theorem Inv.woken (h : Inv s) : s.counts.Woken Side.peer (s.Blocked cap) := by
  intro p hblocked
  obtain ⟨hp, hnone⟩ := hblocked
  simp only [step, hp] at hnone
  obtain ⟨hempty, -⟩ | ⟨rest, -, hio⟩ := h.io_wait cap hp
  · have hcount := h.count p.peer
    rw [hempty, Side.peer_peer, List.length_nil] at hcount
    omega
  · exact absurd (hio.symm.trans hnone) (by simp)

theorem pipe_tell_wait_run (cap : ℕ) (prog : Side → List Call) (h : Reaches (step cap) (start prog) s) :
    Right cap s := by
  have hinv : Inv s := h.invariant (step_inv cap) (start_inv prog)
  have hcounts := h.simulate (step_inv cap) (counts_step cap) (start_inv prog)
  refine ⟨Counts.balanced_of_reaches hcounts, hinv.woken, hinv.noError, fun p m hm => ?_⟩
  rw [hinv.got p m hm]
  exact p.peer_ne

def aheadProg : Side → List Call
  | .parent => [.tell, .tell, .wait]
  | .child => [.wait, .wait]

/-- The parent tells twice before the child waits twice; then the parent waits for ever. -/
def ahead : List Act :=
  [.call .parent, .io .parent, .call .parent, .io .parent, .call .child, .io .child, .call .child,
    .io .child, .call .parent]

theorem pipe_tell_wait_run_ahead : ∃ s, run (step 65536) (start aheadProg) ahead = some s ∧
    (s.counts.tells .parent, s.counts.waits .child, s.pc .parent) = (2, 2, .call .wait) ∧
    Right 65536 s :=
  ⟨_, rfl, rfl, pipe_tell_wait_run 65536 aheadProg ⟨ahead, rfl⟩⟩

end Apue.TellWait.Pipe

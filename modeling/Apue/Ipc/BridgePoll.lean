import Apue.Ipc.Bridge

/-!
# Reading only what poll reported (Chapter-17/17-3.c)

The same helpers and the same `main`, for messages of any bytes and any length; what is printed is left
out (`toPoll`, `step_toPoll`: every step of the program of `Bridge` is a step here).

`main` looks at `events`, which it has set itself, where `revents` says what `poll` found. So it reads every
socket in every round, and unless all of them have data it stops at one that has none
(`bridge_poll_blocks`). `bridge_poll_run`: as long as `poll` only ever returns when every socket has data,
all is well.
-/

namespace Apue.BridgePoll
open Bridge Transition

structure State where
  queue : Fin NQ → List (List UInt8)
  helper : Fin NQ → HelperPc
  sock : Fin NQ → List UInt8
  pfd : Fin NQ → Pollfd
  pc : MainPc

inductive Act where
  | arrive (i : Fin NQ) (m : List UInt8)
  | msgrcv (i : Fin NQ)
  | write (i : Fin NQ) (n : ℕ)
  | main

def msgrcv (s : State) (i : Fin NQ) : Option State :=
  match s.helper i, s.queue i with
  | .msgrcv, m :: rest =>
    some { s with
      queue := Function.update s.queue i rest
      helper := Function.update s.helper i (.write (m.take MAXMSG)) }
  | _, _ => none

/-- `write` may take several steps; one of an empty message takes one. -/
def write (s : State) (i : Fin NQ) (n : ℕ) : Option State :=
  match s.helper i with
  | .write rest =>
    if (1 ≤ n ∨ rest = []) ∧ n ≤ rest.length then
      some { s with
        sock := Function.update s.sock i (s.sock i ++ rest.take n)
        helper := Function.update s.helper i
          (if n = rest.length then .msgrcv else .write (rest.drop n)) }
    else none
  | .msgrcv => none

theorem NQ_pos : 0 < NQ := by decide

def step (s : State) : Act → Option State
  | .arrive i m => some { s with queue := Function.update s.queue i (s.queue i ++ [m]) }
  | .msgrcv i => msgrcv s i
  | .write i n => write s i n
  | .main =>
    match s.pc with
    | .poll =>
      if ∃ i, s.sock i ≠ [] then
        some { s with
          pfd := fun i => { s.pfd i with revents := decide (s.sock i ≠ []) }
          pc := .scan ⟨0, NQ_pos⟩ }
      else none
    | .scan i =>
      if (s.pfd i).events then
        if s.sock i = [] then none
        else some { s with sock := Function.update s.sock i ((s.sock i).drop MAXMSG), pc := after i }
      else some { s with pc := after i }

def start : State where
  queue := fun _ => []
  helper := fun _ => .msgrcv
  sock := fun _ => []
  pfd := fun _ => ⟨true, false⟩
  pc := .poll

/-! ### The property and the condition -/

/-- The next step of `main` is a read of socket `i`. -/
def State.Reading (s : State) (i : Fin NQ) : Prop := s.pc = .scan i ∧ (s.pfd i).events = true

/-- `main` waits for data of one socket while another has some. -/
def State.Blocked (s : State) : Prop := ∃ i j, s.Reading i ∧ s.sock i = [] ∧ s.sock j ≠ []

/-- Only sockets that `poll` found readable are read, and no read blocks. -/
structure OnlyReady (s : State) : Prop where
  reported : ∀ i, s.Reading i → (s.pfd i).revents = true
  notBlocked : ¬ s.Blocked

/-- The condition on a step: when `poll` returns, every socket has data. -/
def AllReady (s : State) : Act → Prop
  | .main => s.pc = .poll → ∀ i, s.sock i ≠ []
  | _ => True

instance : ∀ (s : State) (a : Act), Decidable (AllReady s a)
  | s, .main => inferInstanceAs (Decidable (s.pc = .poll → ∀ i, s.sock i ≠ []))
  | _, .arrive _ _ | _, .msgrcv _ | _, .write _ _ => isTrue trivial

/-! ### The invariant -/

/-- The sockets still to be looked at have data, and `poll` has found it. -/
def Inv (s : State) : Prop := ∀ i, s.pc = .scan i → ∀ j, i ≤ j → s.sock j ≠ [] ∧ (s.pfd j).revents = true

variable {s s' : State} {i : Fin NQ} {a : Act}

theorem Inv.onlyReady (h : Inv s) : OnlyReady s := by
  constructor
  · rintro i ⟨hpc, -⟩
    exact (h i hpc i (Nat.le_refl _)).2
  · rintro ⟨i, -, ⟨hpc, -⟩, hsock, -⟩
    exact (h i hpc i (Nat.le_refl _)).1 hsock

theorem after_eq_scan {j : Fin NQ} (h : after i = .scan j) : j.val = i.val + 1 := by
  unfold after at h
  split at h
  · rw [← MainPc.scan.inj h]
  · cases h

/-- What is left to be looked at after `i` was so before; a step of `main` changes only socket `i`. -/
theorem Inv.after (h : Inv s) (hpc : s.pc = .scan i) {sock : Fin NQ → List UInt8}
    (hsock : ∀ j ≠ i, sock j = s.sock j) : Inv { s with sock, pc := after i } := by
  intro j hj k hk
  have hij := after_eq_scan hj
  have hle : j.val ≤ k.val := hk
  have hne : k ≠ i := by
    rintro rfl
    omega
  have hold := h i hpc k (Fin.le_def.mpr (by omega))
  refine ⟨?_, hold.2⟩
  show sock k ≠ []
  rw [hsock k hne]
  exact hold.1

theorem Inv.write {n : ℕ} (h : Inv s) (hs : write s i n = some s') : Inv s' := by
  unfold BridgePoll.write at hs
  split at hs
  · obtain ⟨-, hs⟩ := Option.ite_none_right_eq_some.mp hs
    obtain rfl := Option.some.inj hs
    intro j hj k hk
    obtain ⟨hsock, hrevents⟩ := h j hj k hk
    refine ⟨?_, hrevents⟩
    by_cases hki : k = i
    · subst hki
      simp [hsock]
    · simp only [Function.update_of_ne hki]
      exact hsock
  · cases hs

theorem step_inv (h : Inv s) (hC : AllReady s a) (hs : step s a = some s') : Inv s' := by
  cases a with
  | arrive i m => exact Option.some.inj hs ▸ h
  | msgrcv i =>
    simp only [step, msgrcv] at hs
    split at hs
    · exact Option.some.inj hs ▸ h
    · cases hs
  | write i n => exact h.write hs
  | main =>
    unfold step at hs
    cases hpc : s.pc with
    | poll =>
      simp only [hpc] at hs
      obtain ⟨-, hs⟩ := Option.ite_none_right_eq_some.mp hs
      obtain rfl := Option.some.inj hs
      have hready := hC hpc
      exact fun i _ j _ => ⟨hready j, decide_eq_true (hready j)⟩
    | scan i =>
      simp only [hpc] at hs
      split at hs
      · obtain ⟨-, hs⟩ := Option.ite_none_left_eq_some.mp hs
        obtain rfl := Option.some.inj hs
        exact h.after hpc fun j hj => Function.update_of_ne hj ..
      · obtain rfl := Option.some.inj hs
        exact h.after hpc fun _ _ => rfl

theorem start_inv : Inv start := fun i hi => by cases hi

/-! ### Every run -/

/-- In a run in which `poll` only returns when every socket has data, `main` reads only what `poll` has
reported, and is never blocked. -/
theorem bridge_poll_run (as : List Act) (hmeets : Meets step AllReady start as)
    (hrun : run step start as = some s) : OnlyReady s :=
  (invariant_of_meets (fun _ _ _ h hC hs => step_inv h hC hs) start_inv hmeets hrun).onlyReady

/-- A message on each of the queues goes to its socket, and `main` begins a round. -/
def allQueues : List Act :=
  (List.finRange NQ).flatMap (fun i => [.arrive i [97], .msgrcv i, .write i 1]) ++ [.main, .main]

theorem bridge_poll_run_allQueues : ∃ s, run step start allQueues = some s ∧
    s.pc = .scan ⟨1, by decide⟩ ∧ OnlyReady s := by
  refine ⟨_, rfl, rfl, bridge_poll_run allQueues (by decide) rfl⟩

/-- Only queue 1 has a message. -/
def oneQueue : List Act :=
  [.arrive ⟨1, by decide⟩ [97], .msgrcv ⟨1, by decide⟩, .write ⟨1, by decide⟩ 1, .main]

/-- `main` waits at socket 0 for ever, with the message there in socket 1. -/
theorem bridge_poll_blocks : ∃ s, run step start oneQueue = some s ∧ s.Reading ⟨0, by decide⟩ ∧
    (s.pfd ⟨0, by decide⟩).revents = false ∧ s.Blocked ∧ step s .main = none := by
  refine ⟨_, rfl, ⟨rfl, rfl⟩, rfl, ⟨⟨0, by decide⟩, ⟨1, by decide⟩, ⟨rfl, rfl⟩, rfl, by decide⟩, rfl⟩

/-! ### The program with what it prints -/

def toPoll (s : Bridge.State) : State :=
  { queue := fun i => (s.queue i).map Msg.mtext, helper := s.helper, sock := s.sock, pfd := s.pfd, pc := s.pc }

def Act.ofBridge : Bridge.Act → Act
  | .arrive i m => .arrive i m.mtext
  | .msgrcv i => .msgrcv i
  | .write i n => .write i n
  | .main => .main

theorem step_toPoll {s s' : Bridge.State} {a : Bridge.Act} (hs : Bridge.step s a = some s') :
    step (toPoll s) (.ofBridge a) = some (toPoll s') := by
  cases a with
  | arrive i m =>
    obtain rfl := Option.some.inj hs
    simp only [Act.ofBridge, step, toPoll, Option.some.injEq, State.mk.injEq, and_true]
    funext j
    by_cases hj : j = i
    · subst hj
      simp
    · simp [Function.update_of_ne hj]
  | msgrcv i =>
    simp only [Bridge.step, Bridge.msgrcv] at hs
    split at hs
    · rename_i m rest hhelper hqueue
      obtain rfl := Option.some.inj hs
      simp only [Act.ofBridge, step, msgrcv, toPoll, hhelper, hqueue, List.map_cons, Option.some.injEq,
        State.mk.injEq, and_true]
      funext j
      by_cases hj : j = i
      · subst hj
        simp
      · simp [Function.update_of_ne hj]
    · cases hs
  | write i n =>
    simp only [Bridge.step, Bridge.write] at hs
    split at hs
    · rename_i rest hhelper
      obtain ⟨⟨hpos, hle⟩, hs⟩ := Option.ite_none_right_eq_some.mp hs
      obtain rfl := Option.some.inj hs
      simp only [Act.ofBridge, step, write, toPoll, hhelper, if_pos (And.intro (Or.inl hpos) hle)]
    · cases hs
  | main =>
    cases hpc : s.pc with
    | poll =>
      simp only [Bridge.step, hpc] at hs
      obtain ⟨hready, hs⟩ := Option.ite_none_right_eq_some.mp hs
      obtain rfl := Option.some.inj hs
      simp only [Act.ofBridge, step, toPoll, hpc, if_pos hready]
    | scan i =>
      simp only [Bridge.step, hpc] at hs
      simp only [Act.ofBridge, step, toPoll, hpc]
      split at hs
      · rename_i hevents
        unfold readPrint at hs
        obtain ⟨hsock, hs⟩ := Option.ite_none_left_eq_some.mp hs
        obtain rfl := Option.some.inj hs
        rw [if_pos hevents, if_neg hsock]
      · rename_i hevents
        obtain rfl := Option.some.inj hs
        rw [if_neg hevents]

end Apue.BridgePoll

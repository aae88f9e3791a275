import Apue.Lib.Transition
import Mathlib.Data.Finset.Basic

/-!
# The forking server (Chapter-16/16-18.c)

`serve` and the processes it forks, all of which run the same text; number 0 is the one that entered `serve`.
An action is the next call of some process with its outcome, so a run is any interleaving with any outcomes.

There is no `exit` behind `execl`, so a child in which it fails goes on with the loop. `serve_iff`: that is all
that can go wrong.
-/

namespace Apue.Ruptimed
open Transition

/-- Where a process is in `serve`, or what became of it. -/
inductive Pc where
  | accept
  | fork
  | dup2Stdout
  | dup2Stderr
  | close
  | execl
  | syslog
  | uptime
  | exited
  | reaped
  /-- In the parent of the process `pid`. -/
  | closeFd (pid : ℕ)
  | waitpid (pid : ℕ)
  deriving DecidableEq

structure Proc where
  pc : Pc
  fds : Finset ℕ
  clientFd : ℕ

/-- `next` is the number of the next child. -/
structure State where
  procs : ℕ → Option Proc
  next : ℕ

inductive Outcome where
  | ok
  | accepted (fd : ℕ)
  | fails
  | execlFails
  deriving DecidableEq

structure Act where
  proc : ℕ
  outcome : Outcome
  deriving DecidableEq

namespace State

def set (s : State) (i : ℕ) (p : Proc) : State := { s with procs := Function.update s.procs i (some p) }

/-- `fork` in the process `i`, which is `p`. -/
def forked (s : State) (i : ℕ) (p : Proc) : State where
  procs := Function.update (Function.update s.procs i (some { p with pc := .closeFd s.next })) s.next
    (some { p with pc := .dup2Stdout })
  next := s.next + 1

end State

/-- What one call does to the process that makes it, when it is neither `fork` nor `waitpid`. -/
def Proc.call (p : Proc) : Outcome → Option Proc
  | .accepted fd =>
    if p.pc = .accept ∧ fd ∉ p.fds then some { p with pc := .fork, clientFd := fd, fds := insert fd p.fds }
    else none
  | .fails =>
    -- a message and exit(1)
    match p.pc with
    | .accept | .fork | .dup2Stdout | .dup2Stderr => some { p with pc := .exited }
    | _ => none
  | .execlFails => if p.pc = .execl then some { p with pc := .syslog } else none
  | .ok =>
    match p.pc with
    | .dup2Stdout => some { p with pc := .dup2Stderr, fds := insert 1 p.fds }
    | .dup2Stderr => some { p with pc := .close, fds := insert 2 p.fds }
    | .close => some { p with pc := .execl, fds := p.fds.erase p.clientFd }
    | .execl => some { p with pc := .uptime }
    | .uptime => some { p with pc := .exited }
    -- the next statement after the branches is the next accept
    | .syslog => some { p with pc := .accept }
    | .closeFd pid => some { p with pc := .waitpid pid, fds := p.fds.erase p.clientFd }
    | _ => none

/-- `waitpid` in the process `i`, which is `p`: it returns when the child has ended. -/
def State.waited (s : State) (i : ℕ) (p : Proc) (pid : ℕ) : Option State :=
  match s.procs pid with
  | some c => if c.pc = .exited then some ((s.set pid { c with pc := .reaped }).set i { p with pc := .accept }) else none
  | none => none

def step (s : State) (a : Act) : Option State :=
  match s.procs a.proc with
  | none => none
  | some p =>
    match p.pc, a.outcome with
    | .fork, .ok => some (s.forked a.proc p)
    | .waitpid pid, .ok => s.waited a.proc p pid
    | _, outcome => (p.call outcome).map (s.set a.proc)

/-- `serve` is entered with these descriptors. -/
def start (fds : Finset ℕ) : State := State.set ⟨fun _ => none, 1⟩ 0 ⟨.accept, fds, 0⟩

/-! ### What it should do -/

/-- The process `i` is at a program point. -/
def State.At (s : State) (i : ℕ) (pc : Pc) : Prop := ∃ p, s.procs i = some p ∧ p.pc = pc

/-- No `execl` fails. -/
def Execs (as : List Act) : Prop := ∀ a ∈ as, a.outcome ≠ .execlFails

instance (as : List Act) : Decidable (Execs as) := inferInstanceAs (Decidable (∀ a ∈ as, _))

/-- It is at `accept`, or comes there without another failure of `execl`. -/
def State.CanAccept (s : State) (i : ℕ) : Prop :=
  ∃ as t, run step s as = some t ∧ Execs as ∧ t.At i .accept

/-- How often the process `i` has its turn. -/
def turns (i : ℕ) (as : List Act) : ℕ := as.countP fun a => a.proc = i

/-- Right for a server that was entered with the descriptors `fds`. -/
structure Right (fds : Finset ℕ) (s : State) : Prop where
  oneServer : ∀ i, s.CanAccept i → i = 0
  /-- A child runs `uptime` or has ended after four calls. -/
  child : ∀ i p as t, i ≠ 0 → s.procs i = some p → run step s as = some t → Execs as → 4 ≤ turns i as →
    t.At i .uptime ∨ t.At i .exited ∨ t.At i .reaped
  accept : ∀ p, s.procs 0 = some p → p.pc = .accept →
    p.fds = fds ∧ ∀ i c, i ≠ 0 → s.procs i = some c → c.pc = .reaped

/-! ### What a step does -/

section steps
variable {s t : State} {a : Act} {i j : ℕ} {p q : Proc}

@[simp] theorem State.procs_set_self : (s.set i p).procs i = some p := Function.update_self ..

theorem State.procs_set_of_ne (h : j ≠ i) : (s.set i p).procs j = s.procs j := Function.update_of_ne h ..

theorem step_cases (h : step s a = some t) : ∃ p, s.procs a.proc = some p ∧
    ((∃ q, p.call a.outcome = some q ∧ t = s.set a.proc q) ∨
      (p.pc = .fork ∧ a.outcome = .ok ∧ t = s.forked a.proc p) ∨
      ∃ pid c, p.pc = .waitpid pid ∧ a.outcome = .ok ∧ s.procs pid = some c ∧ c.pc = .exited ∧
        t = (s.set pid { c with pc := .reaped }).set a.proc { p with pc := .accept }) := by
  unfold step at h
  split at h
  · cases h
  · rename_i p hp
    refine ⟨p, hp, ?_⟩
    split at h
    · rename_i hpc hok
      exact .inr (.inl ⟨hpc, hok, (Option.some.inj h).symm⟩)
    · rename_i pid hpc hok
      unfold State.waited at h
      split at h
      · rename_i c hc
        split at h
        · rename_i hexited
          exact .inr (.inr ⟨pid, c, hpc, hok, hc, hexited, (Option.some.inj h).symm⟩)
        · cases h
      · cases h
    · obtain ⟨q, hq, rfl⟩ := Option.map_eq_some_iff.1 h
      exact .inl ⟨q, hq, rfl⟩

end steps

/-! ### The invariant -/

/-- A part of `serve` that only children come to, or the time after it. -/
def Pc.Child : Pc → Prop
  | .dup2Stdout | .dup2Stderr | .close | .execl | .uptime | .exited | .reaped => True
  | _ => False

/-- The calls up to `execl`. -/
def Pc.left : Pc → ℕ
  | .dup2Stdout => 4
  | .dup2Stderr => 3
  | .close => 2
  | .execl => 1
  | _ => 0

theorem Pc.left_le (pc : Pc) : pc.left ≤ 4 := by
  cases pc <;> simp [Pc.left]

/-- All children, except for one, are gone. -/
def State.ReapedBut (s : State) (k : ℕ) : Prop := ∀ i c, i ≠ 0 → i ≠ k → s.procs i = some c → c.pc = .reaped

/-- The server `p`, whose only descriptor of a client is the one in `clientFd`, and whose only child is the one
that it waits for. -/
def Server (fds : Finset ℕ) (s : State) (p : Proc) : Prop :=
  match p.pc with
  | .accept => p.fds = fds ∧ s.ReapedBut 0
  | .fork => p.clientFd ∉ fds ∧ p.fds = insert p.clientFd fds ∧ s.ReapedBut 0
  | .closeFd pid => p.clientFd ∉ fds ∧ p.fds = insert p.clientFd fds ∧ pid ≠ 0 ∧ s.ReapedBut pid
  | .waitpid pid => p.fds = fds ∧ pid ≠ 0 ∧ s.ReapedBut pid
  | .exited => True
  | _ => False

structure Inv (fds : Finset ℕ) (s : State) : Prop where
  fresh : ∀ i, s.next ≤ i → s.procs i = none
  pos : 0 < s.next
  child : ∀ i p, i ≠ 0 → s.procs i = some p → p.pc.Child
  server : ∀ p, s.procs 0 = some p → Server fds s p

section inv
variable {fds : Finset ℕ} {s t : State} {a : Act} {i j k : ℕ} {p q : Proc} {o : Outcome}

theorem procs_start_of_ne (h : i ≠ 0) : (start fds).procs i = none := State.procs_set_of_ne h

theorem inv_start (fds : Finset ℕ) : Inv fds (start fds) where
  fresh := fun i hi => procs_start_of_ne (Nat.ne_of_gt hi)
  pos := Nat.one_pos
  child := fun i p hi hp => by
    rw [procs_start_of_ne hi] at hp
    cases hp
  server := fun p hp => by
    obtain rfl := Option.some.inj hp
    refine ⟨rfl, fun i c hi _ hc => ?_⟩
    rw [procs_start_of_ne hi] at hc
    cases hc

theorem Server.imp (h : Server fds s p) (himp : ∀ k, s.ReapedBut k → t.ReapedBut k) : Server fds t p := by
  unfold Server at *
  split <;> simp_all

theorem call_child (hp : p.pc.Child) (ho : o ≠ .execlFails) (h : p.call o = some q) :
    q.pc.Child ∧ q.pc.left ≤ p.pc.left - 1 ∧ p.pc ≠ .reaped := by
  cases o with
  | execlFails => exact absurd rfl ho
  | accepted fd =>
    simp only [Proc.call] at h
    split at h
    · rename_i hpc
      rw [hpc.1] at hp
      exact hp.elim
    · cases h
  | fails =>
    cases hpc : p.pc <;> simp only [Proc.call, hpc, reduceCtorEq, Pc.Child] at h hp
    all_goals
      obtain rfl := Option.some.inj h
      exact ⟨trivial, Nat.zero_le _, nofun⟩
  | ok =>
    cases hpc : p.pc <;> simp only [Proc.call, hpc, reduceCtorEq, Pc.Child] at h hp
    all_goals
      obtain rfl := Option.some.inj h
      exact ⟨trivial, Nat.le_refl _, nofun⟩

theorem call_server (hp : Server fds s p) (ho : o ≠ .execlFails) (h : p.call o = some q) : Server fds s q := by
  unfold Server at hp
  cases o with
  | execlFails => exact absurd rfl ho
  | accepted fd =>
    simp only [Proc.call] at h
    split at h
    · rename_i hpc
      obtain rfl := Option.some.inj h
      rw [hpc.1] at hp
      obtain ⟨hfds, hreaped⟩ := hp
      exact ⟨hfds ▸ hpc.2, by simp only [hfds], hreaped⟩
    · cases h
  | fails =>
    cases hpc : p.pc <;> simp only [Proc.call, hpc, reduceCtorEq] at h hp
    all_goals
      obtain rfl := Option.some.inj h
      trivial
  | ok =>
    cases hpc : p.pc <;> simp only [Proc.call, hpc, reduceCtorEq] at h hp
    -- close(client_fd) is all that is left
    rename_i pid
    obtain rfl := Option.some.inj h
    obtain ⟨hfd, hfds, hpid, hreaped⟩ := hp
    refine ⟨?_, hpid, hreaped⟩
    simp only [hfds, Finset.erase_insert hfd]

theorem fresh_set (h : ∀ j, s.next ≤ j → s.procs j = none) (hp : s.procs i = some p) (q : Proc) :
    ∀ j, (s.set i q).next ≤ j → (s.set i q).procs j = none := by
  intro j hj
  have hne : j ≠ i := by
    rintro rfl
    rw [h j hj] at hp
    cases hp
  rw [State.procs_set_of_ne hne, h j hj]

theorem reapedBut_set_zero (h : s.ReapedBut k) : (s.set 0 q).ReapedBut k := by
  intro j c hj hk hc
  rw [State.procs_set_of_ne hj] at hc
  exact h j c hj hk hc

theorem reapedBut_set (hi : i ≠ 0) (hp : s.procs i = some p) (hpc : p.pc ≠ .reaped) (h : s.ReapedBut k) :
    (s.set i q).ReapedBut k := by
  intro j c hj hk hc
  by_cases hji : j = i
  · subst hji
    exact absurd (h j p hi hk hp) hpc
  · rw [State.procs_set_of_ne hji] at hc
    exact h j c hj hk hc

theorem Inv.call (h : Inv fds s) (hp : s.procs i = some p) (ho : o ≠ .execlFails) (hcall : p.call o = some q) :
    Inv fds (s.set i q) := by
  refine ⟨fresh_set h.fresh hp q, h.pos, fun j c hj hc => ?_, fun c hc => ?_⟩
  · by_cases hji : j = i
    · subst hji
      rw [State.procs_set_self] at hc
      obtain rfl := Option.some.inj hc
      exact (call_child (h.child j p hj hp) ho hcall).1
    · rw [State.procs_set_of_ne hji] at hc
      exact h.child j c hj hc
  · by_cases hi : i = 0
    · subst hi
      rw [State.procs_set_self] at hc
      obtain rfl := Option.some.inj hc
      exact (call_server (h.server p hp) ho hcall).imp fun k => reapedBut_set_zero
    · rw [State.procs_set_of_ne (Ne.symm hi)] at hc
      exact (h.server c hc).imp fun k => reapedBut_set hi hp (call_child (h.child i p hi hp) ho hcall).2.2

theorem Inv.eq_zero (h : Inv fds s) (hp : s.procs i = some p) (hpc : ¬ p.pc.Child) : i = 0 := by
  by_contra hi
  exact hpc (h.child i p hi hp)

theorem Inv.forked (h : Inv fds s) (hp : s.procs 0 = some p) (hpc : p.pc = .fork) : Inv fds (s.forked 0 p) := by
  have hserver := h.server p hp
  unfold Server at hserver
  rw [hpc] at hserver
  obtain ⟨hfd, hfds, hreaped⟩ := hserver
  have hnext : s.next ≠ 0 := Nat.ne_of_gt h.pos
  have hold (j : ℕ) (hj : j ≠ 0) (hjn : j ≠ s.next) : (s.forked 0 p).procs j = s.procs j := by
    simp only [State.forked]
    rw [Function.update_of_ne hjn, Function.update_of_ne hj]
  have hnew : (s.forked 0 p).procs s.next = some { p with pc := .dup2Stdout } := Function.update_self ..
  have hzero : (s.forked 0 p).procs 0 = some { p with pc := .closeFd s.next } := by
    simp only [State.forked]
    rw [Function.update_of_ne hnext.symm, Function.update_self]
  refine ⟨fun j hj => ?_, Nat.succ_pos _, fun j c hj hc => ?_, fun c hc => ?_⟩
  · have hlt : s.next < j := hj
    rw [hold j (by omega) (by omega), h.fresh j hlt.le]
  · by_cases hjn : j = s.next
    · rw [hjn, hnew] at hc
      obtain rfl := Option.some.inj hc
      trivial
    · rw [hold j hj hjn] at hc
      exact h.child j c hj hc
  · rw [hzero] at hc
    obtain rfl := Option.some.inj hc
    refine ⟨hfd, hfds, hnext, fun j c hj hjn hc => ?_⟩
    rw [hold j hj hjn] at hc
    exact hreaped j c hj hj hc

theorem Inv.waited {pid : ℕ} {c : Proc} (h : Inv fds s) (hp : s.procs 0 = some p) (hpc : p.pc = .waitpid pid)
    (hc : s.procs pid = some c) :
    Inv fds ((s.set pid { c with pc := .reaped }).set 0 { p with pc := .accept }) := by
  have hserver := h.server p hp
  unfold Server at hserver
  rw [hpc] at hserver
  obtain ⟨hfds, hpid, hreaped⟩ := hserver
  have hp' : (s.set pid { c with pc := .reaped }).procs 0 = some p := by
    rw [State.procs_set_of_ne hpid.symm, hp]
  have hgone (j : ℕ) (d : Proc) (hj : j ≠ 0)
      (hd : ((s.set pid { c with pc := .reaped }).set 0 { p with pc := .accept }).procs j = some d) :
      d.pc = .reaped := by
    rw [State.procs_set_of_ne hj] at hd
    by_cases hjp : j = pid
    · rw [hjp, State.procs_set_self] at hd
      obtain rfl := Option.some.inj hd
      rfl
    · rw [State.procs_set_of_ne hjp] at hd
      exact hreaped j d hj hjp hd
  refine ⟨fresh_set (fresh_set h.fresh hc _) hp' _, h.pos, fun j d hj hd => ?_, fun d hd => ?_⟩
  · rw [hgone j d hj hd]
    trivial
  · rw [State.procs_set_self] at hd
    obtain rfl := Option.some.inj hd
    exact ⟨hfds, fun j d hj _ hd => hgone j d hj hd⟩

theorem Inv.step (h : Inv fds s) (ho : a.outcome ≠ .execlFails) (hs : step s a = some t) : Inv fds t := by
  obtain ⟨p, hp, ⟨q, hcall, rfl⟩ | ⟨hpc, -, rfl⟩ | ⟨pid, c, hpc, -, hc, -, rfl⟩⟩ := step_cases hs
  · exact h.call hp ho hcall
  · have hzero := h.eq_zero hp (by rw [hpc]; exact id)
    rw [hzero] at hp ⊢
    exact h.forked hp hpc
  · have hzero := h.eq_zero hp (by rw [hpc]; exact id)
    rw [hzero] at hp ⊢
    exact h.waited hp hpc hc

theorem Inv.run {as : List Act} (h : Inv fds s) (has : Execs as) (hrun : run Ruptimed.step s as = some t) :
    Inv fds t := by
  induction as generalizing s with
  | nil =>
    obtain rfl := Option.some.inj hrun
    exact h
  | cons a as ih =>
    obtain ⟨u, hu, hrest⟩ := run_cons_eq_some.1 hrun
    obtain ⟨ha, has⟩ := List.forall_mem_cons.1 has
    exact ih (h.step ha hu) has hrest

theorem turns_cons (i : ℕ) (a : Act) (as : List Act) :
    turns i (a :: as) = turns i as + if a.proc = i then 1 else 0 := by
  simp [turns, List.countP_cons]

theorem Inv.left_step (h : Inv fds s) (ho : a.outcome ≠ .execlFails) (hs : Ruptimed.step s a = some t) (hi : i ≠ 0)
    (hp : s.procs i = some p) :
    ∃ q, t.procs i = some q ∧ q.pc.left ≤ p.pc.left - if a.proc = i then 1 else 0 := by
  obtain ⟨p', hp', ⟨q, hcall, rfl⟩ | ⟨hpc, -, rfl⟩ | ⟨pid, c, hpc, -, hc, -, rfl⟩⟩ := step_cases hs
  · by_cases hai : a.proc = i
    · rw [hai] at hp' ⊢
      obtain rfl := Option.some.inj (hp.symm.trans hp')
      rw [if_pos rfl]
      exact ⟨q, State.procs_set_self, (call_child (h.child i p hi hp) ho hcall).2.1⟩
    · rw [if_neg hai]
      exact ⟨p, by rw [State.procs_set_of_ne (Ne.symm hai), hp], Nat.le_refl _⟩
  · have hzero := h.eq_zero hp' (by rw [hpc]; exact id)
    have hnext : i ≠ s.next := by
      rintro rfl
      rw [h.fresh _ (Nat.le_refl _)] at hp
      cases hp
    rw [hzero, if_neg (Ne.symm hi)]
    refine ⟨p, ?_, Nat.le_refl _⟩
    simp only [State.forked]
    rw [Function.update_of_ne hnext, Function.update_of_ne hi, hp]
  · have hzero := h.eq_zero hp' (by rw [hpc]; exact id)
    rw [hzero, if_neg (Ne.symm hi), State.procs_set_of_ne hi]
    by_cases hip : i = pid
    · rw [hip, State.procs_set_self]
      exact ⟨_, rfl, Nat.zero_le _⟩
    · rw [State.procs_set_of_ne hip]
      exact ⟨p, hp, Nat.le_refl _⟩

theorem Inv.left_run {as : List Act} (h : Inv fds s) (has : Execs as) (hrun : Transition.run Ruptimed.step s as = some t)
    (hi : i ≠ 0) (hp : s.procs i = some p) : ∃ q, t.procs i = some q ∧ q.pc.left ≤ p.pc.left - turns i as := by
  induction as generalizing s p with
  | nil =>
    obtain rfl := Option.some.inj hrun
    exact ⟨p, hp, Nat.le_refl _⟩
  | cons a as ih =>
    obtain ⟨u, hu, hrest⟩ := run_cons_eq_some.1 hrun
    obtain ⟨ha, has⟩ := List.forall_mem_cons.1 has
    obtain ⟨q, hq, hle⟩ := h.left_step ha hu hi hp
    obtain ⟨r, hr, hle'⟩ := ih (h.step ha hu) has hrest hq
    refine ⟨r, hr, ?_⟩
    rw [turns_cons]
    omega

theorem Inv.right (h : Inv fds s) : Right fds s := by
  refine ⟨fun i hcan => ?_, fun i p as t hi hp hrun has hturns => ?_, fun p hp hpc => ?_⟩
  · obtain ⟨as, t, hrun, has, p, hp, hpc⟩ := hcan
    exact (h.run has hrun).eq_zero hp (by rw [hpc]; exact id)
  · obtain ⟨q, hq, hle⟩ := h.left_run has hrun hi hp
    have hchild := (h.run has hrun).child i q hi hq
    have hfour := p.pc.left_le
    have hzero : q.pc.left = 0 := by omega
    cases hpc : q.pc <;> simp only [hpc, Pc.Child, Pc.left, reduceCtorEq] at hchild hzero
    case uptime => exact .inl ⟨q, hq, hpc⟩
    case exited => exact .inr (.inl ⟨q, hq, hpc⟩)
    case reaped => exact .inr (.inr ⟨q, hq, hpc⟩)
  · have hserver := h.server p hp
    unfold Server at hserver
    rw [hpc] at hserver
    exact ⟨hserver.1, fun i c hi hc => hserver.2 i c hi hi hc⟩

theorem not_right_of_execlFails (h : Inv fds s) (ha : a.outcome = .execlFails) (hs : Ruptimed.step s a = some t) :
    ¬ Right fds t := by
  intro hright
  obtain ⟨p, hp, ⟨q, hcall, rfl⟩ | ⟨-, hok, -⟩ | ⟨-, -, -, hok, -⟩⟩ := step_cases hs
  · rw [ha] at hcall
    simp only [Proc.call] at hcall
    split at hcall
    · rename_i hpc
      obtain rfl := Option.some.inj hcall
      have hcan : (s.set a.proc { p with pc := .syslog }).CanAccept a.proc :=
        ⟨[⟨a.proc, .ok⟩], (s.set a.proc { p with pc := .syslog }).set a.proc { p with pc := .accept },
          by simp [run, Ruptimed.step, Proc.call], by simp [Execs], _, State.procs_set_self, rfl⟩
      have hserver := h.server p (hright.oneServer _ hcan ▸ hp)
      unfold Server at hserver
      rw [hpc] at hserver
      exact hserver
    · cases hcall
  · rw [ha] at hok
    cases hok
  · rw [ha] at hok
    cases hok

theorem Inv.execs_of_right {as : List Act} (h : Inv fds s) (hrun : Transition.run Ruptimed.step s as = some t)
    (hright : ∀ bs cs u, as = bs ++ cs → Transition.run Ruptimed.step s bs = some u → Right fds u) : Execs as := by
  induction as generalizing s with
  | nil => exact fun a ha => absurd ha List.not_mem_nil
  | cons a as ih =>
    obtain ⟨u, hu, hrest⟩ := run_cons_eq_some.1 hrun
    have ha : a.outcome ≠ .execlFails := by
      intro ha
      exact not_right_of_execlFails h ha hu (hright [a] as u rfl (run_cons_eq_some.2 ⟨u, hu, rfl⟩))
    refine List.forall_mem_cons.2 ⟨ha, ih (h.step ha hu) hrest fun bs cs v hbs hv => ?_⟩
    exact hright (a :: bs) cs v (by rw [hbs]; rfl) (run_cons_eq_some.2 ⟨u, hu, hv⟩)

end inv

/-- Every state of a run is as it should be exactly when no `execl` fails in it. -/
theorem serve_iff (fds : Finset ℕ) {as : List Act} {s : State} (hrun : run step (start fds) as = some s) :
    (∀ bs cs t, as = bs ++ cs → run step (start fds) bs = some t → Right fds t) ↔ Execs as := by
  constructor
  · exact (inv_start fds).execs_of_right hrun
  · intro has bs cs t hbs ht
    have hpast : Execs bs := fun a ha => has a (by rw [hbs]; exact List.mem_append_left cs ha)
    exact ((inv_start fds).run hpast ht).right

/-- Two clients; the first child runs `uptime`, in the second one `dup2` fails. -/
def twoClients : List Act :=
  [⟨0, .accepted 4⟩, ⟨0, .ok⟩, ⟨1, .ok⟩, ⟨0, .ok⟩, ⟨1, .ok⟩, ⟨1, .ok⟩, ⟨1, .ok⟩, ⟨1, .ok⟩, ⟨0, .ok⟩,
    ⟨0, .accepted 4⟩, ⟨0, .ok⟩, ⟨0, .ok⟩, ⟨2, .fails⟩, ⟨0, .ok⟩]

theorem serve_iff_twoClients : ∃ s, run step (start {0, 1, 2, 3}) twoClients = some s ∧ s.At 0 .accept ∧
    Right {0, 1, 2, 3} s := by
  have hrun : run step (start {0, 1, 2, 3}) twoClients = some _ := rfl
  exact ⟨_, hrun, ⟨_, rfl, rfl⟩, (serve_iff {0, 1, 2, 3} hrun).2 (by decide) twoClients [] _ rfl hrun⟩

/-- After `execl` has failed, the child is at `accept` and the server waits for it. -/
theorem serve_two_servers : ∃ s, run step (start {0, 1, 2, 3})
    [⟨0, .accepted 4⟩, ⟨0, .ok⟩, ⟨1, .ok⟩, ⟨1, .ok⟩, ⟨1, .ok⟩, ⟨1, .execlFails⟩, ⟨1, .ok⟩, ⟨0, .ok⟩] = some s ∧
    s.At 1 .accept ∧ s.At 0 (.waitpid 1) ∧ ¬ Right {0, 1, 2, 3} s := by
  refine ⟨_, rfl, ⟨_, rfl, rfl⟩, ⟨_, rfl, rfl⟩, fun h => ?_⟩
  have hone := h.oneServer 1 ⟨[], _, rfl, nofun, _, rfl, rfl⟩
  cases hone

end Apue.Ruptimed

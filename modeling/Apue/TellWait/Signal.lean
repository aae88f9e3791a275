import Apue.TellWait.Pipe
import Mathlib.Data.Int.Notation

/-!
# The handshake by signals (Chapter-10/10-24.c)

Parent and child tell each other with `SIGUSR1` and `SIGUSR2`. `TELL_WAIT` blocks both signals, a wait
lets them in while it is suspended, and at its end it sets the mask back to what it was before
`TELL_WAIT`.

* A signal is pending at most once, and it is delivered whenever it is not blocked.
* `Heard`: the condition on a step under which no tell is lost. Two things lose one: two signals become
  one (in the pending set or in `sigflag`) although as many waits are still to come, and a signal comes
  between the test of `sigflag` and `sigsuspend`, which it can do after the first wait has set the mask
  back.
* `signal_tell_wait_run`: waits never return too early, and in runs on the condition nobody who was told
  stays suspended. `signal_tell_wait_once`: a program with one wait a process needs no condition.
-/

namespace Apue.TellWait.Signal
open Transition Handshake

inductive Sig where
  | SIGUSR1
  | SIGUSR2
  deriving DecidableEq

/-- The signal that `TELL_CHILD` and `TELL_PARENT` send, by who gets it. -/
def sigTo : Side → Sig
  | .child => .SIGUSR1
  | .parent => .SIGUSR2

/-- The program points of `WAIT_CHILD` and `WIAT_PARENT`. -/
inductive Pc where
  | run
  | test
  | suspend
  | suspended
  | clear
  | restore
  deriving DecidableEq

/-- The wait has not yet put `sigflag` back. -/
@[simp] def Pc.unserved : Pc → ℕ
  | .test | .suspend | .suspended | .clear => 1
  | .run | .restore => 0

structure Proc where
  pc : Pc
  /-- The calls still to make. -/
  prog : List Call
  sigflag : ℤ
  /-- The signals that are blocked, less what `sigsuspend` does to them while it waits. -/
  mask : Sig → Bool
  pending : Sig → Bool

structure State where
  counts : Counts Side
  proc : Side → Proc

def newmask : Sig → Bool := fun _ => true
def zeromask : Sig → Bool := fun _ => false

def Proc.blocked (x : Proc) : Sig → Bool := if x.pc = .suspended then zeromask else x.mask

/-- `sig_usr`; a process that was suspended goes on. -/
def Proc.sig_usr (x : Proc) (sig : Sig) : Proc :=
  { x with
    sigflag := -1
    pending := Function.update x.pending sig false
    pc := if x.pc = .suspended then .test else x.pc }

def Proc.goto (x : Proc) (pc : Pc) : Proc := { x with pc := pc }

def Proc.next (x : Proc) (rest : List Call) : Proc := { x with prog := rest }

def Proc.kill (x : Proc) (sig : Sig) : Proc := { x with pending := Function.update x.pending sig true }

def State.set (s : State) (p : Side) (x : Proc) : State := { s with proc := Function.update s.proc p x }

/-- `TELL_CHILD` and `TELL_PARENT`. -/
def State.TELL (s : State) (p : Side) : State :=
  { s.set p.peer ((s.proc p.peer).kill (sigTo p.peer)) with counts := s.counts.tell p }

/-- A process goes on, or a signal is delivered to it. -/
inductive Act where
  | move (p : Side)
  | deliver (p : Side) (sig : Sig)

/-- One step; `oldmask` is the mask from before `TELL_WAIT`. -/
def step (oldmask : Sig → Bool) (s : State) : Act → Option State
  | .move p =>
    let x := s.proc p
    match x.pc with
    | .run =>
      match x.prog with
      | [] => none
      | .tell :: rest => some ((s.set p (x.next rest)).TELL p)
      | .wait :: rest => some (s.set p ((x.next rest).goto .test))
    | .test => some (s.set p (x.goto (if x.sigflag = 0 then .suspend else .clear)))
    | .suspend => some (s.set p (x.goto .suspended))
    | .suspended => none
    | .clear => some (s.set p { x.goto .restore with sigflag := 0 })
    | .restore =>
      some { s.set p { x.goto .run with mask := oldmask } with counts := s.counts.wait p }
  | .deliver p sig =>
    let x := s.proc p
    if x.pending sig ∧ x.blocked sig = false then some (s.set p (x.sig_usr sig)) else none

/-- After `TELL_WAIT` and `fork`. -/
def start (oldmask : Sig → Bool) (prog : Side → List Call) : State where
  counts := Counts.zero
  proc p := ⟨.run, prog p, 0, fun sig => oldmask sig || newmask sig, fun _ => false⟩

/-! ### What is true of each process -/

/-- What the process has been sent and has not used: `sigflag` is set, a signal is pending. -/
def Proc.tokens (p : Side) (x : Proc) : ℕ :=
  (if x.sigflag = 0 then 0 else 1) + (x.pending (sigTo p)).toNat

/-- The waits, the current one included, that have still to put `sigflag` back. -/
def Proc.waitsLeft (x : Proc) : ℕ := x.prog.count .wait + x.pc.unserved

/-- The wait that has put `sigflag` back and not returned. -/
@[simp] def Pc.served : Pc → ℕ
  | .restore => 1
  | _ => 0

/-- A property of every process, the tells of its peer and its completed waits. -/
def Each (P : Side → Proc → ℕ → ℕ → Prop) (s : State) : Prop :=
  ∀ p, P p (s.proc p) (s.counts.tells p.peer) (s.counts.waits p)

section each
variable {P : Side → Proc → ℕ → ℕ → Prop} {s : State} {p : Side} {x : Proc}

theorem Each.set (h : Each P s) (hx : P p x (s.counts.tells p.peer) (s.counts.waits p)) :
    Each P (s.set p x) := by
  intro q
  show P q (Function.update s.proc p x q) (s.counts.tells q.peer) (s.counts.waits q)
  by_cases hq : q = p
  · subst hq
    rwa [Function.update_self]
  · rw [Function.update_of_ne hq]
    exact h q

theorem Each.tell (h : Each P s) (hpeer : P p.peer ((s.proc p.peer).kill (sigTo p.peer))
    (s.counts.tells p + 1) (s.counts.waits p.peer)) : Each P (s.TELL p) := by
  intro q
  show P q (Function.update s.proc p.peer _ q) ((s.counts.tell p).tells q.peer) (s.counts.waits q)
  obtain rfl | rfl := Side.eq_or_eq_peer p q
  · rw [Function.update_of_ne q.peer_ne.symm, Counts.tell_tells_of_ne _ q.peer_ne]
    exact h q
  · rw [Function.update_self, Side.peer_peer, Counts.tell_tells_self]
    exact hpeer

theorem Each.wake (h : Each P s) (hx : P p x (s.counts.tells p.peer) (s.counts.waits p + 1)) :
    Each P { s.set p x with counts := s.counts.wait p } := by
  intro q
  show P q (Function.update s.proc p x q) (s.counts.tells q.peer) ((s.counts.wait p).waits q)
  by_cases hq : q = p
  · subst hq
    rwa [Function.update_self, Counts.wait_waits_self]
  · rw [Function.update_of_ne hq, Counts.wait_waits_of_ne _ hq]
    exact h q

/-- What a step does to one process that has been told `n` times and has completed `w` waits. `Told` and
`Delivered` are what is known about it when it is sent a signal and when a signal is delivered. -/
inductive Local (oldmask : Sig → Bool) (Told Delivered : Side → Proc → Prop) (p : Side) (x : Proc)
    (n w : ℕ) : Proc → ℕ → ℕ → Prop where
  | told (h : Told p x) : Local oldmask Told Delivered p x n w (x.kill (sigTo p)) (n + 1) w
  | tell {rest : List Call} (hpc : x.pc = .run) (hprog : x.prog = .tell :: rest) :
    Local oldmask Told Delivered p x n w (x.next rest) n w
  | wait {rest : List Call} (hpc : x.pc = .run) (hprog : x.prog = .wait :: rest) :
    Local oldmask Told Delivered p x n w ((x.next rest).goto .test) n w
  | unset (hpc : x.pc = .test) (hflag : x.sigflag = 0) :
    Local oldmask Told Delivered p x n w (x.goto .suspend) n w
  | set (hpc : x.pc = .test) (hflag : x.sigflag ≠ 0) :
    Local oldmask Told Delivered p x n w (x.goto .clear) n w
  | suspend (hpc : x.pc = .suspend) : Local oldmask Told Delivered p x n w (x.goto .suspended) n w
  | clear (hpc : x.pc = .clear) :
    Local oldmask Told Delivered p x n w { x.goto .restore with sigflag := 0 } n w
  | restore (hpc : x.pc = .restore) :
    Local oldmask Told Delivered p x n w { x.goto .run with mask := oldmask } n (w + 1)
  | deliver {sig : Sig} (hpend : x.pending sig = true) (hopen : x.blocked sig = false)
    (h : Delivered p x) : Local oldmask Told Delivered p x n w (x.sig_usr sig) n w

/-- `Told` holds of a process that is about to be told, `Delivered` of one that gets a signal. -/
def Cond (Told Delivered : Side → Proc → Prop) (s : State) : Act → Prop
  | .move p => (s.proc p).pc = .run → (s.proc p).prog.head? = some .tell → Told p.peer (s.proc p.peer)
  | .deliver p _ => Delivered p (s.proc p)

theorem Each.step {oldmask : Sig → Bool} {Told Delivered : Side → Proc → Prop}
    (hP : ∀ {p x n w x' n' w'}, P p x n w → Local oldmask Told Delivered p x n w x' n' w' → P p x' n' w')
    {s s' : State} {a : Act} (h : Each P s) (hcond : Cond Told Delivered s a)
    (hs : step oldmask s a = some s') : Each P s' := by
  cases a with
  | move p =>
    simp only [Signal.step] at hs
    split at hs
    case h_1 hpc =>
      split at hs
      case h_1 => simp at hs
      case h_2 rest hprog =>
        obtain rfl := Option.some.inj hs
        have hnext := h.set (hP (h p) (.tell hpc hprog))
        have hpeer := h p.peer
        rw [Side.peer_peer] at hpeer
        refine hnext.tell ?_
        show P p.peer ((Function.update s.proc p _ p.peer).kill _) _ _
        rw [Function.update_of_ne p.peer_ne]
        exact hP hpeer (.told (hcond hpc (by simp [hprog])))
      case h_3 rest hprog =>
        obtain rfl := Option.some.inj hs
        exact h.set (hP (h p) (.wait hpc hprog))
    case h_2 hpc =>
      obtain rfl := Option.some.inj hs
      by_cases hflag : (s.proc p).sigflag = 0
      · rw [if_pos hflag]
        exact h.set (hP (h p) (.unset hpc hflag))
      · rw [if_neg hflag]
        exact h.set (hP (h p) (.set hpc hflag))
    case h_3 hpc =>
      obtain rfl := Option.some.inj hs
      exact h.set (hP (h p) (.suspend hpc))
    case h_4 => simp at hs
    case h_5 hpc =>
      obtain rfl := Option.some.inj hs
      exact h.set (hP (h p) (.clear hpc))
    case h_6 hpc =>
      obtain rfl := Option.some.inj hs
      exact h.wake (hP (h p) (.restore hpc))
  | deliver p sig =>
    obtain ⟨⟨hpend, hopen⟩, hs⟩ := Option.ite_none_right_eq_some.mp hs
    obtain rfl := Option.some.inj hs
    exact h.set (hP (h p) (.deliver hpend hopen hcond))

end each

/-! ### Signals at hand -/

section step
variable {oldmask : Sig → Bool} {Told Delivered : Side → Proc → Prop} {s s' : State} {p : Side}
  {x x' : Proc} {n n' w w' : ℕ} {a : Act}

theorem Proc.tokens_kill (p : Side) (x : Proc) :
    (x.kill (sigTo p)).tokens p = if x.pending (sigTo p) then x.tokens p else x.tokens p + 1 := by
  by_cases hflag : x.sigflag = 0 <;> cases hpend : x.pending (sigTo p) <;>
    simp [Proc.tokens, Proc.kill, hpend, hflag]

theorem Proc.tokens_sig_usr (hpend : x.pending (sigTo p) = true) :
    (x.sig_usr (sigTo p)).tokens p = 1 ∧ x.tokens p = if x.sigflag = 0 then 1 else 2 := by
  refine ⟨?_, ?_⟩
  · simp [Proc.tokens, Proc.sig_usr]
  · simp only [Proc.tokens, hpend]
    split <;> rfl

theorem Proc.tokens_clear (hflag : x.sigflag ≠ 0) :
    ({ x.goto .restore with sigflag := 0 } : Proc).tokens p + 1 = x.tokens p := by
  simp only [Proc.tokens, Proc.goto, if_neg hflag, if_true]
  omega

theorem Proc.served_sig_usr (x : Proc) (sig : Sig) : (x.sig_usr sig).pc.served = x.pc.served := by
  simp only [Proc.sig_usr]
  split <;> simp [*]

theorem Proc.waitsLeft_sig_usr (x : Proc) (sig : Sig) : (x.sig_usr sig).waitsLeft = x.waitsLeft := by
  simp only [Proc.sig_usr, Proc.waitsLeft]
  split <;> simp [*]

/-! ### No wait returns too early -/

/-- Only the peer's signal is ever pending, and a tell was made for every signal and for every wait. -/
structure Ok (p : Side) (x : Proc) (tells waits : ℕ) : Prop where
  own : ∀ sig, x.pending sig = true → sig = sigTo p
  atMost : waits + x.pc.served + x.tokens p ≤ tells
  set : x.pc = .clear → x.sigflag ≠ 0

theorem Ok.kill (h : Ok p x n w) : Ok p (x.kill (sigTo p)) (n + 1) w where
  own sig hsig := by
    by_contra hne
    refine hne (h.own sig ?_)
    change Function.update x.pending (sigTo p) true sig = true at hsig
    rwa [Function.update_of_ne hne] at hsig
  atMost := by
    have hle := h.atMost
    rw [Proc.tokens_kill]
    show w + x.pc.served + _ ≤ n + 1
    split <;> omega
  set := h.set

theorem Ok.sig_usr (h : Ok p x n w) (hpend : x.pending (sigTo p) = true) :
    Ok p (x.sig_usr (sigTo p)) n w where
  own sig hsig := by
    apply h.own
    change Function.update x.pending (sigTo p) false sig = true at hsig
    by_cases hne : sig = sigTo p
    · rwa [hne]
    · rwa [Function.update_of_ne hne] at hsig
  atMost := by
    have hle := h.atMost
    obtain ⟨hone, htokens⟩ := Proc.tokens_sig_usr hpend
    rw [hone, Proc.served_sig_usr]
    split at htokens <;> omega
  set _ := by simp [Proc.sig_usr]

theorem Ok.local (h : Ok p x n w) (hl : Local oldmask Told Delivered p x n w x' n' w') : Ok p x' n' w' := by
  have ⟨hown, hle, hset⟩ := h
  cases hl with
  | told => exact h.kill
  | tell => exact ⟨hown, hle, hset⟩
  | wait hpc | unset hpc | suspend hpc | restore hpc =>
    rw [hpc] at hle
    exact ⟨hown, hle, by simp [Proc.goto]⟩
  | set hpc hflag =>
    rw [hpc] at hle
    exact ⟨hown, hle, fun _ => hflag⟩
  | clear hpc =>
    have htokens := Proc.tokens_clear (p := p) (hset hpc)
    rw [hpc] at hle
    refine ⟨hown, ?_, by simp [Proc.goto]⟩
    show w + 1 + _ ≤ n
    simp only [Pc.served] at hle
    omega
  | deliver hpend =>
    obtain rfl := hown _ hpend
    exact h.sig_usr hpend

theorem start_ok (oldmask : Sig → Bool) (prog : Side → List Call) : Each Ok (start oldmask prog) := fun _ =>
  ⟨by simp [start], Nat.le_refl 0, by simp [start]⟩

/-! ### No tell is lost -/

/-- A process that is told while a signal is pending has no more waits to come than signals at hand. -/
def HeardTold (p : Side) (x : Proc) : Prop :=
  x.pending (sigTo p) = true → x.waitsLeft ≤ x.tokens p

/-- A process that gets a signal is not between its test of `sigflag` and `sigsuspend`, and if `sigflag`
is still set from an earlier signal, it has only one wait to come. -/
def HeardDelivered (_ : Side) (x : Proc) : Prop :=
  x.pc ≠ .suspend ∧ (x.sigflag ≠ 0 → x.waitsLeft ≤ 1)

instance (p : Side) (x : Proc) : Decidable (HeardTold p x) := inferInstanceAs (Decidable (_ → _))

instance (p : Side) (x : Proc) : Decidable (HeardDelivered p x) := inferInstanceAs (Decidable (_ ∧ _))

/-- The step loses no tell. -/
def Heard : State → Act → Prop := Cond HeardTold HeardDelivered

instance (s : State) : ∀ a, Decidable (Heard s a)
  | .move p => inferInstanceAs (Decidable (_ → _ → HeardTold p.peer (s.proc p.peer)))
  | .deliver p _ => inferInstanceAs (Decidable (HeardDelivered p (s.proc p)))

/-- Every tell was used or is at hand, or there is at least as much at hand as will be needed. -/
structure Kept (p : Side) (x : Proc) (tells waits : ℕ) : Prop extends Ok p x tells waits where
  heard : tells ≤ waits + x.pc.served + x.tokens p ∨ x.waitsLeft ≤ x.tokens p
  unset : x.pc = .suspend ∨ x.pc = .suspended → x.sigflag = 0

theorem Kept.kill (h : Kept p x n w) (hheard : HeardTold p x) : Kept p (x.kill (sigTo p)) (n + 1) w where
  toOk := h.toOk.kill
  heard := by
    have hle := h.heard
    rw [Proc.tokens_kill]
    show n + 1 ≤ w + x.pc.served + _ ∨ x.waitsLeft ≤ _
    split
    · exact Or.inr (hheard ‹_›)
    · omega
  unset := h.unset

theorem Kept.sig_usr (h : Kept p x n w) (hpend : x.pending (sigTo p) = true)
    (hheard : HeardDelivered p x) : Kept p (x.sig_usr (sigTo p)) n w where
  toOk := h.toOk.sig_usr hpend
  heard := by
    have hle := h.heard
    obtain ⟨hone, htokens⟩ := Proc.tokens_sig_usr hpend
    rw [hone, Proc.served_sig_usr, Proc.waitsLeft_sig_usr]
    split at htokens
    · omega
    · exact Or.inr (hheard.2 ‹_›)
  unset hpc := by
    have hsuspend := hheard.1
    simp only [Proc.sig_usr] at hpc
    split at hpc <;> simp_all

theorem Kept.local (h : Kept p x n w) (hl : Local oldmask HeardTold HeardDelivered p x n w x' n' w') :
    Kept p x' n' w' := by
  have hok := h.toOk.local hl
  have ⟨⟨hown, _, hset⟩, hle, hunset⟩ := h
  cases hl with
  | told hheard => exact h.kill hheard
  | tell hpc hprog =>
    refine ⟨hok, ?_, hunset⟩
    simp only [Proc.waitsLeft, hprog, List.count_cons] at hle
    exact hle
  | wait hpc hprog =>
    refine ⟨hok, ?_, by simp [Proc.goto]⟩
    simp only [Proc.waitsLeft, hpc, hprog, Pc.served, Pc.unserved, List.count_cons_self] at hle
    exact hle
  | unset hpc hflag =>
    refine ⟨hok, ?_, fun _ => hflag⟩
    simp only [Proc.waitsLeft, hpc] at hle
    exact hle
  | set hpc hflag =>
    refine ⟨hok, ?_, by simp [Proc.goto]⟩
    simp only [Proc.waitsLeft, hpc] at hle
    exact hle
  | suspend hpc =>
    refine ⟨hok, ?_, fun _ => hunset (Or.inl hpc)⟩
    simp only [Proc.waitsLeft, hpc] at hle
    exact hle
  | clear hpc =>
    have htokens := Proc.tokens_clear (p := p) (hset hpc)
    refine ⟨hok, ?_, by simp [Proc.goto]⟩
    show n ≤ w + 1 + _ ∨ x.prog.count .wait + 0 ≤ _
    simp only [Proc.waitsLeft, hpc, Pc.served, Pc.unserved] at hle
    omega
  | restore hpc =>
    refine ⟨hok, ?_, by simp [Proc.goto]⟩
    simp only [Proc.waitsLeft, hpc] at hle
    exact hle
  | deliver hpend hopen hheard =>
    obtain rfl := hown _ hpend
    exact h.sig_usr hpend hheard

theorem start_kept (oldmask : Sig → Bool) (prog : Side → List Call) :
    Each Kept (start oldmask prog) := fun p =>
  ⟨start_ok oldmask prog p, Or.inl (Nat.le_refl 0), by simp [start]⟩

/-! ### Every run -/

/-- The process is suspended inside a wait with no signal pending for it. -/
def State.Asleep (s : State) (p : Side) : Prop :=
  (s.proc p).pc = .suspended ∧ ∀ sig, (s.proc p).pending sig = false

theorem Kept.woken (h : Each Kept s) : s.counts.Woken Side.peer s.Asleep := by
  intro p hasleep
  obtain ⟨hpc, hnone⟩ := hasleep
  have htokens : (s.proc p).tokens p = 0 := by
    simp [Proc.tokens, (h p).unset (Or.inr hpc), hnone]
  have hle := (h p).heard
  rw [htokens, hpc] at hle
  obtain hle | hleft := hle
  · exact hle
  · simp [Proc.waitsLeft, hpc] at hleft

theorem Ok.balanced (h : Each Ok s) : s.counts.Balanced Side.peer := by
  intro p
  have hle := (h p).atMost
  omega

/-- The k-th wait of a process returns only after its peer has told it k times, and when no step of the
run loses a tell, nobody is asleep who was told more often than it has completed waits. -/
theorem signal_tell_wait_run (oldmask : Sig → Bool) (prog : Side → List Call) (as : List Act)
    (hrun : run (step oldmask) (start oldmask prog) as = some s) :
    s.counts.Balanced Side.peer ∧
      (Meets (step oldmask) Heard (start oldmask prog) as → s.counts.Woken Side.peer s.Asleep) := by
  refine ⟨Ok.balanced ?_, fun hmeets => Kept.woken ?_⟩
  · refine invariant_run (fun s a s' h hs => ?_) (start_ok oldmask prog) hrun
    have hcond : Cond (fun _ _ => True) (fun _ _ => True) s a := by
      cases a <;> simp [Cond]
    exact h.step Ok.local hcond hs
  · exact invariant_of_meets (fun s a s' h hheard hs => h.step Kept.local hheard hs)
      (start_kept oldmask prog) hmeets hrun

/-! ### One wait a process -/

/-- The process has at most one wait in all, and both signals are blocked until that is over. -/
structure Once (p : Side) (x : Proc) (tells waits : ℕ) : Prop extends Ok p x tells waits where
  one : waits + x.pc.served + x.waitsLeft ≤ 1
  masked : 0 < x.waitsLeft → ∀ sig, x.mask sig = true

theorem Once.local (h : Once p x n w) (hl : Local oldmask Told Delivered p x n w x' n' w') :
    Once p x' n' w' := by
  have hok := h.toOk.local hl
  have ⟨_, hone, hmasked⟩ := h
  simp only [Proc.waitsLeft] at hone hmasked
  cases hl with
  | told => exact ⟨hok, hone, hmasked⟩
  | tell hpc hprog =>
    simp only [hprog, List.count_cons] at hone hmasked
    exact ⟨hok, hone, hmasked⟩
  | wait hpc hprog =>
    simp only [hpc, hprog, List.count_cons_self, Pc.served, Pc.unserved] at hone hmasked
    exact ⟨hok, hone, fun _ => hmasked (by omega)⟩
  | unset hpc | set hpc | suspend hpc =>
    rw [hpc] at hone hmasked
    exact ⟨hok, hone, hmasked⟩
  | clear hpc =>
    simp only [hpc, Pc.served, Pc.unserved] at hone hmasked
    refine ⟨hok, ?_, fun _ => hmasked (by omega)⟩
    show w + 1 + (x.prog.count .wait + 0) ≤ 1
    omega
  | restore hpc =>
    simp only [hpc, Pc.served, Pc.unserved] at hone hmasked
    refine ⟨hok, ?_, fun hleft => ?_⟩
    · show w + 1 + 0 + (x.prog.count .wait + 0) ≤ 1
      omega
    · change 0 < x.prog.count .wait + 0 at hleft
      omega
  | deliver =>
    refine ⟨hok, ?_, ?_⟩
    · rw [Proc.served_sig_usr, Proc.waitsLeft_sig_usr]
      exact hone
    · rw [Proc.waitsLeft_sig_usr]
      exact hmasked

theorem Once.heard (h : Each Once s) (hs : step oldmask s a = some s') : Heard s a := by
  cases a with
  | move p =>
    intro _ _ hpend
    have hone := (h p.peer).one
    simp only [Proc.tokens, hpend, Bool.toNat_true]
    omega
  | deliver p sig =>
    obtain ⟨⟨-, hopen⟩, -⟩ := Option.ite_none_right_eq_some.mp hs
    have hone := (h p).one
    refine ⟨fun hpc => ?_, fun _ => by omega⟩
    have hleft : 0 < (s.proc p).waitsLeft := by simp [Proc.waitsLeft, hpc]
    simp [Proc.blocked, hpc, (h p).masked hleft sig] at hopen

theorem signal_tell_wait_once (oldmask : Sig → Bool) (prog : Side → List Call)
    (hprog : ∀ p, (prog p).count .wait ≤ 1) (h : Reaches (step oldmask) (start oldmask prog) s) :
    s.counts.Balanced Side.peer ∧ s.counts.Woken Side.peer s.Asleep := by
  obtain ⟨as, hrun⟩ := h
  have hstep : ∀ s a s', Each Once s → step oldmask s a = some s' → Each Once s' := by
    intro s a s' h hs
    have hcond : Cond (fun _ _ => True) (fun _ _ => True) s a := by
      cases a <;> simp [Cond]
    exact h.step Once.local hcond hs
  have hstart : Each Once (start oldmask prog) := fun p =>
    ⟨start_ok oldmask prog p, by simpa [start, Proc.waitsLeft, Counts.zero] using hprog p,
      by simp [start, newmask]⟩
  obtain ⟨hbalanced, hwoken⟩ := signal_tell_wait_run oldmask prog as hrun
  exact ⟨hbalanced, hwoken (meets_of_invariant hstep (fun _ _ _ => Once.heard) hstart hrun)⟩

end step

/-! ### Two rounds -/

def twice : Side → List Call
  | .parent => [.tell, .tell]
  | .child => [.wait, .wait]

/-- The parent tells again only when the child is suspended again. -/
def heard : List Act :=
  [.move .parent, .move .child, .move .child, .move .child, .deliver .child .SIGUSR1, .move .child,
    .move .child, .move .child, .move .child, .move .child, .move .child, .move .parent,
    .deliver .child .SIGUSR1, .move .child, .move .child, .move .child]

theorem signal_tell_wait_run_heard : ∃ s, run (step zeromask) (start zeromask twice) heard = some s ∧
    s.counts.waits .child = 2 ∧ s.counts.Balanced Side.peer ∧ s.counts.Woken Side.peer s.Asleep :=
  ⟨_, rfl, rfl, (signal_tell_wait_run zeromask twice heard rfl).1,
    (signal_tell_wait_run zeromask twice heard rfl).2 (by decide)⟩

/-- The parent tells again just after the child has found `sigflag` to be 0. -/
def slip : List Act :=
  [.move .parent, .move .child, .move .child, .move .child, .deliver .child .SIGUSR1, .move .child,
    .move .child, .move .child, .move .child, .move .child, .move .parent, .deliver .child .SIGUSR1,
    .move .child]

/-- The child has been told twice, has completed one wait, and sleeps with no signal pending. -/
theorem signal_tell_wait_slips : ∃ s, run (step zeromask) (start zeromask twice) slip = some s ∧
    s.counts.tells .parent = 2 ∧ s.counts.waits .child = 1 ∧ ¬ s.counts.Woken Side.peer s.Asleep := by
  refine ⟨_, rfl, rfl, rfl, fun hwoken => ?_⟩
  have hasleep := hwoken .child ⟨rfl, fun sig => by cases sig <;> rfl⟩
  exact absurd hasleep (by decide)

end Apue.TellWait.Signal

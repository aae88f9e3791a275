import Apue.Lib.Linked
import Apue.Lib.Threads
import Apue.Lib.Transition

/-!
# The message queue with a condition variable (Chapter-11/11-15.c)

Producers `P` run `enqueue_msg`, consumers `C` run `process_msg`, over one chain of messages `M` linked
through `mNext`. Every statement that touches shared memory, the mutex `qlock` or the condition
variable `qready` is one step; a waiting consumer may also wake up by itself. Two logs record what
happened: `enqueued`, when a message is stored into `workq`, and `taken`, when a consumer moves `workq`
past it.

`msg_queue_run`: with at least one consumer, in every state of every run whose callers do not enqueue a
message again before it is taken, the messages enqueued are those on the chain and those taken
(`Delivered`), no consumer holds a null message, and a message is never left behind with all consumers
asleep and no signal to come (`Attended`). The signal may still be two steps away: right after the
store into `workq` the producer has not even unlocked (`msg_queue_unattended`).
-/

namespace Apue.MsgQueue
open Linked Threads Transition

/-- The program points of `enqueue_msg`, between two calls `idle`. -/
inductive ProdPc (M : Type*) where
  | idle
  | lock (mp : M)
  | link (mp : M)
  | push (mp : M)
  | unlock (mp : M)
  | signal (mp : M)

/-- The program points of `process_msg`. Both `waiting` and `woken` are inside `pthread_cond_wait`: the
first without a wake-up, the second with one, before it has the mutex back. -/
inductive ConsPc (M : Type*) where
  | lock
  | test
  | waiting
  | woken
  | take
  | advance (mp : Option M)
  | unlock
  deriving DecidableEq

variable {M P C : Type*}

/-- The thread holds `qlock`. -/
def ProdPc.Holds : ProdPc M → Prop
  | .link _ | .push _ | .unlock _ => True
  | _ => False

/-- The thread is going to put this message on the chain. -/
def ProdPc.Carries : ProdPc M → M → Prop
  | .lock m, mp | .link m, mp | .push m, mp => m = mp
  | _, _ => False

def ConsPc.Holds : ConsPc M → Prop
  | .test | .take | .advance _ | .unlock => True
  | _ => False

structure State (M P C : Type*) where
  mNext : M → Option M
  workq : Option M
  qlock : Mutex (P ⊕ C)
  prod : P → ProdPc M
  cons : C → ConsPc M
  enqueued : List M
  taken : List (C × M)

/-- One step: a call of `enqueue_msg`, the next statement of a thread, a signal that wakes `w` (nobody
when nobody waits), or a spurious wake-up. -/
inductive Act (M P C : Type*) where
  | call (p : P) (mp : M)
  | prod (p : P)
  | signal (p : P) (w : Option C)
  | cons (c : C)
  | spurious (c : C)

section step
variable [DecidableEq M] [DecidableEq P] [DecidableEq C] [Fintype C]

def State.setProd (s : State M P C) (p : P) (pc : ProdPc M) : State M P C :=
  { s with prod := Function.update s.prod p pc }

def State.setCons (s : State M P C) (c : C) (pc : ConsPc M) : State M P C :=
  { s with cons := Function.update s.cons c pc }

/-- The next statement of `enqueue_msg`, up to the signal. -/
def prodStep (s : State M P C) (p : P) : ProdPc M → Option (State M P C)
  | .lock mp => (s.qlock.lock (.inl p)).map fun l => { s with qlock := l }.setProd p (.link mp)
  | .link mp => some ({ s with mNext := Function.update s.mNext mp s.workq }.setProd p (.push mp))
  | .push mp =>
    some ({ s with workq := some mp, enqueued := s.enqueued ++ [mp] }.setProd p (.unlock mp))
  | .unlock mp => some ({ s with qlock := none }.setProd p (.signal mp))
  | .idle | .signal _ => none

/-- The next statement of `process_msg`; following a null `mp` is no step. -/
def consStep (s : State M P C) (c : C) : ConsPc M → Option (State M P C)
  | .lock | .woken => (s.qlock.lock (.inr c)).map fun l => { s with qlock := l }.setCons c .test
  | .test =>
    if s.workq = none then some ({ s with qlock := none }.setCons c .waiting)
    else some (s.setCons c .take)
  | .take => some (s.setCons c (.advance s.workq))
  | .advance (some mp) =>
    some ({ s with workq := s.mNext mp, taken := s.taken ++ [(c, mp)] }.setCons c .unlock)
  | .unlock => some ({ s with qlock := none }.setCons c .lock)
  | .waiting | .advance none => none

def step (s : State M P C) : Act M P C → Option (State M P C)
  | .call p mp =>
    match s.prod p with
    | .idle => some (s.setProd p (.lock mp))
    | _ => none
  | .prod p => prodStep s p (s.prod p)
  | .signal p w =>
    match s.prod p, w with
    | .signal _, some c =>
      if s.cons c = .waiting then some ((s.setProd p .idle).setCons c .woken) else none
    | .signal _, none => if ∀ c, s.cons c ≠ .waiting then some (s.setProd p .idle) else none
    | _, _ => none
  | .cons c => consStep s c (s.cons c)
  | .spurious c => if s.cons c = .waiting then some (s.setCons c .woken) else none

/-- `workq` empty, the mutex free, every consumer at its loop's head; links hold anything. -/
def start (mNext : M → Option M) : State M P C :=
  ⟨mNext, none, none, fun _ => .idle, fun _ => .lock, [], []⟩

/-- What the callers promise: a message is not enqueued again before it is taken. -/
def NotQueued (s : State M P C) : Act M P C → Prop
  | .call _ mp => s.enqueued.count mp = (s.taken.map Prod.snd).count mp ∧ ∀ p, ¬ (s.prod p).Carries mp
  | _ => True

end step

/-! ### The properties -/

/-- The messages on the chain and the messages taken are the messages enqueued, each as often. -/
def Delivered (s : State M P C) : Prop :=
  ∃ l, Chain s.mNext s.workq l ∧ l.Nodup ∧ s.enqueued.Perm (l ++ s.taken.map Prod.snd)

/-- No consumer is about to follow a null pointer. -/
def NoNull (s : State M P C) : Prop := ∀ c, s.cons c ≠ .advance none

/-- Whenever there is a message and every consumer sleeps, some producer is going to signal: it is past
its unlock, or it still holds the mutex after its store. -/
def Attended (s : State M P C) : Prop :=
  s.workq ≠ none → (∀ c, s.cons c = .waiting) → ∃ p mp,
    s.prod p = .signal mp ∨ (s.prod p = .unlock mp ∧ s.qlock = some (.inl p))

/-- The same with the producer past its unlock. -/
def AttendedAfterUnlock (s : State M P C) : Prop :=
  s.workq ≠ none → (∀ c, s.cons c = .waiting) → ∃ p mp, s.prod p = .signal mp

/-! ### The invariant -/

/-- The mutex is held by the thread that is inside a critical section. -/
structure Locked (s : State M P C) : Prop where
  prod : ∀ p, s.qlock = some (.inl p) ↔ (s.prod p).Holds
  cons : ∀ c, s.qlock = some (.inr c) ↔ (s.cons c).Holds

/-- The chain, the logs and the threads that are about to change them. -/
structure Queue (s : State M P C) (l : List M) : Prop where
  chain : Chain s.mNext s.workq l
  perm : s.enqueued.Perm (l ++ s.taken.map Prod.snd)
  apart : ∀ p mp, (s.prod p).Carries mp → mp ∉ l
  carry : ∀ p p' mp, (s.prod p).Carries mp → (s.prod p').Carries mp → p = p'
  linked : ∀ p mp, s.prod p = .push mp → s.mNext mp = s.workq
  taking : ∀ c, s.cons c = .take → s.workq ≠ none
  advancing : ∀ c mp, s.cons c = .advance mp → mp ≠ none ∧ s.workq = mp

/-- A message on the chain keeps a consumer awake or a producer busy, if there are consumers. -/
def Awake (s : State M P C) : Prop :=
  Nonempty C → s.workq ≠ none → (∃ c, s.cons c ≠ .waiting) ∨
    ∃ p mp, s.prod p = .unlock mp ∨ s.prod p = .signal mp

structure Inv (s : State M P C) : Prop where
  locked : Locked s
  queue : ∃ l, Queue s l
  awake : Awake s

/-! ### One step keeps the invariant -/

section fields
variable (s : State M P C)

section prod
variable [DecidableEq P] (p : P) (pc : ProdPc M)

@[simp, grind =] theorem setProd_prod (p' : P) :
    (s.setProd p pc).prod p' = if p' = p then pc else s.prod p' := by
  simp [State.setProd, Function.update_apply]
@[simp, grind =] theorem setProd_cons (c : C) : (s.setProd p pc).cons c = s.cons c := rfl
@[simp, grind =] theorem setProd_qlock : (s.setProd p pc).qlock = s.qlock := rfl
@[simp, grind =] theorem setProd_mNext : (s.setProd p pc).mNext = s.mNext := rfl
@[simp, grind =] theorem setProd_workq : (s.setProd p pc).workq = s.workq := rfl
@[simp, grind =] theorem setProd_enqueued : (s.setProd p pc).enqueued = s.enqueued := rfl
@[simp, grind =] theorem setProd_taken : (s.setProd p pc).taken = s.taken := rfl

end prod

section cons
variable [DecidableEq C] (c : C) (pc : ConsPc M)

@[simp, grind =] theorem setCons_cons (c' : C) :
    (s.setCons c pc).cons c' = if c' = c then pc else s.cons c' := by
  simp [State.setCons, Function.update_apply]
@[simp, grind =] theorem setCons_prod (p : P) : (s.setCons c pc).prod p = s.prod p := rfl
@[simp, grind =] theorem setCons_qlock : (s.setCons c pc).qlock = s.qlock := rfl
@[simp, grind =] theorem setCons_mNext : (s.setCons c pc).mNext = s.mNext := rfl
@[simp, grind =] theorem setCons_workq : (s.setCons c pc).workq = s.workq := rfl
@[simp, grind =] theorem setCons_enqueued : (s.setCons c pc).enqueued = s.enqueued := rfl
@[simp, grind =] theorem setCons_taken : (s.setCons c pc).taken = s.taken := rfl

end cons

end fields

section inv
variable {s s' : State M P C} {l : List M} {p : P} {c : C}

theorem Locked.alone_prod (h : Locked s) (hp : (s.prod p).Holds) :
    (∀ p', (s.prod p').Holds → p' = p) ∧ ∀ c, ¬ (s.cons c).Holds := by
  have hq := (h.prod p).mpr hp
  refine ⟨fun p' hp' => ?_, fun c hc => ?_⟩
  · have := (h.prod p').mpr hp'
    grind
  · have := (h.cons c).mpr hc
    grind

theorem Locked.alone_cons (h : Locked s) (hc : (s.cons c).Holds) :
    (∀ p, ¬ (s.prod p).Holds) ∧ ∀ c', (s.cons c').Holds → c' = c := by
  have hq := (h.cons c).mpr hc
  refine ⟨fun p hp => ?_, fun c' hc' => ?_⟩
  · have := (h.prod p).mpr hp
    grind
  · have := (h.cons c').mpr hc'
    grind

variable [DecidableEq M] [DecidableEq P] [DecidableEq C]

omit [DecidableEq C] in
theorem prodStep_locked (h : Locked s) (hstep : prodStep s p (s.prod p) = some s') :
    Locked s' := by
  have hprod := h.prod
  have hcons := h.cons
  cases hpc : s.prod p with
  | idle => simp [hpc, prodStep] at hstep
  | signal mp => simp [hpc, prodStep] at hstep
  | lock mp =>
    simp only [hpc, prodStep, Option.map_eq_some_iff, Mutex.lock_eq_some] at hstep
    obtain ⟨_, ⟨hfree, rfl⟩, rfl⟩ := hstep
    constructor <;> grind [ProdPc.Holds]
  | link mp =>
    obtain rfl := by simpa [hpc, prodStep] using hstep
    constructor <;> grind [ProdPc.Holds]
  | push mp =>
    obtain rfl := by simpa [hpc, prodStep] using hstep
    constructor <;> grind [ProdPc.Holds]
  | unlock mp =>
    obtain rfl := by simpa [hpc, prodStep] using hstep
    constructor <;> grind [ProdPc.Holds]

omit [DecidableEq M] [DecidableEq P] in
theorem consStep_locked (h : Locked s) (hstep : consStep s c (s.cons c) = some s') :
    Locked s' := by
  have hprod := h.prod
  have hcons := h.cons
  cases hpc : s.cons c with
  | lock | woken =>
    simp only [hpc, consStep, Option.map_eq_some_iff, Mutex.lock_eq_some] at hstep
    obtain ⟨_, ⟨hfree, rfl⟩, rfl⟩ := hstep
    constructor <;> grind [ConsPc.Holds]
  | test =>
    simp only [hpc, consStep] at hstep
    split_ifs at hstep <;> obtain rfl := Option.some.inj hstep
    · constructor <;> grind [ConsPc.Holds]
    · constructor <;> grind [ConsPc.Holds]
  | waiting => simp [hpc, consStep] at hstep
  | take =>
    obtain rfl := by simpa [hpc, consStep] using hstep
    constructor <;> grind [ConsPc.Holds]
  | advance mp =>
    cases mp with
    | none => simp [hpc, consStep] at hstep
    | some mp =>
      obtain rfl := by simpa [hpc, consStep] using hstep
      constructor <;> grind [ConsPc.Holds]
  | unlock =>
    obtain rfl := by simpa [hpc, consStep] using hstep
    constructor <;> grind [ConsPc.Holds]

omit [DecidableEq M] [DecidableEq C] in
theorem Queue.setProd (h : Queue s l) {pc : ProdPc M} {m : Mutex (P ⊕ C)}
    (hcarry : ∀ mp, pc.Carries mp → (s.prod p).Carries mp) (hpush : ∀ mp, pc ≠ .push mp) :
    Queue ({ s with qlock := m }.setProd p pc) l := by
  obtain ⟨hchain, hperm, hapart, hc, hlinked, htake, hadv⟩ := h
  constructor <;> grind

omit [DecidableEq M] [DecidableEq P] in
theorem Queue.setCons (h : Queue s l) {pc : ConsPc M} {m : Mutex (P ⊕ C)} (htake : pc ≠ .take)
    (hadv : ∀ mp, pc ≠ .advance mp) : Queue ({ s with qlock := m }.setCons c pc) l := by
  obtain ⟨hchain, hperm, hapart, hcarry, hlinked, ht, ha⟩ := h
  constructor <;> grind

omit [DecidableEq C] in
theorem prodStep_queue (hlock : Locked s) (h : Queue s l)
    (hstep : prodStep s p (s.prod p) = some s') : ∃ l, Queue s' l := by
  have hchain := h.chain
  have hapart := h.apart
  have hcarry := h.carry
  cases hpc : s.prod p with
  | idle => simp [hpc, prodStep] at hstep
  | signal mp => simp [hpc, prodStep] at hstep
  | lock mp =>
    simp only [hpc, prodStep, Option.map_eq_some_iff, Mutex.lock_eq_some] at hstep
    obtain ⟨_, ⟨hfree, rfl⟩, rfl⟩ := hstep
    exact ⟨l, h.setProd (by simp [hpc, ProdPc.Carries]) (by simp)⟩
  | link mp =>
    obtain rfl := by simpa [hpc, prodStep] using hstep
    obtain ⟨hothers, hnocons⟩ := hlock.alone_prod (p := p) (by simp [hpc, ProdPc.Holds])
    have hmp : mp ∉ l := hapart p mp (by simp [hpc, ProdPc.Carries])
    refine ⟨l, hchain.update_notMem hmp, h.perm, ?_, ?_, ?_, h.taking, h.advancing⟩
    · grind [ProdPc.Carries]
    · grind [ProdPc.Carries]
    · intro p' mp' hp'
      by_cases hp : p' = p
      · subst hp
        obtain rfl : mp = mp' := by simpa using hp'
        simp
      · have := hothers p' (by simp_all [ProdPc.Holds])
        contradiction
  | push mp =>
    obtain rfl := by simpa [hpc, prodStep] using hstep
    obtain ⟨hothers, hnocons⟩ := hlock.alone_prod (p := p) (by simp [hpc, ProdPc.Holds])
    have hmp : mp ∉ l := hapart p mp (by simp [hpc, ProdPc.Carries])
    have hnext := h.linked p mp hpc
    refine ⟨mp :: l, ⟨rfl, by simpa [hnext] using hchain⟩, ?_, ?_, ?_, ?_, ?_, ?_⟩
    · exact (h.perm.append_right [mp]).trans (List.perm_append_singleton mp _)
    · grind [ProdPc.Carries]
    · grind [ProdPc.Carries]
    · grind [ProdPc.Holds]
    · grind
    · grind [ConsPc.Holds]
  | unlock mp =>
    obtain rfl := by simpa [hpc, prodStep] using hstep
    exact ⟨l, h.setProd (by simp [ProdPc.Carries]) (by simp)⟩

omit [DecidableEq M] [DecidableEq P] in
theorem consStep_queue (hlock : Locked s) (h : Queue s l)
    (hstep : consStep s c (s.cons c) = some s') : ∃ l, Queue s' l := by
  cases hpc : s.cons c with
  | lock | woken =>
    simp only [hpc, consStep, Option.map_eq_some_iff, Mutex.lock_eq_some] at hstep
    obtain ⟨_, ⟨hfree, rfl⟩, rfl⟩ := hstep
    exact ⟨l, h.setCons (by simp) (by simp)⟩
  | test =>
    simp only [hpc, consStep] at hstep
    split_ifs at hstep with hempty <;> obtain rfl := Option.some.inj hstep
    · exact ⟨l, h.setCons (by simp) (by simp)⟩
    · obtain ⟨hchain, hperm, hapart, hcarry, hlinked, ht, ha⟩ := h
      refine ⟨l, hchain, hperm, hapart, hcarry, hlinked, ?_, ?_⟩ <;> grind
  | waiting => simp [hpc, consStep] at hstep
  | take =>
    obtain rfl := by simpa [hpc, consStep] using hstep
    have hne := h.taking c hpc
    obtain ⟨hchain, hperm, hapart, hcarry, hlinked, ht, ha⟩ := h
    refine ⟨l, hchain, hperm, hapart, hcarry, hlinked, ?_, ?_⟩ <;> grind
  | advance mp =>
    cases mp with
    | none => simp [hpc, consStep] at hstep
    | some mp =>
      obtain rfl := by simpa [hpc, consStep] using hstep
      obtain ⟨hnoprod, hothers⟩ := hlock.alone_cons (c := c) (by simp [hpc, ConsPc.Holds])
      have hwork := (h.advancing c _ hpc).2
      have hchain := h.chain
      rw [hwork] at hchain
      -- the message taken is the first of the chain
      cases l with
      | nil => cases hchain
      | cons x l =>
        obtain ⟨hx, hrest⟩ := hchain
        obtain rfl : mp = x := Option.some.inj hx
        have hapart := h.apart
        refine ⟨l, hrest, ?_, ?_, h.carry, ?_, ?_, ?_⟩
        · refine h.perm.trans ?_
          simp only [setCons_taken, List.map_append, List.map_cons, List.map_nil]
          rw [← List.append_assoc]
          exact (List.perm_append_singleton mp _).symm
        · grind
        · grind [ProdPc.Holds]
        · grind [ConsPc.Holds]
        · grind [ConsPc.Holds]
  | unlock =>
    obtain rfl := by simpa [hpc, consStep] using hstep
    exact ⟨l, h.setCons (by simp) (by simp)⟩

omit [DecidableEq C] in
/-- A producer's step before its signal does not put anybody to sleep, and its store leaves it
between its store and its signal. -/
theorem prodStep_awake (h : Awake s) (hstep : prodStep s p (s.prod p) = some s') : Awake s' := by
  intro hcons hwork
  cases hpc : s.prod p with
  | idle => simp [hpc, prodStep] at hstep
  | signal mp => simp [hpc, prodStep] at hstep
  | lock mp =>
    simp only [hpc, prodStep, Option.map_eq_some_iff, Mutex.lock_eq_some] at hstep
    obtain ⟨_, ⟨hfree, rfl⟩, rfl⟩ := hstep
    rcases h hcons hwork with ⟨c, hc⟩ | ⟨p', mp', hp'⟩
    · exact Or.inl ⟨c, hc⟩
    · exact Or.inr ⟨p', mp', by grind⟩
  | link mp =>
    obtain rfl := by simpa [hpc, prodStep] using hstep
    rcases h hcons hwork with ⟨c, hc⟩ | ⟨p', mp', hp'⟩
    · exact Or.inl ⟨c, hc⟩
    · exact Or.inr ⟨p', mp', by grind⟩
  | push mp =>
    obtain rfl := by simpa [hpc, prodStep] using hstep
    exact Or.inr ⟨p, mp, by simp⟩
  | unlock mp =>
    obtain rfl := by simpa [hpc, prodStep] using hstep
    exact Or.inr ⟨p, mp, by simp⟩

omit [DecidableEq M] [DecidableEq P] in
theorem consStep_awake (hstep : consStep s c (s.cons c) = some s') : Awake s' := by
  intro _ hwork
  refine Or.inl ⟨c, ?_⟩
  cases hpc : s.cons c with
  | lock | woken =>
    simp only [hpc, consStep, Option.map_eq_some_iff, Mutex.lock_eq_some] at hstep
    obtain ⟨_, ⟨hfree, rfl⟩, rfl⟩ := hstep
    simp
  | test =>
    simp only [hpc, consStep] at hstep
    split_ifs at hstep with hempty <;> obtain rfl := Option.some.inj hstep
    · exact absurd hempty hwork
    · simp
  | waiting => simp [hpc, consStep] at hstep
  | take =>
    obtain rfl := by simpa [hpc, consStep] using hstep
    simp
  | advance mp =>
    cases mp with
    | none => simp [hpc, consStep] at hstep
    | some mp =>
      obtain rfl := by simpa [hpc, consStep] using hstep
      simp
  | unlock =>
    obtain rfl := by simpa [hpc, consStep] using hstep
    simp

omit [DecidableEq P] [DecidableEq C] in
theorem Queue.notMem (h : Queue s l) {mp : M}
    (hcount : s.enqueued.count mp = (s.taken.map Prod.snd).count mp) : mp ∉ l := by
  have hsum := h.perm.count_eq mp
  rw [List.count_append] at hsum
  exact List.count_eq_zero.mp (by omega)

variable [Fintype C]

theorem step_inv (s : State M P C) (a : Act M P C) (s' : State M P C) (h : Inv s)
    (hcond : NotQueued s a) (hstep : step s a = some s') : Inv s' := by
  obtain ⟨hlock, ⟨l, hq⟩, hawake⟩ := h
  have hprod := hlock.prod
  have hcons := hlock.cons
  have hcarry := hq.carry
  cases a with
  | call p mp =>
    obtain ⟨hcount, hfresh⟩ := hcond
    simp only [step] at hstep
    split at hstep
    · rename_i hidle
      obtain rfl := Option.some.inj hstep
      have hmp := hq.notMem hcount
      refine ⟨⟨by grind [ProdPc.Holds], hcons⟩, ⟨l, hq.chain, hq.perm, ?_, ?_, ?_, hq.taking,
        hq.advancing⟩, fun hne hwork => ?_⟩
      · have hapart := hq.apart
        grind [ProdPc.Carries]
      · grind [ProdPc.Carries]
      · have hlinked := hq.linked
        grind
      · rcases hawake hne hwork with ⟨c, hc⟩ | ⟨p', mp', hp'⟩
        · exact Or.inl ⟨c, hc⟩
        · exact Or.inr ⟨p', mp', by grind⟩
    · cases hstep
  | prod p => exact ⟨prodStep_locked hlock hstep, prodStep_queue hlock hq hstep,
      prodStep_awake hawake hstep⟩
  | cons c => exact ⟨consStep_locked hlock hstep, consStep_queue hlock hq hstep,
      consStep_awake hstep⟩
  | spurious c =>
    simp only [step] at hstep
    split_ifs at hstep with hwait
    obtain rfl := Option.some.inj hstep
    refine ⟨⟨hprod, by grind [ConsPc.Holds]⟩, ⟨l, hq.setCons (by simp) (by simp)⟩, fun _ _ => ?_⟩
    exact Or.inl ⟨c, by simp⟩
  | signal p w =>
    simp only [step] at hstep
    split at hstep
    · rename_i mp c hpc
      split_ifs at hstep with hwait
      obtain rfl := Option.some.inj hstep
      refine ⟨⟨by grind [ProdPc.Holds], by grind [ConsPc.Holds]⟩, ⟨l, ?_⟩, fun _ _ => ?_⟩
      · have hq' : Queue (s.setProd p .idle) l := hq.setProd (by simp [ProdPc.Carries]) (by simp)
        exact hq'.setCons (by simp) (by simp)
      · exact Or.inl ⟨c, by simp⟩
    · rename_i mp hpc
      -- nobody waits, so any consumer is awake
      split_ifs at hstep with hnone
      obtain rfl := Option.some.inj hstep
      refine ⟨⟨by grind [ProdPc.Holds], hcons⟩, ⟨l, hq.setProd (by simp [ProdPc.Carries]) (by simp)⟩,
        fun hne _ => ?_⟩
      exact Or.inl ⟨hne.some, hnone _⟩
    · cases hstep

omit [DecidableEq M] [DecidableEq P] [DecidableEq C] [Fintype C] in
theorem start_inv (mNext : M → Option M) : Inv (start mNext : State M P C) := by
  refine ⟨⟨?_, ?_⟩, ⟨[], ?_⟩, fun _ hwork => absurd rfl hwork⟩
  · simp [start, ProdPc.Holds]
  · simp [start, ConsPc.Holds]
  · constructor <;> simp [start, ProdPc.Carries]

omit [DecidableEq M] [DecidableEq P] [DecidableEq C] [Fintype C] in
theorem Inv.attended [Nonempty C] (h : Inv s) : Attended s := by
  intro hwork hall
  rcases h.awake inferInstance hwork with ⟨c, hc⟩ | ⟨p, mp, hp | hp⟩
  · exact absurd (hall c) hc
  · exact ⟨p, mp, Or.inr ⟨hp, (h.locked.prod p).mpr (by simp [hp, ProdPc.Holds])⟩⟩
  · exact ⟨p, mp, Or.inl hp⟩

/-- **The message queue over whole runs**: for any producers and at least one consumer. -/
theorem msg_queue_run (mNext : M → Option M) (as : List (Act M P C)) (s : State M P C)
    (hcallers : Meets step NotQueued (start mNext) as) (hrun : run step (start mNext) as = some s) :
    Delivered s ∧ NoNull s ∧ (Nonempty C → Attended s) := by
  have hinv := invariant_of_meets step_inv (start_inv mNext) hcallers hrun
  obtain ⟨l, hq⟩ := hinv.queue
  refine ⟨⟨l, hq.chain, hq.chain.nodup, hq.perm⟩, fun c hc => ?_, fun _ => hinv.attended⟩
  exact (hq.advancing c none hc).1 rfl

end inv

/-- One producer and one consumer: a message goes in, the consumer takes it, and it goes in again. -/
def oneEach : List (Act ℕ Unit Unit) :=
  [.call () 5, .prod (), .prod (), .prod (), .prod (), .cons (), .cons (), .cons (), .cons (),
    .signal () none, .call () 5]

theorem msg_queue_run_one : ∃ s : State ℕ Unit Unit, run step (start fun _ => none) oneEach = some s ∧
    Delivered s ∧ NoNull s ∧ Attended s := by
  have hmeets : Meets step NotQueued (start fun _ => none) oneEach := by
    unfold oneEach
    refine (meets_cons_of_some rfl).mpr ⟨⟨rfl, fun _ hcarries => hcarries⟩, ?_⟩
    iterate 9 refine (meets_cons_of_some rfl).mpr ⟨trivial, ?_⟩
    -- the message has been taken, so it may go in again
    exact (meets_cons_of_some rfl).mpr ⟨⟨rfl, fun _ hcarries => hcarries⟩, trivial⟩
  have hright := msg_queue_run (fun _ => none) oneEach _ hmeets rfl
  exact ⟨_, rfl, hright.1, hright.2.1, hright.2.2 inferInstance⟩

/-- With the producer required to be past its unlock, the last property fails in two ways: with no
consumer at all, nobody is awake and nobody signals once the producer is done; and with one sleeping
consumer, the producer that just stored its message still holds the mutex. -/
theorem msg_queue_unattended :
    (∃ s : State ℕ Unit Empty,
      run step (start fun _ => none) [.call () 5, .prod (), .prod (), .prod (), .prod (),
        .signal () none] = some s ∧ ¬ AttendedAfterUnlock s) ∧
    (∃ s : State ℕ Unit Unit,
      run step (start fun _ => none) [.cons (), .cons (), .call () 5, .prod (), .prod (),
        .prod ()] = some s ∧ ¬ AttendedAfterUnlock s) := by
  refine ⟨⟨_, rfl, fun h => ?_⟩, ⟨_, rfl, fun h => ?_⟩⟩
  · obtain ⟨p, mp, hp⟩ := h (by decide) (fun c => c.elim)
    cases hp
  · obtain ⟨p, mp, hp⟩ := h (by decide) (fun c => rfl)
    cases hp

end Apue.MsgQueue

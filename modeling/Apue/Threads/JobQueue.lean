import Apue.Lib.Linked
import Apue.Lib.Transition

/-!
# The job queue (Chapter-11/11-14.c)

`jobInsert`, `jobAppend`, `jobRemove` and `jobFind` on any number of queues sharing one memory of
jobs, without their locks (`JobQueueLock` has those). Addresses are an arbitrary type; `none` is the
null pointer, and an operation that follows it gives `none`.

`job_queue_run`: the queues stay well-formed doubly linked lists of the expected jobs in every run
whose `jobAppend`s get a job with a null `jNext` and whose `jobRemove`s do not take the last of
several jobs. Off these two conditions the very next state is broken (`step_intact_iff`):
`jobAppend` never clears `jNext`, and `jobRemove` compares `qp->q_tail` with `jp->j_prev` where it
should assign.
-/

namespace Apue.JobQueue
open Linked Transition

/-- `struct job`. -/
structure Job (A I : Type*) where
  jNext : Option A
  jPrev : Option A
  jId : I

/-- `struct queue`, less its lock. -/
structure Queue (A : Type*) where
  qHead : Option A
  qTail : Option A

/-- The memory the operations work on. -/
structure Mem (Q A I : Type*) where
  queue : Q → Queue A
  job : A → Job A I

variable {Q A I : Type*}

namespace Mem

def next (m : Mem Q A I) (a : A) : Option A := (m.job a).jNext

def prev (m : Mem Q A I) (a : A) : Option A := (m.job a).jPrev

section queues
variable [DecidableEq Q]

def setHead (m : Mem Q A I) (qp : Q) (p : Option A) : Mem Q A I :=
  { m with queue := Function.update m.queue qp { m.queue qp with qHead := p } }

def setTail (m : Mem Q A I) (qp : Q) (p : Option A) : Mem Q A I :=
  { m with queue := Function.update m.queue qp { m.queue qp with qTail := p } }

variable (m : Mem Q A I) (qp : Q) (p : Option A)

@[simp] theorem next_setHead : (m.setHead qp p).next = m.next := rfl
@[simp] theorem prev_setHead : (m.setHead qp p).prev = m.prev := rfl
@[simp] theorem next_setTail : (m.setTail qp p).next = m.next := rfl
@[simp] theorem prev_setTail : (m.setTail qp p).prev = m.prev := rfl

@[simp] theorem head_setHead : ((m.setHead qp p).queue qp).qHead = p := by simp [setHead]
@[simp] theorem tail_setHead : ((m.setHead qp p).queue qp).qTail = (m.queue qp).qTail := by
  simp [setHead]
@[simp] theorem head_setTail : ((m.setTail qp p).queue qp).qHead = (m.queue qp).qHead := by
  simp [setTail]
@[simp] theorem tail_setTail : ((m.setTail qp p).queue qp).qTail = p := by simp [setTail]

variable {qp}

theorem queue_setHead_of_ne {q : Q} (h : q ≠ qp) : (m.setHead qp p).queue q = m.queue q := by
  simp [setHead, h]

theorem queue_setTail_of_ne {q : Q} (h : q ≠ qp) : (m.setTail qp p).queue q = m.queue q := by
  simp [setTail, h]

end queues

section jobs
variable [DecidableEq A]

def setNext (m : Mem Q A I) (a : A) (p : Option A) : Mem Q A I :=
  { m with job := Function.update m.job a { m.job a with jNext := p } }

def setPrev (m : Mem Q A I) (a : A) (p : Option A) : Mem Q A I :=
  { m with job := Function.update m.job a { m.job a with jPrev := p } }

variable (m : Mem Q A I) (a : A) (p : Option A)

@[simp] theorem queue_setNext : (m.setNext a p).queue = m.queue := rfl
@[simp] theorem queue_setPrev : (m.setPrev a p).queue = m.queue := rfl

@[simp] theorem next_setNext : (m.setNext a p).next = Function.update m.next a p := by
  funext x
  by_cases h : x = a <;> simp [next, setNext, h]

@[simp] theorem prev_setNext : (m.setNext a p).prev = m.prev := by
  funext x
  by_cases h : x = a <;> simp [prev, setNext, h]

@[simp] theorem next_setPrev : (m.setPrev a p).next = m.next := by
  funext x
  by_cases h : x = a <;> simp [next, setPrev, h]

@[simp] theorem prev_setPrev : (m.setPrev a p).prev = Function.update m.prev a p := by
  funext x
  by_cases h : x = a <;> simp [prev, setPrev, h]

end jobs

end Mem

/-! ### The operations -/

section ops
variable [DecidableEq Q] [DecidableEq A]

/-- `job_insert`. -/
def jobInsert (m : Mem Q A I) (qp : Q) (jp : A) : Mem Q A I :=
  let m := m.setNext jp (m.queue qp).qHead
  let m := m.setPrev jp none
  let m := match (m.queue qp).qHead with
    | some h => m.setPrev h (some jp)
    | none => m.setTail qp (some jp)
  m.setHead qp (some jp)

/-- `job_append`: `jp->j_next` is left as it is. -/
def jobAppend (m : Mem Q A I) (qp : Q) (jp : A) : Mem Q A I :=
  let m := m.setPrev jp (m.queue qp).qTail
  let m := match (m.queue qp).qTail with
    | some t => m.setNext t (some jp)
    | none => m.setHead qp (some jp)
  m.setTail qp (some jp)

/-- `job_remove`, with `jp->j_prev` for the field `qp->j_prev` that does not exist. -/
def jobRemove (m : Mem Q A I) (qp : Q) (jp : A) : Option (Mem Q A I) :=
  if (m.queue qp).qHead = some jp then
    let m := m.setHead qp (m.next jp)
    if (m.queue qp).qTail = some jp then
      some (m.setTail qp none)
    else
      (m.next jp).map fun nx => m.setPrev nx (m.prev jp)
  else if (m.queue qp).qTail = some jp then
    -- `qp->q_tail == jp->j_prev;` is a comparison whose value is dropped
    if (m.queue qp).qHead = some jp then
      some (m.setHead qp none)
    else
      (m.prev jp).map fun pv => m.setNext pv (m.next jp)
  else
    (m.prev jp).bind fun pv =>
      let m := m.setNext pv (m.next jp)
      (m.next jp).map fun nx => m.setPrev nx (m.prev jp)

/-- The loop of `job_find` from `jp` on, at most `fuel` times; `none` when the fuel runs out. -/
def jobFindLoop [DecidableEq I] (m : Mem Q A I) (id : I) : ℕ → Option A → Option (Option A)
  | _, none => some none
  | 0, some _ => none
  | fuel + 1, some jp =>
    if (m.job jp).jId = id then some (some jp) else jobFindLoop m id fuel (m.next jp)

/-- `job_find`. -/
def jobFind [DecidableEq I] (m : Mem Q A I) (qp : Q) (id : I) (fuel : ℕ) : Option (Option A) :=
  jobFindLoop m id fuel (m.queue qp).qHead

/-- A call of one of the three operations that change a queue. -/
inductive Op (Q A : Type*) where
  | insert (qp : Q) (jp : A)
  | append (qp : Q) (jp : A)
  | remove (qp : Q) (jp : A)

/-- What a call does to the memory. -/
def Op.exec (m : Mem Q A I) : Op Q A → Option (Mem Q A I)
  | .insert qp jp => some (jobInsert m qp jp)
  | .append qp jp => some (jobAppend m qp jp)
  | .remove qp jp => jobRemove m qp jp

/-- What a call should do to the sequences of jobs. -/
def Op.seq (seq : Q → List A) : Op Q A → Q → List A
  | .insert qp jp => Function.update seq qp (jp :: seq qp)
  | .append qp jp => Function.update seq qp (seq qp ++ [jp])
  | .remove qp jp => Function.update seq qp ((seq qp).erase jp)

/-- The memory, `none` once a null pointer was followed, and the sequences the queues should hold. -/
structure World (Q A I : Type*) where
  mem : Option (Mem Q A I)
  seq : Q → List A

def step (w : World Q A I) (op : Op Q A) : Option (World Q A I) :=
  w.mem.map fun m => ⟨op.exec m, op.seq w.seq⟩

/-- What the caller promises: a job that goes in is in no queue, a job that comes out is in that one. -/
def Allowed (w : World Q A I) : Op Q A → Prop
  | .insert _ jp => ∀ q, jp ∉ w.seq q
  | .append _ jp => ∀ q, jp ∉ w.seq q
  | .remove qp jp => jp ∈ w.seq qp

/-- When the code does what it should: an appended job comes with a null `jNext`, and the last job of
a queue is removed only when it is the only one. -/
def Sound (w : World Q A I) : Op Q A → Prop
  | .insert _ _ => True
  | .append _ jp => ∀ m, w.mem = some m → m.next jp = none
  | .remove qp jp => (w.seq qp).getLast? = some jp → w.seq qp = [jp]

end ops

/-! ### Well-formed queues -/

/-- The queue `q` is the doubly linked list of the jobs `l`. -/
structure Holds (m : Mem Q A I) (q : Q) (l : List A) : Prop where
  head : (m.queue q).qHead = l.head?
  tail : (m.queue q).qTail = l.getLast?
  links : DSeg m.next m.prev none l none

/-- A well-formed queue of the jobs `l`, field by field. -/
structure WellFormed (m : Mem Q A I) (q : Q) (l : List A) : Prop where
  bothNull : (m.queue q).qHead = none ↔ (m.queue q).qTail = none
  headPrev : ∀ x, (m.queue q).qHead = some x → m.prev x = none
  tailNext : ∀ x, (m.queue q).qTail = some x → m.next x = none
  neighbours : ∀ x ∈ l, ∀ y ∈ l, m.next x = some y ↔ m.prev y = some x
  sequence : Chain m.next (m.queue q).qHead l
  last : (m.queue q).qTail = l.getLast?

theorem Holds.nodup {m : Mem Q A I} {q : Q} {l : List A} (h : Holds m q l) : l.Nodup :=
  h.links.chain.nodup

theorem Holds.wellFormed {m : Mem Q A I} {q : Q} {l : List A} (h : Holds m q l) :
    WellFormed m q l := by
  have hnodup := h.nodup
  refine ⟨?_, fun x hx => ?_, fun x hx => ?_, fun x hx y hy => ?_, ?_, h.tail⟩
  · rw [h.head, h.tail]
    simp
  · rw [h.head] at hx
    obtain ⟨t, rfl⟩ := List.head?_eq_some_iff.mp hx
    exact h.links.1
  · rw [h.tail] at hx
    obtain ⟨t, rfl⟩ := List.getLast?_eq_some_iff.mp hx
    have hl : DSeg m.next m.prev none (t ++ x :: []) none := h.links
    exact hl.links.2
  · obtain ⟨pre, post, rfl⟩ := List.append_of_mem hx
    have hxn := h.links.links.2
    constructor
    · intro hnext
      rw [hnext, Option.or_none] at hxn
      obtain ⟨post', rfl⟩ := List.head?_eq_some_iff.mp hxn.symm
      have hl := h.links
      rw [show pre ++ x :: y :: post' = (pre ++ [x]) ++ y :: post' by simp] at hl
      simpa using hl.links.1
    · intro hprev
      obtain ⟨pre', post', heq⟩ := List.append_of_mem hy
      have hl := h.links
      rw [heq] at hl
      rw [hl.links.1, Option.or_none] at hprev
      obtain ⟨pre'', rfl⟩ := List.getLast?_eq_some_iff.mp hprev
      have hl' := h.links
      rw [heq, show (pre'' ++ [x]) ++ y :: post' = pre'' ++ x :: (y :: post') by simp] at hl'
      simpa using hl'.links.2
  · rw [h.head]
    exact h.links.chain

theorem Holds.frame {m m' : Mem Q A I} {q : Q} {l : List A} (h : Holds m q l)
    (hq : m'.queue q = m.queue q) (hl : ∀ x ∈ l, m'.next x = m.next x ∧ m'.prev x = m.prev x) :
    Holds m' q l :=
  ⟨by rw [hq, h.head], by rw [hq, h.tail], (dseg_congr hl).mpr h.links⟩

/-- `job_find` returns the first job of the sequence with the given id, within as many rounds as
there are jobs. -/
theorem Holds.jobFind_eq [DecidableEq I] {m : Mem Q A I} {q : Q} {l : List A} (h : Holds m q l)
    (id : I) {fuel : ℕ} (hfuel : l.length ≤ fuel) :
    jobFind m q id fuel = some (l.find? fun jp => (m.job jp).jId = id) := by
  have hchain := h.links.chain
  rw [jobFind, h.head]
  clear h
  generalize l.head? = p at hchain ⊢
  induction l generalizing p fuel with
  | nil =>
    obtain rfl : p = none := hchain
    cases fuel <;> rfl
  | cons x l ih =>
    obtain ⟨rfl, hrest⟩ := hchain
    cases fuel with
    | zero => simp at hfuel
    | succ fuel =>
      simp only [jobFindLoop, List.find?_cons]
      by_cases hid : (m.job x).jId = id
      · simp [hid]
      · simp only [hid, if_false, decide_false]
        exact ih (by simpa using hfuel) _ hrest

/-! ### One operation -/

section one
variable [DecidableEq Q] [DecidableEq A] {m m' : Mem Q A I} {qp : Q} {jp : A} {l : List A}

theorem jobInsert_of_empty (h : (m.queue qp).qHead = none) : jobInsert m qp jp =
    (((m.setNext jp none).setPrev jp none).setTail qp (some jp)).setHead qp (some jp) := by
  simp [jobInsert, h]

theorem jobInsert_of_head {x : A} (h : (m.queue qp).qHead = some x) : jobInsert m qp jp =
    (((m.setNext jp (some x)).setPrev jp none).setPrev x (some jp)).setHead qp (some jp) := by
  simp [jobInsert, h]

theorem jobInsert_holds (h : Holds m qp l) (hjp : jp ∉ l) :
    Holds (jobInsert m qp jp) qp (jp :: l) := by
  cases l with
  | nil =>
    rw [jobInsert_of_empty h.head]
    constructor <;> simp
  | cons x t =>
    rw [jobInsert_of_head h.head]
    have hx : x ∉ t := (List.nodup_cons.mp h.nodup).1
    have hne : jp ≠ x := by rintro rfl; simp at hjp
    refine ⟨by simp, ?_, ?_⟩
    · simpa using h.tail
    · simp only [Mem.next_setHead, Mem.prev_setHead, Mem.next_setPrev, Mem.prev_setPrev,
        Mem.next_setNext, Mem.prev_setNext]
      refine ⟨by simp [hne], by simp, ?_⟩
      exact ((h.links.setNext_notMem hjp).setPrev_notMem hjp).setPrev_first hx

theorem jobAppend_of_empty (h : (m.queue qp).qTail = none) : jobAppend m qp jp =
    ((m.setPrev jp none).setHead qp (some jp)).setTail qp (some jp) := by
  simp [jobAppend, h]

theorem jobAppend_of_tail {x : A} (h : (m.queue qp).qTail = some x) : jobAppend m qp jp =
    ((m.setPrev jp (some x)).setNext x (some jp)).setTail qp (some jp) := by
  simp [jobAppend, h]

theorem jobAppend_holds (h : Holds m qp l) (hjp : jp ∉ l) (hnext : m.next jp = none) :
    Holds (jobAppend m qp jp) qp (l ++ [jp]) := by
  rcases List.eq_nil_or_concat' l with rfl | ⟨t, x, rfl⟩
  · rw [jobAppend_of_empty h.tail]
    constructor <;> simp [hnext]
  · have htail : (m.queue qp).qTail = some x := by simpa using h.tail
    have hlinks : DSeg m.next m.prev none (t ++ [x]) none := by simpa using h.links
    have hx : x ∉ t := by
      have := h.nodup
      simp [List.nodup_append] at this
      tauto
    have hne : jp ≠ x := by rintro rfl; simp at hjp
    have hjp' : jp ∉ t ++ [x] := by simpa using hjp
    rw [jobAppend_of_tail htail]
    refine ⟨?_, by simp, ?_⟩
    · rw [show (((m.setPrev jp (some x)).setNext x (some jp)).setTail qp (some jp)).queue qp =
        { m.queue qp with qTail := some jp } by simp [Mem.setTail], h.head]
      cases t <;> simp
    · simp only [Mem.next_setTail, Mem.prev_setTail, Mem.next_setPrev, Mem.prev_setPrev,
        Mem.next_setNext, Mem.prev_setNext]
      rw [dseg_append]
      refine ⟨(hlinks.setPrev_notMem hjp').setNext_last hx, by simp, ?_, trivial⟩
      rw [Function.update_of_ne hne, hnext]
      simp

theorem jobRemove_head {t : List A} (h : Holds m qp (jp :: t)) :
    ∃ m', jobRemove m qp jp = some m' ∧ Holds m' qp t := by
  have hhead : (m.queue qp).qHead = some jp := h.head
  have hnext : m.next jp = t.head? := by simpa using h.links.2.1
  cases t with
  | nil =>
    have htail : (m.queue qp).qTail = some jp := h.tail
    refine ⟨(m.setHead qp (m.next jp)).setTail qp none, by simp [jobRemove, hhead, htail], ?_⟩
    constructor <;> simp [hnext]
  | cons n t =>
    have hnodup := h.nodup
    have htail : (m.queue qp).qTail ≠ some jp := by
      rw [h.tail]
      intro heq
      have hmem : jp ∈ n :: t := List.mem_of_getLast? (by simpa using heq)
      exact (List.nodup_cons.mp hnodup).1 hmem
    have hprev : m.prev jp = none := h.links.1
    have hn : n ∉ t := (List.nodup_cons.mp (List.Nodup.of_cons hnodup)).1
    refine ⟨(m.setHead qp (some n)).setPrev n none, by simp [jobRemove, hhead, htail, hnext, hprev],
      by simp, by simpa using h.tail, ?_⟩
    simp only [Mem.next_setPrev, Mem.prev_setPrev, Mem.next_setHead, Mem.prev_setHead]
    exact h.links.2.2.setPrev_first hn

theorem jobRemove_middle {pre post : List A} {w n : A}
    (h : Holds m qp (pre ++ [w] ++ jp :: n :: post)) :
    ∃ m', jobRemove m qp jp = some m' ∧ Holds m' qp (pre ++ [w] ++ n :: post) := by
  have hnodup := h.nodup
  have hprev : m.prev jp = some w := by simpa using h.links.links.1
  have hnext : m.next jp = some n := by simpa using h.links.links.2
  have hhead : (m.queue qp).qHead ≠ some jp := by
    rw [h.head]
    cases pre <;> simp [List.nodup_append] at hnodup ⊢ <;> grind
  have htail : (m.queue qp).qTail ≠ some jp := by
    rw [h.tail]
    intro heq
    have hmem : jp ∈ n :: post := List.mem_of_getLast? (by simpa using heq)
    simp [List.nodup_append] at hnodup hmem
    grind
  have hw : w ≠ jp := by rintro rfl; simp [List.nodup_append] at hnodup
  have hwpre : w ∉ pre := by simp [List.nodup_append] at hnodup; grind
  have hwpost : w ∉ n :: post := by simp [List.nodup_append] at hnodup; grind
  have hnpre : n ∉ pre ++ [w] := by simp [List.nodup_append] at hnodup ⊢; grind
  have hnpost : n ∉ post := by simp [List.nodup_append] at hnodup; grind
  refine ⟨(m.setNext w (some n)).setPrev n (some w),
    by simp [jobRemove, hhead, htail, hprev, hnext, hw.symm], ?_, ?_, ?_⟩
  · simp only [Mem.queue_setPrev, Mem.queue_setNext, h.head]
    cases pre <;> rfl
  · simp only [Mem.queue_setPrev, Mem.queue_setNext, h.tail]
    simp
  · have hl := h.links
    rw [dseg_append] at hl
    rw [dseg_append]
    simp only [Mem.next_setPrev, Mem.prev_setPrev, Mem.next_setNext, Mem.prev_setNext]
    refine ⟨(hl.1.setNext_last hwpre).setPrev_notMem hnpre, ?_⟩
    have hrest := (hl.2.2.2.setNext_notMem (v := some n) hwpost).setPrev_first (r := some w) hnpost
    simpa using hrest

theorem jobRemove_holds (h : Holds m qp l) (hmem : jp ∈ l)
    (hsound : l.getLast? = some jp → l = [jp]) :
    ∃ m', jobRemove m qp jp = some m' ∧ Holds m' qp (l.erase jp) := by
  obtain ⟨pre, post, rfl⟩ := List.append_of_mem hmem
  have hpre : jp ∉ pre := by
    have := h.nodup
    simp [List.nodup_append] at this
    grind
  rw [List.erase_append_right _ hpre, List.erase_cons_head]
  rcases List.eq_nil_or_concat' pre with rfl | ⟨pre, w, rfl⟩
  · exact jobRemove_head h
  · cases post with
    | nil =>
      have hlen := congrArg List.length (hsound (by simp))
      simp at hlen
    | cons n post => exact jobRemove_middle h

/-! ### Other queues -/

/-- The queue and the job a call names. -/
def Op.target : Op Q A → Q × A
  | .insert qp jp => (qp, jp)
  | .append qp jp => (qp, jp)
  | .remove qp jp => (qp, jp)

/-- The part of memory a call leaves alone: other queues, and jobs that are neither in the list it
works on nor the job it is given. -/
structure Outside (m m' : Mem Q A I) (qp : Q) (jp : A) (l : List A) : Prop where
  queue : ∀ q, q ≠ qp → m'.queue q = m.queue q
  links : ∀ x, x ≠ jp → x ∉ l → m'.next x = m.next x ∧ m'.prev x = m.prev x

theorem jobInsert_outside (h : Holds m qp l) : Outside m (jobInsert m qp jp) qp jp l := by
  cases l with
  | nil =>
    rw [jobInsert_of_empty h.head]
    exact ⟨fun q hq => by simp [Mem.queue_setHead_of_ne, Mem.queue_setTail_of_ne, hq],
      fun x hx _ => by simp [hx]⟩
  | cons y t =>
    rw [jobInsert_of_head h.head]
    exact ⟨fun q hq => by simp [Mem.queue_setHead_of_ne, hq],
      fun x hx hl => by simp [hx, List.ne_of_not_mem_cons hl]⟩

theorem jobAppend_outside (h : Holds m qp l) : Outside m (jobAppend m qp jp) qp jp l := by
  rcases List.eq_nil_or_concat' l with rfl | ⟨t, y, rfl⟩
  · rw [jobAppend_of_empty h.tail]
    exact ⟨fun q hq => by simp [Mem.queue_setHead_of_ne, Mem.queue_setTail_of_ne, hq],
      fun x hx _ => by simp [hx]⟩
  · have htail : (m.queue qp).qTail = some y := by simpa using h.tail
    rw [jobAppend_of_tail htail]
    refine ⟨fun q hq => by simp [Mem.queue_setTail_of_ne, hq], fun x hx hl => ?_⟩
    have hxy : x ≠ y := by rintro rfl; simp at hl
    simp [hx, hxy]

theorem jobRemove_outside (h : Holds m qp l) (hmem : jp ∈ l) (hex : jobRemove m qp jp = some m') :
    Outside m m' qp jp l := by
  -- the only other jobs written are the neighbours of `jp`
  have hnb : ∀ y, m.next jp = some y ∨ m.prev jp = some y → y ∈ l := by
    obtain ⟨pre, post, rfl⟩ := List.append_of_mem hmem
    rintro y (hy | hy)
    · rw [h.links.links.2, Option.or_none] at hy
      obtain ⟨t, rfl⟩ := List.head?_eq_some_iff.mp hy
      simp
    · rw [h.links.links.1, Option.or_none] at hy
      obtain ⟨t, rfl⟩ := List.getLast?_eq_some_iff.mp hy
      simp
  simp only [jobRemove, Mem.tail_setHead, Mem.next_setHead, Mem.prev_setHead, Mem.next_setNext,
    Mem.prev_setNext] at hex
  split_ifs at hex with h1 h2 h2
  · obtain rfl := Option.some.inj hex
    exact ⟨fun q hq => by simp [Mem.queue_setHead_of_ne, Mem.queue_setTail_of_ne, hq],
      fun x _ _ => by simp⟩
  · obtain ⟨nx, hnx, rfl⟩ := Option.map_eq_some_iff.mp hex
    have hin := hnb nx (Or.inl hnx)
    exact ⟨fun q hq => by simp [Mem.queue_setHead_of_ne, hq],
      fun x _ hl => by simp [ne_of_mem_of_not_mem hin hl |>.symm]⟩
  · obtain ⟨pv, hpv, rfl⟩ := Option.map_eq_some_iff.mp hex
    have hin := hnb pv (Or.inr hpv)
    exact ⟨fun q hq => by simp, fun x _ hl => by simp [ne_of_mem_of_not_mem hin hl |>.symm]⟩
  · obtain ⟨pv, hpv, hrest⟩ := Option.bind_eq_some_iff.mp hex
    obtain ⟨nx, hnx, rfl⟩ := Option.map_eq_some_iff.mp hrest
    have hin := hnb pv (Or.inr hpv)
    have hne : pv ≠ jp := by
      rintro rfl
      have := h.nodup
      obtain ⟨pre, post, rfl⟩ := List.append_of_mem hmem
      rw [h.links.links.1, Option.or_none] at hpv
      obtain ⟨t, rfl⟩ := List.getLast?_eq_some_iff.mp hpv
      simp [List.nodup_append] at this
    have hin' := hnb nx (Or.inl (by simpa [hne.symm] using hnx))
    exact ⟨fun q hq => by simp, fun x _ hl => by
      simp [ne_of_mem_of_not_mem hin hl |>.symm, ne_of_mem_of_not_mem hin' hl |>.symm]⟩

omit [DecidableEq Q] [DecidableEq A] in
theorem Outside.holds {q : Q} {l' : List A} (ho : Outside m m' qp jp l) (h : Holds m q l')
    (hq : q ≠ qp) (hjp : jp ∉ l') (hdisj : ∀ x ∈ l', x ∉ l) : Holds m' q l' :=
  h.frame (ho.queue q hq) fun x hx => ho.links x (ne_of_mem_of_not_mem hx hjp) (hdisj x hx)

end one

/-! ### Runs -/

section runs
variable [DecidableEq Q] [DecidableEq A]

/-- Every queue is the list it should be, and no job is in two of them. -/
structure Inv (w : World Q A I) : Prop where
  holds : ∃ m, w.mem = some m ∧ ∀ q, Holds m q (w.seq q)
  apart : ∀ q q', q ≠ q' → ∀ x ∈ w.seq q, x ∉ w.seq q'

/-- What a caller of the queues may rely on: no null pointer was followed, every queue is a
well-formed list of the jobs it should hold, and `jobFind` finds the first match in it. -/
def Intact [DecidableEq I] (w : World Q A I) : Prop :=
  ∃ m, w.mem = some m ∧ ∀ q, WellFormed m q (w.seq q) ∧
    ∀ id fuel, (w.seq q).length ≤ fuel →
      jobFind m q id fuel = some ((w.seq q).find? fun jp => (m.job jp).jId = id)

omit [DecidableEq Q] [DecidableEq A] in
theorem Inv.intact [DecidableEq I] {w : World Q A I} (h : Inv w) : Intact w := by
  obtain ⟨m, hm, hq⟩ := h.holds
  exact ⟨m, hm, fun q => ⟨(hq q).wellFormed, fun id fuel hf => (hq q).jobFind_eq id hf⟩⟩

theorem exec_holds {w : World Q A I} {m : Mem Q A I} (hm : w.mem = some m)
    (hq : ∀ q, Holds m q (w.seq q)) (op : Op Q A) (hallow : Allowed w op) (hsound : Sound w op) :
    ∃ m', op.exec m = some m' ∧ Holds m' op.target.1 (op.seq w.seq op.target.1) ∧
      Outside m m' op.target.1 op.target.2 (w.seq op.target.1) := by
  cases op with
  | insert qp jp =>
    refine ⟨_, rfl, ?_, jobInsert_outside (hq qp)⟩
    simpa [Op.seq, Op.target] using jobInsert_holds (hq qp) (hallow qp)
  | append qp jp =>
    refine ⟨_, rfl, ?_, jobAppend_outside (hq qp)⟩
    simpa [Op.seq, Op.target] using jobAppend_holds (hq qp) (hallow qp) (hsound m hm)
  | remove qp jp =>
    obtain ⟨m', hex, hholds⟩ := jobRemove_holds (hq qp) hallow hsound
    refine ⟨m', hex, ?_, jobRemove_outside (hq qp) hallow hex⟩
    simpa [Op.seq, Op.target] using hholds

theorem Op.seq_of_ne {seq : Q → List A} {op : Op Q A} {q : Q} (h : q ≠ op.target.1) :
    op.seq seq q = seq q := by
  cases op <;> exact Function.update_of_ne h _ _

theorem Allowed.mem_seq {w : World Q A I} {op : Op Q A} (h : Allowed w op) {x : A}
    (hx : x ∈ op.seq w.seq op.target.1) :
    x ∈ w.seq op.target.1 ∨ ∀ q, x ∉ w.seq q := by
  cases op with
  | insert qp jp =>
    simp only [Op.seq, Op.target, Function.update_self, List.mem_cons] at hx
    rcases hx with rfl | hx
    · exact Or.inr h
    · exact Or.inl hx
  | append qp jp =>
    simp only [Op.seq, Op.target, Function.update_self, List.mem_append, List.mem_singleton] at hx
    rcases hx with hx | rfl
    · exact Or.inl hx
    · exact Or.inr h
  | remove qp jp =>
    simp only [Op.seq, Op.target, Function.update_self] at hx
    exact Or.inl (List.mem_of_mem_erase hx)

omit [DecidableEq Q] [DecidableEq A] in
theorem Allowed.target_notMem {w : World Q A I} {op : Op Q A} (h : Allowed w op) (hinv : Inv w)
    {q : Q} (hq : q ≠ op.target.1) : op.target.2 ∉ w.seq q := by
  cases op with
  | insert qp jp => exact h q
  | append qp jp => exact h q
  | remove qp jp => exact fun hx => hinv.apart q qp hq jp hx h

theorem Allowed.apart {w : World Q A I} {op : Op Q A} (h : Allowed w op) (hinv : Inv w) (q q' : Q)
    (hne : q ≠ q') (x : A) (hx : x ∈ op.seq w.seq q) : x ∉ op.seq w.seq q' := by
  by_cases hqt : q = op.target.1
  · subst hqt
    rw [Op.seq_of_ne hne.symm]
    rcases h.mem_seq hx with hold | hnew
    · exact hinv.apart _ q' hne x hold
    · exact hnew q'
  · rw [Op.seq_of_ne hqt] at hx
    by_cases hqt' : q' = op.target.1
    · subst hqt'
      intro hx'
      rcases h.mem_seq hx' with hold | hnew
      · exact hinv.apart q _ hne x hx hold
      · exact hnew q hx
    · rw [Op.seq_of_ne hqt']
      exact hinv.apart q q' hne x hx

theorem step_inv (w : World Q A I) (op : Op Q A) (w' : World Q A I) (hinv : Inv w)
    (hcond : Allowed w op ∧ Sound w op) (hstep : step w op = some w') : Inv w' := by
  obtain ⟨hallow, hsound⟩ := hcond
  obtain ⟨m, hm, hq⟩ := hinv.holds
  obtain ⟨m', hex, hholds, hout⟩ := exec_holds hm hq op hallow hsound
  obtain rfl : (⟨some m', op.seq w.seq⟩ : World Q A I) = w' := by
    simpa [step, hm, hex] using hstep
  refine ⟨⟨m', rfl, fun q => ?_⟩, hallow.apart hinv⟩
  by_cases hqt : q = op.target.1
  · exact hqt ▸ hholds
  · have hkeep := hout.holds (hq q) hqt (hallow.target_notMem hinv hqt)
      (hinv.apart q op.target.1 hqt)
    simpa only [Op.seq_of_ne hqt] using hkeep

/-- The queues empty, the links of the jobs holding anything. -/
def start (m : Mem Q A I) : World Q A I :=
  ⟨some { m with queue := fun _ => ⟨none, none⟩ }, fun _ => []⟩

omit [DecidableEq Q] [DecidableEq A] in
theorem start_inv (m : Mem Q A I) : Inv (start m) :=
  ⟨⟨_, rfl, fun _ => ⟨rfl, rfl, trivial⟩⟩, fun _ _ _ x hx => absurd hx (by simp [start])⟩

/-- **The job queue over whole runs**: from empty queues, with anything in the jobs' links, every
run of allowed calls that appends only jobs with a null `jNext` and never removes the last of
several jobs leaves every queue well formed and holding the expected jobs. -/
theorem job_queue_run [DecidableEq I] (m : Mem Q A I) (ops : List (Op Q A)) (w : World Q A I)
    (hallow : Meets step Allowed (start m) ops) (hsound : Meets step Sound (start m) ops)
    (hrun : run step (start m) ops = some w) : Intact w :=
  (invariant_of_meets step_inv (start_inv m) (hallow.and hsound) hrun).intact

/-- **The two conditions are exact**: from a good state, an allowed call ends in a good state exactly
when it meets them. -/
theorem step_intact_iff [DecidableEq I] {w w' : World Q A I} {op : Op Q A} (hinv : Inv w)
    (hallow : Allowed w op) (hstep : step w op = some w') : Intact w' ↔ Sound w op := by
  refine ⟨fun hintact => ?_, fun hsound => (step_inv w op w' hinv ⟨hallow, hsound⟩ hstep).intact⟩
  obtain ⟨m, hm, hq⟩ := hinv.holds
  obtain ⟨m', hm', hgood⟩ := hintact
  obtain rfl : (⟨op.exec m, op.seq w.seq⟩ : World Q A I) = w' := by simpa [step, hm] using hstep
  cases op with
  | insert qp jp => trivial
  | append qp jp =>
    -- the appended job is the new tail, and its `jNext` is what it was
    intro m₂ hm₂
    obtain rfl : m = m₂ := Option.some.inj (hm.symm.trans hm₂)
    obtain rfl : jobAppend m qp jp = m' := Option.some.inj hm'
    have hwf := (hgood qp).1
    have hkeep : (jobAppend m qp jp).next jp = m.next jp := by
      rcases List.eq_nil_or_concat' (w.seq qp) with hl | ⟨t, x, hl⟩
      · rw [jobAppend_of_empty (by simpa [hl] using (hq qp).tail)]
        simp
      · have hne : jp ≠ x := by
          rintro rfl
          exact hallow qp (by simp [hl])
        rw [jobAppend_of_tail (by simpa [hl] using (hq qp).tail)]
        simp [hne]
    rw [← hkeep]
    exact hwf.tailNext jp (by rw [hwf.last]; simp [Op.seq])
  | remove qp jp =>
    -- the tail pointer still names the removed job
    intro hlast
    have hholds := hq qp
    obtain ⟨l, hl⟩ := List.getLast?_eq_some_iff.mp hlast
    rw [hl] at hholds ⊢
    rcases List.eq_nil_or_concat' l with rfl | ⟨pre, y, rfl⟩
    · rfl
    have hne : y ≠ jp := by
      have := hholds.nodup
      rintro rfl
      simp [List.nodup_append] at this
    have hnot : jp ∉ pre ++ [y] := by
      have := hholds.nodup
      simp [List.nodup_append] at this
      grind
    have hhead : (m.queue qp).qHead ≠ some jp := by
      rw [hholds.head]
      cases pre <;> simp at hnot ⊢ <;> tauto
    have htail : (m.queue qp).qTail = some jp := by simpa using hholds.tail
    have hprev : m.prev jp = some y := by
      have hlinks : DSeg m.next m.prev none (pre ++ [y] ++ jp :: []) none := hholds.links
      simpa using hlinks.links.1
    have hex : jobRemove m qp jp = some (m.setNext y (m.next jp)) := by
      simp [jobRemove, hhead, htail, hprev]
    obtain rfl : m.setNext y (m.next jp) = m' := Option.some.inj (hex.symm.trans hm')
    have hwf := (hgood qp).1.last
    simp only [Mem.queue_setNext, htail, Op.seq, Function.update_self, hl] at hwf
    rw [List.erase_append_right _ hnot] at hwf
    simp at hwf
    exact absurd hwf.symm hne

end runs

/-! ### The two failures -/

/-- Jobs named by numbers, all links null. -/
def blank : Mem Unit ℕ ℕ := ⟨fun _ => ⟨none, none⟩, fun a => ⟨none, none, a⟩⟩

/-- A run on both conditions: two jobs in, one more at the end, the middle and the head out. -/
theorem job_queue_run_blank : ∃ w, Intact w ∧
    run step (start blank) [.insert () 1, .insert () 2, .append () 3, .remove () 1, .remove () 2] =
      some w ∧ w.seq () = [3] :=
  ⟨_, job_queue_run blank [.insert () 1, .insert () 2, .append () 3, .remove () 1, .remove () 2] _
    (by simp [Meets, Allowed, start, step, Op.seq])
    (by simp [Meets, Sound, start, step, Op.seq, Op.exec, jobInsert, blank, Mem.next, Mem.setNext,
      Mem.setPrev, Mem.setHead, Mem.setTail])
    rfl, rfl, rfl⟩

/-- Removing the tail of two jobs leaves `qTail` on the removed job; appending a job that was removed
from the front of two closes a cycle through its old `jNext`. -/
theorem job_queue_breaks :
    (∃ w, Meets step Allowed (start blank) [.insert () 1, .insert () 2, .remove () 1] ∧
      run step (start blank) [.insert () 1, .insert () 2, .remove () 1] = some w ∧ ¬ Intact w) ∧
    (∃ w, Meets step Allowed (start blank) [.insert () 1, .insert () 2, .remove () 2, .append () 2] ∧
      run step (start blank) [.insert () 1, .insert () 2, .remove () 2, .append () 2] = some w ∧
      ¬ Intact w) := by
  refine ⟨⟨_, ?_, rfl, ?_⟩, ⟨_, ?_, rfl, ?_⟩⟩
  · simp [Meets, Allowed, start, step, Op.seq]
  · rintro ⟨m, hm, hq⟩
    obtain rfl := Option.some.inj hm
    exact absurd (hq ()).1.last (by decide)
  · simp [Meets, Allowed, start, step, Op.seq]
  · rintro ⟨m, hm, hq⟩
    obtain rfl := Option.some.inj hm
    exact absurd ((hq ()).1.tailNext 2 rfl) (by decide)

end Apue.JobQueue

import Apue.Lib.Transition
import Mathlib.Data.List.Infix
import Mathlib.Data.List.TakeWhile
import Mathlib.Logic.Function.Basic

/-!
# From message queues to sockets (Chapter-17/17-3.c)

For each of the `NQ` message queues a helper thread receives a message and writes it to a socket; `main`
polls the sockets, reads and prints. The sockets are stream sockets: the bytes a helper writes, at once
or in several pieces, are appended to those not yet read, and a read takes up to `MAXMSG` of them. A
read of an empty socket blocks. `received i` logs the messages taken from queue `i`, `lines` what was
printed, and `overrun` records a store behind the end of `buf`.

`bridge_run`: the lines of a queue are its messages, and no store leaves `buf`, in exactly those runs in
which every read finds one whole message in the socket, the next one, shorter than `MAXMSG`
(`OneMessage`). Two messages pending are printed as one line, and a message of `MAXMSG` bytes puts its
terminator behind the buffer (`bridge_breaks`).
-/

namespace Apue.Bridge
open Transition

def NQ : ℕ := 3

def MAXMSG : ℕ := 512

/-- A message: 1 to `MAXMSG` bytes, none of them null. -/
structure Msg where
  mtext : List UInt8
  noNul : 0 ∉ mtext
  pos : 1 ≤ mtext.length
  le : mtext.length ≤ MAXMSG

structure Pollfd where
  events : Bool
  revents : Bool

/-- A helper is in `msgrcv`, or in `write` with these bytes still to be written. -/
inductive HelperPc where
  | msgrcv
  | write (rest : List UInt8)

/-- `main` is in `poll`, or looking at descriptor `i`. -/
inductive MainPc where
  | poll
  | scan (i : Fin NQ)
  deriving DecidableEq

structure State where
  queue : Fin NQ → List Msg
  helper : Fin NQ → HelperPc
  sock : Fin NQ → List UInt8
  pfd : Fin NQ → Pollfd
  pc : MainPc
  received : Fin NQ → List (List UInt8)
  lines : List (Fin NQ × List UInt8)
  overrun : Bool

/-- The lines printed for queue `i`. -/
def State.linesOf (s : State) (i : Fin NQ) : List (List UInt8) :=
  (s.lines.filter fun l => l.1 = i).map Prod.snd

/-- A message arrives; a helper receives, or writes `n` bytes; `main` takes its next step. -/
inductive Act where
  | arrive (i : Fin NQ) (m : Msg)
  | msgrcv (i : Fin NQ)
  | write (i : Fin NQ) (n : ℕ)
  | main

/-- `msgrcv` with `MSG_NOERROR`: the first message, cut to `MAXMSG` bytes. -/
def msgrcv (s : State) (i : Fin NQ) : Option State :=
  match s.helper i, s.queue i with
  | .msgrcv, m :: rest =>
    some { s with
      queue := Function.update s.queue i rest
      helper := Function.update s.helper i (.write (m.mtext.take MAXMSG))
      received := Function.update s.received i (s.received i ++ [m.mtext]) }
  | _, _ => none

def write (s : State) (i : Fin NQ) (n : ℕ) : Option State :=
  match s.helper i with
  | .write rest =>
    if 1 ≤ n ∧ n ≤ rest.length then
      some { s with
        sock := Function.update s.sock i (s.sock i ++ rest.take n)
        helper := Function.update s.helper i
          (if n = rest.length then .msgrcv else .write (rest.drop n)) }
    else none
  | .msgrcv => none

/-- The program point after descriptor `i`. -/
def after (i : Fin NQ) : MainPc := if h : i.val + 1 < NQ then .scan ⟨i.val + 1, h⟩ else .poll

/-- The read, `buf[n] = 0`, and the text that `%s` prints of `buf`. -/
def readPrint (s : State) (i : Fin NQ) : Option State :=
  if s.sock i = [] then none
  else
    let bytes := (s.sock i).take MAXMSG
    some { s with
      sock := Function.update s.sock i ((s.sock i).drop MAXMSG)
      overrun := s.overrun || decide (MAXMSG ≤ bytes.length)
      lines := s.lines ++ [(i, bytes.takeWhile (· ≠ 0))]
      pc := after i }

def step (s : State) : Act → Option State
  | .arrive i m => some { s with queue := Function.update s.queue i (s.queue i ++ [m]) }
  | .msgrcv i => msgrcv s i
  | .write i n => write s i n
  | .main =>
    match s.pc with
    | .poll =>
      if ∃ i, s.sock i ≠ [] then
        some { s with
          pfd := fun i => { s.pfd i with revents := decide (s.sock i ≠ []) }
          pc := .scan ⟨0, by decide⟩ }
      else none
    | .scan i => if (s.pfd i).events then readPrint s i else some { s with pc := after i }

def start : State where
  queue := fun _ => []
  helper := fun _ => .msgrcv
  sock := fun _ => []
  pfd := fun _ => ⟨true, false⟩
  pc := .poll
  received := fun _ => []
  lines := []
  overrun := false

/-! ### The property and the condition -/

/-- The lines of each queue are its first messages, and no store went behind `buf`. -/
def Faithful (s : State) : Prop := s.overrun = false ∧ ∀ i, s.linesOf i <+: s.received i

/-- A read finds exactly the next message of its queue, and it is shorter than `MAXMSG`. -/
def OneMessage (s : State) : Act → Prop
  | .main => ∀ i, s.pc = .scan i → (s.pfd i).events = true →
    ∃ m, (s.received i)[(s.linesOf i).length]? = some m ∧ s.sock i = m ∧ m.length < MAXMSG
  | _ => True

/-! ### The invariant -/

/-- The bytes the helper still has to write. -/
def HelperPc.rest : HelperPc → List UInt8
  | .msgrcv => []
  | .write rest => rest

/-- The messages received and not yet printed are in the socket, the last of them perhaps still partly
with the helper. -/
structure Inv (s : State) : Prop where
  overrun : s.overrun = false
  pending : ∀ i, ∃ un, s.received i = s.linesOf i ++ un ∧ s.sock i ++ (s.helper i).rest = un.flatten
  texts : ∀ i, ∀ m ∈ s.received i, 0 ∉ m ∧ 1 ≤ m.length ∧ m.length ≤ MAXMSG

/-- Something was stored behind `buf`, or a line is not the message it should be. -/
def Broken (s : State) : Prop :=
  s.overrun = true ∨ ∃ i, ∃ k : ℕ, ∃ l m, (s.linesOf i)[k]? = some l ∧
    (s.received i)[k]? = some m ∧ l ≠ m

theorem Inv.faithful {s : State} (h : Inv s) : Faithful s := by
  refine ⟨h.overrun, fun i => ?_⟩
  obtain ⟨un, hun, -⟩ := h.pending i
  exact ⟨un, hun.symm⟩

theorem Faithful.not_broken {s : State} (h : Faithful s) : ¬ Broken s := by
  rintro (hover | ⟨i, k, l, m, hl, hm, hne⟩)
  · rw [h.1] at hover
    exact Bool.false_ne_true hover
  · obtain ⟨un, hun⟩ := h.2 i
    rw [← hun, List.getElem?_append_left (List.getElem?_eq_some_iff.mp hl).1, hl] at hm
    exact hne (Option.some.inj hm)

theorem start_inv : Inv start := by
  refine ⟨rfl, fun i => ⟨[], rfl, rfl⟩, fun i m hm => ?_⟩
  exact absurd hm List.not_mem_nil

/-! ### One step -/

section step
variable {s s' : State} {i j : Fin NQ} {a : Act}

theorem linesOf_append (s : State) (i j : Fin NQ) (l : List UInt8) :
    ((s.lines ++ [(i, l)]).filter fun x => x.1 = j).map Prod.snd =
      s.linesOf j ++ if i = j then [l] else [] := by
  rw [List.filter_append, List.map_append]
  by_cases hij : i = j <;> simp [hij, State.linesOf]

theorem readPrint_cases (h : Inv s) (hs : readPrint s i = some s') :
    ∃ m, (s.received i)[(s.linesOf i).length]? = some m ∧ m.length ≤ MAXMSG ∧
      s' = { s with
        sock := Function.update s.sock i ((s.sock i).drop MAXMSG)
        overrun := decide (MAXMSG ≤ ((s.sock i).take MAXMSG).length)
        lines := s.lines ++ [(i, (s.sock i).take MAXMSG)]
        pc := after i } := by
  unfold readPrint at hs
  split at hs
  · exact absurd hs (by simp)
  · rename_i hsock
    obtain ⟨un, hun, hflat⟩ := h.pending i
    have hnul : 0 ∉ s.sock i := by
      intro h0
      have hmem : (0 : UInt8) ∈ un.flatten := hflat ▸ List.mem_append_left _ h0
      obtain ⟨m, hm, h0m⟩ := List.mem_flatten.mp hmem
      exact (h.texts i m (hun ▸ List.mem_append_right _ hm)).1 h0m
    have hline : ((s.sock i).take MAXMSG).takeWhile (· ≠ 0) = (s.sock i).take MAXMSG := by
      rw [List.takeWhile_eq_self_iff]
      intro x hx
      have hne : x ≠ 0 := fun h0 => hnul (h0 ▸ List.mem_of_mem_take hx)
      simpa using hne
    cases un with
    | nil =>
      rw [List.flatten_nil, List.append_eq_nil_iff] at hflat
      exact absurd hflat.1 hsock
    | cons m un =>
      refine ⟨m, ?_, (h.texts i m (by simp [hun])).2.2, ?_⟩
      · rw [hun, List.getElem?_append_right le_rfl, Nat.sub_self]
        rfl
      · rw [← Option.some.inj hs, hline, h.overrun, Bool.false_or]

theorem readPrint_inv (h : Inv s) (hpc : s.pc = .scan i) (hev : (s.pfd i).events = true)
    (hC : OneMessage s .main) (hs : readPrint s i = some s') : Inv s' := by
  obtain ⟨m', hm', -, rfl⟩ := readPrint_cases h hs
  obtain ⟨m, hm, hsock, hlt⟩ := hC i hpc hev
  have htake : (s.sock i).take MAXMSG = m := by
    rw [hsock, List.take_of_length_le hlt.le]
  constructor
  case overrun => simp [htake, hlt]
  case pending =>
    intro j
    obtain ⟨un, hun, hflat⟩ := h.pending j
    rw [State.linesOf, linesOf_append]
    by_cases hij : i = j
    · subst hij
      cases un with
      | nil =>
        rw [hun, List.append_nil, List.getElem?_eq_none le_rfl] at hm
        exact absurd hm (by simp)
      | cons m₀ un =>
        rw [hun, List.getElem?_append_right le_rfl, Nat.sub_self, List.getElem?_cons_zero,
          Option.some.injEq] at hm
        subst hm
        refine ⟨un, by simp [hun, htake], ?_⟩
        rw [List.flatten_cons, hsock, List.append_cancel_left_eq] at hflat
        simp only [Function.update_self]
        rw [hsock, List.drop_of_length_le hlt.le, List.nil_append, hflat]
    · refine ⟨un, by simp [hij, hun], ?_⟩
      simp only [Function.update_of_ne (Ne.symm hij)]
      exact hflat
  case texts => exact h.texts

theorem readPrint_broken (h : Inv s) (hpc : s.pc = .scan i) (hC : ¬ OneMessage s .main)
    (hs : readPrint s i = some s') : Broken s' := by
  obtain ⟨m, hm, hle, rfl⟩ := readPrint_cases h hs
  by_cases hlong : MAXMSG ≤ ((s.sock i).take MAXMSG).length
  · exact Or.inl (by simpa using hlong)
  · refine Or.inr ⟨i, (s.linesOf i).length, (s.sock i).take MAXMSG, m, ?_, hm, ?_⟩
    · rw [State.linesOf, linesOf_append, if_pos rfl, List.getElem?_append_right le_rfl, Nat.sub_self]
      rfl
    · rintro htake
      rw [List.length_take, Nat.not_le] at hlong
      have hshort : (s.sock i).length < MAXMSG := by omega
      rw [List.take_of_length_le hshort.le] at htake
      refine hC fun j hpc' _ => ?_
      obtain rfl : i = j := MainPc.scan.inj (hpc.symm.trans hpc')
      exact ⟨m, hm, htake, htake ▸ hshort⟩

theorem msgrcv_inv (h : Inv s) (hs : msgrcv s i = some s') : Inv s' := by
  unfold msgrcv at hs
  split at hs
  · rename_i m rest hhelper hqueue
    obtain rfl := Option.some.inj hs
    constructor
    case overrun => exact h.overrun
    case pending =>
      intro j
      obtain ⟨un, hun, hflat⟩ := h.pending j
      by_cases hij : j = i
      · subst hij
        refine ⟨un ++ [m.mtext], ?_, ?_⟩
        · simp only [Function.update_self]
          rw [hun, List.append_assoc]
          rfl
        · rw [hhelper] at hflat
          simp only [Function.update_self, HelperPc.rest, List.append_nil] at hflat ⊢
          rw [List.flatten_append, ← hflat, List.take_of_length_le m.le]
          simp
      · refine ⟨un, ?_, ?_⟩
        · simp only [Function.update_of_ne hij]
          exact hun
        · simp only [Function.update_of_ne hij]
          exact hflat
    case texts =>
      intro j x hx
      by_cases hij : j = i
      · subst hij
        simp only [Function.update_self, List.mem_append, List.mem_singleton] at hx
        rcases hx with hx | rfl
        · exact h.texts j x hx
        · exact ⟨m.noNul, m.pos, m.le⟩
      · simp only [Function.update_of_ne hij] at hx
        exact h.texts j x hx
  · exact absurd hs (by simp)

theorem write_inv {n : ℕ} (h : Inv s) (hs : write s i n = some s') : Inv s' := by
  unfold write at hs
  split at hs
  · rename_i rest hhelper
    obtain ⟨⟨-, hn⟩, hs⟩ := Option.ite_none_right_eq_some.mp hs
    obtain rfl := Option.some.inj hs
    refine ⟨h.overrun, fun j => ?_, h.texts⟩
    obtain ⟨un, hun, hflat⟩ := h.pending j
    refine ⟨un, hun, ?_⟩
    by_cases hij : j = i
    · subst hij
      have hrest : (if n = rest.length then HelperPc.msgrcv else .write (rest.drop n)).rest =
          rest.drop n := by
        split
        · rename_i hall
          simp [HelperPc.rest, hall]
        · rfl
      rw [hhelper] at hflat
      simp only [Function.update_self]
      rw [hrest, List.append_assoc, List.take_append_drop]
      exact hflat
    · simp only [Function.update_of_ne hij]
      exact hflat
  · exact absurd hs (by simp)

theorem step_inv (h : Inv s) (hC : OneMessage s a) (hs : step s a = some s') : Inv s' := by
  cases a with
  | arrive i m =>
    obtain rfl := Option.some.inj hs
    exact ⟨h.overrun, h.pending, h.texts⟩
  | msgrcv i => exact msgrcv_inv h hs
  | write i n => exact write_inv h hs
  | main =>
    unfold step at hs
    cases hpc : s.pc with
    | poll =>
      simp only [hpc] at hs
      obtain ⟨-, hs⟩ := Option.ite_none_right_eq_some.mp hs
      obtain rfl := Option.some.inj hs
      exact ⟨h.overrun, h.pending, h.texts⟩
    | scan i =>
      simp only [hpc] at hs
      split at hs
      · rename_i hev
        exact readPrint_inv h hpc hev hC hs
      · obtain rfl := Option.some.inj hs
        exact ⟨h.overrun, h.pending, h.texts⟩

theorem step_broken (h : Inv s) (hC : ¬ OneMessage s a) (hs : step s a = some s') : Broken s' := by
  cases a with
  | arrive i m => exact absurd trivial hC
  | msgrcv i => exact absurd trivial hC
  | write i n => exact absurd trivial hC
  | main =>
    unfold step at hs
    cases hpc : s.pc with
    | poll => exact absurd (fun i hi => absurd (hpc.symm.trans hi) (by simp)) hC
    | scan i =>
      simp only [hpc] at hs
      split at hs
      · exact readPrint_broken h hpc hC hs
      · rename_i hev
        refine absurd (fun j hj hev' => ?_) hC
        obtain rfl : i = j := MainPc.scan.inj (hpc.symm.trans hj)
        exact absurd hev' hev

/-- What is printed stays printed, what is received stays received. -/
structure Grows (s s' : State) : Prop where
  lines : ∃ l, s'.lines = s.lines ++ l
  received : ∀ i, s.received i <+: s'.received i
  overrun : s.overrun = true → s'.overrun = true

theorem step_grows (hs : step s a = some s') : Grows s s' := by
  cases a with
  | arrive i m =>
    obtain rfl := Option.some.inj hs
    exact ⟨⟨[], by simp⟩, fun _ => List.prefix_rfl, fun ho => ho⟩
  | msgrcv i =>
    replace hs : msgrcv s i = some s' := hs
    unfold msgrcv at hs
    split at hs
    · obtain rfl := Option.some.inj hs
      refine ⟨⟨[], by simp⟩, fun j => ?_, fun ho => ho⟩
      by_cases hij : j = i
      · subst hij
        simp
      · simp only [Function.update_of_ne hij]
        exact List.prefix_rfl
    · exact absurd hs (by simp)
  | write i n =>
    replace hs : write s i n = some s' := hs
    unfold write at hs
    split at hs
    · obtain ⟨-, hs⟩ := Option.ite_none_right_eq_some.mp hs
      obtain rfl := Option.some.inj hs
      exact ⟨⟨[], by simp⟩, fun _ => List.prefix_rfl, fun ho => ho⟩
    · exact absurd hs (by simp)
  | main =>
    unfold step at hs
    cases hpc : s.pc with
    | poll =>
      simp only [hpc] at hs
      obtain ⟨-, hs⟩ := Option.ite_none_right_eq_some.mp hs
      obtain rfl := Option.some.inj hs
      exact ⟨⟨[], by simp⟩, fun _ => List.prefix_rfl, fun ho => ho⟩
    | scan i =>
      simp only [hpc] at hs
      split at hs
      · unfold readPrint at hs
        split at hs
        · exact absurd hs (by simp)
        · obtain rfl := Option.some.inj hs
          exact ⟨⟨_, rfl⟩, fun _ => List.prefix_rfl, fun ho => by simp [ho]⟩
      · obtain rfl := Option.some.inj hs
        exact ⟨⟨[], by simp⟩, fun _ => List.prefix_rfl, fun ho => ho⟩

theorem broken_stays (h : Broken s) (hs : step s a = some s') : Broken s' := by
  obtain ⟨⟨ls, hls⟩, hreceived, hoverrun⟩ := step_grows hs
  rcases h with hover | ⟨i, k, l, m, hl, hm, hne⟩
  · exact Or.inl (hoverrun hover)
  · refine Or.inr ⟨i, k, l, m, ?_, ?_, hne⟩
    · have hlines : s'.linesOf i = s.linesOf i ++ (ls.filter fun l => l.1 = i).map Prod.snd := by
        rw [State.linesOf, hls, List.filter_append, List.map_append]
        rfl
      rw [hlines, List.getElem?_append_left (List.getElem?_eq_some_iff.mp hl).1]
      exact hl
    · obtain ⟨ms, hms⟩ := hreceived i
      rw [← hms, List.getElem?_append_left (List.getElem?_eq_some_iff.mp hm).1]
      exact hm

end step

/-! ### Every run -/

/-- **A run ends well exactly when every read found one whole message.** -/
theorem bridge_run (as : List Act) {s : State} (h : run step start as = some s) :
    Faithful s ↔ Meets step OneMessage start as := by
  constructor
  · intro hfaithful
    exact meets_of_unbroken (fun _ _ _ hinv hC hs => step_inv hinv hC hs)
      (fun _ _ _ hinv hC hs => step_broken hinv hC hs) (fun _ _ _ hb hs => broken_stays hb hs)
      start_inv h hfaithful.not_broken
  · intro hmeets
    exact (invariant_of_meets (fun _ _ _ hinv hC hs => step_inv hinv hC hs) start_inv hmeets h).faithful

/-- A message of `n` letters. -/
def letters (n : ℕ) (h : 1 ≤ n) (h' : n ≤ MAXMSG) : Msg :=
  ⟨List.replicate n 97, by simp, by simpa using h, by simpa using h'⟩

/-- One message of three letters goes through, in two pieces. -/
def oneMessage : List Act :=
  [.arrive ⟨0, by decide⟩ (letters 3 (by decide) (by decide)), .msgrcv ⟨0, by decide⟩,
    .write ⟨0, by decide⟩ 2, .write ⟨0, by decide⟩ 1, .main, .main]

theorem bridge_run_oneMessage : ∃ s, run step start oneMessage = some s ∧
    s.linesOf ⟨0, by decide⟩ = [[97, 97, 97]] ∧ Meets step OneMessage start oneMessage :=
  ⟨_, rfl, rfl, (bridge_run oneMessage rfl).mp ⟨rfl, by decide⟩⟩

/-- Two messages are written before `main` reads. -/
def twoMessages : List Act :=
  [.arrive ⟨0, by decide⟩ (letters 1 (by decide) (by decide)),
    .arrive ⟨0, by decide⟩ (letters 2 (by decide) (by decide)), .msgrcv ⟨0, by decide⟩,
    .write ⟨0, by decide⟩ 1, .msgrcv ⟨0, by decide⟩, .write ⟨0, by decide⟩ 2, .main, .main]

/-- A message of `MAXMSG` bytes. -/
def longMessage : List Act :=
  [.arrive ⟨0, by decide⟩ (letters MAXMSG (by decide) le_rfl), .msgrcv ⟨0, by decide⟩,
    .write ⟨0, by decide⟩ MAXMSG, .main, .main]

/-- Two messages come out as one line, and a long one puts its terminator behind `buf`. -/
theorem bridge_breaks :
    (∃ s, run step start twoMessages = some s ∧ s.received ⟨0, by decide⟩ = [[97], [97, 97]] ∧
      s.linesOf ⟨0, by decide⟩ = [[97, 97, 97]] ∧ ¬ Faithful s) ∧
    (∃ s, run step start longMessage = some s ∧ s.overrun = true ∧ ¬ Faithful s) := by
  have hlong : (run step start longMessage).map State.overrun = some true := by decide +kernel
  obtain ⟨s, hs, hover⟩ := Option.map_eq_some_iff.mp hlong
  refine ⟨⟨_, rfl, rfl, rfl, fun h => ?_⟩, ⟨s, hs, hover, fun h => ?_⟩⟩
  · exact absurd (h.2 ⟨0, by decide⟩) (by decide)
  · exact absurd (hover.symm.trans h.1) (by decide)

end Apue.Bridge

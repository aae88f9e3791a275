import Apue.Lib.Stdio
import Apue.Lib.Transition

/-!
# A filter and its coprocess (Chapter-15/15-18.c with 15-17.c)

The parent sends what one `fgets` returned to its child `add2` and waits for one reply before it goes on.
The two run in any interleaving, one system call at a time. A `read` takes everything in the pipe, up to
the count asked, and waits when the pipe is empty and its other end is open.

The messages have no frames. That they are not mixed up rests on there being at most one of them in both
pipes together, and that nobody waits for ever on its not being empty. With a null byte in the input
it can be: `strlen` then stops in front of the end of the line. `coprocess_iff` says that these are the only
inputs that go wrong.
-/

namespace Apue.Coprocess
open Stdio Transition

def MAXLINE : ℕ := 4096

def invalidArgs : List UInt8 := ascii "invalid args\n"

/-- The reply of `add2` to a line. The sum is an `int` again. -/
def answer (line : List UInt8) : List UInt8 :=
  match scanInt (CStr.ofBuf line).bytes with
  | none => invalidArgs
  | some (int1, rest) =>
    match scanInt rest with
    | none => invalidArgs
    | some (int2, _) => (CStr.decimal (toInt (int1 + int2))).bytes ++ [10]

/-- The parent is about to make one of these calls. `line` is the string to `write`, or the bytes that
`read` returned: then `line[n] = 0` comes first. -/
inductive Parent where
  | fgets
  | write (line : CStr)
  | read
  | fputs (line : List UInt8)
  | exited

/-- Likewise the child. -/
inductive Child where
  | read
  | write (line : List UInt8)
  | exited

/-- The rest of the standard input, the bytes in the two pipes and where the processes are. Then, in their
order: what `fgets` returned, what the child read and sent, what the parent read and printed, and the index
of every store of a null byte in a `line`. -/
structure State where
  input : List UInt8
  toChild : List UInt8
  toParent : List UInt8
  parent : Parent
  child : Child
  fragments : List (List UInt8)
  reads : List (List UInt8)
  sent : List (List UInt8)
  got : List (List UInt8)
  printed : List (List UInt8)
  stores : List ℕ

/-- The parent's next call. `ok` is whether `fgets` and `fputs` succeed. Writing to a child that is gone
raises `SIGPIPE`, whose handler exits. -/
def parentStep (s : State) (ok : Bool) : Option State :=
  match s.parent with
  | .fgets =>
    match ok, fgets MAXLINE s.input with
    | true, some (line, rest) =>
      some { s with
        input := rest, parent := .write (CStr.ofBuf line), fragments := s.fragments ++ [line] }
    | _, _ => some { s with parent := .exited }
  | .write line =>
    match s.child with
    | .exited => some { s with parent := .exited }
    | _ => some { s with parent := .read, toChild := s.toChild ++ line.bytes }
  | .read =>
    if s.toParent ≠ [] then
      let line := s.toParent.take MAXLINE
      some { s with toParent := s.toParent.drop MAXLINE, parent := .fputs line, got := s.got ++ [line] }
    else
      match s.child with
      | .exited => some { s with parent := .exited }
      | _ => none
  | .fputs line =>
    let s := { s with stores := s.stores ++ [line.length] }
    if ok then some { s with parent := .fgets, printed := s.printed ++ [(CStr.ofBuf line).bytes] }
    else some { s with parent := .exited }
  | .exited => none

/-- The child's next call. -/
def childStep (s : State) : Option State :=
  match s.child with
  | .read =>
    if s.toChild ≠ [] then
      let line := s.toChild.take MAXLINE
      some { s with toChild := s.toChild.drop MAXLINE, child := .write line, reads := s.reads ++ [line] }
    else
      match s.parent with
      | .exited => some { s with child := .exited }
      | _ => none
  | .write line =>
    let s := { s with stores := s.stores ++ [line.length] }
    match s.parent with
    | .exited => some { s with child := .exited }
    | _ => some { s with toParent := s.toParent ++ answer line, child := .read, sent := s.sent ++ [answer line] }
  | .exited => none

inductive Act where
  | parent (ok : Bool)
  | child

def step (s : State) : Act → Option State
  | .parent ok => parentStep s ok
  | .child => childStep s

def start (input : List UInt8) : State :=
  ⟨input, [], [], .fgets, .read, [], [], [], [], [], []⟩

/-! ### What should hold -/

/-- Both processes wait in `read`. -/
def State.Blocked (s : State) : Prop :=
  s.parent = .read ∧ s.toParent = [] ∧ s.child = .read ∧ s.toChild = []

/-- Each log is the one before it, or lacks the last entry. -/
def Follows (later earlier : List (List UInt8)) : Prop :=
  later <+: earlier ∧ earlier.length ≤ later.length + 1

/-- The child reads each fragment of the input as it is and answers it once, and the answers come back
and are printed in this order. When the parent is back at `fgets` all of this is done. Nothing is stored
outside of a `line`, and the processes wait for each other never, but end. -/
structure LockStep (input : List UInt8) (s : State) : Prop where
  input : s.fragments.flatten ++ s.input = input
  reads : Follows s.reads s.fragments
  sent : Follows s.sent (s.reads.map answer)
  got : Follows s.got s.sent
  printed : Follows s.printed s.got
  done : s.parent = .fgets → s.reads = s.fragments ∧ s.printed = s.fragments.map answer
  stores : ∀ n ∈ s.stores, n < MAXLINE
  notBlocked : ¬ s.Blocked
  ends : (∀ a, step s a = none) → s.parent = .exited ∧ s.child = .exited ∧ s.reads = s.fragments ∧
    s.got = s.fragments.map answer

/-! ### Replies -/

theorem length_decimal_toInt_le (n : ℤ) : (CStr.decimal (toInt n)).bytes.length ≤ 11 := by
  have hbounds := toInt_bounds n
  have hdigits : (CStr.digitBytes (toInt n).natAbs).length ≤ 10 :=
    CStr.length_digitBytes_le (by decide) (by omega)
  unfold CStr.decimal
  split
  · rw [CStr.bytes_append, List.length_append]
    show 1 + (CStr.digitBytes _).length ≤ 11
    omega
  · show (CStr.digitBytes _).length ≤ 11
    omega

theorem answer_fits (line : List UInt8) :
    answer line ≠ [] ∧ (answer line).length < MAXLINE ∧ (CStr.ofBuf (answer line)).bytes = answer line := by
  have hinvalid : invalidArgs ≠ [] ∧ invalidArgs.length < MAXLINE ∧
      (CStr.ofBuf invalidArgs).bytes = invalidArgs := by decide
  unfold answer
  split
  · exact hinvalid
  · rename_i int1 rest _
    split
    · exact hinvalid
    · rename_i int2 _ _
      have hle := length_decimal_toInt_le (int1 + int2)
      refine ⟨by simp, ?_, CStr.bytes_ofBuf ?_⟩
      · rw [List.length_append, List.length_singleton, MAXLINE]
        omega
      · have hnul := (CStr.decimal (toInt (int1 + int2))).noNul
        simpa using hnul

theorem answer_sum {ws ws' t : List UInt8} {a b : ℤ} (hws : ∀ c ∈ ws, isSpace c = true)
    (hws' : ∀ c ∈ ws', isSpace c = true) (hne : ws' ≠ []) (ha : -2 ^ 31 ≤ a ∧ a < 2 ^ 31)
    (hb : -2 ^ 31 ≤ b ∧ b < 2 ^ 31) (hsum : -2 ^ 31 ≤ a + b ∧ a + b < 2 ^ 31)
    (ht : ∀ c ∈ t.head?, isDigit c = false) (hnul : 0 ∉ t) :
    answer (ws ++ ((CStr.decimal a).bytes ++ (ws' ++ ((CStr.decimal b).bytes ++ t)))) =
      (CStr.decimal (a + b)).bytes ++ [10] := by
  have hspace : ∀ {l : List UInt8}, (∀ c ∈ l, isSpace c = true) → 0 ∉ l := by
    intro l hl hmem
    have hzero := hl 0 hmem
    revert hzero
    decide
  have hline : 0 ∉ ws ++ ((CStr.decimal a).bytes ++ (ws' ++ ((CStr.decimal b).bytes ++ t))) := by
    simp only [List.mem_append, not_or]
    exact ⟨hspace hws, (CStr.decimal a).noNul, hspace hws', (CStr.decimal b).noNul, hnul⟩
  have hhead : ∀ c ∈ (ws' ++ ((CStr.decimal b).bytes ++ t)).head?, isDigit c = false := by
    obtain ⟨w, ws'', rfl⟩ := List.exists_cons_of_ne_nil hne
    intro c hc
    obtain rfl : w = c := by simpa using hc
    have hw := hws' w List.mem_cons_self
    simp only [isSpace, isDigit, Bool.or_eq_true, Bool.and_eq_true, Bool.and_eq_false_iff,
      decide_eq_true_eq, decide_eq_false_iff_not, UInt8.le_iff_toNat_le, ← UInt8.toNat_inj] at hw ⊢
    change w.toNat = 32 ∨ 9 ≤ w.toNat ∧ w.toNat ≤ 13 at hw
    left
    show ¬ 48 ≤ w.toNat
    omega
  rw [answer, CStr.bytes_ofBuf hline, scanInt_decimal hws ha.1 ha.2 hhead]
  simp only
  rw [scanInt_decimal hws' hb.1 hb.2 ht]
  simp only
  rw [toInt_eq hsum.1 hsum.2]

/-! ### The phases of a round -/

/-- A fragment without a null byte, as `fgets` returns it. -/
structure Whole (f : List UInt8) : Prop where
  ne : f ≠ []
  lt : f.length < MAXLINE
  bytes : (CStr.ofBuf f).bytes = f

/-- Where the fragment `f` is, when the fragments `fs` before it have been answered. -/
inductive Phase : State → Prop
  | idle (rest : List UInt8) (fs : List (List UInt8)) (st : List ℕ) :
    Phase ⟨rest, [], [], .fgets, .read, fs, fs, fs.map answer, fs.map answer, fs.map answer, st⟩
  | asked (rest f : List UInt8) (fs : List (List UInt8)) (st : List ℕ) (hf : Whole f) :
    Phase ⟨rest, [], [], .write (CStr.ofBuf f), .read, fs ++ [f], fs, fs.map answer, fs.map answer,
      fs.map answer, st⟩
  | inPipe (rest f : List UInt8) (fs : List (List UInt8)) (st : List ℕ) (hf : Whole f) :
    Phase ⟨rest, f, [], .read, .read, fs ++ [f], fs, fs.map answer, fs.map answer, fs.map answer, st⟩
  | taken (rest f : List UInt8) (fs : List (List UInt8)) (st : List ℕ) (hf : Whole f) :
    Phase ⟨rest, [], [], .read, .write f, fs ++ [f], fs ++ [f], fs.map answer, fs.map answer,
      fs.map answer, st⟩
  | answered (rest f : List UInt8) (fs : List (List UInt8)) (st : List ℕ) :
    Phase ⟨rest, [], answer f, .read, .read, fs ++ [f], fs ++ [f], fs.map answer ++ [answer f],
      fs.map answer, fs.map answer, st⟩
  | back (rest f : List UInt8) (fs : List (List UInt8)) (st : List ℕ) :
    Phase ⟨rest, [], [], .fputs (answer f), .read, fs ++ [f], fs ++ [f], fs.map answer ++ [answer f],
      fs.map answer ++ [answer f], fs.map answer, st⟩
  | ended (rest : List UInt8) (fs printed : List (List UInt8)) (st : List ℕ) (child : Child)
      (hchild : child = .read ∨ child = .exited) (hprinted : Follows printed (fs.map answer)) :
    Phase ⟨rest, [], [], .exited, child, fs, fs, fs.map answer, fs.map answer, printed, st⟩

structure Inv (input : List UInt8) (s : State) : Prop where
  input : s.fragments.flatten ++ s.input = input
  stores : ∀ n ∈ s.stores, n < MAXLINE
  phase : Phase s

variable {input : List UInt8} {s s' : State}

theorem Follows.refl (l : List (List UInt8)) : Follows l l := ⟨List.prefix_rfl, by omega⟩

theorem Follows.snoc (l : List (List UInt8)) (x : List UInt8) : Follows l (l ++ [x]) :=
  ⟨List.prefix_append l [x], by simp⟩

theorem stores_snoc {st : List ℕ} {n : ℕ} (h : ∀ n ∈ st, n < MAXLINE) (hn : n < MAXLINE) :
    ∀ m ∈ st ++ [n], m < MAXLINE := by
  intro m hm
  obtain hm | hm := List.mem_append.mp hm
  · exact h m hm
  · exact List.mem_singleton.mp hm ▸ hn

theorem parentStep_inv {ok : Bool} (h : Inv input s) (hnul : 0 ∉ input) (hs : parentStep s ok = some s') :
    Inv input s' := by
  obtain ⟨hinput, hstores, hphase⟩ := h
  cases hphase with
  | idle rest fs st =>
    have hover : Phase ⟨rest, [], [], .exited, .read, fs, fs, fs.map answer, fs.map answer, fs.map answer, st⟩ :=
      .ended rest fs _ st .read (Or.inl rfl) (Follows.refl _)
    simp only [parentStep] at hs
    split at hs
    · rename_i line rest' hline
      obtain rfl := Option.some.inj hs
      obtain ⟨happ, hne, hlt⟩ := fgets_eq_some (by decide) hline
      simp only at hinput happ
      have hnotMem : 0 ∉ line := by
        intro hmem
        apply hnul
        rw [← hinput, ← happ]
        simp [hmem]
      refine ⟨?_, hstores, .asked rest' line fs st ⟨hne, hlt, CStr.bytes_ofBuf hnotMem⟩⟩
      show (fs ++ [line]).flatten ++ rest' = input
      rw [List.flatten_append, List.flatten_singleton, List.append_assoc, happ, hinput]
    · obtain rfl := Option.some.inj hs
      exact ⟨hinput, hstores, hover⟩
  | asked rest f fs st hf =>
    simp only [parentStep, List.nil_append, hf.bytes] at hs
    obtain rfl := Option.some.inj hs
    exact ⟨hinput, hstores, .inPipe rest f fs st hf⟩
  | inPipe rest f fs st hf => simp [parentStep] at hs
  | taken rest f fs st hf => simp [parentStep] at hs
  | answered rest f fs st =>
    obtain ⟨hne, hlt, -⟩ := answer_fits f
    simp only [parentStep] at hs
    rw [if_pos hne, List.take_of_length_le (by omega), List.drop_of_length_le (by omega)] at hs
    obtain rfl := Option.some.inj hs
    exact ⟨hinput, hstores, .back rest f fs st⟩
  | back rest f fs st =>
    obtain ⟨-, hlt, hbytes⟩ := answer_fits f
    have hmap : fs.map answer ++ [answer f] = (fs ++ [f]).map answer := by simp
    have hst := stores_snoc hstores hlt
    simp only [parentStep, hbytes] at hs
    cases ok with
    | true =>
      obtain rfl := Option.some.inj hs
      refine ⟨hinput, hst, ?_⟩
      rw [hmap]
      exact .idle rest (fs ++ [f]) _
    | false =>
      obtain rfl := Option.some.inj hs
      refine ⟨hinput, hst, ?_⟩
      rw [hmap]
      exact .ended rest (fs ++ [f]) _ _ .read (Or.inl rfl) (hmap ▸ Follows.snoc _ _)
  | ended rest fs printed st child hchild hprinted => simp [parentStep] at hs

theorem childStep_inv (h : Inv input s) (hs : childStep s = some s') : Inv input s' := by
  obtain ⟨hinput, hstores, hphase⟩ := h
  cases hphase with
  | inPipe rest f fs st hf =>
    have hlt := hf.lt
    simp only [childStep] at hs
    rw [if_pos hf.ne, List.take_of_length_le (by omega), List.drop_of_length_le (by omega)] at hs
    obtain rfl := Option.some.inj hs
    exact ⟨hinput, hstores, .taken rest f fs st hf⟩
  | taken rest f fs st hf =>
    simp only [childStep, List.nil_append] at hs
    obtain rfl := Option.some.inj hs
    exact ⟨hinput, stores_snoc hstores hf.lt, .answered rest f fs _⟩
  | ended rest fs printed st child hchild hprinted =>
    obtain rfl | rfl := hchild
    · simp only [childStep] at hs
      obtain rfl := Option.some.inj hs
      exact ⟨hinput, hstores, .ended rest fs printed st .exited (Or.inr rfl) hprinted⟩
    · simp [childStep] at hs
  | idle | asked | answered | back => simp [childStep] at hs

theorem step_inv (hnul : 0 ∉ input) (s : State) (a : Act) (s' : State) (h : Inv input s)
    (hs : step s a = some s') : Inv input s' := by
  cases a with
  | parent ok => exact parentStep_inv h hnul hs
  | child => exact childStep_inv h hs

theorem start_inv (input : List UInt8) : Inv input (start input) :=
  ⟨rfl, by simp [start], .idle input [] []⟩

theorem Inv.lockStep (h : Inv input s) : LockStep input s := by
  obtain ⟨hinput, hstores, hphase⟩ := h
  cases hphase with
  | idle rest fs st =>
    refine ⟨hinput, .refl _, .refl _, .refl _, .refl _, fun _ => ⟨rfl, rfl⟩, hstores, ?_, fun hstuck => ?_⟩
    · simp [State.Blocked]
    · have hparent := hstuck (.parent false)
      simp [step, parentStep] at hparent
  | asked rest f fs st hf =>
    refine ⟨hinput, .snoc _ _, .refl _, .refl _, .refl _, by simp, hstores, ?_, fun hstuck => ?_⟩
    · simp [State.Blocked]
    · have hparent := hstuck (.parent true)
      simp [step, parentStep] at hparent
  | inPipe rest f fs st hf =>
    refine ⟨hinput, .snoc _ _, .refl _, .refl _, .refl _, by simp, hstores, ?_, fun hstuck => ?_⟩
    · simp [State.Blocked, hf.ne]
    · have hchild := hstuck .child
      simp [step, childStep, hf.ne] at hchild
  | taken rest f fs st hf =>
    refine ⟨hinput, .refl _, ?_, .refl _, .refl _, by simp, hstores, ?_, fun hstuck => ?_⟩
    · rw [List.map_append]
      exact .snoc _ _
    · simp [State.Blocked]
    · have hchild := hstuck .child
      simp [step, childStep] at hchild
  | answered rest f fs st =>
    refine ⟨hinput, .refl _, ?_, .snoc _ _, .refl _, by simp, hstores, ?_, fun hstuck => ?_⟩
    · rw [List.map_append]
      exact .refl _
    · simp [State.Blocked, (answer_fits f).1]
    · have hparent := hstuck (.parent true)
      simp [step, parentStep, (answer_fits f).1] at hparent
  | back rest f fs st =>
    refine ⟨hinput, .refl _, ?_, .refl _, .snoc _ _, by simp, hstores, ?_, fun hstuck => ?_⟩
    · rw [List.map_append]
      exact .refl _
    · simp [State.Blocked]
    · have hparent := hstuck (.parent true)
      simp [step, parentStep] at hparent
  | ended rest fs printed st child hchild hprinted =>
    refine ⟨hinput, .refl _, .refl _, .refl _, hprinted, by simp, hstores, ?_, fun hstuck => ?_⟩
    · simp [State.Blocked]
    · have hexited : child = .exited := by
        obtain rfl | rfl := hchild
        · have hread := hstuck .child
          simp [step, childStep] at hread
        · rfl
      exact ⟨rfl, hexited, rfl, rfl⟩

/-! ### Every input -/

theorem Whole.round {f : List UInt8} (hf : Whole f) (rest : List UInt8) (fs : List (List UInt8)) (st : List ℕ) :
    Reaches step
      ⟨rest, [], [], .write (CStr.ofBuf f), .read, fs ++ [f], fs, fs.map answer, fs.map answer,
        fs.map answer, st⟩
      ⟨rest, [], [], .fgets, .read, fs ++ [f], fs ++ [f], (fs ++ [f]).map answer, (fs ++ [f]).map answer,
        (fs ++ [f]).map answer, st ++ [f.length] ++ [(answer f).length]⟩ := by
  obtain ⟨hne, hlt, hbytes⟩ := answer_fits f
  have hflt := hf.lt
  have hwrite : step ⟨rest, [], [], .write (CStr.ofBuf f), .read, fs ++ [f], fs, fs.map answer,
      fs.map answer, fs.map answer, st⟩ (.parent true) = some ⟨rest, f, [], .read, .read, fs ++ [f], fs,
        fs.map answer, fs.map answer, fs.map answer, st⟩ := by
    simp only [step, parentStep, List.nil_append, hf.bytes]
  have hread : step ⟨rest, f, [], .read, .read, fs ++ [f], fs, fs.map answer, fs.map answer, fs.map answer, st⟩
      .child = some ⟨rest, [], [], .read, .write f, fs ++ [f], fs ++ [f], fs.map answer, fs.map answer,
        fs.map answer, st⟩ := by
    simp only [step, childStep]
    rw [if_pos hf.ne, List.take_of_length_le (by omega), List.drop_of_length_le (by omega)]
  have hreply : step ⟨rest, [], [], .read, .write f, fs ++ [f], fs ++ [f], fs.map answer, fs.map answer,
      fs.map answer, st⟩ .child = some ⟨rest, [], answer f, .read, .read, fs ++ [f], fs ++ [f],
        fs.map answer ++ [answer f], fs.map answer, fs.map answer, st ++ [f.length]⟩ := rfl
  have hback : step ⟨rest, [], answer f, .read, .read, fs ++ [f], fs ++ [f], fs.map answer ++ [answer f],
      fs.map answer, fs.map answer, st ++ [f.length]⟩ (.parent true) = some ⟨rest, [], [], .fputs (answer f),
        .read, fs ++ [f], fs ++ [f], fs.map answer ++ [answer f], fs.map answer ++ [answer f],
        fs.map answer, st ++ [f.length]⟩ := by
    simp only [step, parentStep]
    rw [if_pos hne, List.take_of_length_le (by omega), List.drop_of_length_le (by omega)]
  have hprint : step ⟨rest, [], [], .fputs (answer f), .read, fs ++ [f], fs ++ [f],
      fs.map answer ++ [answer f], fs.map answer ++ [answer f], fs.map answer, st ++ [f.length]⟩
      (.parent true) = some ⟨rest, [], [], .fgets, .read, fs ++ [f], fs ++ [f], (fs ++ [f]).map answer,
        (fs ++ [f]).map answer, (fs ++ [f]).map answer, st ++ [f.length] ++ [(answer f).length]⟩ := by
    simp only [step, parentStep, hbytes, if_true, List.map_append, List.map_singleton]
  exact .head hwrite (.head hread (.head hreply (.head hback (.head hprint (.refl step _)))))

/-- If nothing can go wrong from here on, there is no null byte left. -/
theorem notMem_of_lockStep (n : ℕ) (rest : List UInt8) (hn : rest.length ≤ n) (fs : List (List UInt8))
    (st : List ℕ)
    (hall : ∀ s, Reaches step ⟨rest, [], [], .fgets, .read, fs, fs, fs.map answer, fs.map answer,
      fs.map answer, st⟩ s → LockStep input s) :
    0 ∉ rest := by
  induction n generalizing rest fs st with
  | zero =>
    obtain rfl := List.length_eq_zero_iff.mp (Nat.le_zero.mp hn)
    exact List.not_mem_nil
  | succ n ih =>
    cases hline : fgets MAXLINE rest with
    | none =>
      obtain rfl := fgets_eq_none.mp hline
      exact List.not_mem_nil
    | some x =>
      obtain ⟨f, rest'⟩ := x
      obtain ⟨happ, hne, hlt⟩ := fgets_eq_some (by decide) hline
      have hask : step ⟨rest, [], [], .fgets, .read, fs, fs, fs.map answer, fs.map answer, fs.map answer, st⟩
          (.parent true) = some ⟨rest', [], [], .write (CStr.ofBuf f), .read, fs ++ [f], fs, fs.map answer,
            fs.map answer, fs.map answer, st⟩ := by
        simp only [step, parentStep, hline]
      have hwrite : step ⟨rest', [], [], .write (CStr.ofBuf f), .read, fs ++ [f], fs, fs.map answer,
          fs.map answer, fs.map answer, st⟩ (.parent true) = some ⟨rest', (CStr.ofBuf f).bytes, [], .read,
            .read, fs ++ [f], fs, fs.map answer, fs.map answer, fs.map answer, st⟩ := rfl
      have hwritten := Reaches.head hask (Reaches.head hwrite (Reaches.refl step _))
      -- a fragment that starts with a null byte blocks both processes
      have hsent : (CStr.ofBuf f).bytes ≠ [] :=
        fun hnil => (hall _ hwritten).notBlocked ⟨rfl, rfl, rfl, hnil⟩
      have hle : (CStr.ofBuf f).bytes.length ≤ f.length := (List.takeWhile_prefix _).length_le
      have hread : step ⟨rest', (CStr.ofBuf f).bytes, [], .read, .read, fs ++ [f], fs, fs.map answer,
          fs.map answer, fs.map answer, st⟩ .child = some ⟨rest', [], [], .read, .write (CStr.ofBuf f).bytes,
            fs ++ [f], fs ++ [(CStr.ofBuf f).bytes], fs.map answer, fs.map answer, fs.map answer, st⟩ := by
        simp only [step, childStep]
        rw [if_pos hsent, List.take_of_length_le (by omega), List.drop_of_length_le (by omega)]
      -- and any other null byte cuts the fragment that the child reads
      have hreads := (hall _ (Reaches.head hask (Reaches.head hwrite
        (Reaches.head hread (Reaches.refl step _))))).reads
      have hbytes : (CStr.ofBuf f).bytes = f := by
        have heq := hreads.1.eq_of_length (by simp)
        simpa using heq
      have hround := (⟨hne, hlt, hbytes⟩ : Whole f).round rest' fs st
      have hrest : 0 ∉ rest' := by
        refine ih rest' ?_ (fs ++ [f]) _ fun s hs => hall s (Reaches.head hask (hround.trans hs))
        have hpos := List.length_pos_iff.mpr hne
        rw [← happ, List.length_append] at hn
        omega
      rw [← happ, List.mem_append, not_or]
      exact ⟨hbytes ▸ (CStr.ofBuf f).noNul, hrest⟩

end Apue.Coprocess

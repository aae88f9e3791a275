import Apue.AdvIo.Rot13Run

/-!
# The synchronous rot13 filter (Chapter-14/14-20.c)

`main`, whatever `read` and `write` do. A `write` that fails or is short ends the program with status 1. A `read`
that fails ends the loop as the end of the file does, so the status is 0 and the rest of the input is missing
(`rot13_sync_iff`).

The two files are different.
-/

namespace Apue.Rot13Sync
open File
open Rot13 (BSZ syncMain syncLoop_eq)

def translate (c : UInt8) : UInt8 :=
  if c ≥ 110 then c - 13       -- 'n'
  else if c ≥ 97 then c + 13   -- 'a'
  else if c ≥ 78 then c - 13   -- 'N'
  else c + 13

/-- `for (i = 0; i < n; ++i) buf[i] = translate(buf[i])`. -/
def translateBuf : ℕ → List UInt8 → List UInt8
  | 0, buf => buf
  | i + 1, buf => (translateBuf i buf).modify i translate

/-- What the calls of one round do: they fail, or take this many bytes at most. A `read` brings fewer only at the end
of the file. -/
structure Outcome where
  read : Option { k : ℕ // 1 ≤ k ∧ k ≤ BSZ }
  write : Option ℕ

inductive Exit where
  | ok
  | usage
  | cannotOpen
  | cannotCreate
  | writeFailed
  | shortWrite (nw n : ℤ)
  deriving DecidableEq

/-- `err_quit` and `err_sys` exit with 1. -/
def Exit.status : Exit → ℕ
  | .ok => 0
  | _ => 1

/-- How the program has ended, and what it has written. -/
structure Ran where
  exit : Exit
  out : List UInt8
  deriving DecidableEq

structure State where
  buf : List UInt8
  /-- The offset of `ifd`. -/
  off : ℕ
  out : List UInt8

namespace State

/-- `n = read(ifd, buf, BSZ)`. -/
def read (input : List UInt8) (s : State) : Option { k : ℕ // 1 ≤ k ∧ k ≤ BSZ } → State × ℤ
  | none => (s, -1)
  | some k =>
    let bytes := pread input s.off k.1
    ({ s with buf := bytes ++ s.buf.drop bytes.length, off := s.off + bytes.length }, bytes.length)

/-- `nw = write(ofd, buf, n)`. -/
def write (s : State) (n : ℕ) : Option ℕ → State × ℤ
  | none => (s, -1)
  | some k => ({ s with out := s.out ++ (s.buf.take n).take k }, (min k n : ℕ))

end State

/-- The loop; none if it reads once more after all of these. -/
def loop (input : List UInt8) : List Outcome → State → Option Ran
  | [], _ => none
  | o :: outcomes, s =>
    let (s, n) := s.read input o.read
    if n > 0 then
      let s := { s with buf := translateBuf n.toNat s.buf }
      let (s, nw) := s.write n.toNat o.write
      if nw ≠ n then
        if nw < 0 then some ⟨.writeFailed, s.out⟩ else some ⟨.shortWrite nw n, s.out⟩
      else loop input outcomes s
    else some ⟨.ok, s.out⟩

/-- The arguments, and what the calls do. -/
structure Env where
  argc : ℤ
  /-- Whether `open` works for `infile`, and for `outfile`. -/
  ifd : Bool
  ofd : Bool
  outcomes : List Outcome

def main (input : List UInt8) (e : Env) : Option Ran :=
  if e.argc ≠ 3 then some ⟨.usage, []⟩
  else if e.ifd = false then some ⟨.cannotOpen, []⟩
  else if e.ofd = false then some ⟨.cannotCreate, []⟩
  else loop input e.outcomes ⟨List.replicate BSZ 0, 0, []⟩

/-! ### What it should do -/

/-- Status 0 is for the whole input. -/
def Right (input : List UInt8) (r : Ran) : Prop := r.exit.status = 0 → r.out = input.map translate

/-- The number of bytes that `read` is willing to bring. -/
def brought : List Outcome → ℕ
  | [] => 0
  | o :: outcomes => o.read.elim 0 Subtype.val + brought outcomes

/-- Neither call fails, and everything that was read is written. -/
def Outcome.Whole (o : Outcome) : Prop := ∃ k j, o.read = some k ∧ o.write = some j ∧ k.1 ≤ j

/-- After whole rounds that do not bring the `left` bytes, a `read` fails. -/
def CutOff (outcomes : List Outcome) (left : ℕ) : Prop :=
  ∃ pre o post, outcomes = pre ++ o :: post ∧ (∀ p ∈ pre, p.Whole) ∧ brought pre < left ∧ o.read = none

/-- The files are open, and a `read` in front of the end of the input is the first call that fails. -/
def Env.CutOff (e : Env) (input : List UInt8) : Prop :=
  e.argc = 3 ∧ e.ifd = true ∧ e.ofd = true ∧ Rot13Sync.CutOff e.outcomes input.length

variable {input : List UInt8} {s : State} {o : Outcome} {outcomes : List Outcome} {r : Ran} {left n j : ℕ}
  {k : { k : ℕ // 1 ≤ k ∧ k ≤ BSZ }}

/-! ### One round -/

theorem getElem?_translateBuf (n : ℕ) (buf : List UInt8) (i : ℕ) :
    (translateBuf n buf)[i]? = if i < n then buf[i]?.map translate else buf[i]? := by
  induction n with
  | zero => rw [translateBuf, if_neg (Nat.not_lt_zero i)]
  | succ n ih =>
    rw [translateBuf, List.getElem?_modify, ih]
    rcases Nat.lt_trichotomy i n with hlt | rfl | hgt
    · have hne : n ≠ i := Nat.ne_of_gt hlt
      simp [hlt, Nat.lt_succ_of_lt hlt, hne]
    · simp
    · have hne : n ≠ i := Nat.ne_of_lt hgt
      simp [Nat.lt_asymm hgt, Nat.not_lt.2 hgt, hne]

theorem take_translateBuf (bytes rest : List UInt8) :
    (translateBuf bytes.length (bytes ++ rest)).take bytes.length = bytes.map translate := by
  refine List.ext_getElem? fun i => ?_
  rw [List.getElem?_take, List.getElem?_map, getElem?_translateBuf]
  split
  · rename_i hlt
    rw [List.getElem?_append_left hlt]
  · rename_i hge
    rw [List.getElem?_eq_none (Nat.not_lt.1 hge), Option.map_none]

/-- After a round in which everything that was read is written. -/
def State.copied (input : List UInt8) (s : State) (k : ℕ) : State :=
  let bytes := pread input s.off k
  { buf := translateBuf bytes.length (bytes ++ s.buf.drop bytes.length)
    off := s.off + bytes.length
    out := s.out ++ bytes.map translate }

theorem loop_readFails (h : o.read = none) : loop input (o :: outcomes) s = some ⟨.ok, s.out⟩ := by
  rw [loop, h]
  rfl

theorem loop_atEnd (h : o.read = some k) (hoff : input.length ≤ s.off) :
    loop input (o :: outcomes) s = some ⟨.ok, s.out⟩ := by
  have hnil : pread input s.off k.1 = [] := by
    rw [pread, List.drop_eq_nil_of_le hoff, List.take_nil]
  rw [loop, h]
  simp [State.read, hnil]

theorem length_pread_pos (h : s.off < input.length) : 0 < (pread input s.off k.1).length := by
  have hk := k.2.1
  rw [length_pread]
  omega

theorem loop_writeFails (h : o.read = some k) (hoff : s.off < input.length) (hwrite : o.write = none) :
    loop input (o :: outcomes) s = some ⟨.writeFailed, s.out⟩ := by
  have hpos : 0 < (pread input s.off k.1).length := length_pread_pos hoff
  have hne : (-1 : ℤ) ≠ (pread input s.off k.1).length := by omega
  simp only [loop, h, State.read, hwrite, State.write]
  rw [if_pos (by omega), if_pos hne, if_pos (by decide)]

theorem loop_writesShort (h : o.read = some k) (hoff : s.off < input.length) (hwrite : o.write = some j)
    (hj : j < (pread input s.off k.1).length) :
    loop input (o :: outcomes) s = some ⟨.shortWrite j (pread input s.off k.1).length,
      s.out ++ ((pread input s.off k.1).map translate).take j⟩ := by
  have hpos : 0 < (pread input s.off k.1).length := length_pread_pos hoff
  simp only [loop, h, State.read, hwrite, State.write, Int.toNat_natCast, take_translateBuf]
  rw [if_pos (by omega), if_pos (by omega), if_neg (by omega), Nat.min_eq_left (Nat.le_of_lt hj)]

theorem loop_writes (h : o.read = some k) (hoff : s.off < input.length) (hwrite : o.write = some j)
    (hj : (pread input s.off k.1).length ≤ j) :
    loop input (o :: outcomes) s = loop input outcomes (s.copied input k) := by
  have hpos : 0 < (pread input s.off k.1).length := length_pread_pos hoff
  have htake : ((pread input s.off k.1).map translate).take j = (pread input s.off k.1).map translate :=
    List.take_of_length_le (by rwa [List.length_map])
  simp only [loop, h, State.read, hwrite, State.write, Int.toNat_natCast, take_translateBuf, htake]
  rw [if_pos (by omega), if_neg (by omega)]
  rfl

/-- How a round goes, and what the loop comes to. -/
inductive Round (input : List UInt8) (s : State) (o : Outcome) (outcomes : List Outcome) : Option Ran → Prop
  | readFails (hread : o.read = none) : Round input s o outcomes (some ⟨.ok, s.out⟩)
  | atEnd {k : { k : ℕ // 1 ≤ k ∧ k ≤ BSZ }} (hread : o.read = some k) (hoff : input.length ≤ s.off) :
      Round input s o outcomes (some ⟨.ok, s.out⟩)
  | writeFails {k : { k : ℕ // 1 ≤ k ∧ k ≤ BSZ }} (hread : o.read = some k)
      (hoff : s.off < input.length) (hwrite : o.write = none) :
      Round input s o outcomes (some ⟨.writeFailed, s.out⟩)
  | writesShort {k : { k : ℕ // 1 ≤ k ∧ k ≤ BSZ }} {j : ℕ} (hread : o.read = some k)
      (hoff : s.off < input.length) (hwrite : o.write = some j)
      (hj : j < (pread input s.off k.1).length) :
      Round input s o outcomes (some ⟨.shortWrite j (pread input s.off k.1).length,
        s.out ++ ((pread input s.off k.1).map translate).take j⟩)
  | writes {k : { k : ℕ // 1 ≤ k ∧ k ≤ BSZ }} {j : ℕ} (hread : o.read = some k)
      (hoff : s.off < input.length) (hwrite : o.write = some j)
      (hj : (pread input s.off k.1).length ≤ j) :
      Round input s o outcomes (loop input outcomes (s.copied input k.1))

theorem loop_round (input : List UInt8) (s : State) (o : Outcome) (outcomes : List Outcome) :
    Round input s o outcomes (loop input (o :: outcomes) s) := by
  cases hread : o.read with
  | none => exact loop_readFails hread ▸ .readFails hread
  | some k =>
    rcases Nat.lt_or_ge s.off input.length with hoff | hoff
    · cases hwrite : o.write with
      | none => exact loop_writeFails hread hoff hwrite ▸ .writeFails hread hoff hwrite
      | some j =>
        rcases Nat.lt_or_ge j (pread input s.off k.1).length with hj | hj
        · exact loop_writesShort hread hoff hwrite hj ▸ .writesShort hread hoff hwrite hj
        · exact loop_writes hread hoff hwrite hj ▸ .writes hread hoff hwrite hj
    · exact loop_atEnd hread hoff ▸ .atEnd hread hoff

/-! ### What has been written -/

/-- What has been read has been written. -/
structure Copied (input : List UInt8) (s : State) : Prop where
  off : s.off ≤ input.length
  out : s.out = (input.take s.off).map translate

theorem Copied.append (h : Copied input s) (j : ℕ) :
    s.out ++ ((pread input s.off n).map translate).take j <+: input.map translate := by
  have hinput : input.map translate = s.out ++ (input.drop s.off).map translate := by
    rw [h.out, ← List.map_append, List.take_append_drop]
  rw [hinput, pread, List.map_take, List.take_take]
  exact (List.prefix_append_right_inj _).2 (List.take_prefix ..)

theorem Copied.prefix (h : Copied input s) : s.out <+: input.map translate := by
  rw [h.out, List.map_take]
  exact List.take_prefix ..

theorem Copied.next (h : Copied input s) (k : ℕ) : Copied input (s.copied input k) := by
  have hoff := h.off
  have hlen := length_pread input s.off k
  have hbytes : pread input s.off k = (input.drop s.off).take (pread input s.off k).length := by
    rw [hlen, ← List.length_drop, ← List.take_eq_take_min]
    rfl
  constructor
  · simp only [State.copied]
    omega
  · simp only [State.copied]
    rw [List.take_add, List.map_append, ← h.out, ← hbytes]

/-- Whatever happens, nothing is written but the translation of a first part of the input. -/
theorem prefix_of_loop (hs : Copied input s) (h : loop input outcomes s = some r) :
    r.out <+: input.map translate := by
  induction outcomes generalizing s with
  | nil => cases h
  | cons o outcomes ih =>
    have hround := loop_round input s o outcomes
    generalize loop input (o :: outcomes) s = x at h hround
    cases hround with
    | readFails _ | atEnd _ _ | writeFails _ _ _ =>
      obtain rfl := Option.some.inj h
      exact hs.prefix
    | writesShort _ _ _ _ =>
      obtain rfl := Option.some.inj h
      exact hs.append _
    | writes _ _ _ _ => exact ih (hs.next _) h

/-! ### When it is right -/

theorem cutOff_cons : CutOff (o :: outcomes) left ↔ (o.read = none ∧ 0 < left) ∨
    ∃ k j, o.read = some k ∧ o.write = some j ∧ k.1 ≤ j ∧ k.1 < left ∧ CutOff outcomes (left - k.1) := by
  constructor
  · rintro ⟨pre, o', post, hsplit, hwhole, hleft, hread⟩
    cases pre with
    | nil =>
      obtain ⟨rfl, -⟩ := List.cons.inj hsplit
      exact .inl ⟨hread, hleft⟩
    | cons p pre =>
      obtain ⟨rfl, rfl⟩ := List.cons.inj hsplit
      obtain ⟨k, j, hread', hwrite, hle⟩ := hwhole o (List.mem_cons_self ..)
      have hsum : k.1 + brought pre < left := by simpa [brought, hread'] using hleft
      refine .inr ⟨k, j, hread', hwrite, hle, by omega, pre, o', post, rfl, fun p hp => ?_, by omega, hread⟩
      exact hwhole p (List.mem_cons_of_mem _ hp)
  · rintro (⟨hread, hleft⟩ | ⟨k, j, hread, hwrite, hle, hlt, pre, o', post, rfl, hwhole, hleft, hread'⟩)
    · exact ⟨[], o, outcomes, rfl, fun p hp => absurd hp List.not_mem_nil, hleft, hread⟩
    · refine ⟨o :: pre, o', post, rfl, fun p hp => ?_, ?_, hread'⟩
      · obtain rfl | hp := List.mem_cons.1 hp
        · exact ⟨k, j, hread, hwrite, hle⟩
        · exact hwhole p hp
      · simp only [brought, hread, Option.elim_some]
        omega

theorem not_cutOff_zero : ¬ CutOff outcomes 0 := by
  rintro ⟨pre, o, post, -, -, hlt, -⟩
  exact Nat.not_lt_zero _ hlt

theorem Copied.right_iff (h : Copied input s) : Right input ⟨.ok, s.out⟩ ↔ input.length ≤ s.off := by
  constructor
  · intro hright
    have hlen := congrArg List.length (hright rfl)
    rw [h.out, List.length_map, List.length_map, List.length_take] at hlen
    omega
  · intro hoff _
    rw [h.out, List.take_of_length_le hoff]

theorem cutOff_of_writes (hread : o.read = some k) (hwrite : o.write = some j)
    (hj : (pread input s.off k.1).length ≤ j) :
    CutOff (o :: outcomes) (input.length - s.off) ↔ CutOff outcomes (input.length - (s.copied input k.1).off) := by
  have hlen := length_pread input s.off k.1
  have hoff : (s.copied input k.1).off = s.off + (pread input s.off k.1).length := rfl
  rw [cutOff_cons]
  constructor
  · rintro (⟨hnone, -⟩ | ⟨k', j', hread', -, -, hlt, hcut⟩)
    · cases hread.symm.trans hnone
    · obtain rfl := Option.some.inj (hread.symm.trans hread')
      have hleft : input.length - (s.copied input k.1).off = input.length - s.off - k.1 := by omega
      rwa [hleft]
  · intro hcut
    rcases Nat.lt_or_ge k.1 (input.length - s.off) with hlt | hge
    · have hleft : input.length - (s.copied input k.1).off = input.length - s.off - k.1 := by omega
      exact .inr ⟨k, j, hread, hwrite, by omega, hlt, hleft ▸ hcut⟩
    · have hleft : input.length - (s.copied input k.1).off = 0 := by omega
      exact absurd (hleft ▸ hcut) not_cutOff_zero

theorem loop_right_iff (hs : Copied input s) :
    (∀ r, loop input outcomes s = some r → Right input r) ↔ ¬ CutOff outcomes (input.length - s.off) := by
  induction outcomes generalizing s with
  | nil =>
    refine iff_of_true (fun r h => by cases h) ?_
    rintro ⟨pre, o, post, hsplit, -⟩
    simp at hsplit
  | cons o outcomes ih =>
    have hround := loop_round input s o outcomes
    generalize loop input (o :: outcomes) s = x at hround
    cases hround with
    | readFails hread =>
      simp only [Option.some.injEq, forall_eq', hs.right_iff, cutOff_cons]
      constructor
      · rintro hoff (⟨-, hlt⟩ | ⟨k, j, hsome, -⟩)
        · omega
        · cases hread.symm.trans hsome
      · intro hnot
        by_contra hoff
        exact hnot (.inl ⟨hread, by omega⟩)
    | atEnd hread hoff =>
      have hleft : input.length - s.off = 0 := by omega
      simp only [Option.some.injEq, forall_eq', hs.right_iff, hleft]
      exact iff_of_true hoff not_cutOff_zero
    | writeFails hread hoff hwrite =>
      simp only [Option.some.injEq, forall_eq', cutOff_cons]
      refine iff_of_true (fun hstatus => by cases hstatus) ?_
      rintro (⟨hnone, -⟩ | ⟨k', j', -, hsome, -⟩)
      · cases hread.symm.trans hnone
      · cases hwrite.symm.trans hsome
    | @writesShort k j hread hoff hwrite hj =>
      simp only [Option.some.injEq, forall_eq', cutOff_cons]
      refine iff_of_true (fun hstatus => by cases hstatus) ?_
      rintro (⟨hnone, -⟩ | ⟨k', j', hsome, hsome', hle, -⟩)
      · cases hread.symm.trans hnone
      · obtain rfl := Option.some.inj (hread.symm.trans hsome)
        obtain rfl := Option.some.inj (hwrite.symm.trans hsome')
        have hlen := length_pread input s.off k.1
        omega
    | @writes k j hread hoff hwrite hj =>
      rw [cutOff_of_writes hread hwrite hj]
      exact ih (hs.next k.1)

/-! ### The program -/

/-- In front of the loop. -/
def start : State := ⟨List.replicate BSZ 0, 0, []⟩

theorem start_copied (input : List UInt8) : Copied input start := ⟨Nat.zero_le _, rfl⟩

theorem main_of_open {e : Env} (hargc : e.argc = 3) (hifd : e.ifd = true) (hofd : e.ofd = true) :
    main input e = loop input e.outcomes start := by
  rw [main, if_neg (not_not.2 hargc), if_neg (by rw [hifd]; decide), if_neg (by rw [hofd]; decide)]
  rfl

theorem main_cases (input : List UInt8) (e : Env) :
    (e.argc = 3 ∧ e.ifd = true ∧ e.ofd = true ∧ main input e = loop input e.outcomes start) ∨
      ∃ r, main input e = some r ∧ r.exit.status = 1 ∧ r.out = [] := by
  by_cases hargc : e.argc = 3
  · cases hifd : e.ifd with
    | false => exact .inr ⟨_, by rw [main, if_neg (not_not.2 hargc), if_pos hifd], rfl, rfl⟩
    | true =>
      cases hofd : e.ofd with
      | false =>
        exact .inr ⟨_, by rw [main, if_neg (not_not.2 hargc), if_neg (by rw [hifd]; decide), if_pos hofd], rfl, rfl⟩
      | true => exact .inl ⟨hargc, rfl, rfl, main_of_open hargc hifd hofd⟩
  · exact .inr ⟨_, if_pos hargc, rfl, rfl⟩

/-- Every round that goes on has brought something, so there are not many. -/
theorem loop_isSome (h : input.length - s.off < outcomes.length) : (loop input outcomes s).isSome := by
  induction outcomes generalizing s with
  | nil => exact absurd h (Nat.not_lt_zero _)
  | cons o outcomes ih =>
    have hround := loop_round input s o outcomes
    generalize loop input (o :: outcomes) s = x at hround
    cases hround with
    | readFails _ | atEnd _ _ | writeFails _ _ _ | writesShort _ _ _ _ => rfl
    | @writes k j hread hoff hwrite hj =>
      have hpos : 0 < (pread input s.off k.1).length := length_pread_pos hoff
      have hnext : (s.copied input k.1).off = s.off + (pread input s.off k.1).length := rfl
      rw [List.length_cons] at h
      exact ih (by omega)

theorem main_isSome {e : Env} (h : input.length < e.outcomes.length) : (main input e).isSome := by
  obtain ⟨-, -, -, hmain⟩ | ⟨r, hmain, -⟩ := main_cases input e
  · rw [hmain]
    exact loop_isSome h
  · rw [hmain]
    rfl

theorem prefix_of_main {e : Env} (h : main input e = some r) : r.out <+: input.map translate := by
  obtain ⟨-, -, -, hmain⟩ | ⟨r', hmain, -, hout⟩ := main_cases input e
  · exact prefix_of_loop (start_copied input) (hmain.symm.trans h)
  · obtain rfl := Option.some.inj (h.symm.trans hmain)
    rw [hout]
    exact List.nil_prefix

theorem right_of_main {e : Env} (hcut : ¬ e.CutOff input) (h : main input e = some r) : Right input r := by
  obtain ⟨hargc, hifd, hofd, hmain⟩ | ⟨r', hmain, hstatus, -⟩ := main_cases input e
  · have hloop : ¬ CutOff e.outcomes input.length := fun hloop => hcut ⟨hargc, hifd, hofd, hloop⟩
    exact (loop_right_iff (start_copied input)).2 hloop r (hmain.symm.trans h)
  · obtain rfl := Option.some.inj (h.symm.trans hmain)
    intro hzero
    exact absurd (hstatus.symm.trans hzero) Nat.one_ne_zero

theorem main_eq_syncMain {e : Env} (hreads : ∀ o ∈ e.outcomes, o.read ≠ none) (h : main input e = some r)
    (hstatus : r.exit.status = 0) : r.out = syncMain translate input := by
  have hcut : ¬ e.CutOff input := by
    rintro ⟨-, -, -, pre, o, post, hsplit, -, -, hread⟩
    refine hreads o ?_ hread
    rw [hsplit]
    exact List.mem_append_right _ (List.mem_cons_self ..)
  rw [right_of_main hcut h hstatus, syncMain, syncLoop_eq, List.nil_append]

/-- When status 0 is right. -/
theorem rot13_sync_iff (input : List UInt8) (e : Env) :
    (∀ r, main input e = some r → Right input r) ↔ ¬ e.CutOff input := by
  constructor
  · rintro hright ⟨hargc, hifd, hofd, hcut⟩
    rw [main_of_open hargc hifd hofd] at hright
    exact (loop_right_iff (start_copied input)).1 hright hcut
  · intro hcut r h
    exact right_of_main hcut h

/-- One of two bytes is read and written, and then a `read` fails. -/
theorem rot13_sync_loses_rest :
    ∃ r, main [104, 105] ⟨3, true, true, [⟨some ⟨1, by decide⟩, some 1⟩, ⟨none, none⟩]⟩ = some r ∧
      r.exit.status = 0 ∧ r.out = [117] ∧ ¬ Right [104, 105] r := by
  refine ⟨_, rfl, rfl, rfl, fun h => ?_⟩
  cases h rfl

end Apue.Rot13Sync

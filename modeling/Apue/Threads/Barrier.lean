import Apue.Lib.Transition
import Mathlib.Data.Finset.Card
import Mathlib.Data.Finset.Range
import Mathlib.Data.List.Perm.Basic

/-!
# Sorting with a barrier (threads/barrier.c)

`NTHR` threads sort `TNUM` numbers each, all in one array, and `main` merges them when all have come to the barrier.
While it sorts, a thread may write anything into its part of the array, in any interleaving with the others; when
`heapsort` returns, the part is in order and holds what it held before.

Nothing tells `merge` that a part has been sorted but the barrier, which counts: `barrier_run`.
-/

namespace Apue.Barrier
open Transition

def LONG_MAX : ℤ := 2 ^ 63 - 1

def complong (l1 l2 : ℤ) : ℤ := if l1 = l2 then 0 else if l1 < l2 then -1 else 1

variable (NTHR TNUM : ℕ)

/-- The part of the array that belongs to a thread. -/
def part (nums : ℕ → ℤ) (t : ℕ) : List ℤ := (List.range' (t * TNUM) TNUM).map nums

/-! ### `merge` -/

/-- The inner loop over the first `n` threads; `minidx` keeps its value of the round before. -/
def scan (nums : ℕ → ℤ) (idx : ℕ → ℕ) (minidx : Option ℕ) : ℕ → ℤ × Option ℕ
  | 0 => (LONG_MAX, minidx)
  | i + 1 =>
    let (num, minidx) := scan nums idx minidx i
    if idx i < (i + 1) * TNUM ∧ nums (idx i) < num then (nums (idx i), some i) else (num, minidx)

/-- The last rounds of the outer loop. It is stuck when `minidx` has no value or the array has no such number. -/
def rounds (nums : ℕ → ℤ) : ℕ → (ℕ → ℕ) → Option ℕ → List ℤ → Option (List ℤ)
  | 0, _, _, snums => some snums
  | k + 1, idx, minidx, snums =>
    match (scan TNUM nums idx minidx NTHR).2 with
    | none => none
    | some i =>
      if idx i < NTHR * TNUM then
        rounds nums k (Function.update idx i (idx i + 1)) (some i) (snums ++ [nums (idx i)])
      else none

def merge (nums : ℕ → ℤ) : Option (List ℤ) := rounds NTHR TNUM nums (NTHR * TNUM) (fun i => i * TNUM) none []

/-! ### The threads -/

inductive Pc where
  | idle
  | heapsort
  | waiting
  | returned
  deriving DecidableEq

/-- `main` creates the threads up to `i`; when it cannot, `err_exit` ends the process. -/
inductive Main where
  | create (i : ℕ)
  | failed (i : ℕ)
  | waiting
  | merge
  | done
  deriving DecidableEq

/-- `old` is what `heapsort` has found, and `arrived` the count of the barrier. -/
structure State where
  nums : ℕ → ℤ
  snums : List ℤ
  pc : ℕ → Pc
  old : ℕ → List ℤ
  arrived : ℕ
  main : Main

inductive Act where
  /-- `pthread_create`. -/
  | create
  | fail
  /-- `heapsort` writes. -/
  | write (t j : ℕ) (x : ℤ)
  /-- `heapsort` returns, and the thread comes to the barrier. -/
  | sorted (t : ℕ)
  | leave (t : ℕ)
  /-- `main` comes to the barrier. -/
  | arrive
  | leaveMain
  | merge
  deriving DecidableEq

def State.create (s : State) : Option State :=
  match s.main with
  | .create i =>
    if i < NTHR then
      some { s with main := .create (i + 1), pc := Function.update s.pc i .heapsort
                    old := Function.update s.old i (part TNUM s.nums i) }
    else none
  | _ => none

def State.fail (s : State) : Option State :=
  match s.main with
  | .create i => if i < NTHR then some { s with main := .failed i } else none
  | _ => none

def State.write (s : State) (t j : ℕ) (x : ℤ) : Option State :=
  if s.pc t = .heapsort ∧ j < TNUM then some { s with nums := Function.update s.nums (t * TNUM + j) x } else none

def State.sorted (s : State) (t : ℕ) : Option State :=
  if s.pc t = .heapsort ∧ (part TNUM s.nums t).Pairwise (fun a b => complong a b ≤ 0) ∧
      (part TNUM s.nums t).Perm (s.old t) then
    some { s with pc := Function.update s.pc t .waiting, arrived := s.arrived + 1 }
  else none

def State.leave (s : State) (t : ℕ) : Option State :=
  if s.pc t = .waiting ∧ s.arrived = NTHR + 1 then some { s with pc := Function.update s.pc t .returned } else none

def State.arrive (s : State) : Option State :=
  if s.main = .create NTHR then some { s with main := .waiting, arrived := s.arrived + 1 } else none

def State.leaveMain (s : State) : Option State :=
  if s.main = .waiting ∧ s.arrived = NTHR + 1 then some { s with main := .merge } else none

def State.merge (s : State) : Option State :=
  if s.main = .merge then
    match Barrier.merge NTHR TNUM s.nums with
    | none => none
    | some snums => some { s with main := .done, snums := snums }
  else none

/-- The process is gone. -/
def Main.Ended : Main → Prop
  | .failed _ | .done => True
  | _ => False

instance (main : Main) : Decidable main.Ended :=
  match main with
  | .failed _ | .done => isTrue trivial
  | .create _ | .waiting | .merge => isFalse id

def step (s : State) (a : Act) : Option State :=
  if s.main.Ended then none
  else
    match a with
    | .create => s.create NTHR TNUM
    | .fail => s.fail NTHR
    | .write t j x => s.write TNUM t j x
    | .sorted t => s.sorted TNUM t
    | .leave t => s.leave NTHR t
    | .arrive => s.arrive NTHR
    | .leaveMain => s.leaveMain NTHR
    | .merge => s.merge NTHR TNUM

/-- The array has been filled. -/
def start (nums : ℕ → ℤ) : State := ⟨nums, [], fun _ => .idle, fun _ => [], 0, .create 0⟩

/-- The thread has come to the barrier. -/
def Pc.Past : Pc → Prop
  | .waiting | .returned => True
  | _ => False

instance (pc : Pc) : Decidable pc.Past :=
  match pc with
  | .waiting | .returned => isTrue trivial
  | .idle | .heapsort => isFalse id

structure Right (nums : ℕ → ℤ) (s : State) : Prop where
  /-- Nobody writes any more when `main` reads. -/
  past : s.main = .merge → ∀ t < NTHR, (s.pc t).Past
  ordered : s.main = .merge → ∀ t < NTHR, (part TNUM s.nums t).Pairwise (· ≤ ·)
  merges : s.main = .merge → (merge NTHR TNUM s.nums).isSome
  /-- When no thread sorts any more, the barrier lets all of them go. -/
  opens : s.main = .waiting → (∀ t < NTHR, s.pc t ≠ .heapsort) → s.arrived = NTHR + 1
  done : s.main = .done → s.snums.Pairwise (· ≤ ·) ∧ s.snums.Perm ((List.range (NTHR * TNUM)).map nums)

/-! ### Merging -/

section merge
variable {NTHR TNUM} {nums : ℕ → ℤ} {idx : ℕ → ℕ}

theorem complong_le {a b : ℤ} : complong a b ≤ 0 ↔ a ≤ b := by
  unfold complong
  split
  · omega
  · split <;> omega

variable (TNUM nums idx) in
/-- What has not been taken of a part. -/
def rest (i : ℕ) : List ℤ := (List.range' (idx i) ((i + 1) * TNUM - idx i)).map nums

theorem rest_of_lt {i : ℕ} (h : idx i < (i + 1) * TNUM) :
    rest TNUM nums idx i = nums (idx i) :: rest TNUM nums (Function.update idx i (idx i + 1)) i := by
  have hlen : (i + 1) * TNUM - idx i = ((i + 1) * TNUM - (idx i + 1)) + 1 := by omega
  rw [rest, rest, Function.update_self, hlen, List.range'_succ, List.map_cons]

theorem rest_of_le {i : ℕ} (h : ¬idx i < (i + 1) * TNUM) : rest TNUM nums idx i = [] := by
  rw [rest, Nat.sub_eq_zero_of_le (Nat.not_lt.mp h)]
  rfl

theorem rest_of_ne {i j v : ℕ} (h : j ≠ i) :
    rest TNUM nums (Function.update idx i v) j = rest TNUM nums idx j := by
  rw [rest, rest, Function.update_of_ne h]

theorem scan_spec (minidx : Option ℕ) (n : ℕ)
    (hmax : ∀ i < n, idx i < (i + 1) * TNUM → nums (idx i) < LONG_MAX) :
    (scan TNUM nums idx minidx n = (LONG_MAX, minidx) ∧ ∀ i < n, ¬idx i < (i + 1) * TNUM) ∨
    ∃ m < n, idx m < (m + 1) * TNUM ∧ scan TNUM nums idx minidx n = (nums (idx m), some m) ∧
      ∀ i < n, idx i < (i + 1) * TNUM → nums (idx m) ≤ nums (idx i) := by
  induction n with
  | zero => exact .inl ⟨rfl, fun i h => absurd h (Nat.not_lt_zero i)⟩
  | succ n ih =>
    obtain ⟨hscan, hnone⟩ | ⟨m, hm, hleft, hscan, hmin⟩ := ih fun i hi => hmax i (by omega)
    · by_cases hn : idx n < (n + 1) * TNUM
      · refine .inr ⟨n, Nat.lt_succ_self n, hn, ?_, fun i hi hleft => ?_⟩
        · rw [scan, hscan]
          exact if_pos ⟨hn, hmax n (Nat.lt_succ_self n) hn⟩
        · obtain hi | rfl := Nat.lt_succ_iff_lt_or_eq.mp hi
          · exact absurd hleft (hnone i hi)
          · exact le_refl _
      · refine .inl ⟨?_, fun i hi => ?_⟩
        · rw [scan, hscan]
          exact if_neg fun h => hn h.1
        · obtain hi | rfl := Nat.lt_succ_iff_lt_or_eq.mp hi
          · exact hnone i hi
          · exact hn
    · by_cases hn : idx n < (n + 1) * TNUM ∧ nums (idx n) < nums (idx m)
      · refine .inr ⟨n, Nat.lt_succ_self n, hn.1, ?_, fun i hi hleft => ?_⟩
        · rw [scan, hscan]
          exact if_pos hn
        · obtain hi | rfl := Nat.lt_succ_iff_lt_or_eq.mp hi
          · exact hn.2.le.trans (hmin i hi hleft)
          · exact le_refl _
      · refine .inr ⟨m, by omega, hleft, ?_, fun i hi hi' => ?_⟩
        · rw [scan, hscan]
          exact if_neg hn
        · obtain hi | rfl := Nat.lt_succ_iff_lt_or_eq.mp hi
          · exact hmin i hi hi'
          · exact not_lt.mp fun hlt => hn ⟨hi', hlt⟩

theorem perm_flatMap {l : List ℕ} {f g : ℕ → List ℤ} {i : ℕ} {x : ℤ} (hl : l.Nodup) (hi : i ∈ l)
    (hfi : f i = x :: g i) (hf : ∀ j, j ≠ i → f j = g j) : (l.flatMap f).Perm (x :: l.flatMap g) := by
  induction l with
  | nil => exact absurd hi List.not_mem_nil
  | cons j l ih =>
    obtain ⟨hj, hl⟩ := List.nodup_cons.mp hl
    rw [List.flatMap_cons, List.flatMap_cons]
    obtain rfl | hi := List.mem_cons.mp hi
    · have hrest : l.flatMap f = l.flatMap g := by
        refine List.flatMap_congr fun k hk => hf k ?_
        rintro rfl
        exact hj hk
      rw [hfi, hrest]
      exact List.Perm.refl _
    · have hne : j ≠ i := by
        rintro rfl
        exact hj hi
      rw [hf j hne]
      exact ((ih hl hi).append_left (g j)).trans List.perm_middle

theorem rounds_spec (k : ℕ) (minidx : Option ℕ) (snums : List ℤ)
    (hsorted : ∀ i < NTHR, (rest TNUM nums idx i).Pairwise (· ≤ ·))
    (hmax : ∀ i < NTHR, ∀ x ∈ rest TNUM nums idx i, x < LONG_MAX)
    (hlen : ((List.range NTHR).flatMap (rest TNUM nums idx)).length = k) :
    ∃ out, rounds NTHR TNUM nums k idx minidx snums = some (snums ++ out) ∧ out.Pairwise (· ≤ ·) ∧
      out.Perm ((List.range NTHR).flatMap (rest TNUM nums idx)) := by
  induction k generalizing idx minidx snums with
  | zero =>
    rw [List.length_eq_zero_iff.mp hlen]
    exact ⟨[], by rw [List.append_nil]; rfl, .nil, .nil⟩
  | succ k ih =>
    have hhead : ∀ i < NTHR, idx i < (i + 1) * TNUM → nums (idx i) < LONG_MAX := fun i hi hleft =>
      hmax i hi _ (by rw [rest_of_lt hleft]; exact List.mem_cons_self)
    obtain ⟨-, hnone⟩ | ⟨m, hm, hleft, hscan, hmin⟩ := scan_spec minidx NTHR hhead
    · have hnil : (List.range NTHR).flatMap (rest TNUM nums idx) = [] :=
        List.flatMap_eq_nil_iff.mpr fun i hi => rest_of_le (hnone i (List.mem_range.mp hi))
      rw [hnil] at hlen
      cases hlen
    · have hperm := perm_flatMap (g := rest TNUM nums (Function.update idx m (idx m + 1))) List.nodup_range
        (List.mem_range.mpr hm) (rest_of_lt hleft) fun j hj => (rest_of_ne hj).symm
      -- what is left afterwards was left before
      have hsuffix : ∀ i, rest TNUM nums (Function.update idx m (idx m + 1)) i <:+ rest TNUM nums idx i := by
        intro i
        by_cases hi : i = m
        · subst hi
          rw [rest_of_lt hleft]
          exact List.suffix_cons ..
        · rw [rest_of_ne hi]
      obtain ⟨out, hout, hpairwise, hout'⟩ := ih (some m) (snums ++ [nums (idx m)])
        (fun i hi => (hsorted i hi).sublist (hsuffix i).sublist) (fun i hi x hx => hmax i hi x ((hsuffix i).subset hx))
        (by have hcount := hperm.length_eq; rw [hlen, List.length_cons] at hcount; omega)
      refine ⟨nums (idx m) :: out, ?_, List.pairwise_cons.mpr ⟨fun y hy => ?_, hpairwise⟩,
        (hout'.cons _).trans hperm.symm⟩
      · have hbound : idx m < NTHR * TNUM := hleft.trans_le (Nat.mul_le_mul_right TNUM hm)
        rw [rounds, hscan]
        dsimp only
        rw [if_pos hbound, hout, List.append_assoc]
        rfl
      · obtain ⟨i, hi, hy⟩ := List.mem_flatMap.mp (hout'.subset hy)
        have hi := List.mem_range.mp hi
        have hy := (hsuffix i).subset hy
        by_cases hleft' : idx i < (i + 1) * TNUM
        · have hsort := hsorted i hi
          rw [rest_of_lt hleft'] at hsort hy
          obtain rfl | hy := List.mem_cons.mp hy
          · exact hmin i hi hleft'
          · exact (hmin i hi hleft').trans (List.rel_of_pairwise_cons hsort hy)
        · rw [rest_of_le hleft'] at hy
          exact absurd hy List.not_mem_nil

theorem flatMap_part (nums : ℕ → ℤ) (n : ℕ) :
    (List.range n).flatMap (part TNUM nums) = (List.range (n * TNUM)).map nums := by
  induction n with
  | zero => rw [Nat.zero_mul]; rfl
  | succ n ih =>
    have hrange : List.range ((n + 1) * TNUM) = List.range (n * TNUM) ++ List.range' (n * TNUM) TNUM := by
      rw [Nat.succ_mul, List.range_eq_range', List.range_eq_range', ← List.range'_append_1, Nat.zero_add]
    rw [List.range_succ, List.flatMap_append, ih, List.flatMap_singleton, part, ← List.map_append, hrange]

theorem merge_spec {nums₀ : ℕ → ℤ} (hsorted : ∀ t < NTHR, (part TNUM nums t).Pairwise (· ≤ ·))
    (hperm : ∀ t < NTHR, (part TNUM nums t).Perm (part TNUM nums₀ t)) (hmax : ∀ i < NTHR * TNUM, nums₀ i < LONG_MAX) :
    ∃ snums, merge NTHR TNUM nums = some snums ∧ snums.Pairwise (· ≤ ·) ∧
      snums.Perm ((List.range (NTHR * TNUM)).map nums₀) := by
  have hrest : rest TNUM nums (fun i => i * TNUM) = part TNUM nums := by
    funext i
    rw [rest, part, Nat.succ_mul, Nat.add_sub_cancel_left]
  have hall : ((List.range NTHR).flatMap (part TNUM nums)).Perm ((List.range (NTHR * TNUM)).map nums₀) := by
    rw [← flatMap_part]
    exact List.Perm.flatMap_left _ fun t ht => hperm t (List.mem_range.mp ht)
  have hsmall : ∀ t < NTHR, ∀ x ∈ part TNUM nums t, x < LONG_MAX := by
    intro t ht x hx
    have hmem := hall.subset (List.mem_flatMap.mpr ⟨t, List.mem_range.mpr ht, hx⟩)
    obtain ⟨i, hi, rfl⟩ := List.mem_map.mp hmem
    exact hmax i (List.mem_range.mp hi)
  have hlen : ((List.range NTHR).flatMap (part TNUM nums)).length = NTHR * TNUM := by
    rw [hall.length_eq, List.length_map, List.length_range]
  rw [← hrest] at hsorted hsmall hlen hall
  obtain ⟨out, hout, hpairwise, hout'⟩ := rounds_spec (NTHR * TNUM) none [] hsorted hsmall hlen
  exact ⟨out, hout, hpairwise, hout'.trans hall⟩

end merge

/-! ### The barrier -/

section barrier
variable {nums : ℕ → ℤ} {s s' : State}

/-- How many threads have been created. -/
def Main.created (NTHR : ℕ) : Main → ℕ
  | .create i | .failed i => i
  | _ => NTHR

/-- `main` has come to the barrier. -/
def Main.past : Main → ℕ
  | .create _ | .failed _ => 0
  | _ => 1

structure Inv (nums : ℕ → ℤ) (s : State) : Prop where
  created : s.main.created NTHR ≤ NTHR
  idle : ∀ t, s.main.created NTHR ≤ t ↔ s.pc t = .idle
  before : ∀ t, s.pc t = .idle → part TNUM s.nums t = part TNUM nums t
  sorting : ∀ t, s.pc t = .heapsort → s.old t = part TNUM nums t
  sorted : ∀ t, (s.pc t).Past → (part TNUM s.nums t).Pairwise (· ≤ ·) ∧ (part TNUM s.nums t).Perm (part TNUM nums t)
  arrived : s.arrived = ((Finset.range NTHR).filter fun t => (s.pc t).Past).card + s.main.past
  full : s.main = .merge → s.arrived = NTHR + 1
  done : s.main = .done → s.snums.Pairwise (· ≤ ·) ∧ s.snums.Perm ((List.range (NTHR * TNUM)).map nums)

theorem start_inv (nums : ℕ → ℤ) : Inv NTHR TNUM nums (start nums) where
  created := Nat.zero_le _
  idle := fun t => iff_of_true (Nat.zero_le t) rfl
  before := fun _ _ => rfl
  sorting := fun _ h => by cases h
  sorted := fun _ h => h.elim
  arrived := by
    have hnone : ((Finset.range NTHR).filter fun t => ((start nums).pc t).Past) = ∅ :=
      Finset.filter_false_of_mem fun _ _ => id
    rw [hnone]
    rfl
  full := fun h => by cases h
  done := fun h => by cases h

variable {NTHR TNUM}

theorem part_update {t t' j : ℕ} {x : ℤ} (hj : j < TNUM) (hne : t' ≠ t) :
    part TNUM (Function.update nums (t * TNUM + j) x) t' = part TNUM nums t' := by
  refine List.map_congr_left fun i hi => Function.update_of_ne ?_ ..
  obtain ⟨hle, hlt⟩ := List.mem_range'_1.mp hi
  rintro rfl
  obtain hlt' | hlt' := Nat.lt_or_gt_of_ne hne
  · have hmul := Nat.mul_le_mul_right TNUM hlt'
    rw [Nat.succ_mul] at hmul
    omega
  · have hmul := Nat.mul_le_mul_right TNUM hlt'
    rw [Nat.succ_mul] at hmul
    omega

theorem card_past {pc : ℕ → Pc} {t : ℕ} (ht : t < NTHR) (hpc : ¬(pc t).Past) :
    ((Finset.range NTHR).filter fun t' => (Function.update pc t .waiting t').Past).card =
      ((Finset.range NTHR).filter fun t' => (pc t').Past).card + 1 := by
  have hnotMem : t ∉ (Finset.range NTHR).filter fun t' => (pc t').Past := fun h => hpc (Finset.mem_filter.mp h).2
  rw [← Finset.card_insert_of_notMem hnotMem]
  congr 1
  ext t'
  rw [Finset.mem_insert, Finset.mem_filter, Finset.mem_filter]
  by_cases hne : t' = t
  · subst hne
    rw [Function.update_self]
    exact iff_of_true ⟨Finset.mem_range.mpr ht, trivial⟩ (.inl rfl)
  · rw [Function.update_of_ne hne, or_iff_right hne]

theorem of_update {pc : ℕ → Pc} {t t' : ℕ} {q r : Pc} (h : Function.update pc t q t' = r) (hq : q ≠ r) : pc t' = r := by
  by_cases hne : t' = t
  · rw [hne, Function.update_self] at h
    exact absurd h hq
  · rwa [Function.update_of_ne hne] at h

theorem update_iff {pc : ℕ → Pc} {t t' : ℕ} {q r : Pc} (hq : q ≠ r) (hpc : pc t ≠ r) :
    Function.update pc t q t' = r ↔ pc t' = r := by
  refine ⟨fun h => of_update h hq, fun h => ?_⟩
  rw [Function.update_of_ne, h]
  rintro rfl
  exact hpc h

theorem card_past_eq {pc : ℕ → Pc} {t : ℕ} {q : Pc} (h : q.Past ↔ (pc t).Past) :
    ((Finset.range NTHR).filter fun t' => (Function.update pc t q t').Past) =
      (Finset.range NTHR).filter fun t' => (pc t').Past := by
  refine Finset.filter_congr fun t' _ => ?_
  by_cases hne : t' = t
  · subst hne
    rw [Function.update_self, h]
  · rw [Function.update_of_ne hne]

theorem Inv.all_past (h : Inv NTHR TNUM nums s) (hfull : s.arrived = NTHR + 1) : ∀ t < NTHR, (s.pc t).Past := by
  have hcard := h.arrived
  have hle : s.main.past ≤ 1 := by
    unfold Main.past
    split <;> omega
  have hsub := Finset.card_filter_le (Finset.range NTHR) fun t => (s.pc t).Past
  rw [Finset.card_range] at hsub
  have hall : ((Finset.range NTHR).filter fun t => (s.pc t).Past) = Finset.range NTHR :=
    Finset.eq_of_subset_of_card_le (Finset.filter_subset ..) (by rw [Finset.card_range]; omega)
  exact fun t ht => Finset.filter_eq_self.mp hall t (Finset.mem_range.mpr ht)

theorem Inv.create (h : Inv NTHR TNUM nums s) (hs : s.create NTHR TNUM = some s') : Inv NTHR TNUM nums s' := by
  unfold State.create at hs
  split at hs
  case h_2 => cases hs
  case h_1 i hmain =>
    obtain ⟨hi, hs⟩ := Option.ite_none_right_eq_some.mp hs
    obtain rfl := Option.some.inj hs
    have hcreated : s.main.created NTHR = i := by rw [hmain]; rfl
    have hidle : s.pc i = .idle := (h.idle i).mp hcreated.le
    refine ⟨hi, fun t => ?_, fun t ht => h.before t (of_update ht (by decide)), fun t ht => ?_, fun t ht => ?_, ?_,
      nofun, nofun⟩
    · show i + 1 ≤ t ↔ Function.update s.pc i .heapsort t = .idle
      by_cases hne : t = i
      · subst hne
        rw [Function.update_self]
        exact iff_of_false (Nat.not_succ_le_self t) nofun
      · rw [Function.update_of_ne hne, ← h.idle t, hcreated]
        omega
    · dsimp only at ht ⊢
      by_cases hne : t = i
      · rw [hne, Function.update_self]
        exact h.before i hidle
      · rw [Function.update_of_ne hne] at ht ⊢
        exact h.sorting t ht
    · dsimp only at ht
      by_cases hne : t = i
      · rw [hne, Function.update_self] at ht
        exact ht.elim
      · rw [Function.update_of_ne hne] at ht
        exact h.sorted t ht
    · have harrived := h.arrived
      rw [hmain] at harrived
      dsimp only
      rw [card_past_eq (by rw [hidle]; exact Iff.rfl)]
      exact harrived

theorem Inv.write (h : Inv NTHR TNUM nums s) {t j : ℕ} {x : ℤ} (hs : s.write TNUM t j x = some s') :
    Inv NTHR TNUM nums s' := by
  obtain ⟨⟨hpc, hj⟩, hs⟩ := Option.ite_none_right_eq_some.mp hs
  obtain rfl := Option.some.inj hs
  have hother {t' : ℕ} (hne : s.pc t' ≠ .heapsort) :
      part TNUM (Function.update s.nums (t * TNUM + j) x) t' = part TNUM s.nums t' :=
    part_update hj fun heq => hne (heq ▸ hpc)
  refine ⟨h.created, h.idle, fun t' ht => ?_, h.sorting, fun t' ht => ?_, h.arrived, h.full, h.done⟩
  · dsimp only at ht ⊢
    rw [hother (by rw [ht]; decide)]
    exact h.before t' ht
  · dsimp only at ht ⊢
    rw [hother fun heq => by rw [heq] at ht; exact ht]
    exact h.sorted t' ht

theorem Inv.thread (h : Inv NTHR TNUM nums s) {t : ℕ} (hpc : s.pc t ≠ .idle) : t < NTHR := by
  by_contra hle
  exact hpc ((h.idle t).mp (h.created.trans (Nat.not_lt.mp hle)))

theorem Inv.sortedStep (h : Inv NTHR TNUM nums s) {t : ℕ} (hs : s.sorted TNUM t = some s') : Inv NTHR TNUM nums s' := by
  obtain ⟨⟨hpc, hpairwise, hperm⟩, hs⟩ := Option.ite_none_right_eq_some.mp hs
  obtain rfl := Option.some.inj hs
  have ht : t < NTHR := h.thread (by rw [hpc]; decide)
  have hpast : ¬(s.pc t).Past := by rw [hpc]; exact id
  have hfull : s.arrived ≠ NTHR + 1 := fun hfull => hpast (h.all_past hfull t ht)
  refine ⟨h.created, fun t' => (h.idle t').trans (update_iff (by decide) (by rw [hpc]; decide)).symm,
    fun t' ht' => h.before t' (of_update ht' (by decide)), fun t' ht' => h.sorting t' (of_update ht' (by decide)),
    fun t' ht' => ?_, ?_, fun hm => absurd (h.full hm) hfull, h.done⟩
  · dsimp only at ht' ⊢
    by_cases hne : t' = t
    · rw [hne]
      exact ⟨hpairwise.imp complong_le.mp, by rw [← h.sorting t hpc]; exact hperm⟩
    · rw [Function.update_of_ne hne] at ht'
      exact h.sorted t' ht'
  · dsimp only
    rw [card_past ht hpast, h.arrived]
    omega

theorem Inv.leave (h : Inv NTHR TNUM nums s) {t : ℕ} (hs : s.leave NTHR t = some s') : Inv NTHR TNUM nums s' := by
  obtain ⟨⟨hpc, -⟩, hs⟩ := Option.ite_none_right_eq_some.mp hs
  obtain rfl := Option.some.inj hs
  refine ⟨h.created, fun t' => (h.idle t').trans (update_iff (by decide) (by rw [hpc]; decide)).symm,
    fun t' ht' => h.before t' (of_update ht' (by decide)), fun t' ht' => h.sorting t' (of_update ht' (by decide)),
    fun t' ht' => ?_, ?_, h.full, h.done⟩
  · dsimp only at ht' ⊢
    by_cases hne : t' = t
    · rw [hne]
      exact h.sorted t (by rw [hpc]; trivial)
    · rw [Function.update_of_ne hne] at ht'
      exact h.sorted t' ht'
  · dsimp only
    rw [card_past_eq (by rw [hpc]; exact Iff.rfl)]
    exact h.arrived

theorem Inv.goto (h : Inv NTHR TNUM nums s) (main : Main) (hcreated : main.created NTHR = s.main.created NTHR)
    {arrived : ℕ} {snums : List ℤ} (harrived : arrived + s.main.past = s.arrived + main.past)
    (hfull : main = .merge → arrived = NTHR + 1)
    (hdone : main = .done → snums.Pairwise (· ≤ ·) ∧ snums.Perm ((List.range (NTHR * TNUM)).map nums)) :
    Inv NTHR TNUM nums { s with main := main, arrived := arrived, snums := snums } where
  created := hcreated.le.trans h.created
  idle := fun t => by rw [← h.idle t]; dsimp only; rw [hcreated]
  before := h.before
  sorting := h.sorting
  sorted := h.sorted
  arrived := by
    have hcard := h.arrived
    dsimp only
    omega
  full := hfull
  done := hdone

theorem Inv.fail (h : Inv NTHR TNUM nums s) (hs : s.fail NTHR = some s') : Inv NTHR TNUM nums s' := by
  unfold State.fail at hs
  split at hs
  case h_2 => cases hs
  case h_1 i hmain =>
    obtain ⟨-, hs⟩ := Option.ite_none_right_eq_some.mp hs
    obtain rfl := Option.some.inj hs
    exact h.goto (.failed i) (by rw [hmain]; rfl) (by rw [hmain]; rfl) nofun nofun

theorem Inv.arrive (h : Inv NTHR TNUM nums s) (hs : s.arrive NTHR = some s') : Inv NTHR TNUM nums s' := by
  obtain ⟨hmain, hs⟩ := Option.ite_none_right_eq_some.mp hs
  obtain rfl := Option.some.inj hs
  exact h.goto .waiting (by rw [hmain]; rfl) (by rw [hmain]; rfl) nofun nofun

theorem Inv.leaveMain (h : Inv NTHR TNUM nums s) (hs : s.leaveMain NTHR = some s') : Inv NTHR TNUM nums s' := by
  obtain ⟨⟨hmain, hfull⟩, hs⟩ := Option.ite_none_right_eq_some.mp hs
  obtain rfl := Option.some.inj hs
  exact h.goto .merge (by rw [hmain]; rfl) (by rw [hmain]; rfl) (fun _ => hfull) nofun

theorem Inv.merges (h : Inv NTHR TNUM nums s) (hmax : ∀ i < NTHR * TNUM, nums i < LONG_MAX) (hmain : s.main = .merge) :
    ∃ snums, merge NTHR TNUM s.nums = some snums ∧ snums.Pairwise (· ≤ ·) ∧
      snums.Perm ((List.range (NTHR * TNUM)).map nums) := by
  have hpast := h.all_past (h.full hmain)
  exact merge_spec (fun t ht => (h.sorted t (hpast t ht)).1) (fun t ht => (h.sorted t (hpast t ht)).2) hmax

theorem Inv.mergeStep (h : Inv NTHR TNUM nums s) (hmax : ∀ i < NTHR * TNUM, nums i < LONG_MAX)
    (hs : s.merge NTHR TNUM = some s') : Inv NTHR TNUM nums s' := by
  obtain ⟨hmain, hs⟩ := Option.ite_none_right_eq_some.mp hs
  obtain ⟨snums, hmerge, hright⟩ := h.merges hmax hmain
  rw [hmerge] at hs
  obtain rfl := Option.some.inj hs
  exact h.goto .done (by rw [hmain]; rfl) (by rw [hmain]; rfl) nofun fun _ => hright

theorem Inv.step {a : Act} (h : Inv NTHR TNUM nums s) (hmax : ∀ i < NTHR * TNUM, nums i < LONG_MAX)
    (hs : step NTHR TNUM s a = some s') : Inv NTHR TNUM nums s' := by
  obtain ⟨-, hs⟩ := Option.ite_none_left_eq_some.mp hs
  cases a with
  | create => exact h.create hs
  | fail => exact h.fail hs
  | write t j x => exact h.write hs
  | sorted t => exact h.sortedStep hs
  | leave t => exact h.leave hs
  | arrive => exact h.arrive hs
  | leaveMain => exact h.leaveMain hs
  | merge => exact h.mergeStep hmax hs

theorem Inv.right (h : Inv NTHR TNUM nums s) (hmax : ∀ i < NTHR * TNUM, nums i < LONG_MAX) :
    Right NTHR TNUM nums s where
  past := fun hmain => h.all_past (h.full hmain)
  ordered := fun hmain t ht => (h.sorted t (h.all_past (h.full hmain) t ht)).1
  merges := fun hmain => by
    obtain ⟨snums, hmerge, -⟩ := h.merges hmax hmain
    rw [hmerge]
    rfl
  opens := fun hmain hpc => by
    have hall : ∀ t ∈ Finset.range NTHR, (s.pc t).Past := by
      intro t ht
      have hlt := Finset.mem_range.mp ht
      have hidle : s.pc t ≠ .idle := by
        intro hidle
        have hle := (h.idle t).mpr hidle
        rw [hmain] at hle
        exact absurd hlt (Nat.not_lt.mpr hle)
      have hsort := hpc t hlt
      cases hs : s.pc t with
      | idle => exact absurd hs hidle
      | heapsort => exact absurd hs hsort
      | waiting => trivial
      | returned => trivial
    rw [h.arrived, Finset.filter_true_of_mem hall, Finset.card_range, hmain]
    rfl
  done := h.done

end barrier

/-! ### Every run -/

/-- Any interleaving of the threads, and any numbers but the largest one, as `random` returns them. -/
theorem barrier_run (NTHR TNUM : ℕ) (nums : ℕ → ℤ) (hmax : ∀ i < NTHR * TNUM, nums i < LONG_MAX) {s : State}
    (h : Reaches (step NTHR TNUM) (start nums) s) : Right NTHR TNUM nums s :=
  (h.invariant (fun _ _ _ hinv hstep => Inv.step hinv hmax hstep) (start_inv NTHR TNUM nums)).right hmax

/-- Two threads with two numbers each, the second one faster. -/
theorem barrier_run_two : ∃ s, Reaches (step 2 2) (start fun i => [4, 2, 3, 1].getD i 0) s ∧
    s.main = .done ∧ s.snums = [1, 2, 3, 4] ∧ Right 2 2 (fun i => [4, 2, 3, 1].getD i 0) s := by
  have hrun : Reaches (step 2 2) (start fun i => [4, 2, 3, 1].getD i 0) _ :=
    ⟨[.create, .create, .write 0 0 2, .write 1 0 1, .write 1 1 3, .sorted 1, .arrive, .write 0 1 4, .sorted 0, .leave 0,
      .leaveMain, .merge], rfl⟩
  exact ⟨_, hrun, rfl, by decide, barrier_run 2 2 _ (by decide) hrun⟩

end Apue.Barrier

import Apue.Lib.Linked
import Mathlib.Data.Int.Notation

/-!
# The loops over an address list (Chapter-16/16-17.c to 16-20.c)

Four programs go through the list of `getaddrinfo` until a call works for a member. They are one loop with two
parameters: where it goes after a failure, and the test of the result. The one of 16-17.c is right
(`ruptimedPopen_right`); the other three go to the second member every time, and two of these take the
descriptor 0 for a failure (`addrinfo_loops_iff`).
-/

namespace Apue.Addrinfo
open Linked

/-- What a loop has done when it ends: the members it tried, the one it serves, and the exit status. -/
structure Ran (A : Type*) where
  tried : List A
  served : Option A
  status : ℕ
  deriving DecidableEq

variable {A : Type*}

/-- The result when `aip` was tried before. -/
def Ran.after (r : Ran A) (aip : A) : Ran A := { r with tried := aip :: r.tried }

/-- `attempt i aip` is what the call for `aip` returns when it is the i-th one; none when the fuel runs out. -/
def loop (succ : A → Option A) (test : ℤ → Bool) (attempt : ℕ → A → ℤ) : ℕ → ℕ → Option A → Option (Ran A)
  | 0, _, _ => none
  | _ + 1, _, none => some ⟨[], none, 1⟩
  | fuel + 1, i, some aip =>
    if test (attempt i aip) then some ⟨[aip], some aip, 0⟩
    else (loop succ test attempt fuel (i + 1) (succ aip)).map (·.after aip)

section programs
variable (next : A → Option A) (attempt : ℕ → A → ℤ) (ailist : Option A) (fuel : ℕ)

/-- 16-17.c: `aip = aip->ai_next`, `init_server(..) >= 0`. -/
def ruptimedPopen : Option (Ran A) := loop next (· ≥ 0) attempt fuel 0 ailist

/-- 16-18.c: `aip = ailist->ai_next`, `init_server(..) > 0`. -/
def ruptimed : Option (Ran A) := loop (fun _ => ailist.bind next) (· > 0) attempt fuel 0 ailist

/-- 16-19.c: `aip = ailist->ai_next`, and `socket(..) < 0` is the failure. -/
def ruptime : Option (Ran A) :=
  loop (fun _ => ailist.bind next) (fun sockfd => !decide (sockfd < 0)) attempt fuel 0 ailist

/-- 16-20.c: `aip = ailist->ai_next`, `init_server(..) > 0`. -/
def ruptimedDgram : Option (Ran A) := loop (fun _ => ailist.bind next) (· > 0) attempt fuel 0 ailist

end programs

/-! ### What they should do -/

/-- The calls for the members of `l`, in this order, all fail. -/
def Fail (attempt : ℕ → A → ℤ) (l : List A) : Prop := ∀ i a, l[i]? = some a → attempt i a < 0

/-- In list order up to the first one that works, or all of them and status 1. -/
inductive Right (attempt : ℕ → A → ℤ) (l : List A) : Ran A → Prop
  | served (pre : List A) {post : List A} {a : A} (hl : l = pre ++ a :: post) (hpre : Fail attempt pre)
    (ha : 0 ≤ attempt pre.length a) : Right attempt l ⟨pre ++ [a], some a, 0⟩
  | exhausted (hl : Fail attempt l) : Right attempt l ⟨l, none, 1⟩

/-- The program ends, as it should. -/
def EndsRight (attempt : ℕ → A → ℤ) (l : List A) (program : ℕ → Option (Ran A)) : Prop :=
  ∃ fuel r, program fuel = some r ∧ Right attempt l r

/-- What works is seen to work, and it is the first or the second member. -/
def Fine (test : ℤ → Bool) (attempt : ℕ → A → ℤ) : List A → Prop
  | [] => True
  | [a] => attempt 0 a < 0 ∨ test (attempt 0 a)
  | a :: b :: _ => test (attempt 0 a) ∨ (attempt 0 a < 0 ∧ test (attempt 1 b))

section right
variable {attempt : ℕ → A → ℤ} {l rest : List A} {r : Ran A} {a b : A}

theorem Right.prefix (h : Right attempt l r) : r.tried <+: l := by
  cases h with
  | served pre hl hpre ha => exact ⟨_, by rw [hl, List.append_assoc]; rfl⟩
  | exhausted hl => exact List.prefix_rfl

theorem Right.fails (h : Right attempt (a :: l) r) (hr : r.served = none ∨ ∃ b rest, r.tried = a :: b :: rest) :
    attempt 0 a < 0 := by
  cases h with
  | exhausted hl => exact hl 0 a rfl
  | @served pre post c hl hpre hc =>
    obtain hnone | ⟨b, rest, htried⟩ := hr
    · cases hnone
    cases pre with
    | nil => cases htried
    | cons d pre =>
      obtain rfl : a = d := (List.cons.inj hl).1
      exact hpre 0 a rfl

theorem Fail.cons {attempt : ℕ → A → ℤ} (ha : attempt 0 a < 0) (h : Fail (fun i => attempt (i + 1)) l) :
    Fail attempt (a :: l) := by
  intro i b hb
  cases i with
  | zero =>
    obtain rfl := Option.some.inj hb
    exact ha
  | succ i => exact h i b hb

theorem Right.after (ha : attempt 0 a < 0) (h : Right (fun i => attempt (i + 1)) l r) :
    Right attempt (a :: l) (r.after a) := by
  cases h with
  | @served pre post b hl hpre hb =>
    exact .served (a :: pre) (by rw [hl]; rfl) (hpre.cons ha) hb
  | exhausted hl => exact .exhausted (hl.cons ha)

end right

/-! ### The loop -/

section loop
variable {succ next : A → Option A} {test : ℤ → Bool} {attempt : ℕ → A → ℤ} {fuel i : ℕ} {aip a b : A} {r : Ran A}
  {l : List A} {p : Option A}

theorem loop_none (h : loop succ test attempt fuel i none = some r) : r = ⟨[], none, 1⟩ := by
  cases fuel with
  | zero => cases h
  | succ fuel => exact (Option.some.inj h).symm

theorem loop_some (h : loop succ test attempt fuel i (some aip) = some r) :
    (test (attempt i aip) = true ∧ r = ⟨[aip], some aip, 0⟩) ∨
      (test (attempt i aip) = false ∧
        ∃ fuel' r', loop succ test attempt fuel' (i + 1) (succ aip) = some r' ∧ r = r'.after aip) := by
  cases fuel with
  | zero => cases h
  | succ fuel =>
    rw [loop] at h
    split at h
    · rename_i htest
      exact .inl ⟨htest, (Option.some.inj h).symm⟩
    · rename_i htest
      obtain ⟨r', hr', rfl⟩ := Option.map_eq_some_iff.1 h
      exact .inr ⟨Bool.eq_false_iff.2 htest, fuel, r', hr', rfl⟩

theorem tried_loop_some (h : loop succ test attempt fuel i (some aip) = some r) : ∃ rest, r.tried = aip :: rest := by
  obtain ⟨-, rfl⟩ | ⟨-, fuel', r', -, rfl⟩ := loop_some h
  · exact ⟨[], rfl⟩
  · exact ⟨r'.tried, rfl⟩

theorem loop_next (hchain : Chain next p l) (htest : ∀ x, test x = true ↔ 0 ≤ x) (i : ℕ) :
    ∃ fuel r, loop next test attempt fuel i p = some r ∧ Right (fun k => attempt (i + k)) l r := by
  induction l generalizing p i with
  | nil =>
    obtain rfl := chain_nil.1 hchain
    exact ⟨1, _, rfl, .exhausted fun k a ha => by cases ha⟩
  | cons a l ih =>
    obtain ⟨rfl, hrest⟩ := chain_cons.1 hchain
    by_cases ha : test (attempt i a) = true
    · exact ⟨1, _, if_pos ha, .served [] rfl (fun k b hb => by cases hb) ((htest _).1 ha)⟩
    · obtain ⟨fuel, r, hloop, hright⟩ := ih hrest (i + 1)
      have hfail : attempt i a < 0 := by
        rw [htest] at ha
        omega
      refine ⟨fuel + 1, r.after a, ?_, .after hfail ?_⟩
      · rw [loop, if_neg ha, hloop]
        rfl
      · simpa only [Nat.add_assoc, Nat.add_comm 1] using hright

theorem loop_second_iff {ailist : Option A} (hchain : Chain next ailist l) (htest : ∀ x, test x = true → 0 ≤ x) :
    EndsRight attempt l (fun fuel => loop (fun _ => ailist.bind next) test attempt fuel 0 ailist) ↔
      Fine test attempt l := by
  have hfails (x : ℤ) (hx : x < 0) : test x = false := by
    cases hsee : test x with
    | false => rfl
    | true => exact absurd (htest x hsee) (by omega)
  match l with
  | [] =>
    obtain rfl := chain_nil.1 hchain
    exact iff_of_true ⟨1, _, rfl, .exhausted fun k a ha => by cases ha⟩ trivial
  | [a] =>
    obtain ⟨rfl, hnone⟩ := chain_cons.1 hchain
    have hsucc : (some a).bind next = none := hnone
    rw [hsucc]
    constructor
    · rintro ⟨fuel, r, hloop, hright⟩
      obtain ⟨hok, -⟩ | ⟨-, fuel', r', hloop', rfl⟩ := loop_some hloop
      · exact .inr hok
      · obtain rfl := loop_none hloop'
        exact .inl (hright.fails (.inl rfl))
    · rintro (hneg | hok)
      · refine ⟨2, ⟨[a], none, 1⟩, ?_, .exhausted (Fail.cons hneg fun k b hb => by cases hb)⟩
        simp [loop, hfails _ hneg, Ran.after]
      · exact ⟨1, _, if_pos hok, .served [] rfl (fun k b hb => by cases hb) (htest _ hok)⟩
  | a :: b :: l =>
    obtain ⟨rfl, hrest⟩ := chain_cons.1 hchain
    have hsucc : (some a).bind next = some b := hrest.1
    rw [hsucc]
    constructor
    · rintro ⟨fuel, r, hloop, hright⟩
      obtain ⟨hok, -⟩ | ⟨-, fuel₁, r₁, hloop₁, rfl⟩ := loop_some hloop
      · exact .inl hok
      obtain ⟨rest₁, hrest₁⟩ := tried_loop_some hloop₁
      have htried : (r₁.after a).tried = a :: b :: rest₁ := by rw [Ran.after, hrest₁]
      refine .inr ⟨hright.fails (.inr ⟨b, rest₁, htried⟩), ?_⟩
      obtain ⟨hok, -⟩ | ⟨-, fuel₂, r₂, hloop₂, rfl⟩ := loop_some hloop₁
      · exact hok
      -- the second member is tried again
      obtain ⟨rest₂, hrest₂⟩ := tried_loop_some hloop₂
      have hprefix := hright.prefix
      rw [Ran.after, Ran.after, hrest₂, List.cons_prefix_cons, List.cons_prefix_cons] at hprefix
      have hmem : b ∈ l := hprefix.2.2.subset (List.mem_cons_self ..)
      exact absurd hmem (List.nodup_cons.1 (List.nodup_cons.1 hchain.nodup).2).1
    · rintro (hok | ⟨hneg, hok⟩)
      · exact ⟨1, _, if_pos hok, .served [] rfl (fun k b hb => by cases hb) (htest _ hok)⟩
      · refine ⟨2, ⟨[a, b], some b, 0⟩, ?_, .served [a] rfl
          (Fail.cons hneg fun k b hb => by cases hb) (htest _ hok)⟩
        simp [loop, hfails _ hneg, hok, Ran.after]

end loop

/-! ### The four programs -/

section programs
variable {next : A → Option A} {ailist : Option A} {l : List A}

theorem ruptimedPopen_right (hchain : Chain next ailist l) (attempt : ℕ → A → ℤ) :
    EndsRight attempt l (ruptimedPopen next attempt ailist) := by
  have htest (x : ℤ) : decide (x ≥ 0) = true ↔ 0 ≤ x := decide_eq_true_iff
  obtain ⟨fuel, r, hloop, hright⟩ := loop_next hchain htest 0
  exact ⟨fuel, r, hloop, by simpa using hright⟩

theorem addrinfo_loops_iff (hchain : Chain next ailist l) (attempt : ℕ → A → ℤ) :
    (EndsRight attempt l (ruptimed next attempt ailist) ↔ Fine (· > 0) attempt l) ∧
      (EndsRight attempt l (ruptimedDgram next attempt ailist) ↔ Fine (· > 0) attempt l) ∧
      (EndsRight attempt l (ruptime next attempt ailist) ↔ Fine (· ≥ 0) attempt l) := by
  have hserver (x : ℤ) (hx : decide (x > 0) = true) : 0 ≤ x := by
    have hlt := of_decide_eq_true hx
    omega
  have hclient : (fun sockfd : ℤ => !decide (sockfd < 0)) = (fun sockfd => decide (sockfd ≥ 0)) := by
    funext x
    rw [← decide_not, decide_eq_decide]
    exact Int.not_lt
  refine ⟨loop_second_iff hchain hserver, loop_second_iff hchain hserver, ?_⟩
  unfold ruptime
  rw [hclient]
  exact loop_second_iff hchain fun x hx => of_decide_eq_true hx

end programs

theorem loop_forever {test : ℤ → Bool} {attempt : ℕ → A → ℤ} {b : A} {P : A → Prop} (hb : P b)
    (h : ∀ i c, P c → test (attempt i c) = false) (fuel i : ℕ) {c : A} (hc : P c) :
    loop (fun _ => some b) test attempt fuel i (some c) = none := by
  induction fuel generalizing i c with
  | zero => rfl
  | succ fuel ih =>
    rw [loop, h i c hc, ih (i + 1) hb]
    rfl

/-- A list of three. -/
def three (a : ℕ) : Option ℕ := if a < 2 then some (a + 1) else none

/-- Calls that work for the member `k` only. -/
def worksFor (k : ℕ) (_ a : ℕ) : ℤ := if a = k then 5 else -1

theorem addrinfo_loops_iff_three :
    EndsRight (worksFor 1) [0, 1, 2] (ruptimed three (worksFor 1) (some 0)) ∧
      EndsRight (worksFor 1) [0, 1, 2] (ruptimedDgram three (worksFor 1) (some 0)) ∧
      EndsRight (worksFor 1) [0, 1, 2] (ruptime three (worksFor 1) (some 0)) := by
  have hiff := @addrinfo_loops_iff ℕ three (some 0) [0, 1, 2] ⟨rfl, rfl, rfl, rfl⟩ (worksFor 1)
  exact ⟨hiff.1.2 (.inr ⟨by decide, by decide⟩), hiff.2.1.2 (.inr ⟨by decide, by decide⟩),
    hiff.2.2.2 (.inr ⟨by decide, by decide⟩)⟩

/-- The third of three members would work: none of the loops comes to it, nor to an end. -/
theorem addrinfo_loops_endless :
    ¬ EndsRight (worksFor 2) [0, 1, 2] (ruptimed three (worksFor 2) (some 0)) ∧
      ¬ EndsRight (worksFor 2) [0, 1, 2] (ruptimedDgram three (worksFor 2) (some 0)) ∧
      ¬ EndsRight (worksFor 2) [0, 1, 2] (ruptime three (worksFor 2) (some 0)) := by
  have hfails (test : ℤ → Bool) (htest : test (-1) = false) (i c : ℕ) (hc : c < 2) :
      test (worksFor 2 i c) = false := by
    rw [worksFor, if_neg (by omega), htest]
  have hnone (test : ℤ → Bool) (htest : test (-1) = false) :
      ¬ EndsRight (worksFor 2) [0, 1, 2] fun fuel => loop (fun _ => some 1) test (worksFor 2) fuel 0 (some 0) := by
    rintro ⟨fuel, r, hloop, -⟩
    have hnever : loop (fun _ => some 1) test (worksFor 2) fuel 0 (some 0) = none :=
      loop_forever (b := 1) (P := (· < 2)) (by decide) (hfails test htest) fuel 0 (by decide)
    exact absurd (hnever.symm.trans hloop) (by simp)
  exact ⟨hnone _ rfl, hnone _ rfl, hnone _ rfl⟩

end Apue.Addrinfo

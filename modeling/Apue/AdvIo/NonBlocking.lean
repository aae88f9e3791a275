import Apue.Lib.Memory
import Mathlib.Data.Int.Notation

/-!
# A non-blocking copy (Chapter-14/14-1.c)

The loop that writes what one `read` has brought into `buf`. It asks for `sizeof(buf)` bytes in every `write`,
not for `ntowrite`, so what lies behind the data is written too, unless the first successful `write` takes a
full buffer at once (`copy_iff`).
-/

namespace Apue.NonBlocking
open Memory

/-- `sizeof(buf)`. -/
def SIZE : ℕ := 500000

/-- What a `write` of `sizeof(buf)` bytes does: `EAGAIN`, or it takes a first part of them. -/
abbrev Outcome := Option { k : ℕ // 1 ≤ k ∧ k ≤ SIZE }

structure State where
  ptr : ℕ
  ntowrite : ℤ
  /-- The bytes that standard output has accepted. -/
  output : List UInt8
  /-- Where each `write` starts, and how many bytes it asks for. -/
  requests : List (ℕ × ℕ)

namespace State

def request (s : State) : State := { s with requests := s.requests ++ [(s.ptr, SIZE)] }

/-- `nwrite` is `k`. -/
def accepted (mem : ℕ → UInt8) (s : State) (k : ℕ) : State where
  ptr := s.ptr + k
  ntowrite := s.ntowrite - k
  output := s.output ++ load mem s.ptr k
  requests := s.requests ++ [(s.ptr, SIZE)]

end State

/-- `while (ntowrite > 0)`; none if it calls `write` once more after all of these. -/
def loop (mem : ℕ → UInt8) (outcomes : List Outcome) (s : State) : Option State :=
  if s.ntowrite > 0 then
    match outcomes with
    | [] => none
    | none :: outcomes => loop mem outcomes s.request
    | some k :: outcomes => loop mem outcomes (s.accepted mem k.1)
  else some s

/-- `main`, when `read` has brought `data` into `buf`. -/
def copy (mem : ℕ → UInt8) (buf : ℕ) (data : List UInt8) (outcomes : List Outcome) : Option State :=
  loop (store mem buf data) outcomes ⟨buf, data.length, [], []⟩

/-- The data have been written, and nothing else was to be. -/
structure Right (buf : ℕ) (data : List UInt8) (s : State) : Prop where
  output : s.output = data
  inBuf : ∀ r ∈ s.requests, buf ≤ r.1 ∧ r.1 + r.2 ≤ buf + SIZE
  inData : ∀ r ∈ s.requests, buf ≤ r.1 ∧ r.1 + r.2 ≤ buf + data.length

/-- The first `write` that succeeds takes all of `buf`. -/
def AllAtOnce (outcomes : List Outcome) : Prop :=
  ∃ n rest, ∃ k : { k : ℕ // 1 ≤ k ∧ k ≤ SIZE }, outcomes = List.replicate n none ++ some k :: rest ∧ k.1 = SIZE

section loop
variable {mem : ℕ → UInt8} {outcomes : List Outcome} {s t : State}

theorem requests_loop (h : loop mem outcomes s = some t) : s.requests <+: t.requests := by
  fun_induction loop mem outcomes s with
  | case1 => cases h
  | case2 s hpos outcomes ih => exact (List.prefix_append ..).trans (ih h)
  | case3 s hpos k outcomes ih => exact (List.prefix_append ..).trans (ih h)
  | case4 outcomes s hpos =>
    obtain rfl := Option.some.inj h
    exact List.prefix_rfl

theorem mem_requests (h : loop mem outcomes s = some t) (hpos : s.ntowrite > 0) : (s.ptr, SIZE) ∈ t.requests := by
  rw [loop.eq_def, if_pos hpos] at h
  match outcomes with
  | [] => cases h
  | none :: outcomes => exact (requests_loop h).subset (by simp [State.request])
  | some k :: outcomes => exact (requests_loop h).subset (by simp [State.accepted])

theorem allAtOnce_of_inside {buf : ℕ} (h : loop mem outcomes s = some t) (hptr : s.ptr = buf)
    (hntowrite : s.ntowrite = SIZE) (hinside : ∀ r ∈ t.requests, r.1 + r.2 ≤ buf + SIZE) :
    AllAtOnce outcomes := by
  fun_induction loop mem outcomes s with
  | case1 => cases h
  | case2 s hpos outcomes ih =>
    obtain ⟨n, rest, k, rfl, hk⟩ := ih h hptr hntowrite
    exact ⟨n + 1, rest, k, rfl, hk⟩
  | case3 s hpos k outcomes ih =>
    refine ⟨0, outcomes, k, rfl, ?_⟩
    by_contra hne
    have hmem := mem_requests h (by have := k.2; simp only [State.accepted]; omega)
    have hle := hinside _ hmem
    have := k.2
    simp only [State.accepted] at hle
    omega
  | case4 outcomes s hpos =>
    have hSIZE : 0 < SIZE := by decide
    omega

theorem loop_replicate (n : ℕ) (rest : List Outcome) (k : { k : ℕ // 1 ≤ k ∧ k ≤ SIZE }) (hk : k.1 = SIZE)
    (hntowrite : s.ntowrite = SIZE) :
    loop mem (List.replicate n none ++ some k :: rest) s =
      some ⟨s.ptr + SIZE, 0, s.output ++ load mem s.ptr SIZE,
        s.requests ++ List.replicate (n + 1) (s.ptr, SIZE)⟩ := by
  have hSIZE : 0 < SIZE := by decide
  induction n generalizing s with
  | zero =>
    have hnil : List.replicate 0 (none : Outcome) ++ some k :: rest = some k :: rest := rfl
    have hdone : ¬ (s.accepted mem k.1).ntowrite > 0 := by simp only [State.accepted]; omega
    rw [hnil, loop, if_pos (by omega), loop.eq_def, if_neg hdone, State.accepted, hk, hntowrite, Int.sub_self]
    rfl
  | succ n ih =>
    have hcons : List.replicate (n + 1) (none : Outcome) ++ some k :: rest =
        none :: (List.replicate n none ++ some k :: rest) := rfl
    have hrequest : s.request.ntowrite = SIZE := hntowrite
    rw [hcons, loop, if_pos (by omega), ih hrequest, State.request, List.append_assoc]
    rfl

end loop

/-- When the copy is right. -/
theorem copy_iff (mem : ℕ → UInt8) (buf : ℕ) (data : List UInt8) (outcomes : List Outcome)
    (hlen : data.length ≤ SIZE) {s : State} (h : copy mem buf data outcomes = some s) :
    Right buf data s ↔ data = [] ∨ (data.length = SIZE ∧ AllAtOnce outcomes) := by
  constructor
  · intro hright
    by_cases hnil : data = []
    · exact .inl hnil
    have hpos : 0 < data.length := List.length_pos_iff.2 hnil
    have hfirst := hright.inData _ (mem_requests h (by simp only; omega))
    have hfull : data.length = SIZE := by simp only at hfirst; omega
    exact .inr ⟨hfull, allAtOnce_of_inside h rfl (by simp only; omega) fun r hr => (hright.inBuf r hr).2⟩
  · rintro (rfl | ⟨hfull, n, rest, k, rfl, hk⟩)
    · rw [copy, loop.eq_def, if_neg (by simp)] at h
      obtain rfl := Option.some.inj h
      exact ⟨rfl, fun r hr => absurd hr List.not_mem_nil, fun r hr => absurd hr List.not_mem_nil⟩
    · rw [copy, loop_replicate n rest k hk (by simp only; omega)] at h
      obtain rfl := Option.some.inj h
      have hinside : ∀ r ∈ [] ++ List.replicate (n + 1) (buf, SIZE), buf ≤ r.1 ∧ r.1 + r.2 ≤ buf + SIZE := by
        intro r hr
        obtain rfl := List.eq_of_mem_replicate hr
        exact ⟨Nat.le_refl _, Nat.le_refl _⟩
      refine ⟨?_, hinside, fun r hr => hfull ▸ hinside r hr⟩
      rw [List.nil_append, ← hfull, load_store]

/-- A full buffer, written the second time. -/
theorem copy_iff_full : ∃ s, copy (fun _ => 0) 0 (List.replicate SIZE 65) [none, some ⟨SIZE, by decide⟩] = some s ∧
    Right 0 (List.replicate SIZE 65) s := by
  have hlen : (List.replicate SIZE (65 : UInt8)).length = SIZE := List.length_replicate
  have hcopy : copy (fun _ => 0) 0 (List.replicate SIZE 65) [none, some ⟨SIZE, by decide⟩] = some _ :=
    loop_replicate 1 [] ⟨SIZE, by decide⟩ rfl (by rw [hlen])
  exact ⟨_, hcopy, (copy_iff _ 0 _ _ (Nat.le_of_eq hlen) hcopy).2 (.inr ⟨hlen, 1, [], ⟨SIZE, by decide⟩, rfl, rfl⟩)⟩

/-- Two bytes are in `buf`, and three are written. -/
theorem copy_writes_more : ∃ s, copy (fun _ => 0) 0 [104, 105] [some ⟨3, by decide⟩] = some s ∧
    s.output = [104, 105, 0] ∧ s.requests = [(0, SIZE)] ∧ ¬ Right 0 [104, 105] s := by
  refine ⟨_, rfl, rfl, rfl, fun h => ?_⟩
  have houtput := h.output
  cases houtput

end Apue.NonBlocking

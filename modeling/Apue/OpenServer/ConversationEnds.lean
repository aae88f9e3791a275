import Apue.OpenServer.ConversationRun
import Mathlib.Data.Prod.Lex

/-!
# The conversation ends (Chapter-17/open-1)

The client reads its input once, and for each name the request, the answer and the file are passed on once:
the input that is left, the stage of the turn and the bytes that are on their way get smaller with every step
(`Talk.left`). So no order of the steps goes on for ever, and one that cannot go on has ended both processes.
-/

namespace Apue.OpenServer.V1
open Descriptors Transition

variable {F : Type*} {c : Setup F} {input : List UInt8} {s t : Talk F}

/-- How much of a turn is left. -/
def Talk.stage (s : Talk F) : ℕ :=
  match s.client with
  | .csopen _ => 5
  | .recvFd _ => if s.up = [] then 3 else 4
  | .copy _ _ _ => 2
  | .fgets => 1
  | .undefined | .aborted | .exited _ => 0

/-- How much of a stage is left. -/
def Talk.work (c : Setup F) (s : Talk F) : ℕ :=
  match s.client with
  | .recvFd _ => s.down.work
  | .copy _ f off => (c.contents f).length - off
  | .exited _ => if s.server = .exited then 0 else 1
  | .csopen _ | .fgets | .undefined | .aborted => 0

def Talk.left (c : Setup F) (s : Talk F) : ℕ ×ₗ ℕ ×ₗ ℕ := toLex (s.input.length, toLex (s.stage, s.work c))

theorem left_lt_of_input (h : t.input.length < s.input.length) : t.left c < s.left c :=
  Prod.Lex.toLex_lt_toLex.mpr (.inl h)

theorem left_lt_of_stage (hinput : t.input = s.input) (h : t.stage < s.stage) : t.left c < s.left c :=
  Prod.Lex.toLex_lt_toLex.mpr (.inr ⟨congrArg List.length hinput, Prod.Lex.toLex_lt_toLex.mpr (.inl h)⟩)

theorem left_lt_of_work (hinput : t.input = s.input) (hstage : t.stage = s.stage) (h : t.work c < s.work c) :
    t.left c < s.left c :=
  Prod.Lex.toLex_lt_toLex.mpr
    (.inr ⟨congrArg List.length hinput, Prod.Lex.toLex_lt_toLex.mpr (.inr ⟨hstage, h⟩)⟩)

theorem readLine_left (hpc : s.client = .fgets) : s.readLine.left c < s.left c := by
  unfold Talk.readLine
  cases hline : Stdio.fgets MAXLINE s.input with
  | none =>
    refine left_lt_of_stage rfl ?_
    simp only [Talk.stage, hpc]
    exact Nat.zero_lt_one
  | some x =>
    obtain ⟨chunk, rest⟩ := x
    obtain ⟨hsplit, hne, -⟩ := Stdio.fgets_eq_some (show 2 ≤ MAXLINE by decide) hline
    have hrest : rest.length < s.input.length := by
      have hpos := List.length_pos_iff.mpr hne
      rw [← hsplit, List.length_append]
      omega
    simp only
    split
    · exact left_lt_of_input hrest
    · exact left_lt_of_input hrest

/-- While an answer is on its way the client waits for it, and nothing else is. -/
theorem Phase.waiting (h : Phase c input s) (hdown : s.down.stream ≠ [] ∨ s.down.sender ≠ .done) :
    ∃ name, s.client = .recvFd name ∧ s.up = [] := by
  cases h with
  | between turns names hpast hpc hidle => exact absurd hidle.sender (hdown.resolve_left (not_not_intro hidle.stream))
  | asked turns name hpast hpc hup hstart =>
    rw [hstart] at hdown
    exact absurd rfl (hdown.resolve_left (not_not_intro rfl))
  | answered turns u hpast hpc hup => exact ⟨u.name, hpc, hup⟩
  | copying turns u fd f off hpast hpc hf hidle =>
    exact absurd hidle.sender (hdown.resolve_left (not_not_intro hidle.stream))
  | ended turns names status hpast hpc hidle =>
    exact absurd hidle.sender (hdown.resolve_left (not_not_intro hidle.stream))

theorem Phase.sent (h : Phase c input s) (hsender : s.down.sender ≠ .done) {down : State F}
    {userfunc : List UInt8 → ℤ} {a : Act} (hdown : OpenServer.step userfunc s.down a = some down)
    (hclient : t.client = s.client) (hinput : t.input = s.input) (hup : t.up = s.up) (ht : t.down = down) :
    t.left c < s.left c := by
  obtain ⟨name, hpc, -⟩ := h.waiting (.inr hsender)
  refine left_lt_of_work hinput ?_ ?_
  · simp only [Talk.stage, hclient, hpc, hup]
  · simp only [Talk.work, hclient, hpc, ht]
    exact work_lt s.down a down hdown

theorem Phase.received (h : Phase c input s) {write : List UInt8 → ℤ} {down : State F} {newfd : ℕ}
    (hdown : OpenServer.step write s.down .recvmsg = some down) (hs : s.receive down newfd = some t) :
    t.left c < s.left c := by
  obtain ⟨-, hne, -⟩ := recvmsg_eq_some hdown
  obtain ⟨name, hpc, hup⟩ := h.waiting (.inl hne)
  have hstage : s.stage = 3 := by simp only [Talk.stage, hpc, if_pos hup]
  unfold Talk.receive at hs
  simp only at hs
  split at hs
  · obtain rfl := Option.some.inj hs
    refine left_lt_of_work rfl (by simp only [Talk.stage]) ?_
    simp only [Talk.work, hpc]
    exact work_lt s.down .recvmsg down hdown
  · obtain rfl := Option.some.inj hs
    exact left_lt_of_stage rfl (by rw [hstage]; exact Nat.zero_lt_succ 2)
  · obtain rfl := Option.some.inj hs
    exact left_lt_of_stage rfl (by rw [hstage]; exact Nat.zero_lt_succ 2)
  · obtain rfl := Option.some.inj hs
    exact left_lt_of_stage rfl (by rw [hstage]; exact Nat.succ_lt_succ (Nat.zero_lt_succ 1))
  · obtain ⟨-, hs⟩ := Option.ite_none_right_eq_some.mp hs
    obtain rfl := Option.some.inj hs
    exact left_lt_of_stage rfl (by rw [hstage]; exact Nat.lt_succ_self 2)

theorem step_left (hfit : ∀ name ∈ lines input, name.length ≤ MAXLINE - 8) (s : Talk F) (a : TalkAct F)
    (t : Talk F) (h : Phase c input s) (hwrites : a.Writes) (hs : Talk.step c s a = some t) :
    Phase c input t ∧ t.left c < s.left c := by
  refine ⟨step_phase hfit s a t h hwrites hs, ?_⟩
  cases a with
  | fgets =>
    obtain ⟨hpc, rfl⟩ := Talk.step_fgets hs
    exact readLine_left hpc
  | writev =>
    obtain ⟨name, hpc, rfl⟩ := Talk.step_writev hs
    refine left_lt_of_stage rfl ?_
    simp only [Talk.stage, hpc]
    split
    · exact Nat.lt_of_sub_pos (by decide)
    · exact Nat.lt_succ_self 4
  | read stale env newfd =>
    obtain ⟨-, hne, hhandle⟩ := Talk.step_read hs
    obtain ⟨fd?, ht, -⟩ := Talk.handle_eq_some hhandle
    have hafter := step_phase hfit s _ t h hwrites hs
    have hsender : t.down.sender ≠ .done := by
      rw [ht]
      exact start_ne_done _
    obtain ⟨name, hpc, hup⟩ := hafter.waiting (.inr hsender)
    have hclient : t.client = s.client := by rw [ht]
    refine left_lt_of_stage (by rw [ht]) ?_
    simp only [Talk.stage, ← hclient, hpc, if_pos hup, if_neg hne]
    exact Nat.lt_succ_self 3
  | write n =>
    obtain ⟨down, hdown, rfl⟩ := Talk.step_write hs
    obtain ⟨rest, errcode, hwriten, -⟩ := write_eq_some hdown
    exact h.sent (by simp [hwriten]) hdown rfl rfl rfl rfl
  | sendmsg =>
    obtain ⟨newfd, down, -, hdown, rfl⟩ := Talk.step_sendmsg hs
    obtain ⟨arg, hsendmsg, -⟩ := sendmsg_eq_some hdown
    exact h.sent (by simp [hsendmsg]) hdown rfl rfl rfl rfl
  | recvmsg write newfd =>
    obtain ⟨down, hdown, hreceive⟩ := Talk.step_recvmsg hs
    exact h.received hdown hreceive
  | copy n =>
    obtain ⟨fd, f, off, hpc, hpos, hle, rfl⟩ := Talk.step_copy hs
    refine left_lt_of_work rfl (by simp only [Talk.stage, hpc]) ?_
    simp only [Talk.work, hpc]
    omega
  | copyFails n =>
    obtain ⟨fd, f, off, hpc, rfl⟩ := Talk.step_copyFails hs
    exact left_lt_of_stage rfl (by simp only [Talk.stage, hpc]; exact Nat.zero_lt_succ 1)
  | close =>
    obtain ⟨fd, f, off, hpc, -, rfl⟩ := Talk.step_close hs
    exact left_lt_of_stage rfl (by simp only [Talk.stage, hpc]; exact Nat.lt_succ_self 1)
  | eof =>
    obtain ⟨status, hpc, hserver, rfl⟩ := Talk.step_eof hs
    refine left_lt_of_work rfl rfl ?_
    simp only [Talk.work, hpc, hserver, if_true]
    exact Nat.zero_lt_one

theorem Phase.exited (h : Phase c input s) (hserver : s.server = .exited) : ∃ status, s.client = .exited status := by
  cases h with
  | between turns names hpast hpc hidle hread => simp [hserver] at hread
  | asked turns name hpast hpc hup hdown hread => simp [hserver] at hread
  | answered turns u hpast hpc hup hinv hrunning hanswer =>
    cases hanswer with
    | sending newfd hread => simp [hserver] at hread
    | sent hread => simp [hserver] at hread
  | copying turns u fd f off hpast hpc hf hidle hread => simp [hserver] at hread
  | ended turns names status hpast hpc => exact ⟨status, hpc⟩

end Apue.OpenServer.V1

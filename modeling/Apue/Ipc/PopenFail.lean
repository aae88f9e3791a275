import Apue.Ipc.PopenRun

/-!
# A `my_popen` that fails (Chapter-15/15-12.c)

What is left behind when `my_popen` returns `NULL`, in any state. The exits in front of `fork` leave nothing
(`unchanged_of_not_reachesFork`); the two behind it close too little, and the last one loses the child
(`my_popen_fails_iff`).
-/

namespace Apue.Popen
open Descriptors

variable {F : Type*} {s t : State F} {type : CStr} {e : PopenEnv}

/-- `childpid[i]`, which is 0 while there is no table. -/
def State.entry (s : State F) (i : ℕ) : ℕ := s.childpid.elim 0 fun t => t i

/-- Some `my_pclose` of an open stream waits for the child `k`. -/
def State.CanWait (s : State F) (k : ℕ) : Prop :=
  ∃ fp e c, (s.opened fp).isSome ∧ (s.myPclose fp e).1.children[k]? = some c ∧ c.waitedBy ≠ []

/-- `my_popen` was called in the state `s` and leaves `t`. -/
structure Unchanged (s t : State F) : Prop where
  fds : ∀ fd, (t.fds fd).isSome = (s.fds fd).isSome
  entry : ∀ i, t.entry i = s.entry i
  child : ∀ k c, s.children.length ≤ k → t.children[k]? = some c → c.waitedBy = [] → t.CanWait k

/-- The type is one of the two, the table is there, and both ends of the pipe are below `maxfd`. -/
def ReachesFork (s : State F) (type : CStr) (e : PopenEnv) : Prop :=
  ∃ m s₁ pfd0 pfd1 fds, mode type = some m ∧ s.allocTable e = (s₁, true) ∧
    s₁.fds.pipe e.limit (.pipeR s₁.pipes) (.pipeW s₁.pipes) = some (pfd0, pfd1, fds) ∧
    pfd0 < s₁.maxfd ∧ pfd1 < s₁.maxfd

theorem Unchanged.of_children (hfds : ∀ fd, (t.fds fd).isSome = (s.fds fd).isSome)
    (hentry : ∀ i, t.entry i = s.entry i) (hchildren : t.children = s.children) : Unchanged s t := by
  refine ⟨hfds, hentry, fun k c hk hget _ => ?_⟩
  rw [hchildren, List.getElem?_eq_none hk] at hget
  cases hget

theorem allocTable_unchanged (s : State F) (e : PopenEnv) :
    (s.allocTable e).1.fds = s.fds ∧ (s.allocTable e).1.children = s.children ∧
      ∀ i, (s.allocTable e).1.entry i = s.entry i := by
  unfold State.allocTable State.entry
  split
  · exact ⟨rfl, rfl, fun i => rfl⟩
  · rename_i hnone
    simp only
    split
    · exact ⟨rfl, rfl, fun i => by rw [hnone]; rfl⟩
    · exact ⟨rfl, rfl, fun i => rfl⟩

theorem close_pipe {t u : Table (File F)} {lim pfd0 pfd1 : ℕ} {r w : File F}
    (h : t.pipe lim r w = some (pfd0, pfd1, u)) (fd : ℕ) : (u.close pfd0).close pfd1 fd = t fd := by
  obtain ⟨hfree0, hfree1, -, -, rfl, -⟩ := Table.pipe_eq_some h
  by_cases h1 : fd = pfd1
  · rw [h1, Table.close_self, hfree1]
  rw [Table.close_of_ne _ h1]
  by_cases h0 : fd = pfd0
  · rw [h0, Table.close_self, hfree0]
  · rw [Table.close_of_ne _ h0, Table.put_of_ne _ h1, Table.put_of_ne _ h0]

theorem unchanged_of_not_reachesFork (h : ¬ ReachesFork s type e) : Unchanged s (s.myPopen type e).1 := by
  obtain ⟨hfds, hchildren, hentry⟩ := allocTable_unchanged s e
  unfold State.myPopen
  split
  · exact .of_children (fun fd => rfl) (fun i => rfl) rfl
  · rename_i m hm
    split
    · rename_i s₁ halloc
      rw [halloc] at hfds hchildren hentry
      exact .of_children (fun fd => by rw [hfds]) hentry hchildren
    · rename_i s₁ halloc
      rw [halloc] at hfds hchildren hentry
      split
      · exact .of_children (fun fd => by rw [hfds]) hentry hchildren
      · rename_i pfd0 pfd1 fds hpipe
        simp only
        split
        · refine .of_children (fun fd => ?_) hentry hchildren
          rw [← hfds, ← close_pipe hpipe fd]
          rfl
        · rename_i hlim
          exact absurd ⟨m, s₁, pfd0, pfd1, fds, hm, halloc, hpipe, by omega, by omega⟩ h

theorem ends_open {t u : Table (File F)} {lim pfd0 pfd1 : ℕ} {r w : File F}
    (h : t.pipe lim r w = some (pfd0, pfd1, u)) :
    pfd0 ≠ pfd1 ∧ ∀ fd, fd = pfd0 ∨ fd = pfd1 → t fd = none ∧ (u fd).isSome = true := by
  obtain ⟨hfree0, hfree1, hlt, -, rfl, -⟩ := Table.pipe_eq_some h
  have hne : pfd0 ≠ pfd1 := Nat.ne_of_lt hlt
  refine ⟨hne, fun fd hfd => ?_⟩
  rcases hfd with rfl | rfl
  · exact ⟨hfree0, by rw [Table.put_of_ne _ hne, Table.put_self]; rfl⟩
  · exact ⟨hfree1, by rw [Table.put_self]; rfl⟩

theorem not_unchanged_of_reachesFork {errno : Errno} (h : ReachesFork s type e)
    (herror : (s.myPopen type e).2 = .error errno) : ¬ Unchanged s (s.myPopen type e).1 := by
  obtain ⟨m, s₁, pfd0, pfd1, fds, hm, halloc, hpipe, hlim0, hlim1⟩ := h
  obtain ⟨-, hfds, -⟩ := State.allocTable_eq halloc
  obtain ⟨hne, hends⟩ := ends_open hpipe
  rw [hfds] at hends
  intro hunchanged
  have hlim : ¬ (pfd0 ≥ s₁.maxfd ∨ pfd1 ≥ s₁.maxfd) := by omega
  cases hfork : e.fork with
  | none =>
    have hpopen : s.myPopen type e = ({ s₁ with fds := fds, pipes := s₁.pipes + 1 }, .error .sys) := by
      simp only [State.myPopen, hm, halloc, hpipe, if_neg hlim, hfork]
    obtain ⟨hfree, hopen⟩ := hends pfd0 (.inl rfl)
    have hsame := hunchanged.fds pfd0
    rw [hpopen, hfree] at hsame
    exact absurd (hsame.symm.trans hopen) Bool.false_ne_true
  | some pid =>
    cases hfdopen : e.fdopen with
    | true => simp [State.myPopen, hm, halloc, hpipe, hlim, hfork, hfdopen, State.finish] at herror
    | false =>
      have hpopen : (s.myPopen type e).1.fds = fds.close (m.childEnd pfd0 pfd1) := by
        simp only [State.myPopen, hm, halloc, hpipe, if_neg hlim, hfork, hfdopen, State.finish]
        rfl
      have hparent : m.parentEnd pfd0 pfd1 = pfd0 ∨ m.parentEnd pfd0 pfd1 = pfd1 := by
        cases m <;> simp [Mode.parentEnd]
      have hother : m.parentEnd pfd0 pfd1 ≠ m.childEnd pfd0 pfd1 := by
        cases m
        · exact hne
        · exact hne.symm
      obtain ⟨hfree, hopen⟩ := hends _ hparent
      have hsame := hunchanged.fds (m.parentEnd pfd0 pfd1)
      rw [hpopen, Table.close_of_ne _ hother, hfree] at hsame
      exact absurd (hsame.symm.trans hopen) Bool.false_ne_true

theorem my_popen_fails_iff (s : State F) (type : CStr) (e : PopenEnv) {errno : Errno}
    (h : (s.myPopen type e).2 = .error errno) : Unchanged s (s.myPopen type e).1 ↔ ¬ ReachesFork s type e := by
  constructor
  · intro hunchanged hfork
    exact not_unchanged_of_reachesFork hfork h hunchanged
  · exact unchanged_of_not_reachesFork

/-- The table has one element, which is not enough for both ends. -/
theorem my_popen_fails_iff_small :
    Unchanged (start (process []) []) ((start (process []) []).myPopen typeR { allSucceed 7 with openMax := 1 }).1 := by
  refine (my_popen_fails_iff (start (process []) []) typeR { allSucceed 7 with openMax := 1 } rfl).2 ?_
  rintro ⟨m, s₁, pfd0, pfd1, fds, -, halloc, hpipe, hlim0, hlim1⟩
  have hmaxfd : 1 = s₁.maxfd := congrArg (fun r => r.1.maxfd) halloc
  have hne := (ends_open hpipe).1
  omega

/-- When `fork` fails, both ends of the pipe stay open. When `fdopen` fails, one does, and no `my_pclose` waits for
the child. -/
theorem my_popen_leaks :
    let s := start (process []) []
    let t := s.myPopen typeR { allSucceed 7 with fork := none }
    let t' := s.myPopen typeR { allSucceed 7 with fdopen := false }
    t.2 = .error .sys ∧ (t.1.fds 2).isSome ∧ (t.1.fds 3).isSome ∧ ¬ Unchanged s t.1 ∧
      t'.2 = .error .sys ∧ (t'.1.fds 2).isSome ∧ t'.1.children.length = 1 ∧ ¬ t'.1.CanWait 0 ∧
        ¬ Unchanged s t'.1 := by
  refine ⟨rfl, rfl, rfl, fun h => ?_, rfl, rfl, rfl, ?_, fun h => ?_⟩
  · have hfds := h.fds 2
    cases hfds
  · rintro ⟨fp, e, c, hopened, -⟩
    cases hopened
  · have hfds := h.fds 2
    cases hfds

end Apue.Popen

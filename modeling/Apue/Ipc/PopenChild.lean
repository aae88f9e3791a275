import Apue.Ipc.PopenRun

/-!
# The descriptors of a `popen` child

The child closes the parent's end, makes its own end the standard input or output, and then closes every
number recorded in `childpid`. The new pipe's ends are free before the call, so the one number that can be
both recorded and wanted is the standard descriptor itself: `childOk_iff` says that the child has the
descriptors it should have exactly when no open stream of `my_popen` is there.
-/

namespace Apue.Popen
open Descriptors Transition

variable {F : Type*} {s s' : State F} {fp : ℕ} {m : Mode} {pfd0 pfd1 : ℕ}

/-- The open files of a pipe that the parent keeps and that the child keeps. -/
def Mode.parentFile : Mode → ℕ → File F
  | .r, n => .pipeR n
  | .w, n => .pipeW n

def Mode.childFile : Mode → ℕ → File F
  | .r, n => .pipeW n
  | .w, n => .pipeR n

/-- What the descriptors `t` of a child should be, when `my_popen` is called with this mode in `s`. -/
structure ChildOk (s : State F) (m : Mode) (t : Table (File F)) : Prop where
  std : t m.std = some (m.childFile s.pipes)
  parentEnd : ∀ i, t i ≠ some (m.parentFile s.pipes)
  earlier : ∀ i, s.Taken i → t i ≠ s.fds i
  others : ∀ i, i ≠ m.std → ¬ s.Taken i → t i = s.fds i

/-! ### The steps of the child -/

theorem Inv.mem_recorded (h : Inv s) {i : ℕ} : i ∈ s.recorded ↔ s.Taken i := by
  unfold State.recorded
  rw [List.mem_filter, List.mem_range, decide_eq_true_eq]
  constructor
  · rintro ⟨-, hpos⟩
    by_contra hnot
    cases ht : s.childpid with
    | none => simp [ht] at hpos
    | some t =>
      have hzero := h.table.zero t ht i hnot
      simp [ht, hzero] at hpos
  · intro htaken
    obtain ⟨fp, k, hp⟩ := State.taken_iff.mp htaken
    obtain ⟨t, c, ht, hlt, -, hpid, hpos⟩ := h.table.recorded fp i k hp
    refine ⟨hlt, ?_⟩
    rw [ht]
    show t i > 0
    omega

theorem State.childFds_apply {f : File F} (hne : m.childEnd pfd0 pfd1 ≠ m.parentEnd pfd0 pfd1)
    (hf : s.fds (m.childEnd pfd0 pfd1) = some f) (i : ℕ) :
    s.childFds m pfd0 pfd1 i =
      if i ∈ s.recorded then none
      else if i = m.std then some f
      else if i = m.childEnd pfd0 pfd1 ∨ i = m.parentEnd pfd0 pfd1 then none
      else s.fds i := by
  have hend : s.fds.close (m.parentEnd pfd0 pfd1) (m.childEnd pfd0 pfd1) = some f := by
    rw [Table.close_of_ne _ hne, hf]
  unfold State.childFds
  rw [Table.closeAll_apply]
  congr 1
  by_cases hstd : m.childEnd pfd0 pfd1 = m.std
  · -- the child's end is the standard descriptor already
    rw [if_neg (not_not.mpr hstd), ← hstd]
    by_cases hi : i = m.childEnd pfd0 pfd1
    · rw [if_pos hi, hi, hend]
    · rw [if_neg hi]
      by_cases hparent : i = m.parentEnd pfd0 pfd1
      · rw [if_pos (Or.inr hparent), hparent, Table.close_self]
      · rw [if_neg (by simp [hi, hparent]), Table.close_of_ne _ hparent]
  · rw [if_pos hstd, Table.dup2_close_apply _ hend hstd]
    congr 1
    by_cases hi : i = m.childEnd pfd0 pfd1
    · rw [if_pos hi, if_pos (Or.inl hi)]
    · rw [if_neg hi]
      by_cases hparent : i = m.parentEnd pfd0 pfd1
      · rw [if_pos (Or.inr hparent), hparent, Table.close_self]
      · rw [if_neg (by simp [hi, hparent]), Table.close_of_ne _ hparent]

/-- What `my_popen` did when it succeeds: the table is there, `pipe` gave both ends, and `fork` made the
child of the stream it returns. -/
theorem State.myPopen_ok {type : CStr} {e : PopenEnv} (h : s.myPopen type e = (s', .ok fp)) :
    ∃ m s₁ pfd0 pfd1 fds pid, mode type = some m ∧ s.allocTable e = (s₁, true) ∧
      s₁.fds.pipe e.limit (.pipeR s₁.pipes) (.pipeW s₁.pipes) = some (pfd0, pfd1, fds) ∧
      s'.childOf fp = some s₁.children.length ∧
      s'.children[s₁.children.length]? =
        some ⟨pid, State.childFds { s₁ with fds := fds, pipes := s₁.pipes + 1 } m pfd0 pfd1, []⟩ := by
  unfold State.myPopen at h
  split at h
  · simp at h
  · rename_i m hm
    split at h
    · simp at h
    · rename_i s₁ halloc
      split at h
      · simp at h
      · rename_i pfd0 pfd1 fds hpipe
        simp only at h
        split at h
        · simp at h
        · rename_i hlim
          split at h
          · simp at h
          · rename_i pid hpid
            cases hfd : e.fdopen with
            | false => simp [State.finish, hfd] at h
            | true =>
              rw [hfd] at h
              simp only [State.finish, if_true, Prod.mk.injEq, Except.ok.injEq, State.store] at h
              rw [if_pos (by cases m <;> simp only [Mode.parentEnd, State.closeFd, State.fork] <;> omega)] at h
              obtain ⟨rfl, rfl⟩ := h
              refine ⟨m, s₁, pfd0, pfd1, fds, pid, hm, halloc, hpipe, ?_, ?_⟩
              · simp [State.childOf, State.closeFd, State.fork]
              · simp [State.closeFd, State.fork]

theorem Mode.ends {t u : Table (File F)} {lim n : ℕ} (m : Mode)
    (h : t.pipe lim (.pipeR n) (.pipeW n) = some (pfd0, pfd1, u)) :
    m.childEnd pfd0 pfd1 ≠ m.parentEnd pfd0 pfd1 ∧ u (m.childEnd pfd0 pfd1) = some (m.childFile n) ∧
      t (m.childEnd pfd0 pfd1) = none ∧ t (m.parentEnd pfd0 pfd1) = none ∧
      ∀ i, i ≠ m.childEnd pfd0 pfd1 → i ≠ m.parentEnd pfd0 pfd1 → u i = t i := by
  obtain ⟨hfree0, hfree1, hlt, -, rfl, -⟩ := Table.pipe_eq_some h
  cases m with
  | r =>
    refine ⟨(Nat.ne_of_lt hlt).symm, Table.put_self .., hfree1, hfree0, fun i h1 h0 => ?_⟩
    exact (Table.put_of_ne _ h1).trans (Table.put_of_ne _ h0)
  | w =>
    refine ⟨Nat.ne_of_lt hlt, ?_, hfree0, hfree1, fun i h0 h1 => ?_⟩
    · show Table.put _ pfd1 _ pfd0 = _
      rw [Table.put_of_ne _ (Nat.ne_of_lt hlt), Table.put_self]
      rfl
    · exact (Table.put_of_ne _ h1).trans (Table.put_of_ne _ h0)

theorem Inv.childOk_iff (h : Inv s) {t : Table (File F)} {a b : ℕ} (ha : s.fds a = none) (hb : s.fds b = none)
    (ht : ∀ i, t i = if s.Taken i then none else if i = m.std then some (m.childFile s.pipes)
      else if i = a ∨ i = b then none else s.fds i) :
    ChildOk s m t ↔ ¬ s.Taken m.std := by
  constructor
  · intro hchild htaken
    have hstd := hchild.std
    rw [ht, if_pos htaken] at hstd
    cases hstd
  · intro hnot
    refine ⟨?_, fun i hi => ?_, fun i htaken heq => ?_, fun i hstd htaken => ?_⟩
    · rw [ht, if_neg hnot, if_pos rfl]
    · rw [ht] at hi
      split at hi
      · cases hi
      split at hi
      · cases m <;> cases hi
      split at hi
      · cases hi
      -- pipes of before the call have smaller numbers
      have hlt := h.fds.fresh i s.pipes (by cases m <;> simp [hi, Mode.parentFile])
      omega
    · rw [ht, if_pos htaken] at heq
      exact h.fds.isOpen i htaken heq.symm
    · rw [ht, if_neg htaken, if_neg hstd]
      split
      · rename_i hends
        obtain rfl | rfl := hends
        · exact ha.symm
        · exact hb.symm
      · rfl

/-- The type "w". -/
def typeW : CStr := ⟨[119], by decide⟩

end Apue.Popen

import Apue.Lib.CString
import Apue.Lib.Signals

/-!
# `system` (Chapter-08/8-22.c, Chapter-10/10-26.c, Chapter-10/10-28.c)

`mysystem` is the version without signals, the same text in 8-22.c and 10-26.c; `mysystem2` also takes
`SIGINT`, `SIGQUIT` and `SIGCHLD` away from the caller while the command runs.

* Both wait in a loop that differs in one test (`waitLoop`): `mysystem` gives up when it is interrupted and
  goes on after any other error, `mysystem2` does it the other way. `wait_loops_iff`: only a `waitpid` that
  succeeds at once hides it.
* `mysystem2` puts the disposition of `SIGINT` back for `SIGQUIT` too, and the early returns put nothing back.
  `mysystem2_iff` says when that does not show.
-/

namespace Apue.System
open Signals

def SIGINT : ℕ := 2
def SIGQUIT : ℕ := 3
def SIGCHLD : ℕ := 17
def EINTR : ℕ := 4

/-! ### Waiting for the child -/

/-- What `waitpid` does: it reaps the child, or fails. -/
inductive Wait where
  | status (stat : ℤ)
  | error (errno : ℕ)
  deriving DecidableEq

/-- How the loop ended, after how many calls of `waitpid`. -/
structure Waited where
  status : ℤ
  calls : ℕ
  reaped : Bool
  deriving DecidableEq

/-- `while (waitpid(pid, &status, 0) < 0)` with `status = -1; break;` for the errors that `giveUp` names; none
if it calls `waitpid` once more after all of these. -/
def waitLoop (giveUp : ℕ → Bool) : List Wait → Option Waited
  | [] => none
  | .status stat :: _ => some ⟨stat, 1, true⟩
  | .error errno :: waits =>
    if giveUp errno then some ⟨-1, 1, false⟩
    else (waitLoop giveUp waits).map fun w => { w with calls := w.calls + 1 }

/-- What the parent has as `status` after the three branches on `pid`. -/
def afterFork (fork : Bool) (loop : Option Waited) : Option Waited := if fork then loop else some ⟨-1, 0, false⟩

/-- `if (errno == EINTR)`. -/
def mysystem (cmdstring : Option CStr) (fork : Bool) (waits : List Wait) : Option Waited :=
  match cmdstring with
  | none => some ⟨1, 0, false⟩
  | some _ => afterFork fork (waitLoop (· = EINTR) waits)

/-! ### The second version -/

variable {H : Type*}

/-- The outcomes in `mysystem2`: whether the calls succeed, in order, and what `waitpid` does. -/
structure Outcomes where
  sigint : Bool
  sigquit : Bool
  sigprocmask : Bool
  fork : Bool
  waits : List Wait

/-- What the caller returns, in which state, and the state in which the child calls `execl`. -/
structure Result (H : Type*) where
  caller : Option (Waited × Process H)
  child : Option (Process H)

def ignore : Sigaction H := ⟨.ign, ∅, 0⟩

/-- A return before there is a child. -/
def early (ret : ℤ) (p : Process H) : Result H := ⟨some (⟨ret, 0, false⟩, p), none⟩

def mysystem2 (p : Process H) (cmdstring : Option CStr) (o : Outcomes) : Result H :=
  match cmdstring with
  | none => early 1 p
  | some _ =>
    if o.sigint = false then early (-1) p
    else
      let saveintr := p.disp SIGINT
      let p := p.sigaction SIGINT ignore
      if o.sigquit = false then early (-1) p
      else
        let savequit := p.disp SIGQUIT
        let p := p.sigaction SIGQUIT ignore
        if o.sigprocmask = false then early (-1) p
        else
          let savemask := p.mask
          let p := p.block {SIGCHLD}
          { caller := (afterFork o.fork (waitLoop (· ≠ EINTR) o.waits)).map fun w =>
              -- SIGQUIT gets what was saved for SIGINT
              (w, ((p.sigaction SIGINT saveintr).sigaction SIGQUIT saveintr).setMask savemask)
            child := if o.fork then
                some (((p.fork.sigaction SIGINT saveintr).sigaction SIGQUIT savequit).setMask savemask)
              else none }

/-! ### What they should do -/

/-- Dispositions and mask are those of `p`. -/
structure Restored (p q : Process H) : Prop where
  sigint : q.disp SIGINT = p.disp SIGINT
  sigquit : q.disp SIGQUIT = p.disp SIGQUIT
  mask : q.mask = p.mask

/-- `mysystem2` was called in the state `p`. -/
structure Right (p : Process H) (r : Result H) : Prop where
  caller : ∀ w q, r.caller = some (w, q) → Restored p q
  child : ∀ q, r.child = some q → Restored p q

/-- `waitpid` is interrupted, and then does something else. -/
def interrupted (n : ℕ) (last : Wait) : List Wait := List.replicate n (.error EINTR) ++ [last]

/-- Every interruption is followed by a new call, and the last call decides. -/
def Through (n : ℕ) (last : Wait) (w : Option Waited) : Prop :=
  w = some (match last with
    | .status stat => ⟨stat, n + 1, true⟩
    | .error _ => ⟨-1, n + 1, false⟩)

/-- `waitpid` comes to an end, if there is a child. -/
def Outcomes.Ends (o : Outcomes) : Prop := o.fork = true → ∃ w ∈ o.waits, w ≠ .error EINTR

/-- Nothing has been changed, or what was changed was so before. -/
def Unseen (p : Process H) (cmdstring : Option CStr) (o : Outcomes) : Prop :=
  cmdstring = none ∨ o.sigint = false ∨
    if o.sigquit = false then p.disp SIGINT = ignore
    else if o.sigprocmask = false then p.disp SIGINT = ignore ∧ p.disp SIGQUIT = ignore
    else o.Ends → p.disp SIGQUIT = p.disp SIGINT

/-! ### The loops -/

section loops
variable {giveUp : ℕ → Bool} {n : ℕ} {last : Wait}

theorem waitLoop_interrupted (hgo : giveUp EINTR = false) : waitLoop giveUp (interrupted n last) =
    (waitLoop giveUp [last]).map fun w => { w with calls := w.calls + n } := by
  induction n with
  | zero => simp [interrupted]
  | succ n ih =>
    have hnext : interrupted (n + 1) last = .error EINTR :: interrupted n last := rfl
    rw [hnext, waitLoop, hgo, if_neg (by decide), ih, Option.map_map]
    rfl

/-- `mysystem2` goes on when it is interrupted and gives up otherwise. -/
theorem waitLoop_through (hlast : last ≠ .error EINTR) :
    Through n last (waitLoop (· ≠ EINTR) (interrupted n last)) := by
  rw [waitLoop_interrupted (by decide)]
  cases last with
  | status stat => simp [Through, waitLoop, Nat.add_comm]
  | error errno =>
    have hne : errno ≠ EINTR := fun h => hlast (h ▸ rfl)
    simp [Through, waitLoop, hne, Nat.add_comm]

theorem waitLoop_through_iff (hlast : last ≠ .error EINTR) :
    Through n last (waitLoop (· = EINTR) (interrupted n last)) ↔ n = 0 ∧ ∃ stat, last = .status stat := by
  cases n with
  | zero =>
    cases last with
    | status stat => simp [Through, waitLoop, interrupted]
    | error errno =>
      have hne : errno ≠ EINTR := fun h => hlast (h ▸ rfl)
      simp [Through, waitLoop, interrupted, hne]
  | succ n =>
    have hfirst : waitLoop (· = EINTR) (interrupted (n + 1) last) = some ⟨-1, 1, false⟩ := rfl
    rw [hfirst]
    refine iff_of_false (fun h => ?_) (by simp)
    cases last with
    | status stat => simp [Through] at h
    | error errno => simp [Through] at h

theorem waitLoop_isSome_iff (waits : List Wait) :
    (waitLoop (· ≠ EINTR) waits).isSome = true ↔ ∃ w ∈ waits, w ≠ .error EINTR := by
  induction waits with
  | nil => simp [waitLoop]
  | cons w waits ih =>
    cases w with
    | status stat => simp [waitLoop]
    | error errno =>
      by_cases herrno : errno = EINTR
      · subst herrno
        rw [waitLoop, if_neg (by decide), Option.isSome_map, ih]
        simp
      · simp [waitLoop, herrno]

end loops

theorem wait_loops_iff (p : Process H) (cmdstring : CStr) (n : ℕ) (last : Wait) (hlast : last ≠ .error EINTR) :
    (Through n last (mysystem (some cmdstring) true (interrupted n last)) ↔ n = 0 ∧ ∃ stat, last = .status stat) ∧
      Through n last ((mysystem2 p (some cmdstring) ⟨true, true, true, true, interrupted n last⟩).caller.map
        Prod.fst) := by
  refine ⟨waitLoop_through_iff hlast, ?_⟩
  have hcaller : (mysystem2 p (some cmdstring) ⟨true, true, true, true, interrupted n last⟩).caller.map Prod.fst =
      waitLoop (· ≠ EINTR) (interrupted n last) := by
    simp [mysystem2, afterFork, Option.map_map, Function.comp_def]
  rw [hcaller]
  exact waitLoop_through hlast

/-- `mysystem("date")`, and `mysystem2` interrupted twice. -/
theorem wait_loops_iff_date :
    mysystem (some (.ofBuf (ascii "date"))) true [.status 0] = some ⟨0, 1, true⟩ ∧
      (mysystem2 (⟨fun _ => ⟨.dfl, ∅, 0⟩, ∅, ∅⟩ : Process Unit) (some (.ofBuf (ascii "date")))
        ⟨true, true, true, true, [.error EINTR, .error EINTR, .status 0]⟩).caller.map Prod.fst =
          some ⟨0, 3, true⟩ :=
  ⟨(wait_loops_iff (⟨fun _ => ⟨.dfl, ∅, 0⟩, ∅, ∅⟩ : Process Unit) (.ofBuf (ascii "date")) 0 (.status 0)
      (by decide)).1.2 ⟨rfl, 0, rfl⟩,
    (wait_loops_iff _ (.ofBuf (ascii "date")) 2 (.status 0) (by decide)).2⟩

/-- Interrupted once, `mysystem` returns -1 and leaves the child there; when there is none to wait for, it waits
again. -/
theorem mysystem_interrupted :
    mysystem (some (.ofBuf (ascii "date"))) true [.error EINTR, .status 0] = some ⟨-1, 1, false⟩ ∧
      mysystem (some (.ofBuf (ascii "date"))) true [.error 10] = none ∧
      ¬ ∀ cmdstring n last, last ≠ .error EINTR →
        Through n last (mysystem (some cmdstring) true (interrupted n last)) := by
  refine ⟨rfl, rfl, fun h => ?_⟩
  have hthrough := h (.ofBuf (ascii "date")) 1 (.status 0) (by decide)
  cases hthrough

/-! ### The caller's signals -/

section restore
variable {p q : Process H} {o : Outcomes} {cmdstring : Option CStr} {ret : ℤ}

theorem right_early : Right p (early ret q) ↔ Restored p q := by
  constructor
  · intro h
    exact h.caller _ q rfl
  · intro h
    refine ⟨fun w q' hq => ?_, fun q' hq => ?_⟩
    · obtain ⟨-, rfl⟩ := Prod.mk.inj (Option.some.inj hq)
      exact h
    · cases hq

theorem Restored.refl (p : Process H) : Restored p p := ⟨rfl, rfl, rfl⟩

theorem restored_ignore_sigint : Restored p (p.sigaction SIGINT ignore) ↔ p.disp SIGINT = ignore := by
  constructor
  · intro h
    rw [← h.sigint, Process.disp_sigaction_self]
  · intro h
    exact ⟨by rw [Process.disp_sigaction_self, h], Process.disp_sigaction_of_ne p (by decide), rfl⟩

theorem restored_ignore_both : Restored p ((p.sigaction SIGINT ignore).sigaction SIGQUIT ignore) ↔
    p.disp SIGINT = ignore ∧ p.disp SIGQUIT = ignore := by
  have hsigint : ((p.sigaction SIGINT ignore).sigaction SIGQUIT ignore).disp SIGINT = ignore := by
    rw [Process.disp_sigaction_of_ne _ (by decide), Process.disp_sigaction_self]
  constructor
  · intro h
    exact ⟨h.sigint.symm.trans hsigint, h.sigquit.symm.trans (Process.disp_sigaction_self _)⟩
  · intro h
    exact ⟨hsigint.trans h.1.symm, (Process.disp_sigaction_self _).trans h.2.symm, rfl⟩

theorem restored_set {act act' : Sigaction H} :
    Restored p (((q.sigaction SIGINT act).sigaction SIGQUIT act').setMask p.mask) ↔
      act = p.disp SIGINT ∧ act' = p.disp SIGQUIT := by
  have hsigint : (((q.sigaction SIGINT act).sigaction SIGQUIT act').setMask p.mask).disp SIGINT = act := by
    rw [Process.disp_setMask, Process.disp_sigaction_of_ne _ (by decide), Process.disp_sigaction_self]
  have hsigquit : (((q.sigaction SIGINT act).sigaction SIGQUIT act').setMask p.mask).disp SIGQUIT = act' := by
    rw [Process.disp_setMask, Process.disp_sigaction_self]
  constructor
  · intro h
    exact ⟨hsigint.symm.trans h.sigint, hsigquit.symm.trans h.sigquit⟩
  · intro h
    exact ⟨hsigint.trans h.1, hsigquit.trans h.2, rfl⟩

theorem ends_iff : (afterFork o.fork (waitLoop (· ≠ EINTR) o.waits)).isSome = true ↔ o.Ends := by
  unfold afterFork Outcomes.Ends
  cases o.fork with
  | false => simp
  | true => simpa using waitLoop_isSome_iff o.waits

theorem right_forked (r : Option Waited) : Right p
    { caller := r.map fun w => (w, ((q.sigaction SIGINT (p.disp SIGINT)).sigaction SIGQUIT (p.disp SIGINT)).setMask
        p.mask)
      child := if o.fork then
          some (((q.fork.sigaction SIGINT (p.disp SIGINT)).sigaction SIGQUIT (p.disp SIGQUIT)).setMask p.mask)
        else none } ↔ (r.isSome = true → p.disp SIGQUIT = p.disp SIGINT) := by
  constructor
  · intro h hr
    obtain ⟨w, rfl⟩ := Option.isSome_iff_exists.1 hr
    exact (restored_set.1 (h.caller w _ rfl)).2.symm
  · intro h
    refine ⟨fun w q' hq => ?_, fun q' hq => ?_⟩
    · obtain ⟨w', rfl, hw⟩ := Option.map_eq_some_iff.1 hq
      obtain ⟨-, rfl⟩ := Prod.mk.inj hw
      exact restored_set.2 ⟨rfl, (h rfl).symm⟩
    · split at hq
      · cases hq
        exact restored_set.2 ⟨rfl, rfl⟩
      · cases hq

/-- When the signals of the caller are what they were, and those of the child. -/
theorem mysystem2_iff (p : Process H) (cmdstring : Option CStr) (o : Outcomes) :
    Right p (mysystem2 p cmdstring o) ↔ Unseen p cmdstring o := by
  unfold mysystem2 Unseen
  cases cmdstring with
  | none => simp [right_early, Restored.refl]
  | some cmdstring =>
    by_cases hsigint : o.sigint = false
    · simp [hsigint, right_early, Restored.refl]
    by_cases hsigquit : o.sigquit = false
    · simp [hsigint, hsigquit, right_early, restored_ignore_sigint]
    by_cases hsigprocmask : o.sigprocmask = false
    · simp [hsigint, hsigquit, hsigprocmask, right_early, restored_ignore_both]
    have hsavequit : (p.sigaction SIGINT ignore).disp SIGQUIT = p.disp SIGQUIT :=
      Process.disp_sigaction_of_ne p (by decide)
    simp only [hsigint, hsigquit, hsigprocmask, if_false, hsavequit, Process.mask_sigaction, right_forked, ends_iff,
      reduceCtorEq, false_or]

end restore

/-- `SIGINT` is caught and `SIGQUIT` is not; afterwards `SIGQUIT` is caught too. -/
theorem mysystem2_takes_sigquit : ∃ p : Process Unit,
    p.disp SIGINT = ⟨.fn (), ∅, 0⟩ ∧ p.disp SIGQUIT = ⟨.dfl, ∅, 0⟩ ∧
      ¬ Right p (mysystem2 p (some (.ofBuf (ascii "./getppid"))) ⟨true, true, true, true, [.status 0]⟩) := by
  refine ⟨⟨Function.update (fun _ => ⟨.dfl, ∅, 0⟩) SIGINT ⟨.fn (), ∅, 0⟩, ∅, ∅⟩, rfl, rfl, fun h => ?_⟩
  have hsigquit := (h.caller _ _ rfl).sigquit
  cases hsigquit

end Apue.System

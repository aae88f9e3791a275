import Apue.Threads.FooTableRun

/-!
# The two levels of locks of the hash table

`hashlock` comes before every `f_lock`: a thread that has locked an object waits for nothing, and a
thread that holds `hashlock` waits at most for an object. So the threads never all wait for each
other, nobody locks a mutex twice, and nobody unlocks what it does not hold.

`Pc.locks` and `Pc.unlocks` name the mutex a program point locks or unlocks; `move_holder` says that
no other statement touches a mutex.
-/

namespace Apue.FooTable
open Threads Transition

/-- A mutex of the program. -/
inductive Mtx where
  | hashlock
  | fLock (fp : ℕ)
  deriving DecidableEq

/-- `hashlock` first, then the locks of the objects. -/
def Mtx.rank : Mtx → ℕ
  | .hashlock => 0
  | .fLock _ => 1

/-- The mutex that the statement at this program point locks. -/
@[simp] def Pc.locks : Pc → Option Mtx
  | .allocHash _ _ | .findHash _ | .relHash _ => some .hashlock
  | .allocLock fp | .holdLock fp _ | .relLock fp | .relLock2 fp => some (.fLock fp)
  | _ => none

/-- The mutex that the statement at this program point unlocks. -/
@[simp] def Pc.unlocks : Pc → Option Mtx
  | .allocUnhash _ | .findUnhash _ | .relUnhash _ | .decUnhash => some .hashlock
  | .allocUnlock fp | .holdUnlock fp _ | .relUnlock fp | .relUnlock2 fp | .decUnlock fp _ =>
    some (.fLock fp)
  | _ => none

/-- The mutexes that a thread at this program point has locked. -/
def Pc.Holds (p : Pc) : Mtx → Prop
  | .hashlock => p.holdsHash = true
  | .fLock fp => p.holdsFoo = some fp

theorem Pc.holds_of_unlocks {p : Pc} {m : Mtx} (h : p.unlocks = some m) : p.Holds m := by
  cases p <;> simp at h <;> subst h <;> simp [Pc.Holds]

theorem Pc.rank_lt_of_locks {p : Pc} {m n : Mtx} (hm : p.Holds m) (hn : p.locks = some n) :
    m.rank < n.rank := by
  cases p <;> simp at hn <;> subst hn <;> cases m <;> simp [Pc.Holds] at hm <;> simp [Mtx.rank]

section run
variable {T : Type*}

/-- Who holds a mutex. -/
def Machine.holder {P : Type*} (s : Machine T P) : Mtx → Mutex T
  | .hashlock => s.hashlock
  | .fLock fp => s.fLock fp

theorem Locks.holder {s : State T} (h : Locks s) (m : Mtx) (t : T) :
    s.holder m = some t ↔ (s.pc t).Holds m := by
  cases m with
  | hashlock => exact h.hash t
  | fLock fp => exact h.foo t fp

theorem Locks.ordered {s : State T} (h : Locks s) :
    Ordered s.holder (fun t => (s.pc t).locks) Mtx.rank := fun m _ t hheld hw =>
  Pc.rank_lt_of_locks ((h.holder m t).mp hheld) hw

variable [DecidableEq T] {s s' : State T} {t : T} {p : Pc}

/-! ### What a statement does with the mutexes -/

omit [DecidableEq T] in
theorem access_isSome {fp : ℕ} {next : Option (State T)} (h : next.isSome) :
    (s.access fp next).isSome := by
  unfold Machine.access
  split
  · exact h
  · rfl

theorem lockHash_isSome (h : s.hashlock = none) : (s.lockHash t p).isSome := by
  simp [Machine.lockHash, h, Mutex.lock]

theorem lockFoo_isSome {fp : ℕ} (h : s.fLock fp = none) : (s.lockFoo t fp p).isSome :=
  access_isSome (by simp [h, Mutex.lock])

/-- A statement waits only for the mutex it locks. -/
theorem move_isSome (hp : p ≠ .idle) (hfree : ∀ m, p.locks = some m → s.holder m = none) :
    (s.move t p).isSome := by
  cases p with
  | idle => exact absurd rfl hp
  | allocHash | findHash | relHash => exact lockHash_isSome (hfree .hashlock rfl)
  | allocLock fp | holdLock fp | relLock fp | relLock2 fp => exact lockFoo_isSome (hfree (.fLock fp) rfl)
  | allocUnhash | findUnhash | relUnhash | decUnhash => rfl
  | allocHead | findHead => rfl
  | findTest id fp =>
    cases fp with
    | none => rfl
    | some fp => exact access_isSome rfl
  | relCmp fp idx tfp =>
    simp only [State.move]
    split
    · exact access_isSome rfl
    · rfl
  | relWalk fp tfp =>
    cases tfp with
    | none => rfl
    | some tfp =>
      apply access_isSome
      split
      · exact access_isSome rfl
      · rfl
  | _ => exact access_isSome rfl

omit [DecidableEq T] in
theorem access_holder {fp : ℕ} {next : Option (State T)} {m : Mtx}
    (hnext : ∀ r, next = some r → r.holder m = s.holder m) (hs : s.access fp next = some s') :
    s'.holder m = s.holder m := by
  unfold Machine.access at hs
  split at hs
  · exact hnext s' hs
  · obtain rfl := Option.some.inj hs
    cases m <;> rfl

theorem goto_holder {d : Data T} (m : Mtx) : (s.goto t d p).holder m = s.holder m := by
  cases m <;> rfl

theorem access_goto_holder {fp : ℕ} {d : Data T} {m : Mtx}
    (hs : s.access fp (some (s.goto t d p)) = some s') : s'.holder m = s.holder m :=
  access_holder (fun _ hr => Option.some.inj hr ▸ goto_holder m) hs

theorem lockHash_holder (hs : s.lockHash t p = some s') (m : Mtx) :
    s'.holder m = if m = .hashlock then some t else s.holder m := by
  obtain ⟨l, hl, rfl⟩ := Option.map_eq_some_iff.mp hs
  cases m with
  | hashlock => exact (Mutex.lock_eq_some.mp hl).2
  | fLock fp => rfl

theorem unlockHash_holder (hs : s.unlockHash t p = some s') (m : Mtx) :
    s'.holder m = if m = .hashlock then none else s.holder m := by
  obtain rfl := Option.some.inj hs
  cases m <;> rfl

/-- A statement touches only the mutex it locks or unlocks. -/
theorem move_holder {m : Mtx} (hlock : p.locks ≠ some m) (hunlock : p.unlocks ≠ some m)
    (hs : s.move t p = some s') : s'.holder m = s.holder m := by
  cases p with
  | idle => cases hs
  | allocHash | findHash | relHash =>
    rw [lockHash_holder hs, if_neg]
    rintro rfl
    exact hlock rfl
  | allocUnhash | findUnhash | relUnhash | decUnhash =>
    rw [unlockHash_holder hs, if_neg]
    rintro rfl
    exact hunlock rfl
  | allocLock fp | holdLock fp | relLock fp | relLock2 fp =>
    refine access_holder (fun r hr => ?_) hs
    obtain ⟨l, hl, rfl⟩ := Option.map_eq_some_iff.mp hr
    cases m with
    | hashlock => rfl
    | fLock fp' =>
      apply Function.update_of_ne
      rintro rfl
      exact hlock rfl
  | allocUnlock fp | holdUnlock fp | relUnlock fp | relUnlock2 fp | decUnlock fp =>
    refine access_holder (fun r hr => ?_) hs
    obtain rfl := Option.some.inj hr
    cases m with
    | hashlock => rfl
    | fLock fp' =>
      apply Function.update_of_ne
      rintro rfl
      exact hunlock rfl
  | allocHead | findHead => exact Option.some.inj hs ▸ goto_holder m
  | findTest id fp =>
    cases fp with
    | none => exact Option.some.inj hs ▸ goto_holder m
    | some fp => exact access_goto_holder hs
  | relCmp fp idx tfp =>
    simp only [State.move] at hs
    split at hs
    · exact access_goto_holder hs
    · exact Option.some.inj hs ▸ goto_holder m
  | relWalk fp tfp =>
    cases tfp with
    | none =>
      obtain rfl := Option.some.inj hs
      cases m <;> rfl
    | some tfp =>
      refine access_holder (fun r hr => ?_) hs
      split at hr
      · exact access_goto_holder hr
      · exact Option.some.inj hr ▸ goto_holder m
  | _ => exact access_goto_holder hs

/-! ### Every run -/

/-- When some thread is inside a function, some thread that is inside one can go on. -/
def Progress (s : State T) : Prop :=
  (∃ t, s.pc t ≠ .idle) → ∃ t, s.pc t ≠ .idle ∧ (step s (.move t)).isSome

/-- No thread is about to lock a mutex it holds or to unlock one it does not hold. -/
def LocksRight (s : State T) : Prop :=
  ∀ t m, ((s.pc t).locks = some m → s.holder m ≠ some t) ∧ ((s.pc t).unlocks = some m → s.holder m = some t)

theorem Pc.ne_idle_of_holds {m : Mtx} (h : p.Holds m) : p ≠ .idle := by
  rintro rfl
  cases m <;> simp [Pc.Holds] at h

theorem Locks.progress (h : Locks s) (hfault : s.fault = false) : Progress s := by
  rintro ⟨t, ht⟩
  have hrank : ∀ m : Mtx, m.rank ≤ 1 := fun m => by cases m <;> simp [Mtx.rank]
  obtain ⟨u, hu, hfree⟩ := h.ordered.exists_unblocked hrank t
  have hidle : s.pc u ≠ .idle := by
    obtain rfl | ⟨m, hm⟩ := hu
    · exact ht
    · exact Pc.ne_idle_of_holds ((h.holder m u).mp hm)
  refine ⟨u, hidle, ?_⟩
  simp only [step, hfault, if_true]
  exact move_isSome hidle hfree

omit [DecidableEq T] in
theorem Locks.right (h : Locks s) : LocksRight s := fun t m =>
  ⟨h.ordered.not_held (t := t), fun hu => (h.holder m t).mpr (Pc.holds_of_unlocks hu)⟩

/-- As long as no object gets more references than an `int` counts, some thread can go on, if any is inside a
function, and mutexes are locked and unlocked only by threads that may. -/
theorem foo_table_deadlock_free [Fintype T] (mem : ℕ → Foo) (as : List (Act T)) (s : State T)
    (hroom : Meets step (Room Pc.adds) (start mem) as) (hrun : run step (start mem) as = some s) :
    Progress s ∧ LocksRight s := by
  have hinv : Inv s := inv_run mem hroom hrun
  exact ⟨hinv.locks.progress hinv.noFault, hinv.locks.right⟩

end run

/-- Thread 1 has locked the object thread 0 wants to release, and thread 2 waits for `hashlock`, which
thread 1 holds. -/
def contended : List (Act (Fin 3)) :=
  .alloc 0 7 true true :: List.replicate 6 (.move 0) ++ .find 1 7 :: List.replicate 4 (.move 1) ++
    [.release 0 0, .find 2 7]

theorem foo_table_deadlock_free_contended : ∃ s, run step (start fun _ => ⟨0, 0, none⟩) contended = some s ∧
    (s.hashlock, s.fLock 0, s.pc 0, s.pc 2) = (some 1, some 1, .relLock 0, .findHash 7) ∧
    Progress s ∧ LocksRight s := by
  have hroom : Meets step (Room Pc.adds) (start fun _ => ⟨0, 0, none⟩) contended := by decide +kernel
  exact ⟨_, rfl, rfl, foo_table_deadlock_free (fun _ => ⟨0, 0, none⟩) contended _ hroom rfl⟩

/-- With 2 ^ 32 + 1 references `f_count` is 1 again: `foo_release` frees the object, and the next `foo_hold` is
stuck with the mutex in it. -/
theorem foo_table_stuck : ∃ s : State Unit, Reaches step (start fun _ => ⟨0, 0, none⟩) s ∧
    s.refs 0 = 2 ^ 32 ∧ s.pc () = .holdLock 0 false ∧ ¬ Progress s := by
  refine ⟨_, Reaches.trans ⟨allocated (), rfl⟩ (Reaches.trans
    (hold_reaches () 0 rfl rfl rfl (by decide) (by decide) (2 ^ 32))
    ⟨.release () 0 :: List.replicate 11 (.move ()) ++ [.hold () 0, .move ()], rfl⟩), ?_, ?_, ?_⟩
  · decide +kernel
  · decide +kernel
  · rintro hprogress
    obtain ⟨_, -, hstep⟩ := hprogress ⟨(), by decide⟩
    cases hstep

end Apue.FooTable

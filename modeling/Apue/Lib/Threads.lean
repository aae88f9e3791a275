import Mathlib.Algebra.BigOperators.Group.Finset.Basic
import Mathlib.Algebra.Order.BigOperators.Group.Finset
import Mathlib.Data.Fintype.BigOperators

/-!
# Threads and their locks

Shared state for any number of threads: `T` is a finite type of threads, and what belongs to a
thread is a function on `T`, changed at one thread by `Function.update`.

* `sum_update`: how a sum over all threads changes when one of them does; `le_sum` and `add_le_sum`:
  one thread's part, and two threads' parts, are at most the sum.
* `Mutex`: a non-recursive mutex is its owner. `Mutex.Guards`: the owner is the thread inside the
  critical section, kept by every move that locks, unlocks or does neither.
* `Ordered`, `Ordered.exists_unblocked`: threads that take mutexes only in the order of a bounded rank
  never all wait for each other.
* `RwLock`: a reader/writer lock is the number of readers and whether a writer holds it.
-/

namespace Threads

variable {T : Type*} [DecidableEq T]

theorem sum_update [Fintype T] {β : Type*} (pc : T → β) (t : T) (p : β) (g : β → ℕ) :
    ∑ x, g (Function.update pc t p x) + g (pc t) = ∑ x, g (pc x) + g p := by
  rw [← Finset.add_sum_erase _ _ (Finset.mem_univ t),
    ← Finset.add_sum_erase _ (fun x => g (pc x)) (Finset.mem_univ t), Function.update_self]
  have hrest : ∑ x ∈ Finset.univ.erase t, g (Function.update pc t p x) =
      ∑ x ∈ Finset.univ.erase t, g (pc x) :=
    Finset.sum_congr rfl fun x hx => by rw [Function.update_of_ne (Finset.ne_of_mem_erase hx)]
  rw [hrest]
  omega

omit [DecidableEq T] in
theorem le_sum [Fintype T] (f : T → ℕ) (t : T) : f t ≤ ∑ x, f x :=
  Finset.single_le_sum (fun _ _ => Nat.zero_le _) (Finset.mem_univ t)

theorem add_le_sum [Fintype T] (f : T → ℕ) {t t' : T} (h : t ≠ t') : f t + f t' ≤ ∑ x, f x := by
  rw [← Finset.add_sum_erase _ _ (Finset.mem_univ t)]
  refine Nat.add_le_add_left (Finset.single_le_sum (fun _ _ => Nat.zero_le _) ?_) _
  exact Finset.mem_erase.mpr ⟨h.symm, Finset.mem_univ t'⟩

/-! ### Mutexes -/

/-- A non-recursive mutex: its owner, if somebody holds it. -/
abbrev Mutex (T : Type*) := Option T

/-- Locked by `t`, if nobody holds it. -/
def Mutex.lock {T : Type*} (m : Mutex T) (t : T) : Option (Mutex T) :=
  match m with
  | none => some (some t)
  | some _ => none

theorem Mutex.lock_eq_some {T : Type*} {m m' : Mutex T} {t : T} :
    m.lock t = some m' ↔ m = none ∧ m' = some t := by
  cases m <;> simp [Mutex.lock, eq_comm]

/-- The owner of the mutex is the thread that is inside; `pc` is where each thread is. -/
def Mutex.Guards {T P : Type*} (m : Mutex T) (inside : P → Bool) (pc : T → P) : Prop :=
  ∀ t, m = some t ↔ inside (pc t) = true

section guards
variable {P : Type*} {m m' : Mutex T} {inside : P → Bool} {pc : T → P} {t u : T} {p : P}

omit [DecidableEq T] in
theorem Mutex.Guards.unique (h : m.Guards inside pc) (ht : inside (pc t) = true)
    (hu : inside (pc u) = true) : t = u :=
  Option.some.inj (((h t).mpr ht).symm.trans ((h u).mpr hu))

theorem Mutex.Guards.goto (h : m.Guards inside pc) (hp : inside p = inside (pc t)) :
    m.Guards inside (Function.update pc t p) := by
  intro u
  by_cases hu : u = t
  · subst hu
    rw [Function.update_self, hp, h]
  · rw [Function.update_of_ne hu, h]

theorem Mutex.Guards.lock (h : m.Guards inside pc) (hlock : m.lock t = some m') (hp : inside p = true) :
    m'.Guards inside (Function.update pc t p) := by
  obtain ⟨rfl, rfl⟩ := Mutex.lock_eq_some.mp hlock
  intro u
  by_cases hu : u = t
  · subst hu
    simp [hp]
  · rw [Function.update_of_ne hu, ← h u]
    simp [Ne.symm hu]

theorem Mutex.Guards.unlock (h : m.Guards inside pc) (ht : inside (pc t) = true) (hp : inside p = false) :
    Mutex.Guards none inside (Function.update pc t p) := by
  intro u
  by_cases hu : u = t
  · subst hu
    simp [hp]
  · rw [Function.update_of_ne hu]
    simp only [reduceCtorEq, false_iff]
    exact fun hin => hu (h.unique hin ht)

end guards

/-! ### Lock order -/

section order
variable {T M : Type*} {holder : M → Mutex T} {wants : T → Option M} {rank : M → ℕ}

/-- A thread that holds a mutex only wants mutexes of a higher rank. -/
def Ordered (holder : M → Mutex T) (wants : T → Option M) (rank : M → ℕ) : Prop :=
  ∀ m n t, holder m = some t → wants t = some n → rank m < rank n

theorem Ordered.not_held (h : Ordered holder wants rank) {t : T} {m : M} (hw : wants t = some m) :
    holder m ≠ some t := fun hheld => Nat.lt_irrefl _ (h m m t hheld hw)

/-- Going from a holder that waits to the holder of what it waits for ends, because ranks rise. -/
theorem Ordered.exists_unblocked_holder (h : Ordered holder wants rank) {bound : ℕ}
    (hbound : ∀ m, rank m ≤ bound) (k : ℕ) {t : T} {m : M} (hheld : holder m = some t)
    (hk : bound ≤ rank m + k) :
    ∃ u, (∃ n, holder n = some u) ∧ ∀ n, wants u = some n → holder n = none := by
  induction k generalizing t m with
  | zero =>
    refine ⟨t, ⟨m, hheld⟩, fun n hn => ?_⟩
    have hlt := h m n t hheld hn
    have hle := hbound n
    omega
  | succ k ih =>
    by_cases hfree : ∀ n, wants t = some n → holder n = none
    · exact ⟨t, ⟨m, hheld⟩, hfree⟩
    · push Not at hfree
      obtain ⟨n, hn, hheld'⟩ := hfree
      obtain ⟨u, hu⟩ := Option.ne_none_iff_exists'.mp hheld'
      have hlt := h m n t hheld hn
      exact ih hu (by omega)

/-- Whatever thread one starts from, it or some holder of a mutex need not wait. -/
theorem Ordered.exists_unblocked (h : Ordered holder wants rank) {bound : ℕ}
    (hbound : ∀ m, rank m ≤ bound) (t : T) :
    ∃ u, (u = t ∨ ∃ n, holder n = some u) ∧ ∀ n, wants u = some n → holder n = none := by
  by_cases hfree : ∀ n, wants t = some n → holder n = none
  · exact ⟨t, Or.inl rfl, hfree⟩
  · push Not at hfree
    obtain ⟨n, -, hheld⟩ := hfree
    obtain ⟨u, hu⟩ := Option.ne_none_iff_exists'.mp hheld
    obtain ⟨v, hv, hvfree⟩ := h.exists_unblocked_holder hbound bound hu (Nat.le_add_left _ _)
    exact ⟨v, Or.inr hv, hvfree⟩

end order

/-! ### Reader/writer locks -/

/-- A reader/writer lock. -/
structure RwLock where
  readers : ℕ
  writer : Bool
  deriving DecidableEq, Repr

namespace RwLock

/-- Nobody holds the lock. -/
def Free (l : RwLock) : Prop := l.readers = 0 ∧ l.writer = false

instance (l : RwLock) : Decidable l.Free := inferInstanceAs (Decidable (_ ∧ _))

/-- Taken for reading, unless a writer holds the lock. -/
def rdlock (l : RwLock) : Option RwLock :=
  if l.writer then none else some { l with readers := l.readers + 1 }

/-- Taken for writing, if nobody holds the lock. -/
def wrlock (l : RwLock) : Option RwLock :=
  if l.Free then some { l with writer := true } else none

/-- Given back by its writer, or by one of its readers. -/
def unlock (l : RwLock) : RwLock :=
  if l.writer then { l with writer := false } else { l with readers := l.readers - 1 }

theorem rdlock_eq_some {l l' : RwLock} :
    l.rdlock = some l' ↔ l.writer = false ∧ l' = ⟨l.readers + 1, false⟩ := by
  obtain ⟨r, w⟩ := l
  cases w <;> simp [rdlock, eq_comm]

theorem wrlock_eq_none {l : RwLock} (h : l.readers ≠ 0) : l.wrlock = none := by
  simp [wrlock, Free, h]

theorem unlock_reader {l : RwLock} (h : l.writer = false) : l.unlock = ⟨l.readers - 1, false⟩ := by
  obtain ⟨r, w⟩ := l
  cases h
  simp [unlock]

end RwLock

end Threads

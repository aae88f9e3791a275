import Mathlib.Data.List.Range
import Mathlib.Data.Option.Basic
import Mathlib.Logic.Function.Basic
import Mathlib.Order.Basic

/-!
# Descriptor tables

A process's descriptors are a function from numbers to open files `F`.

* `close`, `put`, `dup2`: one entry changed; `closeAll`: every entry of a list closed.
* `lowest lim`: the lowest free number below the limit, which `openAt` and `pipe` use; `pipe_eq_some`
  says where the two ends of a pipe come.
-/

namespace Descriptors

/-- What each descriptor is open on, if anything. -/
abbrev Table (F : Type*) := ℕ → Option F

namespace Table
variable {F : Type*}

def close (t : Table F) (fd : ℕ) : Table F := Function.update t fd none

def put (t : Table F) (fd : ℕ) (f : F) : Table F := Function.update t fd (some f)

/-- `fd'` made a copy of `fd`; nothing happens when `fd` is not open. -/
def dup2 (t : Table F) (fd fd' : ℕ) : Table F :=
  match t fd with
  | none => t
  | some f => t.put fd' f

def closeAll (t : Table F) (fds : List ℕ) : Table F := fds.foldl close t

/-- The lowest number below `lim` that is not open. -/
def lowest (t : Table F) (lim : ℕ) : Option ℕ := (List.range lim).find? fun fd => (t fd).isNone

/-- A new descriptor, the lowest one there is. -/
def openAt (t : Table F) (lim : ℕ) (f : F) : Option (ℕ × Table F) :=
  (t.lowest lim).map fun fd => (fd, t.put fd f)

/-- Two new descriptors, the two ends of a pipe. -/
def pipe (t : Table F) (lim : ℕ) (r w : F) : Option (ℕ × ℕ × Table F) :=
  match t.openAt lim r with
  | none => none
  | some (fd, t') =>
    match t'.openAt lim w with
    | none => none
    | some (fd', t'') => some (fd, fd', t'')

/-! ### Entry by entry -/

section entries
variable (t : Table F) {fd fd' : ℕ} {f : F}

@[simp] theorem close_self : t.close fd fd = none := Function.update_self ..

theorem close_of_ne (h : fd' ≠ fd) : t.close fd fd' = t fd' := Function.update_of_ne h ..

@[simp] theorem put_self : t.put fd f fd = some f := Function.update_self ..

theorem put_of_ne (h : fd' ≠ fd) : t.put fd f fd' = t fd' := Function.update_of_ne h ..

theorem dup2_self (h : t fd = some f) : t.dup2 fd fd' fd' = some f := by
  simp [dup2, h]

theorem dup2_of_ne {fd'' : ℕ} (h : fd'' ≠ fd') : t.dup2 fd fd' fd'' = t fd'' := by
  cases hfd : t fd with
  | none => simp [dup2, hfd]
  | some f =>
    simp only [dup2, hfd]
    exact t.put_of_ne h

theorem close_put (h : t fd = none) : (t.put fd f).close fd = t := by
  rw [close, put, Function.update_idem, ← h, Function.update_eq_self]

theorem dup2_close_apply (h : t fd = some f) (hne : fd ≠ fd') (i : ℕ) :
    ((t.dup2 fd fd').close fd) i = if i = fd' then some f else if i = fd then none else t i := by
  by_cases hi : i = fd'
  · rw [if_pos hi, hi, close_of_ne _ (Ne.symm hne), t.dup2_self h]
  · rw [if_neg hi]
    by_cases hfd : i = fd
    · rw [if_pos hfd, hfd, close_self]
    · rw [if_neg hfd, close_of_ne _ hfd, t.dup2_of_ne hi]

theorem closeAll_apply (fds : List ℕ) : t.closeAll fds fd = if fd ∈ fds then none else t fd := by
  induction fds generalizing t with
  | nil => rfl
  | cons a fds ih =>
    show (t.close a).closeAll fds fd = _
    rw [ih]
    by_cases hmem : fd ∈ fds
    · simp [hmem]
    · by_cases ha : fd = a
      · simp [ha]
      · simp [hmem, ha, close_of_ne]

end entries

/-! ### The lowest free descriptor -/

section lowest
variable {t : Table F} {lim fd : ℕ}

theorem lowest_eq_some : t.lowest lim = some fd ↔ fd < lim ∧ t fd = none ∧ ∀ i < fd, t i ≠ none := by
  unfold lowest
  rw [List.find?_range_eq_some]
  simp [Option.isNone_iff_eq_none, and_left_comm, Option.isSome_iff_ne_none]

theorem openAt_eq_some {f : F} {t' : Table F} :
    t.openAt lim f = some (fd, t') ↔ t.lowest lim = some fd ∧ t' = t.put fd f := by
  unfold openAt
  cases hlow : t.lowest lim with
  | none => simp
  | some fd' =>
    simp only [Option.map_some, Option.some.injEq, Prod.mk.injEq]
    constructor
    · rintro ⟨rfl, rfl⟩
      exact ⟨rfl, rfl⟩
    · rintro ⟨rfl, rfl⟩
      exact ⟨rfl, rfl⟩

/-- The first end of a pipe gets the lower number, and what lies between the two is taken. -/
theorem pipe_eq_some {r w : F} {fd' : ℕ} {t' : Table F} (h : t.pipe lim r w = some (fd, fd', t')) :
    t fd = none ∧ t fd' = none ∧ fd < fd' ∧ fd' < lim ∧ t' = (t.put fd r).put fd' w ∧
      ∀ i < fd', i ≠ fd → t i ≠ none := by
  unfold pipe at h
  cases hr : t.openAt lim r with
  | none => simp [hr] at h
  | some x =>
    obtain ⟨a, u⟩ := x
    simp only [hr] at h
    cases hw : u.openAt lim w with
    | none => simp [hw] at h
    | some y =>
      obtain ⟨b, v⟩ := y
      simp only [hw, Option.some.injEq, Prod.mk.injEq] at h
      obtain ⟨rfl, rfl, rfl⟩ := h
      obtain ⟨hlow, rfl⟩ := openAt_eq_some.mp hr
      obtain ⟨hlow', rfl⟩ := openAt_eq_some.mp hw
      obtain ⟨hlt, hfree, hbelow⟩ := lowest_eq_some.mp hlow
      obtain ⟨hlt', hfree', hbelow'⟩ := lowest_eq_some.mp hlow'
      have hne : b ≠ a := by
        rintro rfl
        simp at hfree'
      rw [put_of_ne _ hne] at hfree'
      have hab : a < b := by
        by_contra hle
        exact hbelow b (by omega) hfree'
      refine ⟨hfree, hfree', hab, hlt', rfl, fun i hi hia => ?_⟩
      have htaken := hbelow' i hi
      rwa [put_of_ne _ hia] at htaken

end lowest

end Table

end Descriptors

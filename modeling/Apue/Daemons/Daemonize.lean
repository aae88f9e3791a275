import Apue.Daemons.AlreadyRunning
import Apue.Lib.Descriptors

/-!
# Becoming a daemon (Chapter-13/13-1.c)

`daemonize` runs in up to three processes: the caller, the child of its first `fork` and the child of
that one. `fork` is written with what comes after it as a continuation, so the result of a call is the
list of all processes it ends up in and how each of them ends.

The second `fork` lets the wrong process exit: `pid == 0` is the child, so the session leader that called
`setsid` goes on. `daemonize_of_forks` says who returns and with which descriptors;
`daemonized_iff` says that this is never a proper daemon.
-/

namespace Apue.Daemons.Daemonize
open Descriptors

variable {F : Type*}

/-- What `daemonize` reads and changes of a process. -/
structure Proc (F : Type*) where
  pid : ℕ
  /-- The session, named by its leader. -/
  sid : ℕ
  fds : Table F
  umask : ℕ
  cwd : String
  ignoresHup : Bool

def Proc.Leader (p : Proc F) : Prop := p.sid = p.pid

/-- `RLIMIT_NOFILE`; `max` is `none` for `RLIM_INFINITY`. -/
structure RLimit where
  cur : ℕ
  max : Option ℕ
  le : ∀ m, max = some m → cur ≤ m

/-- How a process ends in `daemonize`. -/
inductive End (F : Type*) where
  | returned (p : Proc F)
  | exited (p : Proc F) (status : ℕ)

def End.returned? : End F → Option (Proc F)
  | .returned p => some p
  | .exited _ _ => none

/-- The rest of the program runs in the parent with the child's pid and in the child with 0, or in the
parent alone with -1 when there is no child. -/
def fork (child : Option Pid) (p : Proc F) (rest : ℤ → Proc F → List (End F)) : List (End F) :=
  match child with
  | none => rest (-1) p
  | some pid => rest pid.val p ++ rest 0 { p with pid := pid.val }

def setsid (p : Proc F) : Proc F := { p with sid := p.pid }

/-- How many descriptors are closed. -/
def RLimit.toClose (rl : RLimit) : ℕ := rl.max.getD 1024

def closeAll (rl : RLimit) (p : Proc F) : Proc F :=
  { p with fds := p.fds.closeAll (List.range rl.toClose) }

/-- `open`, or -1. -/
def openFile (rl : RLimit) (f : F) (t : Table F) : ℤ × Table F :=
  match t.openAt rl.cur f with
  | none => (-1, t)
  | some (fd, t') => (fd, t')

/-- `dup`, or -1. -/
def dup (rl : RLimit) (fd : ℕ) (t : Table F) : ℤ × Table F :=
  match t fd with
  | none => (-1, t)
  | some f => openFile rl f t

/-- What is left of `daemonize` after `chdir`. -/
def reopen (rl : RLimit) (null : F) (p : Proc F) : List (End F) :=
  let p := closeAll rl p
  let fd0 := openFile rl null p.fds
  let fd1 := dup rl 0 fd0.2
  let fd2 := dup rl 0 fd1.2
  let p := { p with fds := fd2.2 }
  if fd0.1 ≠ 0 ∨ fd1.1 ≠ 1 ∨ fd2.1 ≠ 2 then [.exited p 1] else [.returned p]

/-- `daemonize`, with the outcomes of its two `fork` calls; `null` is `/dev/null`. -/
def daemonize (rl : RLimit) (null : F) (fork1 fork2 : Option Pid) (p : Proc F) : List (End F) :=
  fork fork1 { p with umask := 0 } fun pid p =>
    if pid < 0 then [.exited p 1]
    else if pid ≠ 0 then [.exited p 0]
    else
      fork fork2 { setsid p with ignoresHup := true } fun pid p =>
        if pid < 0 then [.exited p 1]
        else if pid = 0 then [.exited p 0]
        else reopen rl null { p with cwd := "/" }

/-! ### The descriptors -/

/-- 0, 1 and 2 on `/dev/null`; above them what was not closed. -/
def nullTable (rl : RLimit) (null : F) (t : Table F) : Table F := fun fd =>
  if fd < 3 then some null else if fd < rl.toClose then none else t fd

variable {rl : RLimit} {null f : F} {t : Table F} {fd : ℕ}

theorem RLimit.le_toClose (h : 3 ≤ rl.cur) : 3 ≤ rl.toClose := by
  unfold RLimit.toClose
  cases hmax : rl.max with
  | none => simp
  | some m =>
    have hle := rl.le m hmax
    rw [Option.getD_some]
    omega

theorem openFile_eq (hlt : fd < rl.cur) (hfree : t fd = none) (hbelow : ∀ i < fd, t i ≠ none) :
    openFile rl f t = ((fd : ℤ), t.put fd f) := by
  have hlow : t.openAt rl.cur f = some (fd, t.put fd f) :=
    Table.openAt_eq_some.mpr ⟨Table.lowest_eq_some.mpr ⟨hlt, hfree, hbelow⟩, rfl⟩
  simp only [openFile, hlow]

theorem openFile_lt (rl : RLimit) (f : F) (t : Table F) : (openFile rl f t).1 < rl.cur := by
  unfold openFile
  cases hopen : t.openAt rl.cur f with
  | none =>
    show (-1 : ℤ) < rl.cur
    omega
  | some x =>
    have hlow := (Table.openAt_eq_some.mp hopen).1
    exact Int.ofNat_lt.mpr (Table.lowest_eq_some.mp hlow).1

theorem dup_eq (h : t fd = some f) : dup rl fd t = openFile rl f t := by
  simp only [dup, h]

theorem dup_lt (rl : RLimit) (fd : ℕ) (t : Table F) : (dup rl fd t).1 < rl.cur := by
  unfold dup
  cases t fd with
  | none =>
    show (-1 : ℤ) < rl.cur
    omega
  | some f => exact openFile_lt rl f t

theorem reopen_of_le (h : 3 ≤ rl.cur) (null : F) (p : Proc F) :
    reopen rl null p = [.returned { p with fds := nullTable rl null p.fds }] := by
  have hclose := RLimit.le_toClose h
  have hfree : ∀ i < 3, p.fds.closeAll (List.range rl.toClose) i = none := by
    intro i hi
    rw [Table.closeAll_apply, if_pos (List.mem_range.mpr (by omega))]
  generalize ht : p.fds.closeAll (List.range rl.toClose) = t at hfree
  have h0 : openFile rl null t = (((0 : ℕ) : ℤ), t.put 0 null) :=
    openFile_eq (by omega) (hfree 0 (by omega)) fun i hi => by omega
  have h1 : dup rl 0 (t.put 0 null) = (((1 : ℕ) : ℤ), (t.put 0 null).put 1 null) := by
    rw [dup_eq (Table.put_self t)]
    refine openFile_eq (by omega) ?_ fun i hi => ?_
    · rw [Table.put_of_ne _ (by omega)]
      exact hfree 1 (by omega)
    · obtain rfl : i = 0 := by omega
      simp
  have h2 : dup rl 0 ((t.put 0 null).put 1 null) =
      (((2 : ℕ) : ℤ), ((t.put 0 null).put 1 null).put 2 null) := by
    have hzero : (t.put 0 null).put 1 null 0 = some null := by
      rw [Table.put_of_ne _ (by omega), Table.put_self]
    rw [dup_eq hzero]
    refine openFile_eq (by omega) ?_ fun i hi => ?_
    · rw [Table.put_of_ne _ (by omega), Table.put_of_ne _ (by omega)]
      exact hfree 2 (by omega)
    · obtain rfl | rfl : i = 0 ∨ i = 1 := by omega
      · rw [Table.put_of_ne _ (by omega), Table.put_self]
        simp
      · rw [Table.put_self]
        simp
  have htable : ((t.put 0 null).put 1 null).put 2 null = nullTable rl null p.fds := by
    funext i
    unfold nullTable
    split
    · obtain rfl | rfl | rfl : i = 0 ∨ i = 1 ∨ i = 2 := by omega
      · rw [Table.put_of_ne _ (by omega), Table.put_of_ne _ (by omega), Table.put_self]
      · rw [Table.put_of_ne _ (by omega), Table.put_self]
      · rw [Table.put_self]
    · rw [Table.put_of_ne _ (by omega), Table.put_of_ne _ (by omega), Table.put_of_ne _ (by omega), ← ht,
        Table.closeAll_apply]
      simp only [List.mem_range]
  simp only [reopen, closeAll, ht, h0, h1, h2, htable]
  rfl

theorem reopen_of_lt (h : rl.cur < 3) (null : F) (p : Proc F) : ∃ q, reopen rl null p = [.exited q 1] := by
  unfold reopen
  simp only
  rw [if_pos ?_]
  · exact ⟨_, rfl⟩
  · refine Or.inr (Or.inr fun htwo => ?_)
    have hlt := dup_lt rl 0 (dup rl 0 (openFile rl null (closeAll rl p).fds).2).2
    omega

/-! ### Who returns -/

variable {caller : Proc F} {fork1 fork2 : Option Pid}

/-- What `daemonize` is for: it returns at most once, in a process that leads no session, is in a new
one, and has exactly 0, 1 and 2 open, on `/dev/null`. -/
structure Daemonized (caller : Proc F) (null : F) (ends : List (End F)) : Prop where
  once : (ends.filterMap End.returned?).length ≤ 1
  notLeader : ∀ q, .returned q ∈ ends → ¬ q.Leader
  session : ∀ q, .returned q ∈ ends → q.sid ≠ caller.sid
  fds : ∀ q, .returned q ∈ ends → q.fds = fun fd => if fd < 3 then some null else none

theorem daemonized_of_exited {ends : List (End F)} (h : ∀ e ∈ ends, ∃ q status, e = .exited q status) :
    Daemonized caller null ends := by
  have hnone : ∀ q, .returned q ∉ ends := by
    intro q hq
    obtain ⟨_, _, he⟩ := h _ hq
    cases he
  refine ⟨?_, fun q hq => absurd hq (hnone q), fun q hq => absurd hq (hnone q),
    fun q hq => absurd hq (hnone q)⟩
  have hempty : ends.filterMap End.returned? = [] := by
    rw [List.filterMap_eq_nil_iff]
    intro e he
    obtain ⟨_, _, rfl⟩ := h e he
    rfl
  simp [hempty]

/-- The session leader, before it closes its descriptors. -/
def leader (caller : Proc F) (pid : Pid) : Proc F :=
  { pid := pid.val, sid := pid.val, fds := caller.fds, umask := 0, cwd := "/", ignoresHup := true }

theorem daemonize_of_forks (rl : RLimit) (null : F) (pid1 pid2 : Pid) (caller : Proc F) :
    daemonize rl null (some pid1) (some pid2) caller =
      .exited { caller with umask := 0 } 0 :: (reopen rl null (leader caller pid1) ++
        [.exited { leader caller pid1 with pid := pid2.val, cwd := caller.cwd } 0]) := by
  have h1 := pid1.pos
  have h2 := pid2.pos
  have hparent : ¬ (pid1.val : ℤ) < 0 ∧ (pid1.val : ℤ) ≠ 0 := by omega
  have hleader : ¬ (pid2.val : ℤ) < 0 ∧ (pid2.val : ℤ) ≠ 0 := by omega
  simp only [daemonize, fork, setsid, if_neg hparent.1, if_pos hparent.2, if_neg hleader.1,
    if_neg hleader.2]
  rfl

/-- It never leaves a proper daemon: the property holds only when nobody returns, that is when one of
the forks fails or there is no room for three descriptors. -/
theorem daemonized_iff (rl : RLimit) (null : F) (fork1 fork2 : Option Pid) (caller : Proc F) :
    Daemonized caller null (daemonize rl null fork1 fork2 caller) ↔
      fork1 = none ∨ fork2 = none ∨ rl.cur < 3 := by
  cases fork1 with
  | none =>
    refine iff_of_true (daemonized_of_exited ?_) (Or.inl rfl)
    simp [daemonize, fork]
  | some pid1 =>
    have h1 := pid1.pos
    cases fork2 with
    | none =>
      refine iff_of_true (daemonized_of_exited ?_) (Or.inr (Or.inl rfl))
      simp only [daemonize, fork]
      rw [if_neg (by omega), if_pos (by omega), if_neg (by omega), if_neg (by omega), if_pos (by omega)]
      simp
    | some pid2 =>
      rw [daemonize_of_forks]
      by_cases hcur : rl.cur < 3
      · obtain ⟨r, hr⟩ := reopen_of_lt hcur null (leader caller pid1)
        refine iff_of_true (daemonized_of_exited ?_) (Or.inr (Or.inr hcur))
        simp [hr]
      · refine iff_of_false (fun h => ?_) (by simp [hcur])
        rw [reopen_of_le (by omega)] at h
        refine h.notLeader _ (List.mem_cons_of_mem _ (List.mem_append_left _ List.mem_cons_self)) ?_
        rfl

/-- A caller with its terminal on 0, 1 and 2. -/
def shell : Proc String :=
  { pid := 100, sid := 90, fds := fun fd => if fd < 3 then some "/dev/tty" else none, umask := 18,
    cwd := "/home", ignoresHup := false }

/-- When both forks succeed, the session leader returns. -/
theorem daemonize_keeps_leader :
    ¬ Daemonized shell "/dev/null" (daemonize ⟨1024, some 4096, by simp⟩ "/dev/null"
      (some ⟨101, by omega, by omega⟩) (some ⟨102, by omega, by omega⟩) shell) := by
  intro h
  rw [daemonize_of_forks, reopen_of_le (by simp)] at h
  refine h.notLeader _ (List.mem_cons_of_mem _ (List.mem_append_left _ List.mem_cons_self)) ?_
  rfl

end Apue.Daemons.Daemonize

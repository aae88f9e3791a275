import Apue.AdvIo.LockReg
import Apue.Lib.Handshake

/-!
# The example of a deadlock (Chapter-14/14-7.c)

Parent and child lock a byte each, tell each other, and then ask for the byte of the other one. `deadlock_run`: in
every run, exactly one of the two is refused with `EDEADLK` and ends, and the other one gets its byte; neither hangs.
The system has to find rings of two processes.
-/

namespace Apue.Deadlock
open RecordLocks Transition LockReg

inductive Side where
  | parent
  | child
  deriving DecidableEq

instance : Fintype Side := ⟨{.parent, .child}, fun x => by cases x <;> decide⟩

def Side.peer : Side → Side
  | .parent => .child
  | .child => .parent

/-- The byte that a process locks first. -/
def Side.own : Side → ℕ
  | .parent => 1
  | .child => 0

/-- The statements behind `fork`; `exit` with a status. -/
inductive Pc where
  | lockOwn
  | tell
  | wait
  | lockOther
  | exit (status : ℕ)
  | exited (status : ℕ)
  deriving DecidableEq

/-- `got` are the bytes that a process has printed. -/
structure State where
  table : Table Side
  counts : Handshake.Counts Side
  pc : Side → Pc
  got : Side → List ℕ

namespace State

def goto (s : State) (x : Side) (pc : Pc) : State := { s with pc := Function.update s.pc x pc }

/-- `printf` at the end of `lockabyte`. -/
def print (s : State) (x : Side) (offset : ℕ) (pc : Pc) : State :=
  { s.goto x pc with got := Function.update s.got x (s.got x ++ [offset]) }

theorem pc_print (s : State) (x : Side) (offset : ℕ) (pc : Pc) : (s.print x offset pc).pc = Function.update s.pc x pc :=
  rfl

/-- `err_sys` when `writew_lock` fails; otherwise on to `pc`, or to sleep. -/
def lockabyte (s : State) (f : File) (x : Side) (offset : ℕ) (pc : Pc) : State :=
  match lock_reg (Table.search 1) s.table x f .F_WRLCK offset .SEEK_SET 1 .F_SETLKW with
  | (table, .ok) => { s with table }.print x offset pc
  | (table, .fails _) => { s with table }.goto x (.exit 1)
  | (table, .sleeps) => { s with table }

/-- The next statement of a process that is not asleep. -/
def move (s : State) (f : File) (x : Side) : Option State :=
  if s.table.waiting x ≠ none then none
  else match s.pc x with
    | .lockOwn => some (s.lockabyte f x x.own .tell)
    | .tell => some ({ s with counts := s.counts.tell x }.goto x .wait)
    | .wait => (s.counts.step Side.peer (.wait x)).map fun counts => { s with counts }.goto x .lockOther
    | .lockOther => some (s.lockabyte f x x.peer.own (.exit 0))
    | .exit status => some ({ s with table := s.table.leave x }.goto x (.exited status))
    | .exited _ => none

/-- The lock is free, and `writew_lock` returns. -/
def wake (s : State) (x : Side) : Option State :=
  match s.pc x, step (Table.search 1) s.table (.wake x) with
  | .lockOwn, some table => some ({ s with table }.print x x.own .tell)
  | .lockOther, some table => some ({ s with table }.print x x.peer.own (.exit 0))
  | _, _ => none

/-- Behind `fork`; `creat` has emptied the file. -/
def entry : State := ⟨start, .zero, fun _ => .lockOwn, fun _ => []⟩

end State

inductive Act where
  | move (x : Side)
  | wake (x : Side)
  deriving DecidableEq

def step (f : File) (s : State) : Act → Option State
  | .move x => s.move f x
  | .wake x => s.wake x

/-- What comes out: `loser` is refused. -/
structure Decided (s : State) (loser : Side) : Prop where
  refused : s.pc loser = .exited 1
  served : s.pc loser.peer = .exited 0
  gotRefused : s.got loser = [loser.own]
  gotServed : s.got loser.peer = [loser.peer.own, loser.own]

structure Right (f : File) (s : State) : Prop where
  awake : ∃ x, s.table.waiting x = none
  /-- Only one of the two is refused. -/
  once : ¬ ((s.pc .parent = .exit 1 ∨ s.pc .parent = .exited 1) ∧ (s.pc .child = .exit 1 ∨ s.pc .child = .exited 1))
  /-- Nobody stops before the end. -/
  decided : (∀ a, step f s a = none) → ∃ loser, Decided s loser

/-! ### The invariant -/

namespace Pc

def got (x : Side) : Pc → List ℕ
  | .lockOwn => []
  | .tell | .wait | .lockOther => [x.own]
  | .exit status | .exited status => if status = 0 then [x.own, x.peer.own] else [x.own]

/-- The locks are gone in the end. -/
def held (x : Side) : Pc → List ℕ
  | .exited _ => []
  | pc => pc.got x

def tells : Pc → ℕ
  | .lockOwn | .tell => 0
  | _ => 1

def waits : Pc → ℕ
  | .lockOwn | .tell | .wait => 0
  | _ => 1

end Pc

/-- What follows from where the two are. -/
structure Facts (s : State) : Prop where
  got : ∀ x, s.got x = (s.pc x).got x
  holds : ∀ x k b, Holds s.table.locks x k b ↔ k = .wr ∧ b ∈ (s.pc x).held x
  tells : ∀ x, s.counts.tells x = (s.pc x).tells
  waits : ∀ x, s.counts.waits x = (s.pc x).waits

def byte (b : ℕ) : Region := ⟨b, some (b + 1), Nat.lt_succ_self b⟩

/-- Both are awake and have not lost or won; one is asleep, and the other one has not won; one has won, and the other
one is gone. -/
inductive Phase (s : State) : Prop
  | early (hwaiting : ∀ x, s.table.waiting x = none)
      (hpc : ∀ x, s.pc x = .lockOwn ∨ s.pc x = .tell ∨ s.pc x = .wait ∨ s.pc x = .lockOther)
      (htold : ∀ x, s.pc x = .lockOther → s.pc x.peer = .wait ∨ s.pc x.peer = .lockOther)
  | asleep (x : Side) (hwaiting : s.table.waiting x = some ⟨.wr, byte x.peer.own⟩) (hawake : s.table.waiting x.peer = none)
      (hpc : s.pc x = .lockOther)
      (hpeer : s.pc x.peer = .wait ∨ s.pc x.peer = .lockOther ∨ s.pc x.peer = .exit 1 ∨ s.pc x.peer = .exited 1)
  | won (x : Side) (hwaiting : ∀ y, s.table.waiting y = none) (hpc : s.pc x = .exit 0 ∨ s.pc x = .exited 0)
      (hpeer : s.pc x.peer = .exited 1)

structure Inv (s : State) : Prop where
  phase : Phase s
  facts : Facts s

@[simp] theorem Side.peer_peer (x : Side) : x.peer.peer = x := by cases x <;> rfl

theorem Side.eq_or_eq (x y : Side) : y = x ∨ y = x.peer := by cases x <;> cases y <;> simp [Side.peer]

theorem Side.peer_ne (x : Side) : x.peer ≠ x := by cases x <;> nofun

theorem Side.own_peer_ne (x : Side) : x.peer.own ≠ x.own := by cases x <;> decide

theorem mem_byte {b c : ℕ} : c ∈ byte b ↔ c = b := by
  show b ≤ c ∧ c < b + 1 ↔ c = b
  omega

theorem mkRegion_byte (f : File) (b : ℕ) : mkRegion (f.base .SEEK_SET + b) 1 = some (byte b) := by
  have hstart : ((f.base .SEEK_SET : ℕ) : ℤ) + b = b := by simp [File.base]
  have hstop : ((b : ℤ) + 1).toNat = b + 1 := by omega
  rw [hstart, mkRegion, dif_pos (by omega), dif_pos (by omega)]
  simp only [Int.toNat_natCast, hstop, byte]

variable {f : File} {s t : State} {x y : Side} {b c : ℕ} {pc : Pc} {kind : Kind}

/-! ### One lock -/

theorem search_iff {t : Table Side} {r : Request} : Table.search 1 t x r ↔ t.Deadlk x r :=
  Table.search_iff (by rw [Nat.card_eq_fintype_card]; decide)

theorem lock_reg_byte (t : Table Side) (x : Side) (f : File) (b : ℕ) :
    lock_reg (Table.search 1) t x f .F_WRLCK b .SEEK_SET 1 .F_SETLKW =
      if getlk t.locks x .wr (byte b) = none then (t.grant x ⟨.wr, byte b⟩, .ok)
      else if Table.search 1 t x ⟨.wr, byte b⟩ then (t, .fails EDEADLK)
      else (t.sleep x ⟨.wr, byte b⟩, .sleeps) := by
  simp only [lock_reg, fcntl, Flock.region, mkRegion_byte, LType.kind]
  split
  · rfl
  · split <;> rfl

theorem getlk_byte {t : Table Side} : getlk t.locks x .wr (byte b) = none ↔ ∀ k, ¬ Holds t.locks x.peer k b := by
  rw [getlk_eq_none]
  constructor
  · intro h k hk
    exact absurd (h x.peer k b x.peer_ne (mem_byte.mpr rfl) hk).2 nofun
  · intro h q k c hq hc hk
    obtain rfl := mem_byte.mp hc
    obtain rfl := (x.eq_or_eq q).resolve_left hq
    exact absurd hk (h k)

theorem lockabyte_free (hfree : ∀ k, ¬ Holds s.table.locks x.peer k b) :
    s.lockabyte f x b pc = { s with table := s.table.grant x ⟨.wr, byte b⟩ }.print x b pc := by
  rw [State.lockabyte, lock_reg_byte, if_pos (getlk_byte.mpr hfree)]

theorem lockabyte_sleeps (hheld : Holds s.table.locks x.peer kind b) (hpeer : s.table.waiting x.peer = none) :
    s.lockabyte f x b pc = { s with table := s.table.sleep x ⟨.wr, byte b⟩ } := by
  have hdeadlk : ¬ Table.search 1 s.table x ⟨.wr, byte b⟩ := by
    rw [search_iff]
    rintro ⟨q, hq, hqx⟩
    obtain rfl := (x.eq_or_eq q).resolve_left (Table.mem_blockers.mp hq).1
    obtain heq | ⟨z, hz, -⟩ := Relation.ReflTransGen.cases_head hqx
    · exact x.peer_ne heq
    · rw [WaitFor.Waits, Table.next_of_none hpeer] at hz
      exact Finset.notMem_empty z hz
  rw [State.lockabyte, lock_reg_byte, if_neg fun hfree => getlk_byte.mp hfree kind hheld, if_neg hdeadlk]

theorem lockabyte_deadlk (hheld : Holds s.table.locks x.peer kind b) (hpeer : s.table.waiting x.peer = some ⟨.wr, byte c⟩)
    (hown : Holds s.table.locks x .wr c) : s.lockabyte f x b pc = s.goto x (.exit 1) := by
  have hdeadlk : Table.search 1 s.table x ⟨.wr, byte b⟩ := by
    refine search_iff.mpr ⟨x.peer, ?_, .single ?_⟩
    · exact Table.mem_blockers.mpr ⟨x.peer_ne, kind, b, mem_byte.mpr rfl, hheld, .inr rfl⟩
    · rw [WaitFor.Waits, Table.next_of_some hpeer]
      exact Table.mem_blockers.mpr ⟨x.peer_ne.symm, .wr, c, mem_byte.mpr rfl, hown, .inl rfl⟩
  rw [State.lockabyte, lock_reg_byte, if_neg fun hfree => getlk_byte.mp hfree kind hheld, if_pos hdeadlk]

/-! ### Facts -/

theorem entry_inv : Inv .entry where
  phase := .early (fun _ => rfl) (fun _ => .inl rfl) nofun
  facts := by
    refine ⟨fun _ => rfl, fun x k b => ?_, fun _ => rfl, fun _ => rfl⟩
    constructor
    · rintro ⟨l, hl, -⟩
      cases hl
    · rintro ⟨-, hb⟩
      cases hb

theorem Facts.next (h : Facts s) {table : Table Side} {counts : Handshake.Counts Side} {got : List ℕ}
    (hgot : got = pc.got x)
    (hself : ∀ k b, Holds table.locks x k b ↔ k = .wr ∧ b ∈ pc.held x)
    (hother : ∀ k b, Holds table.locks x.peer k b ↔ Holds s.table.locks x.peer k b)
    (htells : counts.tells x = pc.tells ∧ counts.tells x.peer = s.counts.tells x.peer)
    (hwaits : counts.waits x = pc.waits ∧ counts.waits x.peer = s.counts.waits x.peer) :
    Facts ⟨table, counts, Function.update s.pc x pc, Function.update s.got x got⟩ := by
  constructor
  case got =>
    intro y
    obtain rfl | rfl := x.eq_or_eq y
    · simp only [Function.update_self, hgot]
    · simp only [Function.update_of_ne x.peer_ne, h.got]
  case holds =>
    intro y
    obtain rfl | rfl := x.eq_or_eq y
    · simpa only [Function.update_self] using hself
    · intro k b
      simp only [hother, h.holds, Function.update_of_ne x.peer_ne]
  case tells =>
    intro y
    obtain rfl | rfl := x.eq_or_eq y
    · simp only [Function.update_self, htells.1]
    · simp only [Function.update_of_ne x.peer_ne, htells.2, h.tells]
  case waits =>
    intro y
    obtain rfl | rfl := x.eq_or_eq y
    · simp only [Function.update_self, hwaits.1]
    · simp only [Function.update_of_ne x.peer_ne, hwaits.2, h.waits]

theorem Facts.goto (h : Facts s) {counts : Handshake.Counts Side} (hgot : pc.got x = (s.pc x).got x)
    (hheld : pc.held x = (s.pc x).held x)
    (htells : counts.tells x = pc.tells ∧ counts.tells x.peer = s.counts.tells x.peer)
    (hwaits : counts.waits x = pc.waits ∧ counts.waits x.peer = s.counts.waits x.peer) :
    Facts ({ s with counts }.goto x pc) := by
  have hnext : Facts ⟨s.table, counts, Function.update s.pc x pc, Function.update s.got x (s.got x)⟩ :=
    h.next ((h.got x).trans hgot.symm) (fun k b => by rw [h.holds, hheld]) (fun _ _ => Iff.rfl) htells hwaits
  rwa [Function.update_eq_self] at hnext

theorem Facts.print (h : Facts s) (hgot : pc.got x = (s.pc x).got x ++ [b]) (hheld : pc.held x = (s.pc x).held x ++ [b])
    (htells : pc.tells = (s.pc x).tells) (hwaits : pc.waits = (s.pc x).waits) :
    Facts ({ s with table := s.table.grant x ⟨.wr, byte b⟩ }.print x b pc) := by
  show Facts ⟨s.table.grant x ⟨.wr, byte b⟩, s.counts, Function.update s.pc x pc,
    Function.update s.got x (s.got x ++ [b])⟩
  refine h.next (by rw [h.got, hgot]) (fun k c => ?_) (fun k c => ?_) ⟨(h.tells x).trans htells.symm, rfl⟩
    ⟨(h.waits x).trans hwaits.symm, rfl⟩
  · rw [show Holds (s.table.grant x ⟨.wr, byte b⟩).locks x k c ↔ _ from holds_lock, h.holds, mem_byte, hheld,
      List.mem_append, List.mem_singleton]
    by_cases hc : c = b <;> simp [hc]
  · rw [show Holds (s.table.grant x ⟨.wr, byte b⟩).locks x.peer k c ↔ _ from holds_lock]
    simp [x.peer_ne]

theorem Facts.leave (h : Facts s) {status : ℕ} (hpc : s.pc x = .exit status) :
    Facts ({ s with table := s.table.leave x }.goto x (.exited status)) := by
  have hnext : Facts ⟨s.table.leave x, s.counts, Function.update s.pc x (.exited status),
      Function.update s.got x (s.got x)⟩ := by
    refine h.next (by rw [h.got, hpc]; rfl) (fun k c => ?_) (fun k c => ?_) ⟨by rw [h.tells, hpc]; rfl, rfl⟩
      ⟨by rw [h.waits, hpc]; rfl, rfl⟩
    · simp only [Holds, Table.leave, List.mem_filter, Pc.held, List.not_mem_nil, and_false, iff_false]
      rintro ⟨l, ⟨-, hl⟩, howner, -⟩
      exact of_decide_eq_true hl howner
    · simp only [Holds, Table.leave, List.mem_filter]
      refine exists_congr fun l => ⟨fun hl => ⟨hl.1.1, hl.2⟩, fun hl => ⟨⟨hl.1, ?_⟩, hl.2⟩⟩
      simp [hl.2.1, x.peer_ne]
  rwa [Function.update_eq_self] at hnext

/-! ### The steps -/

theorem Facts.holds_own (h : Facts s) (hpc : s.pc x = .tell ∨ s.pc x = .wait ∨ s.pc x = .lockOther ∨ s.pc x = .exit 1)
    (k : Kind) (b : ℕ) : Holds s.table.locks x k b ↔ k = .wr ∧ b = x.own := by
  rw [h.holds]
  rcases hpc with hpc | hpc | hpc | hpc <;> simp [hpc, Pc.held, Pc.got]

theorem Phase.goto (h : Phase s) {counts : Handshake.Counts Side} (hwaiting : s.table.waiting x = none)
    (hpc : s.pc x = .tell ∧ pc = .wait ∨
      s.pc x = .wait ∧ pc = .lockOther ∧ (s.pc x.peer).tells = 1) : Phase ({ s with counts }.goto x pc) := by
  have hself : ({ s with counts }.goto x pc).pc x = pc := Function.update_self ..
  have hother : ({ s with counts }.goto x pc).pc x.peer = s.pc x.peer := Function.update_of_ne x.peer_ne ..
  cases h with
  | early hw hearly htold =>
    refine .early hw (fun y => ?_) (fun y hy => ?_)
    · obtain rfl | rfl := x.eq_or_eq y
      · rw [hself]
        obtain ⟨-, rfl⟩ | ⟨-, rfl, -⟩ := hpc <;> simp
      · rw [hother]
        exact hearly x.peer
    · obtain rfl | rfl := x.eq_or_eq y
      · rw [hother]
        rw [hself] at hy
        obtain ⟨-, rfl⟩ | ⟨-, -, htells⟩ := hpc
        · cases hy
        · rcases hearly y.peer with hp | hp | hp | hp
          · rw [hp] at htells
            cases htells
          · rw [hp] at htells
            cases htells
          · exact .inl hp
          · exact .inr hp
      · rw [x.peer_peer, hself]
        rw [hother] at hy
        have hx := htold x.peer hy
        rw [x.peer_peer] at hx
        obtain ⟨hp, -⟩ | ⟨-, rfl, -⟩ := hpc
        · rw [hp] at hx
          simp at hx
        · exact .inr rfl
  | asleep y hw hawake hy hpeer =>
    obtain rfl | rfl := y.eq_or_eq x
    · rw [hwaiting] at hw
      cases hw
    · rw [Side.peer_peer] at hother
      refine .asleep y hw hawake (hother.trans hy) ?_
      rw [hself]
      obtain ⟨hp, -⟩ | ⟨-, rfl, -⟩ := hpc
      · rw [hp] at hpeer
        simp at hpeer
      · exact .inr (.inl rfl)
  | won y hw hy hpeer =>
    obtain rfl | rfl := y.eq_or_eq x
    · obtain ⟨hp, -⟩ | ⟨hp, -, -⟩ := hpc <;> rw [hp] at hy <;> simp at hy
    · obtain ⟨hp, -⟩ | ⟨hp, -, -⟩ := hpc <;> rw [hp] at hpeer <;> cases hpeer

theorem lockOwn_inv (h : Inv s) (hwaiting : s.table.waiting x = none) (hpc : s.pc x = .lockOwn) :
    Inv (s.lockabyte f x x.own .tell) := by
  obtain ⟨hphase, hfacts⟩ := h
  cases hphase with
  | early hw hearly htold =>
    have hfree : ∀ k, ¬ Holds s.table.locks x.peer k x.own := by
      intro k hk
      have hheld := ((hfacts.holds x.peer k x.own).mp hk).2
      rcases hearly x.peer with hp | hp | hp | hp <;> rw [hp] at hheld <;>
        simp [Pc.held, Pc.got, x.own_peer_ne.symm] at hheld
    have hpeer : s.pc x.peer ≠ .lockOther := by
      intro hp
      have hx := htold x.peer hp
      rw [x.peer_peer, hpc] at hx
      simp at hx
    rw [lockabyte_free hfree]
    refine ⟨.early (fun y => ?_) (fun y => ?_) (fun y hy => ?_), hfacts.print ?_ ?_ ?_ ?_⟩
    · obtain rfl | rfl := x.eq_or_eq y
      · exact Function.update_self ..
      · exact (Function.update_of_ne x.peer_ne ..).trans (hw _)
    · obtain rfl | rfl := x.eq_or_eq y
      · exact .inr (.inl (Function.update_self ..))
      · rw [State.pc_print, Function.update_of_ne x.peer_ne]
        exact hearly x.peer
    · obtain rfl | rfl := x.eq_or_eq y
      · rw [State.pc_print, Function.update_self] at hy
        cases hy
      · rw [State.pc_print, Function.update_of_ne x.peer_ne] at hy
        exact absurd hy hpeer
    all_goals
      rw [hpc]
      rfl
  | asleep y hw hawake hy hpeer =>
    obtain rfl | rfl := y.eq_or_eq x
    · rw [hwaiting] at hw
      cases hw
    · rw [hpc] at hpeer
      simp at hpeer
  | won y hw hy hpeer =>
    obtain rfl | rfl := y.eq_or_eq x
    · rw [hpc] at hy
      simp at hy
    · rw [hpc] at hpeer
      cases hpeer

/-- The other one has its byte: `x` goes to sleep, or is refused because the other one is asleep. -/
theorem lockOther_inv (h : Inv s) (hwaiting : s.table.waiting x = none) (hpc : s.pc x = .lockOther) :
    Inv (s.lockabyte f x x.peer.own (.exit 0)) := by
  obtain ⟨hphase, hfacts⟩ := h
  cases hphase with
  | early hw hearly htold =>
    have hheld : Holds s.table.locks x.peer .wr x.peer.own :=
      (hfacts.holds_own (.inr ((htold x hpc).imp_right .inl)) .wr _).mpr ⟨rfl, rfl⟩
    rw [lockabyte_sleeps hheld (hw x.peer)]
    refine ⟨.asleep x (Function.update_self ..) ?_ hpc ((htold x hpc).imp_right .inl),
      ⟨hfacts.got, hfacts.holds, hfacts.tells, hfacts.waits⟩⟩
    exact (Function.update_of_ne x.peer_ne ..).trans (hw _)
  | asleep y hw hawake hy hpeer =>
    obtain rfl | rfl := y.eq_or_eq x
    · rw [hwaiting] at hw
      cases hw
    · rw [y.peer_peer]
      have hheld : Holds s.table.locks y.peer.peer .wr y.own := by
        rw [y.peer_peer]
        exact (hfacts.holds_own (.inr (.inr (.inl hy))) .wr _).mpr ⟨rfl, rfl⟩
      have hown : Holds s.table.locks y.peer .wr y.peer.own :=
        (hfacts.holds_own (.inr (.inr (.inl hpc))) .wr _).mpr ⟨rfl, rfl⟩
      rw [lockabyte_deadlk hheld (by rwa [y.peer_peer]) hown]
      refine ⟨.asleep y hw hawake ((Function.update_of_ne y.peer_ne.symm ..).trans hy)
        (.inr (.inr (.inl (Function.update_self ..)))), hfacts.goto ?_ ?_ ⟨?_, rfl⟩ ⟨?_, rfl⟩⟩
      · rw [hpc]
        rfl
      · rw [hpc]
        rfl
      · rw [hfacts.tells, hpc]
        rfl
      · rw [hfacts.waits, hpc]
        rfl
  | won y hw hy hpeer =>
    obtain rfl | rfl := y.eq_or_eq x
    · rw [hpc] at hy
      simp at hy
    · rw [hpc] at hpeer
      cases hpeer

theorem exit_inv {status : ℕ} (h : Inv s) (hpc : s.pc x = .exit status) :
    Inv ({ s with table := s.table.leave x }.goto x (.exited status)) := by
  obtain ⟨hphase, hfacts⟩ := h
  refine ⟨?_, hfacts.leave hpc⟩
  cases hphase with
  | early hw hearly htold =>
    have hx := hearly x
    rw [hpc] at hx
    simp at hx
  | asleep y hw hawake hy hpeer =>
    obtain rfl | rfl := y.eq_or_eq x
    · rw [hpc] at hy
      cases hy
    · obtain rfl : status = 1 := by
        rw [hpc] at hpeer
        simpa using hpeer
      exact .asleep y ((Function.update_of_ne y.peer_ne.symm ..).trans hw) (Function.update_self ..)
        ((Function.update_of_ne y.peer_ne.symm ..).trans hy) (.inr (.inr (.inr (Function.update_self ..))))
  | won y hw hy hpeer =>
    obtain rfl | rfl := y.eq_or_eq x
    · obtain rfl : status = 0 := by
        rw [hpc] at hy
        simpa using hy
      refine .won x (fun z => ?_) (.inr (Function.update_self ..)) ((Function.update_of_ne x.peer_ne ..).trans hpeer)
      obtain rfl | rfl := x.eq_or_eq z
      · exact Function.update_self ..
      · exact (Function.update_of_ne x.peer_ne ..).trans (hw _)
    · rw [hpc] at hpeer
      cases hpeer

theorem move_inv (h : Inv s) (hs : s.move f x = some t) : Inv t := by
  obtain ⟨hwaiting, hs⟩ := Option.ite_none_left_eq_some.mp hs
  rw [not_not] at hwaiting
  split at hs
  case h_1 hpc => exact Option.some.inj hs ▸ lockOwn_inv h hwaiting hpc
  case h_2 hpc =>
    obtain rfl := Option.some.inj hs
    refine ⟨h.phase.goto hwaiting (.inl ⟨hpc, rfl⟩), h.facts.goto ?_ ?_ ⟨?_, ?_⟩ ⟨?_, rfl⟩⟩
    · rw [hpc]
      rfl
    · rw [hpc]
      rfl
    · rw [Handshake.Counts.tell_tells_self, h.facts.tells, hpc]
      rfl
    · exact Handshake.Counts.tell_tells_of_ne _ x.peer_ne
    · rw [Handshake.Counts.tell_waits, h.facts.waits, hpc]
      rfl
  case h_3 hpc =>
    obtain ⟨counts, hcounts, rfl⟩ := Option.map_eq_some_iff.mp hs
    obtain ⟨hlt, hcounts⟩ := Option.ite_none_right_eq_some.mp hcounts
    obtain rfl := Option.some.inj hcounts
    have htells : (s.pc x.peer).tells = 1 := by
      rw [h.facts.tells] at hlt
      cases hp : s.pc x.peer <;> rw [hp] at hlt <;> first | rfl | exact absurd hlt (Nat.not_lt_zero _)
    refine ⟨h.phase.goto hwaiting (.inr ⟨hpc, rfl, htells⟩), h.facts.goto ?_ ?_ ⟨?_, rfl⟩ ⟨?_, ?_⟩⟩
    · rw [hpc]
      rfl
    · rw [hpc]
      rfl
    · rw [Handshake.Counts.wait_tells, h.facts.tells, hpc]
      rfl
    · rw [Handshake.Counts.wait_waits_self, h.facts.waits, hpc]
      rfl
    · exact Handshake.Counts.wait_waits_of_ne _ x.peer_ne
  case h_4 hpc => exact Option.some.inj hs ▸ lockOther_inv h hwaiting hpc
  case h_5 hpc => exact Option.some.inj hs ▸ exit_inv h hpc
  case h_6 => cases hs

theorem wake_cases (hs : s.wake x = some t) : ∃ r, s.table.waiting x = some r ∧
    getlk s.table.locks x r.kind r.region = none ∧
      ((s.pc x = .lockOwn ∧ t = { s with table := s.table.grant x r }.print x x.own .tell) ∨
        (s.pc x = .lockOther ∧ t = { s with table := s.table.grant x r }.print x x.peer.own (.exit 0))) := by
  have htable {table : Table Side} (h : LockReg.step (Table.search 1) s.table (.wake x) = some table) :
      ∃ r, s.table.waiting x = some r ∧ getlk s.table.locks x r.kind r.region = none ∧ table = s.table.grant x r := by
    simp only [LockReg.step] at h
    split at h
    · cases h
    · rename_i r hr
      obtain ⟨hfree, h⟩ := Option.ite_none_right_eq_some.mp h
      exact ⟨r, hr, hfree, (Option.some.inj h).symm⟩
  unfold State.wake at hs
  split at hs
  · rename_i table hpc hstep
    obtain ⟨r, hr, hfree, rfl⟩ := htable hstep
    exact ⟨r, hr, hfree, .inl ⟨hpc, (Option.some.inj hs).symm⟩⟩
  · rename_i table hpc hstep
    obtain ⟨r, hr, hfree, rfl⟩ := htable hstep
    exact ⟨r, hr, hfree, .inr ⟨hpc, (Option.some.inj hs).symm⟩⟩
  · cases hs

theorem wake_inv (h : Inv s) (hs : s.wake x = some t) : Inv t := by
  obtain ⟨hphase, hfacts⟩ := h
  obtain ⟨r, hr, hfree, hs⟩ := wake_cases hs
  cases hphase with
  | early hw hearly htold =>
    rw [hw] at hr
    cases hr
  | asleep y hw hawake hy hpeer =>
    obtain rfl | rfl := y.eq_or_eq x
    · obtain rfl := Option.some.inj (hw.symm.trans hr)
      have hgone : s.pc x.peer = .exited 1 := by
        by_contra hp
        refine getlk_byte.mp hfree .wr ((hfacts.holds_own ?_ .wr _).mpr ⟨rfl, rfl⟩)
        exact .inr ((hpeer.imp_right (.imp_right fun hlast => hlast.resolve_right hp)))
      obtain ⟨hown, -⟩ | ⟨-, rfl⟩ := hs
      · rw [hy] at hown
        cases hown
      refine ⟨.won x (fun z => ?_) (.inl (Function.update_self ..)) ((Function.update_of_ne x.peer_ne ..).trans hgone),
        hfacts.print ?_ ?_ ?_ ?_⟩
      · obtain rfl | rfl := x.eq_or_eq z
        · exact Function.update_self ..
        · exact (Function.update_of_ne x.peer_ne ..).trans hawake
      all_goals
        rw [hy]
        rfl
    · rw [hawake] at hr
      cases hr
  | won y hw hy hpeer =>
    rw [hw] at hr
    cases hr

theorem step_inv (s : State) (a : Act) (t : State) (h : Inv s) (hs : step f s a = some t) : Inv t := by
  cases a with
  | move x => exact move_inv h hs
  | wake x => exact wake_inv h hs

/-! ### Every run -/

/-- Who is awake and has not ended goes on, unless it waits to be told. -/
theorem exists_move (f : File) (hwaiting : s.table.waiting x = none)
    (htold : s.pc x = .wait → s.counts.waits x < s.counts.tells x.peer) (hpc : ∀ status, s.pc x ≠ .exited status) :
    ∃ a t, step f s a = some t := by
  refine ⟨.move x, ?_⟩
  simp only [step, State.move, hwaiting, ne_eq, not_true_eq_false, if_false]
  cases hx : s.pc x with
  | wait =>
    refine ⟨_, Option.map_eq_some_iff.mpr ⟨s.counts.wait x, ?_, rfl⟩⟩
    exact if_pos (htold hx)
  | exited status => exact absurd hx (hpc status)
  | _ => exact ⟨_, rfl⟩

theorem decided_of_stuck (h : Inv s) (hstuck : ∀ a, step f s a = none) : ∃ loser, Decided s loser := by
  obtain ⟨hphase, hfacts⟩ := h
  have hnone : ¬ ∃ a t, step f s a = some t := by
    rintro ⟨a, t, ht⟩
    rw [hstuck a] at ht
    cases ht
  -- who waits to be told has a peer that is behind its tell
  have htold (x : Side) (hpeer : s.pc x.peer = .wait ∨ s.pc x.peer = .lockOther) (hx : s.pc x = .wait) :
      s.counts.waits x < s.counts.tells x.peer := by
    rw [hfacts.waits, hfacts.tells, hx]
    rcases hpeer with hp | hp <;> rw [hp] <;> exact Nat.zero_lt_one
  cases hphase with
  | early hw hearly hafter =>
    exfalso
    refine hnone (exists_move f (hw .parent) (fun hparent => htold .parent ?_ hparent) fun status hp => ?_)
    · by_contra hchild
      refine hnone (exists_move f (hw .child) (fun hp => ?_) fun status hp => ?_)
      · exact absurd (.inl hp) hchild
      · have hx := hearly .child
        rw [hp] at hx
        simp at hx
    · have hx := hearly .parent
      rw [hp] at hx
      simp at hx
  | asleep x hw hawake hx hpeer =>
    exfalso
    by_cases hgone : s.pc x.peer = .exited 1
    · have hfree : getlk s.table.locks x .wr (byte x.peer.own) = none := by
        refine getlk_byte.mpr fun k hk => ?_
        have hheld := ((hfacts.holds x.peer k _).mp hk).2
        rw [hgone] at hheld
        cases hheld
      have hwake : LockReg.step (Table.search 1) s.table (.wake x) = some (s.table.grant x ⟨.wr, byte x.peer.own⟩) := by
        simp only [LockReg.step, hw, hfree, if_true]
      refine hnone ⟨.wake x, ?_⟩
      simp only [step, State.wake, hx, hwake]
      exact ⟨_, rfl⟩
    · refine hnone (exists_move f hawake (htold x.peer ?_) fun status hp => ?_)
      · rw [x.peer_peer]
        exact .inr hx
      · rw [hp] at hpeer hgone
        simp at hpeer hgone
        exact hgone hpeer
  | won x hw hx hpeer =>
    have hdone : s.pc x = .exited 0 := by
      refine hx.resolve_left fun hexit => hnone (exists_move f (hw x) (fun hp => ?_) fun status hp => ?_)
      · rw [hexit] at hp
        cases hp
      · rw [hexit] at hp
        cases hp
    refine ⟨x.peer, hpeer, ?_, ?_, ?_⟩
    · rw [x.peer_peer, hdone]
    · rw [hfacts.got, hpeer]
      rfl
    · rw [x.peer_peer, hfacts.got, hdone]
      rfl

theorem Inv.right (h : Inv s) : Right f s where
  awake := by
    cases h.phase with
    | early hw _ _ => exact ⟨.parent, hw _⟩
    | asleep x _ hawake _ _ => exact ⟨_, hawake⟩
    | won x hw _ _ => exact ⟨x, hw x⟩
  once := by
    have hnot : ∃ x, s.pc x ≠ .exit 1 ∧ s.pc x ≠ .exited 1 := by
      cases h.phase with
      | early _ hearly _ => exact ⟨.parent, by rcases hearly .parent with hp | hp | hp | hp <;> simp [hp]⟩
      | asleep x _ _ hx _ => exact ⟨x, by simp [hx]⟩
      | won x _ hx _ => exact ⟨x, by rcases hx with hx | hx <;> simp [hx]⟩
    rintro ⟨hparent, hchild⟩
    obtain ⟨x, hexit, hexited⟩ := hnot
    cases x
    · exact hparent.elim hexit hexited
    · exact hchild.elim hexit hexited
  decided := decided_of_stuck h

/-- How far it is to the end, when a process is `asleep` or not. -/
def Pc.rank (asleep : Bool) : Pc → ℕ
  | .lockOwn => if asleep then 6 else 7
  | .tell => 5
  | .wait => 4
  | .lockOther => if asleep then 2 else 3
  | .exit _ => 1
  | .exited _ => 0

def State.rank (s : State) (x : Side) : ℕ := (s.pc x).rank (s.table.waiting x).isSome

def State.fuel (s : State) : ℕ := s.rank .parent + s.rank .child

theorem fuel_lt_of_rank (hself : t.rank x < s.rank x) (hpc : t.pc x.peer = s.pc x.peer)
    (hwaiting : t.table.waiting x.peer = s.table.waiting x.peer) : t.fuel < s.fuel := by
  have hother : t.rank x.peer = s.rank x.peer := by
    unfold State.rank
    rw [hpc, hwaiting]
  unfold State.fuel
  cases x
  · exact Nat.add_lt_add_of_lt_of_le hself hother.le
  · exact Nat.add_lt_add_of_le_of_lt hother.le hself

theorem lockabyte_fuel (hwaiting : s.table.waiting x = none)
    (hpc : s.pc x = .lockOwn ∧ pc = .tell ∨ s.pc x = .lockOther ∧ pc = .exit 0) :
    (s.lockabyte f x b pc).fuel < s.fuel := by
  have hrank : (s.pc x).rank true < s.rank x ∧ pc.rank false < s.rank x ∧ (Pc.exit 1).rank false < s.rank x := by
    unfold State.rank
    rw [hwaiting]
    obtain ⟨hpc, rfl⟩ | ⟨hpc, rfl⟩ := hpc <;> rw [hpc] <;> decide
  have hself {u : State} (hu : u.pc = Function.update s.pc x pc ∨ u.pc = Function.update s.pc x (.exit 1))
      (hasleep : u.table.waiting x = none) : u.rank x < s.rank x := by
    unfold State.rank at hrank ⊢
    rw [hasleep]
    obtain hu | hu := hu <;> rw [hu, Function.update_self]
    · exact hrank.2.1
    · exact hrank.2.2
  rw [State.lockabyte, lock_reg_byte]
  by_cases hfree : getlk s.table.locks x .wr (byte b) = none
  · rw [if_pos hfree]
    exact fuel_lt_of_rank (hself (.inl rfl) (Function.update_self ..)) (Function.update_of_ne x.peer_ne ..)
      (Function.update_of_ne x.peer_ne ..)
  · rw [if_neg hfree]
    by_cases hdeadlk : Table.search 1 s.table x ⟨.wr, byte b⟩
    · rw [if_pos hdeadlk]
      exact fuel_lt_of_rank (hself (.inr rfl) hwaiting) (Function.update_of_ne x.peer_ne ..) rfl
    · rw [if_neg hdeadlk]
      refine fuel_lt_of_rank (x := x) ?_ rfl (Function.update_of_ne x.peer_ne ..)
      have hasleep : (s.table.sleep x ⟨.wr, byte b⟩).waiting x = some ⟨.wr, byte b⟩ := Function.update_self ..
      show (s.pc x).rank ((s.table.sleep x ⟨.wr, byte b⟩).waiting x).isSome < s.rank x
      rw [hasleep]
      exact hrank.1

theorem move_fuel (hs : s.move f x = some t) : t.fuel < s.fuel := by
  obtain ⟨hwaiting, hs⟩ := Option.ite_none_left_eq_some.mp hs
  rw [not_not] at hwaiting
  -- on to another statement, with the same lock requests
  have hgoto {u : State} {pc : Pc} (hpc : u.pc = Function.update s.pc x pc) (hu : u.table.waiting x = none)
      (hpeer : u.table.waiting x.peer = s.table.waiting x.peer) (hrank : pc.rank false < (s.pc x).rank false) :
      u.fuel < s.fuel := by
    refine fuel_lt_of_rank (x := x) ?_ (by rw [hpc, Function.update_of_ne x.peer_ne]) hpeer
    unfold State.rank
    rw [hpc, hu, hwaiting, Function.update_self]
    exact hrank
  split at hs
  case h_1 hpc => exact Option.some.inj hs ▸ lockabyte_fuel hwaiting (.inl ⟨hpc, rfl⟩)
  case h_2 hpc => exact Option.some.inj hs ▸ hgoto rfl hwaiting rfl (by rw [hpc]; decide)
  case h_3 hpc =>
    obtain ⟨counts, -, rfl⟩ := Option.map_eq_some_iff.mp hs
    exact hgoto rfl hwaiting rfl (by rw [hpc]; decide)
  case h_4 hpc => exact Option.some.inj hs ▸ lockabyte_fuel hwaiting (.inr ⟨hpc, rfl⟩)
  case h_5 status hpc =>
    obtain rfl := Option.some.inj hs
    exact hgoto rfl (Function.update_self ..) (Function.update_of_ne x.peer_ne ..)
      (by rw [hpc]; exact Nat.zero_lt_one)
  case h_6 => cases hs

theorem wake_fuel (hs : s.wake x = some t) : t.fuel < s.fuel := by
  obtain ⟨r, hr, -, hs⟩ := wake_cases hs
  have hgrant : (s.table.grant x r).waiting x = none := Function.update_self ..
  obtain ⟨hpc, rfl⟩ | ⟨hpc, rfl⟩ := hs
  all_goals
    refine fuel_lt_of_rank (x := x) ?_ (Function.update_of_ne x.peer_ne ..) (Function.update_of_ne x.peer_ne ..)
    unfold State.rank
    rw [State.pc_print, Function.update_self, hr, hpc, show (State.table _).waiting x = none from hgrant]
    simp [Pc.rank]

theorem fuel_lt {a : Act} (hs : step f s a = some t) : t.fuel < s.fuel := by
  cases a with
  | move x => exact move_fuel hs
  | wake x => exact wake_fuel hs

/-- One of the two is refused, and the other one gets its byte; and no run goes on after fourteen steps. -/
theorem deadlock_run (f : File) (as : List Act) (hrun : run (step f) .entry as = some s) :
    Right f s ∧ as.length ≤ 14 :=
  ⟨(invariant_run step_inv entry_inv hrun).right, length_le_of_decreasing (fun _ _ _ => fuel_lt) hrun⟩

/-- The parent goes to sleep first, and the child is refused. -/
def childRefused : List Act :=
  [.move .parent, .move .child, .move .child, .move .parent, .move .parent, .move .parent, .move .child, .move .child,
    .move .child, .wake .parent, .move .parent]

theorem deadlock_run_childRefused : ∃ s, run (step ⟨2, 2⟩) .entry childRefused = some s ∧ s.pc .child = .exited 1 ∧
    s.got .parent = [1, 0] ∧ Right ⟨2, 2⟩ s := by
  have hrun : (run (step ⟨2, 2⟩) .entry childRefused).map (fun s => (s.pc .child, s.got .parent)) =
      some (.exited 1, [1, 0]) := by decide +kernel
  obtain ⟨s, hs, hstate⟩ := Option.map_eq_some_iff.mp hrun
  obtain ⟨hpc, hgot⟩ := Prod.mk.inj hstate
  exact ⟨s, hs, hpc, hgot, (deadlock_run ⟨2, 2⟩ childRefused hs).1⟩

end Apue.Deadlock

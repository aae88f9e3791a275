import Apue.Lib.WaitFor
import Mathlib.SetTheory.Cardinal.Finite
import Mathlib.Tactic.Common

/-!
# Record locks

The locks on the bytes of a file as `fcntl` documents them. A lock belongs to a process and is for a region; a new
lock of the same process replaces what it had there, so a lock may be cut in two.

* `Region`: some bytes in a row, perhaps without an end; `Region.minus` takes a region out of another one.
* `setlk`, `unlock`, `getlk` on the list of the locks; `holds_setlk` and `holds_unlock` say byte by byte what they do.
* `Apart`: what one process holds for writing, nobody else holds.
* `Table`: the locks, and what the processes are waiting for. `Table.sleep` is the wait of `F_SETLKW`.
* `Table.Deadlk`: a wait that would close a ring. Where none begins, nobody waits in a ring: `Table.NoRing`.
* `Table.search depth`: a system that looks `depth` steps far for a ring. Among no more than `depth + 1` processes it
  finds every ring (`search_iff`).
-/

namespace RecordLocks

inductive Kind where
  | rd
  | wr
  deriving DecidableEq

/-- In front of the end, which may be missing. -/
def Before (b : ℕ) : Option ℕ → Prop
  | none => True
  | some n => b < n

instance (b : ℕ) : ∀ stop, Decidable (Before b stop)
  | none => isTrue trivial
  | some n => inferInstanceAs (Decidable (b < n))

/-- The bytes from `start` to `stop`, at least one. -/
structure Region where
  start : ℕ
  stop : Option ℕ
  nonempty : Before start stop
  deriving DecidableEq

namespace Region

instance : Membership ℕ Region := ⟨fun r b => r.start ≤ b ∧ Before b r.stop⟩

theorem mem_def {r : Region} {b : ℕ} : b ∈ r ↔ r.start ≤ b ∧ Before b r.stop := Iff.rfl

instance (r : Region) (b : ℕ) : Decidable (b ∈ r) := inferInstanceAs (Decidable (_ ∧ _))

def Overlaps (r s : Region) : Prop := Before r.start s.stop ∧ Before s.start r.stop

instance (r s : Region) : Decidable (r.Overlaps s) := inferInstanceAs (Decidable (_ ∧ _))

theorem before_max {a b : ℕ} {stop : Option ℕ} : Before (max a b) stop ↔ Before a stop ∧ Before b stop := by
  cases stop with
  | none => simp [Before]
  | some n => simp [Before]

theorem before_of_le {a b : ℕ} {stop : Option ℕ} (h : Before b stop) (hab : a ≤ b) : Before a stop := by
  cases stop with
  | none => trivial
  | some n => exact hab.trans_lt h

theorem overlaps_iff {r s : Region} : r.Overlaps s ↔ ∃ b, b ∈ r ∧ b ∈ s := by
  constructor
  · rintro ⟨hrs, hsr⟩
    exact ⟨max r.start s.start, ⟨le_max_left .., before_max.mpr ⟨r.nonempty, hsr⟩⟩,
      ⟨le_max_right .., before_max.mpr ⟨hrs, s.nonempty⟩⟩⟩
  · rintro ⟨b, ⟨hr, hrb⟩, hs, hsb⟩
    exact ⟨before_of_le hsb hr, before_of_le hrb hs⟩

/-- The earlier end. -/
def cap (n : ℕ) : Option ℕ → ℕ
  | none => n
  | some m => min n m

theorem lt_cap {b n : ℕ} {stop : Option ℕ} : b < cap n stop ↔ b < n ∧ Before b stop := by
  cases stop with
  | none => simp [cap, Before]
  | some m => simp [cap, Before]

/-- What is left in front of `s`. -/
def front (r s : Region) : Option Region :=
  if h : r.start < s.start then some ⟨r.start, some (cap s.start r.stop), lt_cap.mpr ⟨h, r.nonempty⟩⟩ else none

/-- What is left behind `s`. -/
def back (r s : Region) : Option Region :=
  match s.stop with
  | none => none
  | some e => if h : Before (max r.start e) r.stop then some ⟨max r.start e, r.stop, h⟩ else none

def minus (r s : Region) : List Region := (r.front s).toList ++ (r.back s).toList

theorem mem_front {r s : Region} {b : ℕ} : (∃ t, r.front s = some t ∧ b ∈ t) ↔ b ∈ r ∧ b < s.start := by
  unfold front
  split
  · simp only [Option.some.injEq, exists_eq_left']
    show r.start ≤ b ∧ b < cap s.start r.stop ↔ _
    rw [lt_cap, mem_def, and_assoc]
    exact and_congr_right fun _ => and_comm
  · rename_i hle
    simp only [reduceCtorEq, false_and, exists_false, false_iff, not_and]
    exact fun hb hlt => hle (hb.1.trans_lt hlt)

theorem mem_back {r s : Region} {b : ℕ} : (∃ t, r.back s = some t ∧ b ∈ t) ↔ b ∈ r ∧ ¬ Before b s.stop := by
  unfold back
  cases hstop : s.stop with
  | none => simp [Before]
  | some e =>
    have hle : ¬ Before b (some e) ↔ e ≤ b := not_lt
    rw [hle]
    dsimp only
    split
    · simp only [Option.some.injEq, exists_eq_left']
      show max r.start e ≤ b ∧ Before b r.stop ↔ _
      rw [Nat.max_le, mem_def]
      exact ⟨fun h => ⟨⟨h.1.1, h.2⟩, h.1.2⟩, fun h => ⟨⟨h.1.1, h.2⟩, h.1.2⟩⟩
    · rename_i hnot
      simp only [reduceCtorEq, false_and, exists_false, false_iff, not_and, not_le]
      intro hb
      by_contra hle
      exact hnot (before_of_le hb.2 (Nat.max_le.mpr ⟨hb.1, not_lt.mp hle⟩))

theorem mem_minus {r s : Region} {b : ℕ} : (∃ t ∈ r.minus s, b ∈ t) ↔ b ∈ r ∧ b ∉ s := by
  simp only [minus, List.mem_append, Option.mem_toList, or_and_right, exists_or]
  rw [mem_front, mem_back, ← and_or_left]
  refine and_congr_right fun _ => ?_
  rw [mem_def (r := s), not_and_or, not_le]

end Region

/-! ### The list of the locks -/

structure Lock (P : Type*) where
  owner : P
  kind : Kind
  region : Region
  deriving DecidableEq

variable {P : Type*}

/-- `p` has a lock of this kind on the byte. -/
def Holds (locks : List (Lock P)) (p : P) (kind : Kind) (b : ℕ) : Prop :=
  ∃ l ∈ locks, l.owner = p ∧ l.kind = kind ∧ b ∈ l.region

/-- What one process holds for writing, nobody else holds; and for one byte a process holds one lock. -/
def Apart (locks : List (Lock P)) : Prop :=
  ∀ p q kind b, Holds locks p .wr b → Holds locks q kind b → p = q ∧ kind = .wr

/-- The lock is in the way of `p`. -/
def Lock.Blocks (l : Lock P) (p : P) (kind : Kind) (r : Region) : Prop :=
  l.owner ≠ p ∧ (l.kind = .wr ∨ kind = .wr) ∧ l.region.Overlaps r

variable [DecidableEq P]

instance (l : Lock P) (p : P) (kind : Kind) (r : Region) : Decidable (l.Blocks p kind r) :=
  inferInstanceAs (Decidable (_ ∧ _ ∧ _))

/-- `F_GETLK`: the first lock that is in the way. -/
def getlk (locks : List (Lock P)) (p : P) (kind : Kind) (r : Region) : Option (Lock P) :=
  locks.find? fun l => l.Blocks p kind r

/-- `F_UNLCK`. -/
def unlock (locks : List (Lock P)) (p : P) (r : Region) : List (Lock P) :=
  locks.flatMap fun l => if l.owner = p then (l.region.minus r).map fun region => { l with region } else [l]

/-- A lock that nothing is in the way of. -/
def lock (locks : List (Lock P)) (p : P) (kind : Kind) (r : Region) : List (Lock P) := ⟨p, kind, r⟩ :: unlock locks p r

variable {locks : List (Lock P)} {p q : P} {kind k : Kind} {r : Region} {b : ℕ}

theorem holds_unlock : Holds (unlock locks p r) q k b ↔ Holds locks q k b ∧ ¬ (q = p ∧ b ∈ r) := by
  simp only [Holds, unlock, List.mem_flatMap]
  constructor
  · rintro ⟨l, ⟨l', hl', hl⟩, rfl, rfl, hb⟩
    split at hl
    · rename_i howner
      obtain ⟨s, hs, rfl⟩ := List.mem_map.mp hl
      obtain ⟨hin, hout⟩ := Region.mem_minus.mp ⟨s, hs, hb⟩
      exact ⟨⟨l', hl', rfl, rfl, hin⟩, fun h => hout h.2⟩
    · rename_i howner
      obtain rfl := List.mem_singleton.mp hl
      exact ⟨⟨l, hl', rfl, rfl, hb⟩, fun h => howner h.1⟩
  · rintro ⟨⟨l, hl, rfl, rfl, hb⟩, hout⟩
    by_cases howner : l.owner = p
    · obtain ⟨s, hs, hbs⟩ := Region.mem_minus.mpr ⟨hb, fun hr => hout ⟨howner, hr⟩⟩
      refine ⟨{ l with region := s }, ⟨l, hl, ?_⟩, rfl, rfl, hbs⟩
      rw [if_pos howner]
      exact List.mem_map_of_mem hs
    · refine ⟨l, ⟨l, hl, ?_⟩, rfl, rfl, hb⟩
      rw [if_neg howner]
      exact List.mem_singleton_self l

theorem holds_lock : Holds (lock locks p kind r) q k b ↔
    (q = p ∧ b ∈ r ∧ k = kind) ∨ (Holds locks q k b ∧ ¬ (q = p ∧ b ∈ r)) := by
  rw [← holds_unlock]
  constructor
  · rintro ⟨l, hl, rfl, rfl, hb⟩
    obtain rfl | hl := List.mem_cons.mp hl
    · exact .inl ⟨rfl, hb, rfl⟩
    · exact .inr ⟨l, hl, rfl, rfl, hb⟩
  · rintro (⟨rfl, hb, rfl⟩ | ⟨l, hl, hrest⟩)
    · exact ⟨_, List.mem_cons_self, rfl, rfl, hb⟩
    · exact ⟨l, List.mem_cons_of_mem _ hl, hrest⟩

theorem getlk_eq_none : getlk locks p kind r = none ↔
    ∀ q k b, q ≠ p → b ∈ r → Holds locks q k b → k = .rd ∧ kind = .rd := by
  simp only [getlk, List.find?_eq_none, decide_eq_true_eq]
  constructor
  · rintro h _ _ b hq hb ⟨l, hl, rfl, rfl, hbl⟩
    have hfree := h l hl
    rw [Lock.Blocks, Region.overlaps_iff] at hfree
    have hkinds : ¬ (l.kind = .wr ∨ kind = .wr) := fun hkinds => hfree ⟨hq, hkinds, b, hbl, hb⟩
    revert hkinds
    cases l.kind <;> cases kind <;> simp
  · rintro h l hl ⟨howner, hkinds, hover⟩
    obtain ⟨b, hbl, hb⟩ := Region.overlaps_iff.mp hover
    obtain ⟨hrd, hrd'⟩ := h l.owner l.kind b howner hb ⟨l, hl, rfl, rfl, hbl⟩
    rw [hrd, hrd'] at hkinds
    simp at hkinds

omit [DecidableEq P] in
theorem Apart.nil : Apart ([] : List (Lock P)) := by
  rintro p q kind b ⟨l, hl, -⟩
  cases hl

theorem Apart.unlock (h : Apart locks) : Apart (unlock locks p r) := fun p q kind b hp hq =>
  h p q kind b (holds_unlock.mp hp).1 (holds_unlock.mp hq).1

/-- A lock that nothing is in the way of leaves the processes apart. -/
theorem Apart.lock (h : Apart locks) (hfree : getlk locks p kind r = none) : Apart (lock locks p kind r) := by
  rw [getlk_eq_none] at hfree
  intro x y k b hx hy
  obtain ⟨rfl, hb, hk⟩ | ⟨hx', hxout⟩ := holds_lock.mp hx
  · obtain ⟨rfl, -, hk'⟩ | ⟨hy', hyout⟩ := holds_lock.mp hy
    · exact ⟨rfl, hk'.trans hk.symm⟩
    · have hyx : y ≠ x := fun hyx => hyout ⟨hyx, hb⟩
      obtain ⟨-, hrd⟩ := hfree y k b hyx hb hy'
      rw [← hk] at hrd
      cases hrd
  · obtain ⟨rfl, hb, hk'⟩ | ⟨hy', -⟩ := holds_lock.mp hy
    · have hxy : x ≠ y := fun hxy => hxout ⟨hxy, hb⟩
      obtain ⟨hwr, -⟩ := hfree x .wr b hxy hb hx'
      cases hwr
    · exact h x y k b hx' hy'

/-! ### Waiting for a lock -/

structure Request where
  kind : Kind
  region : Region
  deriving DecidableEq

/-- The locks, and what a process in `F_SETLKW` is waiting for. -/
structure Table (P : Type*) where
  locks : List (Lock P)
  waiting : P → Option Request

namespace Table

/-- Who has a lock that is in the way of the request. -/
def blockers (t : Table P) (p : P) (r : Request) : Finset P :=
  ((t.locks.filter fun l => l.Blocks p r.kind r.region).map Lock.owner).toFinset

/-- Those `p` waits for. -/
def next (t : Table P) (p : P) : Finset P :=
  match t.waiting p with
  | none => ∅
  | some r => t.blockers p r

/-- Somebody in the way of the request waits, through others, for `p` itself. -/
def Deadlk (t : Table P) (p : P) (r : Request) : Prop :=
  ∃ q ∈ t.blockers p r, Relation.ReflTransGen (WaitFor.Waits t.next) q p

/-- Whether such a way of no more than `depth` steps is found. -/
def search (depth : ℕ) (t : Table P) (p : P) (r : Request) : Bool := p ∈ WaitFor.leads t.next depth (t.blockers p r)

/-- The request is granted, and `p` goes on. -/
def grant (t : Table P) (p : P) (r : Request) : Table P where
  locks := lock t.locks p r.kind r.region
  waiting := Function.update t.waiting p none

def sleep (t : Table P) (p : P) (r : Request) : Table P :=
  { t with waiting := Function.update t.waiting p (some r) }

/-- The wait is over without a lock. -/
def stop (t : Table P) (p : P) : Table P := { t with waiting := Function.update t.waiting p none }

def unlock (t : Table P) (p : P) (r : Region) : Table P := { t with locks := RecordLocks.unlock t.locks p r }

/-- The process ends. -/
def leave (t : Table P) (p : P) : Table P where
  locks := t.locks.filter fun l => l.owner ≠ p
  waiting := Function.update t.waiting p none

def NoRing (t : Table P) : Prop := WaitFor.Acyclic t.next

variable {t : Table P} {p q : P} {r : Request} {s : Region} {depth : ℕ}

theorem mem_blockers : q ∈ t.blockers p r ↔
    q ≠ p ∧ ∃ k b, b ∈ r.region ∧ Holds t.locks q k b ∧ (k = .wr ∨ r.kind = .wr) := by
  simp only [blockers, List.mem_toFinset, List.mem_map, List.mem_filter, decide_eq_true_eq]
  constructor
  · rintro ⟨l, ⟨hl, howner, hkinds, hover⟩, rfl⟩
    obtain ⟨b, hbl, hb⟩ := Region.overlaps_iff.mp hover
    exact ⟨howner, l.kind, b, hb, ⟨l, hl, rfl, rfl, hbl⟩, hkinds⟩
  · rintro ⟨hq, k, b, hb, ⟨l, hl, rfl, rfl, hbl⟩, hkinds⟩
    exact ⟨l, ⟨hl, hq, hkinds, Region.overlaps_iff.mpr ⟨b, hbl, hb⟩⟩, rfl⟩

theorem getlk_eq_none_iff : getlk t.locks p r.kind r.region = none ↔ t.blockers p r = ∅ := by
  rw [getlk_eq_none, Finset.eq_empty_iff_forall_notMem]
  constructor
  · intro h q hq
    obtain ⟨hqp, k, b, hb, hholds, hkinds⟩ := mem_blockers.mp hq
    obtain ⟨hk, hr⟩ := h q k b hqp hb hholds
    rw [hk, hr] at hkinds
    simp at hkinds
  · intro h q k b hqp hb hholds
    by_contra hkinds
    refine h q (mem_blockers.mpr ⟨hqp, k, b, hb, hholds, ?_⟩)
    revert hkinds
    cases k <;> cases r.kind <;> simp

theorem owner_mem_blockers {l : Lock P} (h : getlk t.locks p r.kind r.region = some l) : l.owner ∈ t.blockers p r := by
  have hblocks := List.find?_some h
  simp only [blockers, List.mem_toFinset, List.mem_map, List.mem_filter]
  exact ⟨l, ⟨List.mem_of_find?_eq_some h, hblocks⟩, rfl⟩

theorem search_iff [Finite P] (hdepth : Nat.card P ≤ depth + 1) : search depth t p r ↔ t.Deadlk p r := by
  have : Fintype P := Fintype.ofFinite P
  rw [Nat.card_eq_fintype_card] at hdepth
  rw [search, decide_eq_true_eq]
  exact WaitFor.mem_leads (Finset.subset_univ _) (fun _ => Finset.subset_univ _) hdepth

theorem next_of_none (h : t.waiting p = none) : t.next p = ∅ := by
  unfold next
  rw [h]

theorem next_of_some (h : t.waiting p = some r) : t.next p = t.blockers p r := by
  unfold next
  rw [h]

/-- With less to wait for and fewer who wait. -/
theorem next_subset {t' : Table P} (hlocks : ∀ q k b, Holds t'.locks q k b → Holds t.locks q k b)
    (hwaiting : ∀ x req, t'.waiting x = some req → t.waiting x = some req) (x : P) : t'.next x ⊆ t.next x := by
  cases hx : t'.waiting x with
  | none => rw [next_of_none hx]; exact Finset.empty_subset _
  | some req =>
    rw [next_of_some hx, next_of_some (hwaiting x req hx)]
    intro q hq
    obtain ⟨hqx, k, b, hb, hholds, hkinds⟩ := mem_blockers.mp hq
    exact mem_blockers.mpr ⟨hqx, k, b, hb, hlocks q k b hholds, hkinds⟩

theorem waiting_of_update_none {w : P → Option Request} {x : P} {req : Request}
    (h : Function.update w p none x = some req) : w x = some req := by
  by_cases hx : x = p
  · subst hx
    rw [Function.update_self] at h
    cases h
  · rwa [Function.update_of_ne hx] at h

theorem holds_of_leave {kind : Kind} {b : ℕ} (h : Holds (t.leave p).locks q kind b) : Holds t.locks q kind b := by
  obtain ⟨l, hl, hrest⟩ := h
  exact ⟨l, (List.mem_filter.mp hl).1, hrest⟩

theorem apart_leave (h : Apart t.locks) : Apart (t.leave p).locks := fun x y k b hx hy =>
  h x y k b (holds_of_leave hx) (holds_of_leave hy)

namespace NoRing

theorem grant (h : t.NoRing) : (t.grant p r).NoRing := by
  refine WaitFor.Acyclic.grant h (next_of_none (Function.update_self ..)) fun x q hq => ?_
  cases hx : (t.grant p r).waiting x with
  | none =>
    rw [next_of_none hx] at hq
    exact absurd hq (Finset.notMem_empty q)
  | some req =>
    rw [next_of_some hx] at hq
    obtain ⟨hqx, k, b, hb, hholds, hkinds⟩ := mem_blockers.mp hq
    obtain ⟨rfl, -, -⟩ | ⟨hholds, -⟩ := holds_lock.mp hholds
    · exact .inl rfl
    · refine .inr ?_
      rw [next_of_some (waiting_of_update_none hx)]
      exact mem_blockers.mpr ⟨hqx, k, b, hb, hholds, hkinds⟩

theorem sleep (h : t.NoRing) (hdeadlk : ¬ t.Deadlk p r) : (t.sleep p r).NoRing := by
  refine WaitFor.Acyclic.sleep h (p := p) (fun x hx => ?_) fun q hq hqp => hdeadlk ?_
  · simp only [next, Table.sleep, Function.update_of_ne hx]
    rfl
  · rw [next_of_some (Function.update_self ..)] at hq
    exact ⟨q, hq, hqp⟩

theorem stop (h : t.NoRing) : (t.stop p).NoRing :=
  WaitFor.Acyclic.anti h (next_subset (fun _ _ _ => id) fun _ _ => waiting_of_update_none)

theorem unlock (h : t.NoRing) : (t.unlock p s).NoRing :=
  WaitFor.Acyclic.anti h (next_subset (fun _ _ _ hq => (holds_unlock.mp hq).1) fun _ _ => id)

theorem leave (h : t.NoRing) : (t.leave p).NoRing :=
  WaitFor.Acyclic.anti h (next_subset (fun _ _ _ => holds_of_leave) fun _ _ => waiting_of_update_none)

/-- Behind everybody who waits there is somebody who goes on, or whose lock is free now. -/
theorem exists_free [Finite P] (h : t.NoRing) (p : P) : ∃ q, Relation.ReflTransGen (WaitFor.Waits t.next) p q ∧
    ∀ r, t.waiting q = some r → getlk t.locks q r.kind r.region = none := by
  obtain ⟨q, hpq, hq⟩ := WaitFor.Acyclic.exists_free h p
  refine ⟨q, hpq, fun r hr => ?_⟩
  rw [next_of_some hr] at hq
  exact getlk_eq_none_iff.mpr hq

end NoRing

end Table

end RecordLocks

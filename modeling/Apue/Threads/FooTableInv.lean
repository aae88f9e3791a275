import Apue.Threads.FooTable

/-!
# The invariant of the hash table

`Inv` says who holds which lock (`Locks`), what is true of the table and the objects whatever the
threads are doing (`Table`), and what a thread at its program point may rely on (`Ok`). The classes of
program points (`Pc.needs`, `Pc.finds`, `Pc.last` ...) name the reasons a pointer is safe:

* `needs`: the thread owns a reference to the object;
* `finds`: the object is in the table and the thread holds `hashlock` or the object's mutex;
* `last`: the thread owns the only reference, and it stays so until the object is freed;
* `priv`: the object is not in the table yet and only this thread knows it.

Another thread's step keeps all this (`Ok.frame`, `Same`): an object somebody needs or finds is
neither unlinked nor freed, because that takes the last reference, and a loaded `f_count` stays
current, because it is only stored under the object's mutex.
-/

namespace Apue.FooTable
open Linked Threads Transition

/-! ### Classes of program points -/

@[simp] def Pc.holdsHash : Pc → Bool
  | .allocNext _ _ | .allocHead _ _ | .allocLock _ | .allocUnhash _ => true
  | .holdLock _ found | .holdLoad _ found | .holdStore _ _ found | .holdUnlock _ found => found
  | .findHead _ | .findTest _ _ | .findUnhash _ => true
  | .relLock2 _ | .relTest2 _ | .relHead _ | .relCmp _ _ _ | .relWalk _ _ | .relUnhash _ => true
  | .decLoad _ hashed | .decStore _ _ hashed | .decUnlock _ hashed => hashed
  | .decUnhash => true
  | _ => false

@[simp] def Pc.holdsFoo : Pc → Option ℕ
  | .allocUnhash fp | .allocUnlock fp => some fp
  | .holdLoad fp _ | .holdStore fp _ _ | .holdUnlock fp _ => some fp
  | .relTest fp | .relUnlock fp | .relTest2 fp | .relHead fp | .relCmp fp _ _ | .relWalk fp _ => some fp
  | .relUnhash fp | .relUnlock2 fp => some fp
  | .decLoad fp _ | .decStore fp _ _ | .decUnlock fp _ => some fp
  | _ => none

/-- The new object of a `foo_alloc` that is not in the table yet, with its id. -/
@[simp] def Pc.priv : Pc → Option (ℕ × ℤ)
  | .allocHash fp id | .allocNext fp id | .allocHead fp id => some (fp, id)
  | _ => none

/-- The object the thread must own a reference to. -/
@[simp] def Pc.needs : Pc → Option ℕ
  | .allocLock fp | .allocUnhash fp | .allocUnlock fp => some fp
  | .holdLock fp false | .holdLoad fp false | .holdStore fp _ false | .holdUnlock fp _ => some fp
  | .relLock fp | .relTest fp | .relUnlock fp | .relHash fp | .relLock2 fp | .relTest2 fp => some fp
  | .relHead fp | .relCmp fp _ _ | .relWalk fp _ => some fp
  | .relUnhash fp | .relUnlock2 fp | .relFree fp => some fp
  | .decLoad fp _ | .decStore fp _ _ => some fp
  | _ => none

/-- The object that must be in the table. -/
@[simp] def Pc.finds : Pc → Option ℕ
  | .holdLock fp true | .holdLoad fp true | .holdStore fp _ true => some fp
  | .findTest _ fp => fp
  | .decUnlock fp _ => some fp
  | _ => none

/-- The object whose only reference the thread owns. -/
@[simp] def Pc.last : Pc → Option ℕ
  | .relHead fp | .relCmp fp _ _ | .relWalk fp _ => some fp
  | .relUnhash fp | .relUnlock2 fp | .relFree fp => some fp
  | _ => none

/-- The object the thread has unlinked and not yet freed. -/
@[simp] def Pc.removing : Pc → Option ℕ
  | .relUnhash fp | .relUnlock2 fp | .relFree fp => some fp
  | _ => none

/-- The `f_count` the thread has loaded and will store changed. -/
@[simp] def Pc.loaded : Pc → Option (ℕ × BitVec 32)
  | .holdStore fp v _ | .decStore fp v _ => some (fp, v)
  | _ => none

/-- The object whose count the thread is lowering without freeing it. -/
@[simp] def Pc.lowers : Pc → Option ℕ
  | .decLoad fp _ | .decStore fp _ _ => some fp
  | _ => none

/-! ### The invariant -/

variable {T : Type*}

def Data.next (d : Data T) (fp : ℕ) : Option ℕ := (d.mem fp).fNext

def Data.bucket (d : Data T) (fp : ℕ) : Fin NHASH := HASH (d.mem fp).fId

/-- The locks are held by the threads inside their critical sections. -/
structure Locks (s : State T) : Prop where
  hash : ∀ t, s.hashlock = some t ↔ (s.pc t).holdsHash = true
  foo : ∀ t fp, s.fLock fp = some t ↔ (s.pc t).holdsFoo = some fp

/-- What holds of the table and of every object; `L b` are the objects on the chain of bucket `b`. -/
structure Table [Fintype T] (d : Data T) (L : Fin NHASH → List ℕ) : Prop where
  chain : ∀ b, Chain d.next (d.fh b) (L b)
  members : ∀ b fp, fp ∈ L b ↔ d.InTable fp ∧ d.bucket fp = b
  tableLive : ∀ fp, d.InTable fp → d.Live fp
  count : ∀ fp, d.Live fp → (d.mem fp).fCount.toInt = d.refs fp
  owned : ∀ fp, d.Live fp → 1 ≤ d.refs fp
  dead : ∀ fp, ¬ d.Live fp → d.refs fp = 0
  fresh : ∀ fp, d.brk ≤ fp → d.inserts fp = 0 ∧ d.unlinks fp = 0 ∧ d.frees fp = 0 ∧ d.zeros fp = 0
  once : ∀ fp, d.inserts fp ≤ 1 ∧ d.unlinks fp ≤ d.inserts fp ∧ d.zeros fp ≤ d.frees fp
  freed : ∀ fp, d.inserts fp = 1 → d.frees fp ≤ d.unlinks fp ∧ d.zeros fp = d.frees fp

/-- What the thread `t` may rely on at the program point `p`. -/
structure Ok [Fintype T] (d : Data T) (L : Fin NHASH → List ℕ) (t : T) (p : Pc) : Prop where
  own : ∀ fp, 1 ≤ d.own t fp → d.Live fp ∧
    (d.InTable fp ∨ (∃ id, p.priv = some (fp, id)) ∨ p.removing = some fp)
  priv : ∀ fp id, p.priv = some (fp, id) →
    d.inserts fp = 0 ∧ (d.mem fp).fId = id ∧ d.own t fp = 1 ∧ d.refs fp = 1
  needs : ∀ fp, p.needs = some fp → 1 ≤ d.own t fp
  finds : ∀ fp, p.finds = some fp → d.InTable fp
  last : ∀ fp, p.last = some fp → d.refs fp = 1
  removing : ∀ fp, p.removing = some fp → d.inserts fp = 1 ∧ d.unlinks fp = 1
  loaded : ∀ fp v, p.loaded = some (fp, v) → (d.mem fp).fCount = v
  lowers : ∀ fp, p.lowers = some fp → (d.mem fp).fCount ≠ 1
  head : ∀ fp id, p = .allocHead fp id → d.next fp = d.fh (HASH id)
  cmp : ∀ fp idx tfp, p = .relCmp fp idx tfp → idx = d.bucket fp ∧ tfp = d.fh idx
  walk : ∀ fp tfp, p = .relWalk fp tfp → ∃ x pre mid post, tfp = some x ∧
    L (d.bucket fp) = pre ++ x :: mid ++ fp :: post

structure Inv [Fintype T] (s : State T) : Prop where
  locks : Locks s
  data : ∃ L, Table s.toData L ∧ ∀ t, Ok s.toData L t (s.pc t)
  noFault : s.fault = false

/-! ### Counting references -/

section refs
variable [Fintype T] {d : Data T} {t t' : T} {fp : ℕ}

theorem own_le_refs : d.own t fp ≤ d.refs fp := le_sum (fun t => d.own t fp) t

theorem own_add_own_le_refs (d : Data T) (fp : ℕ) (h : t ≠ t') : d.own t fp + d.own t' fp ≤ d.refs fp := by
  classical
  exact add_le_sum (fun t => d.own t fp) h

variable [DecidableEq T]

theorem refs_setOwn (d : Data T) (t : T) (fp n : ℕ) : (d.setOwn t fp n).refs fp + d.own t fp = d.refs fp + n := by
  have hsum := sum_update d.own t (Function.update (d.own t) fp n) fun f => f fp
  simp only [Function.update_self] at hsum
  exact hsum

theorem refs_setOwn_of_ne {fp' : ℕ} (n : ℕ) (h : fp' ≠ fp) : (d.setOwn t fp n).refs fp' = d.refs fp' := by
  have hsum := sum_update d.own t (Function.update (d.own t) fp n) fun f => f fp'
  rw [Function.update_of_ne h] at hsum
  exact Nat.add_right_cancel hsum

end refs

/-! ### What the classes have to do with each other -/

namespace Pc
variable {p : Pc} {fp : ℕ}

theorem needs_of_removing (h : p.removing = some fp) : p.needs = some fp := by
  cases p <;> simp_all

theorem needs_of_last (h : p.last = some fp) : p.needs = some fp := by
  cases p <;> simp_all

theorem holdsFoo_of_loaded {v : BitVec 32} (h : p.loaded = some (fp, v)) : p.holdsFoo = some fp := by
  cases p <;> simp_all

theorem holdsFoo_of_lowers (h : p.lowers = some fp) : p.holdsFoo = some fp := by
  cases p <;> simp_all

theorem holds_of_finds (h : p.finds = some fp) : p.holdsHash = true ∨ p.holdsFoo = some fp := by
  cases p <;> simp_all
  all_goals rename_i found; cases found <;> simp_all

theorem holdsFoo_of_last (h : p.last = some fp) : p.holdsFoo = some fp ∨ p.removing = some fp := by
  cases p <;> simp_all

theorem needs_or_finds_of_holdsFoo (h : p.holdsFoo = some fp) :
    p.needs = some fp ∨ p.finds = some fp := by
  cases p <;> simp_all
  all_goals rename_i found; cases found <;> simp_all

end Pc

/-! ### Frame -/

section frame
variable [Fintype T] {d d' : Data T} {L L' : Fin NHASH → List ℕ} {t : T} {p : Pc}

/-- The change from `d` to `d'` leaves alone what the thread `t` at `p` relies on. -/
structure Same (d d' : Data T) (L L' : Fin NHASH → List ℕ) (t : T) (p : Pc) : Prop where
  own : ∀ fp, d'.own t fp = d.own t fp
  kept : ∀ fp, 1 ≤ d.own t fp ∨ p.finds = some fp → d'.inserts fp = d.inserts fp ∧
    d'.unlinks fp = d.unlinks fp ∧ (d'.mem fp).fId = (d.mem fp).fId ∧ (d.Live fp → d'.Live fp)
  count : ∀ fp, p.holdsFoo = some fp → (d'.mem fp).fCount = (d.mem fp).fCount
  refs : ∀ fp, (∃ id, p.priv = some (fp, id)) ∨ p.last = some fp → d'.refs fp = d.refs fp
  table : p.holdsHash = true → d'.fh = d.fh ∧ L' = L
  next : ∀ fp id, p.priv = some (fp, id) → d'.next fp = d.next fp

theorem Same.inTable (h : Same d d' L L' t p) {fp : ℕ} (hfp : 1 ≤ d.own t fp ∨ p.finds = some fp) :
    d'.InTable fp ↔ d.InTable fp := by
  obtain ⟨hi, hu, -, -⟩ := h.kept fp hfp
  rw [Data.InTable, Data.InTable, hi, hu]

theorem Ok.frame (h : Ok d L t p) (hs : Same d d' L L' t p) : Ok d' L' t p where
  own fp hfp := by
    rw [hs.own] at hfp
    obtain ⟨hlive, hwhere⟩ := h.own fp hfp
    rw [hs.inTable (Or.inl hfp)]
    exact ⟨(hs.kept fp (Or.inl hfp)).2.2.2 hlive, hwhere⟩
  priv fp id hp := by
    obtain ⟨hi, hid, hown, hrefs⟩ := h.priv fp id hp
    obtain ⟨hi', -, hid', -⟩ := hs.kept fp (Or.inl (by omega))
    rw [hi', hid', hs.own, hs.refs fp (Or.inl ⟨id, hp⟩)]
    exact ⟨hi, hid, hown, hrefs⟩
  needs fp hp := by
    rw [hs.own]
    exact h.needs fp hp
  finds fp hp := (hs.inTable (Or.inr hp)).mpr (h.finds fp hp)
  last fp hp := by
    rw [hs.refs fp (Or.inr hp)]
    exact h.last fp hp
  removing fp hp := by
    obtain ⟨hi, hu, -, -⟩ := hs.kept fp (Or.inl (h.needs fp (Pc.needs_of_removing hp)))
    rw [hi, hu]
    exact h.removing fp hp
  loaded fp v hp := by
    rw [hs.count fp (Pc.holdsFoo_of_loaded hp)]
    exact h.loaded fp v hp
  lowers fp hp := by
    rw [hs.count fp (Pc.holdsFoo_of_lowers hp)]
    exact h.lowers fp hp
  head fp id hp := by
    rw [hs.next fp id (by simp [hp]), (hs.table (by simp [hp])).1]
    exact h.head fp id hp
  cmp fp idx tfp hp := by
    have hown := h.needs fp (by simp [hp])
    rw [Data.bucket, (hs.kept fp (Or.inl hown)).2.2.1, (hs.table (by simp [hp])).1]
    exact h.cmp fp idx tfp hp
  walk fp tfp hp := by
    have hown := h.needs fp (by simp [hp])
    rw [Data.bucket, (hs.kept fp (Or.inl hown)).2.2.1, (hs.table (by simp [hp])).2]
    exact h.walk fp tfp hp

end frame

end Apue.FooTable

import Apue.Threads.CoarseTable
import Apue.Threads.FooTableRun

/-!
# The invariant of the coarsely locked table

The chains and counts are those of the other table (`Counted`), and again `Ok` is what a thread may rely on
at its program point, whatever the others do. The table belongs to the thread that holds `hashlock`. The
counts belong to nobody: a loaded `f_count` stays current only because no second thread loads it meanwhile
(`Inv.loadedOnce`), which the condition on the run brings about and no lock does.

An object whose count has become 0 has no owner left, so only the thread that made it 0 knows it
(`Inv.removingOnce`), and that thread unlinks it before it gives up `hashlock`.
-/

namespace Apue.CoarseTable
open FooTable Linked Threads Transition

/-! ### Classes of program points -/

@[simp] def Pc.holdsHash : Pc → Bool
  | .allocNext _ _ | .allocHead _ _ | .allocLock _ | .allocUnhash _ => true
  | .holdLock _ found | .holdLoad _ found | .holdStore _ _ found | .holdUnlock _ found => found
  | .findHead _ | .findTest _ _ | .findUnhash _ => true
  | .relLoad _ | .relStore _ _ | .relHead _ | .relCmp _ _ _ | .relWalk _ _ | .relUnhash _ | .relDone => true
  | _ => false

/-- The new object of a `foo_alloc` that is not in the table yet, with its id. -/
@[simp] def Pc.priv : Pc → Option (ℕ × ℤ)
  | .allocHash fp id | .allocNext fp id | .allocHead fp id => some (fp, id)
  | _ => none

/-- The object the thread must own a reference to. -/
@[simp] def Pc.needs : Pc → Option ℕ
  | .allocLock fp | .allocUnhash fp | .allocUnlock fp => some fp
  | .holdLock fp false | .holdLoad fp false | .holdStore fp _ false | .holdUnlock fp _ => some fp
  | .relHash fp | .relLoad fp | .relStore fp _ => some fp
  | _ => none

/-- The object that must be in the table, while the thread holds `hashlock`. -/
@[simp] def Pc.finds : Pc → Option ℕ
  | .holdLock fp true | .holdLoad fp true | .holdStore fp _ true => some fp
  | .findTest _ fp => fp
  | .relHead fp | .relCmp fp _ _ | .relWalk fp _ => some fp
  | _ => none

/-- The object the thread has unlinked and not yet freed. -/
@[simp] def Pc.unlinked : Pc → Option ℕ
  | .relUnhash fp | .relFree fp => some fp
  | _ => none

namespace Pc
variable {p : Pc} {fp : ℕ}

theorem needs_or_finds_of_loaded {v : BitVec 32} (h : p.loaded = some (fp, v)) : p.needs = some fp ∨ p.finds = some fp := by
  cases p <;> simp_all
  rename_i found
  cases found <;> simp_all

theorem holdsHash_of_finds (h : p.finds = some fp) : p.holdsHash = true := by
  cases p <;> simp_all
  all_goals rename_i found; cases found <;> simp_all

theorem finds_or_unlinked_of_removing (h : p.removing = some fp) : p.finds = some fp ∨ p.unlinked = some fp := by
  cases p <;> simp_all

theorem removing_of_unlinked (h : p.unlinked = some fp) : p.removing = some fp := by
  cases p <;> simp_all

end Pc

/-! ### The invariant -/

variable {T : Type*} [Fintype T] {d d' : Data T} {L L' : Fin NHASH → List ℕ} {t u : T} {p p' : Pc}
  {fp x : ℕ} {id : ℤ}

/-- What the thread `t` may rely on at the program point `p`. -/
structure Ok (d : Data T) (L : Fin NHASH → List ℕ) (t : T) (p : Pc) : Prop where
  own : ∀ fp, 1 ≤ d.own t fp → d.Live fp ∧ (d.InTable fp ∨ ∃ id, p.priv = some (fp, id))
  priv : ∀ fp id, p.priv = some (fp, id) →
    d.inserts fp = 0 ∧ (d.mem fp).fId = id ∧ d.own t fp = 1 ∧ d.refs fp = 1
  needs : ∀ fp, p.needs = some fp → 1 ≤ d.own t fp
  finds : ∀ fp, p.finds = some fp → d.InTable fp
  removing : ∀ fp, p.removing = some fp → d.Live fp ∧ d.refs fp = 0
  unlinked : ∀ fp, p.unlinked = some fp → d.unlinks fp = 1
  loaded : ∀ fp v, p.loaded = some (fp, v) → (d.mem fp).fCount = v
  head : ∀ fp id, p = .allocHead fp id → d.next fp = d.fh (HASH id)
  cmp : ∀ fp idx tfp, p = .relCmp fp idx tfp → idx = d.bucket fp ∧ tfp = d.fh idx
  walk : ∀ fp tfp, p = .relWalk fp tfp → ∃ x pre mid post, tfp = some x ∧
    L (d.bucket fp) = pre ++ x :: mid ++ fp :: post

structure Inv (s : State T) : Prop where
  hash : s.hashlock.Guards Pc.holdsHash s.pc
  data : ∃ L, Counted s.toData L ∧ ∀ t, Ok s.toData L t (s.pc t)
  loadedOnce : ∀ t u fp v w, (s.pc t).loaded = some (fp, v) → (s.pc u).loaded = some (fp, w) → t = u
  removingOnce : ∀ t u fp, (s.pc t).removing = some fp → (s.pc u).removing = some fp → t = u
  last : ∀ fp, s.Live fp → s.refs fp = 0 → ∃ t, (s.pc t).removing = some fp
  noFault : s.fault = false

theorem Ok.inTable (h : Ok d L t p) (hpriv : p.priv = none) (hown : 1 ≤ d.own t fp) : d.InTable fp := by
  obtain hin | ⟨id, hid⟩ := (h.own fp hown).2
  · exact hin
  · rw [hpriv] at hid
    cases hid

theorem Ok.live (h : Ok d L t p) (htable : Counted d L) (hp : p.needs = some fp ∨ p.finds = some fp ∨
    p.removing = some fp ∨ ∃ id, p.priv = some (fp, id)) : d.Live fp := by
  obtain hneeds | hfinds | hremoving | ⟨id, hpriv⟩ := hp
  · exact (h.own fp (h.needs fp hneeds)).1
  · exact htable.tableLive fp (h.finds fp hfinds)
  · exact (h.removing fp hremoving).1
  · exact (h.own fp (h.priv fp id hpriv).2.2.1.ge).1

/-! ### Frame -/

/-- The change from `d` to `d'` leaves alone what the thread `t` at `p` relies on. -/
structure Same (d d' : Data T) (L L' : Fin NHASH → List ℕ) (t : T) (p : Pc) : Prop where
  own : ∀ fp, d'.own t fp = d.own t fp
  kept : ∀ fp, 1 ≤ d.own t fp ∨ p.finds = some fp ∨ p.removing = some fp → d'.inserts fp = d.inserts fp ∧
    d'.unlinks fp = d.unlinks fp ∧ (d'.mem fp).fId = (d.mem fp).fId ∧ (d.Live fp → d'.Live fp)
  refs : ∀ fp, (∃ id, p.priv = some (fp, id)) ∨ p.removing = some fp → d'.refs fp = d.refs fp
  count : ∀ fp v, p.loaded = some (fp, v) → (d'.mem fp).fCount = (d.mem fp).fCount
  table : p.holdsHash = true → d'.fh = d.fh ∧ L' = L
  next : ∀ fp id, p.priv = some (fp, id) → d'.next fp = d.next fp

theorem Ok.frame (h : Ok d L t p) (hs : Same d d' L L' t p) : Ok d' L' t p where
  own fp hfp := by
    rw [hs.own] at hfp
    obtain ⟨hlive, hwhere⟩ := h.own fp hfp
    obtain ⟨hi, hu, -, hlive'⟩ := hs.kept fp (Or.inl hfp)
    rw [Data.InTable, hi, hu]
    exact ⟨hlive' hlive, hwhere⟩
  priv fp id hp := by
    obtain ⟨hi, hid, hown, hrefs⟩ := h.priv fp id hp
    obtain ⟨hi', -, hid', -⟩ := hs.kept fp (Or.inl (by omega))
    rw [hi', hid', hs.own, hs.refs fp (Or.inl ⟨id, hp⟩)]
    exact ⟨hi, hid, hown, hrefs⟩
  needs fp hp := by
    rw [hs.own]
    exact h.needs fp hp
  finds fp hp := by
    obtain ⟨hi, hu, -, -⟩ := hs.kept fp (Or.inr (Or.inl hp))
    rw [Data.InTable, hi, hu]
    exact h.finds fp hp
  removing fp hp := by
    obtain ⟨hlive, hrefs⟩ := h.removing fp hp
    rw [hs.refs fp (Or.inr hp)]
    exact ⟨(hs.kept fp (Or.inr (Or.inr hp))).2.2.2 hlive, hrefs⟩
  unlinked fp hp := by
    rw [(hs.kept fp (Or.inr (Or.inr (Pc.removing_of_unlinked hp)))).2.1]
    exact h.unlinked fp hp
  loaded fp v hp := by
    rw [hs.count fp v hp]
    exact h.loaded fp v hp
  head fp id hp := by
    rw [hs.next fp id (by simp [hp]), (hs.table (by simp [hp])).1]
    exact h.head fp id hp
  cmp fp idx tfp hp := by
    rw [Data.bucket, (hs.kept fp (by simp [hp])).2.2.1, (hs.table (by simp [hp])).1]
    exact h.cmp fp idx tfp hp
  walk fp tfp hp := by
    rw [Data.bucket, (hs.kept fp (by simp [hp])).2.2.1, (hs.table (by simp [hp])).2]
    exact h.walk fp tfp hp

theorem Ok.same_of_only (hok : Ok d L u p) (h : Only d d' t fp) (hu : u ≠ t) (hown : d.own u fp = 0)
    (hfinds : p.finds ≠ some fp) (hremoving : p.removing ≠ some fp)
    (htable : p.holdsHash = true → d'.fh = d.fh ∧ L' = L) : Same d d' L L' u p := by
  have hkept : ∀ x, 1 ≤ d.own u x ∨ p.finds = some x ∨ p.removing = some x → x ≠ fp := by
    rintro x (hx | hx | hx) rfl
    · omega
    · exact hfinds hx
    · exact hremoving hx
  have hpriv : ∀ x id, p.priv = some (x, id) → x ≠ fp := fun x id hx =>
    hkept x (Or.inl (hok.priv x id hx).2.2.1.ge)
  constructor
  case own => exact fun x => by rw [h.own u hu]
  case kept =>
    intro x hx
    have hne := hkept x hx
    exact ⟨(h.counts x hne).1, (h.counts x hne).2.1, (h.cell x hne).1, h.live x hne⟩
  case refs =>
    rintro x (⟨id, hx⟩ | hx)
    · exact (h.counts x (hpriv x id hx)).2.2
    · exact (h.counts x (hkept x (Or.inr (Or.inr hx)))).2.2
  case count =>
    intro x v hx
    refine (h.cell x (hkept x ?_)).2
    obtain hneeds | hfinds := Pc.needs_or_finds_of_loaded hx
    · exact Or.inl (hok.needs x hneeds)
    · exact Or.inr (Or.inl hfinds)
  case table => exact htable
  case next => exact fun x id hx => h.next x (hpriv x id hx) (hok.priv x id hx).1

end Apue.CoarseTable

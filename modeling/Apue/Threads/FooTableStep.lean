import Apue.Threads.FooTableData

/-!
# What one statement does to the invariant

A statement moves one thread on. The locks follow its program point (`Locks.goto`, `Locks.lockHash`
...), and what the other threads rely on is kept for one of three reasons: nothing changed but this
thread (`Inv.settle`), the change is about an object nobody else has a claim on (`Only.same`), or it is
a new `f_count` of an object that only this thread has locked (`Inv.same_store`).
-/

namespace Apue.FooTable
open Linked Threads

variable {T : Type*} [Fintype T] [DecidableEq T] {s s' : State T} {d d' : Data T}
  {L L' : Fin NHASH → List ℕ} {t u : T} {p p' : Pc} {fp : ℕ} {id : ℤ}

/-! ### The locks -/

section locks
omit [Fintype T]

omit [DecidableEq T] in
theorem Locks.hash_unique (h : Locks s) (ht : (s.pc t).holdsHash = true) (hu : (s.pc u).holdsHash = true) :
    t = u :=
  Option.some.inj (((h.hash t).mpr ht).symm.trans ((h.hash u).mpr hu))

omit [DecidableEq T] in
theorem Locks.foo_unique (h : Locks s) (ht : (s.pc t).holdsFoo = some fp)
    (hu : (s.pc u).holdsFoo = some fp) : t = u :=
  Option.some.inj (((h.foo t fp).mpr ht).symm.trans ((h.foo u fp).mpr hu))

theorem Locks.goto (h : Locks s) (hhash : p'.holdsHash = (s.pc t).holdsHash)
    (hfoo : p'.holdsFoo = (s.pc t).holdsFoo) : Locks (s.goto t d p') := by
  refine ⟨Mutex.Guards.goto h.hash hhash, ?_⟩
  intro u fp
  by_cases hu : u = t
  · subst hu
    simp only [Machine.goto, Function.update_self, hfoo, h.foo]
  · simp only [Machine.goto, Function.update_of_ne hu, h.foo]

theorem Locks.lockHash (h : Locks s) (hs : s.lockHash t p' = some s') (hhash : p'.holdsHash = true)
    (hfoo : p'.holdsFoo = (s.pc t).holdsFoo) : Locks s' := by
  obtain ⟨l, hl, rfl⟩ := Option.map_eq_some_iff.mp hs
  refine ⟨Mutex.Guards.lock h.hash hl hhash, ?_⟩
  intro u fp
  by_cases hu : u = t
  · subst hu
    simp only [Function.update_self, hfoo, h.foo]
  · simp only [Function.update_of_ne hu, h.foo]

theorem Locks.unlockHash (h : Locks s) (hs : s.unlockHash t p' = some s')
    (hheld : (s.pc t).holdsHash = true) (hhash : p'.holdsHash = false)
    (hfoo : p'.holdsFoo = (s.pc t).holdsFoo) : Locks s' := by
  obtain rfl := Option.some.inj hs
  refine ⟨Mutex.Guards.unlock h.hash hheld hhash, ?_⟩
  intro u fp
  by_cases hu : u = t
  · subst hu
    simp only [Function.update_self, hfoo, h.foo]
  · simp only [Function.update_of_ne hu, h.foo]

theorem Locks.lockFoo (h : Locks s) (hlive : s.Live fp) (hs : s.lockFoo t fp p' = some s')
    (hnone : (s.pc t).holdsFoo = none) (hfoo : p'.holdsFoo = some fp)
    (hhash : p'.holdsHash = (s.pc t).holdsHash) : Locks s' := by
  rw [Machine.lockFoo, Machine.access_of_live _ hlive] at hs
  obtain ⟨l, hl, rfl⟩ := Option.map_eq_some_iff.mp hs
  obtain ⟨hfree, rfl⟩ := Mutex.lock_eq_some.mp hl
  refine ⟨Mutex.Guards.goto h.hash hhash, ?_⟩
  intro u x
  have hold := h.foo u x
  by_cases hu : u = t
  · subst hu
    rw [hnone] at hold
    simp only [Function.update_self, hfoo, Option.some.injEq]
    by_cases hx : x = fp
    · subst hx
      simp only [Function.update_self]
    · rw [Function.update_of_ne hx, hold]
      simp [Ne.symm hx]
  · simp only [Function.update_of_ne hu]
    rw [← hold]
    by_cases hx : x = fp
    · subst hx
      rw [Function.update_self, hfree]
      simp [Ne.symm hu]
    · rw [Function.update_of_ne hx]

theorem Locks.unlockFoo (h : Locks s) (hlive : s.Live fp) (hs : s.unlockFoo t fp p' = some s')
    (hheld : (s.pc t).holdsFoo = some fp) (hfoo : p'.holdsFoo = none)
    (hhash : p'.holdsHash = (s.pc t).holdsHash) : Locks s' := by
  rw [Machine.unlockFoo, Machine.access_of_live _ hlive] at hs
  obtain rfl := Option.some.inj hs
  refine ⟨Mutex.Guards.goto h.hash hhash, ?_⟩
  intro u x
  have hold := h.foo u x
  by_cases hu : u = t
  · subst hu
    rw [hheld, Option.some.injEq] at hold
    simp only [Function.update_self, hfoo, reduceCtorEq, iff_false]
    by_cases hx : x = fp
    · subst hx
      simp
    · rw [Function.update_of_ne hx, hold]
      exact Ne.symm hx
  · simp only [Function.update_of_ne hu]
    rw [← hold]
    by_cases hx : x = fp
    · subst hx
      rw [Function.update_self, hold]
      simp only [reduceCtorEq, false_iff]
      exact fun hheld' => hu (h.foo_unique hheld' hheld)
    · rw [Function.update_of_ne hx]

end locks

/-! ### One statement keeps the invariant -/

theorem Inv.goto (h : Inv s) (hhash : p'.holdsHash = (s.pc t).holdsHash)
    (hfoo : p'.holdsFoo = (s.pc t).holdsFoo)
    (hdata : ∀ L, Table s.toData L → (∀ u, Ok s.toData L u (s.pc u)) → ∃ L', Table d L' ∧
      Ok d L' t p' ∧ ∀ u ≠ t, Same s.toData d L L' u (s.pc u)) : Inv (s.goto t d p') := by
  obtain ⟨L, htable, hok⟩ := h.data
  obtain ⟨L', htable', hok', hsame⟩ := hdata L htable hok
  refine ⟨h.locks.goto hhash hfoo, ⟨L', htable', fun u => ?_⟩, h.noFault⟩
  by_cases hu : u = t
  · subst hu
    simpa only [Machine.goto, Function.update_self] using hok'
  · simpa only [Machine.goto, Function.update_of_ne hu] using (hok u).frame (hsame u hu)

theorem Inv.settle (h : Inv s) {hashlock : Mutex T} {fLock : ℕ → Mutex T}
    (hlocks : Locks { s with hashlock, fLock, pc := Function.update s.pc t p' })
    (hok : ∀ L, Table s.toData L → Ok s.toData L t (s.pc t) → Ok s.toData L t p') :
    Inv { s with hashlock, fLock, pc := Function.update s.pc t p' } := by
  obtain ⟨L, htable, hall⟩ := h.data
  refine ⟨hlocks, ⟨L, htable, fun u => ?_⟩, h.noFault⟩
  by_cases hu : u = t
  · subst hu
    simpa only [Function.update_self] using hok L htable (hall u)
  · simpa only [Function.update_of_ne hu] using hall u

theorem Inv.move (h : Inv s) (hhash : p'.holdsHash = (s.pc t).holdsHash)
    (hfoo : p'.holdsFoo = (s.pc t).holdsFoo)
    (hok : ∀ L, Table s.toData L → Ok s.toData L t (s.pc t) → Ok s.toData L t p') : Inv (s.goto t s.toData p') :=
  h.settle (h.locks.goto hhash hfoo) hok

theorem Inv.lockHash (h : Inv s) (hs : s.lockHash t p' = some s') (hhash : p'.holdsHash = true)
    (hfoo : p'.holdsFoo = (s.pc t).holdsFoo)
    (hok : ∀ L, Ok s.toData L t (s.pc t) → Ok s.toData L t p') : Inv s' := by
  have hlocks := h.locks.lockHash hs hhash hfoo
  obtain ⟨l, -, rfl⟩ := Option.map_eq_some_iff.mp hs
  exact h.settle hlocks fun L _ => hok L

theorem Inv.unlockHash (h : Inv s) (hs : s.unlockHash t p' = some s')
    (hheld : (s.pc t).holdsHash = true) (hhash : p'.holdsHash = false)
    (hfoo : p'.holdsFoo = (s.pc t).holdsFoo)
    (hok : ∀ L, Ok s.toData L t (s.pc t) → Ok s.toData L t p') : Inv s' := by
  have hlocks := h.locks.unlockHash hs hheld hhash hfoo
  obtain rfl := Option.some.inj hs
  exact h.settle hlocks fun L _ => hok L

omit [DecidableEq T] in
theorem Inv.live (h : Inv s) (hp : (s.pc t).needs = some fp ∨ (s.pc t).finds = some fp ∨
    ∃ id, (s.pc t).priv = some (fp, id)) : s.Live fp := by
  obtain ⟨L, htable, hall⟩ := h.data
  have hok := hall t
  rcases hp with hneeds | hfinds | ⟨id, hpriv⟩
  · exact (hok.own fp (hok.needs fp hneeds)).1
  · exact htable.tableLive fp (hok.finds fp hfinds)
  · exact (hok.own fp (hok.priv fp id hpriv).2.2.1.ge).1

theorem Inv.lockFoo (h : Inv s) (hs : s.lockFoo t fp p' = some s')
    (hp : (s.pc t).needs = some fp ∨ (s.pc t).finds = some fp)
    (hnone : (s.pc t).holdsFoo = none) (hfoo : p'.holdsFoo = some fp)
    (hhash : p'.holdsHash = (s.pc t).holdsHash)
    (hok : ∀ L, Ok s.toData L t (s.pc t) → Ok s.toData L t p') : Inv s' := by
  have hlive : s.Live fp := h.live (hp.imp_right Or.inl)
  have hlocks := h.locks.lockFoo hlive hs hnone hfoo hhash
  rw [Machine.lockFoo, Machine.access_of_live _ hlive] at hs
  obtain ⟨l, -, rfl⟩ := Option.map_eq_some_iff.mp hs
  exact h.settle hlocks fun L _ => hok L

theorem Inv.unlockFoo (h : Inv s) (hs : s.unlockFoo t fp p' = some s')
    (hheld : (s.pc t).holdsFoo = some fp) (hfoo : p'.holdsFoo = none)
    (hhash : p'.holdsHash = (s.pc t).holdsHash)
    (hok : ∀ L, Ok s.toData L t (s.pc t) → Ok s.toData L t p') : Inv s' := by
  have hlive : s.Live fp := h.live ((Pc.needs_or_finds_of_holdsFoo hheld).imp_right Or.inl)
  have hlocks := h.locks.unlockFoo hlive hs hheld hfoo hhash
  rw [Machine.unlockFoo, Machine.access_of_live _ hlive] at hs
  obtain rfl := Option.some.inj hs
  exact h.settle hlocks fun L _ => hok L

omit [DecidableEq T] in
theorem Ok.advance (h : Ok d L t p) (hpriv : p'.priv = p.priv) (hremoving : p'.removing = p.removing)
    (hneeds : ∀ fp, p'.needs = some fp → 1 ≤ d.own t fp)
    (hfinds : ∀ fp, p'.finds = some fp → d.InTable fp)
    (hlast : ∀ fp, p'.last = some fp → d.refs fp = 1)
    (hloaded : ∀ fp v, p'.loaded = some (fp, v) → (d.mem fp).fCount = v)
    (hlowers : ∀ fp, p'.lowers = some fp → (d.mem fp).fCount ≠ 1)
    (hhead : ∀ fp id, p' = .allocHead fp id → d.next fp = d.fh (HASH id))
    (hcmp : ∀ fp idx tfp, p' = .relCmp fp idx tfp → idx = d.bucket fp ∧ tfp = d.fh idx)
    (hwalk : ∀ fp tfp, p' = .relWalk fp tfp → ∃ x pre mid post, tfp = some x ∧
      L (d.bucket fp) = pre ++ x :: mid ++ fp :: post) : Ok d L t p' where
  own fp hfp := by
    rw [hpriv, hremoving]
    exact h.own fp hfp
  priv fp id hp := h.priv fp id (hpriv ▸ hp)
  removing fp hp := h.removing fp (hremoving ▸ hp)
  needs := hneeds
  finds := hfinds
  last := hlast
  loaded := hloaded
  lowers := hlowers
  head := hhead
  cmp := hcmp
  walk := hwalk

/-- The program points at which a thread has looked at the chain of a bucket. -/
@[simp] def Pc.OnChain : Pc → Prop
  | .allocHead _ _ | .relCmp _ _ _ | .relWalk _ _ => True
  | _ => False

omit [DecidableEq T] in
/-- At any other program point nothing is asked about a chain. -/
theorem Ok.advance_off (h : Ok d L t p) (hpriv : p'.priv = p.priv) (hremoving : p'.removing = p.removing)
    (hneeds : ∀ fp, p'.needs = some fp → 1 ≤ d.own t fp)
    (hfinds : ∀ fp, p'.finds = some fp → d.InTable fp)
    (hlast : ∀ fp, p'.last = some fp → d.refs fp = 1)
    (hloaded : ∀ fp v, p'.loaded = some (fp, v) → (d.mem fp).fCount = v)
    (hlowers : ∀ fp, p'.lowers = some fp → (d.mem fp).fCount ≠ 1)
    (hoff : ¬ p'.OnChain) : Ok d L t p' := by
  apply h.advance hpriv hremoving hneeds hfinds hlast hloaded hlowers
  · rintro fp id rfl
    exact absurd trivial hoff
  · rintro fp idx tfp rfl
    exact absurd trivial hoff
  · rintro fp tfp rfl
    exact absurd trivial hoff


/-! ### What the other threads see of a change -/

/-- A change made by `t` is about the object `fp` only, up to links between objects in the table. -/
structure Only (d d' : Data T) (t : T) (fp : ℕ) : Prop where
  own : ∀ u ≠ t, d'.own u = d.own u
  cell : ∀ x ≠ fp, (d'.mem x).fId = (d.mem x).fId ∧ (d'.mem x).fCount = (d.mem x).fCount
  next : ∀ x ≠ fp, d.inserts x = 0 → d'.next x = d.next x
  counts : ∀ x ≠ fp, d'.inserts x = d.inserts x ∧ d'.unlinks x = d.unlinks x ∧ d'.refs x = d.refs x
  live : ∀ x ≠ fp, d.Live x → d'.Live x

omit [DecidableEq T] in
theorem Only.same (t : T) (fp : ℕ) (h : Only d d' t fp) (hu : u ≠ t) (hok : Ok d L u p) (hown : d.own u fp = 0)
    (hfinds : p.finds ≠ some fp) (htable : p.holdsHash = true → d'.fh = d.fh ∧ L' = L) :
    Same d d' L L' u p := by
  have hkept : ∀ x, 1 ≤ d.own u x ∨ p.finds = some x → x ≠ fp := by
    rintro x (hx | hx) rfl
    · omega
    · exact hfinds hx
  have hpriv : ∀ x id, p.priv = some (x, id) → x ≠ fp := fun x id hx =>
    hkept x (Or.inl (hok.priv x id hx).2.2.1.ge)
  have hlast : ∀ x, p.last = some x → x ≠ fp := fun x hx =>
    hkept x (Or.inl (hok.needs x (Pc.needs_of_last hx)))
  constructor
  case own => exact fun x => by rw [h.own u hu]
  case kept =>
    intro x hx
    have hne := hkept x hx
    exact ⟨(h.counts x hne).1, (h.counts x hne).2.1, (h.cell x hne).1, h.live x hne⟩
  case count =>
    intro x hx
    refine (h.cell x (hkept x ?_)).2
    exact (Pc.needs_or_finds_of_holdsFoo hx).imp_left (hok.needs x)
  case refs =>
    rintro x (⟨id, hx⟩ | hx)
    · exact (h.counts x (hpriv x id hx)).2.2
    · exact (h.counts x (hlast x hx)).2.2
  case table => exact htable
  case next => exact fun x id hx => h.next x (hpriv x id hx) (hok.priv x id hx).1

omit [DecidableEq T] in
/-- Whoever owns the only reference owns it alone. -/
theorem alone_of_refs (hrefs : d.refs fp = 1) (hown : 1 ≤ d.own t fp) (hu : u ≠ t) : d.own u fp = 0 := by
  have hle := own_add_own_le_refs d fp hu
  omega

/-- The object whose count changes is locked, so nobody else can be relying on the count. -/
theorem Inv.same_store (h : Inv s) (hok : ∀ u, Ok s.toData L u (s.pc u))
    (hfoo : (s.pc t).holdsFoo = some fp) (v : BitVec 32) (n : ℕ) (hu : u ≠ t) :
    Same s.toData ((s.setCount fp v).setOwn t fp n) L L u (s.pc u) := by
  have hcell := fun x => cell_store s.toData t fp x v n
  have hshared : 1 ≤ s.own u fp → s.refs fp = 1 → s.InTable fp ∧ (s.pc t).finds = some fp := by
    intro hown hrefs
    rcases Pc.needs_or_finds_of_holdsFoo hfoo with hneeds | hfinds
    · have hown' := (hok t).needs fp hneeds
      have hzero := alone_of_refs hrefs hown' hu
      omega
    · exact ⟨(hok t).finds fp hfinds, hfinds⟩
  constructor
  case own =>
    intro x
    simp [Data.setOwn, Data.setCount, Function.update_of_ne hu]
  case kept => exact fun x _ => ⟨rfl, rfl, (hcell x).2, fun hlive => hlive⟩
  case count =>
    intro x hx
    have hne : x ≠ fp := by
      rintro rfl
      exact hu (h.locks.foo_unique hx hfoo)
    simp [Data.setOwn, Data.setCount, Function.update_of_ne hne]
  case refs =>
    intro x hx
    have hne : x ≠ fp := by
      rintro rfl
      rcases hx with ⟨id, hpriv⟩ | hlast
      · obtain ⟨hins, -, hown, hrefs⟩ := (hok u).priv x id hpriv
        have hin := (hshared hown.ge hrefs).1.1
        omega
      · have hown := (hok u).needs x (Pc.needs_of_last hlast)
        have hin := (hshared hown ((hok u).last x hlast)).1
        rcases Pc.holdsFoo_of_last hlast with hfoo' | hremoving
        · exact hu (h.locks.foo_unique hfoo' hfoo)
        · have hun := ((hok u).removing x hremoving).2
          exact absurd (hun.symm.trans hin.2) one_ne_zero
    exact refs_setOwn_of_ne (d := s.setCount fp v) n hne
  case table => exact fun _ => ⟨rfl, rfl⟩
  case next => exact fun x _ _ => (hcell x).1

/-! ### The statements that change the table -/

theorem Inv.malloc (h : Inv s) (hp : s.pc t = .idle) :
    Inv (s.goto t (s.malloc t id) (.allocHash s.brk id)) := by
  refine h.goto (by simp [hp]) (by simp [hp]) fun L htable hall => ?_
  have hdead : s.refs s.brk = 0 := htable.dead _ not_live_brk
  have hnoown : ∀ u, s.own u s.brk = 0 := fun u => Nat.le_zero.mp (hdead ▸ own_le_refs)
  have hfresh := htable.fresh s.brk le_rfl
  have htable' := htable.malloc t id
  refine ⟨L, htable', ?_, fun u hu => ?_⟩
  · have hok := hall t
    rw [hp] at hok
    have hself : (s.malloc t id).own t s.brk = 1 := by simp [Data.malloc]
    have hlive : (s.malloc t id).Live s.brk := ⟨Nat.lt_succ_self _, hfresh.2.2.1⟩
    have hrefs : (s.malloc t id).refs s.brk = 1 := by
      exact refs_malloc t id hdead
    constructor
    case own =>
      intro x hx
      by_cases hxe : x = s.brk
      · exact ⟨hxe ▸ hlive, Or.inr (Or.inl ⟨id, by simp [hxe]⟩)⟩
      · simp only [Data.malloc, Function.update_self, Function.update_of_ne hxe] at hx
        obtain ⟨hl, hwhere⟩ := hok.own x hx
        have hin : s.InTable x := by simpa using hwhere
        exact ⟨⟨Nat.lt_succ_of_lt hl.1, hl.2⟩, Or.inl hin⟩
    case priv =>
      intro x i hx
      simp only [Pc.priv, Option.some.injEq, Prod.mk.injEq] at hx
      obtain ⟨rfl, rfl⟩ := hx
      exact ⟨hfresh.1, by simp [Data.malloc], hself, hrefs⟩
    all_goals simp
  · refine Only.same t s.brk ?_ hu (hall u) (hnoown u) ?_ fun _ => ⟨rfl, rfl⟩
    · constructor
      · exact fun u hu => by simp [Data.malloc, Function.update_of_ne hu]
      · exact fun x hx => by simp [Data.malloc, Function.update_of_ne hx]
      · exact fun x hx _ => by simp [Data.next, Data.malloc, Function.update_of_ne hx]
      · exact fun x hx => ⟨rfl, rfl, refs_setOwn_of_ne 1 hx⟩
      · exact fun x _ hl => ⟨Nat.lt_succ_of_lt hl.1, hl.2⟩
    · exact fun hfinds => htable.not_inTable_brk ((hall u).finds _ hfinds)

theorem Inv.mallocFree (h : Inv s) (hp : s.pc t = .idle) : Inv (s.goto t s.mallocFree .idle) := by
  refine h.goto (by simp [hp]) (by simp [hp]) fun L htable hall => ?_
  have hdead : s.refs s.brk = 0 := htable.dead _ not_live_brk
  have hnoown : ∀ u, s.own u s.brk = 0 := fun u => Nat.le_zero.mp (hdead ▸ own_le_refs)
  have hlive : ∀ x ≠ s.brk, s.Live x → s.mallocFree.Live x := fun x hx hl =>
    ⟨Nat.lt_succ_of_lt hl.1, by simpa [Data.mallocFree, bump, Function.update_of_ne hx] using hl.2⟩
  refine ⟨L, htable.mallocFree, ?_, fun u hu => ?_⟩
  · have hok := hall t
    rw [hp] at hok
    constructor
    case own =>
      intro x hx
      have hne : x ≠ s.brk := by
        rintro rfl
        exact absurd (hnoown t) (Nat.one_le_iff_ne_zero.mp hx)
      obtain ⟨hl, hwhere⟩ := hok.own x hx
      exact ⟨hlive x hne hl, hwhere⟩
    all_goals simp
  · refine Only.same t s.brk ?_ hu (hall u) (hnoown u) ?_ fun _ => ⟨rfl, rfl⟩
    · exact ⟨fun _ _ => rfl, fun _ _ => ⟨rfl, rfl⟩, fun _ _ _ => rfl, fun _ _ => ⟨rfl, rfl, rfl⟩, hlive⟩
    · exact fun hfinds => htable.not_inTable_brk ((hall u).finds _ hfinds)

theorem Inv.allocNext (h : Inv s) (hp : s.pc t = .allocNext fp id) :
    Inv (s.goto t (s.setNext fp (s.fh (HASH id))) (.allocHead fp id)) := by
  refine h.goto (by simp [hp]) (by simp [hp]) fun L htable hall => ?_
  have hok := hall t
  rw [hp] at hok
  obtain ⟨hins, hid, hown, hrefs⟩ := hok.priv fp id rfl
  have hnot : ¬ s.InTable fp := fun hin => absurd (hins ▸ hin.1) (by decide)
  refine ⟨L, htable.setNext hnot _, ?_, fun u hu => ?_⟩
  · constructor
    case own => exact fun x hx => hok.own x hx
    case priv =>
      intro x i hx
      simp only [Pc.priv, Option.some.injEq, Prod.mk.injEq] at hx
      obtain ⟨rfl, rfl⟩ := hx
      exact ⟨hins, by simpa [Data.setNext] using hid, hown, hrefs⟩
    case head =>
      intro x i hx
      simp only [Pc.allocHead.injEq] at hx
      obtain ⟨rfl, rfl⟩ := hx
      simp [Data.next, Data.setNext]
    all_goals simp
  · refine Only.same t fp ?_ hu (hall u) (alone_of_refs hrefs hown.ge hu) ?_
      fun _ => ⟨rfl, rfl⟩
    · constructor
      · exact fun _ _ => rfl
      · exact fun x hx => by simp [Data.setNext, Function.update_of_ne hx]
      · exact fun x hx _ => by simp [Data.next, Data.setNext, Function.update_of_ne hx]
      · exact fun x _ => ⟨rfl, rfl, rfl⟩
      · exact fun x _ hl => hl
    · exact fun hfinds => hnot ((hall u).finds _ hfinds)

theorem Inv.allocHead (h : Inv s) (hp : s.pc t = .allocHead fp id) :
    Inv (s.goto t { s.setHead (HASH id) (some fp) with inserts := bump s.inserts fp }
      (.allocLock fp)) := by
  refine h.goto (by simp [hp]) (by simp [hp]) fun L htable hall => ?_
  have hok := hall t
  rw [hp] at hok
  obtain ⟨hins, hid, hown, hrefs⟩ := hok.priv fp id rfl
  have hnot : ¬ s.InTable fp := fun hin => absurd (hins ▸ hin.1) (by decide)
  have hbucket : s.bucket fp = HASH id := by rw [Data.bucket, hid]
  have hlive := (hok.own fp hown.ge).1
  have htable' := htable.insert hlive hins (by rw [hbucket]; exact hok.head fp id rfl)
  rw [hbucket] at htable'
  have hun : s.unlinks fp = 0 := Nat.le_zero.mp (hins ▸ (htable.once fp).2.1)
  refine ⟨_, htable', ?_, fun u hu => ?_⟩
  · constructor
    case own =>
      intro x hx
      obtain ⟨hl, hwhere⟩ := hok.own x hx
      refine ⟨hl, Or.inl ?_⟩
      by_cases hxe : x = fp
      · subst hxe
        simp [Data.InTable, Data.setHead, bump, hins, hun]
      · have hin : s.InTable x := by simpa [Ne.symm hxe] using hwhere
        simpa [Data.InTable, Data.setHead, bump, Function.update_of_ne hxe] using hin
    case needs =>
      intro x hx
      obtain rfl : fp = x := by simpa using hx
      exact hown.ge
    all_goals simp
  · refine Only.same t fp ?_ hu (hall u) (alone_of_refs hrefs hown.ge hu) ?_ fun hhash => ?_
    · constructor
      · exact fun _ _ => rfl
      · exact fun x hx => ⟨rfl, rfl⟩
      · exact fun x hx _ => rfl
      · exact fun x hx => ⟨Function.update_of_ne hx _ _, rfl, rfl⟩
      · exact fun x _ hl => hl
    · exact fun hfinds => hnot ((hall u).finds _ hfinds)
    · exact absurd (h.locks.hash_unique hhash (by simp [hp])) hu

omit [DecidableEq T] in
theorem Ok.inTable (h : Ok d L t p) (hpriv : p.priv = none) (hremoving : p.removing = none)
    (hown : 1 ≤ d.own t fp) : d.InTable fp := by
  rcases (h.own fp hown).2 with hin | ⟨id, hid⟩ | hrem
  · exact hin
  · rw [hpriv] at hid
    exact absurd hid (by simp)
  · rw [hremoving] at hrem
    exact absurd hrem (by simp)

theorem Ok.own_store (h : Ok d L t p) (htable : Table d L) (hpriv : p.priv = none)
    (hremoving : p.removing = none) (hin : d.InTable fp) {v : BitVec 32} {n x : ℕ}
    (hx : 1 ≤ ((d.setCount fp v).setOwn t fp n).own t x) :
    ((d.setCount fp v).setOwn t fp n).Live x ∧ ((d.setCount fp v).setOwn t fp n).InTable x := by
  have hin' : d.InTable x := by
    by_cases hxe : x = fp
    · exact hxe ▸ hin
    · refine h.inTable hpriv hremoving ?_
      simpa [Data.setOwn, Data.setCount, Function.update_of_ne hxe] using hx
  exact ⟨htable.tableLive x hin', hin'⟩

theorem Inv.holdStore {v : BitVec 32} {found : Bool} (h : Inv s) (hp : s.pc t = .holdStore fp v found)
    (hroom : s.refs fp < INT_MAX) :
    Inv (s.goto t ((s.setCount fp (v + 1)).setOwn t fp (s.own t fp + 1)) (.holdUnlock fp found)) := by
  refine h.goto (by simp [hp]) (by simp [hp]) fun L htable hall => ?_
  have hok := hall t
  rw [hp] at hok
  have hin : s.InTable fp := by
    cases found with
    | false => exact hok.inTable rfl rfl (hok.needs fp rfl)
    | true => exact hok.finds fp rfl
  have hlive := htable.tableLive fp hin
  have hv := hok.loaded fp v rfl
  have hcount := htable.count fp hlive
  rw [hv] at hcount
  have hadd : (v + 1).toInt = v.toInt + 1 := toInt_add_one (by omega)
  refine ⟨L, htable.store hlive (by rw [hv, hadd]; omega) (by omega), ?_, fun u hu =>
    h.same_store hall (by simp [hp]) _ _ hu⟩
  constructor
  case own =>
    intro x hx
    obtain ⟨hl, hi⟩ := hok.own_store htable rfl rfl hin hx
    exact ⟨hl, Or.inl hi⟩
  case needs =>
    intro x hx
    obtain rfl : fp = x := by simpa using hx
    simp [Data.setOwn]
  all_goals simp

theorem Inv.decStore {v : BitVec 32} {hashed : Bool} (h : Inv s) (hp : s.pc t = .decStore fp v hashed) :
    Inv (s.goto t ((s.setCount fp (v - 1)).setOwn t fp (s.own t fp - 1)) (.decUnlock fp hashed)) := by
  refine h.goto (by simp [hp]) (by simp [hp]) fun L htable hall => ?_
  have hok := hall t
  rw [hp] at hok
  have hown := hok.needs fp rfl
  have hin : s.InTable fp := hok.inTable rfl rfl hown
  have hlive := htable.tableLive fp hin
  have hv := hok.loaded fp v rfl
  have hcount := htable.count fp hlive
  have howned := htable.owned fp hlive
  rw [hv] at hcount
  have hne : v.toInt ≠ 1 := fun h => hok.lowers fp rfl (hv.trans (BitVec.toInt_inj.mp h))
  have hsub : (v - 1).toInt = v.toInt - 1 := toInt_sub_one (by omega)
  refine ⟨L, htable.store hlive (by rw [hv, hsub]; omega) (by omega), ?_, fun u hu =>
    h.same_store hall (by simp [hp]) _ _ hu⟩
  constructor
  case own =>
    intro x hx
    obtain ⟨hl, hi⟩ := hok.own_store htable rfl rfl hin hx
    exact ⟨hl, Or.inl hi⟩
  case finds =>
    intro x hx
    obtain rfl : fp = x := by simpa using hx
    exact hin
  all_goals simp

/-- The object is taken out of its chain by the thread that owns its only reference. -/
theorem Inv.unlink (h : Inv s) (hin : s.InTable fp) (hheld : (s.pc t).holdsFoo = some fp)
    (hhash : (s.pc t).holdsHash = true) (hlast : (s.pc t).last = some fp)
    (hpriv : (s.pc t).priv = none) (hremoving : (s.pc t).removing = none)
    {fh : Fin NHASH → Option ℕ} {mem : ℕ → Foo}
    (hcell : ∀ x, (mem x).fCount = (s.mem x).fCount ∧ (mem x).fId = (s.mem x).fId)
    (hnext : ∀ x, ¬ s.InTable x → (mem x).fNext = (s.mem x).fNext)
    (hchain : ∀ L, Table s.toData L → Ok s.toData L t (s.pc t) →
      ∀ b, Chain (fun x => (mem x).fNext) (fh b) ((L b).erase fp)) :
    Inv (s.goto t { s.toData with fh, mem, unlinks := bump s.unlinks fp } (.relUnhash fp)) := by
  refine h.goto hhash.symm hheld.symm fun L htable hall => ?_
  have hok := hall t
  have hrefs := hok.last fp hlast
  have hown := hok.needs fp (Pc.needs_of_last hlast)
  have hun : bump s.unlinks fp fp = 1 := by simp [bump, hin.2]
  refine ⟨_, htable.unlink hin hcell (hchain L htable hok), ?_, fun u hu => ?_⟩
  · constructor
    case own =>
      intro x hx
      refine ⟨(hok.own x hx).1, ?_⟩
      by_cases hxe : x = fp
      · exact Or.inr (Or.inr (by simp [hxe]))
      · have hinx := hok.inTable hpriv hremoving hx
        exact Or.inl ⟨hinx.1, by simpa [bump, Function.update_of_ne hxe] using hinx.2⟩
    case needs =>
      intro x hx
      obtain rfl : fp = x := by simpa using hx
      exact hown
    case last =>
      intro x hx
      obtain rfl : fp = x := by simpa using hx
      exact hrefs
    case removing =>
      intro x hx
      obtain rfl : fp = x := by simpa using hx
      exact ⟨hin.1, hun⟩
    all_goals simp
  · refine Only.same t fp ?_ hu (hall u) (alone_of_refs hrefs hown hu) ?_ fun hhash' => ?_
    · constructor
      · exact fun _ _ => rfl
      · exact fun x _ => ⟨(hcell x).2, (hcell x).1⟩
      · refine fun x _ hx => hnext x fun hinx => ?_
        exact absurd (hinx.1.symm.trans hx) one_ne_zero
      · exact fun x hx => ⟨rfl, Function.update_of_ne hx _ _, rfl⟩
      · exact fun x _ hl => hl
    · intro hfinds
      rcases Pc.holds_of_finds hfinds with hhash' | hheld'
      · exact hu (h.locks.hash_unique hhash' hhash)
      · exact hu (h.locks.foo_unique hheld' hheld)
    · exact absurd (h.locks.hash_unique hhash' hhash) hu

theorem Inv.unlinkHead {idx : Fin NHASH} (h : Inv s) (hp : s.pc t = .relCmp fp idx (some fp)) :
    Inv (s.goto t { s.setHead idx (s.mem fp).fNext with unlinks := bump s.unlinks fp }
      (.relUnhash fp)) := by
  have hin : s.InTable fp := by
    obtain ⟨L, -, hall⟩ := h.data
    have hok := hall t
    rw [hp] at hok
    exact hok.inTable rfl rfl (hok.needs fp rfl)
  refine h.unlink hin (by simp [hp]) (by simp [hp]) (by simp [hp]) (by simp [hp]) (by simp [hp])
    (fun _ => ⟨rfl, rfl⟩) (fun _ _ => rfl) fun L htable hok b => ?_
  rw [hp] at hok
  obtain ⟨rfl, hhead⟩ := hok.cmp fp idx (some fp) rfl
  exact htable.counted.chained.erase_head hin hhead.symm b

omit [Fintype T] [DecidableEq T] in
theorem next_setNext (d : Data T) (fp : ℕ) (q : Option ℕ) :
    (d.setNext fp q).next = Function.update d.next fp q := by
  funext x
  by_cases hx : x = fp
  · subst hx
    simp [Data.next, Data.setNext]
  · simp [Data.next, Data.setNext, Function.update_of_ne hx]

theorem Inv.unlinkNext {tfp : ℕ} (h : Inv s) (hp : s.pc t = .relWalk fp (some tfp))
    (hnext : (s.mem tfp).fNext = some fp) :
    Inv (s.goto t { s.setNext tfp (s.mem fp).fNext with unlinks := bump s.unlinks fp }
      (.relUnhash fp)) := by
  have hin : s.InTable fp := by
    obtain ⟨L, -, hall⟩ := h.data
    have hok := hall t
    rw [hp] at hok
    exact hok.inTable rfl rfl (hok.needs fp rfl)
  have htfp : s.InTable tfp := by
    obtain ⟨L, htable, hall⟩ := h.data
    obtain ⟨x, pre, mid, post, hx, hL⟩ := (hall t).walk fp (some tfp) hp
    obtain rfl := Option.some.inj hx
    exact ((htable.members (s.bucket fp) tfp).mp (by simp [hL])).1
  have hcell := fun x => cell_setNext s.toData tfp x (s.mem fp).fNext
  refine h.unlink hin (by simp [hp]) (by simp [hp]) (by simp [hp]) (by simp [hp]) (by simp [hp])
    hcell (fun x hx => ?_) fun L htable hok b => ?_
  · have hne : x ≠ tfp := fun hxe => hx (hxe ▸ htfp)
    simp [Data.setNext, Function.update_of_ne hne]
  · show Chain (s.setNext tfp (s.mem fp).fNext).next (s.fh b) ((L b).erase fp)
    rw [next_setNext]
    obtain ⟨x, pre, mid, post, hx, hL⟩ := hok.walk fp (some tfp) hp
    obtain rfl := Option.some.inj hx
    exact htable.counted.chained.erase_next hL hnext b

theorem Inv.relFree (h : Inv s) (hp : s.pc t = .relFree fp) :
    Inv (s.goto t { s.setOwn t fp (s.own t fp - 1) with
      frees := bump s.frees fp, zeros := bump s.zeros fp } .idle) := by
  refine h.goto (by simp [hp]) (by simp [hp]) fun L htable hall => ?_
  have hok := hall t
  rw [hp] at hok
  have hrefs := hok.last fp rfl
  have hown : s.own t fp = 1 := le_antisymm (hrefs ▸ own_le_refs) (hok.needs fp rfl)
  have hun := (hok.removing fp rfl).2
  have hlive := (hok.own fp hown.ge).1
  have hlive' : ∀ x ≠ fp, s.Live x → Data.Live { s.setOwn t fp (s.own t fp - 1) with
      frees := bump s.frees fp, zeros := bump s.zeros fp } x := fun x hx hl =>
    ⟨hl.1, (Function.update_of_ne hx _ _).trans hl.2⟩
  refine ⟨L, htable.free hlive hrefs hown hun, ?_, fun u hu => ?_⟩
  · constructor
    case own =>
      intro x hx
      by_cases hxe : x = fp
      · subst hxe
        simp [Data.setOwn, hown] at hx
      · have hx : 1 ≤ s.own t x := by simpa [Data.setOwn, Function.update_of_ne hxe] using hx
        obtain ⟨hl, hwhere⟩ := hok.own x hx
        have hin : s.InTable x := by simpa [Ne.symm hxe] using hwhere
        exact ⟨hlive' x hxe hl, Or.inl hin⟩
    all_goals simp
  · refine Only.same t fp ?_ hu (hall u) (alone_of_refs hrefs hown.ge hu) ?_
      fun _ => ⟨rfl, rfl⟩
    · constructor
      · exact fun u hu => Function.update_of_ne hu _ _
      · exact fun _ _ => ⟨rfl, rfl⟩
      · exact fun _ _ _ => rfl
      · exact fun x hx => ⟨rfl, rfl, refs_setOwn_of_ne _ hx⟩
      · exact hlive'
    · intro hfinds
      have hin := (hall u).finds fp hfinds
      exact absurd (hun.symm.trans hin.2) one_ne_zero

end Apue.FooTable

import Apue.Threads.CoarseTableInv

/-!
# What one statement does to the invariant of the coarsely locked table

As in `FooTableStep`, one thread moves on and the others do not notice, because nothing changed but this
thread (`Inv.settle`), or the change is about an object nobody else has a claim on (`Ok.same_of_only`), or
it is a new `f_count` that nobody else has loaded (`Inv.same_store`).
-/

namespace Apue.CoarseTable
open FooTable Linked Threads

variable {T : Type*} [Fintype T] [DecidableEq T] {s s' : State T} {d d' : Data T}
  {L L' : Fin NHASH → List ℕ} {t u : T} {p p' : Pc} {fp x : ℕ} {id : ℤ}

theorem Inv.update (h : Inv s) {hashlock : Mutex T} {fLock : ℕ → Mutex T}
    (hhash : hashlock.Guards Pc.holdsHash (Function.update s.pc t p'))
    (hloaded : ∀ fp v, p'.loaded = some (fp, v) → ∀ u ≠ t, ∀ w, (s.pc u).loaded ≠ some (fp, w))
    (hremoving : ∀ fp, p'.removing = some fp → ∀ u ≠ t, (s.pc u).removing ≠ some fp)
    (hlast : ∀ fp, d.Live fp → d.refs fp = 0 → p'.removing = some fp ∨ ∃ u ≠ t, (s.pc u).removing = some fp)
    (hdata : ∀ L, Counted s.toData L → (∀ u, Ok s.toData L u (s.pc u)) → ∃ L', Counted d L' ∧
      Ok d L' t p' ∧ ∀ u ≠ t, Same s.toData d L L' u (s.pc u)) :
    Inv (Machine.mk d hashlock fLock (Function.update s.pc t p') s.fault) := by
  obtain ⟨L, hcounted, hall⟩ := h.data
  obtain ⟨L', hcounted', hok, hsame⟩ := hdata L hcounted hall
  refine ⟨hhash, ⟨L', hcounted', fun u => ?_⟩, fun u u' fp v w hu hu' => ?_, fun u u' fp hu hu' => ?_,
    fun fp hlive hrefs => ?_, h.noFault⟩
  · by_cases hu : u = t
    · subst hu
      simpa only [Function.update_self] using hok
    · simpa only [Function.update_of_ne hu] using (hall u).frame (hsame u hu)
  · by_cases ht : u = t <;> by_cases ht' : u' = t
    · rw [ht, ht']
    · subst ht
      simp only [Function.update_self, Function.update_of_ne ht'] at hu hu'
      exact absurd hu' (hloaded fp v hu u' ht' w)
    · subst ht'
      simp only [Function.update_self, Function.update_of_ne ht] at hu hu'
      exact absurd hu (hloaded fp w hu' u ht v)
    · simp only [Function.update_of_ne ht, Function.update_of_ne ht'] at hu hu'
      exact h.loadedOnce u u' fp v w hu hu'
  · by_cases ht : u = t <;> by_cases ht' : u' = t
    · rw [ht, ht']
    · subst ht
      simp only [Function.update_self, Function.update_of_ne ht'] at hu hu'
      exact absurd hu' (hremoving fp hu u' ht')
    · subst ht'
      simp only [Function.update_self, Function.update_of_ne ht] at hu hu'
      exact absurd hu (hremoving fp hu' u ht)
    · simp only [Function.update_of_ne ht, Function.update_of_ne ht'] at hu hu'
      exact h.removingOnce u u' fp hu hu'
  · obtain hself | ⟨u, hu, hother⟩ := hlast fp hlive hrefs
    · exact ⟨t, by simpa only [Function.update_self] using hself⟩
    · exact ⟨u, by simpa only [Function.update_of_ne hu] using hother⟩

omit [DecidableEq T] in
theorem Inv.other_removing (h : Inv s) (hlive : s.Live x) (hrefs : s.refs x = 0)
    (hne : (s.pc t).removing ≠ some x) : ∃ u ≠ t, (s.pc u).removing = some x := by
  obtain ⟨u, hu⟩ := h.last x hlive hrefs
  refine ⟨u, ?_, hu⟩
  rintro rfl
  exact hne hu

theorem Inv.settle (h : Inv s) {hashlock : Mutex T} {fLock : ℕ → Mutex T}
    (hhash : hashlock.Guards Pc.holdsHash (Function.update s.pc t p'))
    (hloaded : ∀ fp v, p'.loaded = some (fp, v) → ∀ u ≠ t, ∀ w, (s.pc u).loaded ≠ some (fp, w))
    (hremoving : p'.removing = (s.pc t).removing)
    (hok : ∀ L, Counted s.toData L → Ok s.toData L t (s.pc t) → Ok s.toData L t p') :
    Inv { s with hashlock, fLock, pc := Function.update s.pc t p' } := by
  refine h.update hhash hloaded (fun fp hp u hu hother => ?_) (fun fp hlive hrefs => ?_)
    fun L hcounted hall => ⟨L, hcounted, hok L hcounted (hall t), fun u _ => ?_⟩
  · exact hu (h.removingOnce u t fp hother (hremoving ▸ hp))
  · by_cases hself : (s.pc t).removing = some fp
    · exact Or.inl (hremoving.trans hself)
    · exact Or.inr (h.other_removing hlive hrefs hself)
  · exact ⟨fun _ => rfl, fun _ _ => ⟨rfl, rfl, rfl, fun hlive => hlive⟩, fun _ _ => rfl, fun _ _ _ => rfl,
      fun _ => ⟨rfl, rfl⟩, fun _ _ _ => rfl⟩

theorem Inv.move (h : Inv s) (hhash : p'.holdsHash = (s.pc t).holdsHash)
    (hloaded : ∀ fp v, p'.loaded = some (fp, v) → ∀ u ≠ t, ∀ w, (s.pc u).loaded ≠ some (fp, w))
    (hremoving : p'.removing = (s.pc t).removing)
    (hok : ∀ L, Counted s.toData L → Ok s.toData L t (s.pc t) → Ok s.toData L t p') :
    Inv (s.goto t s.toData p') :=
  h.settle (h.hash.goto hhash) hloaded hremoving hok

omit [Fintype T] [DecidableEq T] in
theorem Pc.not_loaded {P : ℕ → BitVec 32 → Prop} (h : p.loaded = none) (fp : ℕ) (v : BitVec 32)
    (hp : p.loaded = some (fp, v)) : P fp v := by
  rw [h] at hp
  cases hp

theorem Inv.lockHash (h : Inv s) (hs : s.lockHash t p' = some s') (hhash : p'.holdsHash = true)
    (hloaded : p'.loaded = none) (hremoving : p'.removing = (s.pc t).removing)
    (hok : ∀ L, Ok s.toData L t (s.pc t) → Ok s.toData L t p') : Inv s' := by
  obtain ⟨l, hl, rfl⟩ := Option.map_eq_some_iff.mp hs
  exact h.settle (h.hash.lock hl hhash) (Pc.not_loaded hloaded) hremoving fun L _ => hok L

theorem Inv.unlockHash (h : Inv s) (hs : s.unlockHash t p' = some s') (hheld : (s.pc t).holdsHash = true)
    (hhash : p'.holdsHash = false) (hloaded : p'.loaded = none)
    (hremoving : p'.removing = (s.pc t).removing)
    (hok : ∀ L, Ok s.toData L t (s.pc t) → Ok s.toData L t p') : Inv s' := by
  obtain rfl := Option.some.inj hs
  exact h.settle (h.hash.unlock hheld hhash) (Pc.not_loaded hloaded) hremoving fun L _ => hok L

omit [DecidableEq T] in
theorem Inv.live (h : Inv s) (hp : (s.pc t).needs = some fp ∨ (s.pc t).finds = some fp ∨
    (s.pc t).removing = some fp ∨ ∃ id, (s.pc t).priv = some (fp, id)) : s.Live fp := by
  obtain ⟨L, hcounted, hall⟩ := h.data
  exact (hall t).live hcounted hp

theorem Inv.lockFoo (h : Inv s) (hs : s.lockFoo t fp p' = some s') (hlive : s.Live fp)
    (hhash : p'.holdsHash = (s.pc t).holdsHash) (hloaded : p'.loaded = none)
    (hremoving : p'.removing = (s.pc t).removing)
    (hok : ∀ L, Ok s.toData L t (s.pc t) → Ok s.toData L t p') : Inv s' := by
  rw [Machine.lockFoo, Machine.access_of_live _ hlive] at hs
  obtain ⟨l, -, rfl⟩ := Option.map_eq_some_iff.mp hs
  exact h.settle (h.hash.goto hhash) (Pc.not_loaded hloaded) hremoving fun L _ => hok L

theorem Inv.unlockFoo (h : Inv s) (hs : s.unlockFoo t fp p' = some s') (hlive : s.Live fp)
    (hhash : p'.holdsHash = (s.pc t).holdsHash) (hloaded : p'.loaded = none)
    (hremoving : p'.removing = (s.pc t).removing)
    (hok : ∀ L, Ok s.toData L t (s.pc t) → Ok s.toData L t p') : Inv s' := by
  rw [Machine.unlockFoo, Machine.access_of_live _ hlive] at hs
  obtain rfl := Option.some.inj hs
  exact h.settle (h.hash.goto hhash) (Pc.not_loaded hloaded) hremoving fun L _ => hok L

omit [DecidableEq T] in
theorem Ok.advance (h : Ok d L t p) (hpriv : p'.priv = p.priv) (hremoving : p'.removing = p.removing)
    (hneeds : ∀ fp, p'.needs = some fp → 1 ≤ d.own t fp)
    (hfinds : ∀ fp, p'.finds = some fp → d.InTable fp)
    (hunlinked : ∀ fp, p'.unlinked = some fp → d.unlinks fp = 1)
    (hloaded : ∀ fp v, p'.loaded = some (fp, v) → (d.mem fp).fCount = v)
    (hhead : ∀ fp id, p' = .allocHead fp id → d.next fp = d.fh (HASH id))
    (hcmp : ∀ fp idx tfp, p' = .relCmp fp idx tfp → idx = d.bucket fp ∧ tfp = d.fh idx)
    (hwalk : ∀ fp tfp, p' = .relWalk fp tfp → ∃ x pre mid post, tfp = some x ∧
      L (d.bucket fp) = pre ++ x :: mid ++ fp :: post) : Ok d L t p' where
  own fp hfp := by
    rw [hpriv]
    exact h.own fp hfp
  priv fp id hp := h.priv fp id (hpriv ▸ hp)
  removing fp hp := h.removing fp (hremoving ▸ hp)
  needs := hneeds
  finds := hfinds
  unlinked := hunlinked
  loaded := hloaded
  head := hhead
  cmp := hcmp
  walk := hwalk

/-- The program points at which a thread has looked at the chain of a bucket. -/
@[simp] def Pc.OnChain : Pc → Prop
  | .allocHead _ _ | .relCmp _ _ _ | .relWalk _ _ => True
  | _ => False

omit [DecidableEq T] in
theorem Ok.advance_off (h : Ok d L t p) (hpriv : p'.priv = p.priv) (hremoving : p'.removing = p.removing)
    (hneeds : ∀ fp, p'.needs = some fp → 1 ≤ d.own t fp)
    (hfinds : ∀ fp, p'.finds = some fp → d.InTable fp)
    (hunlinked : ∀ fp, p'.unlinked = some fp → d.unlinks fp = 1)
    (hloaded : ∀ fp v, p'.loaded = some (fp, v) → (d.mem fp).fCount = v)
    (hoff : ¬ p'.OnChain) : Ok d L t p' := by
  apply h.advance hpriv hremoving hneeds hfinds hunlinked hloaded
  · rintro fp id rfl
    exact absurd trivial hoff
  · rintro fp idx tfp rfl
    exact absurd trivial hoff
  · rintro fp tfp rfl
    exact absurd trivial hoff

/-! ### The statements that change the table -/

theorem Inv.malloc (h : Inv s) (hp : s.pc t = .idle) :
    Inv (s.goto t (s.malloc t id) (.allocHash s.brk id)) := by
  have hfresh : s.frees s.brk = 0 ∧ s.refs s.brk = 0 := by
    obtain ⟨L, hcounted, -⟩ := h.data
    exact ⟨(hcounted.fresh _ le_rfl).2.2, hcounted.dead _ not_live_brk⟩
  have hlive := live_malloc t id hfresh.1
  have hrefs := refs_malloc t id hfresh.2
  refine h.update (h.hash.goto (by simp [hp])) (by simp) (by simp) (fun x hx hzero => Or.inr ?_)
    fun L hcounted hall => ⟨L, hcounted.malloc t id, ?_, fun u hu => ?_⟩
  · have hne : x ≠ s.brk := by
      rintro rfl
      omega
    rw [refs_malloc_of_ne t id hne] at hzero
    exact h.other_removing (((hlive x).mp hx).resolve_right hne) hzero (by simp [hp])
  · have hok := hall t
    rw [hp] at hok
    constructor
    case own =>
      intro x hx
      by_cases hxe : x = s.brk
      · exact ⟨(hlive x).mpr (Or.inr hxe), Or.inr ⟨id, by simp [hxe]⟩⟩
      · simp only [Data.malloc, Function.update_self, Function.update_of_ne hxe] at hx
        exact ⟨(hlive x).mpr (Or.inl (hok.own x hx).1), Or.inl (hok.inTable rfl hx)⟩
    case priv =>
      intro x i hx
      simp only [Pc.priv, Option.some.injEq, Prod.mk.injEq] at hx
      obtain ⟨rfl, rfl⟩ := hx
      exact ⟨(hcounted.fresh _ le_rfl).1, by simp [Data.malloc], by simp [Data.malloc], hrefs⟩
    all_goals simp
  · refine (hall u).same_of_only (t := t) (Only.mk ?_ ?_ ?_ ?_ ?_) hu (hcounted.own_brk u) ?_ ?_ fun _ => ⟨rfl, rfl⟩
    · exact fun u hu => by simp [Data.malloc, Function.update_of_ne hu]
    · exact fun x hx => by simp [mem_malloc_of_ne t id hx]
    · exact fun x hx _ => by simp [Data.next, mem_malloc_of_ne t id hx]
    · exact fun x hx => ⟨rfl, rfl, refs_malloc_of_ne t id hx⟩
    · exact fun x _ hl => (hlive x).mpr (Or.inl hl)
    · exact fun hfinds => hcounted.not_inTable_brk ((hall u).finds _ hfinds)
    · exact fun hremoving => not_live_brk ((hall u).removing _ hremoving).1

theorem Inv.mallocFree (h : Inv s) (hp : s.pc t = .idle) : Inv (s.goto t s.mallocFree .idle) := by
  have hlive := live_mallocFree s.toData
  refine h.update (h.hash.goto (by simp [hp])) (by simp) (by simp) (fun x hx hzero => Or.inr ?_)
    fun L hcounted hall => ⟨L, hcounted.mallocFree, ?_, fun u hu => ?_⟩
  · exact h.other_removing ((hlive x).mp hx) hzero (by simp [hp])
  · have hok := hall t
    rw [hp] at hok
    constructor
    case own => exact fun x hx => ⟨(hlive x).mpr (hok.own x hx).1, Or.inl (hok.inTable rfl hx)⟩
    all_goals simp
  · refine (hall u).same_of_only (t := t) (Only.mk ?_ ?_ ?_ ?_ ?_) hu (hcounted.own_brk u) ?_ ?_ fun _ => ⟨rfl, rfl⟩
    · exact fun _ _ => rfl
    · exact fun _ _ => ⟨rfl, rfl⟩
    · exact fun _ _ _ => rfl
    · exact fun _ _ => ⟨rfl, rfl, rfl⟩
    · exact fun x _ hl => (hlive x).mpr hl
    · exact fun hfinds => hcounted.not_inTable_brk ((hall u).finds _ hfinds)
    · exact fun hremoving => not_live_brk ((hall u).removing _ hremoving).1

theorem Inv.allocNext (h : Inv s) (hp : s.pc t = .allocNext fp id) :
    Inv (s.goto t (s.setNext fp (s.fh (HASH id))) (.allocHead fp id)) := by
  refine h.update (h.hash.goto (by simp [hp])) (by simp) (by simp) (fun x hx hzero => Or.inr ?_)
    fun L hcounted hall => ?_
  · exact h.other_removing hx hzero (by simp [hp])
  have hok := hall t
  rw [hp] at hok
  obtain ⟨hins, hid, hown, hrefs⟩ := hok.priv fp id rfl
  have hnot : ¬ s.InTable fp := fun hin => absurd (hins ▸ hin.1) (by decide)
  refine ⟨L, hcounted.setNext hnot _, ?_, fun u hu => ?_⟩
  · constructor
    case own => exact fun x hx => hok.own x hx
    case priv =>
      intro x i hx
      simp only [Pc.priv, Option.some.injEq, Prod.mk.injEq] at hx
      obtain ⟨rfl, rfl⟩ := hx
      exact ⟨hins, (cell_setNext _ _ _ _).2.trans hid, hown, hrefs⟩
    case head =>
      intro x i hx
      simp only [Pc.allocHead.injEq] at hx
      obtain ⟨rfl, rfl⟩ := hx
      simp [Data.next, Data.setNext]
    all_goals simp
  · refine (hall u).same_of_only (t := t) (Only.mk ?_ ?_ ?_ ?_ ?_) hu (alone_of_refs hrefs hown.ge hu) ?_ ?_
      fun _ => ⟨rfl, rfl⟩
    · exact fun _ _ => rfl
    · exact fun x _ => ⟨(cell_setNext _ fp x _).2, (cell_setNext _ fp x _).1⟩
    · exact fun x hx _ => by simp [Data.next, Data.setNext, Function.update_of_ne hx]
    · exact fun x _ => ⟨rfl, rfl, rfl⟩
    · exact fun x _ hl => hl
    · exact fun hfinds => hnot ((hall u).finds _ hfinds)
    · intro hremoving
      have hzero := ((hall u).removing _ hremoving).2
      omega

theorem Inv.allocHead (h : Inv s) (hp : s.pc t = .allocHead fp id) :
    Inv (s.goto t { s.setHead (HASH id) (some fp) with inserts := bump s.inserts fp }
      (.allocLock fp)) := by
  refine h.update (h.hash.goto (by simp [hp])) (by simp) (by simp) (fun x hx hzero => Or.inr ?_)
    fun L hcounted hall => ?_
  · exact h.other_removing hx hzero (by simp [hp])
  have hok := hall t
  rw [hp] at hok
  obtain ⟨hins, hid, hown, hrefs⟩ := hok.priv fp id rfl
  have hnot : ¬ s.InTable fp := fun hin => absurd (hins ▸ hin.1) (by decide)
  have hbucket : s.bucket fp = HASH id := by rw [Data.bucket, hid]
  have hlive := (hok.own fp hown.ge).1
  have hcounted' := hcounted.insert hlive hins (by rw [hbucket]; exact hok.head fp id rfl)
  rw [hbucket] at hcounted'
  have hun : s.unlinks fp = 0 := Nat.le_zero.mp (hins ▸ hcounted.once fp)
  refine ⟨_, hcounted', ?_, fun u hu => ?_⟩
  · constructor
    case own =>
      intro x hx
      obtain ⟨hl, hwhere⟩ := hok.own x hx
      refine ⟨hl, Or.inl ?_⟩
      by_cases hxe : x = fp
      · subst hxe
        simp [Data.InTable, Data.setHead, bump, hins, hun]
      · have hin : s.InTable x := by simpa [Ne.symm hxe] using hwhere
        simpa [Data.InTable, Data.setHead, bump_of_ne hxe] using hin
    case needs =>
      intro x hx
      obtain rfl : fp = x := by simpa using hx
      exact hown.ge
    all_goals simp
  · refine (hall u).same_of_only (t := t) (Only.mk ?_ ?_ ?_ ?_ ?_) hu (alone_of_refs hrefs hown.ge hu) ?_ ?_ fun hhash => ?_
    · exact fun _ _ => rfl
    · exact fun x hx => ⟨rfl, rfl⟩
    · exact fun x hx _ => rfl
    · exact fun x hx => ⟨bump_of_ne hx, rfl, rfl⟩
    · exact fun x _ hl => hl
    · exact fun hfinds => hnot ((hall u).finds _ hfinds)
    · intro hremoving
      have hzero := ((hall u).removing _ hremoving).2
      omega
    · exact absurd (h.hash.unique hhash (by simp [hp])) hu

omit [DecidableEq T] in
theorem live_of_loaded {v : BitVec 32} (hcounted : Counted d L) (hok : Ok d L t p) (hp : p.loaded = some (fp, v)) :
    d.Live fp := by
  obtain hneeds | hfinds := Pc.needs_or_finds_of_loaded hp
  · exact hok.live hcounted (Or.inl hneeds)
  · exact hok.live hcounted (Or.inr (Or.inl hfinds))

omit [DecidableEq T] in
theorem Inv.loaded_eq {v : BitVec 32} (h : Inv s) (hp : (s.pc t).loaded = some (fp, v)) :
    (s.mem fp).fCount = v := by
  obtain ⟨L, -, hall⟩ := h.data
  exact (hall t).loaded fp v hp

omit [DecidableEq T] in
theorem Inv.count_loaded {v : BitVec 32} (h : Inv s) (hp : (s.pc t).loaded = some (fp, v)) :
    v.toInt = s.refs fp ∧ s.Live fp := by
  obtain ⟨L, hcounted, hall⟩ := h.data
  have hlive := live_of_loaded hcounted (hall t) hp
  have hcount := hcounted.count fp hlive
  rw [(hall t).loaded fp v hp] at hcount
  exact ⟨hcount, hlive⟩

omit [DecidableEq T] in
/-- An object whose count somebody is changing is nobody's to remove. -/
theorem Inv.not_removing {v : BitVec 32} (h : Inv s) (hp : (s.pc t).loaded = some (fp, v)) (hu : u ≠ t) :
    (s.pc u).removing ≠ some fp := by
  intro hremoving
  obtain ⟨L, hcounted, hall⟩ := h.data
  obtain hneeds | hfinds := Pc.needs_or_finds_of_loaded hp
  · have hown := (hall t).needs fp hneeds
    have hle : s.own t fp ≤ s.refs fp := own_le_refs
    have hzero := ((hall u).removing fp hremoving).2
    omega
  · obtain hfinds' | hunlinked := Pc.finds_or_unlinked_of_removing hremoving
    · exact hu (h.hash.unique (Pc.holdsHash_of_finds hfinds') (Pc.holdsHash_of_finds hfinds))
    · have hin := (hall t).finds fp hfinds
      have hun := (hall u).unlinked fp hunlinked
      exact absurd (hun.symm.trans hin.2) one_ne_zero

theorem Inv.same_store {v w : BitVec 32} (h : Inv s) (hall : ∀ u, Ok s.toData L u (s.pc u))
    (hp : (s.pc t).loaded = some (fp, v)) (n : ℕ) (hu : u ≠ t) :
    Same s.toData ((s.setCount fp w).setOwn t fp n) L L u (s.pc u) := by
  have hcell := fun x => cell_store s.toData t fp x w n
  constructor
  case own =>
    intro x
    simp [Data.setOwn, Data.setCount, Function.update_of_ne hu]
  case kept => exact fun x _ => ⟨rfl, rfl, (hcell x).2, fun hlive => hlive⟩
  case refs =>
    intro x hx
    refine refs_store_of_ne t w n ?_
    rintro rfl
    obtain ⟨id, hpriv⟩ | hremoving := hx
    · obtain ⟨hins, -, hown, hrefs⟩ := (hall u).priv x id hpriv
      obtain hneeds | hfinds := Pc.needs_or_finds_of_loaded hp
      · have hown' := (hall t).needs x hneeds
        have hzero := alone_of_refs hrefs hown' hu
        omega
      · have hin := ((hall t).finds x hfinds).1
        omega
    · exact h.not_removing hp hu hremoving
  case count =>
    intro x v' hx
    have hne : x ≠ fp := by
      rintro rfl
      exact hu (h.loadedOnce u t x v' v hx hp)
    simp [Data.setOwn, Data.setCount, Function.update_of_ne hne]
  case table => exact fun _ => ⟨rfl, rfl⟩
  case next => exact fun x _ _ => (hcell x).1

theorem Ok.own_store (h : Ok d L t p) (hcounted : Counted d L) (hpriv : p.priv = none) (hin : d.InTable fp)
    {v : BitVec 32} {n : ℕ} (hx : 1 ≤ ((d.setCount fp v).setOwn t fp n).own t x) : d.Live x ∧ d.InTable x := by
  have hin' : d.InTable x := by
    by_cases hxe : x = fp
    · exact hxe ▸ hin
    · refine h.inTable hpriv ?_
      simpa [Data.setOwn, Data.setCount, Function.update_of_ne hxe] using hx
  exact ⟨hcounted.tableLive x hin', hin'⟩

theorem Inv.holdStore {v : BitVec 32} {found : Bool} (h : Inv s) (hp : s.pc t = .holdStore fp v found)
    (hroom : s.refs fp < INT_MAX) :
    Inv (s.goto t ((s.setCount fp (v + 1)).setOwn t fp (s.own t fp + 1)) (.holdUnlock fp found)) := by
  have hload : (s.pc t).loaded = some (fp, v) := by simp [hp]
  obtain ⟨hcount, hlive⟩ := h.count_loaded hload
  have hadd : (v + 1).toInt = v.toInt + 1 := toInt_add_one (by omega)
  have hv : (v + 1).toInt + s.own t fp = (s.mem fp).fCount.toInt + (s.own t fp + 1 : ℕ) := by
    rw [h.loaded_eq hload]
    omega
  refine h.update (h.hash.goto (by simp [hp])) (by simp) (by simp) (fun x hx hzero => Or.inr ?_)
    fun L hcounted hall => ?_
  · have hne : x ≠ fp := by
      rintro rfl
      obtain ⟨L, hcounted, hall⟩ := h.data
      have hrefs := hcounted.refs_store (t := t) hlive hv
      omega
    rw [refs_store_of_ne t _ _ hne] at hzero
    exact h.other_removing hx hzero (by simp [hp])
  refine ⟨L, hcounted.store hlive hv, ?_, fun u hu => h.same_store hall hload _ hu⟩
  have hok := hall t
  rw [hp] at hok
  have hin : s.InTable fp := by
    cases found with
    | false => exact hok.inTable rfl (hok.needs fp rfl)
    | true => exact hok.finds fp rfl
  constructor
  case own =>
    intro x hx
    obtain ⟨hl, hi⟩ := hok.own_store hcounted rfl hin hx
    exact ⟨hl, Or.inl hi⟩
  case needs =>
    intro x hx
    obtain rfl : fp = x := by simpa using hx
    simp [Data.setOwn]
  all_goals simp

theorem Inv.relStore {v : BitVec 32} (h : Inv s) (hp : s.pc t = .relStore fp v) :
    Inv (s.goto t ((s.setCount fp (v - 1)).setOwn t fp (s.own t fp - 1))
      (if v - 1 = 0 then .relHead fp else .relDone)) := by
  have hload : (s.pc t).loaded = some (fp, v) := by simp [hp]
  have hown : 1 ≤ s.own t fp := by
    obtain ⟨L, -, hall⟩ := h.data
    exact (hall t).needs fp (by simp [hp])
  obtain ⟨hcount, hlive⟩ := h.count_loaded hload
  have hle : s.own t fp ≤ s.refs fp := own_le_refs
  have hsub : (v - 1).toInt = v.toInt - 1 := toInt_sub_one (by omega)
  have hv : (v - 1).toInt + s.own t fp = (s.mem fp).fCount.toInt + (s.own t fp - 1 : ℕ) := by
    rw [h.loaded_eq hload]
    omega
  have hrefs : (((s.setCount fp (v - 1)).setOwn t fp (s.own t fp - 1)).refs fp : ℤ) = (v - 1).toInt := by
    obtain ⟨L, hcounted, -⟩ := h.data
    exact hcounted.refs_store hlive hv
  refine h.update (h.hash.goto (by split <;> simp [hp])) (by split <;> simp) (fun x hx u hu => ?_)
    (fun x hx hzero => ?_) fun L hcounted hall => ?_
  · obtain rfl : fp = x := by
      split at hx
      · simpa using hx
      · simp at hx
    exact h.not_removing hload hu
  · by_cases hne : x = fp
    · subst hne
      left
      have hstored : (v - 1).toInt = 0 := by omega
      rw [if_pos (BitVec.toInt_inj.mp hstored)]
      rfl
    · rw [refs_store_of_ne t _ _ hne] at hzero
      exact Or.inr (h.other_removing hx hzero (by simp [hp]))
  refine ⟨L, hcounted.store hlive hv, ?_, fun u hu => h.same_store hall hload _ hu⟩
  have hok := hall t
  rw [hp] at hok
  have hin : s.InTable fp := hok.inTable rfl hown
  constructor
  case own =>
    intro x hx
    obtain ⟨hl, hi⟩ := hok.own_store hcounted rfl hin hx
    exact ⟨hl, Or.inl hi⟩
  case finds =>
    intro x hx
    obtain rfl : fp = x := by
      split at hx
      · simpa using hx
      · simp at hx
    exact hin
  case removing =>
    intro x hx
    split at hx
    next hzero =>
      obtain rfl : fp = x := by simpa using hx
      rw [hzero] at hrefs
      exact ⟨hlive, Int.ofNat.inj hrefs⟩
    · simp at hx
  all_goals split <;> simp

theorem Inv.unlink (h : Inv s) (hfinds : (s.pc t).finds = some fp) (hrem : (s.pc t).removing = some fp)
    (hpriv : (s.pc t).priv = none) {fh : Fin NHASH → Option ℕ} {mem : ℕ → Foo}
    (hcell : ∀ x, (mem x).fCount = (s.mem x).fCount ∧ (mem x).fId = (s.mem x).fId)
    (hnext : ∀ x, ¬ s.InTable x → (mem x).fNext = (s.mem x).fNext)
    (hchain : ∀ L, Counted s.toData L → Ok s.toData L t (s.pc t) →
      ∀ b, Chain (fun x => (mem x).fNext) (fh b) ((L b).erase fp)) :
    Inv (s.goto t { s.toData with fh, mem, unlinks := bump s.unlinks fp } (.relUnhash fp)) := by
  have hheld := Pc.holdsHash_of_finds hfinds
  refine h.update (h.hash.goto hheld.symm) (by simp) (fun x hx u hu hother => ?_) (fun x hx hzero => ?_)
    fun L hcounted hall => ?_
  · obtain rfl : fp = x := by simpa using hx
    exact hu (h.removingOnce u t fp hother hrem)
  · by_cases hself : (s.pc t).removing = some x
    · exact Or.inl (by rw [← hself, hrem]; rfl)
    · exact Or.inr (h.other_removing hx hzero hself)
  have hok := hall t
  have hin := hok.finds fp hfinds
  obtain ⟨hlive, hrefs⟩ := hok.removing fp hrem
  have hnone : ∀ u, s.own u fp = 0 := fun u => Nat.le_zero.mp (hrefs ▸ own_le_refs)
  refine ⟨_, hcounted.unlink hin hcell (hchain L hcounted hok), ?_, fun u hu => ?_⟩
  · constructor
    case own =>
      intro x hx
      have hne : x ≠ fp := by
        rintro rfl
        have hzero := hnone t
        exact absurd hzero (Nat.one_le_iff_ne_zero.mp hx)
      have hinx := hok.inTable hpriv hx
      exact ⟨(hok.own x hx).1, Or.inl ⟨hinx.1, by simpa [bump_of_ne hne] using hinx.2⟩⟩
    case removing =>
      intro x hx
      obtain rfl : fp = x := by simpa using hx
      exact ⟨hlive, hrefs⟩
    case unlinked =>
      intro x hx
      obtain rfl : fp = x := by simpa using hx
      simp [bump, hin.2]
    all_goals simp
  · refine (hall u).same_of_only (t := t) (Only.mk ?_ ?_ ?_ ?_ ?_) hu (hnone u) (fun hother => ?_)
      (fun hother => hu (h.removingOnce u t fp hother hrem)) fun hhash => absurd (h.hash.unique hhash hheld) hu
    · exact fun _ _ => rfl
    · exact fun x _ => ⟨(hcell x).2, (hcell x).1⟩
    · refine fun x _ hx => hnext x fun hinx => ?_
      exact absurd (hinx.1.symm.trans hx) one_ne_zero
    · exact fun x hx => ⟨rfl, bump_of_ne hx, rfl⟩
    · exact fun x _ hl => hl
    · exact hu (h.hash.unique (Pc.holdsHash_of_finds hother) hheld)

theorem Inv.unlinkHead {idx : Fin NHASH} (h : Inv s) (hp : s.pc t = .relCmp fp idx (some fp)) :
    Inv (s.goto t { s.setHead idx (s.mem fp).fNext with unlinks := bump s.unlinks fp }
      (.relUnhash fp)) := by
  refine h.unlink (by simp [hp]) (by simp [hp]) (by simp [hp]) (fun _ => ⟨rfl, rfl⟩) (fun _ _ => rfl)
    fun L hcounted hok b => ?_
  rw [hp] at hok
  obtain ⟨rfl, hhead⟩ := hok.cmp fp idx (some fp) rfl
  exact hcounted.chained.erase_head (hok.finds fp rfl) hhead.symm b

theorem Inv.unlinkNext {tfp : ℕ} (h : Inv s) (hp : s.pc t = .relWalk fp (some tfp))
    (hnext : (s.mem tfp).fNext = some fp) :
    Inv (s.goto t { s.setNext tfp (s.mem fp).fNext with unlinks := bump s.unlinks fp }
      (.relUnhash fp)) := by
  have htfp : s.InTable tfp := by
    obtain ⟨L, hcounted, hall⟩ := h.data
    obtain ⟨x, pre, mid, post, hx, hL⟩ := (hall t).walk fp (some tfp) hp
    obtain rfl := Option.some.inj hx
    exact ((hcounted.chained.members (s.bucket fp) tfp).mp (by simp [hL])).1
  refine h.unlink (by simp [hp]) (by simp [hp]) (by simp [hp]) (fun x => cell_setNext s.toData tfp x _)
    (fun x hx => ?_) fun L hcounted hok b => ?_
  · have hne : x ≠ tfp := fun hxe => hx (hxe ▸ htfp)
    simp [Data.setNext, Function.update_of_ne hne]
  · show Chain (s.setNext tfp (s.mem fp).fNext).next (s.fh b) ((L b).erase fp)
    rw [next_setNext]
    obtain ⟨x, pre, mid, post, hx, hL⟩ := hok.walk fp (some tfp) hp
    obtain rfl := Option.some.inj hx
    exact hcounted.chained.erase_next hL hnext b

theorem Inv.relFree (h : Inv s) (hp : s.pc t = .relFree fp) :
    Inv (s.goto t { s.toData with frees := bump s.frees fp } .idle) := by
  have hrem : (s.pc t).removing = some fp := by simp [hp]
  have hlive' : ∀ x, Data.Live { s.toData with frees := bump s.frees fp } x → x ≠ fp ∧ s.Live x := by
    intro x hx
    have hne : x ≠ fp := by
      rintro rfl
      exact absurd hx.2 (by simp [bump])
    exact ⟨hne, hx.1, (bump_of_ne hne).symm.trans hx.2⟩
  refine h.update (h.hash.goto (by simp [hp])) (by simp) (by simp) (fun x hx hzero => Or.inr ?_)
    fun L hcounted hall => ?_
  · obtain ⟨hne, hx⟩ := hlive' x hx
    exact h.other_removing hx hzero (by simp [hp, Ne.symm hne])
  have hok := hall t
  obtain ⟨hlive, hrefs⟩ := hok.removing fp hrem
  have hun := hok.unlinked fp (by simp [hp])
  have hnone : ∀ u, s.own u fp = 0 := fun u => Nat.le_zero.mp (hrefs ▸ own_le_refs)
  refine ⟨L, hcounted.free hlive hun hrefs fun _ _ => rfl, ?_, fun u hu => ?_⟩
  · constructor
    case own =>
      intro x hx
      have hne : x ≠ fp := by
        rintro rfl
        have hzero := hnone t
        exact absurd hzero (Nat.one_le_iff_ne_zero.mp hx)
      have hl := (hok.own x hx).1
      exact ⟨⟨hl.1, (bump_of_ne hne).trans hl.2⟩, Or.inl (hok.inTable (by simp [hp]) hx)⟩
    all_goals simp
  · refine (hall u).same_of_only (t := t) (Only.mk ?_ ?_ ?_ ?_ ?_) hu (hnone u) (fun hother => ?_)
      (fun hother => hu (h.removingOnce u t fp hother hrem)) fun _ => ⟨rfl, rfl⟩
    · exact fun _ _ => rfl
    · exact fun _ _ => ⟨rfl, rfl⟩
    · exact fun _ _ _ => rfl
    · exact fun _ _ => ⟨rfl, rfl, rfl⟩
    · exact fun x hx hl => ⟨hl.1, (bump_of_ne hx).trans hl.2⟩
    · have hin := (hall u).finds fp hother
      exact absurd (hun.symm.trans hin.2) one_ne_zero

end Apue.CoarseTable

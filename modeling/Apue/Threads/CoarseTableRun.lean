import Apue.Threads.CoarseTableStep

/-!
# The runs of the coarsely locked table in which no update is lost

When no thread ever loads an `f_count` that another one has loaded and not yet stored (`Atomic`), and no
object gets more references than an `int` counts (`Room`), the counts are exact (`coarse_table_run`):
`step_inv` puts the statements together, and `Inv.frees` follows the thread that released the last reference
until it has freed the object.

The locks do not bring this about. `foo_hold` of one thread and `foo_release` of another can both load the
same count, and then one of the two changes is lost (`coarse_table_loses`).
-/

namespace Apue.CoarseTable
open FooTable Linked Threads Transition

variable {T : Type*} [Fintype T] [DecidableEq T] {s s' : State T} {d : Data T} {L : Fin NHASH → List ℕ}
  {t u : T} {p : Pc} {fp x : ℕ}

/-! ### Every step -/

omit [DecidableEq T] in
theorem Inv.walk_live {tfp : Option ℕ} (h : Inv s) (hp : s.pc t = .relWalk fp tfp) :
    ∃ x, tfp = some x ∧ s.Live x := by
  obtain ⟨L, hcounted, hall⟩ := h.data
  obtain ⟨x, pre, mid, post, hx, hL⟩ := (hall t).walk fp tfp hp
  have hmem : x ∈ L (s.bucket fp) := by simp [hL]
  exact ⟨x, hx, hcounted.tableLive x ((hcounted.chained.members _ x).mp hmem).1⟩

theorem move_inv (h : Inv s) (hatomic : Atomic s (.move t)) (hroom : Room Pc.adds s (.move t)) (hp : s.pc t = p)
    (hs : s.move t p = some s') : Inv s' := by
  cases p with
  | idle => exact absurd hs (by simp [State.move])
  | allocHash fp id =>
    refine h.lockHash hs rfl rfl (by simp [hp]) fun L hok => ?_
    rw [hp] at hok
    apply hok.advance_off <;> simp
  | allocNext fp id =>
    rw [State.move, Machine.access_of_live _ (h.live (t := t) (by simp [hp]))] at hs
    exact Option.some.inj hs ▸ h.allocNext hp
  | allocHead fp id => exact Option.some.inj hs ▸ h.allocHead hp
  | allocLock fp =>
    refine h.lockFoo hs (h.live (t := t) (by simp [hp])) (by simp [hp]) rfl (by simp [hp]) fun L hok => ?_
    rw [hp] at hok
    have hown := hok.needs fp rfl
    apply hok.advance_off <;> simp [hown]
  | allocUnhash fp =>
    refine h.unlockHash hs (by simp [hp]) rfl rfl (by simp [hp]) fun L hok => ?_
    rw [hp] at hok
    have hown := hok.needs fp rfl
    apply hok.advance_off <;> simp [hown]
  | allocUnlock fp =>
    refine h.unlockFoo hs (h.live (t := t) (by simp [hp])) (by simp [hp]) rfl (by simp [hp]) fun L hok => ?_
    rw [hp] at hok
    apply hok.advance_off <;> simp
  | holdLock fp found =>
    refine h.lockFoo hs (h.live (t := t) (by cases found <;> simp [hp])) (by simp [hp]) rfl (by simp [hp])
      fun L hok => ?_
    rw [hp] at hok
    cases found with
    | true =>
      have hin := hok.finds fp rfl
      apply hok.advance_off <;> simp [hin]
    | false =>
      have hown := hok.needs fp rfl
      apply hok.advance_off <;> simp [hown]
  | holdLoad fp found =>
    rw [State.move, Machine.access_of_live _ (h.live (t := t) (by cases found <;> simp [hp]))] at hs
    refine Option.some.inj hs ▸ h.move (by simp [hp]) (fun x v hx u _ w => ?_) (by simp [hp]) fun L _ hok => ?_
    · obtain ⟨rfl, -⟩ : fp = x ∧ _ := by simpa using hx
      exact hatomic fp (by simp [hp]) u w
    · rw [hp] at hok
      cases found with
      | true =>
        have hin := hok.finds fp rfl
        apply hok.advance_off <;> simp [hin]
      | false =>
        have hown := hok.needs fp rfl
        apply hok.advance_off <;> simp [hown]
  | holdStore fp v found =>
    rw [State.move, Machine.access_of_live _ (h.live (t := t) (by cases found <;> simp [hp]))] at hs
    exact Option.some.inj hs ▸ h.holdStore hp (hroom fp (by simp [hp]))
  | holdUnlock fp found =>
    refine h.unlockFoo hs (h.live (t := t) (by simp [hp])) (by cases found <;> simp [hp])
      (by cases found <;> rfl) (by cases found <;> simp [hp]) fun L hok => ?_
    rw [hp] at hok
    cases found <;> apply hok.advance_off <;> simp
  | findHash id =>
    refine h.lockHash hs rfl rfl (by simp [hp]) fun L hok => ?_
    rw [hp] at hok
    apply hok.advance_off <;> simp
  | findHead id =>
    refine Option.some.inj hs ▸ h.move (by simp [hp]) (Pc.not_loaded rfl) (by simp [hp])
      fun L hcounted hok => ?_
    rw [hp] at hok
    have hhead : ∀ x, s.fh (HASH id) = some x → s.InTable x := fun x => hcounted.chained.inTable_of_head
    apply hok.advance
    case hfinds => exact hhead
    all_goals simp
  | findTest id tfp =>
    cases tfp with
    | none =>
      refine Option.some.inj hs ▸ h.move (by simp [hp]) (Pc.not_loaded rfl) (by simp [hp]) fun L _ hok => ?_
      rw [hp] at hok
      apply hok.advance_off <;> simp
    | some fp =>
      rw [State.move, Machine.access_of_live _ (h.live (t := t) (by simp [hp]))] at hs
      refine Option.some.inj hs ▸ h.move (by split <;> simp [hp]) (Pc.not_loaded (by split <;> rfl))
        (by split <;> simp [hp]) fun L hcounted hok => ?_
      rw [hp] at hok
      have hin := hok.finds fp rfl
      have hnext : ∀ x, (s.mem fp).fNext = some x → s.InTable x := fun x => hcounted.chained.inTable_of_next hin
      by_cases hid : (s.mem fp).fId = id
      · rw [if_pos hid]
        apply hok.advance_off <;> simp [hin]
      · rw [if_neg hid]
        apply hok.advance
        case hfinds => exact hnext
        all_goals simp
  | findUnhash fp =>
    refine h.unlockHash hs (by simp [hp]) rfl rfl (by simp [hp]) fun L hok => ?_
    rw [hp] at hok
    apply hok.advance_off <;> simp
  | relHash fp =>
    refine h.lockHash hs rfl rfl (by simp [hp]) fun L hok => ?_
    rw [hp] at hok
    have hown := hok.needs fp rfl
    apply hok.advance_off <;> simp [hown]
  | relLoad fp =>
    rw [State.move, Machine.access_of_live _ (h.live (t := t) (by simp [hp]))] at hs
    refine Option.some.inj hs ▸ h.move (by simp [hp]) (fun x v hx u _ w => ?_) (by simp [hp]) fun L _ hok => ?_
    · obtain ⟨rfl, -⟩ : fp = x ∧ _ := by simpa using hx
      exact hatomic fp (by simp [hp]) u w
    · rw [hp] at hok
      have hown := hok.needs fp rfl
      apply hok.advance_off <;> simp [hown]
  | relStore fp v =>
    rw [State.move, Machine.access_of_live _ (h.live (t := t) (by simp [hp]))] at hs
    exact Option.some.inj hs ▸ h.relStore hp
  | relHead fp =>
    rw [State.move, Machine.access_of_live _ (h.live (t := t) (by simp [hp]))] at hs
    refine Option.some.inj hs ▸ h.move (by simp [hp]) (Pc.not_loaded rfl) (by simp [hp]) fun L _ hok => ?_
    rw [hp] at hok
    have hin := hok.finds fp rfl
    apply hok.advance <;> simp [hin, Data.bucket]
  | relCmp fp idx tfp =>
    by_cases htfp : tfp = some fp
    · subst htfp
      rw [State.move, if_pos rfl, Machine.access_of_live _ (h.live (t := t) (by simp [hp]))] at hs
      exact Option.some.inj hs ▸ h.unlinkHead hp
    · rw [State.move, if_neg htfp] at hs
      refine Option.some.inj hs ▸ h.move (by simp [hp]) (Pc.not_loaded rfl) (by simp [hp])
        fun L hcounted hok => ?_
      rw [hp] at hok
      have hin := hok.finds fp rfl
      obtain ⟨rfl, rfl⟩ := hok.cmp fp idx tfp rfl
      have hstart := hcounted.chained.walk_start hin htfp
      apply hok.advance
      case hwalk =>
        rintro fp' tfp' ⟨⟩
        exact hstart
      all_goals simp [hin]
  | relWalk fp tfp =>
    obtain ⟨x, rfl, hx⟩ := h.walk_live hp
    rw [State.move, Machine.access_of_live _ hx] at hs
    by_cases hnext : (s.mem x).fNext = some fp
    · rw [if_pos hnext, Machine.access_of_live _ (h.live (t := t) (by simp [hp]))] at hs
      exact Option.some.inj hs ▸ h.unlinkNext hp hnext
    · rw [if_neg hnext] at hs
      refine Option.some.inj hs ▸ h.move (by simp [hp]) (Pc.not_loaded rfl) (by simp [hp])
        fun L hcounted hok => ?_
      rw [hp] at hok
      have hin := hok.finds fp rfl
      have hon : ∃ y pre mid post, (s.mem x).fNext = some y ∧ L (s.bucket fp) = pre ++ y :: mid ++ fp :: post := by
        obtain ⟨x', pre, mid, post, hx', hL⟩ := hok.walk fp (some x) rfl
        obtain rfl := Option.some.inj hx'
        obtain ⟨y, mid, rfl, hy⟩ := hcounted.chained.walk_on hL hnext
        exact ⟨y, pre ++ [x], mid, post, hy, by simp [hL]⟩
      apply hok.advance
      case hwalk =>
        rintro fp' tfp' ⟨⟩
        exact hon
      all_goals simp [hin]
  | relUnhash fp =>
    refine h.unlockHash hs (by simp [hp]) rfl rfl (by simp [hp]) fun L hok => ?_
    rw [hp] at hok
    have hun := hok.unlinked fp rfl
    apply hok.advance_off <;> simp [hun]
  | relFree fp =>
    rw [State.move, Machine.access_of_live _ (h.live (t := t) (by simp [hp]))] at hs
    exact Option.some.inj hs ▸ h.relFree hp
  | relDone =>
    refine h.unlockHash hs (by simp [hp]) rfl rfl (by simp [hp]) fun L hok => ?_
    rw [hp] at hok
    apply hok.advance_off <;> simp

theorem Inv.give (h : Inv s) (hp : s.pc t = .idle) (hown : 1 ≤ s.own t fp) :
    Inv { s with toData := s.toData.give t u fp } := by
  obtain ⟨L, hcounted, hall⟩ := h.data
  have hin : s.InTable fp := by
    have hok := hall t
    rw [hp] at hok
    exact hok.inTable rfl hown
  have hrefs : ∀ x, (s.toData.give t u fp).refs x = s.refs x := fun x => refs_give s.toData u x hown
  refine ⟨h.hash, ⟨L, hcounted.give u hown, fun v => ?_⟩, h.loadedOnce, h.removingOnce, fun x hx hzero => ?_,
    h.noFault⟩
  · have hok := hall v
    constructor
    case own =>
      intro x hx
      by_cases hxe : x = fp
      · exact ⟨hxe ▸ hcounted.tableLive fp hin, Or.inl (hxe ▸ hin)⟩
      · rw [own_give_of_ne s.toData hxe] at hx
        exact hok.own x hx
    case priv =>
      intro x id hx
      obtain ⟨hins, hid, hone, href⟩ := hok.priv x id hx
      have hne : x ≠ fp := by
        rintro rfl
        exact absurd (hin.1.symm.trans hins) one_ne_zero
      rw [hrefs, own_give_of_ne s.toData hne]
      exact ⟨hins, hid, hone, href⟩
    case needs =>
      intro x hx
      have hv : v ≠ t := by
        rintro rfl
        simp [hp] at hx
      exact (hok.needs x hx).trans (own_le_give s.toData hv)
    case removing =>
      intro x hx
      rw [hrefs]
      exact hok.removing x hx
    case finds => exact hok.finds
    case unlinked => exact hok.unlinked
    case loaded => exact hok.loaded
    case head => exact hok.head
    case cmp => exact hok.cmp
    case walk => exact hok.walk
  · exact h.last x hx ((hrefs x).symm.trans hzero)

theorem step_inv (s : State T) (a : Act T) (s' : State T) (h : Inv s) (hcond : Atomic s a ∧ Room Pc.adds s a)
    (hs : step s a = some s') : Inv s' := by
  cases a with
  | alloc t id malloced inited =>
    obtain ⟨⟨-, hp⟩, hs⟩ := Option.ite_none_right_eq_some.mp hs
    obtain rfl := Option.some.inj hs
    cases malloced with
    | false => exact h
    | true =>
      cases inited with
      | false => exact h.mallocFree hp
      | true => exact h.malloc hp
  | hold t fp =>
    obtain ⟨⟨-, hp, hown⟩, hs⟩ := Option.ite_none_right_eq_some.mp hs
    refine Option.some.inj hs ▸ h.move (by simp [hp]) (Pc.not_loaded rfl) (by simp [hp]) fun L _ hok => ?_
    rw [hp] at hok
    apply hok.advance_off <;> simp [hown]
  | find t id =>
    obtain ⟨⟨-, hp⟩, hs⟩ := Option.ite_none_right_eq_some.mp hs
    refine Option.some.inj hs ▸ h.move (by simp [hp]) (Pc.not_loaded rfl) (by simp [hp]) fun L _ hok => ?_
    rw [hp] at hok
    apply hok.advance_off <;> simp
  | release t fp =>
    obtain ⟨⟨-, hp, hown⟩, hs⟩ := Option.ite_none_right_eq_some.mp hs
    refine Option.some.inj hs ▸ h.move (by simp [hp]) (Pc.not_loaded rfl) (by simp [hp]) fun L _ hok => ?_
    rw [hp] at hok
    apply hok.advance_off <;> simp [hown]
  | move t =>
    obtain ⟨-, hs⟩ := Option.ite_none_right_eq_some.mp hs
    exact move_inv h hcond.1 hcond.2 rfl hs
  | give t u fp =>
    obtain ⟨⟨-, hp, hown⟩, hs⟩ := Option.ite_none_right_eq_some.mp hs
    exact Option.some.inj hs ▸ h.give hp hown

omit [DecidableEq T] in
theorem start_inv (mem : ℕ → Foo) : Inv (start mem : State T) := by
  refine ⟨?_, ⟨fun _ => [], ?_, fun t => ?_⟩, ?_, ?_, ?_, rfl⟩
  · simp [start, Machine.start, Mutex.Guards]
  · refine ⟨⟨?_, ?_⟩, ?_, ?_, ?_, ?_, ?_⟩ <;> simp [start, Machine.start, Data.InTable, Data.Live, Data.refs]
  · constructor <;> simp [start, Machine.start]
  · simp [start, Machine.start]
  · simp [start, Machine.start]
  · simp [start, Machine.start, Data.Live]

/-! ### The last reference -/

/-- The thread frees the object if the others let it run. -/
def Frees (s : State T) (t : T) (fp : ℕ) : Prop :=
  ∃ n s', run step s (List.replicate n (.move t)) = some s' ∧ ¬ s'.Live fp

omit [Fintype T] in
theorem Frees.head (hs : step s (.move t) = some s') (h : Frees s' t fp) : Frees s t fp := by
  obtain ⟨n, s'', hrun, hlive⟩ := h
  exact ⟨n + 1, s'', run_cons_eq_some.mpr ⟨s', hs, hrun⟩, hlive⟩

theorem Inv.removing_step (h : Inv s) (hrem : (s.pc t).removing = some fp) (hs : step s (.move t) = some s') :
    Inv s' := by
  refine step_inv s (.move t) s' h ⟨fun x hload => ?_, fun x hadds => ?_⟩ hs
  · cases hp : s.pc t <;> simp_all
  · cases hp : s.pc t <;> simp_all

theorem Inv.frees_of_relFree (h : Inv s) (hp : s.pc t = .relFree fp) : Frees s t fp := by
  have hs : step s (.move t) = some (s.goto t { s.toData with frees := bump s.frees fp } .idle) := by
    rw [step, if_pos h.noFault, hp, State.move, Machine.access_of_live _ (h.live (t := t) (by simp [hp]))]
  exact ⟨1, _, run_cons_eq_some.mpr ⟨_, hs, rfl⟩, fun hlive => absurd hlive.2 (by simp [Machine.goto, bump])⟩

theorem Inv.frees_of_relUnhash (h : Inv s) (hp : s.pc t = .relUnhash fp) : Frees s t fp := by
  have hs : step s (.move t) = s.unlockHash t (.relFree fp) := by
    rw [step, if_pos h.noFault, hp, State.move]
  have hnext := h.removing_step (show (s.pc t).removing = some fp by simp [hp]) hs
  exact Frees.head hs (hnext.frees_of_relFree (Function.update_self ..))

theorem Inv.frees_of_next (h : Inv s) (hp : s.pc t = .relWalk fp (some x)) (hx : s.Live x)
    (hnext : (s.mem x).fNext = some fp) : Frees s t fp := by
  have hs : step s (.move t) = some (s.goto t
      { s.setNext x (s.mem fp).fNext with unlinks := bump s.unlinks fp } (.relUnhash fp)) := by
    rw [step, if_pos h.noFault, hp, State.move, Machine.access_of_live _ hx, if_pos hnext,
      Machine.access_of_live _ (h.live (t := t) (by simp [hp]))]
  exact Frees.head hs ((h.unlinkNext hp hnext).frees_of_relUnhash (Function.update_self ..))

/-- The walk ends at the object, because less of the chain is left before it with every step. -/
theorem Inv.frees_of_relWalk {pre mid post : List ℕ} (h : Inv s) (hcounted : Counted s.toData L)
    (hp : s.pc t = .relWalk fp (some x)) (hL : L (s.bucket fp) = pre ++ x :: mid ++ fp :: post) :
    Frees s t fp := by
  have hx : s.Live x := by
    have hmem : x ∈ L (s.bucket fp) := by simp [hL]
    exact hcounted.tableLive x ((hcounted.chained.members _ x).mp hmem).1
  induction mid generalizing s pre x with
  | nil =>
    by_cases hnext : (s.mem x).fNext = some fp
    · exact h.frees_of_next hp hx hnext
    · obtain ⟨y, mid, hmid, -⟩ := hcounted.chained.walk_on hL hnext
      cases hmid
  | cons y mid ih =>
    by_cases hnext : (s.mem x).fNext = some fp
    · exact h.frees_of_next hp hx hnext
    · obtain ⟨_, _, heq, hy⟩ := hcounted.chained.walk_on hL hnext
      obtain ⟨rfl, rfl⟩ := List.cons.inj heq
      have hs : step s (.move t) = some (s.goto t s.toData (.relWalk fp (some y))) := by
        rw [step, if_pos h.noFault, hp, State.move, Machine.access_of_live _ hx, if_neg hnext]
        rw [← hy]
        rfl
      have hnext := h.removing_step (show (s.pc t).removing = some fp by simp [hp]) hs
      have hL' : L (s.bucket fp) = (pre ++ [x]) ++ y :: mid ++ fp :: post := by simp [hL]
      have hmem : y ∈ L (s.bucket fp) := by simp [hL]
      have hlive : s.Live y := hcounted.tableLive y ((hcounted.chained.members _ y).mp hmem).1
      exact Frees.head hs (ih hnext hcounted (Function.update_self ..) hL' hlive)

theorem Inv.frees_of_relCmp {idx : Fin NHASH} {tfp : Option ℕ} (h : Inv s) (hp : s.pc t = .relCmp fp idx tfp) :
    Frees s t fp := by
  by_cases htfp : tfp = some fp
  · subst htfp
    have hs : step s (.move t) = some (s.goto t
        { s.setHead idx (s.mem fp).fNext with unlinks := bump s.unlinks fp } (.relUnhash fp)) := by
      rw [step, if_pos h.noFault, hp, State.move, if_pos rfl,
        Machine.access_of_live _ (h.live (t := t) (by simp [hp]))]
    exact Frees.head hs ((h.unlinkHead hp).frees_of_relUnhash (Function.update_self ..))
  · have hs : step s (.move t) = some (s.goto t s.toData (.relWalk fp tfp)) := by
      rw [step, if_pos h.noFault, hp, State.move, if_neg htfp]
    have hnext := h.removing_step (show (s.pc t).removing = some fp by simp [hp]) hs
    obtain ⟨L, hcounted, hall⟩ := hnext.data
    obtain ⟨x, pre, mid, post, rfl, hL⟩ := (hall t).walk fp tfp (Function.update_self ..)
    exact Frees.head hs (hnext.frees_of_relWalk hcounted (Function.update_self ..) hL)

theorem Inv.frees (h : Inv s) (hrem : (s.pc t).removing = some fp) : Frees s t fp := by
  cases hp : s.pc t with
  | relHead y =>
    obtain rfl : y = fp := by simpa [hp] using hrem
    have hs : step s (.move t) = some (s.goto t s.toData
        (.relCmp y (HASH (s.mem y).fId) (s.fh (HASH (s.mem y).fId)))) := by
      rw [step, if_pos h.noFault, hp, State.move, Machine.access_of_live _ (h.live (t := t) (by simp [hp]))]
    have hnext := h.removing_step hrem hs
    exact Frees.head hs (hnext.frees_of_relCmp (Function.update_self ..))
  | relCmp y idx tfp =>
    obtain rfl : y = fp := by simpa [hp] using hrem
    exact h.frees_of_relCmp hp
  | relWalk y tfp =>
    obtain rfl : y = fp := by simpa [hp] using hrem
    obtain ⟨L, hcounted, hall⟩ := h.data
    obtain ⟨x, pre, mid, post, rfl, hL⟩ := (hall t).walk y tfp hp
    exact h.frees_of_relWalk hcounted hp hL
  | relUnhash y =>
    obtain rfl : y = fp := by simpa [hp] using hrem
    exact h.frees_of_relUnhash hp
  | relFree y =>
    obtain rfl : y = fp := by simpa [hp] using hrem
    exact h.frees_of_relFree hp
  | _ => simp [hp] at hrem

/-! ### Every run -/

theorem Inv.exact (h : Inv s) : Exact s := by
  obtain ⟨L, hcounted, -⟩ := h.data
  refine ⟨hcounted.count, h.noFault, fun fp hrefs => ?_, fun fp hlive hrefs => ?_⟩
  · by_contra hlive
    rw [hcounted.dead fp hlive] at hrefs
    omega
  · obtain ⟨t, ht⟩ := h.last fp hlive hrefs
    exact ⟨t, ht, h.frees ht⟩

/-- In every run in which no two changes of a count overlap and no object gets more references than an `int`
counts, counts are the numbers of references, and objects are freed when, and only when, nobody has a
reference to them any more. -/
theorem coarse_table_run (mem : ℕ → Foo) (as : List (Act T)) (s : State T)
    (hatomic : Meets step Atomic (start mem) as) (hroom : Meets step (Room Pc.adds) (start mem) as)
    (hrun : run step (start mem) as = some s) : Exact s :=
  (invariant_of_meets step_inv (start_inv mem) (hatomic.and hroom) hrun).exact

omit [Fintype T] [DecidableEq T] in
theorem atomic_move (s : State T) (t : T) : Atomic s (.move t) ↔
    ∀ u, (s.pc t).loads = none ∨ (s.pc u).loaded.map Prod.fst ≠ (s.pc t).loads := by
  constructor
  · intro h u
    cases hload : (s.pc t).loads with
    | none => exact Or.inl rfl
    | some fp =>
      refine Or.inr fun hsame => ?_
      obtain ⟨⟨_, v⟩, hv, rfl⟩ := Option.map_eq_some_iff.mp hsame
      exact h _ hload u v hv
  · intro h fp hload u v hv
    obtain hnone | hne := h u
    · rw [hload] at hnone
      cases hnone
    · rw [hload, hv] at hne
      exact hne rfl

instance : ∀ (s : State T) (a : Act T), Decidable (Atomic s a)
  | s, .move t => decidable_of_iff _ (atomic_move s t).symm
  | _, .alloc .. | _, .hold .. | _, .find .. | _, .release .. | _, .give .. => isTrue trivial

/-- `t` allocates an object, `u` finds it, both release it. -/
def bothRelease {T : Type*} (t u : T) : List (Act T) :=
  .alloc t 7 true true :: List.replicate 6 (.move t) ++ .find u 7 :: List.replicate 8 (.move u) ++
    .release t 0 :: List.replicate 4 (.move t) ++ .release u 0 :: List.replicate 7 (.move u)

theorem coarse_table_run_bothRelease :
    ∃ s : State (Fin 2), run step (start fun _ => ⟨0, 0, none⟩) (bothRelease 0 1) = some s ∧
      ¬ s.Live 0 ∧ Exact s := by
  have hatomic : Meets step Atomic (start fun _ => ⟨0, 0, none⟩ : State (Fin 2)) (bothRelease 0 1) := by
    decide +kernel
  have hroom : Meets step (Room Pc.adds) (start fun _ => ⟨0, 0, none⟩ : State (Fin 2)) (bothRelease 0 1) := by
    decide +kernel
  exact ⟨_, rfl, by decide, coarse_table_run (fun _ => ⟨0, 0, none⟩) (bothRelease 0 1) _ hatomic hroom rfl⟩

/-- `t` and `u` have a reference each to an object. They call `foo_hold` and `foo_release`, and both load
the count before either stores it. -/
def overlapping {T : Type*} (t u : T) : List (Act T) :=
  .alloc t 7 true true :: List.replicate 6 (.move t) ++ .find u 7 :: List.replicate 8 (.move u) ++
    [.hold t 0, .move t, .move t, .release u 0, .move u, .move u, .move t, .move t, .move u, .move u]

theorem coarse_table_loses :
    ∃ s : State (Fin 2), run step (start fun _ => ⟨0, 0, none⟩) (overlapping 0 1) = some s ∧
      (∀ t, (s.pc t).loaded = none) ∧ s.Live 0 ∧ (s.mem 0).fCount = 1 ∧ s.refs 0 = 2 :=
  ⟨_, rfl, by decide, by decide, rfl, rfl⟩

end Apue.CoarseTable

import Apue.Threads.FooTableStep

/-!
# Every run of the hash table

`move_inv` and `step_inv` put the statements together, one case for each program point. Three of them
carry the argument of `foo_release`: the second test of `f_count`, under both locks, makes the thread
the owner of the only reference (`relTest2`), the walk along the chain starts and stays before the
object (`Ok.walk_start`, `Ok.walk_on`), and only a thread in that part of `foo_release` unlinks or frees
anything (`move_removals`). `foo_table_run` says what follows in every reachable state.
-/

namespace Apue.FooTable
open Linked Threads Transition

variable {T : Type*} [DecidableEq T] {s s' : State T} {t u : T} {p p' : Pc} {fp x : ℕ} {id : ℤ}

section move
variable [Fintype T] {d : Data T} {L : Fin NHASH → List ℕ}

omit [DecidableEq T] in
theorem Ok.walk_on (hok : Ok d L t (.relWalk fp (some x))) (htable : Table d L)
    (hne : d.next x ≠ some fp) : ∃ y pre mid post, d.next x = some y ∧
      L (d.bucket fp) = pre ++ y :: mid ++ fp :: post := by
  obtain ⟨x', pre, mid, post, hx, hL⟩ := hok.walk fp (some x) rfl
  obtain rfl := Option.some.inj hx
  obtain ⟨y, mid, rfl, hnext⟩ := htable.counted.chained.walk_on hL hne
  exact ⟨y, pre ++ [x], mid, post, hnext, by simp [hL]⟩

omit [DecidableEq T] in
theorem Ok.walk_start {idx : Fin NHASH} {tfp : Option ℕ} (hok : Ok d L t (.relCmp fp idx tfp))
    (htable : Table d L) (hne : tfp ≠ some fp) : ∃ y pre mid post, tfp = some y ∧
      L (d.bucket fp) = pre ++ y :: mid ++ fp :: post := by
  obtain ⟨rfl, rfl⟩ := hok.cmp fp idx tfp rfl
  exact htable.counted.chained.walk_start (hok.inTable rfl rfl (hok.needs fp rfl)) hne

omit [DecidableEq T] in
theorem Inv.walk_live {tfp : Option ℕ} (h : Inv s) (hp : s.pc t = .relWalk fp tfp) :
    ∃ x, tfp = some x ∧ s.Live x := by
  obtain ⟨L, htable, hall⟩ := h.data
  obtain ⟨x, pre, mid, post, hx, hL⟩ := (hall t).walk fp tfp hp
  have hmem : x ∈ L (s.bucket fp) := by simp [hL]
  exact ⟨x, hx, htable.tableLive x ((htable.members _ x).mp hmem).1⟩

theorem move_inv (h : Inv s) (hroom : Room Pc.adds s (.move t)) (hp : s.pc t = p) (hs : s.move t p = some s') : Inv s' := by
  cases p with
  | idle => exact absurd hs (by simp [State.move])
  | allocHash fp id =>
    refine h.lockHash hs rfl (by simp [hp]) fun L hok => ?_
    rw [hp] at hok
    apply hok.advance_off <;> simp
  | allocNext fp id =>
    rw [State.move, Machine.access_of_live _ (h.live (t := t) (by simp [hp]))] at hs
    exact Option.some.inj hs ▸ h.allocNext hp
  | allocHead fp id => exact Option.some.inj hs ▸ h.allocHead hp
  | allocLock fp =>
    refine h.lockFoo hs (by simp [hp]) (by simp [hp]) rfl (by simp [hp]) fun L hok => ?_
    rw [hp] at hok
    have hown := hok.needs fp rfl
    apply hok.advance_off <;> simp [hown]
  | allocUnhash fp =>
    refine h.unlockHash hs (by simp [hp]) rfl (by simp [hp]) fun L hok => ?_
    rw [hp] at hok
    have hown := hok.needs fp rfl
    apply hok.advance_off <;> simp [hown]
  | allocUnlock fp =>
    refine h.unlockFoo hs (by simp [hp]) rfl (by simp [hp]) fun L hok => ?_
    rw [hp] at hok
    apply hok.advance_off <;> simp
  | holdLock fp found =>
    refine h.lockFoo hs (by cases found <;> simp [hp]) (by simp [hp]) rfl (by simp [hp]) fun L hok => ?_
    rw [hp] at hok
    cases found with
    | true =>
      have hin := hok.finds fp rfl
      apply hok.advance_off <;> simp [hin]
    | false =>
      have hown := hok.needs fp rfl
      apply hok.advance_off <;> simp [hown]
  | holdLoad fp found =>
    rw [State.move, Machine.access_of_live _ (h.live (t := t) (by cases found <;> simp [hp]))] at hs
    refine Option.some.inj hs ▸ h.move (by simp [hp]) (by simp [hp]) fun L _ hok => ?_
    rw [hp] at hok
    cases found with
    | true =>
      have hin := hok.finds fp rfl
      apply hok.advance_off <;> simp [hin]
    | false =>
      have hown := hok.needs fp rfl
      apply hok.advance_off <;> simp [hown]
  | holdStore fp v found =>
    rw [State.move, Machine.access_of_live _ (h.live (t := t) (by cases found <;> simp [hp]))] at hs
    exact Option.some.inj hs ▸ h.holdStore hp (hroom fp (by simp [hp]))
  | holdUnlock fp found =>
    refine h.unlockFoo hs (by simp [hp]) (by cases found <;> rfl) (by cases found <;> simp [hp])
      fun L hok => ?_
    rw [hp] at hok
    cases found <;> apply hok.advance_off <;> simp
  | findHash id =>
    refine h.lockHash hs rfl (by simp [hp]) fun L hok => ?_
    rw [hp] at hok
    apply hok.advance_off <;> simp
  | findHead id =>
    refine Option.some.inj hs ▸ h.move (by simp [hp]) (by simp [hp]) fun L htable hok => ?_
    rw [hp] at hok
    have hhead : ∀ x, s.fh (HASH id) = some x → s.InTable x := fun x => htable.counted.chained.inTable_of_head
    apply hok.advance
    case hfinds => exact hhead
    all_goals simp
  | findTest id tfp =>
    cases tfp with
    | none =>
      refine Option.some.inj hs ▸ h.move (by simp [hp]) (by simp [hp]) fun L _ hok => ?_
      rw [hp] at hok
      apply hok.advance_off <;> simp
    | some fp =>
      rw [State.move, Machine.access_of_live _ (h.live (t := t) (by simp [hp]))] at hs
      refine Option.some.inj hs ▸ h.move (by split <;> simp [hp]) (by split <;> simp [hp])
        fun L htable hok => ?_
      rw [hp] at hok
      have hin := hok.finds fp rfl
      have hnext : ∀ x, (s.mem fp).fNext = some x → s.InTable x := fun x => htable.counted.chained.inTable_of_next hin
      by_cases hid : (s.mem fp).fId = id
      · rw [if_pos hid]
        apply hok.advance_off <;> simp [hin]
      · rw [if_neg hid]
        apply hok.advance
        case hfinds => exact hnext
        all_goals simp
  | findUnhash fp =>
    refine h.unlockHash hs (by simp [hp]) rfl (by simp [hp]) fun L hok => ?_
    rw [hp] at hok
    apply hok.advance_off <;> simp
  | relLock fp =>
    refine h.lockFoo hs (by simp [hp]) (by simp [hp]) rfl (by simp [hp]) fun L hok => ?_
    rw [hp] at hok
    have hown := hok.needs fp rfl
    apply hok.advance_off <;> simp [hown]
  | relTest fp =>
    rw [State.move, Machine.access_of_live _ (h.live (t := t) (by simp [hp]))] at hs
    refine Option.some.inj hs ▸ h.move (by split <;> simp [hp]) (by split <;> simp [hp])
      fun L _ hok => ?_
    rw [hp] at hok
    have hown := hok.needs fp rfl
    by_cases hone : (s.mem fp).fCount = 1
    · rw [if_pos hone]
      apply hok.advance_off <;> simp [hown]
    · have hone' : (s.mem fp).fCount ≠ 1#32 := hone
      rw [if_neg hone]
      apply hok.advance_off <;> simp [hown, hone']
  | relUnlock fp =>
    refine h.unlockFoo hs (by simp [hp]) rfl (by simp [hp]) fun L hok => ?_
    rw [hp] at hok
    have hown := hok.needs fp rfl
    apply hok.advance_off <;> simp [hown]
  | relHash fp =>
    refine h.lockHash hs rfl (by simp [hp]) fun L hok => ?_
    rw [hp] at hok
    have hown := hok.needs fp rfl
    apply hok.advance_off <;> simp [hown]
  | relLock2 fp =>
    refine h.lockFoo hs (by simp [hp]) (by simp [hp]) rfl (by simp [hp]) fun L hok => ?_
    rw [hp] at hok
    have hown := hok.needs fp rfl
    apply hok.advance_off <;> simp [hown]
  | relTest2 fp =>
    have hlive : s.Live fp := h.live (t := t) (by simp [hp])
    rw [State.move, Machine.access_of_live _ hlive] at hs
    refine Option.some.inj hs ▸ h.move (by split <;> simp [hp]) (by split <;> simp [hp])
      fun L htable hok => ?_
    rw [hp] at hok
    have hcount := htable.count fp hlive
    have hown := hok.needs fp rfl
    by_cases hone : (s.mem fp).fCount = 1
    · have hrefs : s.refs fp = 1 := by
        rw [hone] at hcount
        exact Int.ofNat.inj hcount.symm
      rw [if_pos hone]
      apply hok.advance_off <;> simp [hown, hrefs]
    · have hone' : (s.mem fp).fCount ≠ 1#32 := hone
      rw [if_neg hone]
      apply hok.advance_off <;> simp [hown, hone']
  | relHead fp =>
    rw [State.move, Machine.access_of_live _ (h.live (t := t) (by simp [hp]))] at hs
    refine Option.some.inj hs ▸ h.move (by simp [hp]) (by simp [hp]) fun L _ hok => ?_
    rw [hp] at hok
    have hown := hok.needs fp rfl
    have hlast := hok.last fp rfl
    apply hok.advance <;> simp [hown, hlast, Data.bucket]
  | relCmp fp idx tfp =>
    by_cases htfp : tfp = some fp
    · subst htfp
      rw [State.move, if_pos rfl, Machine.access_of_live _ (h.live (t := t) (by simp [hp]))] at hs
      exact Option.some.inj hs ▸ h.unlinkHead hp
    · rw [State.move, if_neg htfp] at hs
      refine Option.some.inj hs ▸ h.move (by simp [hp]) (by simp [hp]) fun L htable hok => ?_
      rw [hp] at hok
      have hown := hok.needs fp rfl
      have hlast := hok.last fp rfl
      have hstart := hok.walk_start htable htfp
      apply hok.advance
      case hwalk =>
        rintro fp' tfp' ⟨⟩
        exact hstart
      all_goals simp [hown, hlast]
  | relWalk fp tfp =>
    obtain ⟨x, rfl, hx⟩ := h.walk_live hp
    rw [State.move, Machine.access_of_live _ hx] at hs
    by_cases hnext : (s.mem x).fNext = some fp
    · rw [if_pos hnext, Machine.access_of_live _ (h.live (t := t) (by simp [hp]))] at hs
      exact Option.some.inj hs ▸ h.unlinkNext hp hnext
    · rw [if_neg hnext] at hs
      refine Option.some.inj hs ▸ h.move (by simp [hp]) (by simp [hp]) fun L htable hok => ?_
      rw [hp] at hok
      have hown := hok.needs fp rfl
      have hlast := hok.last fp rfl
      have hon := hok.walk_on htable hnext
      apply hok.advance
      case hwalk =>
        rintro fp' tfp' ⟨⟩
        exact hon
      all_goals simp [hown, hlast]
  | relUnhash fp =>
    refine h.unlockHash hs (by simp [hp]) rfl (by simp [hp]) fun L hok => ?_
    rw [hp] at hok
    have hown := hok.needs fp rfl
    have hlast := hok.last fp rfl
    apply hok.advance_off <;> simp [hown, hlast]
  | relUnlock2 fp =>
    refine h.unlockFoo hs (by simp [hp]) rfl (by simp [hp]) fun L hok => ?_
    rw [hp] at hok
    have hown := hok.needs fp rfl
    have hlast := hok.last fp rfl
    apply hok.advance_off <;> simp [hown, hlast]
  | relFree fp =>
    rw [State.move, Machine.access_of_live _ (h.live (t := t) (by simp [hp]))] at hs
    exact Option.some.inj hs ▸ h.relFree hp
  | decLoad fp hashed =>
    rw [State.move, Machine.access_of_live _ (h.live (t := t) (by simp [hp]))] at hs
    refine Option.some.inj hs ▸ h.move (by simp [hp]) (by simp [hp]) fun L _ hok => ?_
    rw [hp] at hok
    have hown := hok.needs fp rfl
    have hne : (s.mem fp).fCount ≠ 1#32 := hok.lowers fp rfl
    apply hok.advance_off <;> simp [hown, hne]
  | decStore fp v hashed =>
    rw [State.move, Machine.access_of_live _ (h.live (t := t) (by simp [hp]))] at hs
    exact Option.some.inj hs ▸ h.decStore hp
  | decUnlock fp hashed =>
    refine h.unlockFoo hs (by simp [hp]) (by cases hashed <;> rfl) (by cases hashed <;> simp [hp])
      fun L hok => ?_
    rw [hp] at hok
    cases hashed <;> apply hok.advance_off <;> simp
  | decUnhash =>
    refine h.unlockHash hs (by simp [hp]) rfl (by simp [hp]) fun L hok => ?_
    rw [hp] at hok
    apply hok.advance_off <;> simp

end move

/-! ### Who unlinks and frees -/

/-- How often `fp` was unlinked, freed and reported freed. -/
def Data.removals (d : Data T) (fp : ℕ) : ℕ × ℕ × ℕ := (d.unlinks fp, d.frees fp, d.zeros fp)

theorem lockHash_data (hs : s.lockHash t p' = some s') : s'.toData = s.toData := by
  obtain ⟨l, -, rfl⟩ := Option.map_eq_some_iff.mp hs
  rfl

theorem unlockHash_data (hs : s.unlockHash t p' = some s') : s'.toData = s.toData :=
  Option.some.inj hs ▸ rfl

omit [DecidableEq T] in
theorem access_cases {next : Option (State T)} (hs : s.access fp next = some s') :
    next = some s' ∨ s'.toData = s.toData := by
  unfold Machine.access at hs
  split at hs
  · exact Or.inl hs
  · exact Or.inr (Option.some.inj hs ▸ rfl)

theorem lockFoo_data (hs : s.lockFoo t fp p' = some s') : s'.toData = s.toData := by
  rcases access_cases hs with hs | hs
  · obtain ⟨l, -, rfl⟩ := Option.map_eq_some_iff.mp hs
    rfl
  · exact hs

theorem unlockFoo_data (hs : s.unlockFoo t fp p' = some s') : s'.toData = s.toData := by
  rcases access_cases hs with hs | hs
  · exact Option.some.inj hs ▸ rfl
  · exact hs

theorem move_removals (hs : s.move t p = some s') (hlast : p.last ≠ some fp) :
    s'.removals fp = s.removals fp := by
  have hsame : s'.toData = s.toData → s'.removals fp = s.removals fp := fun h => by rw [h]
  cases p with
  | idle => exact absurd hs (by simp [State.move])
  | allocHash | findHash | relHash => exact hsame (lockHash_data hs)
  | allocUnhash | findUnhash | relUnhash | decUnhash => exact hsame (unlockHash_data hs)
  | allocLock | holdLock | relLock | relLock2 => exact hsame (lockFoo_data hs)
  | allocUnlock | holdUnlock | relUnlock | relUnlock2 | decUnlock => exact hsame (unlockFoo_data hs)
  | allocNext | holdLoad | holdStore | relTest | relTest2 | relHead | decLoad | decStore =>
    rcases access_cases hs with hs | hs
    · exact Option.some.inj hs ▸ rfl
    · exact hsame hs
  | allocHead | findHead => exact Option.some.inj hs ▸ rfl
  | findTest id tfp =>
    cases tfp with
    | none => exact Option.some.inj hs ▸ rfl
    | some y =>
      rcases access_cases hs with hs | hs
      · exact Option.some.inj hs ▸ rfl
      · exact hsame hs
  | relCmp y idx tfp =>
    have hne : fp ≠ y := fun h => hlast (by simp [h])
    rw [State.move] at hs
    split at hs
    · rcases access_cases hs with hs | hs
      · obtain rfl := Option.some.inj hs
        simp [Data.removals, Machine.goto, Data.setHead, bump_of_ne hne]
      · exact hsame hs
    · exact Option.some.inj hs ▸ rfl
  | relWalk y tfp =>
    have hne : fp ≠ y := fun h => hlast (by simp [h])
    cases tfp with
    | none => exact Option.some.inj hs ▸ rfl
    | some z =>
      rcases access_cases hs with hs | hs
      · split at hs
        · rcases access_cases hs with hs | hs
          · obtain rfl := Option.some.inj hs
            simp [Data.removals, Machine.goto, Data.setNext, bump_of_ne hne]
          · exact hsame hs
        · exact Option.some.inj hs ▸ rfl
      · exact hsame hs
  | relFree y =>
    have hne : fp ≠ y := fun h => hlast (by simp [h])
    rcases access_cases hs with hs | hs
    · obtain rfl := Option.some.inj hs
      simp [Data.removals, Machine.goto, Data.setOwn, bump_of_ne hne]
    · exact hsame hs

/-! ### Every run -/

section run
variable [Fintype T]

theorem Inv.give (h : Inv s) (hp : s.pc t = .idle) (hown : 1 ≤ s.own t fp) :
    Inv { s with toData := s.toData.give t u fp } := by
  obtain ⟨L, htable, hall⟩ := h.data
  have hin : s.InTable fp := by
    have hok := hall t
    rw [hp] at hok
    exact hok.inTable rfl rfl hown
  have hrefs : ∀ x, (s.toData.give t u fp).refs x = s.refs x := fun x => refs_give s.toData u x hown
  refine ⟨⟨h.locks.hash, h.locks.foo⟩, ⟨L, ?_, fun v => ?_⟩, h.noFault⟩
  · refine (htable.counted.give u hown).table (fun x hx => ?_) htable.zeros_fresh htable.inserts_zeros
      htable.freed
    rw [hrefs]
    exact htable.owned x hx
  · have hok := hall v
    constructor
    case own =>
      intro x hx
      by_cases hxe : x = fp
      · exact ⟨hxe ▸ htable.tableLive fp hin, Or.inl (hxe ▸ hin)⟩
      · rw [own_give_of_ne s.toData hxe] at hx
        exact hok.own x hx
    case priv =>
      intro x id hx
      obtain ⟨hins, hid, hone, href⟩ := hok.priv x id hx
      have hne : x ≠ fp := by
        rintro rfl
        exact absurd (hin.1.symm.trans hins) one_ne_zero
      rw [hrefs, own_give_of_ne s.toData hne]
      exact ⟨hins, hid, hone, href⟩
    case needs =>
      intro x hx
      have hv : v ≠ t := by
        rintro rfl
        simp [hp] at hx
      exact (hok.needs x hx).trans (own_le_give s.toData hv)
    case last =>
      intro x hx
      rw [hrefs]
      exact hok.last x hx
    case finds => exact hok.finds
    case removing => exact hok.removing
    case loaded => exact hok.loaded
    case lowers => exact hok.lowers
    case head => exact hok.head
    case cmp => exact hok.cmp
    case walk => exact hok.walk

theorem step_inv (s : State T) (a : Act T) (s' : State T) (h : Inv s) (hroom : Room Pc.adds s a)
    (hs : step s a = some s') : Inv s' := by
  cases a with
  | alloc t id malloced inited =>
    obtain ⟨⟨-, hp⟩, hs⟩ := Option.ite_none_right_eq_some.mp hs
    obtain rfl := Option.some.inj hs
    cases malloced with
    | false => exact h
    | true =>
      cases inited with
      | false => exact h.mallocFree hp
      | true => exact h.malloc hp
  | hold t fp =>
    obtain ⟨⟨-, hp, hown⟩, hs⟩ := Option.ite_none_right_eq_some.mp hs
    refine Option.some.inj hs ▸ h.move (by simp [hp]) (by simp [hp]) fun L _ hok => ?_
    rw [hp] at hok
    apply hok.advance_off <;> simp [hown]
  | find t id =>
    obtain ⟨⟨-, hp⟩, hs⟩ := Option.ite_none_right_eq_some.mp hs
    refine Option.some.inj hs ▸ h.move (by simp [hp]) (by simp [hp]) fun L _ hok => ?_
    rw [hp] at hok
    apply hok.advance_off <;> simp
  | release t fp =>
    obtain ⟨⟨-, hp, hown⟩, hs⟩ := Option.ite_none_right_eq_some.mp hs
    refine Option.some.inj hs ▸ h.move (by simp [hp]) (by simp [hp]) fun L _ hok => ?_
    rw [hp] at hok
    apply hok.advance_off <;> simp [hown]
  | move t =>
    obtain ⟨-, hs⟩ := Option.ite_none_right_eq_some.mp hs
    exact move_inv h hroom rfl hs
  | give t u fp =>
    obtain ⟨⟨-, hp, hown⟩, hs⟩ := Option.ite_none_right_eq_some.mp hs
    exact Option.some.inj hs ▸ h.give hp hown

omit [DecidableEq T] in
theorem start_inv (mem : ℕ → Foo) : Inv (start mem : State T) := by
  refine ⟨⟨?_, ?_⟩, ⟨fun _ => [], ?_, fun t => ?_⟩, rfl⟩
  · simp [start, Machine.start]
  · simp [start, Machine.start]
  · constructor <;> simp [start, Machine.start, Data.InTable, Data.Live, Data.refs]
  · constructor <;> simp [start, Machine.start]

/-- What the table promises in a state. -/
structure Safe (s : State T) : Prop where
  chains : ∀ b, ∃ l, Chain s.next (s.fh b) l ∧ l.Nodup ∧ ∀ fp, fp ∈ l ↔ s.InTable fp ∧ s.bucket fp = b
  counts : ∀ fp, s.Live fp → (s.mem fp).fCount.toInt = s.refs fp
  noFault : s.fault = false
  once : ∀ fp, s.inserts fp ≤ 1 ∧ s.unlinks fp ≤ s.inserts fp ∧
    (s.inserts fp = 1 → s.frees fp ≤ s.unlinks fp ∧ s.zeros fp = s.frees fp)
  referenced : ∀ fp, 1 ≤ s.refs fp → s.Live fp
  released : ∀ fp, s.inserts fp = 1 → s.refs fp = 0 → s.removals fp = (1, 1, 1)

/-- An inserted object is unlinked, freed and reported freed by the `foo_release` of the thread that
owns the only reference to it. -/
def RemovedByLast (s : State T) : Prop :=
  ∀ a s', step s a = some s' → ∀ fp, s.inserts fp = 1 → s'.removals fp ≠ s.removals fp →
    ∃ t, a = .move t ∧ (s.pc t).last = some fp ∧ s.own t fp = 1 ∧ s.refs fp = 1

omit [DecidableEq T] in
theorem Inv.safe (h : Inv s) : Safe s := by
  obtain ⟨L, htable, -⟩ := h.data
  constructor
  case chains => exact fun b => ⟨L b, htable.chain b, (htable.chain b).nodup, htable.members b⟩
  case counts => exact htable.count
  case noFault => exact h.noFault
  case once => exact fun fp => ⟨(htable.once fp).1, (htable.once fp).2.1, htable.freed fp⟩
  case referenced =>
    intro fp hrefs
    by_contra hlive
    rw [htable.dead fp hlive] at hrefs
    omega
  case released =>
    intro fp hins hrefs
    have hbrk : fp < s.brk := by
      by_contra hle
      have hfresh := htable.fresh fp (Nat.le_of_not_lt hle)
      omega
    have hfree : s.frees fp ≠ 0 := by
      intro hfree
      have howned := htable.owned fp ⟨hbrk, hfree⟩
      omega
    obtain ⟨hle, hzero⟩ := htable.freed fp hins
    obtain ⟨-, hone, -⟩ := htable.once fp
    rw [Data.removals, Prod.mk.injEq, Prod.mk.injEq]
    omega

theorem Inv.removedByLast (h : Inv s) : RemovedByLast s := by
  intro a s' hs fp hins hchange
  obtain ⟨L, htable, hall⟩ := h.data
  have hbrk : s.brk ≠ fp := by
    rintro rfl
    exact absurd ((htable.fresh s.brk le_rfl).1.symm.trans hins) zero_ne_one
  cases a with
  | alloc t id malloced inited =>
    obtain ⟨-, hs⟩ := Option.ite_none_right_eq_some.mp hs
    obtain rfl := Option.some.inj hs
    refine absurd ?_ hchange
    cases malloced with
    | false => rfl
    | true =>
      cases inited with
      | false => simp [Data.removals, Machine.goto, Data.mallocFree, bump_of_ne hbrk.symm]
      | true => rfl
  | hold | find | release | give =>
    obtain ⟨-, hs⟩ := Option.ite_none_right_eq_some.mp hs
    exact absurd (Option.some.inj hs ▸ rfl) hchange
  | move t =>
    obtain ⟨-, hs⟩ := Option.ite_none_right_eq_some.mp hs
    have hlast : (s.pc t).last = some fp := by
      by_contra hlast
      exact hchange (move_removals hs hlast)
    have hrefs := (hall t).last fp hlast
    have hown := (hall t).needs fp (Pc.needs_of_last hlast)
    exact ⟨t, rfl, hlast, le_antisymm (hrefs ▸ own_le_refs) hown, hrefs⟩

theorem inv_run (mem : ℕ → Foo) {as : List (Act T)} (hroom : Meets step (Room Pc.adds) (start mem) as)
    (hrun : run step (start mem) as = some s) : Inv s :=
  invariant_of_meets step_inv (start_inv mem) hroom hrun

/-- As long as no object gets more references than an `int` counts, the chains hold the objects of the table,
every count is the number of references, nothing freed is touched, and objects are removed once, by the last
release. -/
theorem foo_table_run (mem : ℕ → Foo) (as : List (Act T)) (s : State T)
    (hroom : Meets step (Room Pc.adds) (start mem) as) (hrun : run step (start mem) as = some s) :
    Safe s ∧ RemovedByLast s :=
  ⟨(inv_run mem hroom hrun).safe, (inv_run mem hroom hrun).removedByLast⟩

end run

/-- Thread 0 allocates an object, thread 1 finds it, both release it. -/
def shared : List (Act (Fin 2)) :=
  .alloc 0 7 true true :: List.replicate 6 (.move 0) ++ .find 1 7 :: List.replicate 8 (.move 1) ++
    .release 0 0 :: List.replicate 5 (.move 0) ++ .release 1 0 :: List.replicate 11 (.move 1)

theorem foo_table_run_shared : ∃ s, run step (start fun _ => ⟨0, 0, none⟩) shared = some s ∧
    s.removals 0 = (1, 1, 1) ∧ Safe s ∧ RemovedByLast s := by
  have hroom : Meets step (Room Pc.adds) (start fun _ => ⟨0, 0, none⟩) shared := by decide +kernel
  exact ⟨_, rfl, rfl, foo_table_run (fun _ => ⟨0, 0, none⟩) shared _ hroom rfl⟩

/-! ### More references than an `int` counts -/

section overflow

theorem hold_run (hfault : s.fault = false) (hp : s.pc t = .idle) (hfree : s.fLock fp = none)
    (hlive : s.Live fp) (hown : 1 ≤ s.own t fp) :
    run step s (.hold t fp :: List.replicate 4 (.move t)) = some { s with toData := s.held t fp 1 } := by
  obtain ⟨hbrk, hfrees⟩ := hlive
  have hpc : Function.update s.pc t .idle = s.pc := by rw [← hp, Function.update_eq_self]
  have hlock : Function.update s.fLock fp none = s.fLock := by rw [← hfree, Function.update_eq_self]
  simp [run, List.replicate, step, State.move, Machine.goto, Machine.lockFoo, Machine.unlockFoo, Machine.access,
    Data.Live, Mutex.lock, Data.held, Data.setOwn, Data.setCount, hfault, hp, hfree, hbrk, hfrees, hown, hpc, hlock]

theorem hold_reaches (t : T) (fp : ℕ) (hfault : s.fault = false) (hp : s.pc t = .idle) (hfree : s.fLock fp = none)
    (hlive : s.Live fp) (hown : 1 ≤ s.own t fp) (n : ℕ) :
    Reaches step s { s with toData := s.held t fp n } := by
  induction n with
  | zero =>
    rw [held_zero]
    exact Reaches.refl step s
  | succ n ih =>
    have hown' : 1 ≤ (s.held t fp n).own t fp := by
      rw [held_own]
      omega
    have hnext := hold_run (s := { s with toData := s.held t fp n }) hfault hp hfree hlive hown'
    rw [← held_succ]
    exact ih.trans ⟨_, hnext⟩

end overflow

/-- Thread `t` allocates an object. -/
def allocated {T : Type*} (t : T) : List (Act T) := .alloc t 7 true true :: List.replicate 6 (.move t)

/-- With 2 ^ 31 references `f_count` is negative. -/
theorem foo_table_overflows : ∃ s : State Unit, Reaches step (start fun _ => ⟨0, 0, none⟩) s ∧
    (s.hashlock, s.fLock 0) = (none, none) ∧ s.Live 0 ∧ s.refs 0 = 2 ^ 31 ∧
    (s.mem 0).fCount.toInt = -2 ^ 31 :=
  ⟨_, Reaches.trans ⟨allocated (), rfl⟩ (hold_reaches () 0 rfl rfl rfl (by decide) (by decide) (2 ^ 31 - 1)),
    rfl, by decide, by decide +kernel, by decide +kernel⟩

end Apue.FooTable

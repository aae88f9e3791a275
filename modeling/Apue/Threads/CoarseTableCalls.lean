import Apue.Threads.CoarseTable
import Apue.Threads.FooTableCalls

/-!
# The two hash tables agree

One thread makes the same calls on the table of 11-11.c and on that of 11-12.c. `coarse_table_call` is
`foo_table_call` for the second one: what the two have in common it takes over along `State.embed`, and what is
left is its own `foo_release`, which decrements the count first and then looks whether it is 0. `tables_agree`
is about calls of any number, from the empty tables on.

An object is its number in the order of the calls of `malloc`, so that the objects of the two tables that
correspond to each other are the same number.
-/

namespace Apue.CoarseTable
open Calls FooTable Linked Threads Transition

/-- The object that a call returns at its last statement. -/
def Pc.result : Pc → Option ℕ
  | .allocUnlock fp => some fp
  | .findUnhash fp => fp
  | _ => none

/-- The program point of 11-11.c with the same statement, where there is one. -/
def Pc.embed : Pc → FooTable.Pc
  | .idle => .idle
  | .allocHash fp id => .allocHash fp id
  | .allocNext fp id => .allocNext fp id
  | .allocHead fp id => .allocHead fp id
  | .allocLock fp => .allocLock fp
  | .allocUnhash fp => .allocUnhash fp
  | .allocUnlock fp => .allocUnlock fp
  | .holdLock fp found => .holdLock fp found
  | .holdLoad fp found => .holdLoad fp found
  | .holdStore fp v found => .holdStore fp v found
  | .holdUnlock fp found => .holdUnlock fp found
  | .findHash id => .findHash id
  | .findHead id => .findHead id
  | .findTest id fp => .findTest id fp
  | .findUnhash fp => .findUnhash fp
  | .relHash fp => .relHash fp
  | .relLoad fp => .decLoad fp true
  | .relStore fp v => .decStore fp v true
  | .relHead fp => .relHead fp
  | .relCmp fp idx tfp => .relCmp fp idx tfp
  | .relWalk fp tfp => .relWalk fp tfp
  | .relUnhash fp => .relUnhash fp
  | .relFree fp => .relFree fp
  | .relDone => .decUnhash

namespace State

/-- The next statement of the only thread. -/
def next (s : State Unit) : Option (State Unit) := step s (.move ())

abbrev Busy (s : State Unit) : Prop := Machine.Busy .idle s

def result (s : State Unit) : Option ℕ := (s.pc ()).result

/-- Between two calls. -/
abbrev rest (d : Data Unit) : State Unit := .inside d false none .idle

/-- The state of 11-11.c with the same locks and the same memory. -/
abbrev embed (s : State Unit) : FooTable.State Unit := s.map Pc.embed

end State

/-- The call `op` in the state `s` returns `r` and leaves the state `u`. -/
def Does (s : State Unit) (op : RefTable.Op) (r : Option ℕ) (u : State Unit) : Prop :=
  ∃ t, step s (act op) = some t ∧ Returns State.next State.Busy State.result t r u

theorem does_functional : Functional Does := by
  rintro s op r r' u u' ⟨t, hcall, hreturns⟩ ⟨t', hcall', hreturns'⟩
  obtain rfl := Option.some.inj (hcall.symm.trans hcall')
  exact hreturns.unique hreturns'

/-! ### The shared statements -/

section shared
variable {s t : State Unit} {d : Data Unit} {hash : Bool} {foo : Option ℕ} {p : Pc} {fp : ℕ} {r : Option ℕ}

theorem embed_move (s : State Unit) (p : Pc) (hshared : p.embed.shared = true) :
    s.embed.move () p.embed = (s.move () p).map State.embed := by
  cases p with
  | allocHash fp id => exact map_lockHash s () (.allocNext fp id)
  | allocNext fp id => exact map_access_goto s fp () _ (.allocHead fp id)
  | allocHead fp id => exact congrArg some (map_goto s () _ (.allocLock fp))
  | allocLock fp => exact map_lockFoo s () fp (.allocUnhash fp)
  | allocUnhash fp => exact map_unlockHash s () (.allocUnlock fp)
  | allocUnlock fp => exact map_unlockFoo s () fp .idle
  | holdLock fp found => exact map_lockFoo s () fp (.holdLoad fp found)
  | holdLoad fp found => exact map_access_goto s fp () _ (.holdStore fp (s.mem fp).fCount found)
  | holdStore fp v found => exact map_access_goto s fp () _ (.holdUnlock fp found)
  | holdUnlock fp found =>
    cases found with
    | true => exact map_unlockFoo s () fp (.findUnhash (some fp))
    | false => exact map_unlockFoo s () fp .idle
  | findHash id => exact map_lockHash s () (.findHead id)
  | findHead id => exact congrArg some (map_goto s () _ (.findTest id (s.fh (HASH id))))
  | findTest id fp =>
    cases fp with
    | none => exact congrArg some (map_goto s () _ (.findUnhash none))
    | some fp =>
      have hgoto := map_access_goto (f := Pc.embed) s fp () s.toData
        (if (s.mem fp).fId = id then .holdLock fp true else .findTest id (s.mem fp).fNext)
      rw [apply_ite Pc.embed] at hgoto
      exact hgoto
  | findUnhash fp => exact map_unlockHash s () .idle
  | relHead fp =>
    exact map_access_goto s fp () _ (.relCmp fp (HASH (s.mem fp).fId) (s.fh (HASH (s.mem fp).fId)))
  | relCmp fp idx tfp =>
    by_cases hcmp : tfp = some fp
    · rw [State.move, if_pos hcmp, ← map_access_goto]
      exact if_pos hcmp
    · have hgoto := map_goto (f := Pc.embed) s () s.toData (.relWalk fp tfp)
      rw [State.move, if_neg hcmp]
      exact (if_neg hcmp).trans (congrArg some hgoto)
  | relWalk fp tfp =>
    cases tfp with
    | none => rfl
    | some tfp =>
      rw [State.move, ← map_access]
      refine congrArg (s.embed.access tfp) ?_
      by_cases hnext : (s.mem tfp).fNext = some fp
      · rw [if_pos hnext, ← map_access_goto]
        exact if_pos hnext
      · rw [if_neg hnext, Option.map_some, State.embed, ← map_goto]
        exact if_neg hnext
  | _ => cases hshared

theorem embed_next (hshared : s.embed.Shared) : s.embed.next = s.next.map State.embed := by
  by_cases hfault : s.fault = false
  · have hnext : s.next = s.move () (s.pc ()) := if_pos hfault
    rw [hnext, ← embed_move s _ hshared]
    exact if_pos hfault
  · have hnext : s.next = none := if_neg hfault
    rw [hnext]
    exact if_neg hfault

theorem embed_step {u : FooTable.State Unit} (hshared : s.embed.Shared) (h : s.embed.next = some u) :
    ∃ t, s.next = some t ∧ t.embed = u := by
  rw [embed_next hshared] at h
  exact Option.map_eq_some_iff.mp h

theorem embed_result (p : Pc) : p.embed.result = p.result := by
  cases p <;> rfl

theorem eq_idle (p : Pc) (h : p.embed = Pc.idle.embed) : p = .idle := by
  cases p <;> first | rfl | cases h

theorem eq_relUnhash (p : Pc) (h : p.embed = (Pc.relUnhash fp).embed) : p = .relUnhash fp := by
  cases p <;> cases h
  rfl

theorem eq_inside (hp : ∀ q : Pc, q.embed = p.embed → q = p)
    (h : s.embed = Machine.inside d hash foo p.embed) : s = Machine.inside d hash foo p := by
  obtain ⟨data, hashlock, fLock, pc, fault⟩ := s
  simp only [State.embed, Machine.map, Machine.inside, Machine.mk.injEq] at h
  obtain ⟨rfl, rfl, rfl, hpc, rfl⟩ := h
  have heq : pc = fun _ => p := funext fun u => hp _ (congrFun hpc u)
  rw [heq]
  rfl

theorem busy_of_shared (s : State Unit) (h : s.embed.Shared) : s.Busy := by
  intro hidle
  have hfalse : (s.pc ()).embed.shared = true := h
  rw [hidle] at hfalse
  cases hfalse

theorem path_of_shared {d' : Data Unit} {hash' : Bool} {foo' : Option ℕ}
    (hp : ∀ q : Pc, q.embed = p.embed → q = p)
    (h : Path FooTable.State.next FooTable.State.Shared s.embed (Machine.inside d' hash' foo' p.embed)) :
    Path State.next State.Busy s (Machine.inside d' hash' foo' p) := by
  obtain ⟨t, hpath, ht⟩ := Path.simulate (fun _ _ => embed_step) h
  obtain rfl := eq_inside hp ht
  exact hpath.mono busy_of_shared

theorem returns_of_shared
    (h : Returns FooTable.State.next FooTable.State.Shared FooTable.State.result s.embed r (FooTable.State.rest d)) :
    Returns State.next State.Busy State.result s r (State.rest d) := by
  obtain ⟨u, hpath, ⟨hshared, hlast⟩, -, hres⟩ := h
  obtain ⟨t, hpath', rfl⟩ := Path.simulate (fun _ _ => embed_step) hpath
  obtain ⟨v, hv, hrest⟩ := embed_step hshared hlast
  obtain rfl := eq_inside eq_idle hrest
  exact ⟨t, hpath'.mono busy_of_shared, ⟨busy_of_shared t hshared, hv⟩, not_busy_inside d _,
    (embed_result _).symm.trans hres⟩

end shared

/-! ### `foo_release` -/

section release
variable {d d' : Data Unit} {a : RefTable} {hash : Bool} {foo : Option ℕ} {p p' : Pc} {fp : ℕ}

theorem release_path (hlive : d.Live fp)
    (hp : (if (d.mem fp).fCount - 1 = 0 then Pc.relHead fp else .relDone) = p) :
    Path State.next State.Busy (Machine.inside d false none (.relHash fp))
      (Machine.inside (dropData d fp) true none p) := by
  have hstore : State.next (.inside d true none (.relStore fp (d.mem fp).fCount)) =
      some (Machine.inside (dropData d fp) true none p) :=
    (access_inside hlive _).trans (congrArg some (goto_inside.trans (congrArg _ hp)))
  refine .head nofun lockHash_inside ?_
  refine .head nofun ((access_inside hlive _).trans (congrArg some goto_inside)) ?_
  exact .head nofun hstore (.refl _)

theorem drop_returns (h : Shows d a) (hfp : 1 < a.count fp) :
    Returns State.next State.Busy State.result (Machine.inside d false none (.relHash fp)) none
      (State.rest (dropData d fp)) := by
  have hlive : d.Live fp := h.live (by omega)
  have hcount : (d.mem fp).fCount - 1 ≠ 0 := by
    intro hzero
    have hone : 1 ≤ a.count fp := by omega
    have hsub := h.count_sub_one hone
    rw [hzero] at hsub
    have heq : (0 : ℤ) = (a.count fp - 1 : ℕ) := hsub
    omega
  have hlast : State.Busy (.inside (dropData d fp) true none .relDone) := nofun
  exact Returns.of_path (release_path hlive (if_neg hcount)) (.last hlast unlockHash_inside (not_busy_inside _ _))

theorem remove_returns (h : Shows d a) (hfp : a.count fp = 1) :
    ∃ d', Shows d' (a.remove fp) ∧
      Returns State.next State.Busy State.result (Machine.inside d false none (.relHash fp)) none (State.rest d') := by
  have hlive : d.Live fp := h.live (by omega)
  have hin : d.InTable fp := (h.held fp).mpr (by omega)
  have hcount : (d.mem fp).fCount = 1 := h.count_eq_one hlive hfp
  have hzero : d.own () fp - 1 = 0 := by
    rw [h.own, hfp]
  have hdrop : Counted (dropData d fp) a.chain := by
    refine h.counted.store hlive ?_
    rw [hzero, h.own, h.count hlive, h.count_sub_one (by omega), hfp]
    rfl
  obtain ⟨fh, mem, hcell, hchain, hpath⟩ := unlink_path true none hdrop hin
  -- the memory when the object is out of its chain, and when it is freed
  let du : Data Unit := { dropData d fp with fh, mem, unlinks := bump d.unlinks fp }
  let df : Data Unit := { du with frees := bump d.frees fp }
  have hdu : Counted du fun b => (a.chain b).erase fp := hdrop.unlink hin hcell hchain
  have hown : df.own () = Function.update (d.own ()) fp 0 := by
    show Function.update (d.own ()) fp (d.own () fp - 1) = _
    rw [hzero]
  have hid : ∀ x, (mem x).fId = (d.mem x).fId := fun x => (hcell x).2.trans (cell_store d () fp x _ _).2
  have hshows : Shows df (a.remove fp) := by
    refine h.free hfp hdu hid (fun x hx => ?_) hown
    exact Function.update_of_ne hx _ _
  have htest : (if (d.mem fp).fCount - 1 = 0 then Pc.relHead fp else .relDone) = .relHead fp :=
    if_pos (by rw [hcount]; rfl)
  have hlast : State.Busy (.inside du false none (.relFree fp)) := nofun
  have hfree : State.next (.inside du false none (.relFree fp)) = some (State.rest df) :=
    (access_inside (d := du) hlive _).trans (congrArg some goto_inside)
  refine ⟨df, hshows, Returns.of_path (release_path hlive htest) ?_⟩
  refine Returns.of_path (path_of_shared eq_relUnhash hpath) ?_
  exact Returns.of_path (.head nofun unlockHash_inside (.refl _)) (.last hlast hfree (not_busy_inside _ _))

end release

/-! ### The calls -/

section calls
variable {d : Data Unit} {a : RefTable}

theorem alloc_does (h : Shows d a) (id : ℤ) :
    Does (State.rest d) (.alloc id) (some d.brk) (State.rest (allocData d id)) := by
  refine ⟨.inside (d.malloc () id) false none (.allocHash d.brk id), ?_, returns_of_shared (alloc_returns h id)⟩
  rw [act, step, if_pos ⟨rfl, rfl⟩]
  exact congrArg some goto_inside

theorem hold_does {fp : ℕ} (hlive : d.Live fp) (hown : 1 ≤ d.own () fp) :
    Does (State.rest d) (.hold fp) none (State.rest (d.held () fp 1)) := by
  refine ⟨.inside d false none (.holdLock fp false), ?_, returns_of_shared (FooTable.hold_returns hlive)⟩
  rw [act, step, if_pos ⟨rfl, rfl, hown⟩]
  exact congrArg some goto_inside

theorem coarse_table_call (h : Shows d a) (op : RefTable.Op) (hop : a.Allows op) :
    ∃ d', Does (State.rest d) op (a.result op) (State.rest d') ∧ Shows d' (a.next op) := by
  cases op with
  | alloc id =>
    rw [RefTable.result, ← h.brk]
    exact ⟨_, alloc_does h id, h.alloc id⟩
  | find id =>
    have hcall : step (State.rest d) (act (.find id)) = some (Machine.inside d false none (.findHash id)) := by
      rw [act, step, if_pos ⟨rfl, rfl⟩]
      exact congrArg some goto_inside
    exact ⟨_, ⟨_, hcall, returns_of_shared (find_returns h id)⟩, foundData_shows h id hop⟩
  | hold fp =>
    have hown : 1 ≤ d.own () fp := (h.own fp).symm ▸ hop.1
    exact ⟨_, hold_does (h.live hop.1) hown, held_shows h hop.1 hop.2⟩
  | release fp =>
    have hown : 1 ≤ d.own () fp := (h.own fp).symm ▸ hop
    have hcall : step (State.rest d) (act (.release fp)) = some (Machine.inside d false none (.relHash fp)) := by
      rw [act, step, if_pos ⟨rfl, rfl, hown⟩]
      exact congrArg some goto_inside
    by_cases hone : a.count fp = 1
    · obtain ⟨d', hshows, hreturns⟩ := remove_returns h hone
      rw [RefTable.next, RefTable.release, if_pos hone]
      exact ⟨d', ⟨_, hcall, hreturns⟩, hshows⟩
    · have hmore : 1 < a.count fp := lt_of_le_of_ne hop (Ne.symm hone)
      rw [RefTable.next, RefTable.release, if_neg hone]
      exact ⟨dropData d fp, ⟨_, hcall, drop_returns h hmore⟩, dropData_shows h hmore⟩

/-- The two tables are the same: on each chain the same objects in the same order, with the same count and
id, and so far the same objects have been unlinked, freed and given references to. -/
structure Agree (s : FooTable.State Unit) (t : State Unit) : Prop where
  chains : ∀ b, ∃ l, Chain (fun fp => (s.mem fp).fNext) (s.fh b) l ∧ Chain (fun fp => (t.mem fp).fNext) (t.fh b) l ∧
    ∀ fp ∈ l, (s.mem fp).fCount = (t.mem fp).fCount ∧ (s.mem fp).fId = (t.mem fp).fId
  unlinks : s.unlinks = t.unlinks
  frees : s.frees = t.frees
  own : s.own = t.own

theorem agree_of_shows {d' : Data Unit} (h : Shows d a) (h' : Shows d' a) :
    Agree (FooTable.State.rest d) (State.rest d') where
  chains b := by
    refine ⟨a.chain b, h.counted.chained.chain b, h'.counted.chained.chain b, fun fp hfp => ?_⟩
    have hcount := h.mem_chain hfp
    exact ⟨BitVec.toInt_inj.mp ((h.count (h.live hcount)).trans (h'.count (h'.live hcount)).symm),
      (h.id fp ((h.held fp).mpr hcount)).trans (h'.id fp ((h'.held fp).mpr hcount)).symm⟩
  unlinks := funext fun fp => (h.gone fp).1.trans (h'.gone fp).1.symm
  frees := funext fun fp => (h.gone fp).2.trans (h'.gone fp).2.symm
  own := funext fun _ => funext fun fp => (h.own fp).trans (h'.own fp).symm

/-- Whatever one thread calls, on references that it owns and never more than an `int` counts, from the empty
tables on: each call returns on both, with the same object, and the tables agree before and after it. -/
theorem tables_agree (mem₁ mem₂ : ℕ → Foo) (ops : List RefTable.Op) :
    Alike Allowed FooTable.Does Does Agree (FooTable.start mem₁) (start mem₂) ops := by
  -- between two calls both memories show one table
  let inv (a : RefTable) (s : FooTable.State Unit) (t : State Unit) : Prop :=
    ∃ d₁ d₂, s = FooTable.State.rest d₁ ∧ t = State.rest d₂ ∧ Shows d₁ a ∧ Shows d₂ a
  have hstart : inv RefTable.start (FooTable.start mem₁) (start mem₂) :=
    ⟨(FooTable.start mem₁).toData, (FooTable.start mem₂).toData, rfl, rfl, start_shows mem₁, start_shows mem₂⟩
  refine Alike.of_spec RefTable.next RefTable.result inv FooTable.does_functional does_functional ?_ ?_ hstart ops
  · rintro a s t ⟨d₁, d₂, rfl, rfl, h₁, h₂⟩
    exact agree_of_shows h₁ h₂
  · rintro a s t op ⟨d₁, d₂, rfl, rfl, h₁, h₂⟩ hallowed
    have hop : a.Allows op := allows_of_allowed h₁ hallowed
    obtain ⟨d₁', hdoes₁, hshows₁⟩ := foo_table_call h₁ op hop
    obtain ⟨d₂', hdoes₂, hshows₂⟩ := coarse_table_call h₂ op hop
    exact ⟨_, _, hdoes₁, hdoes₂, d₁', d₂', rfl, rfl, hshows₁, hshows₂⟩

theorem held_alike {fp : ℕ} {ops : List RefTable.Op} (n : ℕ) (hlive : d.Live fp) (hown : 1 ≤ d.own () fp)
    (h : Alike Owned FooTable.Does Does Agree (FooTable.State.rest d) (State.rest d)
      (List.replicate n (.hold fp) ++ ops)) :
    Alike Owned FooTable.Does Does Agree (FooTable.State.rest (d.held () fp n)) (State.rest (d.held () fp n)) ops := by
  induction n generalizing ops with
  | zero =>
    rw [held_zero]
    exact h
  | succ n ih =>
    rw [List.replicate_succ', List.append_assoc] at h
    have hown' : 1 ≤ (d.held () fp n).own () fp := by
      rw [held_own]
      omega
    have hnext := (ih h).tail hown' (FooTable.hold_does (d := d.held () fp n) hlive hown')
      (hold_does (d := d.held () fp n) hlive hown')
    rwa [held_succ] at hnext

/-- An object is allocated and held so often that it has 2 ^ 32 + 1 references and `f_count` is 1 again. -/
def wrapped : Data Unit := (allocData (FooTable.start fun _ => ⟨0, 0, none⟩).toData 7).held () 0 (2 ^ 32)

theorem wrapped_release_fine : ∃ s, FooTable.Does (FooTable.State.rest wrapped) (.release 0) none s ∧
    1 ≤ s.own () 0 ∧ ∀ r s', ¬ FooTable.Does s (.hold 0) r s' := by
  refine ⟨?s, ⟨_, rfl, ?t, ?path, ⟨?busy, ?next⟩, ?done, ?result⟩, ?owned, ?not⟩
  case path =>
    iterate 10 refine .head nofun rfl ?_
    exact .refl _
  case next => rfl
  case busy => exact nofun
  case done => exact fun h => h rfl
  case result => rfl
  case owned => decide
  case not => exact hold_not_does (by decide)

theorem wrapped_release : ∃ s, Does (State.rest wrapped) (.release 0) none s := by
  refine ⟨?s, _, rfl, ?t, ?path, ⟨?busy, ?next⟩, ?done, ?result⟩
  case path =>
    iterate 6 refine .head nofun rfl ?_
    exact .refl _
  case next => rfl
  case busy => exact nofun
  case done => exact fun h => h rfl
  case result => rfl

/-- Calls on owned references after which the tables do not go on together. -/
theorem tables_wrap : ¬ Alike Owned FooTable.Does Does Agree (FooTable.start fun _ => ⟨0, 0, none⟩)
    (start fun _ => ⟨0, 0, none⟩)
    (.alloc 7 :: List.replicate (2 ^ 32) (.hold 0) ++ [.release 0, .hold 0]) := by
  intro h
  have hshows := start_shows fun _ => ⟨0, 0, none⟩
  have halloc := h.tail trivial (FooTable.alloc_does hshows 7) (alloc_does hshows 7)
  have hheld := held_alike (2 ^ 32) (by decide) (by decide) halloc
  obtain ⟨s, hs, hown, hnot⟩ := wrapped_release_fine
  obtain ⟨t, ht⟩ := wrapped_release
  have howned : 1 ≤ wrapped.own () 0 := by decide
  obtain ⟨⟨r, s', hdoes⟩, -⟩ := (hheld.tail howned hs ht).2 hown
  exact hnot r s' hdoes

end calls

end Apue.CoarseTable

import Apue.Lib.Calls
import Apue.Threads.FooTableStep
import Apue.Threads.RefTable
import Mathlib.Data.List.Find

/-!
# The hash table, call by call

One thread and the locks free: `foo_table_call` says that every call that 11-11.c allows returns, and does
with the memory what `RefTable` says. The statements that 11-12.c has in common with it (`Pc.shared`) are taken
by themselves, so that their paths can be used for both.
-/

namespace Apue.FooTable
open Calls Linked Threads Transition

/-- The program points that 11-12.c has too, with the same statements. -/
def Pc.shared : Pc → Bool
  | .allocHash _ _ | .allocNext _ _ | .allocHead _ _ | .allocLock _ | .allocUnhash _ | .allocUnlock _ => true
  | .holdLock _ _ | .holdLoad _ _ | .holdStore _ _ _ | .holdUnlock _ _ => true
  | .findHash _ | .findHead _ | .findTest _ _ | .findUnhash _ => true
  | .relHead _ | .relCmp _ _ _ | .relWalk _ _ => true
  | _ => false

/-- The object that a call returns at its last statement. -/
def Pc.result : Pc → Option ℕ
  | .allocUnlock fp => some fp
  | .findUnhash fp => fp
  | _ => none

namespace Machine
variable {P : Type*}

/-- The only thread is at `p`; `hash` says whether it holds `hashlock`, `foo` is the object whose mutex it
holds. -/
def inside (d : Data Unit) (hash : Bool) (foo : Option ℕ) (p : P) : Machine Unit P where
  toData := d
  hashlock := if hash then some () else none
  fLock x := if foo = some x then some () else none
  pc _ := p
  fault := false

def Busy (idle : P) (s : Machine Unit P) : Prop := s.pc () ≠ idle

/-- Every program point is taken for another one. -/
def map {T Q : Type*} (f : P → Q) (s : Machine T P) : Machine T Q :=
  { s with pc := f ∘ s.pc }

end Machine

namespace State

/-- The next statement of the only thread. -/
def next (s : State Unit) : Option (State Unit) := step s (.move ())

abbrev Busy (s : State Unit) : Prop := Machine.Busy .idle s

def Shared (s : State Unit) : Prop := (s.pc ()).shared = true

def result (s : State Unit) : Option ℕ := (s.pc ()).result

/-- Between two calls. -/
abbrev rest (d : Data Unit) : State Unit := .inside d false none .idle

end State

theorem not_shared_rest (d : Data Unit) : ¬ (State.rest d).Shared := Bool.false_ne_true

/-- The call of a function. -/
def act : RefTable.Op → Act Unit
  | .alloc id => .alloc () id true true
  | .find id => .find () id
  | .hold fp => .hold () fp
  | .release fp => .release () fp

/-- The call `op` in the state `s` returns `r` and leaves the state `u`. -/
def Does (s : State Unit) (op : RefTable.Op) (r : Option ℕ) (u : State Unit) : Prop :=
  ∃ t, step s (act op) = some t ∧ Returns State.next State.Busy State.result t r u

/-- `foo_hold` and `foo_release` are called on a reference that is owned. -/
def Owned (s : State Unit) : RefTable.Op → Prop
  | .alloc _ | .find _ => True
  | .hold fp | .release fp => 1 ≤ s.own () fp

/-- And no object gets more references than an `int` counts. -/
def Allowed (s : State Unit) (op : RefTable.Op) : Prop :=
  Owned s op ∧ ∀ r s', Does s op r s' → ∀ fp, s'.own () fp ≤ INT_MAX

theorem does_functional : Functional Does := by
  rintro s op r r' u u' ⟨t, hcall, hreturns⟩ ⟨t', hcall', hreturns'⟩
  obtain rfl := Option.some.inj (hcall.symm.trans hcall')
  exact hreturns.unique hreturns'

/-! ### Statements -/

section map
variable {T P Q : Type*} [DecidableEq T] {f : P → Q}

theorem map_goto (s : Machine T P) (t : T) (d : Data T) (p : P) :
    (s.map f).goto t d (f p) = (s.goto t d p).map f := by
  simp only [Machine.goto, Machine.map, Function.comp_update]

omit [DecidableEq T] in
theorem map_access (s : Machine T P) (fp : ℕ) (next : Option (Machine T P)) :
    (s.map f).access fp (next.map (Machine.map f)) = (s.access fp next).map (Machine.map f) := by
  by_cases hlive : s.Live fp
  · rw [s.access_of_live hlive]
    exact if_pos hlive
  · rw [s.access_of_dead hlive]
    exact if_neg hlive

theorem map_access_goto (s : Machine T P) (fp : ℕ) (t : T) (d : Data T) (p : P) :
    (s.map f).access fp (some ((s.map f).goto t d (f p))) =
      (s.access fp (some (s.goto t d p))).map (Machine.map f) := by
  rw [map_goto]
  exact map_access s fp (some (s.goto t d p))

theorem map_lockHash (s : Machine T P) (t : T) (p : P) :
    (s.map f).lockHash t (f p) = (s.lockHash t p).map (Machine.map f) := by
  simp only [Machine.lockHash, Machine.map, Option.map_map]
  refine congrArg (fun g => (s.hashlock.lock t).map g) (funext fun l => ?_)
  simp only [Function.comp_apply, Machine.map, Function.comp_update]

theorem map_unlockHash (s : Machine T P) (t : T) (p : P) :
    (s.map f).unlockHash t (f p) = (s.unlockHash t p).map (Machine.map f) := by
  simp only [Machine.unlockHash, Machine.map, Option.map_some, Function.comp_update]

theorem map_lockFoo (s : Machine T P) (t : T) (fp : ℕ) (p : P) :
    (s.map f).lockFoo t fp (f p) = (s.lockFoo t fp p).map (Machine.map f) := by
  rw [Machine.lockFoo, Machine.lockFoo, ← map_access, Option.map_map]
  refine congrArg ((s.map f).access fp) (congrArg (fun g => ((s.fLock fp).lock t).map g) (funext fun l => ?_))
  simp only [Function.comp_apply, Machine.map, Function.comp_update]

theorem map_unlockFoo (s : Machine T P) (t : T) (fp : ℕ) (p : P) :
    (s.map f).unlockFoo t fp (f p) = (s.unlockFoo t fp p).map (Machine.map f) := by
  rw [Machine.unlockFoo, Machine.unlockFoo, ← map_access]
  refine congrArg ((s.map f).access fp) ?_
  simp only [Machine.map, Option.map_some, Function.comp_update]

end map

section statements
variable {P : Type*} {d d' : Data Unit} {hash : Bool} {foo : Option ℕ} {p p' : P} {fp : ℕ}

theorem update_unit {A : Type*} (x y : A) : Function.update (fun _ : Unit => x) () y = fun _ => y := by
  funext u
  cases u
  rfl

theorem goto_inside : (Machine.inside d hash foo p).goto () d' p' = Machine.inside d' hash foo p' := by
  simp only [Machine.goto, Machine.inside, update_unit]

theorem lockHash_inside : (Machine.inside d false foo p).lockHash () p' = some (Machine.inside d true foo p') := by
  simp only [Machine.lockHash, Machine.inside, update_unit]
  rfl

theorem unlockHash_inside : (Machine.inside d hash foo p).unlockHash () p' = some (Machine.inside d false foo p') := by
  simp only [Machine.unlockHash, Machine.inside, update_unit]
  rfl

theorem access_inside (hlive : d.Live fp) (next : Option (Machine Unit P)) :
    (Machine.inside d hash foo p).access fp next = next := if_pos hlive

theorem lockFoo_inside (hlive : d.Live fp) :
    (Machine.inside d hash none p).lockFoo () fp p' = some (Machine.inside d hash (some fp) p') := by
  have hlock : Function.update (fun x : ℕ => if none = some x then some () else none) fp (some ()) =
      fun x => if some fp = some x then some () else none := by
    funext x
    by_cases hx : x = fp
    · subst hx
      simp
    · simp [Function.update_of_ne hx, Ne.symm hx]
  rw [Machine.lockFoo, access_inside hlive]
  simp only [Machine.inside, update_unit]
  exact congrArg (fun l => some { Machine.inside d hash none p' with fLock := l }) hlock

theorem unlockFoo_inside (hlive : d.Live fp) :
    (Machine.inside d hash (some fp) p).unlockFoo () fp p' = some (Machine.inside d hash none p') := by
  have hlock : Function.update (fun x : ℕ => if some fp = some x then some () else none) fp none =
      fun x => if none = some x then some () else none := by
    funext x
    by_cases hx : x = fp
    · subst hx
      simp
    · simp [Function.update_of_ne hx, Ne.symm hx]
  rw [Machine.unlockFoo, access_inside hlive]
  simp only [Machine.inside, update_unit]
  exact congrArg (fun l => some { Machine.inside d hash none p' with fLock := l }) hlock

theorem not_busy_inside (d : Data Unit) (idle : P) : ¬ Machine.Busy idle (.inside d false none idle) :=
  fun h => h rfl

end statements

/-! ### The shared paths -/

section paths
variable {d : Data Unit} {a : RefTable} {hash : Bool} {foo : Option ℕ} {fp : ℕ} {id : ℤ}

theorem alloc_returns (h : Shows d a) (id : ℤ) :
    Returns State.next State.Shared State.result (Machine.inside (d.malloc () id) false none (.allocHash d.brk id))
      (some d.brk) (State.rest (allocData d id)) := by
  have hlive : (d.malloc () id).Live d.brk := ⟨Nat.lt_succ_self d.brk, (h.counted.fresh d.brk le_rfl).2.2⟩
  have hlive' : (allocData d id).Live d.brk := hlive
  refine ⟨Machine.inside (allocData d id) false (some d.brk) (.allocUnlock d.brk), ?_,
    ⟨rfl, unlockFoo_inside hlive'⟩, not_shared_rest _, rfl⟩
  refine .head rfl lockHash_inside ?_
  refine .head rfl ((access_inside hlive _).trans (congrArg some goto_inside)) ?_
  refine .head rfl (congrArg some goto_inside) ?_
  refine .head rfl (lockFoo_inside hlive') ?_
  refine .head rfl unlockHash_inside ?_
  exact .refl _

theorem hold_path (hlive : d.Live fp) (found : Bool) :
    Path State.next State.Shared (Machine.inside d hash none (.holdLock fp found))
      (Machine.inside (d.held () fp 1) hash (some fp) (.holdUnlock fp found)) := by
  refine .head rfl (lockFoo_inside hlive) ?_
  refine .head rfl ((access_inside hlive _).trans (congrArg some goto_inside)) ?_
  refine .head rfl ((access_inside hlive _).trans (congrArg some goto_inside)) ?_
  exact .refl _

theorem held_shows (h : Shows d a) (hfp : 1 ≤ a.count fp) (hroom : a.count fp < INT_MAX) :
    Shows (d.held () fp 1) (a.hold fp) := by
  have hold := h.count (h.live hfp)
  have hcount : ((d.mem fp).fCount + 1).toInt = (a.count fp + 1 : ℕ) := by
    rw [toInt_add_one (by omega), hold]
    rfl
  have hstore := h.store hfp (Nat.succ_pos _) hcount
  unfold Data.held
  rw [h.own]
  exact hstore

theorem find_path (id : ℤ) {l : List ℕ} {p : Option ℕ} (hchain : Chain d.next p l) (hlive : ∀ x ∈ l, d.Live x) :
    Path State.next State.Shared (Machine.inside d true none (.findTest id p))
      (Machine.inside d true none
        (match l.find? fun x => (d.mem x).fId = id with
        | some x => Pc.holdLock x true
        | none => Pc.findUnhash none)) := by
  induction l generalizing p with
  | nil =>
    obtain rfl : p = none := hchain
    exact .head rfl (congrArg some goto_inside) (.refl _)
  | cons x l ih =>
    obtain ⟨rfl, hrest⟩ := hchain
    have hnext : State.next (.inside d true none (.findTest id (some x))) =
        some (Machine.inside d true none
          (if (d.mem x).fId = id then Pc.holdLock x true else Pc.findTest id (d.next x))) :=
      (access_inside (hlive x (by simp)) _).trans (congrArg some goto_inside)
    refine .head rfl hnext ?_
    by_cases hid : (d.mem x).fId = id
    · rw [if_pos hid, List.find?_cons_of_pos (by simpa using hid)]
      exact .refl _
    · rw [if_neg hid, List.find?_cons_of_neg (by simpa using hid)]
      exact ih hrest fun y hy => hlive y (List.mem_cons_of_mem _ hy)

/-- The memory after `foo_find`, by what it returns. -/
def foundData (d : Data Unit) : Option ℕ → Data Unit
  | none => d
  | some fp => d.held () fp 1

theorem foundData_shows (h : Shows d a) (id : ℤ) (hroom : ∀ fp ∈ a.lookup id, a.count fp < INT_MAX) :
    Shows (foundData d (a.lookup id)) (a.next (.find id)) := by
  rw [RefTable.next]
  cases hfound : a.lookup id with
  | none => exact h
  | some fp => exact held_shows h (h.mem_chain (List.mem_of_find?_eq_some hfound)) (hroom fp hfound)

theorem find_returns (h : Shows d a) (id : ℤ) :
    Returns State.next State.Shared State.result (Machine.inside d false none (.findHash id)) (a.lookup id)
      (State.rest (foundData d (a.lookup id))) := by
  have hlookup : ((a.chain (HASH id)).find? fun x => (d.mem x).fId = id) = a.lookup id :=
    List.find?_congr fun x hx => by rw [h.id x ((h.held x).mpr (h.mem_chain hx))]
  have hpath := find_path id (h.counted.chained.chain (HASH id)) fun x hx => h.live (h.mem_chain hx)
  have hstart : Path State.next State.Shared (Machine.inside d false none (.findHash id))
      (Machine.inside d true none (.findTest id (d.fh (HASH id)))) :=
    .head rfl lockHash_inside (.head rfl (congrArg some goto_inside) (.refl _))
  rw [hlookup] at hpath
  cases hfound : a.lookup id with
  | none =>
    rw [hfound] at hpath
    exact Returns.of_path (hstart.trans hpath) (.last rfl unlockHash_inside (not_shared_rest _))
  | some fp =>
    rw [hfound] at hpath
    have hmem : fp ∈ a.chain (HASH id) := List.mem_of_find?_eq_some hfound
    have hcount : 1 ≤ a.count fp := h.mem_chain hmem
    have hlive : (d.held () fp 1).Live fp := h.live hcount
    refine Returns.of_path (hstart.trans (hpath.trans (hold_path (h.live hcount) true))) ?_
    refine Returns.of_path (.head rfl (unlockFoo_inside hlive) (.refl _)) ?_
    exact .last rfl unlockHash_inside (not_shared_rest _)

theorem walk_path (hash : Bool) (foo : Option ℕ) {L : Fin NHASH → List ℕ} (h : Counted d L) (hlive : d.Live fp)
    {pre mid post : List ℕ} {x : ℕ} (hL : L (d.bucket fp) = pre ++ x :: mid ++ fp :: post) :
    ∃ pre' y mid', L (d.bucket fp) = pre' ++ y :: mid' ++ fp :: post ∧ d.next y = some fp ∧
      Path State.next State.Shared (Machine.inside d hash foo (.relWalk fp (some x)))
        (Machine.inside { d.setNext y (d.next fp) with unlinks := bump d.unlinks fp } hash foo (.relUnhash fp)) := by
  induction mid generalizing pre x with
  | nil =>
    have hx : d.Live x := h.tableLive x ((h.chained.members (d.bucket fp) x).mp (by simp [hL])).1
    have hnext : d.next x = some fp := by
      by_contra hne
      obtain ⟨y, mid', hmid, -⟩ := h.chained.walk_on hL hne
      cases hmid
    refine ⟨pre, x, [], hL, hnext, .head rfl ?_ (.refl _)⟩
    exact (access_inside hx _).trans ((if_pos hnext).trans
      ((access_inside hlive _).trans (congrArg some goto_inside)))
  | cons y mid ih =>
    have hx : d.Live x := h.tableLive x ((h.chained.members (d.bucket fp) x).mp (by simp [hL])).1
    by_cases hnext : d.next x = some fp
    · refine ⟨pre, x, y :: mid, hL, hnext, .head rfl ?_ (.refl _)⟩
      exact (access_inside hx _).trans ((if_pos hnext).trans
        ((access_inside hlive _).trans (congrArg some goto_inside)))
    · obtain ⟨z, mid', hmid, hz⟩ := h.chained.walk_on hL hnext
      obtain ⟨rfl, rfl⟩ := List.cons.inj hmid
      have hL₁ : L (d.bucket fp) = (pre ++ [x]) ++ y :: mid ++ fp :: post := by simp [hL]
      obtain ⟨pre', w, mid', hL', hw, hpath⟩ := ih hL₁
      refine ⟨pre', w, mid', hL', hw, .head rfl ?_ hpath⟩
      have hgo : (Machine.inside d hash foo (Pc.relWalk fp (some x))).goto () d (.relWalk fp (d.next x)) =
          Machine.inside d hash foo (Pc.relWalk fp (some y)) := by
        rw [goto_inside, hz]
      exact (access_inside hx _).trans ((if_neg hnext).trans (congrArg some hgo))

theorem unlink_path (hash : Bool) (foo : Option ℕ) {L : Fin NHASH → List ℕ} (h : Counted d L) (hin : d.InTable fp) :
    ∃ (fh : Fin NHASH → Option ℕ) (mem : ℕ → Foo),
      (∀ x, (mem x).fCount = (d.mem x).fCount ∧ (mem x).fId = (d.mem x).fId) ∧
      (∀ b, Chain (fun x => (mem x).fNext) (fh b) ((L b).erase fp)) ∧
      Path State.next State.Shared (Machine.inside d hash foo (.relHead fp))
        (Machine.inside { d with fh, mem, unlinks := bump d.unlinks fp } hash foo (.relUnhash fp)) := by
  have hlive := h.tableLive fp hin
  have hstart : State.next (.inside d hash foo (.relHead fp)) =
      some (Machine.inside d hash foo (.relCmp fp (d.bucket fp) (d.fh (d.bucket fp)))) :=
    (access_inside hlive _).trans (congrArg some goto_inside)
  by_cases hhead : d.fh (d.bucket fp) = some fp
  · refine ⟨Function.update d.fh (d.bucket fp) (d.next fp), d.mem, fun x => ⟨rfl, rfl⟩,
      h.chained.erase_head hin hhead, .head rfl hstart (.head rfl ?_ (.refl _))⟩
    exact (if_pos hhead).trans ((access_inside hlive _).trans (congrArg some goto_inside))
  · obtain ⟨y, pre, mid, post, hy, hL⟩ := h.chained.walk_start hin hhead
    obtain ⟨pre', w, mid', hL', hw, hpath⟩ := walk_path hash foo h hlive hL
    refine ⟨d.fh, (d.setNext w (d.next fp)).mem, fun x => cell_setNext d w x _, ?_,
      .head rfl hstart (.head rfl ?_ hpath)⟩
    · have hchain := h.chained.erase_next hL' hw
      rw [← next_setNext] at hchain
      exact hchain
    · rw [hy] at hhead ⊢
      exact (if_neg hhead).trans (congrArg some goto_inside)

end paths

/-! ### The calls -/

section calls
variable {d : Data Unit} {a : RefTable} {fp : ℕ}

theorem busy_of_shared (s : State Unit) (h : s.Shared) : s.Busy := by
  intro hidle
  rw [State.Shared, hidle] at h
  cases h

theorem returns_of_shared {s : State Unit} {r : Option ℕ}
    (h : Returns State.next State.Shared State.result s r (State.rest d)) :
    Returns State.next State.Busy State.result s r (State.rest d) := by
  obtain ⟨t, hpath, hstep, -, hres⟩ := h
  exact ⟨t, hpath.mono busy_of_shared, ⟨busy_of_shared t hstep.1, hstep.2⟩, not_busy_inside d _, hres⟩

theorem hold_returns (hlive : d.Live fp) :
    Returns State.next State.Shared State.result (Machine.inside d false none (.holdLock fp false)) none
      (State.rest (d.held () fp 1)) := by
  have hlive' : (d.held () fp 1).Live fp := hlive
  exact Returns.of_path (hold_path hlive false) (.last rfl (unlockFoo_inside hlive') (not_shared_rest _))

theorem alloc_does (h : Shows d a) (id : ℤ) :
    Does (State.rest d) (.alloc id) (some d.brk) (State.rest (allocData d id)) := by
  refine ⟨_, ?_, returns_of_shared (alloc_returns h id)⟩
  rw [act, step, if_pos ⟨rfl, rfl⟩]
  exact congrArg some goto_inside

theorem hold_does (hlive : d.Live fp) (hown : 1 ≤ d.own () fp) :
    Does (State.rest d) (.hold fp) none (State.rest (d.held () fp 1)) := by
  refine ⟨_, ?_, returns_of_shared (hold_returns hlive)⟩
  rw [act, step, if_pos ⟨rfl, rfl, hown⟩]
  exact congrArg some goto_inside

theorem hold_not_does {s : State Unit} (hdead : ¬ s.Live fp) (r : Option ℕ) (u : State Unit) :
    ¬ Does s (.hold fp) r u := by
  rintro ⟨t, ht, hreturns⟩
  obtain ⟨⟨hfault, -, -⟩, ht⟩ := Option.ite_none_right_eq_some.mp ht
  obtain rfl := Option.some.inj ht
  have hdead' : ¬ (s.goto () s.toData (.holdLock fp false)).Live fp := hdead
  have hnext : State.next (s.goto () s.toData (.holdLock fp false)) =
      some { s.goto () s.toData (.holdLock fp false) with fault := true } :=
    (if_pos hfault).trans (Machine.access_of_dead _ hdead' _)
  refine Returns.not_of_stuck hnext ?_ rfl hreturns
  exact nofun

theorem find_does (h : Shows d a) (id : ℤ) :
    Does (State.rest d) (.find id) (a.lookup id) (State.rest (foundData d (a.lookup id))) := by
  refine ⟨_, ?_, returns_of_shared (find_returns h id)⟩
  rw [act, step, if_pos ⟨rfl, rfl⟩]
  exact congrArg some goto_inside

theorem allows_of_allowed (h : Shows d a) {op : RefTable.Op} (hop : Allowed (State.rest d) op) : a.Allows op := by
  obtain ⟨howned, hroom⟩ := hop
  cases op with
  | alloc id => trivial
  | find id =>
    rintro fp hfound
    have hle : (foundData d (a.lookup id)).own () fp ≤ INT_MAX := hroom _ _ (find_does h id) fp
    rw [show a.lookup id = some fp from hfound, foundData, held_own, h.own] at hle
    exact hle
  | hold fp =>
    have hfp : 1 ≤ a.count fp := h.own fp ▸ howned
    have hle : (d.held () fp 1).own () fp ≤ INT_MAX := hroom _ _ (hold_does (h.live hfp) howned) fp
    rw [held_own, h.own] at hle
    exact ⟨hfp, hle⟩
  | release fp => exact le_of_le_of_eq howned (h.own fp)

/-- The memory after the decrement in `foo_release`. -/
def dropData (d : Data Unit) (fp : ℕ) : Data Unit :=
  (d.setCount fp ((d.mem fp).fCount - 1)).setOwn () fp (d.own () fp - 1)

theorem dropData_shows (h : Shows d a) (hfp : 1 < a.count fp) : Shows (dropData d fp) (a.drop fp) := by
  have hone : 1 ≤ a.count fp := hfp.le
  have hstore := h.store hone (Nat.le_sub_one_of_lt hfp) (h.count_sub_one hone)
  unfold dropData
  rw [h.own]
  exact hstore

theorem drop_returns (h : Shows d a) (hfp : 1 < a.count fp) :
    Returns State.next State.Busy State.result (Machine.inside d false none (.relLock fp)) none
      (State.rest (dropData d fp)) := by
  have hlive : d.Live fp := h.live (by omega)
  have hlive' : (dropData d fp).Live fp := hlive
  have hcount : (d.mem fp).fCount ≠ 1 := h.count_ne_one hlive hfp
  have htest : State.next (.inside d false (some fp) (.relTest fp)) =
      some (Machine.inside d false (some fp) (.decLoad fp false)) :=
    (access_inside hlive _).trans (congrArg some (goto_inside.trans (congrArg _ (if_neg hcount))))
  have hlast : State.Busy (.inside (dropData d fp) false (some fp) (.decUnlock fp false)) := nofun
  refine Returns.of_path ?_ (.last hlast (unlockFoo_inside hlive') (not_busy_inside _ _))
  refine .head nofun (lockFoo_inside hlive) (.head nofun htest ?_)
  refine .head nofun ((access_inside hlive _).trans (congrArg some goto_inside)) ?_
  refine .head nofun ((access_inside hlive _).trans (congrArg some goto_inside)) ?_
  exact .refl _

theorem remove_returns (h : Shows d a) (hfp : a.count fp = 1) :
    ∃ d', Shows d' (a.remove fp) ∧
      Returns State.next State.Busy State.result (Machine.inside d false none (.relLock fp)) none (State.rest d') := by
  have hlive : d.Live fp := h.live (by omega)
  have hin : d.InTable fp := (h.held fp).mpr (by omega)
  have hcount : (d.mem fp).fCount = 1 := h.count_eq_one hlive hfp
  obtain ⟨fh, mem, hcell, hchain, hpath⟩ := unlink_path true (some fp) h.counted hin
  -- the memory when the object is out of its chain, and when it is freed
  let du : Data Unit := { d with fh, mem, unlinks := bump d.unlinks fp }
  let df : Data Unit :=
    { du.setOwn () fp (d.own () fp - 1) with frees := bump d.frees fp, zeros := bump d.zeros fp }
  have hdu : Counted du fun b => (a.chain b).erase fp := h.counted.unlink hin hcell hchain
  have hown : df.own () = Function.update (d.own ()) fp 0 := by
    show Function.update (d.own ()) fp (d.own () fp - 1) = _
    rw [h.own, hfp]
  have hshows : Shows df (a.remove fp) := h.free hfp hdu (fun x => (hcell x).2) (fun _ _ => rfl) hown
  have htest : State.next (.inside d false (some fp) (.relTest fp)) =
      some (Machine.inside d false (some fp) (.relUnlock fp)) :=
    (access_inside hlive _).trans (congrArg some (goto_inside.trans (congrArg _ (if_pos hcount))))
  have htest2 : State.next (.inside d true (some fp) (.relTest2 fp)) =
      some (Machine.inside d true (some fp) (.relHead fp)) :=
    (access_inside hlive _).trans (congrArg some (goto_inside.trans (congrArg _ (if_pos hcount))))
  have hlast : State.Busy (.inside du false none (.relFree fp)) := nofun
  have hfree : State.next (.inside du false none (.relFree fp)) = some (State.rest df) :=
    (access_inside (d := du) hlive _).trans (congrArg some goto_inside)
  refine ⟨df, hshows, Returns.of_path ?_ (.last hlast hfree (not_busy_inside _ _))⟩
  refine .head nofun (lockFoo_inside hlive) (.head nofun htest ?_)
  refine .head nofun (unlockFoo_inside hlive) (.head nofun lockHash_inside ?_)
  refine .head nofun (lockFoo_inside hlive) (.head nofun htest2 ?_)
  refine .trans (hpath.mono busy_of_shared) ?_
  refine .head nofun unlockHash_inside (.head nofun (unlockFoo_inside hlive) ?_)
  exact .refl _

theorem foo_table_call (h : Shows d a) (op : RefTable.Op) (hop : a.Allows op) :
    ∃ d', Does (State.rest d) op (a.result op) (State.rest d') ∧ Shows d' (a.next op) := by
  cases op with
  | alloc id =>
    rw [RefTable.result, ← h.brk]
    exact ⟨_, alloc_does h id, h.alloc id⟩
  | find id =>
    exact ⟨_, find_does h id, foundData_shows h id hop⟩
  | hold fp =>
    have hown : 1 ≤ d.own () fp := (h.own fp).symm ▸ hop.1
    exact ⟨_, hold_does (h.live hop.1) hown, held_shows h hop.1 hop.2⟩
  | release fp =>
    have hown : 1 ≤ d.own () fp := (h.own fp).symm ▸ hop
    have hcall : step (State.rest d) (act (.release fp)) = some (Machine.inside d false none (.relLock fp)) := by
      rw [act, step, if_pos ⟨rfl, rfl, hown⟩]
      exact congrArg some goto_inside
    by_cases hone : a.count fp = 1
    · obtain ⟨d', hshows, hreturns⟩ := remove_returns h hone
      rw [RefTable.next, RefTable.release, if_pos hone]
      exact ⟨d', ⟨_, hcall, hreturns⟩, hshows⟩
    · have hmore : 1 < a.count fp := lt_of_le_of_ne hop (Ne.symm hone)
      rw [RefTable.next, RefTable.release, if_neg hone]
      exact ⟨dropData d fp, ⟨_, hcall, drop_returns h hmore⟩, dropData_shows h hmore⟩

end calls

end Apue.FooTable

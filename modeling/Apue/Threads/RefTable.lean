import Apue.Threads.FooTableChains

/-!
# What the hash table is for

`RefTable` is the table of 11-11.c and 11-12.c as one thread sees it between two calls: the objects of each
chain, in order, their ids, and how many references there are to each object. `alloc` puts a new object in
front of its chain, `find` takes the first one with the id and one reference more, `release` takes the object
out with the last reference to it.

`Shows d a`: the memory `d` is such a table. The lemmas say what each statement that changes the memory
makes of it; both implementations use them.
-/

namespace Apue
open FooTable Linked Threads

structure RefTable where
  chain : Fin NHASH → List ℕ
  id : ℕ → ℤ
  count : ℕ → ℕ
  brk : ℕ

namespace RefTable

/-- The calls, with `malloc` and the initialisation of the mutex successful. -/
inductive Op where
  | alloc (id : ℤ)
  | find (id : ℤ)
  | hold (fp : ℕ)
  | release (fp : ℕ)

/-- The first object of its chain with the id. -/
def lookup (a : RefTable) (id : ℤ) : Option ℕ := (a.chain (HASH id)).find? fun fp => a.id fp = id

def alloc (a : RefTable) (id : ℤ) : RefTable where
  chain := Function.update a.chain (HASH id) (a.brk :: a.chain (HASH id))
  id := Function.update a.id a.brk id
  count := Function.update a.count a.brk 1
  brk := a.brk + 1

def hold (a : RefTable) (fp : ℕ) : RefTable := { a with count := bump a.count fp }

/-- One reference less, and the object stays. -/
def drop (a : RefTable) (fp : ℕ) : RefTable := { a with count := Function.update a.count fp (a.count fp - 1) }

/-- The last reference is given up. -/
def remove (a : RefTable) (fp : ℕ) : RefTable where
  chain b := (a.chain b).erase fp
  id := a.id
  count := Function.update a.count fp 0
  brk := a.brk

def release (a : RefTable) (fp : ℕ) : RefTable := if a.count fp = 1 then a.remove fp else a.drop fp

/-- A call of `hold` or `release` is on a reference that is owned, and no object gets more references than an
`int` counts. -/
def Allows (a : RefTable) : Op → Prop
  | .alloc _ => True
  | .find id => ∀ fp ∈ a.lookup id, a.count fp < INT_MAX
  | .hold fp => 1 ≤ a.count fp ∧ a.count fp < INT_MAX
  | .release fp => 1 ≤ a.count fp

instance (a : RefTable) (op : Op) : Decidable (a.Allows op) :=
  match op with
  | .alloc _ => isTrue trivial
  | .find id => inferInstanceAs (Decidable (∀ fp ∈ a.lookup id, a.count fp < INT_MAX))
  | .hold fp => inferInstanceAs (Decidable (1 ≤ a.count fp ∧ a.count fp < INT_MAX))
  | .release fp => inferInstanceAs (Decidable (1 ≤ a.count fp))

/-- The table after a call. -/
def next (a : RefTable) : Op → RefTable
  | .alloc id => a.alloc id
  | .find id =>
    match a.lookup id with
    | none => a
    | some fp => a.hold fp
  | .hold fp => a.hold fp
  | .release fp => a.release fp

/-- The object that a call returns. -/
def result (a : RefTable) : Op → Option ℕ
  | .alloc _ => some a.brk
  | .find id => a.lookup id
  | .hold _ => none
  | .release _ => none

/-- How often an object has been taken out. -/
def gone (a : RefTable) (fp : ℕ) : ℕ := if fp < a.brk ∧ a.count fp = 0 then 1 else 0

def start : RefTable := ⟨fun _ => [], fun _ => 0, fun _ => 0, 0⟩

-- 1 and 30 are in one chain
example : ((start.alloc 1).alloc 30).lookup 1 = some 0 := by decide
example : ¬ ((start.alloc 1).release 0).Allows (.hold 0) := by decide

end RefTable

/-! ### The memory -/

/-- The memory is the table, for the only thread. -/
structure Shows (d : Data Unit) (a : RefTable) : Prop where
  counted : Counted d a.chain
  own : ∀ fp, d.own () fp = a.count fp
  id : ∀ fp, d.InTable fp → (d.mem fp).fId = a.id fp
  brk : d.brk = a.brk
  held : ∀ fp, d.InTable fp ↔ 1 ≤ a.count fp
  gone : ∀ fp, d.unlinks fp = a.gone fp ∧ d.frees fp = a.gone fp

variable {d : Data Unit} {a : RefTable} {fp : ℕ}

theorem refs_unit (d : Data Unit) (fp : ℕ) : d.refs fp = d.own () fp := by
  simp [Data.refs]

theorem Shows.live (h : Shows d a) (hfp : 1 ≤ a.count fp) : d.Live fp := h.counted.tableLive fp ((h.held fp).mpr hfp)

theorem Shows.count (h : Shows d a) (hfp : d.Live fp) : (d.mem fp).fCount.toInt = a.count fp := by
  rw [h.counted.count fp hfp, refs_unit, h.own]

theorem Shows.count_eq_one (h : Shows d a) (hfp : d.Live fp) (hone : a.count fp = 1) : (d.mem fp).fCount = 1 := by
  apply BitVec.toInt_inj.mp
  rw [h.count hfp, hone]
  rfl

theorem Shows.count_ne_one (h : Shows d a) (hfp : d.Live fp) (hmore : 1 < a.count fp) : (d.mem fp).fCount ≠ 1 := by
  intro hone
  have hcount := h.count hfp
  rw [hone] at hcount
  have heq : (1 : ℤ) = a.count fp := hcount
  omega

theorem Shows.count_sub_one (h : Shows d a) (hfp : 1 ≤ a.count fp) :
    ((d.mem fp).fCount - 1).toInt = (a.count fp - 1 : ℕ) := by
  have hcount := h.count (h.live hfp)
  rw [toInt_sub_one (by omega), hcount]
  omega

theorem Shows.mem_chain (h : Shows d a) {b : Fin NHASH} (hfp : fp ∈ a.chain b) : 1 ≤ a.count fp :=
  (h.held fp).mp ((h.counted.chained.members b fp).mp hfp).1

theorem start_shows (mem : ℕ → Foo) : Shows (start mem : State Unit).toData RefTable.start where
  counted :=
    { chained := ⟨fun _ => rfl, fun b fp => by simp [RefTable.start, start, Machine.start, Data.InTable]⟩
      tableLive := fun fp hfp => absurd hfp.1 (by simp [start, Machine.start])
      count := fun fp hfp => absurd hfp.1 (by simp [start, Machine.start])
      dead := fun fp _ => by simp [Data.refs, start, Machine.start]
      fresh := fun fp _ => ⟨rfl, rfl, rfl⟩
      once := fun fp => le_rfl }
  own fp := rfl
  id fp hfp := absurd hfp.1 (by simp [start, Machine.start])
  brk := rfl
  held fp := by simp [RefTable.start, start, Machine.start, Data.InTable]
  gone fp := by simp [RefTable.gone, RefTable.start, start, Machine.start]

/-! ### What the statements make of it -/

/-- The new object, linked and put in front of its chain. -/
def allocData (d : Data Unit) (id : ℤ) : Data Unit :=
  let d' := (d.malloc () id).setNext d.brk (d.fh (HASH id))
  { d'.setHead (HASH id) (some d.brk) with inserts := bump d'.inserts d.brk }

theorem Shows.alloc (h : Shows d a) (id : ℤ) : Shows (allocData d id) (a.alloc id) := by
  have hfresh := h.counted.fresh d.brk le_rfl
  have hnot : ¬ (d.malloc () id).InTable d.brk := h.counted.not_inTable_brk
  have hlinked := (h.counted.malloc () id).setNext hnot (d.fh (HASH id))
  have hbucket : ((d.malloc () id).setNext d.brk (d.fh (HASH id))).bucket d.brk = HASH id := by
    simp [Data.bucket, Data.setNext, Data.malloc]
  have hlive : ((d.malloc () id).setNext d.brk (d.fh (HASH id))).Live d.brk :=
    ⟨Nat.lt_succ_self d.brk, hfresh.2.2⟩
  have hnext : ((d.malloc () id).setNext d.brk (d.fh (HASH id))).next d.brk = d.fh (HASH id) := by
    simp [Data.next, Data.setNext]
  have hcounted := hlinked.insert hlive hfresh.1 (by rw [hnext, hbucket]; rfl)
  rw [hbucket] at hcounted
  have hin {x : ℕ} (hx : x ≠ d.brk) : (allocData d id).InTable x ↔ d.InTable x := by
    simp [allocData, Data.InTable, Data.setHead, Data.setNext, Data.malloc, bump_of_ne hx]
  constructor
  case counted =>
    show Counted _ (Function.update a.chain (HASH id) (a.brk :: a.chain (HASH id)))
    rw [← h.brk]
    exact hcounted
  case own =>
    intro x
    show Function.update (d.own ()) d.brk 1 x = Function.update a.count a.brk 1 x
    rw [← h.brk, show d.own () = a.count from funext h.own]
  case id =>
    intro x hx
    show _ = Function.update a.id a.brk id x
    rw [← h.brk]
    by_cases hxe : x = d.brk
    · subst hxe
      simp [allocData, Data.setHead, Data.setNext, Data.malloc]
    · rw [Function.update_of_ne hxe, ← h.id x ((hin hxe).mp hx)]
      simp [allocData, Data.setHead, Data.setNext, Data.malloc, hxe]
  case brk => exact congrArg (· + 1) h.brk
  case held =>
    intro x
    by_cases hxe : x = d.brk
    · have hnew : (allocData d id).InTable d.brk :=
        ⟨by simp [allocData, Data.setHead, bump, Data.setNext, Data.malloc, hfresh.1], hfresh.2.1⟩
      subst hxe
      exact iff_of_true hnew (by simp [RefTable.alloc, h.brk])
    · have hne : x ≠ a.brk := h.brk ▸ hxe
      rw [hin hxe, h.held x]
      simp [RefTable.alloc, hne]
  case gone =>
    intro x
    have hgone : (a.alloc id).gone x = a.gone x := by
      by_cases hxe : x = a.brk
      · subst hxe
        simp [RefTable.gone, RefTable.alloc]
      · simp only [RefTable.gone, RefTable.alloc, Function.update_of_ne hxe]
        refine if_congr (and_congr_left' ?_) rfl rfl
        omega
    rw [hgone]
    exact h.gone x

theorem Shows.store (h : Shows d a) {n : ℕ} (hfp : 1 ≤ a.count fp) (hn : 1 ≤ n) {v : BitVec 32} (hv : v.toInt = n) :
    Shows ((d.setCount fp v).setOwn () fp n) { a with count := Function.update a.count fp n } := by
  have hlive := h.live hfp
  constructor
  case counted =>
    refine h.counted.store hlive ?_
    rw [h.own, h.count hlive]
    omega
  case own =>
    intro x
    show Function.update (d.own ()) fp n x = Function.update a.count fp n x
    rw [show d.own () = a.count from funext h.own]
  case id =>
    intro x hx
    rw [(cell_store d () fp x v n).2]
    exact h.id x hx
  case brk => exact h.brk
  case held =>
    intro x
    by_cases hxe : x = fp
    · subst hxe
      exact iff_of_true ((h.held x).mpr hfp) (by simpa using hn)
    · refine (h.held x).trans ?_
      simp [hxe]
  case gone =>
    intro x
    have hgone : RefTable.gone { a with count := Function.update a.count fp n } x = a.gone x := by
      by_cases hxe : x = fp
      · subst hxe
        have hn : n ≠ 0 := by omega
        have hcount : a.count x ≠ 0 := by omega
        simp [RefTable.gone, hn, hcount]
      · simp [RefTable.gone, hxe]
    rw [hgone]
    exact h.gone x

/-- The object is out of its chain and freed, and nobody has a reference. -/
theorem Shows.remove (h : Shows d a) (hone : a.count fp = 1) {d' : Data Unit}
    (hcounted : Counted d' fun b => (a.chain b).erase fp) (hown : d'.own () = Function.update (d.own ()) fp 0)
    (hid : ∀ x, (d'.mem x).fId = (d.mem x).fId) (hbrk : d'.brk = d.brk) (hinserts : d'.inserts = d.inserts)
    (hunlinks : d'.unlinks = bump d.unlinks fp) (hfrees : d'.frees = bump d.frees fp) : Shows d' (a.remove fp) := by
  have hlive : d.Live fp := h.live (by omega)
  have hgone : ∀ x, bump a.gone fp x = (a.remove fp).gone x := by
    intro x
    by_cases hxe : x = fp
    · subst hxe
      have hlt : x < a.brk := h.brk ▸ hlive.1
      simp [bump, RefTable.gone, RefTable.remove, hone, hlt]
    · simp [bump_of_ne hxe, RefTable.gone, RefTable.remove, hxe]
  have hin {x : ℕ} (hx : x ≠ fp) : d'.InTable x ↔ d.InTable x := by
    rw [Data.InTable, Data.InTable, hinserts, hunlinks, bump_of_ne hx]
  constructor
  case counted => exact hcounted
  case own =>
    intro x
    rw [hown]
    show _ = Function.update a.count fp 0 x
    rw [show d.own () = a.count from funext h.own]
  case id =>
    intro x hx
    rw [hid]
    by_cases hxe : x = fp
    · subst hxe
      exact h.id x ((h.held x).mpr (by omega))
    · exact h.id x ((hin hxe).mp hx)
  case brk => exact hbrk.trans h.brk
  case held =>
    intro x
    by_cases hxe : x = fp
    · subst hxe
      have hout : d'.unlinks x ≠ 0 := by simp [hunlinks, bump]
      exact iff_of_false (fun hx => hout hx.2) (by simp [RefTable.remove])
    · rw [hin hxe, h.held x]
      simp [RefTable.remove, hxe]
  case gone =>
    intro x
    rw [hunlinks, hfrees, ← hgone, show d.unlinks = a.gone from funext fun y => (h.gone y).1,
      show d.frees = a.gone from funext fun y => (h.gone y).2]
    exact ⟨rfl, rfl⟩

theorem Shows.free (h : Shows d a) (hone : a.count fp = 1) {fh : Fin NHASH → Option ℕ} {mem : ℕ → Foo}
    {own own' : Unit → ℕ → ℕ} {zeros : ℕ → ℕ}
    (hcounted : Counted { d with fh, mem, own, unlinks := bump d.unlinks fp } fun b => (a.chain b).erase fp)
    (hid : ∀ x, (mem x).fId = (d.mem x).fId) (hown : ∀ x ≠ fp, own () x = d.own () x)
    (hown' : own' () = Function.update (d.own ()) fp 0) :
    Shows { d with
      fh, mem, zeros, own := own', unlinks := bump d.unlinks fp, frees := bump d.frees fp } (a.remove fp) := by
  have hlive : d.Live fp := h.live (by omega)
  have hin : d.InTable fp := (h.held fp).mpr (by omega)
  have hout : bump d.unlinks fp fp = 1 := by
    rw [bump, Function.update_self, hin.2]
  refine h.remove hone (hcounted.free hlive hout ?_ fun x hx => ?_) hown' hid rfl rfl rfl rfl
  · rw [Fintype.sum_unique, show own' default = _ from hown', Function.update_self]
  · rw [Fintype.sum_unique, show own' default = _ from hown', Function.update_of_ne hx, refs_unit]
    exact (hown x hx).symm

end Apue

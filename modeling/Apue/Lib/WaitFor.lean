import Mathlib.Data.Finset.Union
import Mathlib.Data.Finset.Card
import Mathlib.Data.Fintype.EquivFin
import Mathlib.Logic.Relation
import Mathlib.Order.WellFounded

/-!
# Who waits for whom

`next p` are those `p` waits for: nobody, as long as `p` is not waiting. A ring of processes that wait for each other
is a deadlock, so `next` should stay `Acyclic`.

* `leads next n s`: who is met on the way from `s`, in `n` rounds; `mem_leads` says that these are all, when there are
  no more than `n + 1` who can be met.
* `Acyclic.anti`, `Acyclic.grant`, `Acyclic.sleep`: the changes that keep it, when somebody goes away, when somebody
  gets what others wait for, and when somebody begins to wait who does not lead to himself.
* `Acyclic.exists_free`: then nobody waits in vain: on the way there is somebody who does not wait.
-/

namespace WaitFor
open Relation

variable {P : Type*}

/-- `p` waits for `q`. -/
def Waits (next : P → Finset P) (p q : P) : Prop := q ∈ next p

def Acyclic (next : P → Finset P) : Prop := ∀ p, ¬ TransGen (Waits next) p p

variable {next next' : P → Finset P} {p q : P}

/-! ### The way -/

section leads
variable [DecidableEq P]

def leads (next : P → Finset P) : ℕ → Finset P → Finset P
  | 0, s => s
  | n + 1, s => leads next n (s ∪ s.biUnion next)

theorem subset_leads (n : ℕ) (s : Finset P) : s ⊆ leads next n s := by
  induction n generalizing s with
  | zero => exact Finset.Subset.refl s
  | succ n ih => exact Finset.subset_union_left.trans (ih _)

theorem leads_sound {n : ℕ} {s : Finset P} (h : q ∈ leads next n s) : ∃ p ∈ s, ReflTransGen (Waits next) p q := by
  induction n generalizing s with
  | zero => exact ⟨q, h, .refl⟩
  | succ n ih =>
    obtain ⟨p, hp, hpq⟩ := ih h
    obtain hp | hp := Finset.mem_union.mp hp
    · exact ⟨p, hp, hpq⟩
    · obtain ⟨r, hr, hrp⟩ := Finset.mem_biUnion.mp hp
      exact ⟨r, hr, .head hrp hpq⟩

/-- Every round that finds somebody new leaves fewer to be found. -/
theorem leads_closed {n : ℕ} {s u : Finset P} (hs : s ⊆ u) (hnext : ∀ p, next p ⊆ u) (hn : (u \ s).card ≤ n) :
    ∀ p ∈ leads next n s, next p ⊆ leads next n s := by
  induction n generalizing s with
  | zero =>
    intro p _
    have hsub : u ⊆ s := Finset.sdiff_eq_empty_iff_subset.mp (Finset.card_eq_zero.mp (Nat.le_zero.mp hn))
    exact (hnext p).trans hsub
  | succ n ih =>
    by_cases hnew : s.biUnion next ⊆ s
    · have hsame : ∀ m, leads next m s = s := by
        intro m
        induction m with
        | zero => rfl
        | succ m ihm => rw [leads, Finset.union_eq_left.mpr hnew, ihm]
      rw [hsame]
      exact fun p hp => (Finset.subset_biUnion_of_mem next hp).trans hnew
    · have hgrow : s ∪ s.biUnion next ⊆ u := Finset.union_subset hs (Finset.biUnion_subset.mpr fun p _ => hnext p)
      refine ih hgrow ?_
      obtain ⟨q, hq, hqs⟩ := Finset.not_subset.mp hnew
      have hlt : (u \ (s ∪ s.biUnion next)).card < (u \ s).card := by
        refine Finset.card_lt_card ⟨Finset.sdiff_subset_sdiff Finset.Subset.rfl Finset.subset_union_left, fun hsub => ?_⟩
        have hmem := hsub (Finset.mem_sdiff.mpr ⟨hgrow (Finset.mem_union_right _ hq), hqs⟩)
        exact (Finset.mem_sdiff.mp hmem).2 (Finset.mem_union_right _ hq)
      omega

/-- `leads` finds everybody on the way. -/
theorem mem_leads {n : ℕ} {s u : Finset P} (hs : s ⊆ u) (hnext : ∀ p, next p ⊆ u) (hn : u.card ≤ n + 1) :
    q ∈ leads next n s ↔ ∃ p ∈ s, ReflTransGen (Waits next) p q := by
  refine ⟨leads_sound, ?_⟩
  rintro ⟨p, hp, hpq⟩
  have hnew : (u \ s).card ≤ n := by
    have hpos := Finset.card_pos.mpr ⟨p, hp⟩
    rw [Finset.card_sdiff_of_subset hs]
    omega
  have hclosed := leads_closed hs hnext hnew
  induction hpq with
  | refl => exact subset_leads n s hp
  | tail _ hstep ih => exact hclosed _ ih hstep

end leads

/-! ### Rings -/

theorem Acyclic.anti (h : Acyclic next) (hsub : ∀ p, next' p ⊆ next p) : Acyclic next' := fun p hp =>
  h p (TransGen.mono (fun x _ hxy => hsub x hxy) p p hp)

/-- New ways to somebody who does not wait. -/
theorem Acyclic.grant (h : Acyclic next) (hq : next' q = ∅) (hsub : ∀ p r, r ∈ next' p → r = q ∨ r ∈ next p) :
    Acyclic next' := by
  have hend : ∀ r, ¬ Waits next' q r := fun r hr => by
    rw [Waits, hq] at hr
    exact Finset.notMem_empty r hr
  have hold : ∀ {x y}, TransGen (Waits next') x y → y = q ∨ TransGen (Waits next) x y := by
    intro x y hxy
    induction hxy with
    | single hstep => exact (hsub _ _ hstep).imp_right .single
    | tail _ hstep ih =>
      obtain rfl | ih := ih
      · exact absurd hstep (hend _)
      · exact (hsub _ _ hstep).imp_right ih.tail
  intro p hp
  obtain rfl | hp' := hold hp
  · obtain ⟨r, hr, -⟩ := TransGen.head'_iff.mp hp
    exact hend r hr
  · exact h p hp'

/-- A way of `next'` comes to `p` by ways of `next`, when only those behind `p` are different. -/
theorem reaches_of_eq_of_ne (hsame : ∀ x, x ≠ p → next' x = next x) {x : P} (h : ReflTransGen (Waits next') x p) :
    ReflTransGen (Waits next) x p := by
  induction h using ReflTransGen.head_induction_on with
  | refl => exact .refl
  | @head a b hab _ ih =>
    by_cases ha : a = p
    · rw [ha]
    · exact .head (show b ∈ next a from hsame a ha ▸ hab) ih

/-- Somebody begins to wait, and nobody he waits for leads to him. -/
theorem Acyclic.sleep (h : Acyclic next) (hsame : ∀ x, x ≠ p → next' x = next x)
    (hfar : ∀ q ∈ next' p, ¬ ReflTransGen (Waits next) q p) : Acyclic next' := by
  have hring : ¬ TransGen (Waits next') p p := by
    intro hp
    obtain ⟨q, hq, hqp⟩ := TransGen.head'_iff.mp hp
    exact hfar q hq (reaches_of_eq_of_ne hsame hqp)
  have hold : ∀ {x y}, TransGen (Waits next') x y →
      (ReflTransGen (Waits next') x p ∧ TransGen (Waits next') p y) ∨ TransGen (Waits next) x y := by
    intro x y hxy
    induction hxy with
    | @single y hstep =>
      by_cases hx : x = p
      · subst hx
        exact .inl ⟨.refl, .single hstep⟩
      · exact .inr (.single (show y ∈ next x from hsame x hx ▸ hstep))
    | @tail m y hxm hstep ih =>
      obtain ⟨hxp, hpm⟩ | ih := ih
      · exact .inl ⟨hxp, hpm.tail hstep⟩
      · by_cases hm : m = p
        · subst hm
          exact .inl ⟨hxm.to_reflTransGen, .single hstep⟩
        · exact .inr (ih.tail (show y ∈ next m from hsame m hm ▸ hstep))
  intro x hx
  obtain ⟨hxp, hpx⟩ | hx' := hold hx
  · exact hring (hpx.trans_left hxp)
  · exact h x hx'

/-- Whoever waits, waits in the end for somebody who does not. -/
theorem Acyclic.exists_free [Finite P] (h : Acyclic next) (p : P) :
    ∃ q, ReflTransGen (Waits next) p q ∧ next q = ∅ := by
  have hwf : WellFounded (Function.swap (TransGen (Waits next))) := by
    have : IsTrans P (Function.swap (TransGen (Waits next))) := ⟨fun _ _ _ hab hbc => TransGen.trans hbc hab⟩
    have : Std.Irrefl (Function.swap (TransGen (Waits next))) := ⟨h⟩
    exact Finite.wellFounded_of_trans_of_irrefl _
  induction p using hwf.induction with
  | _ p ih =>
    by_cases hp : next p = ∅
    · exact ⟨p, .refl, hp⟩
    · obtain ⟨q, hq⟩ := Finset.nonempty_iff_ne_empty.mpr hp
      obtain ⟨r, hqr, hr⟩ := ih q (.single hq)
      exact ⟨r, .head hq hqr, hr⟩

end WaitFor

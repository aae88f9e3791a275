import Mathlib.Logic.Relation

/-!
# Calls that a machine runs to their end

A machine takes one step after another, `next : σ → Option σ`; it is in the middle of a call while `busy`
holds of its state.

* `Path next busy s t`: some steps, all from busy states, lead from `s` to `t`.
* `Returns next busy res s r u`: they lead to the first state that is not busy, and `res` of the state
  before it is `r`. `Returns.unique`: there is at most one.
  `Returns.not_of_stuck`: a machine that gets stuck in a call does not return from it.
* `Path.simulate`: a machine that follows another through a map of the states takes its paths.
* `Alike allows call call' agree s t os`: two machines that get the same calls agree after each of them;
  `Alike.of_spec` gets it from a third machine that says what a call does.
-/

namespace Calls
open Relation

/-! ### One call -/

section call
variable {σ τ R : Type*} {next : σ → Option σ} {busy : σ → Prop} {res : σ → R}

/-- A step in the middle of a call. -/
def Step (next : σ → Option σ) (busy : σ → Prop) (s t : σ) : Prop := busy s ∧ next s = some t

def Path (next : σ → Option σ) (busy : σ → Prop) : σ → σ → Prop := ReflTransGen (Step next busy)

theorem Path.refl (s : σ) : Path next busy s s := ReflTransGen.refl

theorem Path.head {s t u : σ} (hbusy : busy s) (hnext : next s = some t) (h : Path next busy t u) :
    Path next busy s u :=
  ReflTransGen.head ⟨hbusy, hnext⟩ h

theorem Path.trans {s t u : σ} (h : Path next busy s t) (h' : Path next busy t u) : Path next busy s u :=
  ReflTransGen.trans h h'

theorem Path.mono {busy' : σ → Prop} (hbusy : ∀ s, busy s → busy' s) {s t : σ} (h : Path next busy s t) :
    Path next busy' s t :=
  ReflTransGen.mono (fun _ _ hstep => ⟨hbusy _ hstep.1, hstep.2⟩) s t h

/-- A machine that follows another one through `f` takes its paths. -/
theorem Path.simulate {next' : τ → Option τ} {f : τ → σ}
    (hnext : ∀ s t, busy (f s) → next (f s) = some t → ∃ s', next' s = some s' ∧ f s' = t) {s : τ} {t : σ}
    (h : Path next busy (f s) t) : ∃ t', Path next' (fun s => busy (f s)) s t' ∧ f t' = t := by
  generalize hs : f s = u at h
  induction h using ReflTransGen.head_induction_on generalizing s with
  | refl => exact ⟨s, Path.refl s, hs⟩
  | head hstep _ ih =>
    subst hs
    obtain ⟨s', hs', rfl⟩ := hnext s _ hstep.1 hstep.2
    obtain ⟨t', hpath, ht'⟩ := ih rfl
    exact ⟨t', hpath.head hstep.1 hs', ht'⟩

/-- A call that is under way in `s` returns `r` and leaves the machine in `u`. -/
def Returns (next : σ → Option σ) (busy : σ → Prop) (res : σ → R) (s : σ) (r : R) (u : σ) : Prop :=
  ∃ t, Path next busy s t ∧ Step next busy t u ∧ ¬ busy u ∧ res t = r

theorem Returns.of_path {s t u : σ} {r : R} (h : Path next busy s t) (h' : Returns next busy res t r u) :
    Returns next busy res s r u := by
  obtain ⟨v, hpath, hlast⟩ := h'
  exact ⟨v, h.trans hpath, hlast⟩

theorem Returns.last {s u : σ} (hbusy : busy s) (hnext : next s = some u) (hdone : ¬ busy u) :
    Returns next busy res s (res s) u :=
  ⟨s, Path.refl s, ⟨hbusy, hnext⟩, hdone, rfl⟩

/-- The next step is the last one, and it does not end the call. -/
theorem Returns.not_of_stuck {s t u : σ} {r : R} (hnext : next s = some t) (hbusy : busy t) (hstuck : next t = none) :
    ¬ Returns next busy res s r u := by
  rintro ⟨v, hpath, hlast, hdone, -⟩
  obtain rfl | ⟨w, hw, hrest⟩ := ReflTransGen.cases_head hpath
  · obtain rfl := Option.some.inj (hnext.symm.trans hlast.2)
    exact hdone hbusy
  · obtain rfl := Option.some.inj (hnext.symm.trans hw.2)
    obtain rfl | ⟨x, hx, -⟩ := ReflTransGen.cases_head hrest
    · exact absurd (hstuck.symm.trans hlast.2) (by simp)
    · exact absurd (hstuck.symm.trans hx.2) (by simp)

theorem Returns.unique {s u u' : σ} {r r' : R} (h : Returns next busy res s r u)
    (h' : Returns next busy res s r' u') : r = r' ∧ u = u' := by
  obtain ⟨t, hpath, hstep, hdone, rfl⟩ := h
  obtain ⟨t', hpath', hstep', hdone', rfl⟩ := h'
  induction hpath using ReflTransGen.head_induction_on with
  | refl =>
    obtain rfl | ⟨v, hv, hrest⟩ := ReflTransGen.cases_head hpath'
    · exact ⟨rfl, Option.some.inj (hstep.2.symm.trans hstep'.2)⟩
    · -- the first path ends here, the second one goes on
      obtain rfl := Option.some.inj (hstep.2.symm.trans hv.2)
      obtain rfl | ⟨w, hw, -⟩ := ReflTransGen.cases_head hrest
      · exact absurd hstep'.1 hdone
      · exact absurd hw.1 hdone
  | head hv hrest ih =>
    obtain rfl | ⟨w, hw, hrest'⟩ := ReflTransGen.cases_head hpath'
    · obtain rfl := Option.some.inj (hstep'.2.symm.trans hv.2)
      obtain rfl | ⟨w, hw, -⟩ := ReflTransGen.cases_head hrest
      · exact absurd hstep.1 hdone'
      · exact absurd hw.1 hdone'
    · obtain rfl := Option.some.inj (hv.2.symm.trans hw.2)
      exact ih hrest'

end call

/-! ### One call after the other, on two machines -/

section alike
variable {σ τ α O R : Type*} {allows : σ → O → Prop} {call : σ → O → R → σ → Prop} {call' : τ → O → R → τ → Prop}
  {agree : σ → τ → Prop}

/-- A call has one result and leaves one state. -/
def Functional (call : σ → O → R → σ → Prop) : Prop :=
  ∀ s o r r' u u', call s o r u → call s o r' u' → r = r' ∧ u = u'

/-- The two machines agree before the calls `os` and after each of them: as long as the calls are allowed,
each returns on both machines, and with the same result. -/
def Alike (allows : σ → O → Prop) (call : σ → O → R → σ → Prop) (call' : τ → O → R → τ → Prop)
    (agree : σ → τ → Prop) : σ → τ → List O → Prop
  | s, t, [] => agree s t
  | s, t, o :: os => agree s t ∧ (allows s o →
      (∃ r s', call s o r s') ∧ (∃ r t', call' t o r t') ∧
      ∀ r s' r' t', call s o r s' → call' t o r' t' → r = r' ∧ Alike allows call call' agree s' t' os)

theorem Alike.tail {s s' : σ} {t t' : τ} {o : O} {os : List O} {r r' : R}
    (h : Alike allows call call' agree s t (o :: os)) (hallows : allows s o) (hcall : call s o r s')
    (hcall' : call' t o r' t') : Alike allows call call' agree s' t' os :=
  ((h.2 hallows).2.2 r s' r' t' hcall hcall').2

/-- Two machines that both do what a third one says, `inv` being what holds of the three. -/
theorem Alike.of_spec (next : α → O → α) (result : α → O → R) (inv : α → σ → τ → Prop)
    (hcall : Functional call) (hcall' : Functional call') (hagree : ∀ a s t, inv a s t → agree s t)
    (hstep : ∀ a s t o, inv a s t → allows s o →
      ∃ s' t', call s o (result a o) s' ∧ call' t o (result a o) t' ∧ inv (next a o) s' t')
    {a : α} {s : σ} {t : τ} (h : inv a s t) (os : List O) : Alike allows call call' agree s t os := by
  induction os generalizing a s t with
  | nil => exact hagree a s t h
  | cons o os ih =>
    refine ⟨hagree a s t h, fun hallows => ?_⟩
    obtain ⟨s₁, t₁, hs₁, ht₁, hinv⟩ := hstep a s t o h hallows
    refine ⟨⟨_, s₁, hs₁⟩, ⟨_, t₁, ht₁⟩, fun r s' r' t' hs ht => ?_⟩
    obtain ⟨rfl, rfl⟩ := hcall s o _ _ _ _ hs₁ hs
    obtain ⟨rfl, rfl⟩ := hcall' t o _ _ _ _ ht₁ ht
    exact ⟨rfl, ih hinv⟩

end alike

end Calls

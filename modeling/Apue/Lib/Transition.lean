import Mathlib.Data.List.Basic
import Mathlib.Order.OrderIsoNat

/-!
# Partial transition functions and their runs

A system is a partial function `step : σ → α → Option σ`: `step s a` is the state after action `a`,
and `none` when `a` cannot happen in `s`. Everything a scheduler, a caller or a device may choose is
in the action, so a run is a list of actions.

* `run step s as`: the state after the actions `as`, if all of them can happen.
* `Reaches step s t`: some run leads from `s` to `t`.
* `invariant_run`, `Reaches.invariant`: what one step keeps, a run keeps.
* `Reaches.simulate`: when every step of one system is a step of another, or none at
  all, seen through a map of the states, then every run is a run of the other.
* `length_le_of_decreasing`: a measure that every step lowers bounds the length of a run.
* `no_endless_run`: one that lowers something well-founded keeps it from running for ever.
* `Meets step C s as`: every step of the run `as` meets the condition `C` on the state before it.
  `invariant_of_meets` and `history_of_meets` are the invariant rules for such runs, `Meets.imp` the one
  for a second condition, `meets_of_unbroken` is their converse: when a step off the condition breaks a
  property for good, only runs on the condition end in it.
-/

namespace Transition

variable {σ α : Type*}

/-- The state after the actions `as`, if every one of them can happen. -/
def run (step : σ → α → Option σ) : σ → List α → Option σ
  | s, [] => some s
  | s, a :: as => (step s a).bind fun t => run step t as

@[simp] theorem run_nil (step : σ → α → Option σ) (s : σ) : run step s [] = some s := rfl

theorem run_cons_eq_some {step : σ → α → Option σ} {s t : σ} {a : α} {as : List α} :
    run step s (a :: as) = some t ↔ ∃ u, step s a = some u ∧ run step u as = some t := by
  simp [run, Option.bind_eq_some_iff]

/-- `t` is the state after some run from `s`. -/
def Reaches (step : σ → α → Option σ) (s t : σ) : Prop := ∃ as, run step s as = some t

theorem Reaches.refl (step : σ → α → Option σ) (s : σ) : Reaches step s s := ⟨[], rfl⟩

theorem Reaches.head {step : σ → α → Option σ} {s t u : σ} {a : α} (h : step s a = some t)
    (h' : Reaches step t u) : Reaches step s u := by
  obtain ⟨as, has⟩ := h'
  exact ⟨a :: as, run_cons_eq_some.mpr ⟨t, h, has⟩⟩

theorem Reaches.trans {step : σ → α → Option σ} {s t u : σ} (h : Reaches step s t) (h' : Reaches step t u) :
    Reaches step s u := by
  obtain ⟨as, has⟩ := h
  induction as generalizing s with
  | nil => exact Option.some.inj has ▸ h'
  | cons a as ih =>
    obtain ⟨v, hv, hrest⟩ := run_cons_eq_some.mp has
    exact (ih hrest).head hv

/-! ### Invariants -/

theorem invariant_run {step : σ → α → Option σ} {I : σ → Prop}
    (hstep : ∀ s a t, I s → step s a = some t → I t) {s t : σ} {as : List α} (hs : I s)
    (hrun : run step s as = some t) : I t := by
  induction as generalizing s with
  | nil =>
    rw [run_nil, Option.some.injEq] at hrun
    exact hrun ▸ hs
  | cons a as ih =>
    obtain ⟨u, hu, hrest⟩ := run_cons_eq_some.mp hrun
    exact ih (hstep s a u hs hu) hrest

theorem Reaches.invariant {step : σ → α → Option σ} {I : σ → Prop}
    (hstep : ∀ s a t, I s → step s a = some t → I t) {s t : σ} (hs : I s)
    (h : Reaches step s t) : I t := by
  obtain ⟨as, has⟩ := h
  exact invariant_run hstep hs has

/-- When every step lowers a measure, a run is no longer than the measure of its first state. -/
theorem length_le_of_decreasing {step : σ → α → Option σ} {μ : σ → ℕ}
    (hstep : ∀ s a t, step s a = some t → μ t < μ s) {s t : σ} {as : List α}
    (hrun : run step s as = some t) : as.length ≤ μ s := by
  induction as generalizing s with
  | nil => exact Nat.zero_le _
  | cons a as ih =>
    obtain ⟨u, hu, hrest⟩ := run_cons_eq_some.mp hrun
    have hlt := hstep s a u hu
    have hle := ih hrest
    rw [List.length_cons]
    omega

/-- A system whose steps lower something well-founded does not run for ever; `I` is an invariant, and `C` a
condition on the steps. -/
theorem no_endless_run {τ : Type*} [Preorder τ] [WellFoundedLT τ] {step : σ → α → Option σ} {I : σ → Prop}
    {C : α → Prop} (μ : σ → τ)
    (hstep : ∀ s a t, I s → C a → step s a = some t → I t ∧ μ t < μ s) {s : σ} (hs : I s) :
    ¬ ∃ (states : ℕ → σ) (acts : ℕ → α), states 0 = s ∧
      ∀ n, C (acts n) ∧ step (states n) (acts n) = some (states (n + 1)) := by
  rintro ⟨states, acts, hzero, hsteps⟩
  have hinv : ∀ n, I (states n) := by
    intro n
    induction n with
    | zero => exact hzero ▸ hs
    | succ n ih => exact (hstep _ _ _ ih (hsteps n).1 (hsteps n).2).1
  exact not_strictAnti_of_wellFoundedLT (fun n => μ (states n))
    (strictAnti_nat_of_succ_lt fun n => (hstep _ _ _ (hinv n) (hsteps n).1 (hsteps n).2).2)

/-! ### Simulation -/

section simulate
variable {τ β : Type*} {step : σ → α → Option σ} {step' : τ → β → Option τ} {f : σ → τ}

/-- Every run of a system is a run of the one that its states map to, when every step is either one of
its steps or leaves the image alone. `I` is an invariant the steps may rely on. -/
theorem Reaches.simulate {I : σ → Prop} (hI : ∀ s a t, I s → step s a = some t → I t)
    (hsim : ∀ s a t, I s → step s a = some t → f t = f s ∨ ∃ b, step' (f s) b = some (f t))
    {s t : σ} (hs : I s) (h : Reaches step s t) : Reaches step' (f s) (f t) := by
  obtain ⟨as, hrun⟩ := h
  induction as generalizing s with
  | nil =>
    obtain rfl := Option.some.inj hrun
    exact Reaches.refl step' (f s)
  | cons a as ih =>
    obtain ⟨u, hu, hrest⟩ := run_cons_eq_some.mp hrun
    have hfu := ih (hI s a u hs hu) hrest
    obtain hf | ⟨b, hb⟩ := hsim s a u hs hu
    · exact hf ▸ hfu
    · exact hfu.head hb

end simulate

/-! ### Runs whose steps meet a condition -/

/-- Every step of the run `as` from `s` meets `C`, a condition on the state before the step. -/
def Meets (step : σ → α → Option σ) (C : σ → α → Prop) : σ → List α → Prop
  | _, [] => True
  | s, a :: as => C s a ∧ ∀ t, step s a = some t → Meets step C t as

theorem meets_cons_of_some {step : σ → α → Option σ} {C : σ → α → Prop} {s t : σ} {a : α}
    {as : List α} (h : step s a = some t) : Meets step C s (a :: as) ↔ C s a ∧ Meets step C t as := by
  simp only [Meets, h, Option.some.injEq, forall_eq']

theorem meets_cons_of_none {step : σ → α → Option σ} {C : σ → α → Prop} {s : σ} {a : α}
    {as : List α} (h : step s a = none) : Meets step C s (a :: as) ↔ C s a := by
  simp [Meets, h]

/-- Whether a run meets a condition that can be decided of each step. -/
instance Meets.decidable {step : σ → α → Option σ} {C : σ → α → Prop} [∀ s a, Decidable (C s a)] :
    ∀ s as, Decidable (Meets step C s as)
  | _, [] => isTrue trivial
  | s, a :: as =>
    match h : step s a with
    | none => decidable_of_iff _ (meets_cons_of_none h).symm
    | some t =>
      have : Decidable (Meets step C t as) := Meets.decidable t as
      decidable_of_iff _ (meets_cons_of_some h).symm

theorem meets_of_forall {step : σ → α → Option σ} {C : α → Prop} {as : List α} (h : ∀ a ∈ as, C a)
    (s : σ) : Meets step (fun _ a => C a) s as := by
  induction as generalizing s with
  | nil => trivial
  | cons a as ih =>
    obtain ⟨ha, has⟩ := List.forall_mem_cons.mp h
    exact ⟨ha, fun t _ => ih has t⟩

/-- A run whose invariant gives the condition meets it. -/
theorem meets_of_invariant {step : σ → α → Option σ} {C : σ → α → Prop} {I : σ → Prop}
    (hstep : ∀ s a t, I s → step s a = some t → I t) (hC : ∀ s a t, I s → step s a = some t → C s a)
    {s t : σ} {as : List α} (hs : I s) (hrun : run step s as = some t) : Meets step C s as := by
  induction as generalizing s with
  | nil => trivial
  | cons a as ih =>
    obtain ⟨u, hu, hrest⟩ := run_cons_eq_some.mp hrun
    refine ⟨hC s a u hs hu, fun v hv => ?_⟩
    obtain rfl : u = v := Option.some.inj (hu.symm.trans hv)
    exact ih (hstep s a u hs hu) hrest

/-- Where an invariant keeps going and turns one condition into another, runs on the first meet the
second. -/
theorem Meets.imp {step : σ → α → Option σ} {C D : σ → α → Prop} {I : σ → Prop}
    (hstep : ∀ s a t, I s → C s a → step s a = some t → I t)
    (himp : ∀ s a t, I s → C s a → step s a = some t → D s a) {s t : σ} {as : List α} (hs : I s)
    (hrun : run step s as = some t) (h : Meets step C s as) : Meets step D s as := by
  induction as generalizing s with
  | nil => trivial
  | cons a as ih =>
    obtain ⟨u, hu, hrest⟩ := run_cons_eq_some.mp hrun
    refine ⟨himp s a u hs h.1 hu, fun v hv => ?_⟩
    obtain rfl : u = v := Option.some.inj (hu.symm.trans hv)
    exact ih (hstep s a u hs h.1 hu) hrest (h.2 u hu)

theorem Meets.and {step : σ → α → Option σ} {C D : σ → α → Prop} {s : σ} {as : List α}
    (h : Meets step C s as) (h' : Meets step D s as) :
    Meets step (fun s a => C s a ∧ D s a) s as := by
  induction as generalizing s with
  | nil => trivial
  | cons a as ih => exact ⟨⟨h.1, h'.1⟩, fun t ht => ih (h.2 t ht) (h'.2 t ht)⟩

theorem invariant_of_meets {step : σ → α → Option σ} {C : σ → α → Prop} {I : σ → Prop}
    (hstep : ∀ s a t, I s → C s a → step s a = some t → I t) {s t : σ} {as : List α} (hs : I s)
    (hmeets : Meets step C s as) (hrun : run step s as = some t) : I t := by
  induction as generalizing s with
  | nil =>
    rw [run_nil, Option.some.injEq] at hrun
    exact hrun ▸ hs
  | cons a as ih =>
    obtain ⟨u, hu, hrest⟩ := run_cons_eq_some.mp hrun
    exact ih (hstep s a u hs hmeets.1 hu) (hmeets.2 u hu) hrest

/-- The same rule for a property that also looks at the actions so far. -/
theorem history_of_meets {step : σ → α → Option σ} {C : σ → α → Prop} {I : List α → σ → Prop}
    (hstep : ∀ past s a t, I past s → C s a → step s a = some t → I (past ++ [a]) t) {past : List α}
    {s t : σ} {as : List α} (hs : I past s) (hmeets : Meets step C s as) (hrun : run step s as = some t) :
    I (past ++ as) t := by
  induction as generalizing s past with
  | nil =>
    rw [run_nil, Option.some.injEq] at hrun
    rw [List.append_nil]
    exact hrun ▸ hs
  | cons a as ih =>
    obtain ⟨u, hu, hrest⟩ := run_cons_eq_some.mp hrun
    have hnext := ih (hstep past s a u hs hmeets.1 hu) (hmeets.2 u hu) hrest
    rwa [List.append_assoc] at hnext

/-- If a step off the condition `C` leads to a broken state, and broken states stay broken, then a
run that ends unbroken met the condition at every step. -/
theorem meets_of_unbroken {step : σ → α → Option σ} {C : σ → α → Prop} {I Broken : σ → Prop}
    (hstep : ∀ s a t, I s → C s a → step s a = some t → I t)
    (hbreak : ∀ s a t, I s → ¬ C s a → step s a = some t → Broken t)
    (hstay : ∀ s a t, Broken s → step s a = some t → Broken t)
    {s t : σ} {as : List α} (hs : I s) (hrun : run step s as = some t) (ht : ¬ Broken t) :
    Meets step C s as := by
  induction as generalizing s with
  | nil => trivial
  | cons a as ih =>
    obtain ⟨u, hu, hrest⟩ := run_cons_eq_some.mp hrun
    by_cases hC : C s a
    · refine ⟨hC, fun v hv => ?_⟩
      obtain rfl : u = v := Option.some.inj (hu.symm.trans hv)
      exact ih (hstep s a u hs hC hu) hrest
    · exact absurd (invariant_run hstay (hbreak s a u hs hC hu) hrest) ht

end Transition

import Apue.Lib.Transition

/-!
# Waiting for something to come

A system waits for something that comes from outside, and passes when it has come. `Awaits` says what is wanted of
it in every run: it does not pass too early, it does not miss what has come, and it does not run for ever without
help. The steps that it makes by itself are `Quiet`.

* `Awaits.of_invariant`: an invariant and a measure that every quiet step lowers are enough.
* `Awaits.ends_run`: once it has come, quiet steps lead to an end from every state.
-/

namespace Transition

variable {σ α τ : Type*}

structure Awaits (step : σ → α → Option σ) (Quiet : α → Prop) (Came Passed Ended : σ → Prop) (s : σ) : Prop where
  passed : ∀ t, Reaches step s t → Passed t → Came t
  stays : ∀ t a u, Reaches step s t → Came t → step t a = some u → Came u
  goes : ∀ t, Reaches step s t → Came t → Ended t ∨ ∃ a u, Quiet a ∧ step t a = some u
  ends : ∀ t, Reaches step s t → ¬ ∃ (states : ℕ → σ) (acts : ℕ → α), states 0 = t ∧
    ∀ n, Quiet (acts n) ∧ step (states n) (acts n) = some (states (n + 1))

namespace Awaits
variable {step : σ → α → Option σ} {Quiet : α → Prop} {Came Passed Ended I : σ → Prop} {s t : σ}

theorem of_invariant [Preorder τ] [WellFoundedLT τ] (μ : σ → τ)
    (hI : ∀ s a t, I s → step s a = some t → I t)
    (hpassed : ∀ s, I s → Passed s → Came s)
    (hstays : ∀ s a t, I s → Came s → step s a = some t → Came t)
    (hgoes : ∀ s, I s → Came s → Ended s ∨ ∃ a t, Quiet a ∧ step s a = some t)
    (hdec : ∀ s a t, I s → Quiet a → step s a = some t → μ t < μ s) (hs : I s) : Awaits step Quiet Came Passed Ended s where
  passed t h := hpassed t (h.invariant hI hs)
  stays t a u h := hstays t a u (h.invariant hI hs)
  goes t h := hgoes t (h.invariant hI hs)
  ends _ h := no_endless_run μ (fun s a t hinv hq hstep => ⟨hI s a t hinv hstep, hdec s a t hinv hq hstep⟩)
    (h.invariant hI hs)

/-- No run of quiet steps from `t` comes to an end. -/
def Stuck (step : σ → α → Option σ) (Quiet : α → Prop) (Ended : σ → Prop) (t : σ) : Prop :=
  ∀ as u, (∀ a ∈ as, Quiet a) → run step t as = some u → ¬ Ended u

/-- Otherwise the quiet steps would go on for ever. -/
theorem ends_run (h : Awaits step Quiet Came Passed Ended s) (ht : Reaches step s t) (hcame : Came t) :
    ∃ as u, (∀ a ∈ as, Quiet a) ∧ run step t as = some u ∧ Ended u := by
  by_contra hnone
  have hstuck : Stuck step Quiet Ended t := fun as u hq hrun hend => hnone ⟨as, u, hq, hrun, hend⟩
  have hnext : ∀ u : {u // Reaches step s u ∧ Came u ∧ Stuck step Quiet Ended u},
      ∃ (a : α) (v : {v // Reaches step s v ∧ Came v ∧ Stuck step Quiet Ended v}),
        Quiet a ∧ step u a = some v.1 := by
    rintro ⟨u, hreach, hcame, hfar⟩
    obtain hend | ⟨a, v, hq, hstep⟩ := h.goes u hreach hcame
    · exact absurd hend (hfar [] u (by simp) rfl)
    · refine ⟨a, ⟨v, hreach.trans (Reaches.head hstep (Reaches.refl step v)), h.stays u a v hreach hcame hstep, ?_⟩,
        hq, hstep⟩
      intro as w hqs hrun
      exact hfar (a :: as) w (List.forall_mem_cons.mpr ⟨hq, hqs⟩) (run_cons_eq_some.mpr ⟨v, hstep, hrun⟩)
  choose act next hquiet hstep using hnext
  refine h.ends t ht ⟨fun n => (next^[n] ⟨t, ht, hcame, hstuck⟩).1, fun n => act (next^[n] ⟨t, ht, hcame, hstuck⟩),
    rfl, fun n => ⟨hquiet _, ?_⟩⟩
  simp only [Function.iterate_succ_apply']
  exact hstep _

end Awaits

end Transition

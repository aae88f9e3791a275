import Mathlib.Data.Finset.Basic

/-!
# Signals of a process

What `sigaction` and `sigprocmask` change, and what happens to a signal: signals are numbers, the caught
ones have a handler in `H`.

* `sigaction`, `block`, `setMask`: the calls.
* `raise sig`: a signal comes. It is pending until it is delivered, unless it is ignored.
* `Deliverable sig`: pending, not blocked and caught; `deliver sig` takes it away and leaves everything else
  alone, as a handler that returns does.
-/

namespace Signals

inductive Handler (H : Type*) where
  | dfl
  | ign
  | fn (h : H)
  deriving DecidableEq

structure Sigaction (H : Type*) where
  handler : Handler H
  mask : Finset ℕ
  flags : ℕ
  deriving DecidableEq

structure Process (H : Type*) where
  disp : ℕ → Sigaction H
  mask : Finset ℕ
  pending : Finset ℕ

namespace Process
variable {H : Type*}

/-- A pending signal that is now ignored is gone. -/
def sigaction (p : Process H) (sig : ℕ) (act : Sigaction H) : Process H where
  disp := Function.update p.disp sig act
  mask := p.mask
  pending := match act.handler with
    | .ign => p.pending.erase sig
    | _ => p.pending

/-- A child has no pending signals. -/
def fork (p : Process H) : Process H := { p with pending := ∅ }

/-- `SIG_BLOCK`. -/
def block (p : Process H) (set : Finset ℕ) : Process H := { p with mask := p.mask ∪ set }

/-- `SIG_SETMASK`. -/
def setMask (p : Process H) (set : Finset ℕ) : Process H := { p with mask := set }

def raise (p : Process H) (sig : ℕ) : Process H :=
  match (p.disp sig).handler with
  | .ign => p
  | _ => { p with pending := insert sig p.pending }

def Caught (p : Process H) (sig : ℕ) : Prop := ∃ h, (p.disp sig).handler = .fn h

def Deliverable (p : Process H) (sig : ℕ) : Prop := sig ∈ p.pending ∧ sig ∉ p.mask ∧ p.Caught sig

def deliver (p : Process H) (sig : ℕ) : Process H := { p with pending := p.pending.erase sig }

instance (p : Process H) (sig : ℕ) : Decidable (p.Caught sig) :=
  match h : (p.disp sig).handler with
  | .fn f => isTrue ⟨f, h⟩
  | .dfl => isFalse (by rintro ⟨f, hf⟩; rw [h] at hf; cases hf)
  | .ign => isFalse (by rintro ⟨f, hf⟩; rw [h] at hf; cases hf)

instance (p : Process H) (sig : ℕ) : Decidable (p.Deliverable sig) := inferInstanceAs (Decidable (_ ∧ _ ∧ _))

/-! ### What changes -/

section fields
variable (p : Process H) {sig sig' : ℕ} {act : Sigaction H} {set : Finset ℕ}

@[simp] theorem disp_sigaction_self : (p.sigaction sig act).disp sig = act := Function.update_self ..

theorem disp_sigaction_of_ne (h : sig' ≠ sig) : (p.sigaction sig act).disp sig' = p.disp sig' :=
  Function.update_of_ne h ..

@[simp] theorem mask_sigaction : (p.sigaction sig act).mask = p.mask := rfl

@[simp] theorem disp_fork : p.fork.disp = p.disp := rfl

@[simp] theorem disp_block : (p.block set).disp = p.disp := rfl

@[simp] theorem disp_setMask : (p.setMask set).disp = p.disp := rfl

@[simp] theorem mask_block : (p.block set).mask = p.mask ∪ set := rfl

@[simp] theorem pending_block : (p.block set).pending = p.pending := rfl

@[simp] theorem mask_setMask : (p.setMask set).mask = set := rfl

@[simp] theorem pending_setMask : (p.setMask set).pending = p.pending := rfl

@[simp] theorem disp_deliver : (p.deliver sig).disp = p.disp := rfl

@[simp] theorem mask_deliver : (p.deliver sig).mask = p.mask := rfl

@[simp] theorem disp_raise : (p.raise sig).disp = p.disp := by
  unfold raise
  split <;> rfl

@[simp] theorem mask_raise : (p.raise sig).mask = p.mask := by
  unfold raise
  split <;> rfl

theorem pending_raise (h : sig ∈ p.pending) : sig ∈ (p.raise sig').pending := by
  unfold raise
  split
  · exact h
  · exact Finset.mem_insert_of_mem h

theorem mem_pending_raise :
    sig ∈ (p.raise sig').pending ↔ sig ∈ p.pending ∨ (sig = sig' ∧ (p.disp sig').handler ≠ .ign) := by
  unfold raise
  split
  · rename_i hign
    simp [hign]
  · rename_i hign
    simp only [Finset.mem_insert, ne_eq]
    exact ⟨Or.rec (fun heq => .inr ⟨heq, hign⟩) .inl, Or.rec .inr fun h => .inl h.1⟩

/-- A signal with a handler stays until it is delivered. -/
theorem Caught.pending_raise {p : Process H} (h : p.Caught sig) : sig ∈ (p.raise sig).pending := by
  obtain ⟨f, hf⟩ := h
  unfold raise
  rw [hf]
  exact Finset.mem_insert_self sig _

theorem pending_deliver (h : sig ∈ p.pending) (hne : sig ≠ sig') : sig ∈ (p.deliver sig').pending :=
  Finset.mem_erase.2 ⟨hne, h⟩

end fields

end Process

end Signals

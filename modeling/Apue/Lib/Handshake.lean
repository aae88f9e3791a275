import Apue.Lib.Transition
import Mathlib.Logic.Function.Basic

/-!
# Counting handshakes

What a handshake between parties is for: each party tells its peer that it is ready, any number of
times, and waits for the peer to tell it so. A wait takes one tell, so the tells and the completed
waits of a party's peer are the ups and downs of a counting semaphore.

* `Counts.step`: a tell is always possible, a wait returns only while there is a tell it can take.
* `Counts.Balanced`, `Counts.balanced_of_reaches`: no party has completed more waits than it was told.
* `Counts.Woken`: nobody is asleep who was told more often than it has completed waits.
-/

namespace Handshake
open Transition

variable {P : Type*}

/-- How often each party told its peer, and how many of its waits returned. -/
structure Counts (P : Type*) where
  tells : P → ℕ
  waits : P → ℕ

inductive Event (P : Type*) where
  | tell (p : P)
  | wait (p : P)

namespace Counts

def zero : Counts P := ⟨fun _ => 0, fun _ => 0⟩

/-- Every wait that returned took a tell. -/
def Balanced (peer : P → P) (c : Counts P) : Prop := ∀ p, c.waits p ≤ c.tells (peer p)

/-- A party that sleeps has taken all the tells of its peer. -/
def Woken (peer : P → P) (c : Counts P) (Asleep : P → Prop) : Prop :=
  ∀ p, Asleep p → c.tells (peer p) ≤ c.waits p

variable [DecidableEq P]

def tell (c : Counts P) (p : P) : Counts P :=
  { c with tells := Function.update c.tells p (c.tells p + 1) }

def wait (c : Counts P) (p : P) : Counts P :=
  { c with waits := Function.update c.waits p (c.waits p + 1) }

@[simp] theorem tell_tells_self (c : Counts P) (p : P) : (c.tell p).tells p = c.tells p + 1 :=
  Function.update_self ..

theorem tell_tells_of_ne (c : Counts P) {p q : P} (h : q ≠ p) : (c.tell p).tells q = c.tells q :=
  Function.update_of_ne h ..

@[simp] theorem tell_waits (c : Counts P) (p q : P) : (c.tell p).waits q = c.waits q := rfl

@[simp] theorem wait_waits_self (c : Counts P) (p : P) : (c.wait p).waits p = c.waits p + 1 :=
  Function.update_self ..

theorem wait_waits_of_ne (c : Counts P) {p q : P} (h : q ≠ p) : (c.wait p).waits q = c.waits q :=
  Function.update_of_ne h ..

@[simp] theorem wait_tells (c : Counts P) (p q : P) : (c.wait p).tells q = c.tells q := rfl

/-- A wait returns only while a tell is left for it. -/
def step (peer : P → P) (c : Counts P) : Event P → Option (Counts P)
  | .tell p => some (c.tell p)
  | .wait p => if c.waits p < c.tells (peer p) then some (c.wait p) else none

theorem step_balanced (peer : P → P) (c : Counts P) (e : Event P) (c' : Counts P)
    (h : c.Balanced peer) (hs : c.step peer e = some c') : c'.Balanced peer := by
  intro q
  have hq := h q
  cases e with
  | tell p =>
    obtain rfl := Option.some.inj hs
    by_cases hp : peer q = p
    · rw [hp] at hq
      rw [hp, tell_tells_self, tell_waits]
      omega
    · rwa [tell_tells_of_ne c hp]
  | wait p =>
    obtain ⟨hlt, hs⟩ := Option.ite_none_right_eq_some.mp hs
    obtain rfl := Option.some.inj hs
    by_cases hp : q = p
    · subst hp
      rw [wait_waits_self, wait_tells]
      omega
    · rwa [wait_waits_of_ne c hp]

theorem balanced_of_reaches {peer : P → P} {c : Counts P} (h : Reaches (step peer) zero c) :
    c.Balanced peer :=
  h.invariant (step_balanced peer) fun _ => Nat.zero_le _

end Counts

end Handshake

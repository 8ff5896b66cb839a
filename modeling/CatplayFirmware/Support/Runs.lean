import Mathlib.Logic.Function.Iterate
import Mathlib.Logic.Relation

/-!
# Runs

A system takes steps `step : σ → ε → σ` under events, and a run is a sequence of steps under events
that are allowed in the states they occur in. What every allowed step preserves holds after every
run.
-/

namespace Runs

variable {σ ε : Type*}

/-- There is a run from the first state to the second. -/
def Reaches (step : σ → ε → σ) (allowed : σ → ε → Prop) : σ → σ → Prop :=
  Relation.ReflTransGen fun s s' => ∃ e, allowed s e ∧ s' = step s e

variable {step : σ → ε → σ} {allowed : σ → ε → Prop}

theorem Reaches.refl (s : σ) : Reaches step allowed s s := Relation.ReflTransGen.refl

theorem Reaches.tail {s s' : σ} {e : ε} (h : Reaches step allowed s s') (he : allowed s' e) :
  Reaches step allowed s (step s' e)
  := Relation.ReflTransGen.tail h ⟨e, he, rfl⟩

/-- What every allowed step preserves holds after every run. -/
theorem Reaches.invariant {P : σ → Prop} (hstep : ∀ s e, P s → allowed s e → P (step s e))
    {s s' : σ} (h : Reaches step allowed s s') (hs : P s) :
  P s'
  := by
  induction h with
  | refl => exact hs
  | tail _ hlast ih =>
      obtain ⟨e, he, rfl⟩ := hlast
      apply hstep _ e ih he

/-- An event that is allowed again and again is the only one of a run. -/
theorem reaches_iterate {P : σ → Prop} {e : ε}
    (hstep : ∀ s, P s → allowed s e ∧ P (step s e)) {s : σ} (hs : P s) (n : ℕ) :
  Reaches step allowed s ((fun s => step s e)^[n] s) ∧ P ((fun s => step s e)^[n] s)
  := by
  induction n with
  | zero => exact ⟨.refl s, hs⟩
  | succ n ih =>
      rw [Function.iterate_succ_apply']
      obtain ⟨hrun, hlast⟩ := ih
      obtain ⟨hallowed, hnext⟩ := hstep _ hlast
      exact ⟨hrun.tail hallowed, hnext⟩

/-- Every event is allowed in the state it occurs in. -/
def AllAllowed (step : σ → ε → σ) (allowed : σ → ε → Prop) : σ → List ε → Prop
  | _, [] => True
  | s, e :: events => allowed s e ∧ AllAllowed step allowed (step s e) events

/-- Events that are all allowed are a run. -/
theorem reaches_foldl {s₀ s : σ} {events : List ε} (h : Reaches step allowed s₀ s)
    (hevents : AllAllowed step allowed s events) :
  Reaches step allowed s₀ (events.foldl step s)
  := by
  induction events generalizing s with
  | nil => exact h
  | cons e events ih => apply ih (h.tail hevents.1) hevents.2

theorem allAllowed_append {s : σ} {events later : List ε} :
  AllAllowed step allowed s (events ++ later) ↔
    AllAllowed step allowed s events ∧ AllAllowed step allowed (events.foldl step s) later
  := by
  induction events generalizing s with
  | nil => simp [AllAllowed]
  | cons e events ih => simp [AllAllowed, ih, and_assoc]

/-- What every step preserves holds after any events. -/
theorem invariant_foldl {P : σ → Prop} (hstep : ∀ s e, P s → P (step s e)) {s : σ} (hs : P s)
    (events : List ε) :
  P (events.foldl step s)
  := by
  induction events generalizing s with
  | nil => exact hs
  | cons e events ih => apply ih (hstep s e hs)

end Runs

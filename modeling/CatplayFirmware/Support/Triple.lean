import Mathlib.Tactic.Basic
import Mathlib.Tactic.Common

/-!
# Calls with a state and errors

`Triple P x Q E` says of a call `x : EStateM ε σ α` that from every state with `P` it comes to a
value in a state with `Q`, or to an error in a state with `E`. There is one rule for each way of
putting calls together, and one for a loop over a list.
-/

universe u

variable {ε σ α β : Type u}

/-- From a state with `P` the call comes to a value with `Q` or to an error with `E`. -/
def Triple (P : σ → Prop) (x : EStateM ε σ α) (Q : α → σ → Prop) (E : ε → σ → Prop) : Prop :=
  ∀ s, P s → match x s with
    | .ok a s' => Q a s'
    | .error e s' => E e s'

variable {P : σ → Prop} {Q : α → σ → Prop} {R : β → σ → Prop} {E : ε → σ → Prop}

/-- A call that only gives a value leaves the state as it is. -/
theorem triple_pure {a : α} (h : ∀ s, P s → Q a s) : Triple P (pure a : EStateM ε σ α) Q E := h

/-- A call that only fails leaves the state as it is. -/
theorem triple_throw {e : ε} (h : ∀ s, P s → E e s) : Triple P (throw e : EStateM ε σ α) Q E := h

/-- A change of the state. -/
theorem triple_modify {f : σ → σ} {Q : PUnit → σ → Prop} (h : ∀ s, P s → Q ⟨⟩ (f s)) :
  Triple P (modify f : EStateM ε σ PUnit) Q E
  := h

/-- A look at the state. What is seen is the state itself. -/
theorem triple_get {Q : σ → σ → Prop} (h : ∀ s, P s → Q s s) :
  Triple P (get : EStateM ε σ σ) Q E
  := h

/-- Two calls one after the other: what the first comes to is what the second starts from, and an
error of the first is an error of both. -/
theorem triple_bind {x : EStateM ε σ α} {f : α → EStateM ε σ β} (hx : Triple P x Q E)
    (hf : ∀ a, Triple (Q a) (f a) R E) :
  Triple P (x >>= f) R E
  := by
  intro s hs
  have h := hx s hs
  change match EStateM.bind x f s with
    | .ok a s' => R a s'
    | .error e s' => E e s'
  rw [EStateM.bind]
  cases hrun : x s with
  | ok a s' =>
      rw [hrun] at h
      exact hf a s' h
  | error e s' =>
      rw [hrun] at h
      exact h

/-- What is asked for before a call may be more, and what is promised after it less. -/
theorem Triple.mono {P' : σ → Prop} {Q' : α → σ → Prop} {E' : ε → σ → Prop} {x : EStateM ε σ α}
    (h : Triple P x Q E) (hP : ∀ s, P' s → P s) (hQ : ∀ a s, Q a s → Q' a s)
    (hE : ∀ e s, E e s → E' e s) :
  Triple P' x Q' E'
  := by
  intro s hs
  have hx := h s (hP s hs)
  cases hrun : x s with
  | ok a s' =>
      rw [hrun] at hx
      exact hQ a s' hx
  | error e s' =>
      rw [hrun] at hx
      exact hE e s' hx

/-- A call that depends on a test may use what the test says. -/
theorem triple_ite {c : Prop} [Decidable c] {x y : EStateM ε σ α} (hx : c → Triple P x Q E)
    (hy : ¬ c → Triple P y Q E) :
  Triple P (if c then x else y) Q E
  := by
  split
  · next h => exact hx h
  · next h => exact hy h

/-- What holds whatever the state is may be used. -/
theorem triple_of_pure {p : Prop} {x : EStateM ε σ α} (h : p → Triple P x Q E) :
  Triple (fun s => p ∧ P s) x Q E
  := by
  rintro s ⟨hp, hs⟩
  exact h hp s hs

/-- An error that is caught. -/
theorem triple_tryCatch {x : EStateM ε σ α} {handler : ε → EStateM ε σ α} {E' : ε → σ → Prop}
    (hx : Triple P x Q E') (hhandler : ∀ e, Triple (E' e) (handler e) Q E) :
  Triple P (tryCatch x handler) Q E
  := by
  intro s hs
  have h := hx s hs
  change match EStateM.tryCatch x handler s with
    | .ok a s' => Q a s'
    | .error e s' => E e s'
  rw [EStateM.tryCatch]
  cases hrun : x s with
  | ok a s' =>
      rw [hrun] at h
      exact h
  | error e s' =>
      rw [hrun] at h
      exact hhandler e s' h

/-- A run that ends with an error. -/
theorem Triple.run_error {x : EStateM ε σ α} (h : Triple P x Q E) {s s' : σ} {e : ε} (hs : P s)
    (hrun : x s = .error e s') :
  E e s'
  := by
  have hx := h s hs
  rwa [hrun] at hx

/-- A run that ends with a value. -/
theorem Triple.run_ok {x : EStateM ε σ α} (h : Triple P x Q E) {s s' : σ} {a : α} (hs : P s)
    (hrun : x s = .ok a s') :
  Q a s'
  := by
  have hx := h s hs
  rwa [hrun] at hx

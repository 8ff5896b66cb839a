import Mathlib.Tactic.Common

/-!
# Computations that can fail

Laws of `Except ε` that take a computation apart into its steps.
-/

namespace Except

universe u v

variable {ε : Type u} {α β : Type v}

/-- A sequence of two computations succeeds when both do. -/
theorem bind_eq_ok_iff {x : Except ε α} {f : α → Except ε β} {b : β} :
  (x >>= f) = .ok b ↔ ∃ a, x = .ok a ∧ f a = .ok b
  := by
  cases x with
  | error e => simp [bind, Except.bind]
  | ok a => simp [bind, Except.bind]

/-- A sequence of two computations fails when the first fails, or the second after it. -/
theorem bind_eq_error_iff {x : Except ε α} {f : α → Except ε β} {e : ε} :
  (x >>= f) = .error e ↔ x = .error e ∨ ∃ a, x = .ok a ∧ f a = .error e
  := by
  cases x with
  | error e => simp [bind, Except.bind]
  | ok a => simp [bind, Except.bind]

/-- A computation followed by a function succeeds when it does. -/
theorem map_eq_ok_iff {x : Except ε α} {f : α → β} {b : β} :
  x.map f = .ok b ↔ ∃ a, x = .ok a ∧ f a = b
  := by
  cases x with
  | error e => simp [Except.map]
  | ok a => simp [Except.map]

@[simp] theorem ok_bind (a : α) (f : α → Except ε β) : ((.ok a : Except ε α) >>= f) = f a := rfl

@[simp] theorem error_bind (e : ε) (f : α → Except ε β) :
  ((.error e : Except ε α) >>= f) = .error e
  := rfl

theorem mapError_eq_ok_iff {ε' : Type u} {x : Except ε α} {f : ε → ε'} {a : α} :
  x.mapError f = .ok a ↔ x = .ok a
  := by
  cases x with
  | error e => simp [Except.mapError]
  | ok a => simp [Except.mapError]

/-- A loop of checks passes when every check does. -/
theorem forM_eq_ok_iff {xs : List α} {f : α → Except ε PUnit} :
  xs.forM f = .ok ⟨⟩ ↔ ∀ a ∈ xs, f a = .ok ⟨⟩
  := by
  induction xs with
  | nil => simp [pure, Except.pure]
  | cons a xs ih =>
      change (f a >>= fun _ => xs.forM f) = .ok ⟨⟩ ↔ _
      rw [bind_eq_ok_iff, List.forall_mem_cons, ← ih]
      constructor
      · rintro ⟨⟨⟩, ha, hxs⟩
        exact ⟨ha, hxs⟩
      · rintro ⟨ha, hxs⟩
        exact ⟨⟨⟩, ha, hxs⟩

end Except

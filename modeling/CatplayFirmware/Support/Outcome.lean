import CatplayFirmware.Support.Except
import CatplayFirmware.Support.Loop

/-!
# Outcomes of a call

A call either returns a value or ends without one: it returns an error to its caller, it
panics, or it never comes back.
-/

universe u v

/-- The ways in which a call ends without a value, with errors of type `ε`. -/
inductive Fault (ε : Type u) where
  | error (e : ε)
  | panic
  | diverges
  deriving DecidableEq

/-- What a call with errors of type `ε` and values of type `α` comes to. -/
abbrev Outcome (ε : Type u) (α : Type v) := Except (Fault ε) α

namespace Outcome

variable {ε : Type u} {α : Type v}

/-- The call returns the error `e`. -/
def fail (e : ε) : Outcome ε α := .error (.error e)

/-- The call panics. -/
def panics : Outcome ε α := .error .panic

/-- The call never comes back. -/
def diverges : Outcome ε α := .error .diverges

@[simp] theorem fail_ne_ok {e : ε} {a : α} : (fail e : Outcome ε α) ≠ .ok a := nofun

@[simp] theorem panics_ne_ok {a : α} : (panics : Outcome ε α) ≠ .ok a := nofun

@[simp] theorem diverges_ne_ok {a : α} : (diverges : Outcome ε α) ≠ .ok a := nofun

/-- The call with its errors wrapped in others. -/
def mapError {ε' : Type u} (f : ε → ε') : Outcome ε α → Outcome ε' α
  | .ok a => .ok a
  | .error (.error e) => .error (.error (f e))
  | .error .panic => .error .panic
  | .error .diverges => .error .diverges

/-- Another error is still an error. -/
theorem mapError_eq_ok_iff {ε' : Type u} {f : ε → ε'} {x : Outcome ε α} {a : α} :
  x.mapError f = .ok a ↔ x = .ok a
  := by
  cases x with
  | ok b => simp [mapError]
  | error fault => cases fault <;> simp [mapError]

/-- Whatever the call returns has the property `P`. -/
def Post (x : Outcome ε α) (P : α → Prop) : Prop := ∀ a, x = .ok a → P a

/-- The call comes to a value or to an error: it neither panics nor goes on forever. -/
def Settles (x : Outcome ε α) : Prop := ∀ fault, x = .error fault → ∃ e, fault = .error e

/-- A value is an end. -/
theorem settles_ok (a : α) : Settles (.ok a : Outcome ε α) := nofun

/-- A reported error is an end too. -/
theorem settles_fail (e : ε) : Settles (fail e : Outcome ε α) := by
  intro fault h
  cases h
  exact ⟨e, rfl⟩

/-- Two calls settle when the first does, and so does the second for the value of the first. -/
theorem Settles.bind {β : Type v} {x : Outcome ε α} {f : α → Outcome ε β} (hx : x.Settles)
    (hf : ∀ a, x = .ok a → (f a).Settles) :
  Settles (x >>= f)
  := by
  intro fault h
  rcases Except.bind_eq_error_iff.mp h with h | ⟨a, ha, h⟩
  · apply hx fault h
  · apply hf a ha fault h

/-- What does not settle cannot be caught by a call behind it. -/
theorem Settles.of_bind {β : Type v} {x : Outcome ε α} {f : α → Outcome ε β}
    (h : Settles (x >>= f)) :
  x.Settles
  := by
  intro fault hx
  apply h fault
  rw [hx]
  rfl

/-- A panic is no end. -/
theorem not_settles_panics : ¬ Settles (panics : Outcome ε α) := by
  intro h
  obtain ⟨e, he⟩ := h .panic rfl
  cases he

/-- Neither is a call that goes on for ever. -/
theorem not_settles_diverges : ¬ Settles (diverges : Outcome ε α) := by
  intro h
  obtain ⟨e, he⟩ := h .diverges rfl
  cases he

end Outcome

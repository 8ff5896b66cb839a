import CatplayFirmware.Support.Except

/-!
# Calls that leave a trace

A call does some actions one after the other and then comes to a value or to an error. What it
has done before an error stays in its trace.
-/

universe u

/-- A call with actions of type `ι`, errors of type `ε` and values of type `α`. -/
structure Traced (ι ε α : Type u) where
  trace : List ι
  result : Except ε α

namespace Traced

variable {ι ε α β : Type u}

instance : Monad (Traced ι ε) where
  pure a := ⟨[], .ok a⟩
  bind x f :=
    match x.result with
    | .error e => ⟨x.trace, .error e⟩
    | .ok a => ⟨x.trace ++ (f a).trace, (f a).result⟩

/-- The call that does the action `i`. -/
def act (i : ι) : Traced ι ε PUnit := ⟨[i], .ok ⟨⟩⟩

/-- The call that comes to the error `e`. -/
def fail (e : ε) : Traced ι ε α := ⟨[], .error e⟩

@[simp] theorem result_pure (a : α) : (pure a : Traced ι ε α).result = .ok a := rfl

@[simp] theorem result_act (i : ι) : (act i : Traced ι ε PUnit).result = .ok ⟨⟩ := rfl

@[simp] theorem trace_pure (a : α) : (pure a : Traced ι ε α).trace = [] := rfl

/-- The result of two calls is that of the second, unless the first fails. -/
theorem result_bind (x : Traced ι ε α) (f : α → Traced ι ε β) :
  (x >>= f).result = x.result >>= fun a => (f a).result
  := by
  obtain ⟨trace, result⟩ := x
  cases result with
  | error e => rfl
  | ok a => rfl

/-- What the second call does stands behind what the first has done. -/
theorem bind_of_ok {x : Traced ι ε α} {a : α} (h : x.result = .ok a) (f : α → Traced ι ε β) :
  x >>= f = ⟨x.trace ++ (f a).trace, (f a).result⟩
  := by
  obtain ⟨trace, result⟩ := x
  subst h
  rfl

/-- Nothing is done behind an error. -/
theorem bind_of_error {x : Traced ι ε α} {e : ε} (h : x.result = .error e)
    (f : α → Traced ι ε β) :
  x >>= f = ⟨x.trace, .error e⟩
  := by
  obtain ⟨trace, result⟩ := x
  subst h
  rfl

/-- Two calls come to a value when both do, and leave the two traces. -/
theorem bind_eq_ok {x : Traced ι ε α} {f : α → Traced ι ε β} {b : β}
    (h : (x >>= f).result = .ok b) :
  ∃ a, x.result = .ok a ∧ (f a).result = .ok b ∧ (x >>= f).trace = x.trace ++ (f a).trace
  := by
  cases hx : x.result with
  | error e =>
      rw [bind_of_error hx] at h
      cases h
  | ok a =>
      rw [bind_of_ok hx] at h ⊢
      exact ⟨a, rfl, h, rfl⟩

/-- How calls are grouped changes neither what is done nor what they come to. -/
theorem bind_assoc (x : Traced ι ε α) (f : α → Traced ι ε β) {γ : Type u}
    (g : β → Traced ι ε γ) :
  x >>= f >>= g = x >>= fun a => f a >>= g
  := by
  cases h : x.result with
  | error e =>
      rw [bind_of_error h, bind_of_error h]
      rfl
  | ok a =>
      rw [bind_of_ok h, bind_of_ok h]
      cases hf : (f a).result with
      | error e => rw [bind_of_error hf, bind_of_error rfl]
      | ok b => rw [bind_of_ok hf, bind_of_ok rfl, List.append_assoc]

@[simp] theorem pure_bind (a : α) (f : α → Traced ι ε β) : (pure a >>= f) = f a := rfl

/-- Every action of the call has the property `P`. -/
def All (P : ι → Prop) (x : Traced ι ε α) : Prop := ∀ i ∈ x.trace, P i

/-- Two calls keep a property if the first does, and the second does for every value that the first
comes to. -/
theorem all_bind_iff {P : ι → Prop} {x : Traced ι ε α} {f : α → Traced ι ε β} :
  All P (x >>= f) ↔ All P x ∧ ∀ a, x.result = .ok a → All P (f a)
  := by
  cases h : x.result with
  | error e =>
      rw [bind_of_error h]
      constructor
      · intro hx
        exact ⟨hx, nofun⟩
      · rintro ⟨hx, -⟩
        exact hx
  | ok a =>
      rw [bind_of_ok h, All, List.forall_mem_append]
      constructor
      · rintro ⟨hx, hf⟩
        use hx
        rintro a ⟨⟩
        exact hf
      · rintro ⟨hx, hf⟩
        exact ⟨hx, hf a rfl⟩

/-- One action. -/
theorem all_act_iff {P : ι → Prop} {i : ι} : All P (act i : Traced ι ε PUnit) ↔ P i :=
  List.forall_mem_singleton

theorem all_fail (P : ι → Prop) (e : ε) : All P (fail e : Traced ι ε α) := nofun

theorem all_pure (P : ι → Prop) (a : α) : All P (pure a : Traced ι ε α) := nofun

end Traced

import Mathlib.Data.List.Induction
import Mathlib.Tactic.Common

/-!
# Brackets

A list of tokens, some of which open or close a bracket of some kind. The stack of a list are its
brackets that are open at its end, the innermost first, each with the tokens that stand before it;
there is none when a token closes a bracket that is not the innermost open one.
-/

namespace Brackets

/-- What a token does. -/
inductive Side (κ : Type*) where
  | opening (kind : κ)
  | closing (kind : κ)
  | plain
  deriving DecidableEq

/-- An open bracket. -/
structure Frame (τ κ : Type*) where
  before : List τ
  kind : κ
  deriving DecidableEq

section Definitions

variable {τ κ : Type*} (side : τ → Side κ)

/-- The stack behind one more token. -/
def push [DecidableEq κ] (before : List τ) (stack : List (Frame τ κ)) (t : τ) :
    Option (List (Frame τ κ)) :=
  match side t with
  | .opening kind => some (⟨before, kind⟩ :: stack)
  | .closing kind =>
    match stack with
    | frame :: stack => if frame.kind = kind then some stack else none
    | [] => none
  | .plain => some stack

def stackFrom [DecidableEq κ] : List τ → List (Frame τ κ) → List τ → Option (List (Frame τ κ))
  | _, stack, [] => some stack
  | before, stack, t :: ts =>
    (push side before stack t).bind fun stack => stackFrom (before ++ [t]) stack ts

/-- The brackets that are open at the end of a list. -/
def stack [DecidableEq κ] (ts : List τ) : Option (List (Frame τ κ)) := stackFrom side [] [] ts

/-- The brackets that are opened in a list that stands behind another. -/
def openersFrom : List τ → List τ → List (Frame τ κ)
  | _, [] => []
  | before, t :: ts =>
    match side t with
    | .opening kind => ⟨before, kind⟩ :: openersFrom (before ++ [t]) ts
    | _ => openersFrom (before ++ [t]) ts

/-- The brackets that are opened in a list. -/
def openers (ts : List τ) : List (Frame τ κ) := openersFrom side [] ts

/-- Every bracket is closed. -/
inductive Balanced : List τ → Prop where
  | nil : Balanced []
  | plain {t : τ} {ts : List τ} (ht : side t = .plain) (hts : Balanced ts) : Balanced (t :: ts)
  | nested {o c : τ} {kind : κ} {body ts : List τ} (ho : side o = .opening kind)
      (hbody : Balanced body) (hc : side c = .closing kind) (hts : Balanced ts) :
      Balanced (o :: (body ++ c :: ts))

/-- The brackets of a stack are those that a list leaves open. -/
def Open : List (Frame τ κ) → List τ → Prop
  | [], ts => Balanced side ts
  | frame :: stack, ts =>
    ∃ o body, ts = frame.before ++ o :: body ∧ side o = .opening frame.kind ∧
      Balanced side body ∧ Open stack frame.before

end Definitions

section Lemmas

variable {τ κ : Type*} {side : τ → Side κ}

theorem balanced_of_plain {ts : List τ} (h : ∀ t ∈ ts, side t = .plain) : Balanced side ts := by
  induction ts with
  | nil => exact .nil
  | cons t ts ih =>
      exact .plain (h t List.mem_cons_self) (ih fun t ht => h t (List.mem_cons_of_mem _ ht))

theorem Balanced.append {ts us : List τ} (hts : Balanced side ts) (hus : Balanced side us) :
  Balanced side (ts ++ us)
  := by
  induction hts with
  | nil => exact hus
  | plain ht _ ih => exact .plain ht ih
  | nested ho hbody hc _ _ ih =>
      rw [List.cons_append, List.append_assoc, List.cons_append]
      exact .nested ho hbody hc ih

theorem Open.append {stack : List (Frame τ κ)} {ts us : List τ} (hts : Open side stack ts)
    (hus : Balanced side us) :
  Open side stack (ts ++ us)
  := by
  cases stack with
  | nil => exact Balanced.append hts hus
  | cons frame stack =>
      obtain ⟨o, body, rfl, ho, hbody, hopen⟩ := hts
      exact ⟨o, body ++ us, by rw [List.append_assoc, List.cons_append], ho, hbody.append hus,
        hopen⟩

variable [DecidableEq κ]

theorem stackFrom_append (before : List τ) (stack : List (Frame τ κ)) (ts us : List τ) :
  stackFrom side before stack (ts ++ us) =
    (stackFrom side before stack ts).bind fun stack => stackFrom side (before ++ ts) stack us
  := by
  induction ts generalizing before stack with
  | nil => rw [List.nil_append, List.append_nil, stackFrom, Option.bind_some]
  | cons t ts ih =>
      rw [List.cons_append, stackFrom, stackFrom, Option.bind_assoc]
      congr 1
      funext stack'
      rw [ih, List.append_assoc, List.singleton_append]

theorem stack_concat (ts : List τ) (t : τ) :
  stack side (ts ++ [t]) = (stack side ts).bind fun st => push side ts st t
  := by
  rw [stack, stackFrom_append, ← stack]
  congr 1
  funext st
  rw [stackFrom, List.nil_append]
  cases push side ts st t <;> rfl

/-- What one more token opens or closes. -/
theorem Open.push {st st' : List (Frame τ κ)} {ts : List τ} {t : τ} (h : Open side st ts)
    (hpush : push side ts st t = some st') :
  Open side st' (ts ++ [t])
  := by
  cases hside : side t with
  | opening kind =>
      simp only [Brackets.push, hside] at hpush
      cases hpush
      exact ⟨t, [], rfl, hside, .nil, h⟩
  | closing kind =>
      simp only [Brackets.push, hside] at hpush
      cases st with
      | nil => cases hpush
      | cons frame rest =>
          simp only at hpush
          split at hpush
          · next hkind =>
            cases hpush
            obtain ⟨o, body, rfl, ho, hbody, hopen⟩ := h
            have hnested : Balanced side (o :: (body ++ [t])) :=
              .nested ho hbody (hkind ▸ hside) .nil
            have happend := hopen.append hnested
            rwa [List.append_assoc, List.cons_append]
          · cases hpush
  | plain =>
      simp only [Brackets.push, hside] at hpush
      cases hpush
      exact h.append (.plain hside .nil)

/-- The stack of a list are the brackets that it leaves open. -/
theorem open_of_stack {ts : List τ} {st : List (Frame τ κ)} (h : stack side ts = some st) :
  Open side st ts
  := by
  induction ts using List.reverseRecOn generalizing st with
  | nil =>
      cases h
      exact .nil
  | append_singleton ts t ih =>
      rw [stack_concat] at h
      obtain ⟨st', hst', hpush⟩ := Option.bind_eq_some_iff.mp h
      exact (ih hst').push hpush

end Lemmas

end Brackets

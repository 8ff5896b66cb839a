import Mathlib.Logic.Relation
import Mathlib.Data.List.Basic
import Mathlib.Tactic.Common

/-!
# Dependency orders

For a relation `E` on a type, with `E x y` read as `x` needs `y`, a list is ordered when
everything an element needs stands before it. An ordered list is closed under needs, and
none of its elements lies on a cycle.
-/

namespace Dependency

open Relation

variable {α : Type*} (E : α → α → Prop)

/-- Everything an element of the list needs stands before it in the list. -/
def Ordered (l : List α) : Prop :=
  ∀ front x back, l = front ++ x :: back → ∀ y, E x y → y ∈ front

variable {E}

theorem Ordered.nil : Ordered E [] := by
  intro front x back h
  simp at h

/-- An ordered list stays ordered when an element is added at its end, all of whose needs
the list holds. -/
theorem Ordered.concat {l : List α} {a : α} (h : Ordered E l) (ha : ∀ y, E a y → y ∈ l) :
  Ordered E (l ++ [a])
  := by
  intro front x back heq y hy
  rcases List.eq_nil_or_concat back with rfl | ⟨back, b, rfl⟩
  · obtain ⟨rfl, hx⟩ := List.append_inj' heq rfl
    obtain rfl := (List.cons.inj hx).1
    apply ha y hy
  · have heq' : l ++ [a] = (front ++ x :: back) ++ [b] := by
      rw [heq, List.concat_eq_append, List.append_assoc, List.cons_append]
    obtain ⟨hl, -⟩ := List.append_inj' heq' rfl
    apply h front x back hl y hy

/-- Ordered lists one behind the other are ordered. -/
theorem Ordered.append {l m : List α} (h : Ordered E l) (hm : Ordered E m) :
  Ordered E (l ++ m)
  := by
  intro front x back heq y hy
  rcases List.append_eq_append_iff.mp heq with ⟨mid, rfl, hback⟩ | ⟨mid, hl, hback⟩
  · apply List.mem_append_right
    exact hm mid x back hback y hy
  · cases mid with
    | nil =>
        have hfirst := hm [] x back hback.symm y hy
        contradiction
    | cons z mid =>
        obtain ⟨rfl, -⟩ := List.cons.inj hback
        exact h front x mid hl y hy

/-- What an element of an ordered list needs is an element of the list. -/
theorem Ordered.mem_of_needs {l : List α} (h : Ordered E l) {x y : α} (hx : x ∈ l)
    (hy : E x y) :
  y ∈ l
  := by
  obtain ⟨front, back, rfl⟩ := List.append_of_mem hx
  apply List.mem_append_left
  apply h front x back rfl y hy

/-- What an element of an ordered list needs, directly or through others, is an element of
the list. -/
theorem Ordered.mem_of_reflTransGen {l : List α} (h : Ordered E l) {x y : α} (hx : x ∈ l)
    (hy : ReflTransGen E x y) :
  y ∈ l
  := by
  induction hy with
  | refl => apply hx
  | tail _ hyz ih => apply h.mem_of_needs ih hyz

/-- The front of an ordered list is ordered. -/
theorem Ordered.of_prefix {l m : List α} (h : Ordered E l) (hm : m <+: l) : Ordered E m := by
  obtain ⟨rest, rfl⟩ := hm
  rintro front x back rfl
  apply h front x (back ++ rest)
  rw [List.append_assoc, List.cons_append]

variable [DecidableEq α]

/-- In an ordered list what an element needs has a smaller position than the element. -/
theorem Ordered.idxOf_lt {l : List α} (h : Ordered E l) {x y : α} (hx : x ∈ l) (hy : E x y) :
  l.idxOf y < l.idxOf x
  := by
  obtain ⟨front, back, rfl, hfront⟩ := List.eq_append_cons_of_mem hx
  have hmem : y ∈ front := h front x back rfl y hy
  rw [List.idxOf_append_of_mem hmem, List.idxOf_append_of_notMem hfront]
  have hlt := List.idxOf_lt_length_iff.mpr hmem
  omega

/-- No element of an ordered list lies on a cycle. -/
theorem Ordered.acyclic {l : List α} (h : Ordered E l) {x : α} (hx : x ∈ l) :
  ¬ TransGen E x x
  := by
  have hlt : ∀ {y}, TransGen E x y → l.idxOf y < l.idxOf x ∧ y ∈ l := by
    intro y hy
    induction hy with
    | single hy => exact ⟨h.idxOf_lt hx hy, h.mem_of_needs hx hy⟩
    | tail _ hyz ih =>
        obtain ⟨hlt, hmem⟩ := ih
        have hlt' := h.idxOf_lt hmem hyz
        exact ⟨by omega, h.mem_of_needs hmem hyz⟩
  intro hcycle
  have := (hlt hcycle).1
  omega

end Dependency

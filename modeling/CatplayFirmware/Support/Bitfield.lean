import Mathlib.Algebra.GroupWithZero.Nat
import Mathlib.Tactic.Common

/-!
# Fields of words

A field of a word is a range of its bits. A value is put into a field by a shift under the mask of
the field, and taken out of it again. Fields that are disjoint do not see each other, and a word is
put together from fields by disjunction.
-/

/-- The bits from `lo` on, `width` of them. -/
structure Bitfield where
  lo : ℕ
  width : ℕ
  deriving DecidableEq

namespace Bitfield

/-- `GENMASK(h, l)`. -/
def genmask (h l : ℕ) : Bitfield := ⟨l, h - l + 1⟩

/-- `BIT(n)`. -/
def bit (n : ℕ) : Bitfield := ⟨n, 1⟩

def mask (f : Bitfield) : ℕ := (2 ^ f.width - 1) <<< f.lo

/-- `FIELD_PREP`, which masks and shifts up a value. -/
def prep (f : Bitfield) (val : ℕ) : ℕ := (val <<< f.lo) &&& f.mask

/-- `FIELD_GET`, which masks and shifts down a word. -/
def get (f : Bitfield) (word : ℕ) : ℕ := (word &&& f.mask) >>> f.lo

/-- No bit is in both fields. -/
def Disjoint (f g : Bitfield) : Prop := f.lo + f.width ≤ g.lo ∨ g.lo + g.width ≤ f.lo

instance (f g : Bitfield) : Decidable (Disjoint f g) :=
  inferInstanceAs (Decidable (_ ∨ _))

variable {f g : Bitfield}

theorem testBit_get (f : Bitfield) (word i : ℕ) :
  (f.get word).testBit i = (decide (i < f.width) && word.testBit (f.lo + i))
  := by
  rw [get, mask, Nat.testBit_shiftRight, Nat.testBit_and, Nat.testBit_shiftLeft,
    Nat.testBit_two_pow_sub_one, Nat.add_sub_cancel_left]
  simp [Bool.and_comm]

theorem testBit_prep (f : Bitfield) (val i : ℕ) :
  (f.prep val).testBit i =
    (decide (f.lo ≤ i) && decide (i < f.lo + f.width) && val.testBit (i - f.lo))
  := by
  rw [prep, mask, Nat.testBit_and, Nat.testBit_shiftLeft, Nat.testBit_shiftLeft,
    Nat.testBit_two_pow_sub_one]
  by_cases hlo : f.lo ≤ i
  · have hwidth : i - f.lo < f.width ↔ i < f.lo + f.width := Nat.sub_lt_iff_lt_add' hlo
    simp [hlo, hwidth, Bool.and_comm]
  · simp [hlo]

@[simp] theorem get_or (f : Bitfield) (a b : ℕ) : f.get (a ||| b) = f.get a ||| f.get b := by
  apply Nat.eq_of_testBit_eq
  intro i
  rw [Nat.testBit_or, testBit_get, testBit_get, testBit_get, Nat.testBit_or,
    Bool.and_or_distrib_left]

@[simp] theorem get_zero (f : Bitfield) : f.get 0 = 0 := by
  rw [get, Nat.zero_and, Nat.zero_shiftRight]

@[simp] theorem get_ite (f : Bitfield) (c : Prop) [Decidable c] (a b : ℕ) :
  f.get (if c then a else b) = if c then f.get a else f.get b
  := apply_ite f.get c a b

/-- A field holds the low bits of what is put into it. -/
@[simp] theorem get_prep (f : Bitfield) (val : ℕ) : f.get (f.prep val) = val % 2 ^ f.width := by
  apply Nat.eq_of_testBit_eq
  intro i
  rw [testBit_get, testBit_prep, Nat.testBit_mod_two_pow, Nat.add_sub_cancel_left]
  by_cases hi : i < f.width <;> simp [hi]

/-- A field does not see what is put into a disjoint one. -/
@[simp] theorem get_prep_of_disjoint (h : Disjoint f g) (val : ℕ) : f.get (g.prep val) = 0 := by
  apply Nat.eq_of_testBit_eq
  intro i
  rw [testBit_get, testBit_prep, Nat.zero_testBit]
  rcases h with hbelow | habove
  · by_cases hi : i < f.width
    · have hlo : ¬ g.lo ≤ f.lo + i := by omega
      simp [hlo]
    · simp [hi]
  · have hhi : ¬ f.lo + i < g.lo + g.width := by omega
    simp [hhi]

end Bitfield

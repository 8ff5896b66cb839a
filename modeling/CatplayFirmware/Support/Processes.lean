import Mathlib.Data.Finset.Card
import Mathlib.Data.Int.Notation
import Mathlib.Logic.Function.Basic

/-!
# Counters of processes

Any number of processes each have a local state. A counter is true to them when it is the number of
the processes whose local state has a property. It stays true when a process that takes on the
property counts up, and one that gives it up counts down.
-/

namespace Processes

variable {ι σ : Type*}

/-- The processes whose local state has a property are finitely many, and are counted. -/
def Counts (locals : ι → σ) (P : σ → Prop) (count : ℤ) : Prop :=
  ∃ members : Finset ι, (∀ i, i ∈ members ↔ P (locals i)) ∧ count = members.card

variable {locals : ι → σ} {P : σ → Prop} {count : ℤ}

theorem counts_none (h : ∀ i, ¬ P (locals i)) : Counts locals P 0 := by
  use ∅
  constructor
  · intro i
    exact iff_of_false (Finset.notMem_empty i) (h i)
  · rfl

/-- A counter that is zero says that no process has the property. -/
theorem Counts.none_of_zero (h : Counts locals P 0) (i : ι) : ¬ P (locals i) := by
  obtain ⟨members, hmem, hcard⟩ := h
  have hempty : members = ∅ := Finset.card_eq_zero.mp (by exact_mod_cast hcard.symm)
  rw [← hmem, hempty]
  apply Finset.notMem_empty

theorem Counts.nonneg (h : Counts locals P count) : 0 ≤ count := by
  obtain ⟨members, -, rfl⟩ := h
  apply Int.natCast_nonneg

theorem Counts.pos (h : Counts locals P count) {i : ι} (hi : P (locals i)) : 0 < count := by
  apply lt_of_le_of_ne h.nonneg
  rintro rfl
  apply h.none_of_zero i hi

/-- A counter that is not zero says that some process has the property. -/
theorem Counts.exists_of_ne_zero (h : Counts locals P count) (hcount : count ≠ 0) :
  ∃ i, P (locals i)
  := by
  by_contra hnone
  rw [not_exists] at hnone
  obtain ⟨members, hmem, rfl⟩ := h
  apply hcount
  rw [Int.natCast_eq_zero, Finset.card_eq_zero, Finset.eq_empty_iff_forall_notMem]
  intro i
  rw [hmem]
  apply hnone

variable [DecidableEq ι] {i : ι} {l : σ}

/-- A process that takes on the property counts up. -/
theorem Counts.enter (h : Counts locals P count) (hbefore : ¬ P (locals i)) (hafter : P l) :
  Counts (Function.update locals i l) P (count + 1)
  := by
  obtain ⟨members, hmem, rfl⟩ := h
  use insert i members
  constructor
  · intro j
    rw [Finset.mem_insert, hmem, Function.update_apply]
    by_cases hj : j = i
    · simp [hj, hafter]
    · simp [hj]
  · have hnew : i ∉ members := by rwa [hmem]
    rw [Finset.card_insert_of_notMem hnew]
    rfl

/-- A process that gives the property up counts down. -/
theorem Counts.leave (h : Counts locals P count) (hbefore : P (locals i)) (hafter : ¬ P l) :
  Counts (Function.update locals i l) P (count - 1)
  := by
  obtain ⟨members, hmem, rfl⟩ := h
  have hmember : i ∈ members := by rwa [hmem]
  use members.erase i
  constructor
  · intro j
    rw [Finset.mem_erase, hmem, Function.update_apply]
    by_cases hj : j = i
    · simp [hj, hafter]
    · simp [hj]
  · rw [← Finset.card_erase_add_one hmember, Int.natCast_add]
    apply Int.add_sub_cancel

/-- A process that keeps the property, or keeps being without it, does not count. -/
theorem Counts.stay (h : Counts locals P count) (hsame : P (locals i) ↔ P l) :
  Counts (Function.update locals i l) P count
  := by
  obtain ⟨members, hmem, rfl⟩ := h
  use members
  constructor
  · intro j
    rw [hmem, Function.update_apply]
    by_cases hj : j = i
    · simp [hj, hsame]
    · simp [hj]
  · rfl

/-- A counter that follows the change of a flag of one process. -/
theorem Counts.change {flag : σ → Bool} (h : Counts locals (flag · = true) count) :
  Counts (Function.update locals i l) (flag · = true)
    (count + (flag l).toInt - (flag (locals i)).toInt)
  := by
  cases hbefore : flag (locals i) <;> cases hafter : flag l
  · rw [Int.add_sub_cancel]
    apply h.stay
    rw [hbefore, hafter]
  · rw [Bool.toInt_true, Bool.toInt_false, Int.sub_zero]
    apply h.enter _ hafter
    rw [hbefore]
    exact Bool.false_ne_true
  · rw [Bool.toInt_true, Bool.toInt_false, Int.add_zero]
    apply h.leave hbefore
    rw [hafter]
    exact Bool.false_ne_true
  · rw [Int.add_sub_cancel]
    apply h.stay
    rw [hbefore, hafter]

end Processes

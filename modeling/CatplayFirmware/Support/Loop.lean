import Mathlib.Combinatorics.Pigeonhole
import Mathlib.Data.Sum.Basic
import Mathlib.Tactic.Basic
import Mathlib.Tactic.Common

/-!
# Loops

A loop is a step function `step : σ → σ ⊕ ρ`: from a state it either goes round again in a
new state, or leaves with a result. `iterate step n s` runs at most `n` rounds. A loop
returns when some number of rounds is enough; it diverges when none is.
-/

namespace Loop

variable {σ ρ : Type*}

/-- At most `n` rounds of the loop `step` from the state `s`. -/
def iterate (step : σ → σ ⊕ ρ) : ℕ → σ → Option ρ
  | 0, _ => none
  | n + 1, s =>
    match step s with
    | .inl s' => iterate step n s'
    | .inr r => some r

/-- The loop `step` leaves with the result `r` when started in the state `s`. -/
def Returns (step : σ → σ ⊕ ρ) (s : σ) (r : ρ) : Prop :=
  ∃ n, iterate step n s = some r

/-- The loop `step` started in the state `s` leaves after finitely many rounds. -/
def Terminates (step : σ → σ ⊕ ρ) (s : σ) : Prop :=
  ∃ r, Returns step s r

variable {step : σ → σ ⊕ ρ}

theorem iterate_inl {s s' : σ} (h : step s = .inl s') (n : ℕ) :
  iterate step (n + 1) s = iterate step n s'
  := by
  rw [iterate, h]

theorem iterate_inr {s : σ} {r : ρ} (h : step s = .inr r) (n : ℕ) :
  iterate step (n + 1) s = some r
  := by
  rw [iterate, h]

/-- A result found in `n` rounds is found in any larger number of rounds. -/
theorem iterate_mono {n m : ℕ} {s : σ} {r : ρ} (hnm : n ≤ m) (h : iterate step n s = some r) :
  iterate step m s = some r
  := by
  induction n generalizing m s with
  | zero => cases h
  | succ n ih =>
      obtain ⟨m, rfl⟩ : ∃ k, m = k + 1 := ⟨m - 1, by omega⟩
      cases hs : step s with
      | inl s' =>
          rw [iterate_inl hs] at h ⊢
          apply ih (by omega) h
      | inr r' =>
          rw [iterate_inr hs] at h ⊢
          apply h

/-- A loop has at most one result. -/
theorem Returns.unique {s : σ} {r r' : ρ} (h : Returns step s r) (h' : Returns step s r') :
  r = r'
  := by
  obtain ⟨n, hn⟩ := h
  obtain ⟨m, hm⟩ := h'
  have hr := iterate_mono (Nat.le_max_left n m) hn
  have hr' := iterate_mono (Nat.le_max_right n m) hm
  rw [hr] at hr'
  apply Option.some.inj hr'

/-- A loop that goes round from `s` to `s'` returns from `s` what it returns from `s'`. -/
theorem returns_inl {s s' : σ} {r : ρ} (h : step s = .inl s') :
  Returns step s r ↔ Returns step s' r
  := by
  constructor
  · rintro ⟨_ | n, hn⟩
    · cases hn
    · rw [iterate_inl h] at hn
      use n
  · rintro ⟨n, hn⟩
    use n + 1
    rw [iterate_inl h, hn]

/-- A loop that leaves in its first round returns what it leaves with. -/
theorem returns_inr {s : σ} {r r' : ρ} (h : step s = .inr r) :
  Returns step s r' ↔ r' = r
  := by
  constructor
  · intro h'
    apply Returns.unique h'
    use 1
    apply iterate_inr h
  · rintro rfl
    use 1
    apply iterate_inr h

/-- The invariant rule: an invariant `I` that every round keeps, and that gives `Q` of the
result of the last round, gives `Q` of whatever the loop returns. -/
theorem Returns.post (I : σ → Prop) (Q : ρ → Prop)
    (hround : ∀ s s', I s → step s = .inl s' → I s')
    (hleave : ∀ s r, I s → step s = .inr r → Q r)
    {s : σ} {r : ρ} (hs : I s) (h : Returns step s r) :
  Q r
  := by
  obtain ⟨n, hn⟩ := h
  induction n generalizing s with
  | zero => cases hn
  | succ n ih =>
      cases hstep : step s with
      | inl s' =>
          rw [iterate_inl hstep] at hn
          apply ih (hround s s' hs hstep) hn
      | inr r' =>
          rw [iterate_inr hstep] at hn
          obtain rfl := Option.some.inj hn
          apply hleave s r' hs hstep

/-- The variant rule: a measure that every round from the invariant `I` makes smaller bounds
the number of rounds. -/
theorem iterate_of_measure (I : σ → Prop) (μ : σ → ℕ)
    (hround : ∀ s s', I s → step s = .inl s' → I s' ∧ μ s' < μ s)
    {s : σ} (hs : I s) {n : ℕ} (hn : μ s < n) :
  ∃ r, iterate step n s = some r
  := by
  induction n generalizing s with
  | zero => omega
  | succ n ih =>
      cases hstep : step s with
      | inl s' =>
          obtain ⟨hs', hlt⟩ := hround s s' hs hstep
          rw [iterate_inl hstep]
          apply ih hs' (by omega)
      | inr r =>
          use r
          apply iterate_inr hstep

/-- A loop whose rounds make a measure smaller terminates. -/
theorem terminates_of_measure (I : σ → Prop) (μ : σ → ℕ)
    (hround : ∀ s s', I s → step s = .inl s' → I s' ∧ μ s' < μ s) {s : σ} (hs : I s) :
  Terminates step s
  := by
  obtain ⟨r, hr⟩ := iterate_of_measure I μ hround hs (Nat.lt_succ_self (μ s))
  use r, μ s + 1

/-- The rule for total correctness: the invariant rule and the variant rule together. -/
theorem iterate_total (I : σ → Prop) (μ : σ → ℕ) (Q : ρ → Prop)
    (hround : ∀ s s', I s → step s = .inl s' → I s' ∧ μ s' < μ s)
    (hleave : ∀ s r, I s → step s = .inr r → Q r)
    {s : σ} (hs : I s) {n : ℕ} (hn : μ s < n) :
  ∃ r, iterate step n s = some r ∧ Q r
  := by
  obtain ⟨r, hr⟩ := iterate_of_measure I μ hround hs hn
  use r, hr
  apply Returns.post I Q (fun s s' hs h => (hround s s' hs h).1) hleave hs
  use n

/-- A loop that cannot leave a set of states it is in does not terminate. -/
theorem not_terminates_of_trap (I : σ → Prop)
    (hround : ∀ s, I s → ∃ s', step s = .inl s' ∧ I s') {s : σ} (hs : I s) :
  ¬ Terminates step s
  := by
  rintro ⟨r, hr⟩
  refine Returns.post I (fun _ => False) ?_ ?_ hs hr
  · intro s s' hs hstep
    obtain ⟨s'', hs'', hI⟩ := hround s hs
    rw [hs''] at hstep
    cases hstep
    apply hI
  · intro s r hs hstep
    obtain ⟨s'', hs'', -⟩ := hround s hs
    rw [hs''] at hstep
    cases hstep

/-- A loop that is still going round after `n` rounds has passed through `n + 1` states. -/
theorem exists_states_of_iterate_none {n : ℕ} {s : σ} (h : iterate step n s = none) :
  ∃ f : ℕ → σ, f 0 = s ∧ ∀ k < n, step (f k) = .inl (f (k + 1))
  := by
  induction n generalizing s with
  | zero => exact ⟨fun _ => s, rfl, nofun⟩
  | succ n ih =>
      cases hstep : step s with
      | inl s' =>
          rw [iterate_inl hstep] at h
          obtain ⟨f, rfl, hf⟩ := ih h
          use fun k => k.casesOn s f
          constructor
          · rfl
          · intro k hk
            cases k with
            | zero => exact hstep
            | succ k => exact hf k (by omega)
      | inr r =>
          rw [iterate_inr hstep] at h
          cases h

/-- The pigeonhole rule: a loop whose rounds depend on a key alone, and that goes round only
from finitely many keys, never leaves if it is still going round after more rounds than there
are keys. -/
theorem not_terminates_of_card {κ : Type*} (key : σ → κ) (keys : Finset κ)
    (hkeys : ∀ s s', step s = .inl s' → key s ∈ keys)
    (hkey : ∀ s t s', key s = key t → step s = .inl s' →
      ∃ t', step t = .inl t' ∧ key s' = key t')
    {s : σ} {n : ℕ} (hn : keys.card < n) (h : iterate step n s = none) :
  ¬ Terminates step s
  := by
  obtain ⟨f, rfl, hf⟩ := exists_states_of_iterate_none h
  -- two of the states have the same key
  obtain ⟨i, hi, j, hj, hne, hsame⟩ : ∃ i ∈ Finset.range n, ∃ j ∈ Finset.range n,
      i ≠ j ∧ key (f i) = key (f j) := by
    apply Finset.exists_ne_map_eq_of_card_lt_of_maps_to
    · rwa [Finset.card_range]
    · intro k hk
      apply hkeys _ _ (hf k (Finset.mem_range.mp hk))
  rw [Finset.mem_range] at hi hj
  obtain ⟨i, j, hij, hj, hsame⟩ : ∃ i j, i < j ∧ j < n ∧ key (f i) = key (f j) := by
    rcases Nat.lt_or_gt_of_ne hne with hlt | hgt
    · exact ⟨i, j, hlt, hj, hsame⟩
    · exact ⟨j, i, hgt, hi, hsame.symm⟩
  -- from the first of them on, the loop only meets keys of the states up to the second
  have htrap : ¬ Terminates step (f i) := by
    apply not_terminates_of_trap fun t => ∃ k, i ≤ k ∧ k < j ∧ key (f k) = key t
    · rintro t ⟨k, hik, hkj, hkt⟩
      obtain ⟨t', hstep, hkt'⟩ := hkey _ _ _ hkt (hf k (by omega))
      refine ⟨t', hstep, ?_⟩
      rcases Nat.lt_or_ge (k + 1) j with hlt | hge
      · exact ⟨k + 1, by omega, hlt, hkt'⟩
      · obtain rfl : k + 1 = j := by omega
        exact ⟨i, Nat.le_refl i, hij, hsame.trans hkt'⟩
    · exact ⟨i, Nat.le_refl i, hij, rfl⟩
  have hreach (k : ℕ) (hk : k ≤ i) : ¬ Terminates step (f k) := by
    induction hk using Nat.decreasingInduction with
    | self => exact htrap
    | of_succ k hk ih =>
        rintro ⟨r, hr⟩
        apply ih
        exact ⟨r, (returns_inl (hf k (by omega))).mp hr⟩
  apply hreach 0 (Nat.zero_le i)

end Loop

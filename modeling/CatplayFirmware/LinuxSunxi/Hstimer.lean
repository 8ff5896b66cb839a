import CatplayFirmware.Support.Loop
import Mathlib.Tactic.Common

/-!
# The high-speed timer

Channel 1 is a counter of 56 bits that goes down and is read in two words. A value that is read is
the complement of one that the counter has held between the two reads of its high word, wherever the
low word wraps. The delay of `sync` subtracts two such values in 64 bits, so it ends early when the
counter passes zero on the way.
-/

namespace Hstimer

/-! ### The device -/

def clksrcCh : ℕ := 1

def chBase (ch : ℕ) : ℕ := 0x20 + 0x20 * ch

def cntvHi (ch : ℕ) : ℕ := chBase ch + 0x10

/-- `sunxi_hstimer_cntv_lo`. -/
def cntvLo (swapIvhCvlSpace : Bool) (ch : ℕ) : ℕ :=
  chBase ch + if swapIvhCvlSpace then 0x0c else 0x08

def hiMask : BitVec 32 := 0xFFFFFF

def syncTicks : BitVec 64 := 3

/-- The timer, from the first access to its registers on. The counter goes down by `steps k` between
the accesses `k` and `k + 1`. -/
structure Timer where
  swapIvhCvlSpace : Bool
  start : BitVec 56
  steps : ℕ → ℕ
  steps_lt : ∀ k, steps k < 0x100000000

namespace Timer

variable (t : Timer)

/-- The ticks before access `k`. -/
def elapsed : ℕ → ℕ
  | 0 => 0
  | k + 1 => elapsed k + t.steps k

/-- The counter at access `k`. -/
def held (k : ℕ) : BitVec 56 := t.start - BitVec.ofNat 56 (t.elapsed k)

/-- The ticks from access `i` to access `j`. -/
def advance (i j : ℕ) : ℕ := t.elapsed j - t.elapsed i

/-- What access `k` reads. -/
def readl (k offset : ℕ) : BitVec 32 :=
  if offset = cntvHi clksrcCh then (t.held k >>> 32).setWidth 32
  else if offset = cntvLo t.swapIvhCvlSpace clksrcCh then (t.held k).setWidth 32
  else 0

end Timer

/-! ### The driver -/

/-- One round of the loop of `sunxi_hstimer_read`, from the next access on. -/
def readRound (t : Timer) (k : ℕ) : ℕ ⊕ BitVec 64 × ℕ :=
  let hi1 := t.readl k (cntvHi clksrcCh)
  let lo := t.readl (k + 1) (cntvLo t.swapIvhCvlSpace clksrcCh)
  let hi2 := t.readl (k + 2) (cntvHi clksrcCh)
  if hi1 ≠ hi2 then .inl (k + 3)
  else .inr (((~~~hi1 &&& hiMask).setWidth 64 <<< 32) ||| (~~~lo).setWidth 64, k + 3)

/-- `sunxi_hstimer_read`, with the access that comes next. -/
def sunxiHstimerRead (t : Timer) (fuel k : ℕ) : Option (BitVec 64 × ℕ) :=
  Loop.iterate (readRound t) fuel k

/-- One round of the loop of `sunxi_hstimer_sync`, or of the loop of the call of
`sunxi_hstimer_read` in it. -/
def syncRound (t : Timer) (old : BitVec 64) (k : ℕ) : ℕ ⊕ ℕ :=
  match readRound t k with
  | .inl k => .inl k
  | .inr (value, k) => if value - old < syncTicks then .inl k else .inr k

/-- `sunxi_hstimer_sync`, with the access that comes next. -/
def sunxiHstimerSync (t : Timer) (fuel k : ℕ) : Option ℕ := do
  let (old, k) ← sunxiHstimerRead t fuel k
  Loop.iterate (syncRound t old) fuel k

/-- A call of `sunxi_hstimer_read` before access `k` returns a value before access `k'`. -/
def Reads (t : Timer) (k : ℕ) (value : BitVec 64) (k' : ℕ) : Prop :=
  ∃ fuel, sunxiHstimerRead t fuel k = some (value, k')

/-- A call of `sunxi_hstimer_sync` before access `k` returns before access `k'`. -/
def Syncs (t : Timer) (k k' : ℕ) : Prop := ∃ fuel, sunxiHstimerSync t fuel k = some k'

/-! ### What is asked of it -/

/-- Every value that is read is the complement of one that the counter has held during the call. -/
def Untorn (t : Timer) : Prop :=
  ∀ k value k', Reads t k value k' → ∃ j, k ≤ j ∧ j < k' ∧ value = (~~~ t.held j).setWidth 64

/-- The access to the low word in the first round before access `k` or behind it, three accesses a
round, whose two high words are equal. -/
def FirstRead (t : Timer) (k i : ℕ) : Prop :=
  ∃ n, i = k + 3 * n + 1 ∧
    t.held (k + 3 * n) >>> 32 = t.held (k + 3 * n + 2) >>> 32 ∧
    ∀ m < n, t.held (k + 3 * m) >>> 32 ≠ t.held (k + 3 * m + 2) >>> 32

/-- When the delay ends the counter has advanced by three ticks from where it was read first. -/
def Waits (t : Timer) (k : ℕ) : Prop :=
  ∀ i k', FirstRead t k i → Syncs t k k' → syncTicks.toNat ≤ t.advance i (k' - 1)

/-- The counter is not read behind zero in the first ticks of the delay. -/
def NoWrap (t : Timer) (k : ℕ) : Prop :=
  ∀ i n, FirstRead t k i →
    t.held (i + 3 * n + 2) >>> 32 = t.held (i + 3 * n + 4) >>> 32 →
    t.advance i (i + 3 * n + 4) < syncTicks.toNat →
    t.advance i (i + 3 * n + 3) ≤ (t.held i).toNat

/-! ### The counter -/

namespace Timer

variable (t : Timer)

theorem elapsed_mono {i j : ℕ} (h : i ≤ j) : t.elapsed i ≤ t.elapsed j := by
  induction h with
  | refl => exact Nat.le_refl _
  | step _ ih =>
      rw [elapsed]
      omega

/-- The counter goes down by the ticks that pass. -/
theorem toNat_held {i j : ℕ} (h : i ≤ j) :
  (t.held j).toNat =
    ((t.held i).toNat + (0x100000000000000 - t.advance i j % 0x100000000000000)) %
      0x100000000000000
  := by
  have hmono := t.elapsed_mono h
  have hstart := t.start.isLt
  simp only [held, advance, BitVec.toNat_sub, BitVec.toNat_ofNat, Nat.reducePow]
  omega

theorem toNat_shift (h : BitVec 56) : (h >>> 32).toNat = h.toNat / 0x100000000 := by
  rw [BitVec.toNat_ushiftRight, Nat.shiftRight_eq_div_pow]

/-- With equal high words around it, the low word is read before or after no wrap: two steps are
too small to go around. -/
theorem shift_held_succ {k : ℕ} (h : t.held k >>> 32 = t.held (k + 2) >>> 32) :
  t.held (k + 1) >>> 32 = t.held k >>> 32
  := by
  have h₁ := t.steps_lt k
  have h₂ := t.steps_lt (k + 1)
  have hfirst : t.advance k (k + 1) = t.steps k := by
    rw [advance, elapsed]
    omega
  have hboth : t.advance k (k + 2) = t.steps k + t.steps (k + 1) := by
    rw [advance, elapsed, elapsed]
    omega
  have hheld₁ := t.toNat_held (Nat.le_add_right k 1)
  have hheld₂ := t.toNat_held (Nat.le_add_right k 2)
  have hlt := (t.held k).isLt
  rw [hfirst] at hheld₁
  rw [hboth] at hheld₂
  have h := congrArg BitVec.toNat h
  rw [toNat_shift, toNat_shift] at h
  apply BitVec.eq_of_toNat_eq
  rw [toNat_shift, toNat_shift]
  simp only [Nat.reducePow] at hlt
  omega

theorem readl_hi (k : ℕ) : t.readl k (cntvHi clksrcCh) = (t.held k >>> 32).setWidth 32 := by
  rw [readl, if_pos rfl]

theorem readl_lo (k : ℕ) :
  t.readl k (cntvLo t.swapIvhCvlSpace clksrcCh) = (t.held k).setWidth 32
  := by
  have hne : cntvLo t.swapIvhCvlSpace clksrcCh ≠ cntvHi clksrcCh := by
    cases t.swapIvhCvlSpace <;> decide
  rw [readl, if_neg hne, if_pos rfl]

end Timer

/-! ### Reading -/

/-- The two words make up the complement of the counter. -/
theorem assembled (h : BitVec 56) :
  ((~~~(h >>> 32).setWidth 32 &&& hiMask).setWidth 64 <<< 32) |||
    (~~~(h.setWidth 32)).setWidth 64 = (~~~h).setWidth 64
  := by
  have hmask (j : ℕ) : hiMask.getLsbD j = decide (j < 24) := by
    rcases Nat.lt_or_ge j 32 with hj | hj
    · revert j
      decide
    · rw [BitVec.getLsbD_of_ge _ _ hj, decide_eq_false (by omega)]
  apply BitVec.eq_of_getLsbD_eq
  intro i hi
  simp only [BitVec.getLsbD_or, BitVec.getLsbD_shiftLeft, BitVec.getLsbD_setWidth,
    BitVec.getLsbD_and, BitVec.getLsbD_not, BitVec.getLsbD_ushiftRight, hmask]
  rcases Nat.lt_or_ge i 32 with hlow | hhigh
  · simp [hlow, hi, show i < 56 by omega]
  · have hsub : 32 + (i - 32) = i := by omega
    have htop : i - 32 < 24 ↔ i < 56 := by omega
    have hword : i - 32 < 32 := by omega
    simp [hsub, htop, hword, hi, Nat.not_lt.mpr hhigh, Nat.lt_trans hword, Bool.and_comm]

/-- A round whose high words are equal gives the complement of what the counter held at the access
to the low word. -/
theorem readRound_eq (t : Timer) (k : ℕ) :
  readRound t k =
    if t.held k >>> 32 = t.held (k + 2) >>> 32 then
      .inr ((~~~t.held (k + 1)).setWidth 64, k + 3)
    else .inl (k + 3)
  := by
  have hwords : (t.held k >>> 32).setWidth 32 ≠ (t.held (k + 2) >>> 32).setWidth 32 ↔
      t.held k >>> 32 ≠ t.held (k + 2) >>> 32 := by
    rw [not_iff_not, ← BitVec.toNat_inj, ← BitVec.toNat_inj, BitVec.toNat_setWidth,
      BitVec.toNat_setWidth, Timer.toNat_shift, Timer.toNat_shift]
    have h₁ := (t.held k).isLt
    have h₂ := (t.held (k + 2)).isLt
    simp only [Nat.reducePow] at h₁ h₂ ⊢
    omega
  simp only [readRound, Timer.readl_hi, Timer.readl_lo, hwords]
  by_cases heq : t.held k >>> 32 = t.held (k + 2) >>> 32
  · rw [if_neg (not_not_intro heq), if_pos heq, ← t.shift_held_succ heq, assembled]
  · rw [if_pos heq, if_neg heq]

theorem FirstRead.unique {t : Timer} {k i i' : ℕ} (h : FirstRead t k i) (h' : FirstRead t k i') :
  i = i'
  := by
  obtain ⟨n, rfl, heq, hne⟩ := h
  obtain ⟨n', rfl, heq', hne'⟩ := h'
  rcases Nat.lt_trichotomy n n' with hlt | rfl | hlt
  · exact absurd heq (hne' n hlt)
  · rfl
  · exact absurd heq' (hne n' hlt)

theorem firstRead_here {t : Timer} {k : ℕ} (h : t.held k >>> 32 = t.held (k + 2) >>> 32) :
  FirstRead t k (k + 1)
  := ⟨0, rfl, h, fun m hm => absurd hm (Nat.not_lt_zero m)⟩

theorem FirstRead.of_next {t : Timer} {k i : ℕ} (hne : t.held k >>> 32 ≠ t.held (k + 2) >>> 32)
    (h : FirstRead t (k + 3) i) :
  FirstRead t k i
  := by
  obtain ⟨n, rfl, heq, hbefore⟩ := h
  have hround (m : ℕ) : k + 3 + 3 * m = k + 3 * (m + 1) := by omega
  simp only [hround] at heq hbefore ⊢
  refine ⟨n + 1, rfl, heq, ?_⟩
  rintro (_ | m) hm
  · exact hne
  · exact hbefore m (Nat.lt_of_succ_lt_succ hm)

/-- A call of `sunxi_hstimer_read` comes to the first round without a wrap, if there is one. -/
theorem reads_iff {t : Timer} {k k' : ℕ} {value : BitVec 64} :
  Reads t k value k' ↔
    ∃ i, FirstRead t k i ∧ value = (~~~t.held i).setWidth 64 ∧ k' = i + 2
  := by
  change Loop.Returns (readRound t) k (value, k') ↔ _
  constructor
  · rintro ⟨n, hn⟩
    induction n generalizing k with
    | zero => cases hn
    | succ n ih =>
        rw [Loop.iterate, readRound_eq] at hn
        by_cases heq : t.held k >>> 32 = t.held (k + 2) >>> 32
        · rw [if_pos heq] at hn
          cases hn
          exact ⟨k + 1, firstRead_here heq, rfl, rfl⟩
        · rw [if_neg heq] at hn
          obtain ⟨i, hfirst, hvalue⟩ := ih hn
          exact ⟨i, hfirst.of_next heq, hvalue⟩
  · rintro ⟨i, ⟨n, rfl, heq, hbefore⟩, rfl, rfl⟩
    induction n generalizing k with
    | zero =>
        have hround : readRound t k = .inr ((~~~t.held (k + 1)).setWidth 64, k + 3) := by
          rw [readRound_eq]
          exact if_pos heq
        exact (Loop.returns_inr hround).mpr rfl
    | succ n ih =>
        have hround : readRound t k = .inl (k + 3) := by
          rw [readRound_eq]
          exact if_neg (hbefore 0 (Nat.succ_pos n))
        have hnext (m : ℕ) : k + 3 + 3 * m = k + 3 * (m + 1) := by omega
        rw [Loop.returns_inl hround]
        have ih := @ih (k + 3)
        simp only [hnext] at ih
        exact ih heq fun m hm => hbefore (m + 1) (Nat.succ_lt_succ hm)

/-- No value is torn. -/
theorem untorn (t : Timer) : Untorn t := by
  intro k value k' h
  obtain ⟨i, ⟨n, rfl, -, -⟩, hvalue, rfl⟩ := reads_iff.mp h
  exact ⟨_, by omega, by omega, hvalue⟩

/-! ### Waiting -/

theorem syncs_iff {t : Timer} {k k' : ℕ} :
  Syncs t k k' ↔
    ∃ i, FirstRead t k i ∧
      Loop.Returns (syncRound t ((~~~t.held i).setWidth 64)) (i + 2) k'
  := by
  constructor
  · rintro ⟨fuel, hfuel⟩
    obtain ⟨⟨old, k₁⟩, hread, hloop⟩ := Option.bind_eq_some_iff.mp hfuel
    obtain ⟨i, hfirst, rfl, rfl⟩ := reads_iff.mp ⟨fuel, hread⟩
    exact ⟨i, hfirst, fuel, hloop⟩
  · rintro ⟨i, hfirst, n, hn⟩
    obtain ⟨m, hm⟩ := reads_iff.mpr ⟨i, hfirst, rfl, rfl⟩
    use max m n
    have hread := Loop.iterate_mono (Nat.le_max_left m n) hm
    rw [sunxiHstimerSync, sunxiHstimerRead, hread]
    exact Loop.iterate_mono (Nat.le_max_right m n) hn

theorem syncRound_eq (t : Timer) (old : BitVec 64) (k : ℕ) :
  syncRound t old k =
    if t.held k >>> 32 = t.held (k + 2) >>> 32 ∧
        ¬ (~~~t.held (k + 1)).setWidth 64 - old < syncTicks then
      .inr (k + 3)
    else .inl (k + 3)
  := by
  rw [syncRound, readRound_eq]
  by_cases heq : t.held k >>> 32 = t.held (k + 2) >>> 32
  · rw [if_pos heq]
    by_cases hlt : (~~~t.held (k + 1)).setWidth 64 - old < syncTicks
    · rw [if_neg fun h => h.2 hlt]
      exact if_pos hlt
    · rw [if_pos ⟨heq, hlt⟩]
      exact if_neg hlt
  · rw [if_neg heq, if_neg fun h => heq h.1]

/-- While the counter has advanced by less than three ticks the difference is small, unless it has
passed zero. -/
theorem sub_lt_iff {t : Timer} {i j : ℕ} (hij : i ≤ j) (h : t.advance i j < syncTicks.toNat) :
  (~~~t.held j).setWidth 64 - (~~~t.held i).setWidth 64 < syncTicks ↔
    t.advance i j ≤ (t.held i).toNat
  := by
  have hheld := t.toNat_held hij
  have hi := (t.held i).isLt
  have hj := (t.held j).isLt
  have hticks : syncTicks.toNat = 3 := rfl
  rw [BitVec.lt_def, BitVec.toNat_sub, BitVec.toNat_setWidth, BitVec.toNat_setWidth,
    BitVec.toNat_not, BitVec.toNat_not, hticks]
  rw [hticks] at h
  simp only [Nat.reducePow] at hi hj ⊢
  omega

theorem syncRound_inl {t : Timer} {old : BitVec 64} {k s : ℕ} (h : syncRound t old k = .inl s) :
  s = k + 3
  := by
  rw [syncRound_eq] at h
  split at h <;> cases h
  rfl

theorem syncRound_inr {t : Timer} {old : BitVec 64} {k r : ℕ} (h : syncRound t old k = .inr r) :
  r = k + 3 ∧ t.held k >>> 32 = t.held (k + 2) >>> 32 ∧
    ¬ (~~~t.held (k + 1)).setWidth 64 - old < syncTicks
  := by
  rw [syncRound_eq] at h
  split at h
  · next hleaves =>
    cases h
    exact ⟨rfl, hleaves⟩
  · cases h

theorem Timer.advance_mono (t : Timer) {i j j' : ℕ} (h : j ≤ j') :
  t.advance i j ≤ t.advance i j'
  := Nat.sub_le_sub_right (t.elapsed_mono h) _

/-- If the delay is long enough, what is returned from a round on that comes before its end is
returned from the first round on. -/
theorem Waits.returns {t : Timer} {k i n : ℕ} (hwaits : Waits t k) (hfirst : FirstRead t k i)
    (hadvance : t.advance i (i + 3 * n + 4) < syncTicks.toNat) {m k' : ℕ} (hm : m ≤ n)
    (h : Loop.Returns (syncRound t ((~~~t.held i).setWidth 64)) (i + 2 + 3 * m) k') :
  Loop.Returns (syncRound t ((~~~t.held i).setWidth 64)) (i + 2) k'
  := by
  induction m generalizing k' with
  | zero => exact h
  | succ m ih =>
      cases hround : syncRound t ((~~~t.held i).setWidth 64) (i + 2 + 3 * m) with
      | inl s =>
          have hs : s = i + 2 + 3 * (m + 1) := syncRound_inl hround
          subst hs
          exact ih (by omega) ((Loop.returns_inl hround).mpr h)
      | inr r =>
          have hr : r = i + 2 + 3 * m + 3 := (syncRound_inr hround).1
          have hleaves := ih (by omega) ((Loop.returns_inr hround).mpr rfl)
          have hlong := hwaits i r hfirst (syncs_iff.mpr ⟨i, hfirst, hleaves⟩)
          have hlater : t.advance i (r - 1) ≤ t.advance i (i + 3 * n + 4) :=
            t.advance_mono (by omega)
          omega

theorem Waits.noWrap {t : Timer} {k : ℕ} (hwaits : Waits t k) : NoWrap t k := by
  intro i n hfirst heq hadvance
  by_contra hwrap
  have hshort : t.advance i (i + 3 * n + 3) < syncTicks.toNat :=
    Nat.lt_of_le_of_lt (t.advance_mono (by omega)) hadvance
  have hround : syncRound t ((~~~t.held i).setWidth 64) (i + 2 + 3 * n) =
      .inr (i + 3 * n + 5) := by
    have hindex (m : ℕ) : i + 2 + 3 * n + m = i + 3 * n + (m + 2) := by omega
    have hzero : i + 2 + 3 * n = i + 3 * n + 2 := hindex 0
    rw [syncRound_eq, hindex, hindex, hindex, hzero, if_pos]
    exact ⟨heq, fun hlt => hwrap ((sub_lt_iff (by omega) hshort).mp hlt)⟩
  have hleaves := hwaits.returns hfirst hadvance (Nat.le_refl n)
    ((Loop.returns_inr hround).mpr rfl)
  have hlong := hwaits i _ hfirst (syncs_iff.mpr ⟨i, hfirst, hleaves⟩)
  exact absurd hadvance (Nat.not_lt.mpr hlong)

theorem NoWrap.waits {t : Timer} {k : ℕ} (hnowrap : NoWrap t k) : Waits t k := by
  intro i k' hfirst hsyncs
  obtain ⟨i', hfirst', hloop⟩ := syncs_iff.mp hsyncs
  obtain rfl := hfirst.unique hfirst'
  refine hloop.post (fun s => ∃ n, s = i + 3 * n + 2)
    (fun r => syncTicks.toNat ≤ t.advance i (r - 1)) ?_ ?_ ⟨0, rfl⟩
  · rintro s s' ⟨n, rfl⟩ hround
    exact ⟨n + 1, syncRound_inl hround⟩
  · rintro s r ⟨n, rfl⟩ hround
    obtain ⟨rfl, heq, hleaves⟩ := syncRound_inr hround
    by_contra hshort
    have hshort := Nat.lt_of_not_le hshort
    have hvalue : t.advance i (i + 3 * n + 3) < syncTicks.toNat :=
      Nat.lt_of_le_of_lt (t.advance_mono (by omega)) hshort
    have hle := hnowrap i n hfirst heq hshort
    exact hleaves ((sub_lt_iff (by omega) hvalue).mpr hle)

/-- The delay is long enough exactly if the counter is not read behind zero before it is. -/
theorem waits_iff (t : Timer) (k : ℕ) : Waits t k ↔ NoWrap t k := ⟨Waits.noWrap, NoWrap.waits⟩

/-- No value is torn, and the delay is long enough exactly if the counter is not read behind zero
before it is. -/
theorem timer_iff (t : Timer) (k : ℕ) : Untorn t ∧ Waits t k ↔ NoWrap t k := by
  rw [waits_iff]
  exact and_iff_right (untorn t)

/-- A counter at zero, with one tick between the first two calls of `sunxi_hstimer_read`. -/
def zeroTimer : Timer where
  swapIvhCvlSpace := false
  start := 0
  steps k := if k = 2 then 1 else 0
  steps_lt k := by
    split <;> decide

/-- The delay ends after one tick. -/
theorem not_waits : Syncs zeroTimer 0 6 ∧ ¬ (Untorn zeroTimer ∧ Waits zeroTimer 0) := by
  have hsyncs : Syncs zeroTimer 0 6 := ⟨1, by decide⟩
  have hfirst : FirstRead zeroTimer 0 1 := firstRead_here (by decide)
  refine ⟨hsyncs, ?_⟩
  rintro ⟨-, hwaits⟩
  have hlong := hwaits 1 6 hfirst hsyncs
  revert hlong
  decide

end Hstimer

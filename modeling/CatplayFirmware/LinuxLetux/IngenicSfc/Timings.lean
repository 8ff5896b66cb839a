import CatplayFirmware.Support.Bitfield
import Mathlib.Algebra.Ring.Int.Defs
import Mathlib.Data.Int.Notation

/-!
# Flash timings

The times that a flash needs are counted in half cycles of the clock of the controller, from a
period in whole nanoseconds, and are put into three fields of the device configuration. They are
put there without a mask: a time that takes too many cycles spills into the fields above its own.
-/

namespace IngenicSfc

def devConfThold : Bitfield := .genmask 12 11

def devConfTholdOffset : ℕ := 11

def devConfTsetup : Bitfield := .genmask 10 9

def devConfTsetupOffset : ℕ := 9

def devConfTsh : Bitfield := .genmask 8 5

def devConfTshOffset : ℕ := 5

/-- The half cycles that some nanoseconds take when a cycle takes `cycleNs`. -/
def halfCycles (cycleNs ns : ℕ) : ℤ :=
  let halfCycleNs := cycleNs / 2
  let up := halfCycleNs < ns % cycleNs
  let cycles := if up then ns / cycleNs + 1 else ns / cycleNs
  let remNs := if up then 0 else ns % cycleNs
  if cycles = 0 ∧ remNs = 0 then 0
  else 2 * cycles - 1 + if remNs = 0 then 0 else 1

/-- `ingenic_sfc_ns_to_devconf`, which divides by the rate and by the period. -/
def nsToDevconf (sfcClkHz : UInt32) (ns : ℕ) : Option ℤ :=
  if sfcClkHz = 0 then none
  else
    let cycleNs := 1000000000 / sfcClkHz.toNat
    if cycleNs = 0 then none else some (halfCycles cycleNs ns)

/-- The device configuration with three times put into it. -/
def putTimings (devConf : BitVec 32) (thold tsetup tsh : ℤ) : BitVec 32 :=
  let val := devConf &&&
    ~~~ (BitVec.ofNat 32 devConfThold.mask ||| BitVec.ofNat 32 devConfTsetup.mask |||
      BitVec.ofNat 32 devConfTsh.mask)
  let val := val ||| (BitVec.ofInt 32 thold <<< devConfTholdOffset)
  let val := val ||| (BitVec.ofInt 32 tsetup <<< devConfTsetupOffset)
  val ||| (BitVec.ofInt 32 tsh <<< devConfTshOffset)

/-- `ingenic_sfc_apply_timings`, with the device configuration that it writes; none if it divides
by zero. -/
def applyTimings (rate : UInt32) (devConf : BitVec 32) : Option (BitVec 32) := do
  let thold ← nsToDevconf rate 5
  let tsetup ← nsToDevconf rate 5
  let tsh ← nsToDevconf rate 20
  return putTimings devConf thold tsetup tsh

/-- The timings are applied, each fits its field, and no bit outside the fields is changed. -/
def Fits (rate : UInt32) (devConf : BitVec 32) : Prop :=
  ∃ thold tsetup tsh devConf',
    nsToDevconf rate 5 = some thold ∧ nsToDevconf rate 5 = some tsetup ∧
    nsToDevconf rate 20 = some tsh ∧
    (0 ≤ thold ∧ thold < 2 ^ devConfThold.width) ∧
    (0 ≤ tsetup ∧ tsetup < 2 ^ devConfTsetup.width) ∧
    (0 ≤ tsh ∧ tsh < 2 ^ devConfTsh.width) ∧
    applyTimings rate devConf = some devConf' ∧
    ∀ i, i < devConfTsh.lo ∨ devConfThold.lo + devConfThold.width ≤ i →
      devConf'.getLsbD i = devConf.getLsbD i

/-! ### Bits of a field -/

/-- A value that fits a field has no bits outside the field. -/
theorem getLsbD_shifted {t : ℤ} {width lo i : ℕ} (hnonneg : 0 ≤ t) (hfits : t < 2 ^ width)
    (hi : i < lo ∨ lo + width ≤ i) :
  (BitVec.ofInt 32 t <<< lo).getLsbD i = false
  := by
  obtain ⟨n, rfl⟩ := Int.eq_ofNat_of_zero_le hnonneg
  rw [BitVec.ofInt_natCast, BitVec.getLsbD_shiftLeft, BitVec.getLsbD_ofNat]
  rcases hi with hbelow | habove
  · simp [hbelow]
  · have hbit : n.testBit (i - lo) = false := by
      apply Nat.testBit_lt_two_pow
      apply Nat.lt_of_lt_of_le (m := 2 ^ width)
      · exact_mod_cast hfits
      · apply Nat.pow_le_pow_right (by decide)
        omega
    simp [hbit]

/-- The mask of a field has no bits outside the field. -/
theorem getLsbD_mask {f : Bitfield} {i : ℕ} (hi : i < f.lo ∨ f.lo + f.width ≤ i) :
  (BitVec.ofNat 32 f.mask).getLsbD i = false
  := by
  rw [BitVec.getLsbD_ofNat, Bitfield.mask, Nat.testBit_shiftLeft, Nat.testBit_two_pow_sub_one]
  rcases hi with hbelow | habove
  · have hlo : decide (f.lo ≤ i) = false := decide_eq_false (by omega)
    simp [hlo]
  · have hhi : decide (i - f.lo < f.width) = false := decide_eq_false (by omega)
    simp [hhi]

/-- Times that fit their fields change no bit outside the fields. -/
theorem getLsbD_putTimings (devConf : BitVec 32) {thold tsetup tsh : ℤ}
    (hthold : 0 ≤ thold ∧ thold < 2 ^ devConfThold.width)
    (htsetup : 0 ≤ tsetup ∧ tsetup < 2 ^ devConfTsetup.width)
    (htsh : 0 ≤ tsh ∧ tsh < 2 ^ devConfTsh.width) {i : ℕ}
    (hi : i < devConfTsh.lo ∨ devConfThold.lo + devConfThold.width ≤ i) :
  (putTimings devConf thold tsetup tsh).getLsbD i = devConf.getLsbD i
  := by
  have h11 : devConfThold.lo = 11 ∧ devConfThold.width = 2 := ⟨rfl, rfl⟩
  have h9 : devConfTsetup.lo = 9 ∧ devConfTsetup.width = 2 := ⟨rfl, rfl⟩
  have h5 : devConfTsh.lo = 5 ∧ devConfTsh.width = 4 := ⟨rfl, rfl⟩
  have hmask : (BitVec.ofNat 32 devConfThold.mask ||| BitVec.ofNat 32 devConfTsetup.mask |||
      BitVec.ofNat 32 devConfTsh.mask).getLsbD i = false := by
    rw [BitVec.getLsbD_or, BitVec.getLsbD_or, getLsbD_mask (by omega), getLsbD_mask (by omega),
      getLsbD_mask (by omega)]
    rfl
  have hone : (BitVec.ofInt 32 thold <<< devConfTholdOffset).getLsbD i = false :=
    getLsbD_shifted hthold.1 hthold.2 (by simp only [devConfTholdOffset]; omega)
  have htwo : (BitVec.ofInt 32 tsetup <<< devConfTsetupOffset).getLsbD i = false :=
    getLsbD_shifted htsetup.1 htsetup.2 (by simp only [devConfTsetupOffset]; omega)
  have hthree : (BitVec.ofInt 32 tsh <<< devConfTshOffset).getLsbD i = false :=
    getLsbD_shifted htsh.1 htsh.2 (by simp only [devConfTshOffset]; omega)
  rw [putTimings]
  simp only [BitVec.getLsbD_or, BitVec.getLsbD_and, BitVec.getLsbD_not, hmask, hone, htwo, hthree,
    Bool.or_false, Bool.not_false, Bool.and_true]
  by_cases hbit : i < 32
  · simp [hbit]
  · rw [BitVec.getLsbD_of_ge devConf i (by omega)]
    rfl

/-! ### Half cycles -/

/-- Less than half of a cycle takes no time. -/
theorem halfCycles_eq_zero {cycleNs ns : ℕ} (h : 2 * ns ≤ cycleNs) (hns : 0 < ns) :
  halfCycles cycleNs ns = 0
  := by
  have hdiv : ns / cycleNs = 0 := Nat.div_eq_of_lt (by omega)
  have hmod : ns % cycleNs = ns := Nat.mod_eq_of_lt (by omega)
  have hhalf : ¬ cycleNs / 2 < ns := by omega
  rw [halfCycles]
  simp only [hdiv, hmod, hhalf, if_false]
  simp [Nat.ne_of_gt hns]

/-- A period of three nanoseconds is long enough for the times to fit. -/
theorem halfCycles_fits {cycleNs : ℕ} (h : 3 ≤ cycleNs) :
  (0 ≤ halfCycles cycleNs 5 ∧ halfCycles cycleNs 5 < 4) ∧
    0 ≤ halfCycles cycleNs 20 ∧ halfCycles cycleNs 20 < 16
  := by
  rcases Nat.lt_or_ge cycleNs 40 with hshort | hlong
  · have hall : ∀ c < 40, 3 ≤ c → (0 ≤ halfCycles c 5 ∧ halfCycles c 5 < 4) ∧
        0 ≤ halfCycles c 20 ∧ halfCycles c 20 < 16 := by decide
    apply hall cycleNs hshort h
  · rw [halfCycles_eq_zero (by omega) (by decide), halfCycles_eq_zero hlong (by decide)]
    decide

/-- A period of one or two nanoseconds is too short. -/
theorem halfCycles_spills {cycleNs : ℕ} (hpos : cycleNs ≠ 0) (h : cycleNs < 3) :
  4 ≤ halfCycles cycleNs 5
  := by
  have hall : ∀ c < 3, c ≠ 0 → 4 ≤ halfCycles c 5 := by decide
  apply hall cycleNs h hpos

/-- The timings fit exactly up to a third of a gigahertz. -/
theorem fits_iff {rate : UInt32} (hrate : 0 < rate) (devConf : BitVec 32) :
  Fits rate devConf ↔ rate ≤ 333333333
  := by
  have hzero : rate ≠ 0 := by
    rintro rfl
    cases hrate
  have hpos : 0 < rate.toNat := by
    apply Nat.pos_of_ne_zero
    intro h
    apply hzero (UInt32.toNat_inj.mp h)
  have hthree : 3 ≤ 1000000000 / rate.toNat ↔ rate.toNat ≤ 333333333 := by
    rw [Nat.le_div_iff_mul_le hpos]
    omega
  have hle : rate ≤ 333333333 ↔ rate.toNat ≤ 333333333 := UInt32.le_iff_toNat_le
  rw [hle, ← hthree]
  constructor
  · rintro ⟨thold, tsetup, tsh, devConf', hthold, -, -, ⟨-, hfits⟩, -⟩
    by_contra hshort
    rw [nsToDevconf, if_neg hzero] at hthold
    simp only at hthold
    split at hthold
    · cases hthold
    · next hcycle =>
      have hspills := halfCycles_spills hcycle (Nat.not_le.mp hshort)
      rw [Option.some.inj hthold] at hspills
      have hwidth : (2 : ℤ) ^ devConfThold.width = 4 := rfl
      omega
  · intro hlong
    have hdevconf (ns : ℕ) :
        nsToDevconf rate ns = some (halfCycles (1000000000 / rate.toNat) ns) := by
      rw [nsToDevconf, if_neg hzero]
      exact if_neg (by omega)
    obtain ⟨hfive, htwenty⟩ := halfCycles_fits hlong
    have happly : applyTimings rate devConf = some (putTimings devConf
        (halfCycles (1000000000 / rate.toNat) 5) (halfCycles (1000000000 / rate.toNat) 5)
        (halfCycles (1000000000 / rate.toNat) 20)) := by
      rw [applyTimings, hdevconf, hdevconf]
      rfl
    exact ⟨_, _, _, _, hdevconf 5, hdevconf 5, hdevconf 20, hfive, hfive, htwenty, happly,
      fun i hi => getLsbD_putTimings devConf hfive hfive htwenty hi⟩

/-- At 200 MHz the timings fit. -/
theorem fits_200MHz : Fits 200000000 0 := (fits_iff (by decide) 0).mpr (by decide)

/-- At 400 MHz the hold time takes four half cycles, and the highest bit of it goes into the field
above. -/
theorem not_fits : ¬ ∀ (rate : UInt32) (devConf : BitVec 32), 0 < rate → Fits rate devConf := by
  intro h
  obtain ⟨thold, tsetup, tsh, devConf', hthold, -, -, ⟨-, hfits⟩, -⟩ := h 400000000 0 (by decide)
  have hfour : nsToDevconf 400000000 5 = some 4 := by decide
  rw [hfour] at hthold
  cases hthold
  revert hfits
  decide

end IngenicSfc

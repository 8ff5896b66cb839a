import CatplayFirmware.Support.Bitfield
import Mathlib.Data.UInt
import Mathlib.Algebra.Order.Ring.Nat
import Mathlib.Tactic.Ring

/-!
# The CPU and the L2 clock

The clocks of the CPU and of the L2 cache are divided from one parent, by two fields of one
register that are changed together. The words are of 32 bits. A rate is asked for, the divider is
the quotient rounded up, and the L2 cache runs at half the rate of the CPU above 750 MHz.
-/

namespace X1600

def cpuDivMask : UInt32 := 0xF

def l2DivMask : UInt32 := 0xF0

def changeEnable : UInt32 := (1 : UInt32) <<< 22

/-- `DIV_ROUND_UP`, whose sum may overflow; none by zero. -/
def divRoundUp (n d : UInt32) : Option UInt32 := if d = 0 then none else some ((n + d - 1) / d)

/-- `clamp(div, 1U, 16U)`. -/
def clampDiv (div : UInt32) : UInt32 := max 1 (min div 16)

/-- The divider of the CPU in the register. -/
def cpuDivOf (reg : UInt32) : UInt32 := (reg &&& cpuDivMask) + 1

/-- The divider of the L2 cache in the register. -/
def l2DivOf (reg : UInt32) : UInt32 := ((reg &&& l2DivMask) >>> 4) + 1

/-- `x1600_cpu_recalc_rate`. -/
def recalcRate (reg parentRate : UInt32) : UInt32 := parentRate / cpuDivOf reg

/-- `x1600_cpu_round_rate`; none if it divides by zero. -/
def roundRate (reqRate parentRate : UInt32) : Option UInt32 := do
  let div ← divRoundUp parentRate reqRate
  divRoundUp parentRate (clampDiv div)

/-- The dividers that `x1600_cpu_set_rate` chooses for the CPU and for the L2 cache. -/
def chooseDivs (reqRate parentRate : UInt32) : Option (UInt32 × UInt32) := do
  let div ← divRoundUp parentRate reqRate
  let cpuDiv := clampDiv div
  let l2Div := if reqRate ≤ 750000000 then cpuDiv else min (cpuDiv * 2) 16
  return (cpuDiv, l2Div)

/-- The values that are written to the register one after the other. -/
def regWrites (reg cpuDiv l2Div : UInt32) : Vector UInt32 3 :=
  let disabled := reg &&& ~~~ changeEnable
  let val := disabled &&& ~~~ (cpuDivMask ||| l2DivMask)
  let val := val ||| (cpuDiv - 1)
  let val := val ||| ((l2Div - 1) <<< 4)
  #v[disabled, val, val ||| changeEnable]

/-- `x1600_cpu_set_rate`: what is written to the register. It returns what the poll of the busy
bit behind the writes does. -/
def setRate (reg reqRate parentRate : UInt32) : Option (Vector UInt32 3) :=
  (chooseDivs reqRate parentRate).map fun (cpuDiv, l2Div) => regWrites reg cpuDiv l2Div

/-! ### What the clocks should do -/

/-- The divider for a rate: the quotient rounded up, but one at least and sixteen at most. -/
def divider (reqRate parentRate : ℕ) : ℕ := max 1 (min ((parentRate + reqRate - 1) / reqRate) 16)

/-- The rate of the L2 cache for the one of the CPU. -/
def l2Policy (cpuRate : ℕ) : ℕ := if 750000000 < cpuRate then cpuRate / 2 else cpuRate

/-- A call for a rate programs a divider of the CPU, with dividers that are legal and an L2 cache
that follows the policy and is not faster than the CPU. -/
def Programs (reg reqRate parentRate : UInt32) (div : ℕ) (reg' : UInt32) : Prop :=
  ∃ cpuDiv l2Div writes, chooseDivs reqRate parentRate = some (cpuDiv, l2Div) ∧
    setRate reg reqRate parentRate = some writes ∧ writes[2] = reg' ∧
    cpuDivOf reg' = cpuDiv ∧ l2DivOf reg' = l2Div ∧ cpuDiv.toNat = div ∧
    (1 ≤ cpuDiv ∧ cpuDiv ≤ 16) ∧ (1 ≤ l2Div ∧ l2Div ≤ 16) ∧
    parentRate / l2Div ≤ parentRate / cpuDiv ∧
    (parentRate / l2Div).toNat = l2Policy (recalcRate reg' parentRate).toNat

/-- A rate that is asked for is rounded to the one of its divider, both it and the rounded rate
program the divider, and the rounded rate is the one that the clock has afterwards. -/
def Consistent (reg reqRate parentRate : UInt32) : Prop :=
  ∃ rounded reg₁ reg₂, roundRate reqRate parentRate = some rounded ∧
    Programs reg reqRate parentRate (divider reqRate.toNat parentRate.toNat) reg₁ ∧
    Programs reg rounded parentRate (divider reqRate.toNat parentRate.toNat) reg₂ ∧
    recalcRate reg₂ parentRate = rounded

/-! ### Fields of the register -/

/-- A divider fits its field, and is not seen by the other one. -/
theorem divider_fields {div : UInt32} (h : 1 ≤ div ∧ div ≤ 16) :
  (div - 1) &&& cpuDivMask = div - 1 ∧ (div - 1) &&& l2DivMask = 0 ∧
    ((div - 1) <<< 4) &&& cpuDivMask = 0 ∧ (((div - 1) <<< 4) &&& l2DivMask) >>> 4 = div - 1
  := by
  have hall : ∀ d < 17, 1 ≤ d →
      (UInt32.ofNat d - 1) &&& cpuDivMask = UInt32.ofNat d - 1 ∧
      (UInt32.ofNat d - 1) &&& l2DivMask = 0 ∧
      ((UInt32.ofNat d - 1) <<< 4) &&& cpuDivMask = 0 ∧
      (((UInt32.ofNat d - 1) <<< 4) &&& l2DivMask) >>> 4 = UInt32.ofNat d - 1 := by decide
  have hone : 1 ≤ div.toNat := UInt32.le_iff_toNat_le.mp h.1
  have hsixteen : div.toNat ≤ 16 := UInt32.le_iff_toNat_le.mp h.2
  have hdiv := hall div.toNat (by omega) hone
  rwa [UInt32.ofNat_toNat] at hdiv

theorem or_and_distrib (a b c : UInt32) : (a ||| b) &&& c = a &&& c ||| b &&& c :=
  UInt32.toBitVec_inj.1 BitVec.and_or_distrib_right

/-- Legal dividers are read back from the register. -/
theorem divOf_regWrites (reg : UInt32) {cpuDiv l2Div : UInt32} (hcpu : 1 ≤ cpuDiv ∧ cpuDiv ≤ 16)
    (hl2 : 1 ≤ l2Div ∧ l2Div ≤ 16) :
  cpuDivOf (regWrites reg cpuDiv l2Div)[2] = cpuDiv ∧
    l2DivOf (regWrites reg cpuDiv l2Div)[2] = l2Div
  := by
  obtain ⟨hcpu0, hcpu1, -, -⟩ := divider_fields hcpu
  obtain ⟨-, -, hl20, hl21⟩ := divider_fields hl2
  have hclear (v : UInt32) : v &&& ~~~ (cpuDivMask ||| l2DivMask) &&& cpuDivMask = 0 ∧
      v &&& ~~~ (cpuDivMask ||| l2DivMask) &&& l2DivMask = 0 := by
    have hzero : ~~~ (cpuDivMask ||| l2DivMask) &&& cpuDivMask = 0 ∧
      ~~~ (cpuDivMask ||| l2DivMask) &&& l2DivMask = 0 := by decide
    rw [UInt32.and_assoc, UInt32.and_assoc, hzero.1, hzero.2]
    exact ⟨UInt32.and_zero, UInt32.and_zero⟩
  have henable : changeEnable &&& cpuDivMask = 0 ∧ changeEnable &&& l2DivMask = 0 := by decide
  constructor
  · simp only [cpuDivOf, regWrites, Vector.getElem_mk, List.getElem_toArray,
      List.getElem_cons_succ, List.getElem_cons_zero, or_and_distrib, (hclear _).1, hcpu0, hl20,
      henable.1, UInt32.zero_or, UInt32.or_zero]
    exact UInt32.sub_add_cancel _ _
  · simp only [l2DivOf, regWrites, Vector.getElem_mk, List.getElem_toArray,
      List.getElem_cons_succ, List.getElem_cons_zero, or_and_distrib, (hclear _).2, hcpu1,
      henable.2, UInt32.zero_or, UInt32.or_zero, hl21]
    exact UInt32.sub_add_cancel _ _

/-! ### Quotients -/

/-- A sum that overflows in `DIV_ROUND_UP` leaves a quotient of zero. -/
theorem divRoundUp_eq (n : UInt32) {d : UInt32} (hd : d ≠ 0) :
  ∃ q, divRoundUp n d = some q ∧
    q.toNat = if n.toNat + d.toNat ≤ 2 ^ 32 then (n.toNat + d.toNat - 1) / d.toNat else 0
  := by
  have hpos : 0 < d.toNat := by
    apply Nat.pos_of_ne_zero
    intro h
    apply hd (UInt32.toNat_inj.mp h)
  have hn := n.toNat_lt
  have hdlt := d.toNat_lt
  refine ⟨_, if_neg hd, ?_⟩
  have hsum : (n + d - 1).toNat = (2 ^ 32 - 1 + (n.toNat + d.toNat) % 2 ^ 32) % 2 ^ 32 := by
    rw [UInt32.toNat_sub, UInt32.toNat_add]
    rfl
  rw [UInt32.toNat_div, hsum]
  split
  · next hfits => rw [show (2 ^ 32 - 1 + (n.toNat + d.toNat) % 2 ^ 32) % 2 ^ 32 =
      n.toNat + d.toNat - 1 by omega]
  · next hover => exact Nat.div_eq_of_lt (by omega)

theorem toNat_max (a b : UInt32) : (max a b).toNat = max a.toNat b.toNat := by
  have hmax : max a b = if a ≤ b then b else a := rfl
  rw [hmax, max_def, apply_ite UInt32.toNat]
  rfl

theorem toNat_min (a b : UInt32) : (min a b).toNat = min a.toNat b.toNat := by
  have hmin : min a b = if a ≤ b then a else b := rfl
  rw [hmin, min_def, apply_ite UInt32.toNat]
  rfl

theorem toNat_clampDiv (div : UInt32) : (clampDiv div).toNat = max 1 (min div.toNat 16) := by
  rw [clampDiv, toNat_max, toNat_min]
  rfl

/-- The divider of the CPU that the code chooses: one if the sum overflows. -/
def chosen (reqRate parentRate : ℕ) : ℕ :=
  if parentRate + reqRate ≤ 2 ^ 32 then divider reqRate parentRate else 1

/-- The divider of the L2 cache that the code chooses. -/
def chosenL2 (reqRate cpuDiv : ℕ) : ℕ := if reqRate ≤ 750000000 then cpuDiv else min (cpuDiv * 2) 16

theorem chosen_bounds (reqRate parentRate : ℕ) :
  1 ≤ chosen reqRate parentRate ∧ chosen reqRate parentRate ≤ 16
  := by
  rw [chosen, divider]
  split <;> omega

theorem clampDiv_divRoundUp (parentRate : UInt32) {reqRate : UInt32} (hreq : reqRate ≠ 0) :
  ∃ q, divRoundUp parentRate reqRate = some q ∧
    (clampDiv q).toNat = chosen reqRate.toNat parentRate.toNat
  := by
  obtain ⟨q, hq, hval⟩ := divRoundUp_eq parentRate hreq
  refine ⟨q, hq, ?_⟩
  rw [toNat_clampDiv, hval, chosen, divider]
  split <;> rfl

/-- What is chosen for a rate. -/
theorem chooseDivs_eq (parentRate : UInt32) {reqRate : UInt32} (hreq : reqRate ≠ 0) :
  ∃ cpuDiv l2Div, chooseDivs reqRate parentRate = some (cpuDiv, l2Div) ∧
    cpuDiv.toNat = chosen reqRate.toNat parentRate.toNat ∧
    l2Div.toNat = chosenL2 reqRate.toNat (chosen reqRate.toNat parentRate.toNat)
  := by
  obtain ⟨q, hq, hval⟩ := clampDiv_divRoundUp parentRate hreq
  obtain ⟨hone, hsixteen⟩ := chosen_bounds reqRate.toNat parentRate.toNat
  refine ⟨clampDiv q, _, by rw [chooseDivs, hq]; rfl, hval, ?_⟩
  have hle : reqRate ≤ 750000000 ↔ reqRate.toNat ≤ 750000000 := UInt32.le_iff_toNat_le
  simp only [hle, chosenL2]
  split
  · exact hval
  · have hdouble : (clampDiv q * 2).toNat = chosen reqRate.toNat parentRate.toNat * 2 := by
      rw [UInt32.toNat_mul, hval]
      exact Nat.mod_eq_of_lt (show chosen reqRate.toNat parentRate.toNat * 2 < 2 ^ 32 by omega)
    rw [toNat_min, hdouble]
    rfl

/-- The rounded rate, from the divider that is chosen. -/
theorem roundRate_eq (parentRate : UInt32) {reqRate : UInt32} (hreq : reqRate ≠ 0) :
  ∃ rounded, roundRate reqRate parentRate = some rounded ∧
    rounded.toNat =
      if parentRate.toNat + chosen reqRate.toNat parentRate.toNat ≤ 2 ^ 32 then
        (parentRate.toNat + chosen reqRate.toNat parentRate.toNat - 1) /
          chosen reqRate.toNat parentRate.toNat
      else 0
  := by
  obtain ⟨q, hq, hval⟩ := clampDiv_divRoundUp parentRate hreq
  have hone := (chosen_bounds reqRate.toNat parentRate.toNat).1
  have hpos : clampDiv q ≠ 0 := by
    intro h
    rw [h] at hval
    exact absurd hval (by rw [UInt32.toNat_zero]; omega)
  obtain ⟨rounded, hrounded, hround⟩ := divRoundUp_eq parentRate hpos
  refine ⟨rounded, ?_, by rw [hround, hval]⟩
  rw [roundRate, hq]
  exact hrounded

/-! ### What is programmed -/

/-- What a call that programs a divider says about the rates. -/
theorem of_programs {reg reqRate parentRate reg' : UInt32} {div : ℕ}
    (h : Programs reg reqRate parentRate div reg') :
  chosen reqRate.toNat parentRate.toNat = div ∧
    (recalcRate reg' parentRate).toNat = parentRate.toNat / div ∧
    parentRate.toNat / chosenL2 reqRate.toNat div = l2Policy (parentRate.toNat / div)
  := by
  obtain ⟨cpuDiv, l2Div, writes, hchoose, -, -, hcpu, -, hdiv, -, -, -, hpolicy⟩ := h
  have hreq : reqRate ≠ 0 := by
    rintro rfl
    cases hchoose
  obtain ⟨cpuDiv', l2Div', hchoose', hcpuDiv, hl2Div⟩ := chooseDivs_eq parentRate hreq
  rw [hchoose] at hchoose'
  obtain ⟨rfl, rfl⟩ := Prod.mk.injEq _ _ _ _ ▸ Option.some.inj hchoose'
  have hrate : (recalcRate reg' parentRate).toNat = parentRate.toNat / div := by
    rw [recalcRate, hcpu, UInt32.toNat_div, hdiv]
  have hchosen : chosen reqRate.toNat parentRate.toNat = div := hcpuDiv.symm.trans hdiv
  rw [hrate, UInt32.toNat_div, hl2Div, hchosen] at hpolicy
  exact ⟨hchosen, hrate, hpolicy⟩

/-- A divider that is chosen and an L2 cache that follows the policy are programmed. -/
theorem programs_of (reg : UInt32) {reqRate parentRate : UInt32} {div : ℕ} (hreq : reqRate ≠ 0)
    (hchosen : chosen reqRate.toNat parentRate.toNat = div)
    (hpolicy : parentRate.toNat / chosenL2 reqRate.toNat div = l2Policy (parentRate.toNat / div)) :
  ∃ reg', Programs reg reqRate parentRate div reg' ∧
    (recalcRate reg' parentRate).toNat = parentRate.toNat / div
  := by
  obtain ⟨cpuDiv, l2Div, hchoose, hcpuDiv, hl2Div⟩ := chooseDivs_eq parentRate hreq
  obtain ⟨hone, hsixteen⟩ := chosen_bounds reqRate.toNat parentRate.toNat
  rw [hchosen] at hcpuDiv hl2Div hone hsixteen
  have hl2 : div ≤ l2Div.toNat ∧ l2Div.toNat ≤ 16 := by
    rw [hl2Div, chosenL2]
    split <;> omega
  have hcpuLegal : 1 ≤ cpuDiv ∧ cpuDiv ≤ 16 := by
    rw [UInt32.le_iff_toNat_le, UInt32.le_iff_toNat_le, hcpuDiv]
    exact ⟨hone, hsixteen⟩
  have hl2Legal : 1 ≤ l2Div ∧ l2Div ≤ 16 := by
    rw [UInt32.le_iff_toNat_le, UInt32.le_iff_toNat_le]
    exact ⟨hone.trans hl2.1, hl2.2⟩
  obtain ⟨hcpu, hl2Of⟩ := divOf_regWrites reg hcpuLegal hl2Legal
  have hset : setRate reg reqRate parentRate = some (regWrites reg cpuDiv l2Div) := by
    rw [setRate, hchoose]
    rfl
  have hrate : (recalcRate (regWrites reg cpuDiv l2Div)[2] parentRate).toNat =
      parentRate.toNat / div := by
    rw [recalcRate, hcpu, UInt32.toNat_div, hcpuDiv]
  have hslower : parentRate / l2Div ≤ parentRate / cpuDiv := by
    rw [UInt32.le_iff_toNat_le, UInt32.toNat_div, UInt32.toNat_div, hcpuDiv]
    exact Nat.div_le_div_left hl2.1 hone
  refine ⟨_, ⟨cpuDiv, l2Div, _, hchoose, hset, rfl, hcpu, hl2Of, hcpuDiv, hcpuLegal, hl2Legal,
    hslower, ?_⟩, hrate⟩
  rw [hrate, UInt32.toNat_div, hl2Div, hpolicy]

/-! ### Rates and dividers -/

section
variable {reqRate parentRate : ℕ}

theorem divider_bounds (reqRate parentRate : ℕ) :
  1 ≤ divider reqRate parentRate ∧ divider reqRate parentRate ≤ 16
  := by
  rw [divider]
  omega

/-- The divider is small for a fast rate. -/
theorem divider_le (hfast : 750000000 < reqRate) (hparent : parentRate < 2 ^ 32) :
  divider reqRate parentRate ≤ 6
  := by
  have hlt : (parentRate + reqRate - 1) / reqRate < 7 := by
    rw [Nat.div_lt_iff_lt_mul (by omega)]
    omega
  rw [divider]
  omega

/-- A slow rate makes a slow CPU. -/
theorem div_divider_le (hreq : 0 < reqRate) (hslow : reqRate ≤ 750000000)
    (hparent : parentRate < 2 ^ 32) :
  parentRate / divider reqRate parentRate ≤ 750000000
  := by
  have hpos := (divider_bounds reqRate parentRate).1
  apply Nat.div_le_of_le_mul
  rcases Nat.lt_or_ge 16 ((parentRate + reqRate - 1) / reqRate) with hclamped | hquotient
  · have hdivider : divider reqRate parentRate = 16 := by
      rw [divider]
      omega
    rw [hdivider]
    omega
  · have hmul : parentRate ≤ divider reqRate parentRate * reqRate := by
      have hlt : parentRate + reqRate - 1 < (divider reqRate parentRate + 1) * reqRate := by
        rw [← Nat.div_lt_iff_lt_mul hreq, divider]
        omega
      rw [Nat.add_mul, Nat.one_mul] at hlt
      omega
    exact hmul.trans (Nat.mul_le_mul_left _ hslow)

/-- The divider of a rate that divides the one of the parent. -/
theorem divider_div {div : ℕ} (hdiv : 1 ≤ div ∧ div ≤ 16) (hdvd : div ∣ parentRate)
    (hparent : 0 < parentRate) :
  divider (parentRate / div) parentRate = div
  := by
  obtain ⟨q, rfl⟩ := hdvd
  have hq : 0 < q := Nat.pos_of_mul_pos_left hparent
  have hquotient : (div * q + q - 1) / q = div := by
    rw [Nat.add_sub_assoc hq, Nat.mul_comm, Nat.mul_add_div hq, Nat.div_eq_of_lt (by omega),
      Nat.add_zero]
  rw [Nat.mul_div_cancel_left q (by omega), divider, hquotient]
  omega

/-- The L2 cache follows the policy for a slow rate. -/
theorem l2_slow {div : ℕ} (hslow : reqRate ≤ 750000000) (hrate : parentRate / div ≤ 750000000) :
  parentRate / chosenL2 reqRate div = l2Policy (parentRate / div)
  := by
  rw [chosenL2, if_pos hslow, l2Policy, if_neg (Nat.not_lt.mpr hrate)]

/-- The L2 cache follows the policy for a fast rate exactly if the CPU is fast. -/
theorem l2_fast_iff {div : ℕ} (hfast : 750000000 < reqRate) (hdiv : div ≤ 8)
    (hrate : 0 < parentRate / div) :
  parentRate / chosenL2 reqRate div = l2Policy (parentRate / div) ↔ 750000000 < parentRate / div
  := by
  have hhalf : parentRate / chosenL2 reqRate div = parentRate / div / 2 := by
    rw [chosenL2, if_neg (Nat.not_le.mpr hfast), Nat.min_eq_left (by omega), Nat.div_div_eq_div_mul]
  rw [hhalf, l2Policy]
  split
  · next hcpu => exact ⟨fun _ => hcpu, fun _ => rfl⟩
  · next hcpu =>
    constructor
    · intro h
      omega
    · intro h
      exact absurd h hcpu

/-- The code chooses the divider unless a sum overflows. -/
theorem chosen_eq_divider_iff :
  chosen reqRate parentRate = divider reqRate parentRate ↔
    divider reqRate parentRate = 1 ∨ parentRate + reqRate ≤ 2 ^ 32
  := by
  rw [chosen]
  split
  · next hfits => exact ⟨fun _ => .inr hfits, fun _ => rfl⟩
  · next hover =>
    constructor
    · exact fun h => .inl h.symm
    · rintro (hone | hfits)
      · exact hone.symm
      · exact absurd hfits hover

/-- Rounding up and rounding down agree for a divider exactly if it divides the rate. -/
theorem div_roundUp_iff {div : ℕ} (hdiv : 1 ≤ div) :
  (parentRate + div - 1) / div = parentRate / div ↔ div ∣ parentRate
  := by
  have hsum : parentRate + div - 1 = div * (parentRate / div) + (parentRate % div + (div - 1)) := by
    rw [← Nat.add_assoc, Nat.div_add_mod, Nat.add_sub_assoc hdiv]
  have hmod := Nat.mod_lt parentRate hdiv
  rw [hsum, Nat.mul_add_div hdiv, Nat.dvd_iff_mod_eq_zero]
  constructor
  · intro h
    by_contra hne
    have hcarry : 1 ≤ (parentRate % div + (div - 1)) / div := by
      rw [Nat.le_div_iff_mul_le hdiv]
      omega
    omega
  · intro h
    have hzero : (div - 1) / div = 0 := Nat.div_eq_of_lt (Nat.sub_lt hdiv Nat.one_pos)
    rw [h, Nat.zero_add, hzero, Nat.add_zero]

end

/-- The clocks are consistent exactly if the divider divides the rate of the parent, no sum
overflows, and a request above 750 MHz makes a CPU above 750 MHz. -/
theorem consistent_iff (reg : UInt32) {reqRate parentRate : UInt32} (hreq : 1 ≤ reqRate)
    (hparent : 256 ≤ parentRate) :
  Consistent reg reqRate parentRate ↔
    divider reqRate.toNat parentRate.toNat ∣ parentRate.toNat ∧
    (divider reqRate.toNat parentRate.toNat = 1 ∨
      (parentRate.toNat + reqRate.toNat ≤ 2 ^ 32 ∧
        parentRate.toNat + parentRate.toNat / divider reqRate.toNat parentRate.toNat ≤ 2 ^ 32)) ∧
    (750000000 < reqRate.toNat →
      750000000 < parentRate.toNat / divider reqRate.toNat parentRate.toNat)
  := by
  have hreq1 : 1 ≤ reqRate.toNat := UInt32.le_iff_toNat_le.mp hreq
  have hparent256 : 256 ≤ parentRate.toNat := UInt32.le_iff_toNat_le.mp hparent
  have hlt := parentRate.toNat_lt
  have hne : reqRate ≠ 0 := by
    rintro rfl
    exact absurd hreq1 (by decide)
  obtain ⟨hone, hsixteen⟩ := divider_bounds reqRate.toNat parentRate.toNat
  generalize hd : divider reqRate.toNat parentRate.toNat = div at *
  have hrate : 16 ≤ parentRate.toNat / div := by
    rw [Nat.le_div_iff_mul_le hone]
    omega
  have hrateLe : parentRate.toNat / div ≤ parentRate.toNat := Nat.div_le_self _ _
  obtain ⟨rounded, hrounded, hround⟩ := roundRate_eq parentRate hne
  have hchosen := @chosen_eq_divider_iff reqRate.toNat parentRate.toNat
  rw [hd] at hchosen
  constructor
  · rintro ⟨rounded', reg₁, reg₂, hrounded', hprograms₁, hprograms₂, hrecalc⟩
    cases hrounded.symm.trans hrounded'
    rw [hd] at hprograms₁ hprograms₂
    obtain ⟨hchosen₁, -, hpolicy⟩ := of_programs hprograms₁
    obtain ⟨hchosen₂, hrate₂, -⟩ := of_programs hprograms₂
    rw [hrecalc] at hrate₂
    rw [hchosen₁, hrate₂] at hround
    have hdvd : div ∣ parentRate.toNat := by
      split at hround
      · exact (div_roundUp_iff hone).mp hround.symm
      · omega
    have hdiv₂ := divider_div ⟨hone, hsixteen⟩ hdvd (by omega)
    have hrounds := @chosen_eq_divider_iff (parentRate.toNat / div) parentRate.toNat
    rw [hdiv₂] at hrounds
    rw [hrate₂] at hchosen₂
    refine ⟨hdvd, ?_, ?_⟩
    · rcases hchosen.mp hchosen₁ with hdiv | hfits₁
      · exact .inl hdiv
      · exact (hrounds.mp hchosen₂).imp_right fun hfits₂ => ⟨hfits₁, hfits₂⟩
    · intro hfast
      have hsix := divider_le hfast hlt
      rw [hd] at hsix
      exact (l2_fast_iff hfast (by omega) (by omega)).mp hpolicy
  · rintro ⟨hdvd, hfits, hfast⟩
    have hchosen₁ := hchosen.mpr (hfits.imp_right And.left)
    have hsum : parentRate.toNat + div ≤ 2 ^ 32 := by
      rcases hfits with hdiv | ⟨-, hfits₂⟩ <;> omega
    rw [hchosen₁, if_pos hsum, (div_roundUp_iff hone).mpr hdvd] at hround
    have hdiv₂ := divider_div ⟨hone, hsixteen⟩ hdvd (by omega)
    have hrounds := @chosen_eq_divider_iff (parentRate.toNat / div) parentRate.toNat
    rw [hdiv₂] at hrounds
    have hchosen₂ : chosen rounded.toNat parentRate.toNat = div := by
      rw [hround]
      exact hrounds.mpr (hfits.imp_right And.right)
    -- the policy tests the rate that is asked for
    have hpolicy₁ : parentRate.toNat / chosenL2 reqRate.toNat div =
        l2Policy (parentRate.toNat / div) := by
      rcases Nat.lt_or_ge 750000000 reqRate.toNat with hfast₁ | hslow
      · have hsix := divider_le hfast₁ hlt
        rw [hd] at hsix
        exact (l2_fast_iff hfast₁ (by omega) (by omega)).mpr (hfast hfast₁)
      · exact l2_slow hslow (hd ▸ div_divider_le hreq1 hslow hlt)
    have hpolicy₂ : parentRate.toNat / chosenL2 rounded.toNat div =
        l2Policy (parentRate.toNat / div) := by
      rw [hround]
      rcases Nat.lt_or_ge 750000000 (parentRate.toNat / div) with hfast₂ | hslow
      · have height : div ≤ 8 := by
          by_contra hnine
          have hmul := Nat.mul_le_mul (Nat.not_le.mp hnine) hfast₂.le
          have hle := Nat.mul_div_le parentRate.toNat div
          omega
        exact (l2_fast_iff hfast₂ height (by omega)).mpr hfast₂
      · exact l2_slow hslow hslow
    have hne₂ : rounded ≠ 0 := by
      rintro rfl
      rw [UInt32.toNat_zero] at hround
      omega
    obtain ⟨reg₁, hprograms₁, -⟩ := programs_of reg hne hchosen₁ hpolicy₁
    obtain ⟨reg₂, hprograms₂, hrate₂⟩ := programs_of reg hne₂ hchosen₂ hpolicy₂
    refine ⟨rounded, reg₁, reg₂, hrounded, ?_, ?_, ?_⟩
    · rw [hd]
      exact hprograms₁
    · rw [hd]
      exact hprograms₂
    · apply UInt32.toNat_inj.mp
      rw [hrate₂, hround]

/-- The CPU at half of 1.2 GHz. -/
theorem consistent_600MHz : Consistent 0 600000000 1200000000 :=
  (consistent_iff 0 (by decide) (by decide)).mpr (by decide)

/-- A request of 800 MHz under a parent of 1.2 GHz makes a CPU of 600 MHz, but its L2 cache runs
at 300 MHz. -/
theorem not_consistent :
  ¬ ∀ reg reqRate parentRate : UInt32, 1 ≤ reqRate → 256 ≤ parentRate →
    Consistent reg reqRate parentRate
  := by
  intro h
  obtain ⟨-, reg₁, -, -, hprograms, -⟩ := h 0 800000000 1200000000 (by decide) (by decide)
  obtain ⟨cpuDiv, l2Div, writes, hchoose, hset, hreg, -, -, -, -, -, -, hpolicy⟩ := hprograms
  have hchosen : chooseDivs 800000000 1200000000 = some (2, 4) := by decide
  have hwrites : setRate 0 800000000 1200000000 = some #v[0, 0x31, 0x400031] := by decide
  rw [hchosen] at hchoose
  rw [hwrites] at hset
  cases hchoose
  cases hset
  subst hreg
  revert hpolicy
  decide

end X1600

import Mathlib.Data.Nat.Bitwise
import Mathlib.Data.Nat.Notation
import Mathlib.Logic.Function.Iterate
import Mathlib.Tactic.Ring

/-!
# Cyclic redundancy checks, the highest bit first

A check of width `w` for a polynomial takes a message in bit by bit. A shift is linear over
exclusive or, so that a byte can be taken in at once, with a table of what the shifts make of the
bits that leave at the top.
-/

namespace MsbCrc

variable {w : ℕ} (poly : BitVec w)

/-- The check is shifted by one place, and reduced by the polynomial when a one leaves it. -/
def shift (crc : BitVec w) : BitVec w := if crc.msb then crc <<< 1 ^^^ poly else crc <<< 1

/-- A bit of the message is taken in. -/
def bit (crc : BitVec w) (b : Bool) : BitVec w :=
  if crc.msb ^^ b then crc <<< 1 ^^^ poly else crc <<< 1

/-- The steps for several bits, the first bit first. -/
def bits (crc : BitVec w) (bs : List Bool) : BitVec w := bs.foldl (bit poly) crc

/-- The lowest `n` bits of a number, the highest of them first. -/
def natBits : ℕ → ℕ → List Bool
  | 0, _ => []
  | n + 1, v => v.testBit n :: natBits n v

@[simp] theorem length_natBits (n v : ℕ) : (natBits n v).length = n := by
  induction n with
  | zero => rfl
  | succ n ih => rw [natBits, List.length_cons, ih]

/-- Steps after steps. -/
theorem bits_append (crc : BitVec w) (bs cs : List Bool) :
  bits poly crc (bs ++ cs) = bits poly (bits poly crc bs) cs
  := List.foldl_append

variable {poly}

/-! ### A shift is linear -/

/-- A step shifts, and subtracts the polynomial when the bit that leaves differs from the one that
comes. -/
theorem bit_eq (crc : BitVec w) (b : Bool) :
  bit poly crc b = crc <<< 1 ^^^ if crc.msb ^^ b then poly else 0#w
  := by
  rw [bit]
  split
  · rfl
  · rw [BitVec.xor_zero]

theorem ite_xor (b c : Bool) :
  (if b ^^ c then poly else 0#w) = (if b then poly else 0#w) ^^^ if c then poly else 0#w
  := by
  cases b <;> cases c <;> simp

theorem bit_false (crc : BitVec w) : bit poly crc false = shift poly crc := by
  rw [bit, shift, Bool.xor_false]

theorem shift_eq (crc : BitVec w) :
  shift poly crc = crc <<< 1 ^^^ if crc.msb then poly else 0#w
  := by
  rw [← bit_false, bit_eq, Bool.xor_false]

/-- A step is linear: what the state has and what comes may be added up apart. -/
theorem bit_xor (a c : BitVec w) (b : Bool) :
  bit poly (a ^^^ c) b = shift poly a ^^^ bit poly c b
  := by
  rw [← bit_false, bit_eq, bit_eq, bit_eq, BitVec.shiftLeft_xor_distrib, BitVec.msb_xor,
    Bool.xor_false, Bool.xor_assoc, ite_xor a.msb]
  ac_rfl

theorem shift_xor (a c : BitVec w) : shift poly (a ^^^ c) = shift poly a ^^^ shift poly c := by
  rw [← bit_false, bit_xor, bit_false]

/-- Shifting several times is linear. -/
theorem iterate_shift_xor (n : ℕ) (a c : BitVec w) :
  (shift poly)^[n] (a ^^^ c) = (shift poly)^[n] a ^^^ (shift poly)^[n] c
  := by
  induction n generalizing a c with
  | zero => rfl
  | succ n ih =>
      rw [Function.iterate_succ_apply, Function.iterate_succ_apply, Function.iterate_succ_apply,
        shift_xor, ih]

/-- What is in the check and what is taken in do not mix. -/
theorem bits_xor (a c : BitVec w) (bs : List Bool) :
  bits poly (a ^^^ c) bs = (shift poly)^[bs.length] a ^^^ bits poly c bs
  := by
  induction bs generalizing a c with
  | nil => rfl
  | cons b bs ih =>
      rw [bits, List.foldl_cons, bit_xor, ← bits, ih, List.length_cons,
        Function.iterate_succ_apply]
      rfl

/-! ### Numbers at the top -/

/-- While only zeros leave it, the check is only shifted. -/
theorem iterate_shift_of_lt {crc : BitVec w} {n : ℕ} (h : crc.toNat * 2 ^ n < 2 ^ w) :
  (shift poly)^[n] crc = crc <<< n
  := by
  induction n generalizing crc with
  | zero => rw [BitVec.shiftLeft_zero, Function.iterate_zero_apply]
  | succ n ih =>
      rw [Nat.pow_succ, Nat.mul_comm (2 ^ n), ← Nat.mul_assoc] at h
      have hdouble : crc.toNat * 2 < 2 ^ w :=
        Nat.lt_of_le_of_lt (Nat.le_mul_of_pos_right _ (Nat.two_pow_pos n)) h
      have hmsb : crc.msb = false := by
        rw [BitVec.msb_eq_false_iff_two_mul_lt, Nat.mul_comm]
        exact hdouble
      have hnext : (crc <<< 1).toNat * 2 ^ n < 2 ^ w := by
        rw [BitVec.toNat_shiftLeft, Nat.shiftLeft_eq, Nat.pow_one, Nat.mod_eq_of_lt hdouble]
        exact h
      rw [Function.iterate_succ_apply, shift, hmsb, if_neg Bool.false_ne_true, ih hnext,
        ← BitVec.shiftLeft_add, Nat.add_comm]

/-- A number of `n` bits at the top of the check. -/
def top (n v : ℕ) : BitVec w := BitVec.ofNat w (v % 2 ^ n * 2 ^ (w - n))

/-- Bits at the upper end of a word. -/
theorem toNat_top {n : ℕ} (h : n ≤ w) (v : ℕ) :
  (top n v : BitVec w).toNat = v % 2 ^ n * 2 ^ (w - n)
  := by
  rw [top, BitVec.toNat_ofNat]
  apply Nat.mod_eq_of_lt
  calc v % 2 ^ n * 2 ^ (w - n)
    _ < 2 ^ n * 2 ^ (w - n) :=
        Nat.mul_lt_mul_of_pos_right (Nat.mod_lt v (Nat.two_pow_pos n)) (Nat.two_pow_pos _)
    _ = 2 ^ w := by rw [← Nat.pow_add, Nat.add_sub_cancel' h]

/-- The highest bit of a number at the top leaves the check. -/
theorem shift_top {n : ℕ} (h : n < w) (v : ℕ) :
  shift poly (top (n + 1) v) = bit poly 0#w (v.testBit n) ^^^ top n v
  := by
  have hexp : w - n = w - (n + 1) + 1 := by omega
  have hsplit : v % 2 ^ (n + 1) * 2 ^ (w - (n + 1)) * 2 =
      v % 2 ^ n * 2 ^ (w - n) + (v.testBit n).toNat * 2 ^ w := by
    have hw : 2 ^ w = 2 ^ n * 2 ^ (w - n) := by rw [← Nat.pow_add, Nat.add_sub_cancel' (by omega)]
    have hmod : v % 2 ^ (n + 1) = v % 2 ^ n + 2 ^ n * (v.testBit n).toNat := by
      rw [Nat.mod_pow_succ, Nat.toNat_testBit]
    rw [hmod, hw, hexp, Nat.pow_succ]
    ring
  have hlow := (top n v : BitVec w).isLt
  have hnat := toNat_top h v
  rw [toNat_top (Nat.le_of_lt h)] at hlow
  have hshift : (top (n + 1) v : BitVec w) <<< 1 = top n v := by
    apply BitVec.eq_of_toNat_eq
    rw [BitVec.toNat_shiftLeft, Nat.shiftLeft_eq, Nat.pow_one, hnat, hsplit,
      toNat_top (Nat.le_of_lt h), Nat.add_mul_mod_self_right, Nat.mod_eq_of_lt hlow]
  have hmsb : (top (n + 1) v : BitVec w).msb = v.testBit n := by
    cases hbit : v.testBit n with
    | false =>
        rw [BitVec.msb_eq_false_iff_two_mul_lt, Nat.mul_comm, hnat, hsplit, hbit]
        simpa using hlow
    | true =>
        rw [BitVec.msb_eq_true_iff_two_mul_ge, Nat.mul_comm, hnat, hsplit, hbit]
        simp
  rw [shift_eq, hmsb, hshift, bit_eq]
  simp [BitVec.xor_comm]

/-- The bits of a number are taken in by shifts with the number at the top. -/
theorem bits_natBits {n : ℕ} (h : n ≤ w) (v : ℕ) :
  bits poly 0#w (natBits n v) = (shift poly)^[n] (top n v)
  := by
  induction n with
  | zero =>
      rw [top, Nat.pow_zero, Nat.mod_one, Nat.zero_mul]
      rfl
  | succ n ih =>
      have hfirst : bit poly 0#w (v.testBit n) = bit poly 0#w (v.testBit n) ^^^ 0#w :=
        (BitVec.xor_zero).symm
      rw [natBits, bits, List.foldl_cons, ← bits, hfirst, bits_xor, length_natBits,
        ih (Nat.le_of_lt h), ← iterate_shift_xor, ← shift_top h, Function.iterate_succ_apply]

/-! ### Several bits at once -/

/-- A check is the bits that leave it in `n` shifts and those that do not. -/
theorem split_eq {n : ℕ} (h : n ≤ w) (crc : BitVec w) :
  crc = (crc <<< n) >>> n ^^^ (crc >>> (w - n)) <<< (w - n)
  := by
  apply BitVec.eq_of_getLsbD_eq
  intro i hi
  rw [BitVec.getLsbD_xor, BitVec.getLsbD_ushiftRight, BitVec.getLsbD_shiftLeft,
    BitVec.getLsbD_shiftLeft, BitVec.getLsbD_ushiftRight]
  rcases Nat.lt_or_ge i (w - n) with hlow | hhigh
  · have hin : n + i < w := by omega
    simp [hin, hlow]
  · have hout : ¬ n + i < w := by omega
    have hsum : w - n + (i - (w - n)) = i := by omega
    have hnot : ¬ i < w - n := by omega
    simp [hout, hi, hnot, hsum]

/-- The bits that do not leave are only shifted. -/
theorem iterate_shift_low (n : ℕ) (crc : BitVec w) :
  (shift poly)^[n] ((crc <<< n) >>> n) = crc <<< n
  := by
  have hlt : ((crc <<< n) >>> n).toNat * 2 ^ n < 2 ^ w := by
    rw [BitVec.toNat_ushiftRight, Nat.shiftRight_eq_div_pow]
    exact Nat.lt_of_le_of_lt (Nat.div_mul_le_self _ _) (BitVec.isLt _)
  rw [iterate_shift_of_lt hlt]
  apply BitVec.eq_of_getLsbD_eq
  intro i hi
  rw [BitVec.getLsbD_shiftLeft, BitVec.getLsbD_ushiftRight, BitVec.getLsbD_shiftLeft,
    BitVec.getLsbD_shiftLeft]
  rcases Nat.lt_or_ge i n with hlow | hhigh
  · simp [hlow]
  · have hsum : n + (i - n) = i := by omega
    simp [hsum]

/-- What the shifts make of a number at the top, the entry of a table. -/
def entry (poly : BitVec w) (n : ℕ) (x : BitVec w) : BitVec w := (shift poly)^[n] (x <<< (w - n))

/-- A number of `n` bits is taken in by one shift of `n` places and one entry of the table. -/
theorem bits_natBits_eq_entry {n v : ℕ} (h : n ≤ w) (hv : v < 2 ^ n) (crc : BitVec w) :
  bits poly crc (natBits n v) =
    crc <<< n ^^^ entry poly n (crc >>> (w - n) ^^^ BitVec.ofNat w v)
  := by
  have htop : top n v = BitVec.ofNat w v <<< (w - n) := by
    apply BitVec.eq_of_toNat_eq
    rw [top, Nat.mod_eq_of_lt hv, BitVec.toNat_shiftLeft, BitVec.toNat_ofNat, BitVec.toNat_ofNat,
      Nat.shiftLeft_eq, Nat.mod_mul_mod]
  have hshifts : (shift poly)^[n] crc =
      crc <<< n ^^^ (shift poly)^[n] ((crc >>> (w - n)) <<< (w - n)) := by
    rw [← @iterate_shift_low w poly n crc, ← iterate_shift_xor, ← split_eq h crc]
  have hzero := @bits_xor w poly crc 0#w (natBits n v)
  rw [BitVec.xor_zero, length_natBits, bits_natBits h, htop] at hzero
  rw [hzero, hshifts, entry, BitVec.shiftLeft_xor_distrib, iterate_shift_xor, BitVec.xor_assoc]

end MsbCrc

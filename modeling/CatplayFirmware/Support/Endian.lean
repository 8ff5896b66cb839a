import CatplayFirmware.Support.Bytes
import Mathlib.Data.Nat.Notation
import Mathlib.Tactic.Ring

/-!
# Numbers as bytes

`leBytes k n` is the number `n` modulo `256 ^ k` in `k` bytes, the least significant first, and
`leNat bs` is the number that some bytes stand for. In `beBytes` and `beNat` the most significant
byte is the first.
-/

namespace Bytes

/-- The lowest `k` bytes of a number, the least significant first. -/
def leBytes : ℕ → ℕ → Bytes
  | 0, _ => []
  | k + 1, n => UInt8.ofNat n :: leBytes k (n / 256)

/-- The number that bytes stand for, the least significant first. -/
def leNat : Bytes → ℕ
  | [] => 0
  | b :: bs => b.toNat + 256 * leNat bs

@[simp] theorem length_leBytes (k n : ℕ) :
  (leBytes k n).length = k
  := by
  induction k generalizing n with
  | zero => rfl
  | succ k ih => rw [leBytes, List.length_cons, ih]

/-- Bytes are read back as the number that was written, if it fits. -/
theorem leNat_leBytes {k n : ℕ} (h : n < 256 ^ k) :
  leNat (leBytes k n) = n
  := by
  induction k generalizing n with
  | zero =>
      rw [Nat.pow_zero, Nat.lt_one_iff] at h
      rw [h]
      rfl
  | succ k ih =>
      have hdiv : n / 256 < 256 ^ k := by
        apply Nat.div_lt_of_lt_mul
        rwa [Nat.mul_comm, ← Nat.pow_succ]
      have hbyte : (UInt8.ofNat n).toNat = n % 256 := UInt8.toNat_ofNat'
      rw [leBytes, leNat, ih hdiv, hbyte, Nat.mod_add_div]

theorem leNat_lt (bs : Bytes) : leNat bs < 256 ^ bs.length := by
  induction bs with
  | nil => exact Nat.one_pos
  | cons b bs ih =>
      have hb := b.toNat_lt
      rw [leNat, List.length_cons, Nat.pow_succ]
      omega

theorem leNat_lt_of_length {bs : Bytes} {k : ℕ} (h : bs.length = k) : leNat bs < 256 ^ k := by
  rw [← h]
  apply leNat_lt

/-- The number that bytes stand for is written as the bytes. -/
theorem leBytes_leNat (bs : Bytes) :
  leBytes bs.length (leNat bs) = bs
  := by
  induction bs with
  | nil => rfl
  | cons b bs ih =>
      have hb := b.toNat_lt
      have hdiv : (b.toNat + 256 * leNat bs) / 256 = leNat bs := by omega
      have hbyte : UInt8.ofNat (b.toNat + 256 * leNat bs) = b := by
        rw [← UInt8.toNat_inj, UInt8.toNat_ofNat']
        omega
      rw [List.length_cons, leNat, leBytes, hdiv, ih, hbyte]

/-- The bytes of a number are its lowest bytes and those of what is left of it. -/
theorem leBytes_add (k m n : ℕ) :
  leBytes (k + m) n = leBytes k n ++ leBytes m (n / 256 ^ k)
  := by
  induction k generalizing n with
  | zero => rw [Nat.zero_add, Nat.pow_zero, Nat.div_one, leBytes, List.nil_append]
  | succ k ih =>
      rw [Nat.add_right_comm, leBytes, ih, leBytes, Nat.div_div_eq_div_mul, List.cons_append,
        Nat.pow_succ, Nat.mul_comm (256 ^ k)]

/-- Only a number modulo `256 ^ k` is written. -/
theorem leBytes_mod (k n : ℕ) : leBytes k (n % 256 ^ k) = leBytes k n := by
  induction k generalizing n with
  | zero => rfl
  | succ k ih =>
      have hbyte : UInt8.ofNat (n % 256 ^ (k + 1)) = UInt8.ofNat n := by
        rw [← UInt8.toNat_inj, UInt8.toNat_ofNat', UInt8.toNat_ofNat', Nat.pow_succ,
          Nat.mod_mod_of_dvd]
        apply Nat.dvd_mul_left
      have hdiv : n % 256 ^ (k + 1) / 256 = n / 256 % 256 ^ k := by
        rw [Nat.pow_succ, Nat.mod_mul_left_div_self]
      rw [leBytes, leBytes, hbyte, hdiv, ih]

/-- The lowest `k` bytes of a number, the most significant first. -/
def beBytes (k n : ℕ) : Bytes := (leBytes k n).reverse

/-- The number that bytes stand for, the most significant first. -/
def beNat (bs : Bytes) : ℕ := leNat bs.reverse

@[simp] theorem length_beBytes (k n : ℕ) : (beBytes k n).length = k := by
  rw [beBytes, List.length_reverse, length_leBytes]

theorem beNat_beBytes {k n : ℕ} (h : n < 256 ^ k) : beNat (beBytes k n) = n := by
  rw [beNat, beBytes, List.reverse_reverse, leNat_leBytes h]

theorem beBytes_beNat (bs : Bytes) : beBytes bs.length (beNat bs) = bs := by
  rw [beBytes, beNat, ← List.length_reverse, leBytes_leNat, List.reverse_reverse]

theorem beBytes_add (k m n : ℕ) :
  beBytes (m + k) n = beBytes m (n / 256 ^ k) ++ beBytes k n
  := by
  rw [beBytes, beBytes, beBytes, Nat.add_comm, leBytes_add, List.reverse_append]

theorem beBytes_mod (k n : ℕ) : beBytes k (n % 256 ^ k) = beBytes k n := by
  rw [beBytes, leBytes_mod, beBytes]

end Bytes

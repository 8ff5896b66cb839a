import CatplayFirmware.Otalib.Mini.Crc
import CatplayFirmware.Support.MsbCrc
import Mathlib.Data.Nat.Digits.Defs
import Mathlib.Data.UInt

/-!
# The checksum bit by bit

`cksumCrc32` takes the bytes of a section and of its length in with a table. It is the check of
POSIX: the bits of the same bytes, one by one.
-/

namespace Crc

open Bytes

/-- The bytes of a length, the lowest first, without the zeros at the end. -/
def lengthBytes (n : ℕ) : Bytes := (Nat.digits 256 n).map UInt8.ofNat

/-- The bits of bytes, the highest bit of each first. -/
def messageBits (bytes : Bytes) : List Bool := bytes.flatMap fun b => MsbCrc.natBits 8 b.toNat

/-- The check of POSIX without its last complement, bit by bit. -/
def posixCksum (data : Bytes) : BitVec 32 :=
  MsbCrc.bits 0x04C11DB7 0 (messageBits (data ++ lengthBytes data.length))

/-! ### One byte -/

/-- The highest bit of a number is tested by a mask. -/
theorem and_highest (crc : UInt32) : crc &&& 0x80000000 ≠ 0 ↔ crc.toBitVec.msb := by
  have hmask : (crc &&& 0x80000000).toNat = (crc.toNat.testBit 31).toNat * 2 ^ 31 := by
    rw [UInt32.toNat_and, ← Nat.and_two_pow]
    rfl
  have hmsb : crc.toBitVec.msb = crc.toNat.testBit 31 := BitVec.msb_eq_getLsbD_last _
  rw [hmsb, Ne, ← UInt32.toNat_inj, hmask]
  cases crc.toNat.testBit 31 <;> decide

theorem toBitVec_cksumBit (crc : UInt32) :
  (cksumBit crc).toBitVec = MsbCrc.shift poly.toBitVec crc.toBitVec
  := by
  have hshift : (crc <<< 1).toBitVec = crc.toBitVec <<< 1 := by
    rw [UInt32.toBitVec_shiftLeft]
    rfl
  rw [cksumBit, MsbCrc.shift]
  by_cases hmsb : crc.toBitVec.msb
  · rw [if_pos ((and_highest crc).mpr hmsb), if_pos hmsb, UInt32.toBitVec_xor, hshift]
  · rw [if_neg fun h => hmsb ((and_highest crc).mp h), if_neg hmsb, hshift]

theorem toBitVec_iterate_cksumBit (n : ℕ) (crc : UInt32) :
  (cksumBit^[n] crc).toBitVec = (MsbCrc.shift poly.toBitVec)^[n] crc.toBitVec
  := by
  induction n generalizing crc with
  | zero => rfl
  | succ n ih =>
      rw [Function.iterate_succ_apply, Function.iterate_succ_apply, ih, toBitVec_cksumBit]

theorem toBitVec_update {crc idx : UInt32} (h : idx.toNat < 256) :
  (update crc idx).toBitVec = crc.toBitVec <<< 8 ^^^ MsbCrc.entry poly.toBitVec 8 idx.toBitVec
  := by
  have hcrc : (crc <<< 8).toBitVec = crc.toBitVec <<< 8 := by
    rw [UInt32.toBitVec_shiftLeft]
    rfl
  have hidx : (idx <<< 24).toBitVec = idx.toBitVec <<< (32 - 8) := by
    rw [UInt32.toBitVec_shiftLeft]
    rfl
  rw [update, cksumTable, Vector.getElem?_ofFn, dif_pos h, Option.getD_some, UInt32.toBitVec_xor,
    toBitVec_iterate_cksumBit, MsbCrc.entry, UInt32.ofNat_toNat, hcrc, hidx]

/-- A byte is taken in. -/
def feed (crc : UInt32) (b : UInt8) : UInt32 := update crc ((crc >>> 24) ^^^ b.toUInt32)

/-- What selects the entry of the table is a byte. -/
theorem index_lt (crc : UInt32) (b : UInt8) : ((crc >>> 24) ^^^ b.toUInt32).toNat < 256 := by
  have hcrc : (crc >>> 24).toNat < 2 ^ 8 := by
    have hlt := crc.toNat_lt
    have hshift : (crc >>> 24).toNat = crc.toNat / 2 ^ 24 := by
      rw [UInt32.toNat_shiftRight, Nat.shiftRight_eq_div_pow]
      rfl
    omega
  have hb : b.toUInt32.toNat < 2 ^ 8 := b.toNat_lt
  rw [UInt32.toNat_xor]
  exact Nat.xor_lt_two_pow hcrc hb

theorem index_and (crc : UInt32) (b : UInt8) :
  ((crc >>> 24) ^^^ b.toUInt32) &&& (0xFF : UInt32) = (crc >>> 24) ^^^ b.toUInt32
  := by
  apply UInt32.toNat_inj.mp
  rw [UInt32.toNat_and]
  exact Nat.and_two_pow_sub_one_of_lt_two_pow (n := 8) (index_lt crc b)

theorem toBitVec_feed (crc : UInt32) (b : UInt8) :
  (feed crc b).toBitVec = MsbCrc.bits poly.toBitVec crc.toBitVec (MsbCrc.natBits 8 b.toNat)
  := by
  have hcrc : (crc >>> 24).toBitVec = crc.toBitVec >>> (32 - 8) := by
    rw [UInt32.toBitVec_shiftRight]
    rfl
  have hb : b.toUInt32.toBitVec = BitVec.ofNat 32 b.toNat := by
    apply BitVec.eq_of_toNat_eq
    have hlt := b.toNat_lt
    rw [BitVec.toNat_ofNat, Nat.mod_eq_of_lt (by omega)]
    rfl
  rw [feed, toBitVec_update (index_lt crc b), UInt32.toBitVec_xor, hcrc, hb,
    MsbCrc.bits_natBits_eq_entry (by omega) b.toNat_lt]

/-! ### All bytes -/

theorem toBitVec_foldl_feed (crc : UInt32) (bytes : Bytes) :
  (bytes.foldl feed crc).toBitVec =
    MsbCrc.bits poly.toBitVec crc.toBitVec (messageBits bytes)
  := by
  induction bytes generalizing crc with
  | nil => rfl
  | cons b bytes ih =>
      have hbits : messageBits (b :: bytes) = MsbCrc.natBits 8 b.toNat ++ messageBits bytes :=
        List.flatMap_cons
      rw [List.foldl_cons, ih, toBitVec_feed, hbits, MsbCrc.bits_append]

/-- Four bytes a round or one, the data are taken in byte by byte. -/
theorem cksumData_eq_foldl (crc : UInt32) (data : Bytes) :
  cksumData crc data = data.foldl feed crc
  := by
  fun_induction cksumData crc data with
  | case1 crc a b c d rest crc₁ crc₂ crc₃ crc₄ ih =>
      rw [ih, List.foldl_cons, List.foldl_cons, List.foldl_cons, List.foldl_cons]
      rfl
  | case2 crc rest hshort =>
      congr 1
      funext crc b
      rw [index_and, feed]

/-- The bytes of the length are taken in after the data. -/
theorem cksumLen_eq_foldl {rounds n : ℕ} (hrounds : rounds ≤ 4) (h : n < 256 ^ rounds)
    (crc : UInt32) :
  cksumLen rounds crc (UInt32.ofNat n) = (lengthBytes n).foldl feed crc
  := by
  induction rounds generalizing n crc with
  | zero =>
      rw [Nat.pow_zero, Nat.lt_one_iff] at h
      subst h
      rfl
  | succ rounds ih =>
      have hlt : n < 2 ^ 32 := by
        apply Nat.lt_of_lt_of_le h
        exact Nat.pow_le_pow_right (n := 256) (by omega) hrounds
      have hnat : (UInt32.ofNat n).toNat = n := UInt32.toNat_ofNat_of_lt' hlt
      rw [cksumLen]
      rcases Nat.eq_zero_or_pos n with rfl | hpos
      · rfl
      · have hne : UInt32.ofNat n ≠ 0 := by
          rw [Ne, ← UInt32.toNat_inj, hnat]
          exact Nat.ne_of_gt hpos
        have hbyte : UInt32.ofNat n &&& (0xFF : UInt32) = (UInt8.ofNat (n % 256)).toUInt32 := by
          apply UInt32.toNat_inj.mp
          rw [UInt32.toNat_and, hnat, UInt8.toNat_toUInt32, UInt8.toNat_ofNat', Nat.mod_mod]
          exact Nat.and_two_pow_sub_one_eq_mod n 8
        have hshift : UInt32.ofNat n >>> 8 = UInt32.ofNat (n / 256) := by
          apply UInt32.toNat_inj.mp
          have hless : n / 256 < UInt32.size := Nat.lt_of_le_of_lt (Nat.div_le_self n 256) hlt
          rw [UInt32.toNat_shiftRight, hnat, UInt32.toNat_ofNat_of_lt' hless,
            Nat.shiftRight_eq_div_pow]
          rfl
        have hdiv : n / 256 < 256 ^ rounds := by
          apply Nat.div_lt_of_lt_mul
          rwa [Nat.mul_comm, ← Nat.pow_succ]
        rw [if_neg hne, hbyte, index_and, hshift, ih (by omega) hdiv, lengthBytes, lengthBytes,
          Nat.digits_def' (by omega) hpos, List.map_cons, List.foldl_cons]
        rfl

/-- The checksum is that of POSIX, bit by bit. -/
theorem cksumCrc32_eq_posix {data : Bytes} (h : data.length < 2 ^ 32) :
  (cksumCrc32 data).toBitVec = posixCksum data
  := by
  have hlen : data.length < 256 ^ 4 := h
  rw [cksumCrc32, cksumData_eq_foldl, cksumLen_eq_foldl (Nat.le_refl 4) hlen, ← List.foldl_append,
    toBitVec_foldl_feed]
  rfl

/-- The digits from one to nine. -/
theorem cksumCrc32_digits : (cksumCrc32 (ascii "123456789")).toBitVec = 0xC8859FEE := by
  rw [cksumCrc32_eq_posix (by decide)]
  decide +kernel

end Crc

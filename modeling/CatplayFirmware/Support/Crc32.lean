import CatplayFirmware.Support.Endian
import Mathlib.Logic.Function.Iterate

/-!
# The checksum CRC-32

A hasher takes bytes in pieces and gives a checksum of 32 bits, that of the pieces put
together. The one of IEEE 802.3 is the checksum of gzip. It tells two messages apart that differ
inside a window of four bytes only.
-/

/-- A hasher with checksums of 32 bits. -/
structure Crc32Hasher where
  State : Type
  new : State
  update : State → Bytes → State
  finalize : State → UInt32
  update_update : ∀ state a b,
    finalize (update (update state a) b) = finalize (update state (a ++ b))

namespace Crc32Hasher

open Bytes

/-- The checksum of some bytes. -/
def crc32 (hasher : Crc32Hasher) (data : Bytes) : UInt32 :=
  hasher.finalize (hasher.update hasher.new data)

/-- One bit of a byte, the lowest first. -/
def bit (crc : UInt32) : UInt32 :=
  if crc &&& 1 = 0 then crc >>> 1 else (crc >>> 1) ^^^ 0xEDB88320

def byte (crc : UInt32) (b : UInt8) : UInt32 := bit^[8] (crc ^^^ b.toUInt32)

/-- The hasher of IEEE 802.3. -/
def ieee : Crc32Hasher where
  State := UInt32
  new := 0xFFFFFFFF
  update state data := data.foldl byte state
  finalize state := ~~~state
  update_update state a b := by rw [List.foldl_append]

example : ieee.crc32 [0x31, 0x32, 0x33, 0x34, 0x35, 0x36, 0x37, 0x38, 0x39] = 0xCBF43926 := by
  decide +kernel

/-! ### Errors in a message -/

theorem bit_toNat (crc : UInt32) :
  (bit crc).toNat = if crc.toNat % 2 = 0 then crc.toNat / 2 else crc.toNat / 2 ^^^ 0xEDB88320
  := by
  have hlow : (crc &&& 1 = 0) ↔ crc.toNat % 2 = 0 := by
    rw [← UInt32.toNat_inj, UInt32.toNat_and]
    change crc.toNat &&& 1 = 0 ↔ _
    rw [Nat.and_one_is_mod]
  have hshift : (crc >>> 1).toNat = crc.toNat / 2 := by
    rw [UInt32.toNat_shiftRight]
    exact Nat.shiftRight_eq_div_pow _ 1
  rw [bit]
  split
  · next h => rw [if_pos (hlow.mp h), hshift]
  · next h =>
    rw [if_neg (fun h' => h (hlow.mpr h')), UInt32.toNat_xor, hshift]
    rfl

theorem xor_cancel_right {m n p : ℕ} (h : m ^^^ p = n ^^^ p) : m = n := by
  have hxor : m ^^^ p ^^^ p = n ^^^ p ^^^ p := by rw [h]
  rwa [Nat.xor_assoc, Nat.xor_assoc, Nat.xor_self, Nat.xor_zero, Nat.xor_zero] at hxor

/-- A state can be told from the state one bit on: the bit that left it decides the highest bit. -/
theorem bit_injective : Function.Injective bit := by
  intro a b h
  have hnat : (bit a).toNat = (bit b).toNat := congrArg UInt32.toNat h
  have ha : a.toNat / 2 < 2 ^ 31 := by
    have := a.toNat_lt
    omega
  have hb : b.toNat / 2 < 2 ^ 31 := by
    have := b.toNat_lt
    omega
  have hpoly : ∀ {m n : ℕ}, m < 2 ^ 31 → n < 2 ^ 31 → m ^^^ 0xEDB88320 ≠ n := by
    intro m n hm hn heq
    have hxor := Nat.xor_lt_two_pow hm hn
    rw [← heq, ← Nat.xor_assoc, Nat.xor_self, Nat.zero_xor] at hxor
    omega
  rw [bit_toNat, bit_toNat] at hnat
  apply UInt32.toNat_inj.mp
  split at hnat <;> split at hnat
  · omega
  · exact absurd hnat.symm (hpoly hb ha)
  · exact absurd hnat (hpoly ha hb)
  · have hhalf := xor_cancel_right hnat
    omega

/-- Numbers with no bit in common are put together. -/
theorem mul_xor_eq_add {k m n : ℕ} (h : n < 2 ^ k) : 2 ^ k * m ^^^ n = n + 2 ^ k * m := by
  have hdiv : (2 ^ k * m ^^^ n) / 2 ^ k = m := by
    rw [Nat.xor_div_two_pow, Nat.mul_div_cancel_left m (Nat.two_pow_pos k), Nat.div_eq_of_lt h,
      Nat.xor_zero]
  have hmod : (2 ^ k * m ^^^ n) % 2 ^ k = n := by
    rw [Nat.xor_mod_two_pow, Nat.mul_mod_right, Nat.zero_xor, Nat.mod_eq_of_lt h]
  rw [← Nat.mod_add_div (2 ^ k * m ^^^ n) (2 ^ k), hdiv, hmod]

theorem toNat_xor_ofNat (crc : UInt32) {n : ℕ} (h : n < 2 ^ 32) :
  (crc ^^^ UInt32.ofNat n).toNat = crc.toNat ^^^ n
  := by
  rw [UInt32.toNat_xor, UInt32.toNat_ofNat', Nat.mod_eq_of_lt h]

/-- What is added to a state above its lowest bit is added to the next state one place lower. -/
theorem bit_xor (crc : UInt32) {n : ℕ} (h : 2 * n < 2 ^ 32) :
  bit (crc ^^^ UInt32.ofNat (2 * n)) = bit crc ^^^ UInt32.ofNat n
  := by
  have hmod : (crc.toNat ^^^ 2 * n) % 2 = crc.toNat % 2 := by
    have hpow := @Nat.xor_mod_two_pow crc.toNat (2 * n) 1
    rw [Nat.pow_one, Nat.mul_mod_right, Nat.xor_zero] at hpow
    exact hpow
  have hdiv : (crc.toNat ^^^ 2 * n) / 2 = crc.toNat / 2 ^^^ n := by
    have hpow := @Nat.xor_div_two_pow crc.toNat (2 * n) 1
    rw [Nat.pow_one, Nat.mul_div_cancel_left n Nat.two_pos] at hpow
    exact hpow
  apply UInt32.toNat_inj.mp
  rw [toNat_xor_ofNat _ (by omega), bit_toNat, bit_toNat, toNat_xor_ofNat _ h, hmod, hdiv]
  split
  · rfl
  · rw [Nat.xor_assoc, Nat.xor_assoc, Nat.xor_comm n]

theorem iterate_bit_xor (k : ℕ) (crc : UInt32) {n : ℕ} (h : 2 ^ k * n < 2 ^ 32) :
  bit^[k] (crc ^^^ UInt32.ofNat (2 ^ k * n)) = bit^[k] crc ^^^ UInt32.ofNat n
  := by
  induction k generalizing crc with
  | zero => rw [Nat.pow_zero, Nat.one_mul, Function.iterate_zero_apply, Function.iterate_zero_apply]
  | succ k ih =>
      rw [Nat.pow_succ', Nat.mul_assoc] at h ⊢
      rw [Function.iterate_succ_apply, bit_xor crc h, ih _ (by omega), Function.iterate_succ_apply]

/-- Up to four bytes are worked in at once. -/
theorem foldl_byte_eq (crc : UInt32) {bs : Bytes} (h : bs.length ≤ 4) :
  bs.foldl byte crc = bit^[8 * bs.length] (crc ^^^ UInt32.ofNat (leNat bs))
  := by
  induction bs generalizing crc with
  | nil =>
      rw [List.foldl_nil, List.length_nil, Nat.mul_zero, Function.iterate_zero_apply, leNat]
      exact (UInt32.xor_zero).symm
  | cons b bs ih =>
      rw [List.length_cons] at h
      have hlt : 2 ^ 8 * leNat bs < 2 ^ 32 := by
        have hbs := leNat_lt bs
        have hpow := Nat.pow_le_pow_right (n := 256) (by decide) (Nat.le_of_succ_le_succ h)
        omega
      have hb := b.toNat_lt
      have hadd : b.toUInt32 ^^^ UInt32.ofNat (2 ^ 8 * leNat bs) =
          UInt32.ofNat (b.toNat + 256 * leNat bs) := by
        apply UInt32.toNat_inj.mp
        rw [toNat_xor_ofNat _ hlt, UInt8.toNat_toUInt32, UInt32.toNat_ofNat',
          Nat.mod_eq_of_lt (by omega), Nat.xor_comm]
        exact mul_xor_eq_add hb
      rw [List.foldl_cons, ih _ (Nat.le_of_succ_le h), byte, ← iterate_bit_xor 8 _ hlt,
        UInt32.xor_assoc, hadd, List.length_cons, Nat.mul_succ, Function.iterate_add_apply, leNat]

/-- Two windows of up to four bytes leave the same state only if they are the same. -/
theorem foldl_byte_injective {crc : UInt32} {bs bs' : Bytes} (hlen : bs.length = bs'.length)
    (h : bs.length ≤ 4) (heq : bs.foldl byte crc = bs'.foldl byte crc) :
  bs = bs'
  := by
  have hlt : leNat bs < 2 ^ 32 :=
    Nat.lt_of_lt_of_le (leNat_lt bs) (Nat.pow_le_pow_right (n := 256) (by decide) h)
  have hlt' : leNat bs' < 2 ^ 32 :=
    Nat.lt_of_lt_of_le (leNat_lt bs') (Nat.pow_le_pow_right (n := 256) (by decide) (hlen ▸ h))
  rw [foldl_byte_eq _ h, foldl_byte_eq _ (hlen ▸ h), hlen] at heq
  have hxor := (UInt32.xor_right_inj crc).mp ((bit_injective.iterate _) heq)
  have hnat : leNat bs = leNat bs' := by
    have htoNat := congrArg UInt32.toNat hxor
    rwa [UInt32.toNat_ofNat', UInt32.toNat_ofNat', Nat.mod_eq_of_lt hlt, Nat.mod_eq_of_lt hlt']
      at htoNat
  rw [← leBytes_leNat bs, ← leBytes_leNat bs', hlen, hnat]

theorem byte_injective (b : UInt8) : Function.Injective (byte · b) := by
  intro crc crc' h
  exact (UInt32.xor_left_inj b.toUInt32).mp ((bit_injective.iterate 8) h)

theorem foldl_byte_left_injective (bs : Bytes) : Function.Injective (bs.foldl byte) := by
  induction bs with
  | nil => exact fun _ _ h => h
  | cons b bs ih => exact ih.comp (byte_injective b)

/-- A checksum tells two messages apart that differ inside a window of four bytes only. -/
theorem window_eq_of_crc32_eq {front window window' back : Bytes}
    (hlen : window.length = window'.length) (h : window.length ≤ 4)
    (heq : ieee.crc32 (front ++ (window ++ back)) = ieee.crc32 (front ++ (window' ++ back))) :
  window = window'
  := by
  have hstate : (front ++ (window ++ back)).foldl byte 0xFFFFFFFF =
      (front ++ (window' ++ back)).foldl byte 0xFFFFFFFF := UInt32.not_inj.mp heq
  rw [List.foldl_append, List.foldl_append, List.foldl_append, List.foldl_append] at hstate
  exact foldl_byte_injective hlen h (foldl_byte_left_injective back hstate)

/-- Two messages of one length that are the same outside of a window of four bytes, and have one
checksum, are the same. -/
theorem eq_of_crc32_eq {xs ys : Bytes} {off : ℕ} (hlen : xs.length = ys.length)
    (houtside : ∀ i, i < off ∨ off + 4 ≤ i → xs[i]? = ys[i]?)
    (h : ieee.crc32 xs = ieee.crc32 ys) :
  xs = ys
  := by
  have hfront : xs.take off = ys.take off := by
    apply List.ext_getElem?
    intro i
    rw [List.getElem?_take, List.getElem?_take]
    split
    · next hi => exact houtside i (.inl hi)
    · rfl
  have hback : xs.drop (off + 4) = ys.drop (off + 4) := by
    apply List.ext_getElem?
    intro i
    rw [List.getElem?_drop, List.getElem?_drop]
    exact houtside _ (.inr (Nat.le_add_right _ _))
  have hwindow : (slice xs off 4).length = (slice ys off 4).length := by
    rw [slice, slice, List.length_take, List.length_take, List.length_drop, List.length_drop, hlen]
  have hshort : (slice xs off 4).length ≤ 4 := by
    rw [slice, List.length_take]
    apply Nat.min_le_left
  have hxs := take_append_slice_append_drop xs off 4
  have hys := take_append_slice_append_drop ys off 4
  rw [← hfront, ← hback, List.append_assoc] at hys
  rw [List.append_assoc] at hxs
  rw [← hxs, ← hys] at h
  rw [← hxs, ← hys, window_eq_of_crc32_eq hwindow hshort h]

/-! ### Messages with a checksum -/

/-- The state one bit before. -/
def unbit (crc : UInt32) : UInt32 :=
  if crc.toNat < 2 ^ 31 then UInt32.ofNat (2 * crc.toNat)
  else UInt32.ofNat (2 * (crc.toNat ^^^ 0xEDB88320) + 1)

theorem bit_unbit : Function.LeftInverse bit unbit := by
  intro crc
  have hlt := crc.toNat_lt
  apply UInt32.toNat_inj.mp
  rw [bit_toNat, unbit]
  split
  · next h =>
    have hfits : 2 * crc.toNat < 2 ^ 32 := by omega
    rw [UInt32.toNat_ofNat', Nat.mod_eq_of_lt hfits, if_pos (Nat.mul_mod_right ..),
      Nat.mul_div_cancel_left _ Nat.two_pos]
  · next h =>
    have hhigh : crc.toNat / 2 ^ 31 = 1 := by omega
    have hxor : (crc.toNat ^^^ 0xEDB88320) / 2 ^ 31 = 0 := by
      rw [Nat.xor_div_two_pow, hhigh]
      rfl
    have hfits : 2 * (crc.toNat ^^^ 0xEDB88320) + 1 < 2 ^ 32 := by omega
    have hodd : (2 * (crc.toNat ^^^ 0xEDB88320) + 1) % 2 ≠ 0 := by omega
    have hhalf : (2 * (crc.toNat ^^^ 0xEDB88320) + 1) / 2 = crc.toNat ^^^ 0xEDB88320 := by omega
    rw [UInt32.toNat_ofNat', Nat.mod_eq_of_lt hfits, if_neg hodd, hhalf, Nat.xor_assoc,
      Nat.xor_self, Nat.xor_zero]

/-- The four bytes that lead from one state to another. -/
def forge (crc target : UInt32) : Bytes := leBytes 4 (crc ^^^ unbit^[32] target).toNat

theorem length_forge (crc target : UInt32) : (forge crc target).length = 4 := length_leBytes 4 _

theorem foldl_byte_forge (crc target : UInt32) : (forge crc target).foldl byte crc = target := by
  have hlen := length_forge crc target
  rw [foldl_byte_eq crc (Nat.le_of_eq hlen), hlen, forge, leNat_leBytes (UInt32.toNat_lt _),
    UInt32.ofNat_toNat, ← UInt32.xor_assoc, UInt32.xor_self, UInt32.zero_xor]
  exact bit_unbit.iterate 32 target

/-- Any checksum, put behind a message. -/
theorem crc32_append_forge (front : Bytes) (target : UInt32) :
  ieee.crc32 (front ++ forge (front.foldl byte 0xFFFFFFFF) (~~~target)) = target
  := by
  change ~~~(front ++ _).foldl byte 0xFFFFFFFF = target
  rw [List.foldl_append, foldl_byte_forge, UInt32.not_not]

end Crc32Hasher

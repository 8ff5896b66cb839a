import CatplayFirmware.Support.Bytes
import Mathlib.Data.Int.Notation
import Mathlib.Data.List.Nodup
import Mathlib.Logic.Function.Basic

/-!
# Combining scattered bytes with a key stream

The bytes of a request are scattered over the entries of two lists, one that is read and one that
is written. The driver walks over both at once, and combines as many bytes as are in one piece on
both sides with the key stream: byte by byte, or in words when all addresses are aligned.
-/

namespace IngenicAes

open Bytes

/-- The byte at every address. -/
abbrev Memory := ℕ → UInt8

def einval : ℤ := -22

def eio : ℤ := -5

/-! ### Copying -/

/-- The loop over single bytes. -/
def xorBytes (m : Memory) (dst src : ℕ) : Bytes → Memory
  | [] => m
  | k :: ks => xorBytes (Function.update m dst (m src ^^^ k)) (dst + 1) (src + 1) ks

/-- The bytes from an address on. -/
def load (m : Memory) (addr : ℕ) : ℕ → Bytes
  | 0 => []
  | n + 1 => m addr :: load m (addr + 1) n

def store (m : Memory) (addr : ℕ) : Bytes → Memory
  | [] => m
  | b :: bs => store (Function.update m addr b) (addr + 1) bs

/-- Words that are loaded, combined and stored together. -/
def xorWide (m : Memory) (dst src : ℕ) (ks : Bytes) : Memory :=
  store m dst (List.zipWith (· ^^^ ·) (load m src ks.length) ks)

/-- The loop over words of a width. -/
def xorWords (width : ℕ) : ℕ → Memory → ℕ → ℕ → Bytes → Memory
  | 0, m, _, _, _ => m
  | n + 1, m, dst, src, ks =>
    xorWords width n (xorWide m dst src (ks.take width)) (dst + width) (src + width)
      (ks.drop width)

/-- The loop that is unrolled to eight words. -/
def xorEights : ℕ → Memory → ℕ → ℕ → Bytes → Memory
  | 0, m, _, _, _ => m
  | n + 1, m, dst, src, ks =>
    xorEights n (xorWords 4 8 m dst src ks) (dst + 32) (src + 32) (ks.drop 32)

/-- The addresses are those of words of four bytes. -/
def Aligned (dst src ks : ℕ) : Prop := dst % 4 = 0 ∧ src % 4 = 0 ∧ ks % 4 = 0

instance (dst src ks : ℕ) : Decidable (Aligned dst src ks) :=
  inferInstanceAs (Decidable (_ ∧ _ ∧ _))

/-- `ingenic_aes_xor_copy_c`, where the key stream is at the address `ksAddr`. -/
def xorCopyC (m : Memory) (dst src ksAddr : ℕ) (ks : Bytes) : Memory :=
  let words := ks.length / 4
  if Aligned dst src ksAddr then
    let m := xorEights (words / 8) m dst src ks
    let off := words / 8 * 32
    let m := xorWords 4 (words % 8) m (dst + off) (src + off) (ks.drop off)
    xorBytes m (dst + words * 4) (src + words * 4) (ks.drop (words * 4))
  else xorBytes m dst src ks

/-- `ingenic_aes_xor_copy`, compiled for MIPS or for another CPU. -/
def xorCopy (mips : Bool) (m : Memory) (dst src ksAddr : ℕ) (ks : Bytes) : Memory :=
  if mips then
    if Aligned dst src ksAddr then
      let blocks := ks.length / 16
      let m := xorWords 16 blocks m dst src ks
      xorBytes m (dst + blocks * 16) (src + blocks * 16) (ks.drop (blocks * 16))
    else xorCopyC m dst src ksAddr ks
  else xorCopyC m dst src ksAddr ks

/-- No byte is overwritten that is read later. -/
def Clear (dst src len : ℕ) : Prop := dst ≤ src ∨ src + len ≤ dst

theorem Clear.shift {dst src len k : ℕ} (h : Clear dst src len) :
  Clear (dst + k) (src + k) (len - k)
  := by
  rcases h with h | h
  · exact .inl (Nat.add_le_add_right h k)
  · by_cases hk : k ≤ len
    · right
      omega
    · rw [Nat.sub_eq_zero_of_le (by omega)]
      rcases Nat.le_total dst src with hle | hle
      · exact .inl (Nat.add_le_add_right hle k)
      · exact .inr (Nat.add_le_add_right hle k)

theorem Clear.mono {dst src len len' : ℕ} (h : Clear dst src len) (hle : len' ≤ len) :
  Clear dst src len'
  := by
  rcases h with h | h
  · exact .inl h
  · right
    omega

theorem xorBytes_append (m : Memory) (dst src : ℕ) (ks ks' : Bytes) :
  xorBytes m dst src (ks ++ ks') =
    xorBytes (xorBytes m dst src ks) (dst + ks.length) (src + ks.length) ks'
  := by
  induction ks generalizing m dst src with
  | nil => rfl
  | cons k ks ih =>
      rw [List.cons_append, xorBytes, ih, xorBytes, List.length_cons, Nat.add_right_comm dst,
        Nat.add_right_comm src, Nat.add_assoc dst, Nat.add_assoc src]

theorem load_update {m : Memory} {a addr : ℕ} (b : UInt8) {n : ℕ} (h : a < addr ∨ addr + n ≤ a) :
  load (Function.update m a b) addr n = load m addr n
  := by
  induction n generalizing addr with
  | zero => rfl
  | succ n ih =>
      rw [load, load, Function.update_of_ne (by omega), ih]
      omega

/-- Words are combined as their bytes are. -/
theorem xorWide_eq {m : Memory} {dst src : ℕ} {ks : Bytes} (h : Clear dst src ks.length) :
  xorWide m dst src ks = xorBytes m dst src ks
  := by
  induction ks generalizing m dst src with
  | nil => rfl
  | cons k ks ih =>
      have hrest : Clear (dst + 1) (src + 1) ks.length := h.shift
      have hload : load (Function.update m dst (m src ^^^ k)) (src + 1) ks.length =
          load m (src + 1) ks.length := by
        apply load_update
        rw [Clear, List.length_cons] at h
        omega
      rw [xorBytes, ← ih hrest, xorWide, xorWide, List.length_cons, load, List.zipWith_cons_cons,
        store, hload]

theorem xorWords_eq {width n : ℕ} {m : Memory} {dst src : ℕ} {ks : Bytes}
    (h : Clear dst src ks.length) (hlen : width * n ≤ ks.length) :
  xorWords width n m dst src ks = xorBytes m dst src (ks.take (width * n))
  := by
  induction n generalizing m dst src ks with
  | zero => rw [xorWords, Nat.mul_zero, List.take_zero, xorBytes]
  | succ n ih =>
      rw [Nat.mul_succ] at hlen
      have htake : (ks.take width).length = width := by
        rw [List.length_take]
        omega
      have hrest : Clear (dst + width) (src + width) (ks.drop width).length := by
        rw [List.length_drop]
        apply h.shift
      rw [xorWords, xorWide_eq, ih hrest, Nat.mul_succ, Nat.add_comm (width * n), List.take_add,
        xorBytes_append, htake]
      · rw [List.length_drop]
        omega
      · rw [htake]
        apply h.mono
        omega

theorem xorEights_eq {n : ℕ} {m : Memory} {dst src : ℕ} {ks : Bytes}
    (h : Clear dst src ks.length) (hlen : 32 * n ≤ ks.length) :
  xorEights n m dst src ks = xorBytes m dst src (ks.take (32 * n))
  := by
  induction n generalizing m dst src ks with
  | zero => rw [xorEights, Nat.mul_zero, List.take_zero, xorBytes]
  | succ n ih =>
      have htake : (ks.take 32).length = 32 := by
        rw [List.length_take]
        omega
      have hrest : Clear (dst + 32) (src + 32) (ks.drop 32).length := by
        rw [List.length_drop]
        apply h.shift
      have hsum : 32 * (n + 1) = 32 + 32 * n := by omega
      rw [xorEights, xorWords_eq h (by omega), ih hrest, hsum, List.take_add, xorBytes_append,
        htake]
      rw [List.length_drop]
      omega

/-- A piece that is combined in words and then in bytes is combined in bytes. -/
theorem xorBytes_take_drop (m : Memory) (dst src : ℕ) {ks : Bytes} {n : ℕ} (h : n ≤ ks.length) :
  xorBytes (xorBytes m dst src (ks.take n)) (dst + n) (src + n) (ks.drop n) =
    xorBytes m dst src ks
  := by
  have htake : (ks.take n).length = n := by
    rw [List.length_take]
    omega
  have happend := xorBytes_append m dst src (ks.take n) (ks.drop n)
  rw [List.take_append_drop, htake] at happend
  exact happend.symm

theorem xorCopyC_eq {m : Memory} {dst src : ℕ} (ksAddr : ℕ) {ks : Bytes}
    (h : Clear dst src ks.length) :
  xorCopyC m dst src ksAddr ks = xorBytes m dst src ks
  := by
  rw [xorCopyC]
  split
  · have hoff : 32 * (ks.length / 4 / 8) = ks.length / 4 / 8 * 32 := Nat.mul_comm _ _
    have hrest : Clear (dst + ks.length / 4 / 8 * 32) (src + ks.length / 4 / 8 * 32)
        (ks.drop (ks.length / 4 / 8 * 32)).length := by
      rw [List.length_drop]
      apply h.shift
    have hwords : ks.length / 4 * 4 =
        ks.length / 4 / 8 * 32 + 4 * (ks.length / 4 % 8) := by
      omega
    have htake : (ks.take (ks.length / 4 / 8 * 32)).length = ks.length / 4 / 8 * 32 := by
      rw [List.length_take]
      omega
    have hboth : xorBytes (xorBytes m dst src (ks.take (ks.length / 4 / 8 * 32)))
        (dst + ks.length / 4 / 8 * 32) (src + ks.length / 4 / 8 * 32)
        ((ks.drop (ks.length / 4 / 8 * 32)).take (4 * (ks.length / 4 % 8))) =
        xorBytes m dst src (ks.take (ks.length / 4 * 4)) := by
      rw [hwords, List.take_add, xorBytes_append, htake]
    rw [xorEights_eq h (by omega), hoff]
    simp only
    rw [xorWords_eq hrest, hboth, xorBytes_take_drop]
    · omega
    · rw [List.length_drop]
      omega
  · rfl

/-- A piece is combined byte by byte, whatever its addresses are. -/
theorem xorCopy_eq (mips : Bool) {m : Memory} {dst src : ℕ} (ksAddr : ℕ) {ks : Bytes}
    (h : Clear dst src ks.length) :
  xorCopy mips m dst src ksAddr ks = xorBytes m dst src ks
  := by
  rw [xorCopy]
  split
  · split
    · simp only
      rw [xorWords_eq h (by omega), Nat.mul_comm 16, xorBytes_take_drop]
      omega
    · apply xorCopyC_eq ksAddr h
  · apply xorCopyC_eq ksAddr h

end IngenicAes

import CatplayFirmware.Support.Bytes
import Mathlib.Algebra.GroupWithZero.Nat
import Mathlib.Logic.Function.Basic

/-!
# Flat memory

A byte at every address of a width. Addresses wrap around. A region from an address on, of at most
as many bytes as there are addresses, is read as a list of bytes, and what is stored inside the
region overwrites a part of the list.
-/

/-- The byte at every address. -/
abbrev FlatMemory (w : ℕ) := BitVec w → UInt8

namespace FlatMemory

open Bytes

variable {w : ℕ}

/-- The `n` bytes from an address on. -/
def load (m : FlatMemory w) (a : BitVec w) (n : ℕ) : Bytes :=
  (List.range n).map fun i => m (a + BitVec.ofNat w i)

/-- The memory with bytes stored from an address on. -/
def store (m : FlatMemory w) (a : BitVec w) (bs : Bytes) : FlatMemory w :=
  fun x => bs.getD (x - a).toNat (m x)

@[simp] theorem length_load (m : FlatMemory w) (a : BitVec w) (n : ℕ) :
  (load m a n).length = n
  := by
  rw [load, List.length_map, List.length_range]

theorem getElem?_load (m : FlatMemory w) (a : BitVec w) {n i : ℕ} (h : i < n) :
  (load m a n)[i]? = some (m (a + BitVec.ofNat w i))
  := by
  rw [load, List.getElem?_map, List.getElem?_range h, Option.map_some]

/-- A region is read in two parts. -/
theorem load_add (m : FlatMemory w) (a : BitVec w) (n k : ℕ) :
  load m a (n + k) = load m a n ++ load m (a + BitVec.ofNat w n) k
  := by
  rw [load, List.range_add, List.map_append, List.map_map, load, load]
  congr 1
  apply List.map_congr_left
  intro i _
  rw [Function.comp_apply, BitVec.add_assoc, BitVec.ofNat_add]

/-- What is read in one piece is read in two. -/
theorem load_append {m : FlatMemory w} {a : ℕ} {xs ys : Bytes}
    (h : load m (BitVec.ofNat w a) (xs ++ ys).length = xs ++ ys) :
  load m (BitVec.ofNat w a) xs.length = xs ∧
    load m (BitVec.ofNat w (a + xs.length)) ys.length = ys
  := by
  rw [List.length_append, load_add, ← BitVec.ofNat_add] at h
  apply List.append_inj h
  apply length_load

/-! ### Offsets -/

/-- How far an address is behind one with an offset. -/
theorem toNat_sub_offset {x a : BitVec w} {off : ℕ} (h : off < 2 ^ w) :
  (x - (a + BitVec.ofNat w off)).toNat =
    if off ≤ (x - a).toNat then (x - a).toNat - off else (x - a).toNat + (2 ^ w - off)
  := by
  have hlt := (x - a).isLt
  have hsub : x - (a + BitVec.ofNat w off) = x - a - BitVec.ofNat w off :=
    (BitVec.sub_sub _ _ _).symm
  rw [hsub, BitVec.toNat_sub, BitVec.toNat_ofNat, Nat.mod_eq_of_lt h]
  split
  · next hle =>
    have hsum : 2 ^ w - off + (x - a).toNat = (x - a).toNat - off + 2 ^ w := by omega
    rw [hsum, Nat.add_mod_right, Nat.mod_eq_of_lt (by omega)]
  · next hbelow => rw [Nat.mod_eq_of_lt (by omega), Nat.add_comm]

theorem toNat_offset_sub (a : BitVec w) {i : ℕ} (h : i < 2 ^ w) :
  (a + BitVec.ofNat w i - a).toNat = i
  := by
  rw [BitVec.add_comm, BitVec.add_sub_cancel, BitVec.toNat_ofNat, Nat.mod_eq_of_lt h]

section

variable {a : BitVec w} {off : ℕ} {bs : Bytes}

/-- The byte at an offset from which on bytes are stored. -/
theorem store_apply (m : FlatMemory w) (hoff : off < 2 ^ w) (h : off + bs.length ≤ 2 ^ w)
    (x : BitVec w) :
  store m (a + BitVec.ofNat w off) bs x =
    if off ≤ (x - a).toNat then bs.getD ((x - a).toNat - off) (m x) else m x
  := by
  rw [store, toNat_sub_offset hoff]
  split
  · rfl
  · rw [List.getD_eq_getElem?_getD, List.getElem?_eq_none (by omega), Option.getD_none]

/-- Nothing is stored before or behind the bytes. -/
theorem store_of_outside (m : FlatMemory w) (hoff : off < 2 ^ w) (h : off + bs.length ≤ 2 ^ w)
    {x : BitVec w} (hx : (x - a).toNat < off ∨ off + bs.length ≤ (x - a).toNat) :
  store m (a + BitVec.ofNat w off) bs x = m x
  := by
  rw [store_apply m hoff h]
  split
  · rw [List.getD_eq_getElem?_getD, List.getElem?_eq_none (by omega), Option.getD_none]
  · rfl

/-- What is loaded does not change when a byte behind it does. -/
theorem load_update (m : FlatMemory w) {n i : ℕ} (b : UInt8) (hi : off + n ≤ i) (hlt : i < 2 ^ w) :
  load (Function.update m (a + BitVec.ofNat w i) b) (a + BitVec.ofNat w off) n =
    load m (a + BitVec.ofNat w off) n
  := by
  rw [load, load]
  apply List.map_congr_left
  intro j hj
  have hjlt := List.mem_range.mp hj
  apply Function.update_of_ne
  intro heq
  rw [BitVec.add_assoc, ← BitVec.ofNat_add] at heq
  have hsum := toNat_offset_sub a (i := off + j) (by omega)
  rw [heq, toNat_offset_sub a hlt] at hsum
  omega

end

/-! ### Regions -/

section

variable {a : BitVec w} {n off : ℕ}

/-- A part of a region. -/
theorem load_offset (m : FlatMemory w) {len : ℕ} (h : off + len ≤ n) :
  load m (a + BitVec.ofNat w off) len = slice (load m a n) off len
  := by
  apply List.ext_getElem?
  intro i
  rcases Nat.lt_or_ge i len with hi | hi
  · rw [getElem?_load _ _ hi, slice, List.getElem?_take_of_lt hi, List.getElem?_drop,
      getElem?_load _ _ (by omega), BitVec.add_assoc, ← BitVec.ofNat_add]
  · rw [List.getElem?_eq_none, List.getElem?_eq_none]
    · rw [length_slice]
      · exact hi
      · rwa [length_load]
    · rwa [length_load]

/-- What is stored inside a region overwrites a part of it. -/
theorem load_store {bs : Bytes} (m : FlatMemory w) (hn : n < 2 ^ w) (h : off + bs.length ≤ n) :
  load (store m (a + BitVec.ofNat w off) bs) a n = overwrite (load m a n) off bs
  := by
  have hfront : ((load m a n).take off).length = off := by
    rw [List.length_take, length_load]
    omega
  have hmiddle : ((load m a n).take off ++ bs).length = off + bs.length := by
    rw [List.length_append, hfront]
  apply List.ext_getElem?
  intro i
  rcases Nat.lt_or_ge i n with hi | hi
  · rw [getElem?_load _ _ hi, store_apply m (by omega) (by omega), toNat_offset_sub a (by omega),
      overwrite]
    rcases Nat.lt_or_ge i (off + bs.length) with hinside | hbehind
    · rw [List.getElem?_append_left (by omega)]
      split
      · next hoff =>
        rw [List.getElem?_append_right (by omega), hfront, List.getD_eq_getElem?_getD,
          List.getElem?_eq_getElem (by omega), Option.getD_some]
      · next hbefore =>
        rw [List.getElem?_append_left (by omega), List.getElem?_take_of_lt (by omega),
          getElem?_load _ _ hi]
    · rw [if_pos (by omega), List.getElem?_append_right (by omega), hmiddle, List.getElem?_drop,
        Nat.add_sub_cancel' hbehind, getElem?_load _ _ hi, List.getD_eq_getElem?_getD,
        List.getElem?_eq_none (by omega), Option.getD_none]
  · rw [List.getElem?_eq_none, List.getElem?_eq_none]
    · rwa [length_overwrite, length_load]
      rwa [length_load]
    · rwa [length_load]

/-- What is stored behind a region extends it. -/
theorem load_store_behind {bs : Bytes} (m : FlatMemory w) (h : n + bs.length < 2 ^ w) :
  load (store m (a + BitVec.ofNat w n) bs) a (n + bs.length) = load m a n ++ bs
  := by
  have hfront : (load m a (n + bs.length)).take n = load m a n := by
    have hpart := @load_offset w a (n + bs.length) 0 m n (by omega)
    have hzero : a + BitVec.ofNat w 0 = a := BitVec.add_zero a
    rw [hzero] at hpart
    exact hpart.symm
  have hrest : (load m a (n + bs.length)).drop (n + bs.length) = [] :=
    List.drop_of_length_le (Nat.le_of_eq (length_load _ _ _))
  rw [load_store m h (Nat.le_refl _), overwrite, hfront, hrest, List.append_nil]

/-- Nothing is stored outside a region. -/
theorem store_outside_region {bs : Bytes} (m : FlatMemory w) (hn : n < 2 ^ w)
    (h : off + bs.length ≤ n) {x : BitVec w} (hx : n ≤ (x - a).toNat) :
  store m (a + BitVec.ofNat w off) bs x = m x
  := store_of_outside m (by omega) (by omega) (.inr (by omega))

end

/-! ### Regions that are apart -/

section

variable {a b n k : ℕ}

/-- A region is read from what stands in it. -/
theorem load_congr {m m' : FlatMemory w} (hn : n ≤ 2 ^ w)
    (h : ∀ x, (x - BitVec.ofNat w a).toNat < n → m' x = m x) :
  load m' (BitVec.ofNat w a) n = load m (BitVec.ofNat w a) n
  := by
  rw [load, load]
  apply List.map_congr_left
  intro i hi
  have hlt := List.mem_range.mp hi
  apply h
  rwa [toNat_offset_sub _ (Nat.lt_of_lt_of_le hlt hn)]

theorem toNat_sub_ofNat (x : BitVec w) (ha : a < 2 ^ w) :
  (x - BitVec.ofNat w a).toNat = if a ≤ x.toNat then x.toNat - a else x.toNat + (2 ^ w - a)
  := by
  have h := @toNat_sub_offset w x (BitVec.ofNat w 0) a ha
  rwa [BitVec.zero_add, BitVec.sub_zero] at h

/-- A place in one of two regions that are apart is outside of the other. -/
theorem outside_of_apart (hab : a + n ≤ b ∨ b + k ≤ a) (ha : a + n ≤ 2 ^ w) (hb : b + k ≤ 2 ^ w)
    {x : BitVec w} (hx : (x - BitVec.ofNat w a).toNat < n) :
  k ≤ (x - BitVec.ofNat w b).toNat
  := by
  rcases Nat.eq_zero_or_pos k with rfl | hk
  · apply Nat.zero_le
  · have hxlt := x.isLt
    rw [toNat_sub_ofNat x (by omega)] at hx
    rw [toNat_sub_ofNat x (by omega)]
    split at hx <;> split <;> omega

end

end FlatMemory

import Mathlib.Data.List.TakeDrop
import Mathlib.Tactic.Common

/-!
# Spans of byte strings

`slice xs off len` is the span of `xs` of length `len` from `off` on, and `overwrite xs off ys`
is `xs` with the span of the length of `ys` from `off` on replaced by `ys`. Everything here
holds for lists over any type; a byte string is a list of `UInt8`.
-/

/-- A byte string. -/
abbrev Bytes := List UInt8

namespace Bytes

/-- What holds of every byte of a string is decided by going through the string, not through all
bytes there are. -/
instance (priority := high) {P : UInt8 → Prop} [DecidablePred P] (bytes : Bytes) :
    Decidable (∀ c ∈ bytes, P c) :=
  List.decidableBAll P bytes

/-- The byte of a character below 128. -/
def byte (c : Char) : UInt8 := UInt8.ofNat c.toNat

/-- The bytes of a text of characters below 128. -/
def ascii (s : String) : Bytes := s.toList.map byte

variable {α : Type*}

/-- The `len` entries of `xs` from `off` on. -/
def slice (xs : List α) (off len : ℕ) : List α := (xs.drop off).take len

/-- The list `xs` with the entries from `off` on replaced by `ys`. -/
def overwrite (xs : List α) (off : ℕ) (ys : List α) : List α :=
  xs.take off ++ ys ++ xs.drop (off + ys.length)

/-! ### Slices -/

theorem length_slice {xs : List α} {off len : ℕ} (h : off + len ≤ xs.length) :
  (slice xs off len).length = len
  := by
  rw [slice, List.length_take, List.length_drop]
  omega

@[simp] theorem slice_zero (xs : List α) (off : ℕ) : slice xs off 0 = [] := List.take_zero

/-- A span of two pieces is the first piece followed by the second. -/
theorem slice_add (xs : List α) (off len₁ len₂ : ℕ) :
  slice xs off (len₁ + len₂) = slice xs off len₁ ++ slice xs (off + len₁) len₂
  := by
  rw [slice, slice, slice, List.take_add, List.drop_drop]

/-- A span of a span. -/
theorem slice_slice (xs : List α) (off : ℕ) {n d len : ℕ} (h : d + len ≤ n) :
  slice (slice xs off n) d len = slice xs (off + d) len
  := by
  rw [slice, slice, slice, List.drop_take, List.take_take, List.drop_drop,
    Nat.min_eq_left (by omega)]

/-- A span of the second of two lists. -/
theorem slice_append_right (xs ys : List α) (off len : ℕ) :
  slice (xs ++ ys) (xs.length + off) len = slice ys off len
  := by
  rw [slice, slice, List.drop_length_add_append]

/-- A span of the first of two lists. -/
theorem slice_append_left {xs : List α} (ys : List α) {off len : ℕ}
    (h : off + len ≤ xs.length) :
  slice (xs ++ ys) off len = slice xs off len
  := by
  rw [slice, slice, List.drop_append_of_le_length (by omega), List.take_append_of_le_length]
  rw [List.length_drop]
  omega

/-- The whole of the second of two lists. -/
theorem slice_append_self (xs ys : List α) :
  slice (xs ++ ys) xs.length ys.length = ys
  := by
  rw [slice, List.drop_left, List.take_length]

theorem slice_length_self (xs : List α) :
  slice xs 0 xs.length = xs
  := by
  rw [slice, List.drop_zero, List.take_length]

/-- What is before a span, the span, and what is behind it make up the list. -/
theorem take_append_slice_append_drop (xs : List α) (off len : ℕ) :
  xs.take off ++ slice xs off len ++ xs.drop (off + len) = xs
  := by
  rw [slice, List.append_assoc, ← List.drop_drop, List.take_append_drop, List.take_append_drop]

/-- The start of a list grows by the span behind it. -/
theorem take_append_slice (xs : List α) (off len : ℕ) :
  xs.take off ++ slice xs off len = xs.take (off + len)
  := List.take_add.symm

/-! ### Overwriting -/

@[simp] theorem overwrite_nil (xs : List α) (off : ℕ) :
  overwrite xs off [] = xs
  := by
  rw [overwrite, List.append_nil, List.length_nil, Nat.add_zero, List.take_append_drop]

/-- Overwriting inside a list keeps its length. -/
theorem length_overwrite {xs ys : List α} {off : ℕ} (h : off + ys.length ≤ xs.length) :
  (overwrite xs off ys).length = xs.length
  := by
  rw [overwrite, List.length_append, List.length_append, List.length_take, List.length_drop]
  omega

/-- Overwriting a whole list leaves nothing of it. -/
theorem overwrite_all {xs ys : List α} (h : ys.length = xs.length) :
  overwrite xs 0 ys = ys
  := by
  rw [overwrite, List.take_zero, Nat.zero_add, List.drop_of_length_le (Nat.le_of_eq h.symm),
    List.nil_append, List.append_nil]

/-- Overwriting a span with what it holds changes nothing. -/
theorem overwrite_slice {xs : List α} {off len : ℕ} (h : off + len ≤ xs.length) :
  overwrite xs off (slice xs off len) = xs
  := by
  rw [overwrite, length_slice h, take_append_slice_append_drop]

/-- Up to its end, an overwritten span follows what was before it. -/
theorem take_overwrite {xs : List α} (ys : List α) {off : ℕ} (h : off ≤ xs.length) :
  (overwrite xs off ys).take (off + ys.length) = xs.take off ++ ys
  := by
  have hlen : (xs.take off ++ ys).length = off + ys.length := by
    rw [List.length_append, List.length_take, Nat.min_eq_left h]
  rw [overwrite, ← hlen, List.take_left]

/-- Behind an overwritten span nothing changes. -/
theorem drop_overwrite {xs : List α} (ys : List α) {off : ℕ} (h : off ≤ xs.length) :
  (overwrite xs off ys).drop (off + ys.length) = xs.drop (off + ys.length)
  := by
  have hlen : (xs.take off ++ ys).length = off + ys.length := by
    rw [List.length_append, List.length_take, Nat.min_eq_left h]
  rw [overwrite, ← hlen, List.drop_left]

/-- An overwritten span holds what it is overwritten with. -/
theorem slice_overwrite_self {xs : List α} (ys : List α) {off : ℕ} (h : off ≤ xs.length) :
  slice (overwrite xs off ys) off ys.length = ys
  := by
  have hfront : (xs.take off).length = off := List.length_take_of_le h
  rw [overwrite, slice, List.append_assoc, List.drop_left' hfront, List.take_left]

/-- Overwriting with one piece and behind it with another overwrites with both. -/
theorem overwrite_overwrite {xs ys zs : List α} {off : ℕ} (h : off ≤ xs.length) :
  overwrite (overwrite xs off ys) (off + ys.length) zs = overwrite xs off (ys ++ zs)
  := by
  have hdrop : (overwrite xs off ys).drop (off + ys.length + zs.length) =
      xs.drop (off + (ys ++ zs).length) := by
    rw [← List.drop_drop, drop_overwrite ys h, List.drop_drop, List.length_append, Nat.add_assoc]
  rw [overwrite, take_overwrite ys h, hdrop, overwrite, List.append_assoc (xs.take off)]

/-- Where a list has been overwritten stands what has been written, and elsewhere what stood
there. -/
theorem getElem?_overwrite {xs ys : List α} {off : ℕ} (h : off + ys.length ≤ xs.length) (i : ℕ) :
  (overwrite xs off ys)[i]? = if off ≤ i ∧ i < off + ys.length then ys[i - off]? else xs[i]?
  := by
  have hfront : (xs.take off).length = off := List.length_take_of_le (by omega)
  have hlen : (xs.take off ++ ys).length = off + ys.length := by
    rw [List.length_append, hfront]
  rw [overwrite]
  rcases Nat.lt_or_ge i (off + ys.length) with hi | hi
  · rw [List.getElem?_append_left (by omega)]
    rcases Nat.lt_or_ge i off with hbefore | hinside
    · rw [if_neg (by omega), List.getElem?_append_left (by omega), List.getElem?_take_of_lt hbefore]
    · rw [if_pos ⟨hinside, hi⟩, List.getElem?_append_right (by omega), hfront]
  · rw [if_neg (by omega), List.getElem?_append_right (by omega), hlen, List.getElem?_drop]
    congr 1
    omega

/-- Overwriting a span of the second of two lists. -/
theorem overwrite_append_right (xs ys zs : List α) (off : ℕ) :
  overwrite (xs ++ ys) (xs.length + off) zs = xs ++ overwrite ys off zs
  := by
  rw [overwrite, overwrite, List.take_length_add_append, Nat.add_assoc,
    List.drop_length_add_append]
  simp

/-- Overwriting a span of the first of two lists. -/
theorem overwrite_append_left {xs zs : List α} (ys : List α) {off : ℕ}
    (h : off + zs.length ≤ xs.length) :
  overwrite (xs ++ ys) off zs = overwrite xs off zs ++ ys
  := by
  rw [overwrite, overwrite, List.take_append_of_le_length (by omega),
    List.drop_append_of_le_length h]
  simp

/-- Overwriting one of three pieces with as much. -/
theorem overwrite_piece {xs ys zs ws : List α} {off : ℕ} (hoff : xs.length = off)
    (hlen : zs.length = ys.length) :
  overwrite (xs ++ (ys ++ ws)) off zs = xs ++ (zs ++ ws)
  := by
  subst hoff
  have hright := overwrite_append_right xs (ys ++ ws) zs 0
  rw [Nat.add_zero] at hright
  rw [hright, overwrite_append_left ws (by omega), overwrite_all hlen]

/-- Overwriting one of several lists overwrites their concatenation, counted from where that
list starts. -/
theorem flatten_set_overwrite {xss : List (List α)} {i off : ℕ} {zs : List α}
    (hi : i < xss.length) (h : off + zs.length ≤ xss[i].length) :
  (xss.set i (overwrite xss[i] off zs)).flatten =
    overwrite xss.flatten ((xss.take i).flatten.length + off) zs
  := by
  have hsplit : xss.flatten = (xss.take i).flatten ++ (xss[i] ++ (xss.drop (i + 1)).flatten) := by
    rw [← List.flatten_cons, List.getElem_cons_drop, ← List.flatten_append,
      List.take_append_drop]
  rw [hsplit, overwrite_append_right, overwrite_append_left _ h, List.set_eq_take_append_cons_drop,
    if_pos hi, List.flatten_append, List.flatten_cons]

/-- A span of one of several lists is a span of their concatenation, counted from where that
list starts. -/
theorem slice_flatten {xss : List (List α)} {i off len : ℕ}
    (hi : i < xss.length) (h : off + len ≤ xss[i].length) :
  slice xss.flatten ((xss.take i).flatten.length + off) len = slice xss[i] off len
  := by
  have hsplit : xss.flatten = (xss.take i).flatten ++ (xss[i] ++ (xss.drop (i + 1)).flatten) := by
    rw [← List.flatten_cons, List.getElem_cons_drop, ← List.flatten_append,
      List.take_append_drop]
  rw [hsplit, slice_append_right, slice_append_left _ h]

/-- The first `i + 1` lists end where the list `i` ends. -/
theorem length_flatten_take_succ {xss : List (List α)} {i : ℕ} (hi : i < xss.length) :
  (xss.take (i + 1)).flatten.length = (xss.take i).flatten.length + xss[i].length
  := by
  rw [List.take_succ_eq_append_getElem hi, List.flatten_append, List.length_append]
  simp

end Bytes

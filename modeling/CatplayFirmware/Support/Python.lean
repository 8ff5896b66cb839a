import CatplayFirmware.Support.Bytes
import Mathlib.Data.Nat.Digits.Lemmas

/-!
# Slices and integers of Python

The slices `xs[i:j]` and the items `xs[i]` of a sequence, where a negative bound counts from the
end; the last occurrence `xs.rfind(pat)`; the integers `int(s, 16)` of a byte string, with its
white space, signs, prefix and underscores; and the formats `08X` and `hex`.
-/

namespace Python

/-! ### Slices -/

section Slices

variable {α : Type*}

/-- Where a bound of a slice lies in a sequence of length `len`. -/
def bound (len : ℕ) (i : ℤ) : ℕ := if i < 0 then (i + len).toNat else min i.toNat len

/-- `xs[i:j]`. -/
def slice (xs : List α) (i j : ℤ) : List α :=
  (xs.drop (bound xs.length i)).take (bound xs.length j - bound xs.length i)

/-- `xs[i:]`. -/
def sliceFrom (xs : List α) (i : ℤ) : List α := xs.drop (bound xs.length i)

/-- `xs[i]`, which fails outside of the sequence. -/
def item (xs : List α) (i : ℤ) : Option α :=
  if 0 ≤ i then xs[i.toNat]?
  else if 0 ≤ i + xs.length then xs[(i + xs.length).toNat]?
  else none

theorem bound_natCast (len i : ℕ) : bound len i = min i len := by
  rw [bound, if_neg (by omega), Int.toNat_natCast]

/-- With bounds that do not count from the end a slice is a span. -/
theorem slice_natCast (xs : List α) (i n : ℕ) :
  slice xs i ((i + n : ℕ) : ℤ) = Bytes.slice xs i n
  := by
  rw [slice, bound_natCast, bound_natCast, Bytes.slice]
  rcases Nat.le_total i xs.length with hle | hge
  · rw [Nat.min_eq_left hle]
    rcases Nat.le_total (i + n) xs.length with hle' | hge'
    · rw [Nat.min_eq_left hle', Nat.add_sub_cancel_left]
    · rw [Nat.min_eq_right hge', List.take_of_length_le, List.take_of_length_le]
      · rw [List.length_drop]
        omega
      · rw [List.length_drop]
  · rw [Nat.min_eq_right hge, List.drop_length, List.drop_of_length_le hge, List.take_nil,
      List.take_nil]

theorem sliceFrom_natCast (xs : List α) {i : ℕ} (h : i ≤ xs.length) :
  sliceFrom xs i = xs.drop i
  := by
  rw [sliceFrom, bound_natCast, Nat.min_eq_left h]

theorem item_natCast (xs : List α) (i : ℕ) : item xs i = xs[i]? := by
  rw [item, if_pos (by omega), Int.toNat_natCast]

theorem length_slice (xs : List α) (i j : ℤ) :
  (slice xs i j).length = bound xs.length j - bound xs.length i
  := by
  rw [slice, List.length_take, List.length_drop, bound, bound]
  split <;> split <;> omega

/-- A slice up to `n` behind its start has at most `n` entries. -/
theorem length_slice_add_le (xs : List α) (i : ℤ) (n : ℕ) :
  (slice xs i (i + n)).length ≤ n
  := by
  rw [length_slice, bound, bound]
  split <;> split <;> omega

/-- A slice with as many entries as its bounds are apart lies in the sequence. -/
theorem bound_of_length_slice {xs : List α} {i : ℤ} {n : ℕ} (hn : 0 < n)
    (h : (slice xs i (i + n)).length = n) :
  -(xs.length : ℤ) ≤ i ∧ (i + n ≤ xs.length)
  := by
  rw [length_slice, bound, bound] at h
  split at h <;> split at h <;> omega

/-- A bound inside of a sequence, counted from the start or from the end, is an item. -/
theorem item_isSome {xs : List α} {i : ℤ} (hlo : -(xs.length : ℤ) ≤ i) (hhi : i < xs.length) :
  (item xs i).isSome
  := by
  rw [item]
  split
  · rw [List.getElem?_eq_getElem (by omega)]
    rfl
  · rw [if_pos (by omega), List.getElem?_eq_getElem (by omega)]
    rfl

end Slices

/-! ### Last occurrences -/

section Rfind

variable {α : Type*} [DecidableEq α]

/-- `xs.rfind(pat)`: where `pat` occurs last, if it does. -/
def rfind (pat : List α) : List α → Option ℕ
  | [] => if pat = [] then some 0 else none
  | x :: xs =>
    match rfind pat xs with
    | some i => some (i + 1)
    | none => if pat <+: x :: xs then some 0 else none

theorem rfind_eq_none_iff {pat : List α} (hpat : pat ≠ []) {xs : List α} :
  rfind pat xs = none ↔ ∀ i, ¬ pat <+: xs.drop i
  := by
  induction xs with
  | nil => simp [rfind, hpat]
  | cons x xs ih =>
      rw [rfind]
      cases hxs : rfind pat xs with
      | some i =>
          have hnot : ¬ rfind pat xs = none := by
            rw [hxs]
            nofun
          rw [ih, not_forall] at hnot
          obtain ⟨j, hj⟩ := hnot
          constructor
          · nofun
          · intro h
            exact absurd (h (j + 1)) hj
      | none =>
          have hrest := ih.mp hxs
          simp only
          constructor
          · intro h i
            cases i with
            | zero =>
                split at h
                · cases h
                · assumption
            | succ i => exact hrest i
          · intro h
            apply if_neg (h 0)

theorem rfind_eq_some_iff {pat : List α} (hpat : pat ≠ []) {xs : List α} {i : ℕ} :
  rfind pat xs = some i ↔ pat <+: xs.drop i ∧ ∀ j, i < j → ¬ pat <+: xs.drop j
  := by
  induction xs generalizing i with
  | nil => simp [rfind, hpat]
  | cons x xs ih =>
      rw [rfind]
      cases hxs : rfind pat xs with
      | some k =>
          obtain ⟨hk, hlast⟩ := ih.mp hxs
          simp only [Option.some.injEq]
          constructor
          · rintro rfl
            refine ⟨hk, ?_⟩
            intro j hj
            obtain ⟨j, rfl⟩ := Nat.exists_eq_add_of_lt (Nat.lt_of_le_of_lt (Nat.zero_le _) hj)
            rw [Nat.zero_add, List.drop_succ_cons]
            apply hlast j (by omega)
          · rintro ⟨hi, hnone⟩
            cases i with
            | zero => exact absurd hk (hnone (k + 1) (by omega))
            | succ i =>
                congr 1
                apply Nat.le_antisymm
                · by_contra hlt
                  exact hnone (k + 1) (by omega) hk
                · by_contra hlt
                  exact hlast i (by omega) hi
      | none =>
          have hrest := (rfind_eq_none_iff hpat).mp hxs
          simp only
          constructor
          · intro h
            split at h
            · next hocc =>
              cases h
              refine ⟨hocc, ?_⟩
              intro j hj
              obtain ⟨j, rfl⟩ := Nat.exists_eq_add_of_lt hj
              rw [Nat.zero_add, List.drop_succ_cons]
              apply hrest
            · cases h
          · rintro ⟨hi, -⟩
            cases i with
            | zero =>
                rw [List.drop_zero] at hi
                rw [if_pos hi]
            | succ i => exact absurd hi (hrest i)

/-- Where `pat` occurs, it occurs last at that place or behind it. -/
theorem exists_rfind {pat : List α} (hpat : pat ≠ []) {xs : List α} {i : ℕ}
    (h : pat <+: xs.drop i) :
  ∃ k, rfind pat xs = some k ∧ i ≤ k
  := by
  cases hfind : rfind pat xs with
  | none => exact absurd h ((rfind_eq_none_iff hpat).mp hfind i)
  | some k =>
      refine ⟨k, rfl, ?_⟩
      by_contra hlt
      exact ((rfind_eq_some_iff hpat).mp hfind).2 i (by omega) h

theorem rfind_congr {pat : List α} (hpat : pat ≠ []) {xs ys : List α}
    (h : ∀ i, pat <+: xs.drop i ↔ pat <+: ys.drop i) :
  rfind pat xs = rfind pat ys
  := by
  apply Option.ext
  intro i
  rw [rfind_eq_some_iff hpat, rfind_eq_some_iff hpat]
  simp only [h]

/-- What is in front does not matter for the last occurrence. -/
theorem rfind_append {pat : List α} (hpat : pat ≠ []) (xs : List α) {ys : List α} {i : ℕ}
    (h : rfind pat ys = some i) :
  rfind pat (xs ++ ys) = some (xs.length + i)
  := by
  obtain ⟨hi, hlast⟩ := (rfind_eq_some_iff hpat).mp h
  apply (rfind_eq_some_iff hpat).mpr
  refine ⟨by rwa [List.drop_length_add_append], ?_⟩
  intro j hj
  obtain ⟨k, rfl⟩ := Nat.exists_eq_add_of_le (Nat.le_trans (Nat.le_add_right _ i) (Nat.le_of_lt hj))
  rw [List.drop_length_add_append]
  apply hlast k (by omega)

/-- One more entry adds an occurrence only to a list that ends with all but the last entry of
what is looked for. -/
theorem rfind_concat {pat : List α} {c : α} {xs : List α} (h : ¬ pat <:+ xs) (c' : α) :
  rfind (pat ++ [c]) (xs ++ [c']) = rfind (pat ++ [c]) xs
  := by
  apply rfind_congr (by simp)
  intro i
  rcases Nat.lt_or_ge xs.length i with hlt | hle
  · rw [List.drop_of_length_le (Nat.le_of_lt hlt), List.drop_of_length_le]
    rw [List.length_append]
    exact hlt
  · rw [List.drop_append_of_le_length hle, List.prefix_concat_iff]
    constructor
    · rintro (heq | hocc)
      · have hpat := (List.append_inj' heq rfl).1
        apply absurd _ h
        rw [hpat]
        apply List.drop_suffix
      · exact hocc
    · exact .inr

end Rfind

/-! ### Integers -/

/-- `Py_ISSPACE`. -/
def isSpace (c : UInt8) : Bool := (9 ≤ c && c ≤ 13) || c == 32

/-- The value of a hexadecimal digit. -/
def hexValue (c : UInt8) : Option ℕ :=
  if 48 ≤ c ∧ c ≤ 57 then some (c.toNat - 48)
  else if 97 ≤ c ∧ c ≤ 102 then some (c.toNat - 87)
  else if 65 ≤ c ∧ c ≤ 70 then some (c.toNat - 55)
  else none

/-- A sign, and what follows it; whether the sign is a minus. -/
def sign (s : Bytes) : Bool × Bytes :=
  match s with
  | 43 :: s => (false, s)
  | 45 :: s => (true, s)
  | s => (false, s)

/-- What follows a prefix `0x`, and one underscore behind it. -/
def afterPrefix (s : Bytes) : Bytes :=
  match s with
  | 48 :: 120 :: 95 :: s => s
  | 48 :: 88 :: 95 :: s => s
  | 48 :: 120 :: s => s
  | 48 :: 88 :: s => s
  | s => s

/-- Digits, with at most one underscore between two of them: their value, and what follows.
The digits read so far have the value `acc`, and `underscore` tells whether an underscore was
read last. -/
def digits (acc : ℕ) (underscore : Bool) : Bytes → Option (ℕ × Bytes)
  | [] => if underscore then none else some (acc, [])
  | c :: s =>
    match hexValue c with
    | some d => digits (16 * acc + d) false s
    | none =>
      if underscore then none
      else if c = 95 then digits acc true s
      else some (acc, c :: s)

/-- A number begins with a digit. -/
def number (s : Bytes) : Option (ℕ × Bytes) :=
  match s with
  | [] => none
  | c :: s => if (hexValue c).isSome then digits 0 false (c :: s) else none

/-- `int(s, 16)`; a byte string that is not a number gives none. -/
def intHex (s : Bytes) : Option ℤ :=
  let (negative, s) := sign (s.dropWhile isSpace)
  match number (afterPrefix s) with
  | some (n, rest) =>
    if rest.all isSpace then some (if negative then -(n : ℤ) else n) else none
  | none => none

/-! ### Bounds -/

theorem hexValue_lt {c : UInt8} {d : ℕ} (h : hexValue c = some d) : d < 16 := by
  have hall : ∀ n < 256, ∀ d ∈ hexValue (UInt8.ofNat n), d < 16 := by decide +kernel
  have hlt := hall c.toNat c.toNat_lt d
  rw [UInt8.ofNat_toNat] at hlt
  apply hlt h

theorem digits_lt {acc : ℕ} {underscore : Bool} {s rest : Bytes} {n : ℕ}
    (h : digits acc underscore s = some (n, rest)) :
  n < (acc + 1) * 16 ^ s.length
  := by
  induction s generalizing acc underscore with
  | nil =>
      rw [digits] at h
      split at h
      · cases h
      · cases h
        simp
  | cons c s ih =>
      rw [List.length_cons, Nat.pow_succ]
      rw [digits] at h
      split at h
      · next d hd =>
        have hlt := hexValue_lt hd
        have ih := ih h
        have hle : (16 * acc + d + 1) * 16 ^ s.length ≤ (acc + 1) * 16 * 16 ^ s.length :=
          Nat.mul_le_mul_right _ (by omega)
        grind
      · split at h
        · cases h
        · split at h
          · have ih := ih h
            grind
          · cases h
            have hpos : 0 < 16 ^ s.length := Nat.pow_pos (by decide)
            nlinarith

theorem number_lt {s rest : Bytes} {n : ℕ} (h : number s = some (n, rest)) :
  n < 16 ^ s.length
  := by
  unfold number at h
  split at h
  · cases h
  · split at h
    · simpa using digits_lt h
    · cases h

theorem length_afterPrefix_le (s : Bytes) : (afterPrefix s).length ≤ s.length := by
  unfold afterPrefix
  split <;> grind

theorem length_sign_le (s : Bytes) :
  (sign s).2.length ≤ s.length ∧ ((sign s).1 = true → (sign s).2.length + 1 ≤ s.length)
  := by
  unfold sign
  split <;> simp

/-- The integer of a byte string of at most `k + 1` bytes is of at most `k + 1` digits, or of
`k` if it is negative. -/
theorem intHex_bounds {s : Bytes} {v : ℤ} {k : ℕ} (hs : s.length ≤ k + 1)
    (h : intHex s = some v) :
  -(16 ^ k : ℤ) < v ∧ v < 16 ^ (k + 1)
  := by
  have hdrop : (s.dropWhile isSpace).length ≤ s.length := (List.dropWhile_sublist _).length_le
  obtain ⟨hlen, hneg⟩ := length_sign_le (s.dropWhile isSpace)
  unfold intHex at h
  obtain ⟨negative, t, ht⟩ : ∃ negative t, sign (s.dropWhile isSpace) = (negative, t) :=
    ⟨_, _, rfl⟩
  rw [ht] at h hlen hneg
  have hocc := length_afterPrefix_le t
  simp only at h hlen hneg
  split at h
  · next n rest hn =>
    have hlt := number_lt hn
    split at h
    · obtain rfl := Option.some.inj h
      cases negative with
      | true =>
          have hlen := hneg rfl
          have hle : 16 ^ (afterPrefix t).length ≤ 16 ^ k :=
            Nat.pow_le_pow_right (by decide) (by omega)
          have hn : (n : ℤ) < 16 ^ k := by exact_mod_cast Nat.lt_of_lt_of_le hlt hle
          have hpos : (0 : ℤ) < 16 ^ (k + 1) := by positivity
          simp only [if_true]
          constructor
          · omega
          · omega
      | false =>
          have hle : 16 ^ (afterPrefix t).length ≤ 16 ^ (k + 1) :=
            Nat.pow_le_pow_right (by decide) (by omega)
          have hn : (n : ℤ) < 16 ^ (k + 1) := by exact_mod_cast Nat.lt_of_lt_of_le hlt hle
          have hpos : (0 : ℤ) < 16 ^ k := by positivity
          simp only [Bool.false_eq_true, if_false]
          constructor
          · omega
          · exact hn
    · cases h
  · cases h

/-! ### Formats -/

/-- The digit of a value below 16. -/
def upperDigit (d : ℕ) : UInt8 := if d < 10 then UInt8.ofNat (48 + d) else UInt8.ofNat (55 + d)

/-- The values of the digits that `f"{v:08X}"` writes behind the sign. -/
def digits08X (v : ℤ) : List ℕ :=
  let digits := (Nat.digits 16 v.natAbs).reverse
  List.replicate ((if v < 0 then 7 else 8) - digits.length) 0 ++ digits

/-- `f"{v:08X}"`. -/
def format08X (v : ℤ) : Bytes :=
  (if v < 0 then [45] else []) ++ (digits08X v).map upperDigit

theorem upperDigit_spec {d : ℕ} (h : d < 16) :
  hexValue (upperDigit d) = some d ∧ isSpace (upperDigit d) = false ∧
    upperDigit d ≠ 43 ∧ upperDigit d ≠ 45 ∧ upperDigit d ≠ 88 ∧ upperDigit d ≠ 120
  := by
  have hall : ∀ d < 16, hexValue (upperDigit d) = some d ∧ isSpace (upperDigit d) = false ∧
      upperDigit d ≠ 43 ∧ upperDigit d ≠ 45 ∧ upperDigit d ≠ 88 ∧ upperDigit d ≠ 120 := by
    decide
  apply hall d h

/-- The value of digits, the first the highest. -/
def value (ds : List ℕ) : ℕ := ds.foldl (fun acc d => 16 * acc + d) 0

theorem digits_upperDigit {ds : List ℕ} (h : ∀ d ∈ ds, d < 16) (acc : ℕ) :
  digits acc false (ds.map upperDigit) = some (ds.foldl (fun acc d => 16 * acc + d) acc, [])
  := by
  induction ds generalizing acc with
  | nil => rfl
  | cons d ds ih =>
      obtain ⟨hvalue, -⟩ := upperDigit_spec (h d List.mem_cons_self)
      rw [List.map_cons, digits, hvalue, List.foldl_cons]
      apply ih
      intro d hd
      apply h d (List.mem_cons_of_mem _ hd)

theorem afterPrefix_upperDigit {ds : List ℕ} (h : ∀ d ∈ ds, d < 16) :
  afterPrefix (ds.map upperDigit) = ds.map upperDigit
  := by
  cases ds with
  | nil => rfl
  | cons d ds =>
      cases ds with
      | nil =>
          unfold afterPrefix
          split <;> simp_all
      | cons d' ds =>
          obtain ⟨-, -, -, -, hX, hx⟩ := upperDigit_spec
            (h d' (List.mem_cons_of_mem _ List.mem_cons_self))
          unfold afterPrefix
          split <;> simp_all

/-- Digits are read as their value. -/
theorem number_upperDigit {ds : List ℕ} (hne : ds ≠ []) (h : ∀ d ∈ ds, d < 16) :
  number (afterPrefix (ds.map upperDigit)) = some (value ds, [])
  := by
  obtain ⟨d, ds, rfl⟩ := List.exists_cons_of_ne_nil hne
  obtain ⟨hvalue, -⟩ := upperDigit_spec (h d List.mem_cons_self)
  rw [afterPrefix_upperDigit h, List.map_cons, number, hvalue, ← List.map_cons]
  apply digits_upperDigit h

theorem intHex_upperDigit {ds : List ℕ} (hne : ds ≠ []) (h : ∀ d ∈ ds, d < 16) :
  intHex (ds.map upperDigit) = some (value ds : ℤ)
  := by
  have hnumber := number_upperDigit hne h
  obtain ⟨d, ds, rfl⟩ := List.exists_cons_of_ne_nil hne
  obtain ⟨-, hspace, hplus, hminus, -⟩ := upperDigit_spec (h d List.mem_cons_self)
  have hdrop : ((d :: ds).map upperDigit).dropWhile isSpace = (d :: ds).map upperDigit := by
    rw [List.map_cons, List.dropWhile_cons_of_neg (by simp [hspace])]
  have hsign : sign ((d :: ds).map upperDigit) = (false, (d :: ds).map upperDigit) := by
    unfold sign
    split <;> simp_all
  rw [intHex, hdrop, hsign]
  simp only [hnumber]
  rfl

theorem intHex_minus_upperDigit {ds : List ℕ} (hne : ds ≠ []) (h : ∀ d ∈ ds, d < 16) :
  intHex (45 :: ds.map upperDigit) = some (-(value ds : ℤ))
  := by
  have hdrop : (45 :: ds.map upperDigit).dropWhile isSpace = 45 :: ds.map upperDigit :=
    List.dropWhile_cons_of_neg (by decide)
  rw [intHex, hdrop, sign]
  simp only [number_upperDigit hne h]
  rfl

theorem value_digits08X (v : ℤ) : value (digits08X v) = v.natAbs := by
  have hzeros (n : ℕ) (ds : List ℕ) : value (List.replicate n 0 ++ ds) = value ds := by
    induction n with
    | zero => rfl
    | succ n ih =>
        rw [← ih, List.replicate_succ]
        rfl
  have hvalue : value (Nat.digits 16 v.natAbs).reverse = v.natAbs := by
    rw [value, List.foldl_reverse]
    conv_rhs => rw [← Nat.ofDigits_digits 16 v.natAbs, Nat.ofDigits_eq_foldr]
    congr 1
    funext d acc
    simp [Nat.add_comm]
  rw [digits08X, hzeros, hvalue]

theorem digits08X_lt (v : ℤ) : ∀ d ∈ digits08X v, d < 16 := by
  intro d hd
  rcases List.mem_append.mp hd with hd | hd
  · rw [List.eq_of_mem_replicate hd]
    decide
  · apply Nat.digits_lt_base (by decide) (List.mem_reverse.mp hd)

theorem length_digits08X_ge (v : ℤ) : (if v < 0 then 7 else 8) ≤ (digits08X v).length := by
  rw [digits08X, List.length_append, List.length_replicate]
  omega

theorem digits08X_ne_nil (v : ℤ) : digits08X v ≠ [] := by
  have hle := length_digits08X_ge v
  intro hnil
  rw [hnil] at hle
  split at hle <;> cases hle

theorem length_format08X_ge (v : ℤ) : 8 ≤ (format08X v).length := by
  have hle := length_digits08X_ge v
  rw [format08X, List.length_append, List.length_map]
  split at hle
  · next hneg =>
    rw [if_pos hneg, List.length_singleton]
    omega
  · next hneg =>
    rw [if_neg hneg, List.length_nil]
    omega

/-- A number of at most 8 digits, or of 7 and a sign, is written in 8 bytes. -/
theorem length_format08X {v : ℤ} (hlo : -(16 ^ 7 : ℤ) < v) (hhi : v < 16 ^ 8) :
  (format08X v).length = 8
  := by
  have hlen (k : ℕ) (hk : v.natAbs < 16 ^ k) : (Nat.digits 16 v.natAbs).length ≤ k :=
    (Nat.digits_length_le_iff (by decide) _).mpr hk
  rw [format08X, digits08X, List.length_append, List.length_map, List.length_append,
    List.length_replicate, List.length_reverse]
  split
  · have hle := hlen 7 (by omega)
    simp only [List.length_singleton]
    omega
  · have hle := hlen 8 (by omega)
    simp only [List.length_nil]
    omega

/-- What is written is read back. -/
theorem intHex_format08X (v : ℤ) : intHex (format08X v) = some v := by
  rw [format08X]
  split
  · rw [List.singleton_append, intHex_minus_upperDigit (digits08X_ne_nil v) (digits08X_lt v),
      value_digits08X]
    congr 1
    omega
  · rw [List.nil_append, intHex_upperDigit (digits08X_ne_nil v) (digits08X_lt v), value_digits08X]
    congr 1
    omega

/-- The first bytes of a number that is not negative are read as one that is not either. -/
theorem intHex_take_format08X {v : ℤ} (h : 0 ≤ v) {k : ℕ} (hk : 0 < k) :
  ∃ n : ℕ, intHex ((format08X v).take k) = some (n : ℤ)
  := by
  use value ((digits08X v).take k)
  rw [format08X, if_neg (by omega), List.nil_append, ← List.map_take]
  apply intHex_upperDigit
  · simp [digits08X_ne_nil, Nat.pos_iff_ne_zero.mp hk]
  · intro d hd
    apply digits08X_lt v d (List.mem_of_mem_take hd)

/-- The digit of a value below 16, as `hex` writes it. -/
def lowerDigit (d : ℕ) : UInt8 := if d < 10 then UInt8.ofNat (48 + d) else UInt8.ofNat (87 + d)

/-- `bs.hex()`. -/
def hex (bs : Bytes) : Bytes :=
  bs.flatMap fun b => [lowerDigit (b.toNat / 16), lowerDigit (b.toNat % 16)]

@[simp] theorem length_hex (bs : Bytes) : (hex bs).length = 2 * bs.length := by
  rw [hex, List.length_flatMap]
  simp [Nat.mul_comm]

theorem exists_lowerDigit_of_mem_hex {bs : Bytes} {c : UInt8} (h : c ∈ hex bs) :
  ∃ d < 16, c = lowerDigit d
  := by
  obtain ⟨b, -, hc⟩ := List.mem_flatMap.mp h
  have hlt := b.toNat_lt
  rcases List.mem_cons.mp hc with rfl | hc
  · exact ⟨b.toNat / 16, by omega, rfl⟩
  · exact ⟨b.toNat % 16, Nat.mod_lt _ (by decide), List.mem_singleton.mp hc⟩

end Python

import CatplayFirmware.Support.Text
import Mathlib.Data.UInt
import Mathlib.Tactic.IntervalCases

/-!
# Hexadecimal numerals

`char::to_digit(16)` and `u32::from_str_radix(_, 16)`, which allows a plus sign before the digits
and both cases of the letters; the format of the lowest digits of a number is read back.
-/

namespace Text

/-- `char::to_digit(16)`. -/
def toDigit16 (c : Char) : Option ℕ :=
  if '0' ≤ c ∧ c ≤ '9' then some (c.toNat - 48)
  else if 'a' ≤ c ∧ c ≤ 'f' then some (c.toNat - 87)
  else if 'A' ≤ c ∧ c ≤ 'F' then some (c.toNat - 55)
  else none

/-- The value of digits behind those of the value `acc`. -/
def digits16 : (acc : ℕ) → Text → Option ℕ
  | acc, [] => some acc
  | acc, c :: s =>
    match toDigit16 c with
    | some d => digits16 (acc * 16 + d) s
    | none => none

/-- `u32::from_str_radix(_, 16)`. -/
def fromStrRadix16 (s : Text) : Option UInt32 :=
  if stripPlus s = [] then none
  else ((digits16 0 (stripPlus s)).filter (· < 0x100000000)).map UInt32.ofNat

/-- What is so for the codes of a range is so for its characters. -/
theorem of_mem_range {p : Char → Prop} (lo hi : ℕ) {c : Char} (hc : lo ≤ c.toNat ∧ c.toNat ≤ hi)
    (h : ∀ n, lo ≤ n → n ≤ hi → p (Char.ofNat n)) :
  p c
  := by
  rw [← Char.ofNat_toNat c]
  exact h c.toNat hc.1 hc.2

/-- A digit in lower case is that of its value. -/
theorem toLower_of_toDigit16 {c : Char} {d : ℕ} (h : toDigit16 c = some d) :
  d < 16 ∧ c.toLower = Nat.digitChar d ∧ c.utf8Size = 1
  := by
  rw [toDigit16] at h
  split at h
  · next hc =>
    obtain rfl := Option.some.inj h
    apply of_mem_range 48 57 hc
    intro n hlo hhi
    interval_cases n <;> decide
  split at h
  · next hc =>
    obtain rfl := Option.some.inj h
    apply of_mem_range 97 102 hc
    intro n hlo hhi
    interval_cases n <;> decide
  split at h
  · next hc =>
    obtain rfl := Option.some.inj h
    apply of_mem_range 65 70 hc
    intro n hlo hhi
    interval_cases n <;> decide
  · cases h

theorem toDigit16_digitChar {d : ℕ} (h : d < 16) : toDigit16 (Nat.digitChar d) = some d := by
  interval_cases d <;> rfl

theorem digits16_concat (acc : ℕ) (s : Text) (c : Char) :
  digits16 acc (s ++ [c]) =
    (digits16 acc s).bind fun n => (toDigit16 c).map fun d => n * 16 + d
  := by
  induction s generalizing acc with
  | nil =>
      rw [List.nil_append, digits16, digits16, Option.bind_some]
      cases toDigit16 c <;> rfl
  | cons b s ih =>
      rw [List.cons_append, digits16, digits16]
      cases toDigit16 b with
      | none => rfl
      | some d => exact ih _

/-- The digits of a number in any case are its digits. -/
theorem map_toLower_of_digits16 {s : Text} {n : ℕ} (h : digits16 0 s = some n) :
  n < 16 ^ s.length ∧ s.map Char.toLower = hexDigits s.length n ∧ byteLen s = s.length
  := by
  induction s using List.reverseRecOn generalizing n with
  | nil =>
      cases h
      exact ⟨Nat.one_pos, rfl, rfl⟩
  | append_singleton s c ih =>
      rw [digits16_concat] at h
      obtain ⟨m, hm, h⟩ := Option.bind_eq_some_iff.mp h
      obtain ⟨d, hd, rfl⟩ := Option.map_eq_some_iff.mp h
      obtain ⟨hlt, hlower, hlen⟩ := ih hm
      obtain ⟨hdigit, hchar, hsize⟩ := toLower_of_toDigit16 hd
      have hdiv : (m * 16 + d) / 16 = m := by omega
      have hmod : (m * 16 + d) % 16 = d := by omega
      refine ⟨?_, ?_, ?_⟩
      · rw [List.length_append, List.length_singleton, Nat.pow_succ]
        omega
      · rw [List.map_append, List.length_append, List.length_singleton, hexDigits, hdiv, hmod,
          hlower, List.map_singleton, hchar]
      · rw [byteLen_append, List.length_append, hlen, byteLen_cons, hsize]
        rfl

/-- The lowest digits of a number are read back. -/
theorem digits16_hexDigits (k n : ℕ) : digits16 0 (hexDigits k n) = some (n % 16 ^ k) := by
  induction k generalizing n with
  | zero => rw [hexDigits, digits16, Nat.pow_zero, Nat.mod_one]
  | succ k ih =>
      have hdigit := toDigit16_digitChar (Nat.mod_lt n (Nat.succ_pos 15))
      have hsplit : n / 16 % 16 ^ k * 16 + n % 16 = n % 16 ^ (k + 1) := by
        rw [Nat.pow_succ, Nat.mul_comm (16 ^ k), Nat.mod_mul]
        omega
      rw [hexDigits, digits16_concat, ih, hdigit, Option.bind_some, Option.map_some, hsplit]

theorem length_hexDigits (k n : ℕ) : (hexDigits k n).length = k := by
  induction k generalizing n with
  | zero => rfl
  | succ k ih => rw [hexDigits, List.length_append, ih, List.length_singleton]

theorem digit_of_mem_hexDigits {k n : ℕ} {c : Char} (h : c ∈ hexDigits k n) :
  ∃ d < 16, c = Nat.digitChar d
  := by
  induction k generalizing n with
  | zero => cases h
  | succ k ih =>
      rw [hexDigits, List.mem_append, List.mem_singleton] at h
      rcases h with h | h
      · exact ih h
      · exact ⟨n % 16, Nat.mod_lt _ (by omega), h⟩

theorem byteLen_hexDigits (k n : ℕ) : byteLen (hexDigits k n) = k := by
  obtain ⟨-, -, hlen⟩ := map_toLower_of_digits16 (digits16_hexDigits k n)
  rw [hlen, length_hexDigits]

/-- A number of 32 bits is read back from its eight digits. -/
theorem fromStrRadix16_hexDigits (n : UInt32) :
  fromStrRadix16 (hexDigits 8 n.toNat) = some n
  := by
  have hplus : stripPlus (hexDigits 8 n.toNat) = hexDigits 8 n.toNat := by
    cases hdigits : hexDigits 8 n.toNat with
    | nil => rfl
    | cons c s =>
        apply stripPlus_cons
        rintro rfl
        obtain ⟨d, hd, hdigit⟩ := digit_of_mem_hexDigits (hdigits ▸ List.mem_cons_self)
        interval_cases d <;> cases hdigit
  have hne : hexDigits 8 n.toNat ≠ [] := by
    rw [← List.length_pos_iff, length_hexDigits]
    omega
  have hlt : n.toNat < 0x100000000 := n.toNat_lt
  have hmod : n.toNat % 16 ^ 8 = n.toNat := Nat.mod_eq_of_lt hlt
  rw [fromStrRadix16, hplus, if_neg hne, digits16_hexDigits, hmod, Option.filter_some_pos,
    Option.map_some, UInt32.ofNat_toNat]
  exact decide_eq_true hlt

/-- `f"{n:08x}"`. -/
def format08x (n : ℕ) : Text := List.leftpad 8 '0' (Nat.toDigits 16 n)

theorem digits16_toDigits (n : ℕ) : digits16 0 (Nat.toDigits 16 n) = some n := by
  induction n using Nat.strong_induction_on with
  | h n ih =>
      have hdigit := toDigit16_digitChar (Nat.mod_lt n (Nat.succ_pos 15))
      rcases Nat.lt_or_ge n 16 with hlt | hge
      · rw [Nat.toDigits_of_lt_base hlt, digits16, toDigit16_digitChar hlt]
        change digits16 (0 * 16 + n) [] = some n
        rw [Nat.zero_mul, Nat.zero_add, digits16]
      · rw [Nat.toDigits_of_base_le (by decide) hge, digits16_concat, ih _ (by omega), hdigit,
          Option.bind_some, Option.map_some]
        congr 1
        omega

theorem digits16_replicate_zero (k : ℕ) (s : Text) :
  digits16 0 (List.replicate k '0' ++ s) = digits16 0 s
  := by
  induction k with
  | zero => rw [List.replicate_zero, List.nil_append]
  | succ k ih => exact ih

/-- A number is read back from its digits. -/
theorem digits16_format08x (n : ℕ) : digits16 0 (format08x n) = some n := by
  rw [format08x, List.leftpad, digits16_replicate_zero, digits16_toDigits]

theorem digit_of_mem_format08x {n : ℕ} {c : Char} (h : c ∈ format08x n) :
  ∃ d < 16, c = Nat.digitChar d
  := by
  have hdigits : ∀ m, c ∈ Nat.toDigits 16 m → ∃ d < 16, c = Nat.digitChar d := by
    intro m
    induction m using Nat.strong_induction_on with
    | h m ih =>
        intro hc
        rcases Nat.lt_or_ge m 16 with hlt | hge
        · rw [Nat.toDigits_of_lt_base hlt, List.mem_singleton] at hc
          exact ⟨m, hlt, hc⟩
        · rw [Nat.toDigits_of_base_le (by decide) hge, List.mem_append, List.mem_singleton] at hc
          rcases hc with hc | hc
          · exact ih _ (by omega) hc
          · exact ⟨m % 16, Nat.mod_lt _ (by decide), hc⟩
  rw [format08x, List.leftpad, List.mem_append] at h
  rcases h with h | h
  · exact ⟨0, by decide, List.eq_of_mem_replicate h⟩
  · exact hdigits n h

end Text

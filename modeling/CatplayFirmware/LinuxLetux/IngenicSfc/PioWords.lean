import CatplayFirmware.LinuxLetux.IngenicSfc.Pio

/-!
# Bytes in words

The driver packs the bytes of a buffer into words, the last of which may be partial, and unpacks
them again.
-/

namespace IngenicSfc

open Bytes

/-- The bits of a word, the first byte lowest. -/
theorem getLsbD_wordOf_cons (b : UInt8) (bs : Bytes) (i : ℕ) :
  (wordOf (b :: bs)).getLsbD i =
    (decide (i < 32) && (b.toBitVec.getLsbD i || (!decide (i < 8) && (wordOf bs).getLsbD (i - 8))))
  := by
  have hcons : wordOf (b :: bs) = b.toBitVec.setWidth 32 ||| wordOf bs <<< 8 := rfl
  rw [hcons, BitVec.getLsbD_or, BitVec.getLsbD_setWidth, BitVec.getLsbD_shiftLeft]
  by_cases hi : i < 32 <;> simp [hi]

/-- A word has no bits behind its bytes. -/
theorem getLsbD_wordOf_of_le {bs : Bytes} {i : ℕ} (h : 8 * bs.length ≤ i) :
  (wordOf bs).getLsbD i = false
  := by
  induction bs generalizing i with
  | nil => exact BitVec.getLsbD_zero
  | cons b bs ih =>
      rw [List.length_cons] at h
      rw [getLsbD_wordOf_cons, ih (by omega), BitVec.getLsbD_of_ge b.toBitVec i (by omega)]
      simp

/-- The bytes of a word are those that it is made of. -/
theorem bytesOf_wordOf {bs : Bytes} (h : bs.length ≤ 4) : bytesOf bs.length (wordOf bs) = bs := by
  induction bs with
  | nil => rfl
  | cons b bs ih =>
      rw [List.length_cons] at h
      have hlow : (wordOf (b :: bs)).setWidth 8 = b.toBitVec := by
        apply BitVec.eq_of_getLsbD_eq
        intro i hi
        rw [BitVec.getLsbD_setWidth, getLsbD_wordOf_cons]
        simp [hi, show i < 32 by omega]
      have hhigh : wordOf (b :: bs) >>> 8 = wordOf bs := by
        apply BitVec.eq_of_getLsbD_eq
        intro i hi
        rw [BitVec.getLsbD_ushiftRight, getLsbD_wordOf_cons,
          BitVec.getLsbD_of_ge b.toBitVec (8 + i) (by omega), Nat.add_sub_cancel_left]
        by_cases hfits : 8 + i < 32
        · simp [hfits]
        · rw [getLsbD_wordOf_of_le (by omega)]
          simp
      rw [List.length_cons, bytesOf, hlow, hhigh, ih (by omega), UInt8.ofBitVec_toBitVec]

@[simp] theorem length_bytesOf (n : ℕ) (w : Word) : (bytesOf n w).length = n := by
  induction n generalizing w with
  | zero => rfl
  | succ n ih => rw [bytesOf, List.length_cons, ih]

/-- The first bytes of a word. -/
theorem take_bytesOf {k n : ℕ} (h : k ≤ n) (w : Word) : (bytesOf n w).take k = bytesOf k w := by
  induction k generalizing n w with
  | zero => rw [List.take_zero, bytesOf]
  | succ k ih =>
      cases n with
      | zero => cases h
      | succ n => rw [bytesOf, List.take_succ_cons, ih (Nat.le_of_succ_le_succ h), bytesOf]

/-- The first words of bytes. -/
def wordsOf : ℕ → Bytes → List Word
  | 0, _ => []
  | n + 1, bytes => wordOf (bytes.take 4) :: wordsOf n (bytes.drop 4)

/-- Whole words are taken from the front. -/
theorem wordsOf_append {k : ℕ} {front : Bytes} (h : front.length = 4 * k) (n : ℕ) (back : Bytes) :
  wordsOf (k + n) (front ++ back) = wordsOf k front ++ wordsOf n back
  := by
  induction k generalizing front with
  | zero =>
      obtain rfl := List.length_eq_zero_iff.mp h
      rw [Nat.zero_add, List.nil_append, wordsOf, List.nil_append]
  | succ k ih =>
      have hdrop : (front.drop 4).length = 4 * k := by
        rw [List.length_drop]
        omega
      rw [Nat.add_right_comm, wordsOf, wordsOf, List.take_append_of_le_length (by omega),
        List.drop_append_of_le_length (by omega), ih hdrop, List.cons_append]

@[simp] theorem length_wordsOf (n : ℕ) (bytes : Bytes) : (wordsOf n bytes).length = n := by
  induction n generalizing bytes with
  | zero => rfl
  | succ n ih => rw [wordsOf, List.length_cons, ih]

/-- All words of bytes. -/
def words (bytes : Bytes) : List Word := wordsOf ((bytes.length + 3) / 4) bytes

/-- The bytes of words. -/
def bytesOfWords (ws : List Word) : Bytes := ws.flatMap (bytesOf 4)

/-- Four bytes for a word. -/
theorem length_bytesOfWords (ws : List Word) : (bytesOfWords ws).length = 4 * ws.length := by
  induction ws with
  | nil => rfl
  | cons w ws ih =>
      rw [bytesOfWords, List.flatMap_cons, List.length_append, length_bytesOf, ← bytesOfWords, ih,
        List.length_cons]
      omega

theorem bytesOfWords_append (ws ws' : List Word) :
  bytesOfWords (ws ++ ws') = bytesOfWords ws ++ bytesOfWords ws'
  := List.flatMap_append

/-- The words of bytes, the last of which may be partial, have these bytes. -/
theorem take_bytesOfWords_words (bytes : Bytes) :
  (bytesOfWords (words bytes)).take bytes.length = bytes
  := by
  obtain ⟨n, hn⟩ : ∃ n, n = (bytes.length + 3) / 4 := ⟨_, rfl⟩
  rw [words, ← hn]
  induction n generalizing bytes with
  | zero =>
      have hnil : bytes.length = 0 := by omega
      rw [List.length_eq_zero_iff.mp hnil]
      rfl
  | succ n ih =>
      have htake : (bytes.take 4).length ≤ 4 := List.length_take_le 4 bytes
      have hdrop : (bytes.drop 4).length = bytes.length - 4 := List.length_drop
      rw [wordsOf, bytesOfWords, List.flatMap_cons, ← bytesOfWords, List.take_append,
        length_bytesOf]
      rcases Nat.le_total bytes.length 4 with hlast | hmore
      · rw [Nat.sub_eq_zero_of_le hlast, List.take_zero, List.append_nil, take_bytesOf hlast,
          List.take_of_length_le hlast, bytesOf_wordOf hlast]
      · have hfirst : bytesOf 4 (wordOf (bytes.take 4)) = bytes.take 4 := by
          have hlen : (bytes.take 4).length = 4 := List.length_take_of_le hmore
          have hword := @bytesOf_wordOf (bytes.take 4) (Nat.le_of_eq hlen)
          rwa [hlen] at hword
        rw [hfirst, List.take_of_length_le (Nat.le_trans htake hmore), ← hdrop, ih _ (by omega),
          List.take_append_drop]

/-- The words of one more word of bytes. -/
theorem words_take_add {bytes : Bytes} {p k : ℕ} (hp : 4 ∣ p) (hk : 0 < k ∧ k ≤ 4)
    (h : p + k ≤ bytes.length) :
  words (bytes.take (p + k)) = words (bytes.take p) ++ [wordOf (slice bytes p k)]
  := by
  have hfront : (bytes.take p).length = p := List.length_take_of_le (by omega)
  have hwhole : (bytes.take (p + k)).length = p + k := List.length_take_of_le h
  have hlast : (slice bytes p k).length = k := length_slice h
  have hcount : (p + k + 3) / 4 = p / 4 + 1 := by omega
  have hcountFront : (p + 3) / 4 = p / 4 := by omega
  have hword : (slice bytes p k).take 4 = slice bytes p k := List.take_of_length_le (by omega)
  rw [words, words, hwhole, hfront, hcount, hcountFront, ← take_append_slice,
    wordsOf_append (by omega), wordsOf, wordsOf, hword]

/-- The words before a position are the first ones. -/
theorem words_take_prefix {bytes : Bytes} {p : ℕ} (h : 4 ∣ p ∨ p = bytes.length)
    (hp : p ≤ bytes.length) :
  words (bytes.take p) <+: words bytes
  := by
  rcases h with hdvd | rfl
  · have hfront : (bytes.take p).length = p := List.length_take_of_le hp
    have hcount : (bytes.length + 3) / 4 = p / 4 + (bytes.length - p + 3) / 4 := by omega
    have hcountFront : (p + 3) / 4 = p / 4 := by omega
    rw [words, words, hfront, hcount, hcountFront]
    conv_rhs => rw [← List.take_append_drop p bytes]
    rw [wordsOf_append (by omega)]
    exact List.prefix_append _ _
  · exact ⟨[], by rw [List.take_length, List.append_nil]⟩

end IngenicSfc

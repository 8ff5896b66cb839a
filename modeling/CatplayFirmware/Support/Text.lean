import Mathlib.Algebra.GroupWithZero.Nat
import Mathlib.Algebra.Ring.Int.Defs
import Mathlib.Data.List.DropRight
import Mathlib.Data.List.Infix
import Mathlib.Tactic.Common

/-!
# Text

A text is a list of Unicode scalar values. The operations are those of Rust's `str`:
white space and trimming, lines, splitting at a character and at a substring, and decimal
numerals. Each comes with the laws that say how it reads back what was written by joining.
-/

/-- A text: a list of Unicode scalar values. -/
abbrev Text := List Char

namespace Text

/-- What holds of every character of a text is decided by going through the text, not through
all characters there are. -/
instance (priority := high) {P : Char → Prop} [DecidablePred P] (s : Text) :
    Decidable (∀ c ∈ s, P c) :=
  List.decidableBAll P s

instance : LawfulBEq Text := inferInstance

/-- The number of bytes of the UTF-8 encoding, `str::len`. -/
def byteLen (s : Text) : ℕ := (s.map Char.utf8Size).sum

@[simp] theorem byteLen_nil : byteLen [] = 0 := rfl

@[simp] theorem byteLen_cons (c : Char) (s : Text) :
  byteLen (c :: s) = c.utf8Size + byteLen s
  := by
  simp [byteLen]

@[simp] theorem byteLen_append (s t : Text) :
  byteLen (s ++ t) = byteLen s + byteLen t
  := by
  simp [byteLen]

/-- `str::contains` for a substring. -/
def contains (s pat : Text) : Bool := decide (pat <:+: s)

/-- `str::starts_with` for a character. -/
def startsWith (s : Text) (c : Char) : Bool := s.head? == some c

/-- `str::ends_with` for a character. -/
def endsWith (s : Text) (c : Char) : Bool := s.getLast? == some c

/-! ### Byte offsets -/

/-- The text before a byte offset of its UTF-8 encoding and the text from there on; there are
none inside a character and after the end. -/
def splitAtByte : Text → ℕ → Option (Text × Text)
  | s, 0 => some ([], s)
  | [], _ + 1 => none
  | c :: s, n + 1 =>
    if c.utf8Size ≤ n + 1 then
      (splitAtByte s (n + 1 - c.utf8Size)).map fun (a, b) => (c :: a, b)
    else none

/-- A text is cut at a byte offset exactly into a text of that many bytes and the rest. -/
theorem splitAtByte_eq_some_iff {s a b : Text} {n : ℕ} :
  splitAtByte s n = some (a, b) ↔ s = a ++ b ∧ byteLen a = n
  := by
  induction s generalizing a b n with
  | nil =>
      cases n with
      | zero =>
          rw [splitAtByte]
          constructor
          · rintro ⟨⟩
            exact ⟨rfl, rfl⟩
          · rintro ⟨hnil, -⟩
            obtain ⟨rfl, rfl⟩ := List.append_eq_nil_iff.mp hnil.symm
            rfl
      | succ n =>
          rw [splitAtByte]
          constructor
          · rintro ⟨⟩
          · rintro ⟨hnil, hlen⟩
            obtain ⟨rfl, rfl⟩ := List.append_eq_nil_iff.mp hnil.symm
            cases hlen
  | cons c s ih =>
      have hpos := Char.utf8Size_pos c
      cases n with
      | zero =>
          rw [splitAtByte]
          constructor
          · rintro ⟨⟩
            exact ⟨rfl, rfl⟩
          · rintro ⟨hs, hlen⟩
            cases a with
            | nil => rw [hs, List.nil_append]
            | cons d a =>
                have hd := Char.utf8Size_pos d
                rw [byteLen_cons] at hlen
                omega
      | succ n =>
          rw [splitAtByte]
          split
          · next hle =>
            rw [Option.map_eq_some_iff]
            constructor
            · rintro ⟨⟨a', b'⟩, hsplit, hab⟩
              obtain ⟨rfl, hlen⟩ := ih.mp hsplit
              cases hab
              use rfl
              rw [byteLen_cons, hlen]
              omega
            · rintro ⟨hs, hlen⟩
              cases a with
              | nil => cases hlen
              | cons d a =>
                  obtain ⟨rfl, rfl⟩ := List.cons.inj hs
                  rw [byteLen_cons] at hlen
                  use (a, b)
                  constructor
                  · apply ih.mpr ⟨rfl, _⟩
                    omega
                  · rfl
          · next hlt =>
            constructor
            · rintro ⟨⟩
            · rintro ⟨hs, hlen⟩
              cases a with
              | nil => cases hlen
              | cons d a =>
                  obtain ⟨rfl, rfl⟩ := List.cons.inj hs
                  rw [byteLen_cons] at hlen
                  omega

/-- Behind a text the offsets are those of what follows it. -/
theorem splitAtByte_append (a b : Text) (n : ℕ) :
  splitAtByte (a ++ b) (byteLen a + n) = (splitAtByte b n).map fun p => (a ++ p.1, p.2)
  := by
  induction a with
  | nil =>
      rw [byteLen_nil, Nat.zero_add, List.nil_append]
      exact Option.map_id'.symm
  | cons c a ih =>
      have hpos := Char.utf8Size_pos c
      obtain ⟨m, hm⟩ : ∃ m, byteLen (c :: a) + n = m + 1 := by
        refine ⟨byteLen (c :: a) + n - 1, ?_⟩
        rw [byteLen_cons]
        omega
      have hrest : m + 1 - c.utf8Size = byteLen a + n := by
        rw [← hm, byteLen_cons]
        omega
      have hle : c.utf8Size ≤ m + 1 := by
        rw [← hm, byteLen_cons]
        omega
      rw [hm, List.cons_append, splitAtByte, if_pos hle, hrest, ih, Option.map_map]
      rfl

/-- Whether a byte offset is at the end of a character or of none, `str::is_char_boundary`. -/
def IsCharBoundary (s : Text) (n : ℕ) : Prop := ∃ a b, s = a ++ b ∧ byteLen a = n

theorem isSome_splitAtByte {s : Text} {n : ℕ} :
  (splitAtByte s n).isSome ↔ IsCharBoundary s n
  := by
  rw [Option.isSome_iff_exists]
  constructor
  · rintro ⟨⟨a, b⟩, h⟩
    exact ⟨a, b, splitAtByte_eq_some_iff.mp h⟩
  · rintro ⟨a, b, h⟩
    exact ⟨(a, b), splitAtByte_eq_some_iff.mpr h⟩

instance (s : Text) (n : ℕ) : Decidable (IsCharBoundary s n) :=
  decidable_of_iff _ isSome_splitAtByte

/-! ### White space -/

/-- The characters with the Unicode property `White_Space`, `char::is_whitespace`. -/
def isWhitespace (c : Char) : Bool :=
  let n := c.toNat
  (0x09 ≤ n && n ≤ 0x0D) || n == 0x20 || n == 0x85 || n == 0xA0 || n == 0x1680
    || (0x2000 ≤ n && n ≤ 0x200A) || n == 0x2028 || n == 0x2029 || n == 0x202F
    || n == 0x205F || n == 0x3000

/-- `str::trim_start`. -/
def trimStart (s : Text) : Text := s.dropWhile isWhitespace

/-- `str::trim_end`. -/
def trimEnd (s : Text) : Text := s.rdropWhile isWhitespace

/-- `str::trim`. -/
def trim (s : Text) : Text := trimEnd (trimStart s)

/-- The text is empty or begins with a character that is not white space. -/
def SolidStart (s : Text) : Prop := ∀ c, s.head? = some c → isWhitespace c = false

/-- The text is empty or ends with a character that is not white space. -/
def SolidEnd (s : Text) : Prop := ∀ c, s.getLast? = some c → isWhitespace c = false

instance (s : Text) : Decidable (SolidStart s) :=
  match h : s.head? with
  | none => isTrue (by simp [SolidStart, h])
  | some c => decidable_of_iff (isWhitespace c = false) (by simp [SolidStart, h])

instance (s : Text) : Decidable (SolidEnd s) :=
  match h : s.getLast? with
  | none => isTrue (by simp [SolidEnd, h])
  | some c => decidable_of_iff (isWhitespace c = false) (by simp [SolidEnd, h])

theorem trimStart_of_solid {s : Text} (h : SolidStart s) : trimStart s = s := by
  cases s with
  | nil => rfl
  | cons c s =>
      have hc : isWhitespace c = false := h c rfl
      rw [trimStart, List.dropWhile_cons, hc]
      rfl

theorem trimEnd_of_solid {s : Text} (h : SolidEnd s) : trimEnd s = s := by
  apply List.rdropWhile_eq_self_iff.mpr
  intro hs
  rw [h _ (List.getLast?_eq_some_getLast hs)]
  simp

/-- Trimming leaves a text alone that neither begins nor ends with white space. -/
theorem trim_of_solid {s : Text} (h : SolidStart s) (h' : SolidEnd s) : trim s = s := by
  rw [trim, trimStart_of_solid h, trimEnd_of_solid h']

theorem solidStart_trimStart (s : Text) : SolidStart (trimStart s) := by
  intro c hc
  have h := List.head?_dropWhile_not isWhitespace s
  rw [show List.dropWhile isWhitespace s = trimStart s from rfl, hc] at h
  simpa using h

theorem solidEnd_trimEnd (s : Text) : SolidEnd (trimEnd s) := by
  intro c hc
  have hne : s.rdropWhile isWhitespace ≠ [] := by
    intro h
    rw [trimEnd, h] at hc
    cases hc
  have h := List.rdropWhile_last_not isWhitespace s hne
  rw [trimEnd, List.getLast?_eq_some_getLast hne] at hc
  obtain rfl := Option.some.inj hc
  simpa using h

theorem solidEnd_trim (s : Text) : SolidEnd (trim s) := solidEnd_trimEnd _

theorem solidStart_of_prefix {s t : Text} (hs : SolidStart s) (h : t <+: s) : SolidStart t := by
  intro c hc
  obtain ⟨u, rfl⟩ := h
  apply hs
  rw [List.head?_append, hc]
  rfl

theorem solidStart_trim (s : Text) : SolidStart (trim s) :=
  solidStart_of_prefix (solidStart_trimStart s) (List.rdropWhile_prefix _ _)

theorem solidEnd_append {s t : Text} (h : t ≠ []) : SolidEnd (s ++ t) ↔ SolidEnd t := by
  rw [SolidEnd, SolidEnd, List.getLast?_append_of_ne_nil s h]

theorem solidStart_append {s t : Text} (h : s ≠ []) : SolidStart (s ++ t) ↔ SolidStart s := by
  cases s with
  | nil => contradiction
  | cons c s => simp [SolidStart]

/-- A text that does not end with white space is not changed by taking white space off its
end after a text that does is put before it. -/
theorem trim_append_of_solid {s t : Text} (hs : SolidStart s) (hne : s ≠ []) (ht : t ≠ [])
    (h : SolidEnd t) :
  trim (s ++ t) = s ++ t
  := by
  apply trim_of_solid
  · rwa [solidStart_append hne]
  · rwa [solidEnd_append ht]

/-! ### Lines -/

/-- A line without the carriage return before its line feed. -/
def stripCr (l : Text) : Text := if l.getLast? = some '\r' then l.dropLast else l

/-- The pieces between line feeds: every piece but the last had a line feed after it, and the
last is left out when it is empty. -/
def linesOf : List Text → List Text
  | [] => []
  | [l] => if l = [] then [] else [l]
  | l :: ls => stripCr l :: linesOf ls

/-- `str::lines`. -/
def lines (s : Text) : List Text := linesOf (s.splitOn '\n')

@[simp] theorem lines_nil : lines [] = [] := rfl

/-- A text without line feeds is one line. -/
theorem lines_of_notMem {l : Text} (hne : l ≠ []) (h : '\n' ∉ l) : lines l = [l] := by
  rw [lines, List.splitOn_eq_singleton h, linesOf, if_neg hne]

/-- The first line of a text ends at the first line feed. -/
theorem lines_append_cons {l : Text} (h : '\n' ∉ l) (rest : Text) :
  lines (l ++ '\n' :: rest) = stripCr l :: lines rest
  := by
  rw [lines, List.splitOn_append_cons_self_of_not_mem h]
  cases hs : rest.splitOn '\n' with
  | nil => exact absurd hs (List.splitOn_ne_nil _ _)
  | cons p ps => rw [linesOf, lines, hs]; simp

theorem stripCr_of_notMem {l : Text} (h : '\r' ∉ l) : stripCr l = l := by
  rw [stripCr, if_neg]
  intro hl
  apply h (List.mem_of_getLast? hl)

/-- A carriage return at the end of a line is white space like what is trimmed. -/
theorem trim_stripCr (l : Text) : trim (stripCr l) = trim l := by
  rw [stripCr]
  split
  · next hlast =>
    have hl : l = l.dropLast ++ ['\r'] := (List.dropLast_append_getLast? '\r' hlast).symm
    have hend (s : Text) : trimEnd (s ++ ['\r']) = trimEnd s :=
      List.rdropWhile_concat_pos _ _ _ rfl
    conv_rhs => rw [hl, trim, trimStart, List.dropWhile_append]
    rw [trim, trimStart]
    split
    · next hnil =>
      rw [List.isEmpty_iff.mp hnil]
      rfl
    · rw [hend]
  · rfl

/-- Lines written with a line feed after each are read back, up to carriage returns at their
ends. -/
theorem lines_flatMap_stripCr {ls : List Text} (h : ∀ l ∈ ls, '\n' ∉ l) (rest : Text) :
  lines (ls.flatMap (· ++ ['\n']) ++ rest) = ls.map stripCr ++ lines rest
  := by
  induction ls with
  | nil => rfl
  | cons l ls ih =>
      have ih := ih fun l hl => h l (List.mem_cons_of_mem _ hl)
      rw [List.flatMap_cons, List.append_assoc, List.append_assoc, List.singleton_append,
        lines_append_cons (h l List.mem_cons_self), ih, List.map_cons, List.cons_append]

/-- Lines written with a line feed after each are read back. -/
theorem lines_flatMap {ls : List Text} (h : ∀ l ∈ ls, '\n' ∉ l ∧ '\r' ∉ l) (rest : Text) :
  lines (ls.flatMap (· ++ ['\n']) ++ rest) = ls ++ lines rest
  := by
  rw [lines_flatMap_stripCr fun l hl => (h l hl).1,
    List.map_congr_left fun l hl => stripCr_of_notMem (h l hl).2, List.map_id']

/-! ### Splitting -/

/-- The pieces of a text split at a character do not have that character. -/
theorem notMem_of_mem_splitOn {c : Char} {s piece : Text} (h : piece ∈ s.splitOn c) :
  c ∉ piece
  := by
  induction s generalizing piece with
  | nil =>
      rw [List.splitOn_nil, List.mem_singleton] at h
      subst h
      apply List.not_mem_nil
  | cons d s ih =>
      rw [List.splitOn_cons_eq_if_modifyHead] at h
      split at h
      · rcases List.mem_cons.mp h with rfl | h
        · apply List.not_mem_nil
        · apply ih h
      · next hd =>
        obtain ⟨first, rest, hsplit⟩ := List.exists_cons_of_ne_nil (List.splitOn_ne_nil c s)
        rw [hsplit] at h ih
        rcases List.mem_cons.mp h with rfl | h
        · intro hc
          rcases List.mem_cons.mp hc with rfl | hc
          · simp at hd
          · apply ih List.mem_cons_self hc
        · apply ih (List.mem_cons_of_mem _ h)

theorem mem_of_mem_stripCr {l : Text} {c : Char} (h : c ∈ stripCr l) : c ∈ l := by
  rw [stripCr] at h
  split at h
  · exact List.mem_of_mem_dropLast h
  · exact h

/-- Every line comes from a piece between line feeds. -/
theorem notMem_of_mem_linesOf {c : Char} {pieces : List Text} (h : ∀ piece ∈ pieces, c ∉ piece)
    {l : Text} (hl : l ∈ linesOf pieces) :
  c ∉ l
  := by
  induction pieces with
  | nil => cases hl
  | cons piece pieces ih =>
      cases pieces with
      | nil =>
          rw [linesOf] at hl
          split at hl
          · cases hl
          · rw [List.mem_singleton.mp hl]
            exact h piece List.mem_cons_self
      | cons next pieces =>
          rw [linesOf] at hl
          · rcases List.mem_cons.mp hl with rfl | hl
            · intro hc
              exact h piece List.mem_cons_self (mem_of_mem_stripCr hc)
            · exact ih (fun piece hpiece => h piece (List.mem_cons_of_mem _ hpiece)) hl
          · exact List.cons_ne_nil _ _

/-- The lines of a text have no line feeds. -/
theorem notMem_of_mem_lines {s l : Text} (h : l ∈ lines s) : '\n' ∉ l :=
  notMem_of_mem_linesOf (fun _ hpiece => notMem_of_mem_splitOn hpiece) h

theorem mem_of_mem_trim {s : Text} {c : Char} (h : c ∈ trim s) : c ∈ s :=
  (List.dropWhile_suffix _).subset ((List.rdropWhile_prefix _ _).subset h)

/-- `str::split_once` at a character. -/
def splitOnce (c : Char) (s : Text) : Option (Text × Text) :=
  if c ∈ s then some (s.takeWhile (· != c), (s.dropWhile (· != c)).tail) else none

/-- `str::splitn` at a character: at most `n` pieces, the last of which is not split. -/
def splitn : ℕ → Char → Text → List Text
  | 0, _, _ => []
  | 1, _, s => [s]
  | n + 2, c, s =>
    match splitOnce c s with
    | some (a, b) => a :: splitn (n + 1) c b
    | none => [s]

theorem splitOnce_append_cons {c : Char} {a : Text} (h : c ∉ a) (b : Text) :
  splitOnce c (a ++ c :: b) = some (a, b)
  := by
  have ha : ∀ x ∈ a, (x != c) = true := by
    intro x hx
    rw [bne_iff_ne]
    rintro rfl
    apply h hx
  rw [splitOnce, if_pos (by simp), List.takeWhile_append_of_pos ha,
    List.dropWhile_append_of_pos ha]
  simp

theorem splitOnce_of_notMem {c : Char} {s : Text} (h : c ∉ s) : splitOnce c s = none := by
  rw [splitOnce, if_neg h]

/-- What `splitOnce` cuts in two is the two parts with the character between them. -/
theorem splitOnce_eq_some {c : Char} {s a b : Text} (h : splitOnce c s = some (a, b)) :
  s = a ++ c :: b ∧ c ∉ a
  := by
  rw [splitOnce] at h
  split at h
  · next hc =>
      obtain ⟨a', b', rfl, ha'⟩ := List.eq_append_cons_of_mem hc
      have h' := splitOnce_append_cons ha' b'
      rw [splitOnce, if_pos hc] at h'
      rw [h'] at h
      cases h
      exact ⟨rfl, ha'⟩
  · cases h

theorem splitn_append_cons {n : ℕ} {c : Char} {a : Text} (h : c ∉ a) (b : Text) :
  splitn (n + 2) c (a ++ c :: b) = a :: splitn (n + 1) c b
  := by
  rw [splitn, splitOnce_append_cons h]

/-- The first of several pieces, and the text that the others are the pieces of. -/
theorem splitn_eq_cons_cons {n : ℕ} {c : Char} {s a b : Text} {rest : List Text}
    (h : splitn (n + 2) c s = a :: b :: rest) :
  ∃ t, s = a ++ c :: t ∧ splitn (n + 1) c t = b :: rest
  := by
  rw [splitn] at h
  split at h
  · next x t hsplit =>
    obtain ⟨rfl, h'⟩ := List.cons.inj h
    use t, (splitOnce_eq_some hsplit).1
  · cases h

/-- `str::split` at a substring, from the left and without overlaps: `skip` characters of the
match found last are still to be passed over, and `acc` holds the piece read so far,
backwards. -/
def splitStrFrom (pat : Text) : (skip : ℕ) → (acc : Text) → Text → List Text
  | _, acc, [] => [acc.reverse]
  | skip + 1, acc, _ :: s => splitStrFrom pat skip acc s
  | 0, acc, c :: s =>
    if pat <+: c :: s then acc.reverse :: splitStrFrom pat (pat.length - 1) [] s
    else splitStrFrom pat 0 (c :: acc) s

/-- `str::split` at a substring. -/
def splitStr (pat s : Text) : List Text := splitStrFrom pat 0 [] s

theorem mem_of_mem_splitStrFrom {pat s piece acc : Text} {skip : ℕ}
    (h : piece ∈ splitStrFrom pat skip acc s) {c : Char} (hc : c ∈ piece) :
  c ∈ acc ∨ c ∈ s
  := by
  induction s generalizing skip acc with
  | nil =>
      rw [splitStrFrom, List.mem_singleton] at h
      subst h
      exact .inl (List.mem_reverse.mp hc)
  | cons d s ih =>
      cases skip with
      | succ skip =>
          rw [splitStrFrom] at h
          exact (ih h).imp_right (List.mem_cons_of_mem d)
      | zero =>
          rw [splitStrFrom] at h
          split at h
          · rcases List.mem_cons.mp h with rfl | h
            · exact .inl (List.mem_reverse.mp hc)
            · rcases ih h with hnil | hs
              · cases hnil
              · exact .inr (List.mem_cons_of_mem d hs)
          · rcases ih h with hacc | hs
            · rcases List.mem_cons.mp hacc with rfl | hacc
              · exact .inr List.mem_cons_self
              · exact .inl hacc
            · exact .inr (List.mem_cons_of_mem d hs)

/-- The pieces of a text split at a substring have only characters of the text. -/
theorem mem_of_mem_splitStr {pat s piece : Text} (h : piece ∈ splitStr pat s) {c : Char}
    (hc : c ∈ piece) :
  c ∈ s
  := by
  rcases mem_of_mem_splitStrFrom h hc with hnil | hs
  · cases hnil
  · exact hs

/-- Passing over the rest of a match. -/
theorem splitStrFrom_skip (pat acc u s : Text) :
  splitStrFrom pat u.length acc (u ++ s) = splitStrFrom pat 0 acc s
  := by
  induction u with
  | nil => rfl
  | cons c u ih => rw [List.length_cons, List.cons_append, splitStrFrom, ih]

/-- No match begins inside `a` when `a` is followed by `b`. -/
def Unsplit (pat a b : Text) : Prop := ∀ u v, a = u ++ v → v ≠ [] → ¬ pat <+: v ++ b

theorem splitStrFrom_unsplit {pat acc a b : Text} (h : Unsplit pat a b) :
  splitStrFrom pat 0 acc (a ++ b) = splitStrFrom pat 0 (a.reverse ++ acc) b
  := by
  induction a generalizing acc with
  | nil => rfl
  | cons c a ih =>
      have hc : ¬ pat <+: c :: (a ++ b) := h [] (c :: a) rfl (by simp)
      have ha : Unsplit pat a b := by
        intro u v huv
        apply h (c :: u) v (by rw [huv, List.cons_append])
      rw [List.cons_append, splitStrFrom, if_neg hc, ih ha, List.reverse_cons,
        List.append_assoc, List.singleton_append]

/-- A piece, a match and the rest are split into the piece and the pieces of the rest. -/
theorem splitStr_append {pat a : Text} (hpat : pat ≠ []) (rest : Text)
    (h : Unsplit pat a (pat ++ rest)) :
  splitStr pat (a ++ (pat ++ rest)) = a :: splitStr pat rest
  := by
  obtain ⟨c, p, rfl⟩ := List.exists_cons_of_ne_nil hpat
  have hpre : c :: p <+: c :: (p ++ rest) := ⟨rest, rfl⟩
  rw [splitStr, splitStrFrom_unsplit h, List.append_nil, List.cons_append, splitStrFrom,
    if_pos hpre, List.reverse_reverse, List.length_cons, Nat.add_sub_cancel, splitStrFrom_skip,
    splitStr]

/-- What is collected before a piece stands in front of it. -/
theorem splitStrFrom_acc (pat : Text) (skip : ℕ) (acc s : Text) :
  splitStrFrom pat skip acc s = (splitStrFrom pat skip [] s).modifyHead (acc.reverse ++ ·)
  := by
  induction s generalizing skip acc with
  | nil =>
      rw [splitStrFrom, splitStrFrom, List.modifyHead_cons]
      rw [List.reverse_nil, List.append_nil]
  | cons c s ih =>
      cases skip with
      | succ skip => rw [splitStrFrom, splitStrFrom, ih]
      | zero =>
          rw [splitStrFrom, splitStrFrom]
          split
          · rw [List.modifyHead_cons, List.reverse_nil, List.append_nil]
          · rw [ih 0 (c :: acc), ih 0 [c], List.modifyHead_modifyHead]
            congr 1
            funext piece
            rw [Function.comp_apply, List.reverse_cons, List.append_assoc]
            rfl

/-- A text in which no piece ends stands in front of the first piece of what follows. -/
theorem splitStr_unsplit {pat a b : Text} (h : Unsplit pat a b) :
  splitStr pat (a ++ b) = (splitStr pat b).modifyHead (a ++ ·)
  := by
  rw [splitStr, splitStrFrom_unsplit h, List.append_nil, splitStrFrom_acc, List.reverse_reverse,
    splitStr]

theorem splitStrFrom_ne_nil (pat : Text) (skip : ℕ) (acc s : Text) :
  splitStrFrom pat skip acc s ≠ []
  := by
  induction s generalizing skip acc with
  | nil => exact List.cons_ne_nil _ _
  | cons c s ih =>
      cases skip with
      | succ skip =>
          rw [splitStrFrom]
          apply ih
      | zero =>
          rw [splitStrFrom]
          split
          · exact List.cons_ne_nil _ _
          · apply ih

/-- The first piece of a text that begins with a line feed is empty, or begins with it too. -/
theorem splitStr_lf (s : Text) :
  (∃ pieces, splitStr ['\n', '\n'] ('\n' :: s) = [] :: pieces) ∨
    ∃ piece pieces, splitStr ['\n', '\n'] ('\n' :: s) = ('\n' :: piece) :: pieces
  := by
  rw [splitStr, splitStrFrom]
  split
  · exact .inl ⟨_, rfl⟩
  · rw [splitStrFrom_acc]
    cases hpieces : splitStrFrom ['\n', '\n'] 0 [] s with
    | nil => exact absurd hpieces (splitStrFrom_ne_nil _ _ _ _)
    | cons piece pieces => exact .inr ⟨piece, pieces, rfl⟩


/-- In a text without its first character no match begins. -/
theorem unsplit_of_notMem {c : Char} {pat a b : Text} (h : c ∉ a) : Unsplit (c :: pat) a b := by
  intro u v huv hne hpre
  obtain ⟨d, v, rfl⟩ := List.exists_cons_of_ne_nil hne
  obtain ⟨t, ht⟩ := hpre
  obtain rfl : c = d := (List.cons.inj ht).1
  apply h
  rw [huv]
  simp

/-- No match of two of a character begins in a line that is followed by that character and a
text in which no match begins, when that text begins with another character. -/
theorem unsplit_line {c d : Char} {l a b : Text} (hl : c ∉ l) (hd : d ≠ c)
    (ha : Unsplit [c, c] (d :: a) b) :
  Unsplit [c, c] (l ++ c :: d :: a) b
  := by
  intro u v huv hne hpre
  rcases List.append_eq_append_iff.mp huv with ⟨m, rfl, hm⟩ | ⟨m, rfl, rfl⟩
  · -- the match begins behind the line
    cases m with
    | nil =>
        rw [List.nil_append] at hm
        rw [← hm, List.cons_append, List.cons_append] at hpre
        obtain ⟨t, ht⟩ := hpre
        apply hd
        simpa using congrArg List.head? (List.cons.inj ht).2.symm
    | cons e m =>
        obtain ⟨-, hm⟩ := List.cons.inj hm
        apply ha m v hm hne hpre
  · -- the match begins in the line
    cases m with
    | nil =>
        obtain ⟨t, ht⟩ := hpre
        apply hd
        simpa using congrArg List.head? (List.cons.inj ht).2.symm
    | cons e m =>
        obtain ⟨t, ht⟩ := hpre
        obtain rfl : c = e := (List.cons.inj ht).1
        apply hl
        simp

/-- Lines with line feeds between them. -/
def joinLines (ls : List Text) : Text := ['\n'].intercalate ls

theorem joinLines_cons_cons (l l' : Text) (ls : List Text) :
  joinLines (l :: l' :: ls) = l ++ '\n' :: joinLines (l' :: ls)
  := by
  rw [joinLines, List.intercalate_cons_cons, List.append_assoc]
  rfl

/-- Lines written with a line feed after each, and an empty line, are the lines joined and two
line feeds. -/
theorem flatMap_joinLines {ls : List Text} (h : ls ≠ []) :
  (ls ++ [[]]).flatMap (· ++ ['\n']) = joinLines ls ++ ['\n', '\n']
  := by
  induction ls with
  | nil => contradiction
  | cons l ls ih =>
      cases ls with
      | nil => simp [joinLines]
      | cons l' ls =>
          have ih := ih (List.cons_ne_nil l' ls)
          rw [List.cons_append, List.flatMap_cons, ih, joinLines_cons_cons]
          simp

/-- No blank line begins in joined lines none of which is empty. -/
theorem unsplit_joinLines {ls : List Text} (h : ∀ l ∈ ls, '\n' ∉ l ∧ l ≠ []) (b : Text) :
  Unsplit ['\n', '\n'] (joinLines ls) b
  := by
  induction ls with
  | nil => exact unsplit_of_notMem List.not_mem_nil
  | cons l ls ih =>
      have hl := (h l List.mem_cons_self).1
      have ih := ih fun l hl => h l (List.mem_cons_of_mem _ hl)
      cases ls with
      | nil =>
          rw [joinLines, List.intercalate_singleton]
          apply unsplit_of_notMem hl
      | cons l' ls =>
          obtain ⟨hl', hne⟩ := h l' (List.mem_cons_of_mem _ List.mem_cons_self)
          obtain ⟨d, r, rfl⟩ := List.exists_cons_of_ne_nil hne
          obtain ⟨a, ha⟩ : ∃ a, joinLines ((d :: r) :: ls) = d :: a := by
            cases ls with
            | nil => exact ⟨r, List.intercalate_singleton⟩
            | cons l'' ls => exact ⟨r ++ '\n' :: joinLines (l'' :: ls), joinLines_cons_cons _ _ _⟩
          rw [joinLines_cons_cons, ha]
          rw [ha] at ih
          apply unsplit_line hl _ ih
          rintro rfl
          apply hl' List.mem_cons_self

/-- A text without some character does not contain a text that has it. -/
theorem contains_of_notMem {c : Char} {s pat : Text} (hc : c ∈ pat) (h : c ∉ s) :
  contains s pat = false
  := by
  rw [contains, decide_eq_false_iff_not]
  intro hpat
  apply h (hpat.subset hc)

/-- A pattern without a character is on one side of the character. -/
theorem contains_append_cons {c : Char} {pat a b : Text} (hc : c ∉ pat)
    (ha : contains a pat = false) :
  contains (a ++ c :: b) pat = contains (c :: b) pat
  := by
  rw [contains, decide_eq_false_iff_not] at ha
  rw [contains, contains, decide_eq_decide]
  constructor
  · rintro ⟨s, t, h⟩
    rcases List.append_eq_append_iff.mp h with ⟨u, rfl, -⟩ | ⟨u, hu, hrest⟩
    · exact absurd ⟨s, u, rfl⟩ ha
    · rcases List.append_eq_append_iff.mp hu with ⟨w, rfl, rfl⟩ | ⟨w, rfl, rfl⟩
      · cases u with
        | nil => exact absurd ⟨s, [], by rw [List.append_nil, List.append_nil]⟩ ha
        | cons d u =>
            obtain ⟨rfl, -⟩ := List.cons.inj hrest
            exact absurd (List.mem_append_right w List.mem_cons_self) hc
      · exact ⟨w, t, hrest.symm⟩
  · rintro ⟨s, t, h⟩
    exact ⟨a ++ s, t, by rw [← h, List.append_assoc, List.append_assoc, List.append_assoc]⟩

/-! ### Numerals -/

/-- The value of a nonempty text of decimal digits. -/
def digits? (s : Text) : Option ℕ :=
  if s ≠ [] ∧ s.all Char.isDigit then some (Nat.ofDigitChars 10 s 0) else none

/-- A text without the plus sign it may begin with. -/
def stripPlus : Text → Text
  | '+' :: r => r
  | s => s

/-- The magnitude and the sign of a text that begins with a minus sign, or may begin with a
plus sign. -/
def signed? : Text → Option ℤ
  | '-' :: r => (digits? r).map fun n : ℕ => -(n : ℤ)
  | s => (digits? (stripPlus s)).map fun n : ℕ => (n : ℤ)

/-- `str::parse` for an unsigned integer of `bits` bits: an optional plus sign, then decimal
digits, with a value that fits. -/
def parseUnsigned (bits : ℕ) (s : Text) : Option ℕ :=
  (digits? (stripPlus s)).filter (· < 2 ^ bits)

/-- `str::parse` for `i32`: an optional sign, then decimal digits, with a value that fits. -/
def parseI32 (s : Text) : Option ℤ :=
  (signed? s).filter fun n => -2 ^ 31 ≤ n ∧ n < 2 ^ 31

/-- The decimal numeral of a natural number, `to_string`. -/
def ofNat (n : ℕ) : Text := Nat.toDigits 10 n

/-- The decimal numeral of an integer, `to_string`. -/
def ofInt (n : ℤ) : Text := if n < 0 then '-' :: ofNat n.natAbs else ofNat n.natAbs

/-- The lowest `k` hexadecimal digits of a number, the most significant first. -/
def hexDigits : ℕ → ℕ → Text
  | 0, _ => []
  | k + 1, n => hexDigits k (n / 16) ++ [Nat.digitChar (n % 16)]

theorem isDigit_of_mem_ofNat {n : ℕ} {c : Char} (h : c ∈ ofNat n) : c.isDigit :=
  Nat.isDigit_of_mem_toDigits (by omega) (by omega) h

theorem ofNat_ne_nil (n : ℕ) : ofNat n ≠ [] := Nat.toDigits_ne_nil

@[simp] theorem digits?_ofNat (n : ℕ) : digits? (ofNat n) = some n := by
  rw [digits?, if_pos, ofNat, Nat.ofDigitChars_ten_toDigits]
  constructor
  · apply ofNat_ne_nil
  · rw [List.all_eq_true]
    intro c hc
    apply isDigit_of_mem_ofNat hc

/-- A numeral begins with a digit. -/
theorem exists_ofNat_eq_cons (n : ℕ) : ∃ c r, ofNat n = c :: r ∧ c.isDigit := by
  obtain ⟨c, r, h⟩ := List.exists_cons_of_ne_nil (ofNat_ne_nil n)
  use c, r, h
  apply isDigit_of_mem_ofNat (n := n)
  rw [h]
  apply List.mem_cons_self

theorem stripPlus_cons {c : Char} (h : c ≠ '+') (r : Text) : stripPlus (c :: r) = c :: r := by
  rw [stripPlus]
  intro r' heq
  cases heq
  contradiction

theorem signed?_cons {c : Char} (h : c ≠ '-') (r : Text) :
  signed? (c :: r) = (digits? (stripPlus (c :: r))).map fun n : ℕ => (n : ℤ)
  := by
  rw [signed?]
  intro r' heq
  cases heq
  contradiction

/-- A numeral has no sign to take off. -/
@[simp] theorem stripPlus_ofNat (n : ℕ) : stripPlus (ofNat n) = ofNat n := by
  obtain ⟨c, r, hc, hdigit⟩ := exists_ofNat_eq_cons n
  rw [hc]
  apply stripPlus_cons
  rintro rfl
  cases hdigit

/-- An unsigned integer is read back from its numeral. -/
theorem parseUnsigned_ofNat {bits n : ℕ} (h : n < 2 ^ bits) :
  parseUnsigned bits (ofNat n) = some n
  := by
  rw [parseUnsigned, stripPlus_ofNat, digits?_ofNat, Option.filter_some_pos]
  simpa using h

theorem signed?_ofInt (n : ℤ) : signed? (ofInt n) = some n := by
  rw [ofInt]
  split
  · next hneg =>
      rw [signed?, digits?_ofNat, Option.map_some]
      congr 1
      omega
  · next hneg =>
      obtain ⟨c, r, hc, hdigit⟩ := exists_ofNat_eq_cons n.natAbs
      have hminus : c ≠ '-' := by
        rintro rfl
        cases hdigit
      rw [hc, signed?_cons hminus, ← hc, stripPlus_ofNat, digits?_ofNat, Option.map_some]
      congr 1
      omega

/-- A 32-bit integer is read back from its numeral. -/
theorem parseI32_ofInt {n : ℤ} (h : -2 ^ 31 ≤ n) (h' : n < 2 ^ 31) :
  parseI32 (ofInt n) = some n
  := by
  rw [parseI32, signed?_ofInt, Option.filter_some_pos]
  rw [decide_eq_true_eq]
  exact ⟨h, h'⟩

/-- A digit is not white space. -/
theorem isWhitespace_of_isDigit {c : Char} (h : c.isDigit) : isWhitespace c = false := by
  have h48 : 48 ≤ c.toNat := by
    simp only [Char.isDigit, Bool.and_eq_true, decide_eq_true_eq] at h
    exact h.1
  have h57 : c.toNat ≤ 57 := by
    simp only [Char.isDigit, Bool.and_eq_true, decide_eq_true_eq] at h
    exact h.2
  simp only [isWhitespace, Bool.or_eq_false_iff, Bool.and_eq_false_iff, decide_eq_false_iff_not,
    beq_eq_false_iff_ne]
  omega

/-- The characters of signed numerals. -/
def IsNumeral (c : Char) : Prop := c = '-' ∨ c = '+' ∨ c.isDigit

theorem IsNumeral.isWhitespace {c : Char} (h : IsNumeral c) : isWhitespace c = false := by
  rcases h with rfl | rfl | h
  · rfl
  · rfl
  · apply isWhitespace_of_isDigit h

theorem isNumeral_of_mem_ofNat {n : ℕ} {c : Char} (h : c ∈ ofNat n) : IsNumeral c :=
  .inr (.inr (isDigit_of_mem_ofNat h))

theorem isNumeral_of_mem_ofInt {n : ℤ} {c : Char} (h : c ∈ ofInt n) : IsNumeral c := by
  rw [ofInt] at h
  split at h
  · rcases List.mem_cons.mp h with rfl | h
    · exact .inl rfl
    · apply isNumeral_of_mem_ofNat h
  · apply isNumeral_of_mem_ofNat h

theorem utf8Size_of_isDigit {c : Char} (h : c.isDigit) : c.utf8Size = 1 := by
  simp only [Char.isDigit, Bool.and_eq_true, decide_eq_true_eq] at h
  apply Char.utf8Size_eq_one_iff.mpr
  apply UInt32.le_trans h.2
  decide

/-- A numeral below `10 ^ k` has at most `k` bytes. -/
theorem byteLen_ofNat_le {n k : ℕ} (h : n < 10 ^ k) (hk : 0 < k) : byteLen (ofNat n) ≤ k := by
  have hsizes : (ofNat n).map Char.utf8Size = (ofNat n).map fun _ => 1 :=
    List.map_congr_left fun c hc => utf8Size_of_isDigit (isDigit_of_mem_ofNat hc)
  rw [byteLen, hsizes, List.map_const', List.sum_replicate_nat, Nat.mul_one]
  apply (Nat.length_toDigits_le_iff (by decide) hk).mpr h

theorem isDigit_of_digits? {s : Text} {n : ℕ} (h : digits? s = some n) :
  s ≠ [] ∧ ∀ c ∈ s, c.isDigit
  := by
  rw [digits?] at h
  split at h
  · next hs => exact ⟨hs.1, List.all_eq_true.mp hs.2⟩
  · cases h

theorem isNumeral_of_stripPlus {s : Text} {n : ℕ} (h : digits? (stripPlus s) = some n) :
  s ≠ [] ∧ ∀ c ∈ s, IsNumeral c
  := by
  obtain ⟨hne, hdigits⟩ := isDigit_of_digits? h
  cases s with
  | nil => exact absurd rfl hne
  | cons c r =>
      refine ⟨List.cons_ne_nil c r, fun d hd => ?_⟩
      by_cases hplus : c = '+'
      · subst hplus
        rcases List.mem_cons.mp hd with rfl | hd
        · exact .inr (.inl rfl)
        · exact .inr (.inr (hdigits d hd))
      · rw [stripPlus_cons hplus] at hdigits
        exact .inr (.inr (hdigits d hd))

/-- What is read as a 32-bit integer is a numeral, and the integer has 32 bits. -/
theorem parseI32_eq_some {s : Text} {n : ℤ} (h : parseI32 s = some n) :
  (s ≠ [] ∧ ∀ c ∈ s, IsNumeral c) ∧ -2 ^ 31 ≤ n ∧ n < 2 ^ 31
  := by
  rw [parseI32, Option.filter_eq_some_iff, decide_eq_true_eq] at h
  obtain ⟨hsigned, hbounds⟩ := h
  refine ⟨?_, hbounds⟩
  cases s with
  | nil => cases hsigned
  | cons c r =>
      by_cases hminus : c = '-'
      · subst hminus
        rw [signed?, Option.map_eq_some_iff] at hsigned
        obtain ⟨m, hm, -⟩ := hsigned
        refine ⟨List.cons_ne_nil _ _, fun d hd => ?_⟩
        rcases List.mem_cons.mp hd with rfl | hd
        · exact .inl rfl
        · exact .inr (.inr ((isDigit_of_digits? hm).2 d hd))
      · rw [signed?_cons hminus, Option.map_eq_some_iff] at hsigned
        obtain ⟨m, hm, -⟩ := hsigned
        apply isNumeral_of_stripPlus hm

theorem parseUnsigned_lt {bits n : ℕ} {s : Text} (h : parseUnsigned bits s = some n) :
  n < 2 ^ bits
  := by
  rw [parseUnsigned, Option.filter_eq_some_iff, decide_eq_true_eq] at h
  exact h.2

/-- A text without white space does not end with white space. -/
theorem solidEnd_of_forall {s : Text} (h : ∀ c ∈ s, isWhitespace c = false) : SolidEnd s :=
  fun c hc => h c (List.mem_of_getLast? hc)

theorem ofInt_ne_nil (n : ℤ) : ofInt n ≠ [] := by
  rw [ofInt]
  split
  · simp
  · apply ofNat_ne_nil

end Text

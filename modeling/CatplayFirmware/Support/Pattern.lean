import CatplayFirmware.Support.Python
import Mathlib.Data.List.DropRight

/-!
# Patterns of Python

The regular expressions over byte strings that consist of bytes as they are and of `\s*`, and that
begin at the start of a word; the bytes without the white space at their end.
-/

namespace Python

/-- `xs.rstrip()`. -/
def rstrip (xs : Bytes) : Bytes := xs.rdropWhile isSpace

/-- A letter, a digit or an underscore. -/
def isWord (c : UInt8) : Bool :=
  (48 ≤ c && c ≤ 57) || (65 ≤ c && c ≤ 90) || (97 ≤ c && c ≤ 122) || c == 95

/-- A part of a pattern: bytes as they are, or `\s*`. -/
inductive Piece where
  | lit (bytes : Bytes)
  | spaces

/-- What is left behind a match at the start of a string. -/
def matchPieces : List Piece → Bytes → Option Bytes
  | [], s => some s
  | .lit bytes :: pieces, s =>
    if bytes <+: s then matchPieces pieces (s.drop bytes.length) else none
  | .spaces :: pieces, s => matchPieces pieces (s.dropWhile isSpace)

/-- The matches of a pattern that begins at the start of a word, from the left and without overlaps:
`skip` bytes of the match found last are still to be passed over, `inWord` tells whether the byte
before is one of a word, and `i` is the offset. -/
def finditerFrom (pieces : List Piece) : (skip : ℕ) → (inWord : Bool) → (i : ℕ) → Bytes → List ℕ
  | _, _, _, [] => []
  | skip + 1, _, i, c :: s => finditerFrom pieces skip (isWord c) (i + 1) s
  | 0, inWord, i, c :: s =>
    match if inWord then none else matchPieces pieces (c :: s) with
    | some rest => i :: finditerFrom pieces (s.length - rest.length) (isWord c) (i + 1) s
    | none => finditerFrom pieces 0 (isWord c) (i + 1) s

/-- `re.finditer`, with the offsets at which the matches begin. -/
def finditer (pieces : List Piece) (s : Bytes) : List ℕ := finditerFrom pieces 0 false 0 s

/-- `s.find(c, start)` of a byte that is there. -/
def find (s : Bytes) (c : UInt8) (start : ℕ) : ℕ := start + (s.drop start).idxOf c

theorem rstrip_spaces (xs : Bytes) :
  ∃ spaces, xs = rstrip xs ++ spaces ∧ ∀ c ∈ spaces, isSpace c = true
  := ⟨xs.rtakeWhile isSpace, List.rdropWhile_append_rtakeWhile.symm,
    fun _ => List.mem_rtakeWhile_imp⟩

/-- A byte that is found is there. -/
theorem getElem?_find {s : Bytes} {c : UInt8} {start : ℕ} (h : find s c start < s.length) :
  s[find s c start]? = some c
  := by
  rw [find] at h ⊢
  rw [← List.getElem?_drop]
  have hlt : (s.drop start).idxOf c < (s.drop start).length := by
    rw [List.length_drop]
    omega
  rw [List.getElem?_eq_getElem hlt, List.getElem_idxOf hlt]

end Python

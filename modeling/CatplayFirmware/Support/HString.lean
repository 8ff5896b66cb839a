import CatplayFirmware.Support.Outcome
import CatplayFirmware.Support.Text

/-!
# Texts of bounded length

`HString cap` is a text whose UTF-8 encoding has at most `cap` bytes, Rust's
`heapless::String<cap>`. Pushing more than there is room for fails, and collecting more panics. A C
string ends before its first NUL.
-/

/-- A text of at most `cap` bytes. -/
structure HString (cap : ℕ) where
  text : Text
  fits : text.byteLen ≤ cap
  deriving DecidableEq

namespace HString

variable {cap : ℕ}

/-- The empty text. -/
def new : HString cap := ⟨[], Nat.zero_le cap⟩

/-- `push_str`: fails when the text with `s` at its end has more than `cap` bytes. -/
def pushStr (h : HString cap) (s : Text) : Option (HString cap) :=
  if fits : (h.text ++ s).byteLen ≤ cap then some ⟨h.text ++ s, fits⟩ else none

/-- What is pushed stands at the end. -/
theorem pushStr_text {h h' : HString cap} {s : Text} (hp : h.pushStr s = some h') :
  h'.text = h.text ++ s
  := by
  rw [pushStr] at hp
  split at hp
  · cases hp
    rfl
  · cases hp

/-- Pushing succeeds exactly when there is room. -/
theorem pushStr_isSome {h : HString cap} {s : Text} :
  (h.pushStr s).isSome ↔ h.text.byteLen + s.byteLen ≤ cap
  := by
  rw [pushStr]
  split
  · next fits => simpa using fits
  · next fits => simpa using fits

/-- Pushing the characters of a text one by one, `unwrap` after each. -/
def collectFrom {ε : Type*} (h : HString cap) : Text → Outcome ε (HString cap)
  | [] => .ok h
  | c :: s =>
    match h.pushStr [c] with
    | some h => collectFrom h s
    | none => .panics

/-- `collect` of the characters of a text. -/
def collect {ε : Type*} (cap : ℕ) (s : Text) : Outcome ε (HString cap) := collectFrom new s

theorem collectFrom_eq {ε : Type*} (h : HString cap) (s : Text) :
  (collectFrom h s : Outcome ε (HString cap)) =
    if fits : (h.text ++ s).byteLen ≤ cap then .ok ⟨h.text ++ s, fits⟩ else .panics
  := by
  induction s generalizing h with
  | nil =>
      have happend : h.text ++ [] = h.text := List.append_nil _
      simp only [collectFrom, happend, h.fits, dif_pos]
  | cons c s ih =>
      rw [collectFrom, pushStr]
      by_cases hfits : (h.text ++ [c]).byteLen ≤ cap
      · rw [dif_pos hfits]
        simp only [ih, List.append_assoc, List.singleton_append]
      · have hlong : ¬ (h.text ++ c :: s).byteLen ≤ cap := by
          rw [Text.byteLen_append, Text.byteLen_cons, Text.byteLen_nil] at hfits
          rw [Text.byteLen_append, Text.byteLen_cons]
          omega
        rw [dif_neg hfits, dif_neg hlong]

/-- Collecting panics exactly when there is not room. -/
theorem collect_eq {ε : Type*} (s : Text) :
  (collect cap s : Outcome ε (HString cap)) =
    if fits : s.byteLen ≤ cap then .ok ⟨s, fits⟩ else .panics
  := collectFrom_eq new s

end HString

/-! ### C strings -/

/-- The text that a C function reads: what stands before the first NUL. -/
def Text.cString (s : Text) : Text := s.takeWhile (· ≠ '\x00')

/-- The text of a `heapless::CString<cap>` to which the bytes of a text have been added. The text
may end in a NUL, but has no other, and has to fit with one. -/
def CString.extendFromBytes (cap : ℕ) (s : Text) : Option Text :=
  let text : Text := if s.getLast? = some '\x00' then s.dropLast else s
  if '\x00' ∈ text ∨ cap < text.byteLen + 1 then none else some text

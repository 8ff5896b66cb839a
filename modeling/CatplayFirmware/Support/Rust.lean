import CatplayFirmware.Support.Bytes
import CatplayFirmware.Support.Outcome
import CatplayFirmware.Support.Text

/-!
# Operations that may panic

Slicing a list outside its bounds panics, and so does slicing a text outside its bounds or
inside a character. An addition of `usize` that overflows panics when the crate is built with
overflow checks, and wraps when it is not.
-/

universe u v

namespace Rust

variable {ε : Type u} {α : Type v}

/-- How a crate is built: the width of `usize`, and whether overflows are checked. -/
structure Build where
  bits : ℕ
  overflowChecks : Bool

/-- An addition of two `usize`. -/
def Build.add (build : Build) (a b : ℕ) : Outcome ε ℕ :=
  if a + b < 2 ^ build.bits then .ok (a + b)
  else if build.overflowChecks then .panics
  else .ok ((a + b) % 2 ^ build.bits)

/-- `&xs[..n]`. -/
def sliceTo (xs : List α) (n : ℕ) : Outcome ε (List α) :=
  if n ≤ xs.length then .ok (xs.take n) else .panics

/-- `&xs[n..]`. -/
def sliceFrom (xs : List α) (n : ℕ) : Outcome ε (List α) :=
  if n ≤ xs.length then .ok (xs.drop n) else .panics

/-- `&xs[start..stop]`. -/
def sliceRange (xs : List α) (start stop : ℕ) : Outcome ε (List α) :=
  if start ≤ stop ∧ stop ≤ xs.length then .ok (Bytes.slice xs start (stop - start)) else .panics

/-- `xs[start..stop].copy_from_slice(ys)`. -/
def copyFromSlice (xs : List α) (start stop : ℕ) (ys : List α) : Outcome ε (List α) :=
  if start ≤ stop ∧ stop ≤ xs.length ∧ ys.length = stop - start then
    .ok (Bytes.overwrite xs start ys)
  else .panics

/-- An addition of two `u32`. -/
def Build.addU32 (build : Build) (a b : UInt32) : Outcome ε UInt32 :=
  if a.toNat + b.toNat < 2 ^ 32 then .ok (a + b)
  else if build.overflowChecks then .panics
  else .ok (a + b)

/-- `&s[..n]`. -/
def strTo (s : Text) (n : ℕ) : Outcome ε Text :=
  match s.splitAtByte n with
  | some (a, _) => .ok a
  | none => .panics

/-- `&s[n..]`. -/
def strFrom (s : Text) (n : ℕ) : Outcome ε Text :=
  match s.splitAtByte n with
  | some (_, b) => .ok b
  | none => .panics

/-- `&s[start..stop]`. -/
def strRange (s : Text) (start stop : ℕ) : Outcome ε Text :=
  if start ≤ stop then do
    let s ← strTo s stop
    strFrom s start
  else .panics

theorem Build.add_inRange {build : Build} {a b : ℕ} (h : a + b < 2 ^ build.bits) :
  (build.add a b : Outcome ε ℕ) = .ok (a + b)
  := by
  rw [Build.add, if_pos h]

/-- An addition of two `usize` that overflows panics, or gives less than either. -/
theorem Build.add_overflow {build : Build} {a b : ℕ} (ha : a < 2 ^ build.bits)
    (hb : b < 2 ^ build.bits) (h : 2 ^ build.bits ≤ a + b) :
  (build.overflowChecks = true ∧ (build.add a b : Outcome ε ℕ) = .panics) ∨
    (build.overflowChecks = false ∧ ∃ c < a, (build.add a b : Outcome ε ℕ) = .ok c)
  := by
  rw [Build.add, if_neg (Nat.not_lt.mpr h)]
  cases build.overflowChecks with
  | true => exact .inl ⟨rfl, if_pos rfl⟩
  | false =>
      have hmod : (a + b) % 2 ^ build.bits = a + b - 2 ^ build.bits := by
        rw [Nat.mod_eq_sub_mod h, Nat.mod_eq_of_lt]
        omega
      refine .inr ⟨rfl, (a + b) % 2 ^ build.bits, ?_, if_neg Bool.false_ne_true⟩
      omega

theorem sliceTo_ok {xs : List α} {n : ℕ} (h : n ≤ xs.length) :
  (sliceTo xs n : Outcome ε (List α)) = .ok (xs.take n)
  := by
  rw [sliceTo, if_pos h]

theorem sliceFrom_ok {xs : List α} {n : ℕ} (h : n ≤ xs.length) :
  (sliceFrom xs n : Outcome ε (List α)) = .ok (xs.drop n)
  := by
  rw [sliceFrom, if_pos h]

theorem sliceRange_ok {xs : List α} {start stop : ℕ} (h : start ≤ stop) (h' : stop ≤ xs.length) :
  (sliceRange xs start stop : Outcome ε (List α)) = .ok (Bytes.slice xs start (stop - start))
  := by
  rw [sliceRange, if_pos ⟨h, h'⟩]

theorem copyFromSlice_ok {xs ys : List α} {start stop : ℕ} (h : stop = start + ys.length)
    (h' : stop ≤ xs.length) :
  (copyFromSlice xs start stop ys : Outcome ε (List α)) = .ok (Bytes.overwrite xs start ys)
  := by
  rw [copyFromSlice, if_pos]
  omega

/-- A buffer whose first bytes are filled, with the next ones filled. -/
theorem copyFromSlice_append {done rest ys : List α} {start stop : ℕ} (hstart : start = done.length)
    (hstop : stop = start + ys.length) (h : ys.length ≤ rest.length) :
  (copyFromSlice (done ++ rest) start stop ys : Outcome ε (List α)) =
    .ok (done ++ ys ++ rest.drop ys.length)
  := by
  subst hstart
  rw [copyFromSlice_ok hstop, Bytes.overwrite, List.take_left, List.drop_length_add_append]
  rw [List.length_append]
  omega

/-- A buffer of fillers whose first entries are filled, with the next ones filled. -/
theorem copyFromSlice_replicate {z : α} {done ys : List α} {start stop n : ℕ}
    (hstart : start = done.length) (hstop : stop = start + ys.length) (h : ys.length ≤ n) :
  (copyFromSlice (done ++ List.replicate n z) start stop ys : Outcome ε (List α)) =
    .ok (done ++ ys ++ List.replicate (n - ys.length) z)
  := by
  rw [copyFromSlice_append hstart hstop, List.drop_replicate]
  rw [List.length_replicate]
  exact h

/-- A buffer of fillers whose first entries are filled. -/
theorem copyFromSlice_start {z : α} {ys : List α} {stop n : ℕ} (hstop : stop = ys.length)
    (h : ys.length ≤ n) :
  (copyFromSlice (List.replicate n z) 0 stop ys : Outcome ε (List α)) =
    .ok (ys ++ List.replicate (n - ys.length) z)
  := @copyFromSlice_replicate _ _ _ [] _ _ _ _ rfl (hstop.trans (Nat.zero_add _).symm) h

theorem copyFromSlice_panics {xs ys : List α} {start stop : ℕ} (h : xs.length < stop) :
  (copyFromSlice xs start stop ys : Outcome ε (List α)) = .panics
  := by
  rw [copyFromSlice, if_neg]
  omega

/-- A slice that starts behind a text is one of the start of what follows it. -/
theorem strRange_append (a b : Text) (n : ℕ) :
  (strRange (a ++ b) a.byteLen (a.byteLen + n) : Outcome ε Text) = strTo b n
  := by
  rw [strRange, if_pos (Nat.le_add_right _ _), strTo, strTo, Text.splitAtByte_append]
  cases Text.splitAtByte b n with
  | none => rfl
  | some pieces =>
      have hstart : Text.splitAtByte (a ++ pieces.1) a.byteLen = some (a, pieces.1) :=
        Text.splitAtByte_eq_some_iff.mpr ⟨rfl, rfl⟩
      change strFrom (a ++ pieces.1) a.byteLen = _
      rw [strFrom, hstart]

end Rust

import CatplayFirmware.Support.Bytes
import Mathlib.Data.Nat.Notation

/-!
# Files that are written at offsets

A write at an offset replaces what is there, and a file that ends before the offset is filled up
with a filler `z` first; a write of nothing changes nothing. A file that is written piece by
piece has all the pieces in it at the end exactly when pieces that overlap agree on what they
share, and keeps its length exactly when no piece ends after it.
-/

namespace SparseFile

open Bytes

variable {α : Type*} (z : α)

/-- A file with `data` written at the offset `off`. -/
def writeAt (file : List α) (off : ℕ) (data : List α) : List α :=
  if data = [] then file
  else overwrite (file ++ List.replicate (off - file.length) z) off data

/-- A file with some pieces written, each at its offset, one after the other. -/
def writeAll (file : List α) (writes : List (ℕ × List α)) : List α :=
  writes.foldl (fun file write => writeAt z file write.1 write.2) file

/-- A file cut off at a length, or filled up to it. -/
def resize (file : List α) (len : ℕ) : List α :=
  file.take len ++ List.replicate (len - file.length) z

/-- The entry at a position, or the filler behind the end. -/
def read (file : List α) (k : ℕ) : α := file[k]?.getD z

/-- A position is one that a piece is written to. -/
def Covers (write : ℕ × List α) (k : ℕ) : Prop := write.1 ≤ k ∧ k < write.1 + write.2.length

/-- No piece ends behind the position `size`. -/
def Inside (size : ℕ) (writes : List (ℕ × List α)) : Prop :=
  ∀ write ∈ writes, write.2 ≠ [] → write.1 + write.2.length ≤ size

/-- Pieces that overlap agree on what they share. -/
def Agree (writes : List (ℕ × List α)) : Prop :=
  ∀ v ∈ writes, ∀ w ∈ writes, ∀ i < v.2.length, ∀ j < w.2.length, v.1 + i = w.1 + j →
    v.2[i]? = w.2[j]?

/-- A file has a given length, all the pieces in it, and the filler everywhere else. -/
structure Faithful (size : ℕ) (writes : List (ℕ × List α)) (file : List α) : Prop where
  length : file.length = size
  contents : ∀ write ∈ writes, slice file write.1 write.2.length = write.2
  filler : ∀ k < size, (∀ write ∈ writes, ¬ Covers write k) → file[k]? = some z

variable {z}

@[simp] theorem length_resize (file : List α) (len : ℕ) :
  (resize z file len).length = len
  := by
  rw [resize, List.length_append, List.length_take, List.length_replicate]
  omega

/-- A file of the length that is asked for is left as it is. -/
theorem resize_self (file : List α) :
  resize z file file.length = file
  := by
  rw [resize, List.take_length, Nat.sub_self, List.replicate_zero, List.append_nil]

/-- A write that does not start behind the end. -/
theorem writeAt_eq_overwrite {file : List α} {off : ℕ} (h : off ≤ file.length) (data : List α) :
  writeAt z file off data = overwrite file off data
  := by
  rw [writeAt, Nat.sub_eq_zero_of_le h, List.replicate_zero, List.append_nil]
  split
  · next hdata => rw [hdata, overwrite_nil]
  · rfl

/-! ### Reading after a write -/

/-- A slice, item by item. -/
theorem slice_eq_iff {file data : List α} {off : ℕ} :
  slice file off data.length = data ↔ ∀ i < data.length, file[off + i]? = data[i]?
  := by
  constructor
  · intro h i hi
    conv_rhs => rw [← h, slice, List.getElem?_take, if_pos hi, List.getElem?_drop]
  · intro h
    apply List.ext_getElem?
    intro i
    rw [slice, List.getElem?_take]
    split
    · next hi =>
      rw [List.getElem?_drop]
      apply h i hi
    · next hi => rw [List.getElem?_eq_none (Nat.not_lt.mp hi)]

/-- A write that is not empty makes the file as long as it has to be. -/
theorem length_writeAt {file data : List α} {off : ℕ} (hdata : data ≠ []) :
  (writeAt z file off data).length = max file.length (off + data.length)
  := by
  rw [writeAt, if_neg hdata, overwrite]
  simp only [List.length_append, List.length_take, List.length_drop, List.length_replicate]
  omega

/-- What has been written is read. -/
theorem read_writeAt_covered {file data : List α} {off i : ℕ} (hi : i < data.length) :
  read z (writeAt z file off data) (off + i) = data[i]
  := by
  have hdata : data ≠ [] := List.ne_nil_of_length_pos (Nat.zero_lt_of_lt hi)
  have hstart : ((file ++ List.replicate (off - file.length) z).take off).length = off := by
    simp only [List.length_append, List.length_take, List.length_replicate]
    omega
  rw [read, writeAt, if_neg hdata, overwrite, List.getElem?_append_left, List.getElem?_append_right,
    hstart, Nat.add_sub_cancel_left, List.getElem?_eq_getElem hi, Option.getD_some]
  · omega
  · rw [List.length_append, hstart]
    omega

/-- What has not been written is read as before, and as zero behind the old end. -/
theorem read_writeAt_uncovered {file : List α} {write : ℕ × List α} {k : ℕ}
    (h : ¬ Covers write k) :
  read z (writeAt z file write.1 write.2) k = read z file k
  := by
  obtain ⟨off, data⟩ := write
  rw [Covers, not_and_or, Nat.not_le, Nat.not_lt] at h
  simp only at h ⊢
  by_cases hdata : data = []
  · rw [writeAt, if_pos hdata]
  have hfilled : read z (file ++ List.replicate (off - file.length) z) k = read z file k := by
    rw [read, read]
    rcases Nat.lt_or_ge k file.length with hk | hk
    · rw [List.getElem?_append_left hk]
    · rw [List.getElem?_append_right hk, List.getElem?_eq_none hk, List.getElem?_replicate]
      split
      · rfl
      · rfl
  have hstart : ((file ++ List.replicate (off - file.length) z).take off).length = off := by
    simp only [List.length_append, List.length_take, List.length_replicate]
    omega
  rw [← hfilled, read, read, writeAt, if_neg hdata, overwrite]
  rcases h with hbefore | hbehind
  · rw [List.append_assoc, List.getElem?_append_left (by omega), List.getElem?_take,
      if_pos hbefore]
  · rw [List.getElem?_append_right]
    · rw [List.length_append, hstart, List.getElem?_drop, Nat.add_sub_cancel' hbehind]
    · rw [List.length_append, hstart]
      exact hbehind

/-! ### Reading after some writes -/

theorem writeAll_cons (file : List α) (write : ℕ × List α) (writes : List (ℕ × List α)) :
  writeAll z file (write :: writes) = writeAll z (writeAt z file write.1 write.2) writes
  := List.foldl_cons ..

/-- What none of the writes covers is read as before. -/
theorem read_writeAll_uncovered {file : List α} {writes : List (ℕ × List α)} {k : ℕ}
    (h : ∀ write ∈ writes, ¬ Covers write k) :
  read z (writeAll z file writes) k = read z file k
  := by
  induction writes generalizing file with
  | nil => rfl
  | cons write writes ih =>
      rw [writeAll_cons, ih fun write' hmem => h write' (List.mem_cons_of_mem _ hmem)]
      apply read_writeAt_uncovered (h write List.mem_cons_self)

/-- A position that a piece is written to has the entry of the piece at the end: the last piece
written to it agrees with all others. -/
theorem read_writeAll_covered {file : List α} {writes : List (ℕ × List α)} (hagree : Agree writes)
    {write : ℕ × List α} (hmem : write ∈ writes) {i : ℕ} (hi : i < write.2.length) :
  read z (writeAll z file writes) (write.1 + i) = write.2[i]
  := by
  induction writes generalizing file write i with
  | nil => cases hmem
  | cons first writes ih =>
      have hagree' : Agree writes := by
        intro v hv w hw
        apply hagree v (List.mem_cons_of_mem _ hv) w (List.mem_cons_of_mem _ hw)
      rw [writeAll_cons]
      by_cases hlater : ∃ later ∈ writes, Covers later (write.1 + i)
      · obtain ⟨later, hlater, hfrom, hto⟩ := hlater
        obtain ⟨j, hj⟩ : ∃ j, write.1 + i = later.1 + j := Nat.exists_eq_add_of_le hfrom
        have hjlt : j < later.2.length := by omega
        have hsame := hagree write hmem later (List.mem_cons_of_mem _ hlater) i hi j hjlt hj
        rw [List.getElem?_eq_getElem hi, List.getElem?_eq_getElem hjlt] at hsame
        rw [hj, ih hagree' hlater hjlt]
        exact (Option.some.inj hsame).symm
      · push Not at hlater
        rw [read_writeAll_uncovered hlater]
        rcases List.mem_cons.mp hmem with rfl | hmem
        · apply read_writeAt_covered hi
        · exact absurd ⟨Nat.le_add_right _ _, by omega⟩ (hlater write hmem)

/-- No write makes a file shorter. -/
theorem length_le_writeAt (file : List α) (write : ℕ × List α) :
  file.length ≤ (writeAt z file write.1 write.2).length
  := by
  by_cases hdata : write.2 = []
  · apply Nat.le_of_eq
    rw [writeAt, if_pos hdata]
  · rw [length_writeAt hdata]
    apply Nat.le_max_left

/-- No writes make a file shorter. -/
theorem length_le_writeAll (file : List α) (writes : List (ℕ × List α)) :
  file.length ≤ (writeAll z file writes).length
  := by
  induction writes generalizing file with
  | nil => apply Nat.le_refl
  | cons write writes ih =>
      rw [writeAll_cons]
      apply Nat.le_trans (length_le_writeAt file write) (ih _)

/-- The file reaches to the end of each write. -/
theorem end_le_writeAll (file : List α) {writes : List (ℕ × List α)} {write : ℕ × List α}
    (hmem : write ∈ writes) (hdata : write.2 ≠ []) :
  write.1 + write.2.length ≤ (writeAll z file writes).length
  := by
  induction writes generalizing file with
  | nil => cases hmem
  | cons first writes ih =>
      rw [writeAll_cons]
      rcases List.mem_cons.mp hmem with rfl | hmem
      · apply Nat.le_trans _ (length_le_writeAll _ _)
        rw [length_writeAt hdata]
        apply Nat.le_max_right
      · apply ih _ hmem

/-- Writes inside a file keep its length. -/
theorem length_writeAll {file : List α} {writes : List (ℕ × List α)}
    (h : Inside file.length writes) :
  (writeAll z file writes).length = file.length
  := by
  induction writes generalizing file with
  | nil => rfl
  | cons write writes ih =>
      have hlen : (writeAt z file write.1 write.2).length = file.length := by
        by_cases hdata : write.2 = []
        · rw [writeAt, if_pos hdata]
        · rw [length_writeAt hdata, Nat.max_eq_left (h write List.mem_cons_self hdata)]
      rw [writeAll_cons, ih, hlen]
      rw [hlen]
      exact fun write' hmem => h write' (List.mem_cons_of_mem _ hmem)

theorem getElem?_of_read {file : List α} {k : ℕ} (h : k < file.length) :
  file[k]? = some (read z file k)
  := by
  rw [read, List.getElem?_eq_getElem h, Option.getD_some]

/-- All pieces that are written are in a file at the end exactly when pieces that overlap
agree. -/
theorem writeAll_contents_iff {file : List α} {writes : List (ℕ × List α)} :
  (∀ write ∈ writes, slice (writeAll z file writes) write.1 write.2.length = write.2) ↔
    Agree writes
  := by
  constructor
  · intro hcontents v hv w hw i hi j hj hsame
    rw [← slice_eq_iff.mp (hcontents v hv) i hi, ← slice_eq_iff.mp (hcontents w hw) j hj, hsame]
  · intro hagree write hmem
    rw [slice_eq_iff]
    intro i hi
    have hend := end_le_writeAll (z := z) file hmem
      (List.ne_nil_of_length_pos (Nat.zero_lt_of_lt hi))
    rw [getElem?_of_read (z := z) (by omega), read_writeAll_covered hagree hmem hi,
      List.getElem?_eq_getElem hi]

/-- A file of fillers that is written piece by piece is faithful exactly when no piece ends
behind it and pieces that overlap agree. -/
theorem writeAll_faithful_iff {size : ℕ} {writes : List (ℕ × List α)} :
  Faithful z size writes (writeAll z (List.replicate size z) writes) ↔
    Inside size writes ∧ Agree writes
  := by
  constructor
  · rintro ⟨hlen, hcontents, -⟩
    constructor
    · intro write hmem hdata
      rw [← hlen]
      apply end_le_writeAll _ hmem hdata
    · apply writeAll_contents_iff.mp hcontents
  · rintro ⟨hinside, hagree⟩
    have hlen : (writeAll z (List.replicate size z) writes).length = size := by
      rw [length_writeAll]
      · apply List.length_replicate
      · rw [List.length_replicate]
        exact hinside
    constructor
    · exact hlen
    · apply writeAll_contents_iff.mpr hagree
    · intro k hk huncovered
      rw [getElem?_of_read (z := z) (by omega), read_writeAll_uncovered huncovered, read,
        List.getElem?_replicate, if_pos hk, Option.getD_some]

end SparseFile

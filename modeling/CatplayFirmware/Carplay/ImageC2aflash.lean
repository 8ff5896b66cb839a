import CatplayFirmware.Support.Outcome
import CatplayFirmware.Support.SparseFile
import CatplayFirmware.Support.Text

/-!
# The flash image

The image is a file of zeros of the size of the flash, into which the files of the partitions
are written one after the other, each at its offset. A file that is larger than its partition
is refused. Nothing is asked of the offsets: a partition that ends behind the flash makes the
image longer, and of partitions that overlap the last one stays.
-/

namespace ImageC2aflash

open SparseFile

/-- The entries of `C2A_FLASH_PARTITIONS`, three words each: a file, an offset and a size. -/
def triples : List Text → List (Text × Text × Text)
  | partFile :: off :: size :: rest => (partFile, off, size) :: triples rest
  | _ => []

section

-- `int(s, 0)`, which raises an exception for a text that is no numeral, and the files there are
variable (numeral : Text → Option ℤ) (files : Text → Option Bytes)

/-- One round of the loop of `c2aflash_create_image`. A failure is a call of `bb.fatal`, and a
panic is an exception. -/
def writePart (img : Bytes) (part : Text × Text × Text) : Outcome Text Bytes :=
  let (partFile, offRaw, sizeRaw) := part
  match numeral offRaw, numeral sizeRaw with
  | some off, some size =>
    match files partFile with
    | none => .fail ("Missing partition file: ".toList ++ partFile)
    | some data =>
      if size < data.length then
        .fail (partFile ++ " too large: ".toList ++ Text.ofNat data.length ++ " > ".toList ++
          Text.ofInt size)
      -- a negative offset cannot be sought
      else if off < 0 then .panics
      else .ok (writeAt 0 img off.toNat data)
  | _, _ => .panics

/-- The loop over the entries. -/
def writeParts : List (Text × Text × Text) → Bytes → Outcome Text Bytes
  | [], img => .ok img
  | part :: parts, img => do
    let img ← writePart numeral files img part
    writeParts parts img

/-- `c2aflash_create_image`, with the image it has written; none when there are no
partitions. -/
def createImage (flashSize : ℤ) (parts : List Text) : Outcome Text (Option Bytes) :=
  if parts = [] then .ok none
  else if parts.length % 3 ≠ 0 then
    .fail ("C2A_FLASH_PARTITIONS must be groups of 3 (file offset size), got ".toList ++
      Text.ofNat parts.length ++ " elements".toList)
  else if flashSize < 0 then .panics
  else (writeParts numeral files (triples parts) (List.replicate flashSize.toNat 0)).map some

/-! ### What is asked for -/

/-- An entry whose numbers are numerals and whose file is there and not too large. -/
def PartOk (part : Text × Text × Text) : Prop :=
  ∃ off size data, numeral part.2.1 = some off ∧ numeral part.2.2 = some size ∧
    files part.1 = some data ∧ (data.length : ℤ) ≤ size ∧ 0 ≤ off

/-- What an entry asks for: the offset, and the bytes of the file. -/
def partWrite (part : Text × Text × Text) : Option (ℕ × Bytes) := do
  let off ← numeral part.2.1
  let data ← files part.1
  return (off.toNat, data)

def writes (parts : List Text) : List (ℕ × Bytes) :=
  (triples parts).filterMap (partWrite numeral files)

/-- The entries for which an image is written. -/
structure Accepted (flashSize : ℤ) (parts : List Text) : Prop where
  ne_nil : parts ≠ []
  groups : parts.length % 3 = 0
  flash : 0 ≤ flashSize
  parts : ∀ part ∈ triples parts, PartOk numeral files part

variable {numeral files}

/-! ### What is written -/

theorem writePart_ok_iff {img img' : Bytes} {part : Text × Text × Text} :
  writePart numeral files img part = .ok img' ↔
    PartOk numeral files part ∧
      ∃ write, partWrite numeral files part = some write ∧
        img' = writeAt 0 img write.1 write.2
  := by
  obtain ⟨partFile, offRaw, sizeRaw⟩ := part
  rw [writePart, PartOk, partWrite]
  simp only
  cases hoff : numeral offRaw with
  | none => simp
  | some off =>
      cases hsize : numeral sizeRaw with
      | none => simp
      | some size =>
          cases hfile : files partFile with
          | none => simp
          | some data =>
              simp only
              split
              · next hlarge =>
                simp only [Outcome.fail_ne_ok, Option.some.injEq, false_iff, not_and]
                rintro ⟨off', size', data', rfl, rfl, rfl, hfits, -⟩
                omega
              · next hfits =>
                split
                · next hnegative =>
                  simp only [Outcome.panics_ne_ok, Option.some.injEq, false_iff, not_and]
                  rintro ⟨off', size', data', rfl, rfl, rfl, -, hpos⟩
                  omega
                · next hpos =>
                  constructor
                  · rintro ⟨⟩
                    exact ⟨⟨off, size, data, rfl, rfl, rfl, by omega, by omega⟩,
                      (off.toNat, data), rfl, rfl⟩
                  · rintro ⟨-, write, ⟨⟩, rfl⟩
                    rfl

theorem writeParts_ok_iff {parts : List (Text × Text × Text)} {img img' : Bytes} :
  writeParts numeral files parts img = .ok img' ↔
    (∀ part ∈ parts, PartOk numeral files part) ∧
      img' = writeAll 0 img (parts.filterMap (partWrite numeral files))
  := by
  induction parts generalizing img with
  | nil =>
      rw [writeParts]
      constructor
      · rintro ⟨⟩
        exact ⟨nofun, rfl⟩
      · rintro ⟨-, rfl⟩
        rfl
  | cons part parts ih =>
      rw [writeParts, Except.bind_eq_ok_iff, List.forall_mem_cons]
      constructor
      · rintro ⟨first, hfirst, hrest⟩
        obtain ⟨hpart, write, hwrite, rfl⟩ := writePart_ok_iff.mp hfirst
        obtain ⟨hparts, rfl⟩ := ih.mp hrest
        use ⟨hpart, hparts⟩
        rw [List.filterMap_cons_some hwrite, writeAll_cons]
      · rintro ⟨⟨hpart, hparts⟩, rfl⟩
        obtain ⟨write, hwrite⟩ : ∃ write, partWrite numeral files part = some write := by
          obtain ⟨off, size, data, hoff, -, hfile, -⟩ := hpart
          use (off.toNat, data)
          rw [partWrite, hoff, hfile]
          rfl
        use writeAt 0 img write.1 write.2
        constructor
        · apply writePart_ok_iff.mpr ⟨hpart, write, hwrite, rfl⟩
        · apply ih.mpr
          use hparts
          rw [List.filterMap_cons_some hwrite, writeAll_cons]

/-- An image is written for the entries that are accepted, and it is a file of zeros with the
files written into it. -/
theorem createImage_ok_iff {flashSize : ℤ} {parts : List Text} {image : Bytes} :
  createImage numeral files flashSize parts = .ok (some image) ↔
    Accepted numeral files flashSize parts ∧
      image = writeAll 0 (List.replicate flashSize.toNat 0) (writes numeral files parts)
  := by
  rw [createImage]
  split
  · next hnil =>
    constructor
    · rintro ⟨⟩
    · rintro ⟨hacc, -⟩
      exact absurd hnil hacc.ne_nil
  · next hne =>
    split
    · next hgroups =>
      constructor
      · rintro ⟨⟩
      · rintro ⟨hacc, -⟩
        exact absurd hacc.groups hgroups
    · next hgroups =>
      split
      · next hnegative =>
        constructor
        · rintro ⟨⟩
        · rintro ⟨hacc, -⟩
          have hflash := hacc.flash
          omega
      · next hflash =>
        rw [Except.map_eq_ok_iff]
        constructor
        · rintro ⟨img, himg, ⟨⟩⟩
          obtain ⟨hparts, rfl⟩ := writeParts_ok_iff.mp himg
          exact ⟨⟨hne, not_not.mp hgroups, Int.not_lt.mp hflash, hparts⟩, rfl⟩
        · rintro ⟨hacc, rfl⟩
          exact ⟨_, writeParts_ok_iff.mpr ⟨hacc.parts, rfl⟩, rfl⟩

end

/-- The image that is written has the size of the flash, all files at their offsets and zeros
everywhere else, exactly when no file ends behind the flash and files that overlap agree on
what they share, or the entries are refused. -/
theorem createImage_faithful_iff (numeral : Text → Option ℤ) (files : Text → Option Bytes)
    (flashSize : ℤ) (parts : List Text) :
  (∀ image, createImage numeral files flashSize parts = .ok (some image) →
    Faithful 0 flashSize.toNat (writes numeral files parts) image) ↔
  (Accepted numeral files flashSize parts →
    Inside flashSize.toNat (writes numeral files parts) ∧ Agree (writes numeral files parts))
  := by
  constructor
  · intro h hacc
    apply writeAll_faithful_iff.mp
    apply h _ (createImage_ok_iff.mpr ⟨hacc, rfl⟩)
  · rintro h image himage
    obtain ⟨hacc, rfl⟩ := createImage_ok_iff.mp himage
    apply writeAll_faithful_iff.mpr (h hacc)

/-- A file of two bytes and one of one byte. -/
def twoFiles (name : Text) : Option Bytes :=
  if name = "a".toList then some [1, 1] else if name = "b".toList then some [2] else none

/-- The second of two partitions that overlap replaces a byte of the first. -/
theorem not_createImage_faithful :
  ∃ parts image, createImage Text.signed? twoFiles 4 parts = .ok (some image) ∧
    ¬ Faithful 0 4 (writes Text.signed? twoFiles parts) image
  := by
  use ["a".toList, "0".toList, "2".toList, "b".toList, "1".toList, "1".toList], [1, 2, 0, 0]
  constructor
  · rfl
  · intro h
    have hfirst := h.contents (0, [1, 1]) (by decide +kernel)
    cases hfirst

end ImageC2aflash

import CatplayFirmware.SunxiFlasher.CpioArchive

/-!
# Encrypting update images

An image is encrypted and decrypted by the same exclusive or with a key of 256 bytes. The plain
image must end with the trailer of an archive, which is looked for on its own: at the last
place in the image where the bytes of the trailer's name occur, whichever member they lie in.
-/

namespace Decrypter

open Python

def cpioCrcMagic : Bytes := [48, 55, 48, 55, 48, 50]

def cpioHeaderSize : ℕ := 110

/-- The name of a trailer, `TRAILER!!!`. -/
def trailerText : Bytes := [84, 82, 65, 73, 76, 69, 82, 33, 33, 33]

/-- The name of a trailer, with its NUL. -/
def cpioTrailerName : Bytes := trailerText ++ [0]

/-- The errors of the class, by their messages, with what is written into them. -/
inductive Error where
  | noTrailer
  | notCrcFormat
  | invalidHeader
  | trailerNotEmpty (nameSize fileSize : ℤ)
  | nonZeroData
  deriving DecidableEq

/-- `_V821_XOR_KEY`, the key of the only method. -/
def v821XorKey : Vector UInt8 256 :=
  ⟨List.toArray (List.flatten [
    [0x12, 0x69, 0x54, 0x48, 0x37, 0xf0, 0xd5, 0x6e, 0x92, 0x7e, 0x26, 0xc3, 0xe5, 0x25, 0xc5, 0xee,
      0x2a, 0x96, 0x8b, 0x51, 0xab, 0x10, 0xf2, 0xa9, 0xdc, 0x1d, 0x1b, 0x54, 0xb2, 0xa0, 0xa4, 0xb5],
    [0xfa, 0xf8, 0xfd, 0x31, 0xe9, 0xd2, 0xa0, 0x7b, 0x50, 0xc6, 0x3e, 0x36, 0xeb, 0x03, 0x24, 0x66,
      0x13, 0xbf, 0xb7, 0x3f, 0xc0, 0xa9, 0xe8, 0x9c, 0xc7, 0x04, 0xf0, 0x79, 0xa4, 0x95, 0x2e, 0x9e],
    [0x7e, 0x3b, 0xd0, 0x77, 0xfd, 0x70, 0xf2, 0x4e, 0x36, 0x30, 0x84, 0x21, 0x33, 0xa8, 0x87, 0xc7,
      0x77, 0x42, 0xe4, 0x0d, 0xf6, 0xf3, 0x2c, 0x89, 0x52, 0x49, 0x91, 0x5f, 0xbe, 0x91, 0x64, 0xe0],
    [0xaf, 0x2d, 0x03, 0xc1, 0x2b, 0xd8, 0x09, 0x97, 0x47, 0x59, 0x06, 0x1c, 0x80, 0x8f, 0xbd, 0x48,
      0xb1, 0xa1, 0x55, 0xc8, 0x95, 0x81, 0x51, 0xe7, 0xcb, 0xe2, 0x47, 0x89, 0x74, 0xab, 0x6a, 0x13],
    [0x69, 0x6d, 0xd4, 0x04, 0x45, 0xde, 0x9b, 0x8d, 0x37, 0xa2, 0xa9, 0xb7, 0x31, 0x67, 0xff, 0x02,
      0x37, 0x5e, 0x06, 0x17, 0xe8, 0xee, 0xb4, 0xaf, 0xf2, 0xa4, 0x28, 0x97, 0x39, 0x57, 0x35, 0xc7],
    [0x62, 0x05, 0x3e, 0x80, 0x75, 0x30, 0xce, 0xab, 0x60, 0x52, 0xcd, 0x94, 0xfa, 0x54, 0x5b, 0x51,
      0x33, 0x61, 0x69, 0x7b, 0x4f, 0x1d, 0x2a, 0x42, 0xc1, 0x52, 0xd9, 0xfb, 0xa9, 0x0e, 0xc2, 0x2c],
    [0x24, 0x01, 0xac, 0x89, 0x31, 0x7a, 0x35, 0x92, 0xcc, 0x02, 0x26, 0xc6, 0x56, 0x81, 0x17, 0xe9,
      0x4c, 0xa0, 0xba, 0x43, 0x46, 0xb4, 0x0f, 0x2e, 0x92, 0x5f, 0x1d, 0x08, 0x0d, 0x75, 0x00, 0x05],
    [0x62, 0x0d, 0xc9, 0x23, 0x22, 0xfd, 0xd4, 0x48, 0x6c, 0x6f, 0x4f, 0x6f, 0xd5, 0x27, 0x88, 0xa1,
      0x08, 0xa5, 0xca, 0x9d, 0xd6, 0x1b, 0x85, 0xa1, 0xfe, 0xcc, 0x2b, 0x72, 0x77, 0x95, 0x85, 0x50]]),
    by decide +kernel⟩

/-- `_xor`: the key is repeated, `self._key[index & 0xFF]`. -/
def xor (key : Vector UInt8 256) (data : Bytes) : Bytes :=
  data.mapIdx fun index value => value ^^^ key.get (Fin.ofNat 256 index)

/-- The fields of a header, `int(header[6 + index * 8 : 14 + index * 8], 16)`. -/
def headerField (header : Bytes) (index : Fin 13) : Option ℤ :=
  intHex (slice header (6 + index * 8) (14 + index * 8))

/-- `_assert_cpio_trailer`. -/
def assertCpioTrailer (data : Bytes) : Outcome Error Unit :=
  match rfind cpioTrailerName data with
  | none => .fail .noTrailer
  | some nameOffset =>
    if nameOffset < cpioHeaderSize then .fail .noTrailer
    else
      let header := Bytes.slice data (nameOffset - cpioHeaderSize) cpioHeaderSize
      if header.take 6 ≠ cpioCrcMagic then .fail .notCrcFormat
      else if h : ∀ index, (headerField header index).isSome then
        let fileSize := (headerField header 6).get (h 6)
        let nameSize := (headerField header 11).get (h 11)
        if nameSize ≠ cpioTrailerName.length ∨ fileSize ≠ 0 then
          .fail (.trailerNotEmpty nameSize fileSize)
        else if (data.drop (nameOffset + cpioTrailerName.length)).any (· ≠ 0) then
          .fail .nonZeroData
        else .ok ()
      else .fail .invalidHeader

def decrypt (key : Vector UInt8 256) (data : Bytes) : Outcome Error Bytes := do
  let decrypted := xor key data
  assertCpioTrailer decrypted
  return decrypted

def encrypt (key : Vector UInt8 256) (data : Bytes) : Outcome Error Bytes := do
  assertCpioTrailer data
  return xor key data

/-! ### Encryption and decryption -/

/-- The key applied twice gives the image back. -/
theorem xor_xor (key : Vector UInt8 256) (data : Bytes) : xor key (xor key data) = data := by
  have hcancel (index : ℕ) (value : UInt8) : value ^^^ key.get (Fin.ofNat 256 index) ^^^
      key.get (Fin.ofNat 256 index) = value := by
    rw [UInt8.xor_assoc, UInt8.xor_self, UInt8.xor_zero]
  rw [xor, xor, List.mapIdx_mapIdx]
  apply List.ext_getElem
  · simp
  · intro index h h'
    rw [List.getElem_mapIdx]
    apply hcancel

theorem encrypt_eq_ok_iff {key : Vector UInt8 256} {data out : Bytes} :
  encrypt key data = .ok out ↔ assertCpioTrailer data = .ok () ∧ out = xor key data
  := by
  rw [encrypt, Except.bind_eq_ok_iff]
  constructor
  · rintro ⟨_, hassert, h⟩
    cases h
    exact ⟨hassert, rfl⟩
  · rintro ⟨hassert, rfl⟩
    exact ⟨(), hassert, rfl⟩

theorem decrypt_eq_ok_iff {key : Vector UInt8 256} {data out : Bytes} :
  decrypt key data = .ok out ↔ assertCpioTrailer out = .ok () ∧ out = xor key data
  := by
  rw [decrypt, Except.bind_eq_ok_iff]
  constructor
  · rintro ⟨_, hassert, h⟩
    cases h
    exact ⟨hassert, rfl⟩
  · rintro ⟨hassert, rfl⟩
    exact ⟨(), hassert, rfl⟩

/-- What is encrypted is decrypted to the same image. -/
theorem decrypt_encrypt {key : Vector UInt8 256} {data out : Bytes}
    (h : encrypt key data = .ok out) :
  decrypt key out = .ok data
  := by
  obtain ⟨hassert, rfl⟩ := encrypt_eq_ok_iff.mp h
  apply decrypt_eq_ok_iff.mpr
  rw [xor_xor]
  exact ⟨hassert, rfl⟩

/-! ### Where the trailer is found -/

/-- At an offset of an image there is the name of an empty trailer, with only zeros behind
it. -/
structure EmptyTrailerAt (data : Bytes) (nameOffset : ℕ) : Prop where
  header : cpioHeaderSize ≤ nameOffset
  magic : (Bytes.slice data (nameOffset - cpioHeaderSize) cpioHeaderSize).take 6 = cpioCrcMagic
  fields : ∀ index, (headerField (Bytes.slice data (nameOffset - cpioHeaderSize) cpioHeaderSize)
    index).isSome
  nameSize : headerField (Bytes.slice data (nameOffset - cpioHeaderSize) cpioHeaderSize) 11 =
    some (cpioTrailerName.length : ℤ)
  fileSize : headerField (Bytes.slice data (nameOffset - cpioHeaderSize) cpioHeaderSize) 6 = some 0
  zeros : ∀ c ∈ data.drop (nameOffset + cpioTrailerName.length), c = 0

theorem assertCpioTrailer_iff {data : Bytes} :
  assertCpioTrailer data = .ok () ↔
    ∃ nameOffset, rfind cpioTrailerName data = some nameOffset ∧ EmptyTrailerAt data nameOffset
  := by
  rw [assertCpioTrailer]
  cases hfind : rfind cpioTrailerName data with
  | none => simp
  | some nameOffset =>
      simp only [Option.some.injEq, exists_eq_left']
      constructor
      · intro h
        split at h
        · cases h
        · next hheader =>
          split at h
          · cases h
          · next hmagic =>
            split at h
            · next hfields =>
              split at h
              · cases h
              · next hsizes =>
                rw [not_or, not_not, not_not] at hsizes
                split at h
                · cases h
                · next hzeros =>
                  refine ⟨Nat.le_of_not_lt hheader, not_not.mp hmagic, hfields, ?_, ?_, ?_⟩
                  · rw [← hsizes.1, Option.some_get]
                  · rw [← hsizes.2, Option.some_get]
                  · simpa using hzeros
            · cases h
      · rintro ⟨hheader, hmagic, hfields, hnameSize, hfileSize, hzeros⟩
        have hsizes : (headerField (Bytes.slice data (nameOffset - cpioHeaderSize) cpioHeaderSize)
              11).get (hfields 11) = cpioTrailerName.length ∧
            (headerField (Bytes.slice data (nameOffset - cpioHeaderSize) cpioHeaderSize) 6).get
              (hfields 6) = 0 :=
          ⟨Option.get_of_eq_some _ hnameSize, Option.get_of_eq_some _ hfileSize⟩
        rw [if_neg (Nat.not_lt.mpr hheader), if_neg (not_not.mpr hmagic), dif_pos hfields,
          if_neg (by simp [hsizes.1, hsizes.2]), if_neg (by simpa using hzeros)]

theorem cpioTrailerName_ne_nil : cpioTrailerName ≠ [] := by decide

/-- What is in front of a trailer and its header does not matter. -/
theorem assertCpioTrailer_append (before : Bytes) {data : Bytes} {nameOffset : ℕ}
    (hname : cpioTrailerName <+: data.drop nameOffset) (hheader : cpioHeaderSize ≤ nameOffset) :
  assertCpioTrailer (before ++ data) = .ok () ↔ assertCpioTrailer data = .ok ()
  := by
  obtain ⟨last, hlast, hle⟩ := exists_rfind cpioTrailerName_ne_nil hname
  have hlast' := rfind_append cpioTrailerName_ne_nil before hlast
  have hslice : Bytes.slice (before ++ data) (before.length + last - cpioHeaderSize)
      cpioHeaderSize = Bytes.slice data (last - cpioHeaderSize) cpioHeaderSize := by
    rw [Nat.add_sub_assoc (Nat.le_trans hheader hle), Bytes.slice_append_right]
  have hdrop : (before ++ data).drop (before.length + last + cpioTrailerName.length) =
      data.drop (last + cpioTrailerName.length) := by
    rw [Nat.add_assoc, List.drop_length_add_append]
  have htrailer : EmptyTrailerAt (before ++ data) (before.length + last) ↔
      EmptyTrailerAt data last := by
    constructor
    · rintro ⟨-, hmagic, hfields, hnameSize, hfileSize, hzeros⟩
      rw [hslice] at hmagic hfields hnameSize hfileSize
      rw [hdrop] at hzeros
      exact ⟨by omega, hmagic, hfields, hnameSize, hfileSize, hzeros⟩
    · rintro ⟨-, hmagic, hfields, hnameSize, hfileSize, hzeros⟩
      constructor
      · omega
      · rw [hslice]
        exact hmagic
      · rw [hslice]
        exact hfields
      · rw [hslice]
        exact hnameSize
      · rw [hslice]
        exact hfileSize
      · rw [hdrop]
        exact hzeros
  rw [assertCpioTrailer_iff, assertCpioTrailer_iff, hlast, hlast']
  simpa using htrailer

/-- One more zero at the end does not matter, unless it completes a name. -/
theorem assertCpioTrailer_concat {data : Bytes} (h : ¬ trailerText <:+ data) :
  assertCpioTrailer (data ++ [0]) = .ok () ↔ assertCpioTrailer data = .ok ()
  := by
  rw [assertCpioTrailer_iff, assertCpioTrailer_iff, cpioTrailerName, rfind_concat h,
    ← cpioTrailerName]
  apply exists_congr
  intro nameOffset
  apply and_congr_right
  intro hfind
  have hname := ((rfind_eq_some_iff cpioTrailerName_ne_nil).mp hfind).1.length_le
  rw [List.length_drop] at hname
  have hlen : cpioTrailerName.length = 11 := rfl
  have hslice : cpioHeaderSize ≤ nameOffset →
      Bytes.slice (data ++ [0]) (nameOffset - cpioHeaderSize) cpioHeaderSize =
        Bytes.slice data (nameOffset - cpioHeaderSize) cpioHeaderSize := by
    intro hheader
    apply Bytes.slice_append_left
    omega
  have hdrop : (data ++ [0]).drop (nameOffset + cpioTrailerName.length) =
      data.drop (nameOffset + cpioTrailerName.length) ++ [0] := by
    apply List.drop_append_of_le_length
    omega
  constructor
  · rintro ⟨hheader, hmagic, hfields, hnameSize, hfileSize, hzeros⟩
    rw [hslice hheader] at hmagic hfields hnameSize hfileSize
    rw [hdrop] at hzeros
    refine ⟨hheader, hmagic, hfields, hnameSize, hfileSize, ?_⟩
    intro c hc
    apply hzeros c (List.mem_append_left _ hc)
  · rintro ⟨hheader, hmagic, hfields, hnameSize, hfileSize, hzeros⟩
    constructor
    · exact hheader
    · rw [hslice hheader]
      exact hmagic
    · rw [hslice hheader]
      exact hfields
    · rw [hslice hheader]
      exact hnameSize
    · rw [hslice hheader]
      exact hfileSize
    · rw [hdrop]
      intro c hc
      rcases List.mem_append.mp hc with hc | hc
      · apply hzeros c hc
      · apply List.mem_singleton.mp hc

/-- An image that ends with the text of the name has no NUL behind it. -/
theorem not_assertCpioTrailer {data : Bytes} (h : trailerText <:+ data) :
  assertCpioTrailer data ≠ .ok ()
  := by
  intro hassert
  obtain ⟨nameOffset, hfind, htrailer⟩ := assertCpioTrailer_iff.mp hassert
  obtain ⟨⟨rest, hrest⟩, -⟩ := (rfind_eq_some_iff cpioTrailerName_ne_nil).mp hfind
  have hzeros : ∀ c ∈ rest, c = 0 := by
    intro c hc
    apply htrailer.zeros
    rw [← List.drop_drop, ← hrest, List.drop_left]
    exact hc
  -- the last byte lies in the name or in the zeros behind it, and is an exclamation mark
  have hlast : data.getLast? = some 33 := by
    obtain ⟨front, rfl⟩ := h
    simp [trailerText]
  have hlt : ¬ data.length ≤ nameOffset := by
    intro hle
    rw [List.drop_of_length_le hle] at hrest
    cases hrest
  have hlast' : (cpioTrailerName ++ rest).getLast? = some 33 := by
    rw [hrest, List.getLast?_drop, if_neg hlt, hlast]
  rcases List.eq_nil_or_concat rest with rfl | ⟨zeros, c, rfl⟩
  · cases hlast'
  · rw [List.concat_eq_append, ← List.append_assoc, List.getLast?_concat] at hlast'
    have hzero := hzeros c (by simp)
    rw [hzero] at hlast'
    cases hlast'

theorem not_suffix_concat_zero (data : Bytes) : ¬ trailerText <:+ data ++ [0] := by
  rintro ⟨front, hfront⟩
  have hlast := congrArg List.getLast? hfront
  simp [trailerText] at hlast

/-- All numbers of zeros at the end but none are alike. -/
theorem assertCpioTrailer_zeros (data : Bytes) (n : ℕ) :
  assertCpioTrailer (data ++ List.replicate (n + 1) 0) = .ok () ↔
    assertCpioTrailer (data ++ [0]) = .ok ()
  := by
  induction n with
  | zero => rfl
  | succ n ih =>
      have hnot : ¬ trailerText <:+ data ++ List.replicate (n + 1) 0 := by
        rw [List.replicate_succ', ← List.append_assoc]
        apply not_suffix_concat_zero
      rw [List.replicate_succ', ← List.append_assoc, assertCpioTrailer_concat hnot, ih]

/-- An image that is accepted with some number of zeros at its end is accepted with another
number exactly when it does not end with the text of the name then. -/
theorem assertCpioTrailer_zeros_iff {data : Bytes} {m : ℕ}
    (h : assertCpioTrailer (data ++ List.replicate m 0) = .ok ()) (n : ℕ) :
  assertCpioTrailer (data ++ List.replicate n 0) = .ok () ↔
    ¬ trailerText <:+ data ++ List.replicate n 0
  := by
  constructor
  · intro hassert hsuffix
    apply not_assertCpioTrailer hsuffix hassert
  · intro hnot
    have hzero : assertCpioTrailer (data ++ [0]) = .ok () := by
      cases m with
      | zero =>
          rw [List.replicate_zero, List.append_nil] at h
          apply (assertCpioTrailer_concat _).mpr h
          intro hsuffix
          apply not_assertCpioTrailer hsuffix h
      | succ m => exact (assertCpioTrailer_zeros data m).mp h
    cases n with
    | zero =>
        rw [List.replicate_zero, List.append_nil] at hnot ⊢
        apply (assertCpioTrailer_concat hnot).mp hzero
    | succ n => exact (assertCpioTrailer_zeros data n).mpr hzero

end Decrypter

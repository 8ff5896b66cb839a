import CatplayFirmware.Support.Crc32
import CatplayFirmware.Support.Except
import CatplayFirmware.Support.Hex

/-!
# Images of kernels

`UImage.init` takes apart the image of a kernel: a header of 64 bytes whose numbers are written
with the most significant byte first, and behind it the payload. With both checks asked for, the
images that it takes are exactly the headers with the right magic, size and checksums followed by
their payloads, and an image in which some neighbouring bytes have changed is refused.
-/

open Bytes

/-- The error of the program, with its message. -/
structure X1600UsbBootError where
  message : Text
  deriving DecidableEq

namespace UImage

/-- The number that the header of an image begins with. -/
def magicNumber : UInt32 := 0x27051956

/-- The length of a header, which the payload follows. -/
def headerSize : ℕ := 64

/-- `zlib.crc32`. -/
def crc32 (data : Bytes) : UInt32 := Crc32Hasher.ieee.crc32 data

/-! ### Headers -/

/-- What `struct.unpack` with the format `>7I4B32s` takes from a header. -/
structure Header where
  magic : UInt32
  headerCrc : UInt32
  timestamp : UInt32
  size : UInt32
  loadAddr : UInt32
  entryAddr : UInt32
  dataCrc : UInt32
  osType : UInt8
  arch : UInt8
  imageType : UInt8
  comp : UInt8
  nameRaw : Bytes
  deriving DecidableEq

/-- The number `I` at an offset. -/
def unpackI (header : Bytes) (off : ℕ) : UInt32 := UInt32.ofNat (beNat (slice header off 4))

/-- The number `B` at an offset. -/
def unpackB (header : Bytes) (off : ℕ) : UInt8 := UInt8.ofNat (beNat (slice header off 1))

/-- All fields of a header, each at its place. -/
def unpack (header : Bytes) : Header :=
  { magic := unpackI header 0
    headerCrc := unpackI header 4
    timestamp := unpackI header 8
    size := unpackI header 12
    loadAddr := unpackI header 16
    entryAddr := unpackI header 20
    dataCrc := unpackI header 24
    osType := unpackB header 28
    arch := unpackB header 29
    imageType := unpackB header 30
    comp := unpackB header 31
    nameRaw := slice header 32 32 }

/-! ### The parser -/

/-- An image as the rest of the program sees it: the fields of its header and its payload. -/
structure Image where
  magic : UInt32
  headerCrc : UInt32
  timestamp : UInt32
  size : UInt32
  loadAddr : UInt32
  entryAddr : UInt32
  dataCrc : UInt32
  osType : UInt8
  arch : UInt8
  imageType : UInt8
  comp : UInt8
  name : Text
  data : Bytes
  deriving DecidableEq

/-- `name_raw.rstrip(b"\x00").decode("ascii", errors="replace")`. -/
def decodeName (nameRaw : Bytes) : Text :=
  (nameRaw.rdropWhile (· = 0)).map fun b => if b < 0x80 then Char.ofNat b.toNat else '\uFFFD'

/-- The image of a header and a payload. -/
def Header.image (h : Header) (payload : Bytes) : Image :=
  { magic := h.magic
    headerCrc := h.headerCrc
    timestamp := h.timestamp
    size := h.size
    loadAddr := h.loadAddr
    entryAddr := h.entryAddr
    dataCrc := h.dataCrc
    osType := h.osType
    arch := h.arch
    imageType := h.imageType
    comp := h.comp
    name := decodeName h.nameRaw
    data := payload }

/-- The error for less than a header. -/
def tooSmall : Text := "kernel.bin is too small, this does not look like a uImage".toList

def invalidMagic (magic : UInt32) : Text :=
  "Invalid uImage magic: 0x".toList ++ Text.format08x magic.toNat

def payloadTruncated (size length : ℕ) : Text :=
  "uImage payload truncated: header says ".toList ++ Text.ofNat size ++
    " B, file contains ".toList ++ Text.ofNat length ++ " B".toList

/-- The message for one of the two checksums. -/
def invalidCrc (what : String) (expected found : UInt32) : Text :=
  "Invalid uImage ".toList ++ what.toList ++ " CRC: expected=0x".toList ++
    Text.format08x expected.toNat ++ ", calc=0x".toList ++ Text.format08x found.toNat

/-- `__init__`, with the two options that ask for the checksums to be compared. -/
def init (data : Bytes) (verifyHeaderCrc verifyDataCrc : Bool) : Except X1600UsbBootError Image :=
  if data.length < headerSize then .error ⟨tooSmall⟩
  else
    let header := data.take headerSize
    let h := unpack header
    if h.magic ≠ magicNumber then .error ⟨invalidMagic h.magic⟩
    else
      let payload := slice data headerSize h.size.toNat
      if payload.length ≠ h.size.toNat then
        .error ⟨payloadTruncated h.size.toNat payload.length⟩
      else
        let calcHcrc := crc32 (overwrite header 4 [0, 0, 0, 0])
        if verifyHeaderCrc ∧ calcHcrc ≠ h.headerCrc then
          .error ⟨invalidCrc "header" h.headerCrc calcHcrc⟩
        else
          let calcDcrc := crc32 payload
          if verifyDataCrc ∧ calcDcrc ≠ h.dataCrc then
            .error ⟨invalidCrc "data" h.dataCrc calcDcrc⟩
          else .ok (h.image payload)

/-! ### Which files are images -/

/-- A header as it stands in a file. -/
def Header.bytes (h : Header) : Bytes :=
  beBytes 4 h.magic.toNat ++ (beBytes 4 h.headerCrc.toNat ++ (beBytes 4 h.timestamp.toNat ++
    (beBytes 4 h.size.toNat ++ (beBytes 4 h.loadAddr.toNat ++ (beBytes 4 h.entryAddr.toNat ++
      (beBytes 4 h.dataCrc.toNat ++ ([h.osType] ++ ([h.arch] ++ ([h.imageType] ++ ([h.comp] ++
        h.nameRaw))))))))))

/-- A header belongs to a payload: it has the magic, the size of the payload, and both checksums,
its own with zeros where it stands. -/
structure WellFormed (h : Header) (payload : Bytes) : Prop where
  magic : h.magic = magicNumber
  nameRaw : h.nameRaw.length = 32
  size : payload.length = h.size.toNat
  headerCrc : crc32 { h with headerCrc := 0 }.bytes = h.headerCrc
  dataCrc : crc32 payload = h.dataCrc

/-- The numbers of a header take 32 bytes. -/
theorem Header.length_bytes (h : Header) : h.bytes.length = 32 + h.nameRaw.length := by
  simp only [bytes, List.length_append, length_beBytes, List.length_singleton]
  omega

/-- A number is read back from its bytes. -/
theorem ofNat_beNat_beBytes (n : UInt32) : UInt32.ofNat (beNat (beBytes 4 n.toNat)) = n := by
  rw [beNat_beBytes n.toNat_lt, UInt32.ofNat_toNat]

theorem ofNat_beNat_singleton (b : UInt8) : UInt8.ofNat (beNat [b]) = b := by
  rw [beNat, List.reverse_singleton, leNat, leNat, Nat.mul_zero, Nat.add_zero, UInt8.ofNat_toNat]

/-- What is behind some bytes is found behind them. -/
theorem slice_skip {xs ys : Bytes} {k off len : ℕ} (h : xs.length = k) :
  slice (xs ++ ys) (off + k) len = slice ys off len
  := by
  rw [Nat.add_comm, ← h, slice_append_right]

section

variable (n : UInt32) (b : UInt8) (ys : Bytes) (off : ℕ)

/-- The first number. -/
theorem unpackI_zero : unpackI (beBytes 4 n.toNat ++ ys) 0 = n := by
  have hslice : slice (beBytes 4 n.toNat ++ ys) 0 4 = beBytes 4 n.toNat :=
    List.take_left' (length_beBytes 4 _)
  rw [unpackI, hslice, ofNat_beNat_beBytes]

/-- The first number is skipped. -/
theorem unpackI_skip : unpackI (beBytes 4 n.toNat ++ ys) (off + 4) = unpackI ys off := by
  rw [unpackI, slice_skip (length_beBytes 4 _), unpackI]

theorem unpackB_zero : unpackB ([b] ++ ys) 0 = b := by
  have hslice : slice ([b] ++ ys) 0 1 = [b] := rfl
  rw [unpackB, hslice, ofNat_beNat_singleton]

/-- The first number is skipped before a byte. -/
theorem unpackB_skip : unpackB (beBytes 4 n.toNat ++ ys) (off + 4) = unpackB ys off := by
  rw [unpackB, slice_skip (length_beBytes 4 _), unpackB]

theorem unpackB_skip_one : unpackB ([b] ++ ys) (off + 1) = unpackB ys off := by
  rw [unpackB, slice_skip List.length_singleton, unpackB]

end

/-- What is taken from a header that is written out is the header. -/
theorem unpack_bytes {h : Header} (hname : h.nameRaw.length = 32) : unpack h.bytes = h := by
  have hslice : slice h.nameRaw 0 32 = h.nameRaw := by
    rw [← hname, slice_length_self]
  have hraw : slice h.bytes 32 32 = h.nameRaw := by
    rw [Header.bytes]
    iterate 7 rw [slice_skip (length_beBytes 4 _)]
    iterate 4 rw [slice_skip List.length_singleton]
    exact hslice
  rw [unpack, hraw]
  simp only [Header.bytes, unpackI_zero, unpackI_skip, unpackB_skip, unpackB_skip_one,
    unpackB_zero]

/-- The bytes of a number that has been taken from a header are those of the header. -/
theorem beBytes_unpackI {header : Bytes} {off : ℕ} (h : off + 4 ≤ header.length) :
  beBytes 4 (unpackI header off).toNat = slice header off 4
  := by
  have hlen := length_slice h
  have hlt : beNat (slice header off 4) < 2 ^ 32 := by
    apply @leNat_lt_of_length _ 4
    rw [List.length_reverse, hlen]
  have hbytes := beBytes_beNat (slice header off 4)
  rw [hlen] at hbytes
  rw [unpackI, UInt32.toNat_ofNat', Nat.mod_eq_of_lt hlt, hbytes]

/-- A byte that has been taken from a header is that of the header. -/
theorem singleton_unpackB {header : Bytes} {off : ℕ} (h : off + 1 ≤ header.length) :
  [unpackB header off] = slice header off 1
  := by
  have hlen := length_slice h
  obtain ⟨b, hb⟩ := List.length_eq_one_iff.mp hlen
  rw [unpackB, hb, ofNat_beNat_singleton]

/-- A header of 64 bytes is what is taken from it, written out. -/
theorem bytes_unpack {header : Bytes} (h : header.length = headerSize) :
  (unpack header).bytes = header
  := by
  have hI : ∀ off, off + 4 ≤ 64 → beBytes 4 (unpackI header off).toNat = slice header off 4 :=
    fun off hoff => beBytes_unpackI (Nat.le_trans hoff (Nat.le_of_eq h.symm))
  have hB : ∀ off, off + 1 ≤ 64 → [unpackB header off] = slice header off 1 :=
    fun off hoff => singleton_unpackB (Nat.le_trans hoff (Nat.le_of_eq h.symm))
  have hall := slice_length_self header
  have hsize : header.length =
      4 + (4 + (4 + (4 + (4 + (4 + (4 + (1 + (1 + (1 + (1 + 32)))))))))) := h
  rw [hsize] at hall
  rw [unpack, Header.bytes]
  dsimp only
  rw [hI 0 (by decide), hI 4 (by decide), hI 8 (by decide), hI 12 (by decide), hI 16 (by decide),
    hI 20 (by decide), hI 24 (by decide), hB 28 (by decide), hB 29 (by decide), hB 30 (by decide),
    hB 31 (by decide)]
  rw [slice_add, slice_add, slice_add, slice_add, slice_add, slice_add, slice_add, slice_add,
    slice_add, slice_add, slice_add] at hall
  exact hall

/-- Its own checksum is that of the header with zeros in the place of the checksum. -/
theorem overwrite_headerCrc (h : Header) :
  overwrite h.bytes 4 [0, 0, 0, 0] = { h with headerCrc := 0 }.bytes
  := by
  have hzero : beBytes 4 (0 : UInt32).toNat = [0, 0, 0, 0] := by decide
  rw [Header.bytes, overwrite_piece (length_beBytes 4 _), Header.bytes]
  · dsimp only
    rw [hzero]
  · rw [length_beBytes]
    rfl

/-- Each check that `init` makes is passed. -/
theorem init_eq_ok_iff {data : Bytes} {verifyHeaderCrc verifyDataCrc : Bool} {img : Image} :
  init data verifyHeaderCrc verifyDataCrc = .ok img ↔
    headerSize ≤ data.length ∧ (unpack (data.take headerSize)).magic = magicNumber ∧
      (slice data headerSize (unpack (data.take headerSize)).size.toNat).length =
        (unpack (data.take headerSize)).size.toNat ∧
      (verifyHeaderCrc → crc32 (overwrite (data.take headerSize) 4 [0, 0, 0, 0]) =
        (unpack (data.take headerSize)).headerCrc) ∧
      (verifyDataCrc → crc32 (slice data headerSize (unpack (data.take headerSize)).size.toNat) =
        (unpack (data.take headerSize)).dataCrc) ∧
      img = (unpack (data.take headerSize)).image
        (slice data headerSize (unpack (data.take headerSize)).size.toNat)
  := by
  rw [init]
  dsimp only
  constructor
  · intro h
    split at h
    · cases h
    split at h
    · cases h
    split at h
    · cases h
    split at h
    · cases h
    split at h
    · cases h
    next hlen hmagic hsize hheader hdata =>
    exact ⟨Nat.not_lt.mp hlen, not_not.mp hmagic, not_not.mp hsize,
      fun hv => not_not.mp fun hne => hheader ⟨hv, hne⟩,
      fun hv => not_not.mp fun hne => hdata ⟨hv, hne⟩, (Except.ok.inj h).symm⟩
  · rintro ⟨hlen, hmagic, hsize, hheader, hdata, rfl⟩
    rw [if_neg (Nat.not_lt.mpr hlen), if_neg (not_not.mpr hmagic), if_neg (not_not.mpr hsize),
      if_neg (fun h => h.2 (hheader h.1)), if_neg (fun h => h.2 (hdata h.1))]

/-- With both checks, the files that are taken are the headers that belong to a payload, followed
by the payload and anything. -/
theorem init_checked_iff {data : Bytes} {img : Image} :
  init data true true = .ok img ↔
    ∃ h payload rest, WellFormed h payload ∧ data = h.bytes ++ (payload ++ rest) ∧
      img = h.image payload
  := by
  rw [init_eq_ok_iff]
  constructor
  · rintro ⟨hlen, hmagic, hsize, hheader, hdata, rfl⟩
    have htake : (data.take headerSize).length = headerSize := List.length_take_of_le hlen
    have hbytes := bytes_unpack htake
    refine ⟨unpack (data.take headerSize), _,
      data.drop (headerSize + (unpack (data.take headerSize)).size.toNat), ⟨hmagic, ?_, hsize, ?_,
      hdata rfl⟩, ?_, rfl⟩
    · rw [unpack]
      exact length_slice (Nat.le_of_eq htake.symm)
    · rw [← hheader rfl, ← overwrite_headerCrc, hbytes]
    · rw [hbytes, ← List.append_assoc, take_append_slice_append_drop]
  · rintro ⟨h, payload, rest, hwell, rfl, rfl⟩
    have hlen : h.bytes.length = headerSize := by
      rw [Header.length_bytes, hwell.nameRaw]
      rfl
    have htake : (h.bytes ++ (payload ++ rest)).take headerSize = h.bytes := List.take_left' hlen
    have hslice : slice (h.bytes ++ (payload ++ rest)) headerSize h.size.toNat = payload := by
      rw [slice, ← hlen, List.drop_left, ← hwell.size, List.take_left]
    rw [htake, unpack_bytes hwell.nameRaw, hslice, overwrite_headerCrc]
    refine ⟨?_, hwell.magic, hwell.size, fun _ => hwell.headerCrc, fun _ => hwell.dataCrc, rfl⟩
    rw [List.length_append, hlen]
    apply Nat.le_add_right

/-- A header is known by its checksum and what the checksum is computed from. -/
theorem Header.eq_of_bytes_eq {h h' : Header} (hname : h.nameRaw.length = 32)
    (hname' : h'.nameRaw.length = 32) (hcrc : h.headerCrc = h'.headerCrc)
    (hbytes : { h with headerCrc := 0 }.bytes = { h' with headerCrc := 0 }.bytes) :
  h = h'
  := by
  have hunpack := congrArg unpack hbytes
  rw [unpack_bytes (h := { h with headerCrc := 0 }) hname,
    unpack_bytes (h := { h' with headerCrc := 0 }) hname'] at hunpack
  cases h
  cases h'
  cases hcrc
  cases hunpack
  rfl

section

variable {h h' : Header} {payload payload' : Bytes} {off : ℕ}

/-- Two headers that belong to payloads and are the same outside of a window that does not reach
over the end of the checksum are the same. -/
theorem WellFormed.header_eq (hwell : WellFormed h payload) (hwell' : WellFormed h' payload')
    (houtside : ∀ i, i < off ∨ off + 4 ≤ i → h.bytes[i]? = h'.bytes[i]?)
    (hoff : off ≤ 4 ∨ 8 ≤ off) :
  h = h'
  := by
  have hlen : h.bytes.length = 64 := by rw [Header.length_bytes, hwell.nameRaw]
  have hlen' : h'.bytes.length = 64 := by rw [Header.length_bytes, hwell'.nameRaw]
  have hzero : ∀ i, ({ h with headerCrc := 0 } : Header).bytes[i]? =
      if 4 ≤ i ∧ i < 8 then [0, 0, 0, 0][i - 4]? else h.bytes[i]? := by
    intro i
    rw [← overwrite_headerCrc]
    exact getElem?_overwrite (by rw [hlen]; decide) i
  have hzero' : ∀ i, ({ h' with headerCrc := 0 } : Header).bytes[i]? =
      if 4 ≤ i ∧ i < 8 then [0, 0, 0, 0][i - 4]? else h'.bytes[i]? := by
    intro i
    rw [← overwrite_headerCrc]
    exact getElem?_overwrite (by rw [hlen']; decide) i
  rcases hoff with hlow | hhigh
  · -- The window lies in the magic and the checksum: what the checksum is of is the same.
    have hmagic : h.bytes.take 4 = h'.bytes.take 4 := by
      rw [Header.bytes, Header.bytes, List.take_left' (length_beBytes 4 _),
        List.take_left' (length_beBytes 4 _), hwell.magic, hwell'.magic]
    have hbytes : ({ h with headerCrc := 0 } : Header).bytes =
        { h' with headerCrc := 0 }.bytes := by
      apply List.ext_getElem?
      intro i
      rw [hzero, hzero']
      split
      · rfl
      · next hi =>
        rcases Nat.lt_or_ge i 4 with hlt | hge
        · rw [← List.getElem?_take_of_lt hlt, hmagic, List.getElem?_take_of_lt hlt]
        · exact houtside i (.inr (by omega))
    have hcrc : h.headerCrc = h'.headerCrc := by
      rw [← hwell.headerCrc, ← hwell'.headerCrc, hbytes]
    exact Header.eq_of_bytes_eq hwell.nameRaw hwell'.nameRaw hcrc hbytes
  · -- The checksum is the same, and so is what it is of.
    have hcrc : h.headerCrc = h'.headerCrc := by
      have hslice : slice h.bytes 4 4 = slice h'.bytes 4 4 := by
        apply List.ext_getElem?
        intro i
        rw [slice, slice, List.getElem?_take, List.getElem?_take, List.getElem?_drop,
          List.getElem?_drop]
        split
        · exact houtside _ (.inl (by omega))
        · rfl
      rw [← unpack_bytes hwell.nameRaw, ← unpack_bytes hwell'.nameRaw]
      change unpackI h.bytes 4 = unpackI h'.bytes 4
      rw [unpackI, unpackI, hslice]
    have hbytes : ({ h with headerCrc := 0 } : Header).bytes =
        { h' with headerCrc := 0 }.bytes := by
      apply @Crc32Hasher.eq_of_crc32_eq _ _ off
      · rw [Header.length_bytes, Header.length_bytes]
        exact congrArg (32 + ·) (hwell.nameRaw.trans hwell'.nameRaw.symm)
      · intro i hi
        rw [hzero, hzero', houtside i hi]
      · exact hwell.headerCrc.trans (hcrc.trans hwell'.headerCrc.symm)
    exact Header.eq_of_bytes_eq hwell.nameRaw hwell'.nameRaw hcrc hbytes

end

/-- A file that is an image and one that is the same outside of a window of four bytes are not both
taken unless the images in them are the same. The window must not reach over the end of the
checksum of the header. -/
theorem init_window {data data' : Bytes} {img : Image} {off : ℕ}
    (hinit : init data true true = .ok img)
    (houtside : ∀ i, i < off ∨ off + 4 ≤ i → data[i]? = data'[i]?)
    (hoff : off ≤ 4 ∨ 8 ≤ off)
    (hdiffer : data.take (headerSize + img.size.toNat) ≠
      data'.take (headerSize + img.size.toNat)) :
  ∃ e, init data' true true = .error e
  := by
  cases hinit' : init data' true true with
  | error e => exact ⟨e, rfl⟩
  | ok img' =>
      apply absurd _ hdiffer
      obtain ⟨h, payload, rest, hwell, rfl, rfl⟩ := init_checked_iff.mp hinit
      obtain ⟨h', payload', rest', hwell', rfl, rfl⟩ := init_checked_iff.mp hinit'
      have hlen : h.bytes.length = headerSize := by
        rw [Header.length_bytes, hwell.nameRaw]
        rfl
      have hlen' : h'.bytes.length = headerSize := by
        rw [Header.length_bytes, hwell'.nameRaw]
        rfl
      have hheader : h = h' := by
        apply hwell.header_eq hwell' _ hoff
        intro i hi
        rcases Nat.lt_or_ge i headerSize with hlt | hge
        · have h := houtside i hi
          rwa [List.getElem?_append_left (by omega), List.getElem?_append_left (by omega)] at h
        · rw [List.getElem?_eq_none (by omega), List.getElem?_eq_none (by omega)]
      subst hheader
      have hsize := hwell.size.trans hwell'.size.symm
      have hpayload : payload = payload' := by
        apply @Crc32Hasher.eq_of_crc32_eq _ _ (off - headerSize) hsize
        · intro i hi
          rcases Nat.lt_or_ge i payload.length with hlt | hge
          · have hbehind : ∀ ys : Bytes, (h.bytes ++ ys)[headerSize + i]? = ys[i]? := by
              intro ys
              rw [List.getElem?_append_right (by omega), hlen, Nat.add_sub_cancel_left]
            have hsame := houtside (headerSize + i) (by omega)
            rwa [hbehind, hbehind, List.getElem?_append_left hlt,
              List.getElem?_append_left (by omega)] at hsame
          · rw [List.getElem?_eq_none hge, List.getElem?_eq_none (by omega)]
        · exact hwell.dataCrc.trans hwell'.dataCrc.symm
      subst hpayload
      have htotal : headerSize + h.size.toNat = (h.bytes ++ payload).length := by
        rw [List.length_append, hlen, hwell.size]
      change (h.bytes ++ (payload ++ rest)).take (headerSize + h.size.toNat) =
        (h.bytes ++ (payload ++ rest')).take (headerSize + h.size.toNat)
      rw [htotal, ← List.append_assoc, ← List.append_assoc, List.take_left, List.take_left]

/-- The header of a payload of three bytes. -/
def smallHeader : Header :=
  { magic := magicNumber
    headerCrc := 0xbc9f5bf6
    timestamp := 0
    size := 3
    loadAddr := 0x82F00000
    entryAddr := 0x80010000
    dataCrc := 0x55bc801d
    osType := 5
    arch := 5
    imageType := 2
    comp := 0
    nameRaw := ascii "Linux" ++ List.replicate 27 0 }

/-- The checksum is the complement of what the steps end with. -/
theorem crc32_of_foldl {data : Bytes} {state : UInt32}
    (h : data.foldl Crc32Hasher.byte 0xFFFFFFFF = state) :
  crc32 data = ~~~state
  := by
  rw [← h]
  rfl

/-- The small header has the checksums of itself and of its payload. -/
theorem wellFormed_smallHeader : WellFormed smallHeader [1, 2, 3] := by
  have h₀ : ([39, 5, 25, 86, 0, 0, 0, 0, 0, 0, 0, 0, 0, 0, 0, 3] : Bytes).foldl
      Crc32Hasher.byte 0xFFFFFFFF = 0x3287F313 := by
    decide +kernel
  have h₁ : ([130, 240, 0, 0, 128, 1, 0, 0, 85, 188, 128, 29, 5, 5, 2, 0] : Bytes).foldl
      Crc32Hasher.byte 0x3287F313 = 0x5AED4A22 := by
    decide +kernel
  have h₂ : ([76, 105, 110, 117, 120, 0, 0, 0, 0, 0, 0, 0, 0, 0, 0, 0] : Bytes).foldl
      Crc32Hasher.byte 0x5AED4A22 = 0xC9218C38 := by
    decide +kernel
  have h₃ : (List.replicate 16 0 : Bytes).foldl
      Crc32Hasher.byte 0xC9218C38 = 0x4360A409 := by
    decide +kernel
  refine ⟨rfl, rfl, rfl, ?_, by decide +kernel⟩
  have hbytes : ({ smallHeader with headerCrc := 0 } : Header).bytes =
      [39, 5, 25, 86, 0, 0, 0, 0, 0, 0, 0, 0, 0, 0, 0, 3] ++
        ([130, 240, 0, 0, 128, 1, 0, 0, 85, 188, 128, 29, 5, 5, 2, 0] ++
          ([76, 105, 110, 117, 120, 0, 0, 0, 0, 0, 0, 0, 0, 0, 0, 0] ++ List.replicate 16 0)) := rfl
  have hstate := congrArg (List.foldl Crc32Hasher.byte 0xFFFFFFFF) hbytes
  rw [List.foldl_append, List.foldl_append, List.foldl_append, h₀, h₁, h₂, h₃] at hstate
  exact crc32_of_foldl hstate

theorem init_window_small :
  ∃ e, init (smallHeader.bytes ++ [1, 2, 4]) true true = .error e
  := by
  have hlen : smallHeader.bytes.length = 64 := rfl
  apply @init_window (smallHeader.bytes ++ [1, 2, 3]) _ _ 64
    (init_checked_iff.mpr ⟨smallHeader, [1, 2, 3], [], wellFormed_smallHeader, rfl, rfl⟩)
  · rintro i (hi | hi)
    · rw [List.getElem?_append_left (by omega), List.getElem?_append_left (by omega)]
    · rw [List.getElem?_append_right (by omega), List.getElem?_append_right (by omega), hlen,
        List.getElem?_eq_none (Nat.le_sub_of_add_le (Nat.le_trans (by decide) hi)),
        List.getElem?_eq_none (Nat.le_sub_of_add_le (Nat.le_trans (by decide) hi))]
  · exact .inr (by decide)
  · decide +kernel

end UImage

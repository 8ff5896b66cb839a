import CatplayFirmware.Otalib.Mini.Crc
import CatplayFirmware.Otalib.Mini.Md5
import Mathlib.Data.List.Forall2

/-!
# Reading update files

An update file begins with a header of 128 KiB of text. The parts of the header between blank
lines that have an `img_name` declare image sections, which lie one behind the other after the
header, and other lines set the block size and the digest of all sections.

A file that is accepted need not be complete: at a section that does not fit the file the
loop over the parts returns at once, with the sections before it, and without comparing the
digest of all sections; and a checksum that is not a numeral counts as none.
-/

namespace Ota

open Bytes Crc Md5

def headerSize : ℕ := 131072

def blockSize : ℕ := 131072

def maxImages : ℕ := 8

structure OtaImageSection where
  ty : Text
  name : Text
  size : ℕ
  md5 : Text
  crc : UInt32
  offset : ℕ
  data : Bytes
  crcFail : Bool
  md5Fail : Bool
  deriving DecidableEq

structure OtaImageGlobals where
  bsSize : ℕ
  packetMd5 : Option Text
  packetMd5Fail : Bool
  deriving DecidableEq

/-! ### Keys and values -/

/-- The key and the value of a line, trimmed; a line without an equals sign has none. -/
def keyValue (line : Text) : Option (Text × Text) :=
  (Text.splitOnce '=' line.trim).map fun (k, v) => (k.trim, v.trim)

/-- The keys and values of a text, in the order of its lines. -/
def keyValues (text : Text) : List (Text × Text) := text.lines.filterMap keyValue

/-- One line of the loop of `parse_globals`, in the machine's `usize` of `bits` bits. -/
def globalsLine (bits : ℕ) (globals : OtaImageGlobals) (kv : Text × Text) : OtaImageGlobals :=
  let (k, v) := kv
  if k = "bs_size".toList then
    { globals with bsSize := (Text.parseUnsigned bits v).getD globals.bsSize }
  else if k = "ota_img_packet_md5".toList then { globals with packetMd5 := some v }
  else globals

def parseGlobals (bits : ℕ) (text : Text) : OtaImageGlobals :=
  (keyValues text).foldl (globalsLine bits) ⟨blockSize, none, false⟩

/-- The variables that the lines of a part set. -/
structure PartFields where
  name : Text
  ty : Text
  size : ℕ
  md5 : Text
  crc : UInt32
  deriving DecidableEq

/-- One line of the loop over the lines of a part. -/
def partLine (fields : PartFields) (kv : Text × Text) : PartFields :=
  let (k, v) := kv
  if k = "img_name".toList then { fields with name := v }
  else if k = "img_type".toList then { fields with ty := v }
  else if k = "img_size".toList then
    { fields with size := (Text.parseUnsigned 32 v).getD 0 }
  else if k = "img_md5".toList then { fields with md5 := v }
  else if k = "img_crc".toList then
    { fields with crc := UInt32.ofNat ((Text.parseUnsigned 32 v).getD 0) }
  else fields

def parsePart (part : Text) : PartFields :=
  (keyValues part).foldl partLine ⟨[], "?".toList, 0, [], 0⟩

/-! ### Sections -/

/-- Whether the checksum of a section is wrong; a checksum of zero is not compared. -/
def crcFails (bsSize : ℕ) (crc : UInt32) (data : Bytes) : Outcome Text Bool :=
  if crc ≠ 0 then (xorCrcImg data bsSize).map fun found => decide (found ≠ crc) else .ok false

/-- Whether the digest of a section is wrong; an empty one is not compared. -/
def md5Fails (hasher : Md5Hasher) (md5 : Text) (data : Bytes) : Bool :=
  if md5 = [] then false
  else
    match parseMd5Hex md5 with
    | some md5Hex => decide (md5Hex ≠ hasher.md5Calc data)
    | none => true

/-- The section a part declares, with the results of its two checks. -/
def readSection (hasher : Md5Hasher) (bsSize : ℕ) (fields : PartFields) (offset : ℕ)
    (data : Bytes) : Outcome Text OtaImageSection := do
  let crcFail ← crcFails bsSize fields.crc data
  return ⟨fields.ty, fields.name, fields.size, fields.md5, fields.crc, offset, data, crcFail,
    md5Fails hasher fields.md5 data⟩

/-- How the loop over the parts ends: the sections found, the end of the last, and whether the
function has returned from inside the loop. -/
structure LoopEnd where
  images : List OtaImageSection
  offset : ℕ
  returned : Bool

/-- The text that makes a part declare a section. -/
def isImage (part : Text) : Bool := part.contains "img_name".toList

/-- The loop over the parts of `parse_ota`. An end of a section that does not fit the machine's
`usize` panics, at the addition or at the slice. -/
def parseParts (hasher : Md5Hasher) (bits bsSize : ℕ) (buf : Bytes) :
    List Text → List OtaImageSection → ℕ → Outcome Text LoopEnd
  | [], images, offset => .ok ⟨images, offset, false⟩
  | part :: parts, images, offset =>
    if maxImages ≤ images.length then .ok ⟨images, offset, false⟩
    else if isImage part then
      let fields := parsePart part
      if 2 ^ bits ≤ offset + fields.size then .panics
      else if buf.length < offset + fields.size then .ok ⟨images, offset, true⟩
      else do
        let image ← readSection hasher bsSize fields offset (slice buf offset fields.size)
        parseParts hasher bits bsSize buf parts (images ++ [image]) (offset + fields.size)
    else parseParts hasher bits bsSize buf parts images offset

/-- The header of a file, or all of a file that is shorter. -/
def headerBytes (buf : Bytes) : Bytes := buf.take (min headerSize buf.length)

/-- The check of the digest of all sections, which end at `offset`. -/
def checkPacket (hasher : Md5Hasher) (buf : Bytes) (offset : ℕ) (globals : OtaImageGlobals) :
    Outcome Text OtaImageGlobals :=
  match globals.packetMd5 with
  | none => .ok globals
  | some packetMd5 =>
    if buf.length < offset then .panics
    else
      let globalMd5 := hasher.md5Calc (slice buf headerSize (offset - headerSize))
      if parseMd5Hex packetMd5 ≠ some globalMd5 then
        .ok { globals with packetMd5Fail := true }
      else .ok globals

def parseOta (hasher : Md5Hasher) (bits : ℕ) (buf : Bytes) :
    Outcome Text (List OtaImageSection × OtaImageGlobals) :=
  match Utf8.decode (headerBytes buf) with
  | none => .ok ([], ⟨0, none, false⟩)
  | some text => do
    let globals := parseGlobals bits text
    let parts := Text.splitStr "\n\n".toList text
    let stop ← parseParts hasher bits globals.bsSize buf parts [] headerSize
    if stop.returned then
      return (stop.images, globals)
    let globals ← checkPacket hasher buf stop.offset globals
    return (stop.images, globals)

/-- The loop of `OtaExtractor::parse` over the results of the checks. -/
def checkImages : List OtaImageSection → Outcome Text Unit
  | [] => .ok ()
  | image :: images =>
    if image.crcFail then .fail "failed section crc check".toList
    else if image.md5Fail then .fail "failed section md5 check".toList
    else checkImages images

/-- `OtaExtractor::parse`, with the sections and globals it leaves. -/
def parse (hasher : Md5Hasher) (bits : ℕ) (buf : Bytes) :
    Outcome Text (List OtaImageSection × OtaImageGlobals) := do
  let (images, globals) ← parseOta hasher bits buf
  if images = [] then .fail "file has 0 OTA sections".toList
  else do
    checkImages images
    if globals.packetMd5Fail then .fail "failed packet md5 check".toList
    else return (images, globals)

/-! ### What a header declares -/

/-- The value of a key in a text: that of its last line with the key. -/
def lastValue (key text : Text) : Option Text :=
  (((keyValues text).filter fun kv => kv.1 == key).getLast?).map Prod.snd

/-- The parts of a header that declare sections, up to the number of sections there can be. -/
def declaredParts (text : Text) : List Text :=
  ((Text.splitStr "\n\n".toList text).filter isImage).take maxImages

/-- A section is the one a part declares. -/
structure Declares (part : Text) (image : OtaImageSection) : Prop where
  name : image.name = (lastValue "img_name".toList part).getD []
  ty : image.ty = (lastValue "img_type".toList part).getD "?".toList
  size : image.size = ((lastValue "img_size".toList part).bind (Text.parseUnsigned 32)).getD 0
  md5 : image.md5 = (lastValue "img_md5".toList part).getD []

/-- Sections that lie one behind the other from an offset on. -/
def Contiguous : ℕ → List OtaImageSection → Prop
  | _, [] => True
  | offset, image :: images => image.offset = offset ∧ Contiguous (offset + image.size) images

/-- The checksum a part declares, if it declares one, is that of its section. -/
def CrcHolds (bsSize : ℕ) (part : Text) (image : OtaImageSection) : Prop :=
  ∀ v ∈ lastValue "img_crc".toList part, v ≠ [] →
    ∃ crc, Text.parseUnsigned 32 v = some crc ∧
      (crc ≠ 0 → xorCrcImg image.data bsSize = .ok (UInt32.ofNat crc))

/-- The sections of a file are all that its header declares: they lie one behind the other
inside the file, and every checksum and digest that is declared is right. -/
structure Complete (hasher : Md5Hasher) (buf : Bytes) (text : Text)
    (images : List OtaImageSection) (globals : OtaImageGlobals) : Prop where
  declared : List.Forall₂ Declares (declaredParts text) images
  contiguous : Contiguous headerSize images
  inside : ∀ image ∈ images, image.offset + image.size ≤ buf.length ∧
    image.data = slice buf image.offset image.size
  crc : List.Forall₂ (CrcHolds globals.bsSize) (declaredParts text) images
  md5 : ∀ image ∈ images, image.md5 ≠ [] →
    parseMd5Hex image.md5 = some (hasher.md5Calc image.data)
  packet : ∀ v ∈ lastValue "ota_img_packet_md5".toList text,
    parseMd5Hex v = some (hasher.md5Calc (slice buf headerSize (images.map (·.size)).sum))

/-! ### Headers in a file -/

/-- A header text with the NUL bytes that fill the header. -/
def padHeader (text : Text) : Bytes :=
  Utf8.encode text ++ List.replicate (headerSize - text.byteLen) 0

theorem length_padHeader {text : Text} (h : text.byteLen ≤ headerSize) :
  (padHeader text).length = headerSize
  := by
  rw [padHeader, List.length_append, Utf8.length_encode, List.length_replicate]
  omega

/-- The header of a file that begins with a filled header is read as its text and the NULs. -/
theorem decode_padHeader {text : Text} (h : text.byteLen ≤ headerSize) (data : Bytes) :
  Utf8.decode (headerBytes (padHeader text ++ data)) =
    some (text ++ List.replicate (headerSize - text.byteLen) '\x00')
  := by
  have hlen := length_padHeader h
  have hheader : headerBytes (padHeader text ++ data) = padHeader text := by
    rw [headerBytes, List.length_append, hlen, Nat.min_eq_left (Nat.le_add_right _ _), ← hlen,
      List.take_left]
  rw [hheader, padHeader, ← Utf8.encode_nuls, ← Utf8.encode_append, Utf8.decode_encode]

theorem keyValue_stripCr (line : Text) : keyValue (Text.stripCr line) = keyValue line := by
  rw [keyValue, keyValue, Text.trim_stripCr]

/-- The keys and values of lines written with a line feed after each. -/
theorem keyValues_lines {ls : List Text} (h : ∀ l ∈ ls, '\n' ∉ l) (rest : Text) :
  keyValues (ls.flatMap (· ++ ['\n']) ++ rest) = ls.filterMap keyValue ++ keyValues rest
  := by
  rw [keyValues, Text.lines_flatMap_stripCr h, List.filterMap_append, List.filterMap_map]
  congr 1
  apply List.filterMap_congr
  intro line hline
  apply keyValue_stripCr

/-- The keys and values of joined lines. -/
theorem keyValues_joinLines {ls : List Text} (h : ∀ l ∈ ls, '\n' ∉ l ∧ l ≠ []) :
  keyValues (Text.joinLines ls) = ls.filterMap keyValue
  := by
  induction ls with
  | nil => rfl
  | cons l ls ih =>
      obtain ⟨hl, hne⟩ := h l List.mem_cons_self
      have ih := ih fun l hl => h l (List.mem_cons_of_mem _ hl)
      cases ls with
      | nil =>
          rw [Text.joinLines, List.intercalate_singleton, keyValues,
            Text.lines_of_notMem hne hl]
      | cons l' ls =>
          rw [Text.joinLines_cons_cons, keyValues, Text.lines_append_cons hl, List.filterMap_cons,
            keyValue_stripCr, List.filterMap_cons (a := l)]
          rw [keyValues] at ih
          rw [ih]

/-- The NULs after a header text are a line without a key. -/
theorem keyValues_nuls (n : ℕ) : keyValues (List.replicate n '\x00') = [] := by
  cases n with
  | zero => rfl
  | succ n =>
      have hlf : '\n' ∉ List.replicate (n + 1) '\x00' := by
        intro hc
        cases List.eq_of_mem_replicate hc
      have hsolid : ∀ c ∈ List.replicate (n + 1) '\x00', Text.isWhitespace c = false := by
        intro c hc
        rw [List.eq_of_mem_replicate hc]
        rfl
      have htrim : Text.trim (List.replicate (n + 1) '\x00') = List.replicate (n + 1) '\x00' :=
        Text.trim_of_solid (fun c hc => hsolid c (List.mem_of_head? hc))
          (Text.solidEnd_of_forall hsolid)
      have hnone : keyValue (List.replicate (n + 1) '\x00') = none := by
        rw [keyValue, htrim, Text.splitOnce_of_notMem]
        · rfl
        · intro hc
          cases List.eq_of_mem_replicate hc
      rw [keyValues, Text.lines_of_notMem (by simp) hlf, List.filterMap_cons, hnone]
      rfl

/-- A text without the letter `n` declares no section. -/
theorem filter_isImage {s : Text} (h : 'n' ∉ s) :
  (Text.splitStr "\n\n".toList s).filter isImage = []
  := by
  apply List.filter_eq_nil_iff.mpr
  intro part hpart himage
  have hname : isImage part = false :=
    Text.contains_of_notMem (c := 'n') (by decide) fun hc => h (Text.mem_of_mem_splitStr hpart hc)
  rw [hname] at himage
  cases himage

theorem notMem_nuls {c : Char} (h : c ≠ '\x00') (n : ℕ) : c ∉ List.replicate n '\x00' :=
  fun hc => h (List.eq_of_mem_replicate hc)

/-! ### Which files are accepted -/

/-- The sections from an offset on, each with where it starts, up to the first that does not fit
a file of length `len`. -/
def placed (len : ℕ) : ℕ → List PartFields → List (ℕ × PartFields)
  | _, [] => []
  | offset, fields :: rest =>
    if offset + fields.size ≤ len then (offset, fields) :: placed len (offset + fields.size) rest
    else []

/-- The section that is placed at an offset. -/
def imageAt (buf : Bytes) (place : ℕ × PartFields) : OtaImageSection :=
  let (offset, fields) := place
  ⟨fields.ty, fields.name, fields.size, fields.md5, fields.crc, offset,
    slice buf offset fields.size, false, false⟩

/-- The checksum and the digest that are read for a section are right. -/
structure Passes (hasher : Md5Hasher) (bsSize : ℕ) (buf : Bytes) (place : ℕ × PartFields) :
    Prop where
  crc : place.2.crc ≠ 0 →
    xorCrcImg (slice buf place.1 place.2.size) bsSize = .ok place.2.crc
  md5 : place.2.md5 ≠ [] →
    parseMd5Hex place.2.md5 = some (hasher.md5Calc (slice buf place.1 place.2.size))

/-- The end of the sections that are placed. -/
def placedEnd (len offset : ℕ) (fields : List PartFields) : ℕ :=
  offset + ((placed len offset fields).map fun place => place.2.size).sum

/-- The first section that does not fit, if there is one, ends below the machine's `2 ^ bits`. -/
def NoOverflow (bits len offset : ℕ) (fields : List PartFields) : Prop :=
  ∀ next ∈ (fields.drop (placed len offset fields).length).head?,
    placedEnd len offset fields + next.size < 2 ^ bits

/-- What is read for the parts that declare sections. -/
def declaredFields (text : Text) : List PartFields := (declaredParts text).map parsePart

/-- Some section is placed, the ones that are pass their checks, and if all are, the digest of
all of them is right. -/
structure Accepted (hasher : Md5Hasher) (bits : ℕ) (buf : Bytes) (text : Text) : Prop where
  placed_ne_nil : placed buf.length headerSize (declaredFields text) ≠ []
  passes : ∀ place ∈ placed buf.length headerSize (declaredFields text),
    Passes hasher (parseGlobals bits text).bsSize buf place
  noOverflow : NoOverflow bits buf.length headerSize (declaredFields text)
  packet : (placed buf.length headerSize (declaredFields text)).length =
      (declaredFields text).length →
    ∀ v ∈ lastValue "ota_img_packet_md5".toList text,
      parseMd5Hex v = some (hasher.md5Calc (slice buf headerSize
        (placedEnd buf.length headerSize (declaredFields text) - headerSize)))

/-! ### Keys and values are read -/

theorem lastValue_append (key : Text) (kvs : List (Text × Text)) (kv : Text × Text) :
  ((((kvs ++ [kv]).filter fun kv => kv.1 == key).getLast?).map Prod.snd : Option Text) =
    if kv.1 = key then some kv.2
    else ((kvs.filter fun kv => kv.1 == key).getLast?).map Prod.snd
  := by
  rw [List.filter_append]
  split
  · next h => simp [h]
  · next h => simp [h]

/-- The fields of a part are the values of their keys. -/
theorem parsePart_eq (part : Text) :
  parsePart part = ⟨(lastValue "img_name".toList part).getD [],
    (lastValue "img_type".toList part).getD "?".toList,
    ((lastValue "img_size".toList part).bind (Text.parseUnsigned 32)).getD 0,
    (lastValue "img_md5".toList part).getD [],
    UInt32.ofNat (((lastValue "img_crc".toList part).bind (Text.parseUnsigned 32)).getD 0)⟩
  := by
  unfold parsePart lastValue
  induction keyValues part using List.reverseRecOn with
  | nil => rfl
  | append_singleton kvs kv ih =>
      rw [List.foldl_append, ih]
      simp only [lastValue_append]
      obtain ⟨k, v⟩ := kv
      simp only [List.foldl_cons, List.foldl_nil, partLine]
      split
      · next h =>
        subst h
        simp
      · split
        · next h =>
          subst h
          simp
        · split
          · next h =>
            subst h
            simp
          · split
            · next h =>
              subst h
              simp
            · split
              · next h =>
                subst h
                simp
              · simp [*]

/-- The digest of all sections that is read is the value of its key. -/
theorem parseGlobals_packetMd5 (bits : ℕ) (text : Text) :
  (parseGlobals bits text).packetMd5 = lastValue "ota_img_packet_md5".toList text ∧
    (parseGlobals bits text).packetMd5Fail = false
  := by
  unfold parseGlobals lastValue
  induction keyValues text using List.reverseRecOn with
  | nil => exact ⟨rfl, rfl⟩
  | append_singleton kvs kv ih =>
      rw [List.foldl_append, lastValue_append]
      obtain ⟨k, v⟩ := kv
      simp only [List.foldl_cons, List.foldl_nil, globalsLine]
      split
      · next h =>
        subst h
        simp [ih]
      · split
        · next h =>
          subst h
          simp [ih.2]
        · simp [*]

/-! ### Sections are placed -/

theorem placed_cons_fit {len offset : ℕ} {fields : PartFields} (rest : List PartFields)
    (h : offset + fields.size ≤ len) :
  placed len offset (fields :: rest) =
    (offset, fields) :: placed len (offset + fields.size) rest ∧
  placedEnd len offset (fields :: rest) = placedEnd len (offset + fields.size) rest
  := by
  have hplaced : placed len offset (fields :: rest) =
      (offset, fields) :: placed len (offset + fields.size) rest := by
    rw [placed, if_pos h]
  refine ⟨hplaced, ?_⟩
  rw [placedEnd, hplaced, placedEnd, List.map_cons, List.sum_cons, Nat.add_assoc]

theorem placed_cons_misfit {len offset : ℕ} {fields : PartFields} (rest : List PartFields)
    (h : len < offset + fields.size) :
  placed len offset (fields :: rest) = [] ∧ placedEnd len offset (fields :: rest) = offset
  := by
  have hplaced : placed len offset (fields :: rest) = [] := by
    rw [placed, if_neg (by omega)]
  refine ⟨hplaced, ?_⟩
  rw [placedEnd, hplaced]
  rfl

theorem noOverflow_cons_fit {bits len offset : ℕ} {fields : PartFields} {rest : List PartFields}
    (h : offset + fields.size ≤ len) :
  NoOverflow bits len offset (fields :: rest) ↔ NoOverflow bits len (offset + fields.size) rest
  := by
  obtain ⟨hplaced, hend⟩ := placed_cons_fit rest h
  rw [NoOverflow, NoOverflow, hplaced, hend, List.length_cons, List.drop_succ_cons]

theorem noOverflow_cons_misfit {bits len offset : ℕ} {fields : PartFields}
    {rest : List PartFields} (h : len < offset + fields.size) :
  NoOverflow bits len offset (fields :: rest) ↔ offset + fields.size < 2 ^ bits
  := by
  obtain ⟨hplaced, hend⟩ := placed_cons_misfit rest h
  simp [NoOverflow, hplaced, hend]

/-- Neither check of any section has failed. -/
def Clean (images : List OtaImageSection) : Prop :=
  ∀ image ∈ images, image.crcFail = false ∧ image.md5Fail = false

theorem clean_concat {images : List OtaImageSection} {image : OtaImageSection} :
  Clean (images ++ [image]) ↔ Clean images ∧ image.crcFail = false ∧ image.md5Fail = false
  := by
  rw [Clean, List.forall_mem_append, List.forall_mem_singleton, ← Clean]

theorem crcFails_iff {bsSize : ℕ} {crc : UInt32} {data : Bytes} :
  crcFails bsSize crc data = .ok false ↔ (crc ≠ 0 → xorCrcImg data bsSize = .ok crc)
  := by
  rw [crcFails]
  split
  · next hne =>
    rw [Except.map_eq_ok_iff]
    constructor
    · rintro ⟨found, hfound, hsame⟩ -
      rw [hfound, of_not_not (decide_eq_false_iff_not.mp hsame)]
    · intro hfound
      use crc, hfound hne
      simp
  · next hzero => simp [hzero]

theorem md5Fails_iff {hasher : Md5Hasher} {md5 : Text} {data : Bytes} :
  md5Fails hasher md5 data = false ↔
    (md5 ≠ [] → parseMd5Hex md5 = some (hasher.md5Calc data))
  := by
  rw [md5Fails]
  split
  · next hnil => simp [hnil]
  · next hne =>
    cases hhex : parseMd5Hex md5 with
    | none => simp [hne]
    | some md5Hex => simp [hne]

/-- A section is read without a failed check exactly when its checks pass. -/
theorem readSection_iff {hasher : Md5Hasher} {bsSize : ℕ} {buf : Bytes} {fields : PartFields}
    {offset : ℕ} {image : OtaImageSection} :
  (readSection hasher bsSize fields offset (slice buf offset fields.size) = .ok image ∧
      image.crcFail = false ∧ image.md5Fail = false) ↔
    Passes hasher bsSize buf (offset, fields) ∧ image = imageAt buf (offset, fields)
  := by
  rw [readSection, Except.bind_eq_ok_iff]
  constructor
  · rintro ⟨⟨crcFail, hcrc, hread⟩, hcrcFail, hmd5Fail⟩
    obtain rfl := Except.ok.inj hread
    simp only at hcrcFail hmd5Fail
    rw [hcrcFail] at hcrc
    refine ⟨⟨crcFails_iff.mp hcrc, md5Fails_iff.mp hmd5Fail⟩, ?_⟩
    rw [hcrcFail, hmd5Fail]
    rfl
  · rintro ⟨⟨hcrc, hmd5⟩, rfl⟩
    refine ⟨⟨false, crcFails_iff.mpr hcrc, ?_⟩, rfl, rfl⟩
    rw [md5Fails_iff.mpr hmd5]
    rfl

/-- What is read for the parts that are left, up to the number of sections there is room for. -/
def fieldsLeft (parts : List Text) (count : ℕ) : List PartFields :=
  ((parts.filter isImage).take (maxImages - count)).map parsePart

theorem fieldsLeft_nil (count : ℕ) : fieldsLeft [] count = [] := by
  simp [fieldsLeft]

theorem fieldsLeft_full (parts : List Text) {count : ℕ} (h : maxImages ≤ count) :
  fieldsLeft parts count = []
  := by
  rw [fieldsLeft, Nat.sub_eq_zero_of_le h, List.take_zero, List.map_nil]

theorem fieldsLeft_image {part : Text} (parts : List Text) {count : ℕ} (h : count < maxImages)
    (himage : isImage part = true) :
  fieldsLeft (part :: parts) count = parsePart part :: fieldsLeft parts (count + 1)
  := by
  obtain ⟨room, hroom⟩ : ∃ room, maxImages - count = room + 1 :=
    ⟨maxImages - count - 1, by omega⟩
  have hroom' : maxImages - (count + 1) = room := by omega
  rw [fieldsLeft, List.filter_cons_of_pos himage, hroom, List.take_succ_cons, List.map_cons,
    fieldsLeft, hroom']

theorem fieldsLeft_skip {part : Text} {parts : List Text} {count : ℕ}
    (himage : ¬ isImage part = true) :
  fieldsLeft (part :: parts) count = fieldsLeft parts count
  := by
  rw [fieldsLeft, List.filter_cons_of_neg himage, fieldsLeft]

/-- A loop that has nothing more to place ends. -/
theorem loopEnd_iff {hasher : Md5Hasher} {bits bsSize : ℕ} {buf : Bytes}
    {images : List OtaImageSection} {offset : ℕ} {stop : LoopEnd} :
  ((.ok ⟨images, offset, false⟩ : Outcome Text LoopEnd) = .ok stop ∧ Clean stop.images) ↔
    Clean images ∧
    (∀ place ∈ placed buf.length offset [], Passes hasher bsSize buf place) ∧
    NoOverflow bits buf.length offset [] ∧
    stop = ⟨images ++ (placed buf.length offset []).map (imageAt buf),
      placedEnd buf.length offset [], decide ((placed buf.length offset []).length < 0)⟩
  := by
  constructor
  · rintro ⟨hstop, hclean⟩
    obtain rfl := Except.ok.inj hstop
    simpa [placed, placedEnd, NoOverflow] using hclean
  · rintro ⟨hclean, -, -, rfl⟩
    simpa [placed, placedEnd] using hclean

/-- A section is read and the loop goes on behind it: the checks of the section pass, and what
follows does as it does behind the section. -/
theorem readSection_bind_iff {hasher : Md5Hasher} {bsSize : ℕ} {buf : Bytes} {fields : PartFields}
    {offset : ℕ} {images : List OtaImageSection} {next : OtaImageSection → Outcome Text LoopEnd}
    {stop : LoopEnd} {Q : OtaImageSection → Prop}
    (hnext : ∀ image, (next image = .ok stop ∧ Clean stop.images) ↔
      Clean (images ++ [image]) ∧ Q image) :
  ((readSection hasher bsSize fields offset (slice buf offset fields.size) >>= next) = .ok stop ∧
    Clean stop.images) ↔
    Clean images ∧ Passes hasher bsSize buf (offset, fields) ∧ Q (imageAt buf (offset, fields))
  := by
  rw [Except.bind_eq_ok_iff]
  constructor
  · rintro ⟨⟨image, hread, hrest⟩, hstop⟩
    obtain ⟨hclean, hq⟩ := (hnext image).mp ⟨hrest, hstop⟩
    obtain ⟨himages, himage⟩ := clean_concat.mp hclean
    obtain ⟨hpass, rfl⟩ := readSection_iff.mp ⟨hread, himage⟩
    exact ⟨himages, hpass, hq⟩
  · rintro ⟨himages, hpass, hq⟩
    obtain ⟨hread, himage⟩ := readSection_iff.mpr ⟨hpass, rfl⟩
    obtain ⟨hrest, hstop⟩ := (hnext _).mpr ⟨clean_concat.mpr ⟨himages, himage⟩, hq⟩
    exact ⟨⟨_, hread, hrest⟩, hstop⟩

/-- The loop over the parts ends without a failed check exactly when the checks of all sections
that are placed pass. -/
theorem parseParts_iff {hasher : Md5Hasher} {bits bsSize : ℕ} {buf : Bytes}
    (hbuf : buf.length < 2 ^ bits) {parts : List Text} {images : List OtaImageSection}
    {offset : ℕ} {stop : LoopEnd} :
  (parseParts hasher bits bsSize buf parts images offset = .ok stop ∧ Clean stop.images) ↔
    Clean images ∧
    (∀ place ∈ placed buf.length offset (fieldsLeft parts images.length),
      Passes hasher bsSize buf place) ∧
    NoOverflow bits buf.length offset (fieldsLeft parts images.length) ∧
    stop = ⟨images ++
        (placed buf.length offset (fieldsLeft parts images.length)).map (imageAt buf),
      placedEnd buf.length offset (fieldsLeft parts images.length),
      decide ((placed buf.length offset (fieldsLeft parts images.length)).length <
        (fieldsLeft parts images.length).length)⟩
  := by
  induction parts generalizing images offset with
  | nil =>
      rw [parseParts, fieldsLeft_nil]
      apply loopEnd_iff
  | cons part parts ih =>
      rw [parseParts]
      split
      · next hfull =>
        rw [fieldsLeft_full _ hfull]
        apply loopEnd_iff
      · next hroom =>
        split
        · next himage =>
          rw [fieldsLeft_image _ (by omega) himage]
          simp only
          split
          · next hoverflow =>
            -- the end of the section is out of range: nothing is returned
            constructor
            · rintro ⟨hstop, -⟩
              cases hstop
            · rintro ⟨-, -, hno, -⟩
              rw [noOverflow_cons_misfit (by omega)] at hno
              omega
          · split
            · next hmisfit =>
              -- the section does not fit: the function returns
              obtain ⟨hplaced, hend⟩ :=
                placed_cons_misfit (fieldsLeft parts (images.length + 1)) hmisfit
              rw [noOverflow_cons_misfit hmisfit, hplaced, hend]
              constructor
              · rintro ⟨hstop, hclean⟩
                obtain rfl := Except.ok.inj hstop
                refine ⟨hclean, by simp, by omega, by simp⟩
              · rintro ⟨hclean, -, -, rfl⟩
                refine ⟨by simp, by simpa using hclean⟩
            · next hfit =>
              obtain ⟨hplaced, hend⟩ := placed_cons_fit
                (fieldsLeft parts (images.length + 1)) (Nat.not_lt.mp hfit)
              rw [noOverflow_cons_fit (Nat.not_lt.mp hfit), hplaced, hend]
              apply (readSection_bind_iff fun image => ih).trans
              simp only [List.length_append, List.length_cons, List.length_nil, Nat.zero_add,
                List.forall_mem_cons, List.map_cons, List.append_assoc, List.singleton_append,
                Nat.add_lt_add_iff_right, and_assoc]
        · next himage =>
          rw [fieldsLeft_skip himage]
          apply ih

/-- Sections that are placed end inside the file. -/
theorem placedEnd_le {len offset : ℕ} {fields : List PartFields}
    (h : placed len offset fields ≠ []) :
  placedEnd len offset fields ≤ len
  := by
  induction fields generalizing offset with
  | nil => exact absurd rfl h
  | cons first rest ih =>
      rcases Nat.lt_or_ge len (offset + first.size) with hmisfit | hfit
      · exact absurd (placed_cons_misfit rest hmisfit).1 h
      · rw [(placed_cons_fit rest hfit).2]
        by_cases hrest : placed len (offset + first.size) rest = []
        · rw [placedEnd, hrest]
          simpa using hfit
        · apply ih hrest

theorem checkImages_iff {images : List OtaImageSection} {u : Unit} :
  checkImages images = .ok u ↔ Clean images
  := by
  induction images with
  | nil => simp [checkImages, Clean]
  | cons image images ih =>
      rw [checkImages, Clean, List.forall_mem_cons]
      split
      · next hcrc => simp [hcrc]
      · next hcrc =>
        split
        · next hmd5 => simp [hmd5]
        · next hmd5 =>
          rw [ih]
          simp [hcrc, hmd5, Clean]

theorem checkPacket_iff {hasher : Md5Hasher} {buf : Bytes} {offset : ℕ}
    {globals globals' : OtaImageGlobals} (hfail : globals.packetMd5Fail = false)
    (hoffset : offset ≤ buf.length) :
  (checkPacket hasher buf offset globals = .ok globals' ∧ globals'.packetMd5Fail = false) ↔
    globals' = globals ∧ ∀ v ∈ globals.packetMd5,
      parseMd5Hex v = some (hasher.md5Calc (slice buf headerSize (offset - headerSize)))
  := by
  rw [checkPacket]
  split
  · next hnone =>
    rw [hnone]
    constructor
    · rintro ⟨hok, -⟩
      exact ⟨(Except.ok.inj hok).symm, by simp⟩
    · rintro ⟨rfl, -⟩
      exact ⟨rfl, hfail⟩
  · next v hsome =>
    rw [if_neg (by omega), hsome]
    simp only [Option.mem_def, Option.some.injEq, forall_eq']
    split
    · next hwrong =>
      constructor
      · rintro ⟨hok, hfail'⟩
        obtain rfl := Except.ok.inj hok
        cases hfail'
      · rintro ⟨-, hright⟩
        exact absurd hright hwrong
    · next hright =>
      constructor
      · rintro ⟨hok, -⟩
        exact ⟨(Except.ok.inj hok).symm, not_not.mp hright⟩
      · rintro ⟨rfl, -⟩
        exact ⟨rfl, hfail⟩

theorem fieldsLeft_zero (text : Text) :
  fieldsLeft (Text.splitStr "\n\n".toList text) 0 = declaredFields text
  := rfl

theorem placed_length_le (len offset : ℕ) (fields : List PartFields) :
  (placed len offset fields).length ≤ fields.length
  := by
  induction fields generalizing offset with
  | nil => simp [placed]
  | cons first rest ih =>
      rw [placed]
      split
      · simpa using ih (offset + first.size)
      · simp

/-- A file is parsed exactly when its header is text and it is accepted, to the sections that
are placed. -/
theorem parse_iff {hasher : Md5Hasher} {bits : ℕ} {buf : Bytes} (hbuf : buf.length < 2 ^ bits)
    {images : List OtaImageSection} {globals : OtaImageGlobals} :
  parse hasher bits buf = .ok (images, globals) ↔
    ∃ text, Utf8.decode (headerBytes buf) = some text ∧ Accepted hasher bits buf text ∧
      images = (placed buf.length headerSize (declaredFields text)).map (imageAt buf) ∧
      globals = parseGlobals bits text
  := by
  rw [parse, Except.bind_eq_ok_iff]
  constructor
  · rintro ⟨⟨images', globals'⟩, hota, h⟩
    simp only at h
    split at h
    · cases h
    · next hne =>
      obtain ⟨u, hclean, h⟩ := Except.bind_eq_ok_iff.mp h
      rw [checkImages_iff] at hclean
      split at h
      · cases h
      · next hfail =>
        cases h
        rw [Bool.not_eq_true] at hfail
        rw [parseOta] at hota
        split at hota
        · cases hota
          exact absurd rfl hne
        · next text htext =>
          have hglobals := parseGlobals_packetMd5 bits text
          obtain ⟨stop, hstop, hota⟩ := Except.bind_eq_ok_iff.mp hota
          use text, htext
          split at hota
          · next hreturned =>
            cases hota
            obtain ⟨-, hpasses, hno, rfl⟩ := (parseParts_iff hbuf).mp ⟨hstop, hclean⟩
            rw [List.length_nil, fieldsLeft_zero] at *
            refine ⟨⟨?_, hpasses, hno, ?_⟩, by simp, rfl⟩
            · rintro hnil
              apply hne
              simp [hnil]
            · intro hall
              rw [decide_eq_true_eq] at hreturned
              omega
          · next hreturned =>
            obtain ⟨globals'', hpacket, hota⟩ := Except.bind_eq_ok_iff.mp hota
            cases hota
            obtain ⟨-, hpasses, hno, rfl⟩ := (parseParts_iff hbuf).mp ⟨hstop, hclean⟩
            rw [List.length_nil, fieldsLeft_zero] at *
            have hplaced : placed buf.length headerSize (declaredFields text) ≠ [] := by
              rintro hnil
              apply hne
              simp [hnil]
            obtain ⟨rfl, hright⟩ := (checkPacket_iff hglobals.2 (placedEnd_le hplaced)).mp
              ⟨hpacket, hfail⟩
            refine ⟨⟨hplaced, hpasses, hno, fun _ => ?_⟩, by simp, rfl⟩
            rwa [hglobals.1] at hright
  · rintro ⟨text, htext, hacc, rfl, rfl⟩
    have hglobals := parseGlobals_packetMd5 bits text
    obtain ⟨hplaced, hpasses, hno, hpacket⟩ := hacc
    obtain ⟨fields, hfields⟩ : ∃ fields, fields = declaredFields text := ⟨_, rfl⟩
    rw [← hfields] at hplaced hpasses hno hpacket ⊢
    obtain ⟨hstop, hclean⟩ : parseParts hasher bits (parseGlobals bits text).bsSize buf
          (Text.splitStr "\n\n".toList text) [] headerSize =
          .ok ⟨(placed buf.length headerSize fields).map (imageAt buf),
            placedEnd buf.length headerSize fields,
            decide ((placed buf.length headerSize fields).length < fields.length)⟩ ∧
        Clean ((placed buf.length headerSize fields).map (imageAt buf)) := by
      apply (parseParts_iff hbuf).mpr
      rw [List.length_nil, fieldsLeft_zero, ← hfields]
      exact ⟨by simp [Clean], hpasses, hno, rfl⟩
    have hne : (placed buf.length headerSize fields).map (imageAt buf) ≠ [] := by
      simpa using hplaced
    refine ⟨((placed buf.length headerSize fields).map (imageAt buf), parseGlobals bits text),
      ?_, ?_⟩
    · rw [parseOta, htext]
      simp only [hstop, Except.ok_bind, decide_eq_true_eq]
      split
      · rfl
      · next hall =>
        have hcheck : checkPacket hasher buf (placedEnd buf.length headerSize fields)
              (parseGlobals bits text) = .ok (parseGlobals bits text) ∧
            (parseGlobals bits text).packetMd5Fail = false := by
          apply (checkPacket_iff hglobals.2 (placedEnd_le hplaced)).mpr
          refine ⟨rfl, ?_⟩
          rw [hglobals.1]
          apply hpacket
          have hle := placed_length_le buf.length headerSize fields
          omega
        rw [hcheck.1]
        rfl
    · have hchecked : checkImages ((placed buf.length headerSize fields).map (imageAt buf)) =
          .ok () := checkImages_iff.mpr hclean
      simp only [if_neg hne, hchecked, hglobals.2, Except.ok_bind]
      rfl

/-! ### When what is accepted is complete -/

/-- Every checksum that is declared is a numeral of 32 bits. -/
def CrcsReadable (text : Text) : Prop :=
  ∀ part ∈ declaredParts text, ∀ v ∈ lastValue "img_crc".toList part, v ≠ [] →
    (Text.parseUnsigned 32 v).isSome

/-- Every section that is declared lies inside the file. -/
def AllFit (buf : Bytes) (text : Text) : Prop :=
  (placed buf.length headerSize (declaredFields text)).length = (declaredFields text).length

/-- Sections that all fit are the ones that were asked for, in order. -/
theorem placed_all {len offset : ℕ} {fields : List PartFields}
    (h : (placed len offset fields).length = fields.length) :
  (placed len offset fields).map Prod.snd = fields
  := by
  induction fields generalizing offset with
  | nil => rfl
  | cons first rest ih =>
      rcases Nat.lt_or_ge len (offset + first.size) with hmisfit | hfit
      · rw [(placed_cons_misfit rest hmisfit).1] at h
        cases h
      · rw [(placed_cons_fit rest hfit).1] at h ⊢
        rw [List.map_cons, ih (Nat.succ.inj h)]

theorem placedEnd_all {len offset : ℕ} {fields : List PartFields}
    (h : (placed len offset fields).length = fields.length) :
  placedEnd len offset fields = offset + (fields.map PartFields.size).sum
  := by
  have hsizes : fields.map PartFields.size =
      (placed len offset fields).map fun place => place.2.size := by
    rw [← placed_all h, List.map_map, placed_all h]
    rfl
  rw [placedEnd, hsizes]

theorem contiguous_placed (buf : Bytes) (offset : ℕ) (fields : List PartFields) :
  Contiguous offset ((placed buf.length offset fields).map (imageAt buf))
  := by
  induction fields generalizing offset with
  | nil => trivial
  | cons first rest ih =>
      rw [placed]
      split
      · exact ⟨rfl, ih (offset + first.size)⟩
      · trivial

theorem placed_inside {len offset : ℕ} {fields : List PartFields} {place : ℕ × PartFields}
    (h : place ∈ placed len offset fields) :
  place.1 + place.2.size ≤ len
  := by
  induction fields generalizing offset with
  | nil => cases h
  | cons first rest ih =>
      rw [placed] at h
      split at h
      · next hfit =>
        rcases List.mem_cons.mp h with rfl | h
        · exact hfit
        · apply ih h
      · cases h

theorem declares_imageAt (buf : Bytes) (offset : ℕ) (part : Text) :
  Declares part (imageAt buf (offset, parsePart part))
  := by
  constructor
  · rw [imageAt, parsePart_eq]
  · rw [imageAt, parsePart_eq]
  · rw [imageAt, parsePart_eq]
  · rw [imageAt, parsePart_eq]

/-- The checksum a part declares holds of its section when it can be read and passes. -/
theorem crcHolds_imageAt {hasher : Md5Hasher} {bsSize : ℕ} {buf : Bytes} {offset : ℕ} {part : Text}
    (hpass : Passes hasher bsSize buf (offset, parsePart part))
    (hreadable : ∀ v ∈ lastValue "img_crc".toList part, v ≠ [] →
      (Text.parseUnsigned 32 v).isSome) :
  CrcHolds bsSize part (imageAt buf (offset, parsePart part))
  := by
  intro v hv hne
  obtain ⟨crc, hcrc⟩ := Option.isSome_iff_exists.mp (hreadable v hv hne)
  refine ⟨crc, hcrc, fun hzero => ?_⟩
  have hfield : (parsePart part).crc = UInt32.ofNat crc := by
    rw [parsePart_eq, Option.mem_def.mp hv]
    simp [hcrc]
  have hlt : crc < 2 ^ 32 := Text.parseUnsigned_lt hcrc
  have hcrc_ne : (parsePart part).crc ≠ 0 := by
    rw [hfield]
    intro heq
    apply hzero
    have hnat := congrArg UInt32.toNat heq
    rwa [UInt32.toNat_ofNat_of_lt' (by simpa using hlt)] at hnat
  have hpass := hpass.crc hcrc_ne
  simp only at hpass
  rw [← hfield]
  exact hpass

/-- What holds of each part and the section placed for it holds of all, in order. -/
theorem forall₂_imageAt {R : Text → OtaImageSection → Prop} {buf : Bytes} {parts : List Text}
    {places : List (ℕ × PartFields)} (hplaces : places.map Prod.snd = parts.map parsePart)
    (h : ∀ part ∈ parts, ∀ offset, (offset, parsePart part) ∈ places →
      R part (imageAt buf (offset, parsePart part))) :
  List.Forall₂ R parts (places.map (imageAt buf))
  := by
  induction parts generalizing places with
  | nil =>
      rw [List.map_eq_nil_iff.mp hplaces]
      exact .nil
  | cons part parts ih =>
      cases places with
      | nil => cases hplaces
      | cons place places =>
          obtain ⟨offset, fields⟩ := place
          obtain ⟨hfields, hrest⟩ := List.cons.inj hplaces
          obtain rfl : fields = parsePart part := hfields
          rw [List.map_cons]
          constructor
          · apply h part List.mem_cons_self offset List.mem_cons_self
          · apply ih hrest
            intro part' hpart' offset' hplace'
            apply h part' (List.mem_cons_of_mem _ hpart') offset' (List.mem_cons_of_mem _ hplace')

/-- An accepted file is complete exactly when everything it declares fits and can be read. -/
theorem complete_iff {hasher : Md5Hasher} {bits : ℕ} {buf : Bytes} {text : Text}
    (hacc : Accepted hasher bits buf text) :
  Complete hasher buf text
      ((placed buf.length headerSize (declaredFields text)).map (imageAt buf))
      (parseGlobals bits text) ↔
    AllFit buf text ∧ CrcsReadable text
  := by
  constructor
  · intro hcomplete
    constructor
    · have hlen := hcomplete.declared.length_eq
      rw [List.length_map] at hlen
      rw [AllFit, ← hlen, declaredFields, List.length_map]
    · intro part hpart v hv hne
      obtain ⟨i, hi, rfl⟩ := List.mem_iff_getElem.mp hpart
      have hi' := hcomplete.crc.length_eq ▸ hi
      obtain ⟨crc, hcrc, -⟩ := (List.forall₂_iff_get.mp hcomplete.crc).2 i hi hi' v hv hne
      rw [hcrc]
      rfl
  · rintro ⟨hall, hreadable⟩
    have hplaces := placed_all hall
    constructor
    · apply forall₂_imageAt hplaces
      intro part hpart offset hplace
      apply declares_imageAt
    · apply contiguous_placed
    · intro image himage
      obtain ⟨place, hplace, rfl⟩ := List.mem_map.mp himage
      exact ⟨placed_inside hplace, rfl⟩
    · apply forall₂_imageAt hplaces
      intro part hpart offset hplace
      apply crcHolds_imageAt (hacc.passes _ hplace) (hreadable part hpart)
    · intro image himage
      obtain ⟨place, hplace, rfl⟩ := List.mem_map.mp himage
      exact (hacc.passes place hplace).md5
    · intro v hv
      have hsum : (((placed buf.length headerSize (declaredFields text)).map (imageAt buf)).map
          (·.size)).sum =
          placedEnd buf.length headerSize (declaredFields text) - headerSize := by
        rw [placedEnd, Nat.add_sub_cancel_left, List.map_map]
        rfl
      rw [hsum]
      apply hacc.packet hall v hv

/-- Whatever a file is parsed to is complete exactly when every section it declares lies inside
the file and every checksum it declares is a numeral, or the file is refused for another
reason: its header is not text, it has no first section, a section before the first that does
not fit fails its checks, or all fit and the digest of all is wrong. -/
theorem parse_complete_iff (hasher : Md5Hasher) {bits : ℕ} {buf : Bytes}
    (hbuf : buf.length < 2 ^ bits) :
  (∀ images globals, parse hasher bits buf = .ok (images, globals) →
    ∃ text, Utf8.decode (headerBytes buf) = some text ∧
      Complete hasher buf text images globals) ↔
  ∀ text, Utf8.decode (headerBytes buf) = some text → Accepted hasher bits buf text →
    AllFit buf text ∧ CrcsReadable text
  := by
  constructor
  · intro h text htext hacc
    obtain ⟨text', htext', hcomplete⟩ := h _ _
      ((parse_iff hbuf).mpr ⟨text, htext, hacc, rfl, rfl⟩)
    obtain rfl : text = text' := Option.some.inj (htext.symm.trans htext')
    apply (complete_iff hacc).mp hcomplete
  · intro h images globals hparse
    obtain ⟨text, htext, hacc, rfl, rfl⟩ := (parse_iff hbuf).mp hparse
    use text, htext
    apply (complete_iff hacc).mpr (h text htext hacc)

/-! ### Headers of parts -/

/-- Parts of lines, each with a blank line behind it. -/
def partsText (parts : List (List Text)) : Text :=
  parts.flatMap fun ls => Text.joinLines ls ++ "\n\n".toList

/-- Parts are what a text of parts is split into. -/
theorem splitStr_partsText {parts : List (List Text)}
    (h : ∀ ls ∈ parts, ∀ l ∈ ls, '\n' ∉ l ∧ l ≠ []) (rest : Text) :
  Text.splitStr "\n\n".toList (partsText parts ++ rest) =
    parts.map Text.joinLines ++ Text.splitStr "\n\n".toList rest
  := by
  induction parts with
  | nil => rfl
  | cons ls parts ih =>
      obtain ⟨hls, hparts⟩ := List.forall_mem_cons.mp h
      have hsplit : Text.splitStr "\n\n".toList
          (Text.joinLines ls ++ ("\n\n".toList ++ (partsText parts ++ rest))) =
          Text.joinLines ls :: Text.splitStr "\n\n".toList (partsText parts ++ rest) :=
        Text.splitStr_append (by decide) _ (Text.unsplit_joinLines hls _)
      rw [partsText, List.flatMap_cons, List.append_assoc, List.append_assoc, ← partsText, hsplit,
        ih hparts, List.map_cons, List.cons_append]

section Header

variable {parts : List (List Text)} (h : ∀ ls ∈ parts, ls ≠ [] ∧ ∀ l ∈ ls, '\n' ∉ l ∧ l ≠ [])

include h

theorem declaredParts_partsText (n : ℕ) :
  declaredParts (partsText parts ++ List.replicate n '\x00') =
    ((parts.map Text.joinLines).filter isImage).take maxImages
  := by
  rw [declaredParts, splitStr_partsText fun ls hls => (h ls hls).2, List.filter_append,
    filter_isImage (notMem_nuls (by decide) n), List.append_nil]

theorem keyValues_partsText (n : ℕ) :
  keyValues (partsText parts ++ List.replicate n '\x00') =
    parts.flatMap fun ls => ls.filterMap keyValue
  := by
  induction parts with
  | nil => exact keyValues_nuls n
  | cons ls parts ih =>
      obtain ⟨⟨hne, hls⟩, hparts⟩ := List.forall_mem_cons.mp h
      have hlines : ∀ l ∈ ls ++ [[]], '\n' ∉ l := by
        intro l hl
        rcases List.mem_append.mp hl with hl | hl
        · exact (hls l hl).1
        · rw [List.mem_singleton.mp hl]
          exact List.not_mem_nil
      have hblank : (ls ++ [[]]).filterMap keyValue = ls.filterMap keyValue := by
        rw [List.filterMap_append]
        exact List.append_nil _
      have htext : partsText (ls :: parts) ++ List.replicate n '\x00' =
          (ls ++ [[]]).flatMap (· ++ ['\n']) ++ (partsText parts ++ List.replicate n '\x00') := by
        rw [Text.flatMap_joinLines hne, ← List.append_assoc]
        rfl
      rw [htext, keyValues_lines hlines, ih hparts, hblank, List.flatMap_cons]

end Header

/-- The header of a file with a text is the text with NULs. -/
theorem decode_headerOf {text : Text} (h : text.byteLen ≤ headerSize) (data : Bytes) :
  ∃ n, Utf8.decode (headerBytes (padHeader text ++ data)) = some (text ++ List.replicate n '\x00')
  := ⟨_, decode_padHeader h data⟩

/-- Two sections with data, the checksum of one, the digest of the other, and that of both. -/
def checkedParts : List (List Text) :=
  [["bs_size=2".toList, "ota_img_packet_md5=7cfdd07889b3295d6a550914ab35e068".toList],
    ["img_name=kernel".toList, "img_size=3".toList, "img_crc=3733080962".toList],
    ["img_name=rootfs".toList, "img_size=2".toList,
      "img_md5=fba282cd5faca1f7619e4b7969a27f66".toList]]

def checkedData : Bytes := [1, 2, 3, 4, 5]

theorem parse_complete_twoSections :
  ∃ images globals, parse .rfc1321 32 (padHeader (partsText checkedParts) ++ checkedData) =
      .ok (images, globals) ∧
    images.map OtaImageSection.data = [[1, 2, 3], [4, 5]] ∧
    ∃ text, Utf8.decode (headerBytes (padHeader (partsText checkedParts) ++ checkedData)) =
        some text ∧
      Complete .rfc1321 (padHeader (partsText checkedParts) ++ checkedData) text images globals
  := by
  have hfits : (partsText checkedParts).byteLen ≤ headerSize := by decide +kernel
  have hparts : ∀ ls ∈ checkedParts, ls ≠ [] ∧ ∀ l ∈ ls, '\n' ∉ l ∧ l ≠ [] := by decide +kernel
  obtain ⟨n, htext⟩ := decode_headerOf hfits checkedData
  have hfields : declaredFields (partsText checkedParts ++ List.replicate n '\x00') =
      [⟨"kernel".toList, "?".toList, 3, [], 3733080962⟩,
        ⟨"rootfs".toList, "?".toList, 2, "fba282cd5faca1f7619e4b7969a27f66".toList, 0⟩] := by
    rw [declaredFields, declaredParts_partsText hparts]
    decide +kernel
  have hkeys := keyValues_partsText hparts n
  have hlen : (padHeader (partsText checkedParts)).length = headerSize := length_padHeader hfits
  generalize padHeader (partsText checkedParts) = header at hlen htext ⊢
  have hend : (header ++ checkedData).length = headerSize + 5 := by
    rw [List.length_append, hlen]
    rfl
  have hbuf : (header ++ checkedData).length < 2 ^ 32 := by
    rw [hend]
    decide
  have hslice (off len : ℕ) :
      slice (header ++ checkedData) (headerSize + off) len = slice checkedData off len := by
    rw [← hlen, slice_append_right]
  have hplaced : placed (header ++ checkedData).length headerSize
      (declaredFields (partsText checkedParts ++ List.replicate n '\x00')) =
      [(headerSize, ⟨"kernel".toList, "?".toList, 3, [], 3733080962⟩),
        (headerSize + 3, ⟨"rootfs".toList, "?".toList, 2,
          "fba282cd5faca1f7619e4b7969a27f66".toList, 0⟩)] := by
    rw [hfields, hend]
    decide
  have hglobals :
      (parseGlobals 32 (partsText checkedParts ++ List.replicate n '\x00')).bsSize = 2 := by
    rw [parseGlobals, hkeys]
    decide +kernel
  have hpacket : lastValue "ota_img_packet_md5".toList
      (partsText checkedParts ++ List.replicate n '\x00') =
      some "7cfdd07889b3295d6a550914ab35e068".toList := by
    rw [lastValue, hkeys]
    decide +kernel
  have hacc : Accepted .rfc1321 32 (header ++ checkedData)
      (partsText checkedParts ++ List.replicate n '\x00') := by
    constructor
    case placed_ne_nil =>
      rw [hplaced]
      exact List.cons_ne_nil _ _
    case passes =>
      rw [hplaced, hglobals]
      intro place hplace
      simp only [List.mem_cons, List.not_mem_nil, or_false] at hplace
      rcases hplace with rfl | rfl
      · refine ⟨fun _ => ?_, fun hne => absurd rfl hne⟩
        rw [← Nat.add_zero headerSize, hslice]
        decide +kernel
      · refine ⟨fun hne => absurd rfl hne, fun _ => ?_⟩
        rw [hslice]
        decide +kernel
    case noOverflow =>
      rw [NoOverflow, hplaced, hfields]
      intro next hnext
      cases hnext
    case packet =>
      intro _ v hv
      rw [hpacket] at hv
      obtain rfl := Option.some.inj hv
      rw [placedEnd, hplaced, ← Nat.add_zero headerSize, hslice]
      decide +kernel
  have hparse := (parse_iff hbuf).mpr ⟨_, htext, hacc, rfl, rfl⟩
  refine ⟨_, _, hparse, ?_, ?_⟩
  · rw [hplaced]
    change [slice _ (headerSize + 0) 3, slice _ (headerSize + 3) 2] = _
    rw [hslice, hslice]
    rfl
  · apply (parse_complete_iff .rfc1321 hbuf).mpr _ _ _ hparse
    intro text htext' _
    obtain rfl := Option.some.inj (htext.symm.trans htext')
    constructor
    · rw [AllFit, hplaced, hfields]
      rfl
    · rw [CrcsReadable, declaredParts_partsText hparts]
      decide +kernel

/-! ### A file with a section that is dropped -/

/-- A section of no bytes, and one of one byte. -/
def twoSections : List (List Text) :=
  [["img_name=a".toList], ["img_name=b".toList, "img_size=1".toList]]

/-- What a part with a name and a size alone declares passes its checks. -/
theorem passes_unchecked {hasher : Md5Hasher} {bsSize : ℕ} {buf : Bytes} {offset size : ℕ}
    {name ty : Text} :
  Passes hasher bsSize buf (offset, ⟨name, ty, size, [], 0⟩)
  := ⟨fun hne => absurd rfl hne, fun hne => absurd rfl hne⟩

/-- A file whose second section is missing is parsed to its first section alone. -/
theorem not_parse_complete :
  ∃ buf, ∀ hasher, ∃ images globals, parse hasher 64 buf = .ok (images, globals) ∧
    ¬ ∃ text, Utf8.decode (headerBytes buf) = some text ∧ Complete hasher buf text images globals
  := by
  have hfits : (partsText twoSections).byteLen ≤ headerSize := by decide +kernel
  have hparts : ∀ ls ∈ twoSections, ls ≠ [] ∧ ∀ l ∈ ls, '\n' ∉ l ∧ l ≠ [] := by decide +kernel
  have hlen : (padHeader (partsText twoSections)).length = headerSize := length_padHeader hfits
  have hbuf : (padHeader (partsText twoSections)).length < 2 ^ 64 := by
    rw [hlen]
    decide
  obtain ⟨n, htext⟩ := decode_headerOf hfits []
  rw [List.append_nil] at htext
  have hfields : declaredFields (partsText twoSections ++ List.replicate n '\x00') =
      [⟨"a".toList, "?".toList, 0, [], 0⟩, ⟨"b".toList, "?".toList, 1, [], 0⟩] := by
    rw [declaredFields, declaredParts_partsText hparts]
    decide +kernel
  have hplaced : placed (padHeader (partsText twoSections)).length headerSize
      (declaredFields (partsText twoSections ++ List.replicate n '\x00')) =
      [(headerSize, ⟨"a".toList, "?".toList, 0, [], 0⟩)] := by
    rw [hfields, hlen]
    decide
  use padHeader (partsText twoSections)
  intro hasher
  have hacc : Accepted hasher 64 (padHeader (partsText twoSections))
      (partsText twoSections ++ List.replicate n '\x00') := by
    constructor
    · simp [hplaced]
    · rw [hplaced]
      intro place hplace
      rw [List.mem_singleton.mp hplace]
      apply passes_unchecked
    · rw [NoOverflow, placedEnd, hplaced, hfields]
      intro next hnext
      cases hnext
      decide
    · rw [hplaced, hfields]
      intro hall
      cases hall
  have hparse := (parse_iff hbuf).mpr ⟨_, htext, hacc, rfl, rfl⟩
  refine ⟨_, _, hparse, ?_⟩
  rintro ⟨text, htext', hcomplete⟩
  obtain rfl := Option.some.inj (htext.symm.trans htext')
  have hall := ((complete_iff hacc).mp hcomplete).1
  rw [AllFit, hplaced, hfields] at hall
  cases hall

end Ota

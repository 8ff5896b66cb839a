import CatplayFirmware.Otalib.Mini.Ota
import CatplayFirmware.Support.HString
import Mathlib.Algebra.Order.BigOperators.Group.List
import Mathlib.Algebra.Order.Ring.Nat

/-!
# Writing update files

A packer collects sections, and writes a file: the header, with the name, the size and the
checksums of each section and the digest of all, and the sections behind it. The header is
built in a text of at most 8192 bytes; what does not fit panics. What is packed is read back
by `Ota.parse`, section for section.
-/

namespace OtaPacker

open Bytes Crc Md5 Ota

def headerSizeMax : ℕ := 8192

structure OtaPackerSection where
  data : Bytes
  imgType : Text
  imgName : Text
  imgMd5 : Bytes
  imgCrc : UInt32

/-- The packer, with the sections added so far; there is room for `maxImages`. -/
structure Packer where
  images : List OtaPackerSection
  room : images.length ≤ maxImages

def new : Packer := ⟨[], Nat.zero_le _⟩

/-- `OtaPacker::output_size`. -/
def outputSize (packer : Packer) : ℕ :=
  headerSize + (packer.images.map fun img => img.data.length).sum

/-- `OtaPacker::add`: there is no place for a section after the last. -/
def add (hasher : Md5Hasher) (packer : Packer) (imgType imgName : Text) (data : Bytes) :
    Outcome Text Packer := do
  let imgCrc ← xorCrcImg data blockSize
  let img := ⟨data, imgType, imgName, hasher.md5Calc data, imgCrc⟩
  if room : packer.images.length < maxImages then
    return ⟨packer.images ++ [img], by rw [List.length_append]; exact room⟩
  else .panics

/-! ### The header -/

/-- `push_str(..).unwrap()`. -/
def push {cap : ℕ} (header : HString cap) (s : Text) : Outcome Text (HString cap) :=
  match header.pushStr s with
  | some header => .ok header
  | none => .panics

/-- `format!(cap; ..).unwrap()`. -/
def format (cap : ℕ) (s : Text) : Outcome Text Text :=
  if s.byteLen ≤ cap then .ok s else .panics

/-- Texts pushed one after the other. -/
def pushAll {cap : ℕ} : HString cap → List Text → Outcome Text (HString cap)
  | header, [] => .ok header
  | header, s :: rest => do
    let header ← push header s
    pushAll header rest

/-- The texts that are pushed for the bytes of a digest. -/
def hexPieces : Bytes → Outcome Text (List Text)
  | [] => .ok []
  | b :: digest => do
    let piece ← format 2 (hexByte b)
    let pieces ← hexPieces digest
    return piece :: pieces

/-- The texts that are pushed for a section. -/
def imagePieces (img : OtaPackerSection) : Outcome Text (List Text) := do
  let size ← format 32 (Text.ofNat img.data.length)
  let md5 ← hexPieces img.imgMd5
  let crc ← format 32 (Text.ofNat img.imgCrc.toNat)
  return ["img_type=".toList, img.imgType, "\nimg_name=".toList, img.imgName,
    "\nimg_size=".toList, size, "\nimg_md5=".toList] ++ md5 ++
    ["\nimg_crc=".toList, crc, "\n\n".toList]

/-- The loop of `build_header` over the sections. -/
def pushImages : HString headerSizeMax → List OtaPackerSection →
    Outcome Text (HString headerSizeMax)
  | header, [] => .ok header
  | header, img :: images => do
    let pieces ← imagePieces img
    let header ← pushAll header pieces
    pushImages header images

/-- `OtaPacker::build_header`. The hasher takes the sections one after the other. -/
def buildHeader (hasher : Md5Hasher) (packer : Packer) :
    Outcome Text (HString headerSizeMax) := do
  let header ← push .new "ota_version=0\n\n".toList
  let header ← pushImages header packer.images
  let state := (packer.images.map OtaPackerSection.data).foldl hasher.digest hasher.new
  let bsSize ← format 32 (Text.ofNat blockSize)
  let packetMd5 ← hexPieces (hasher.finish state).toList
  pushAll header (["check_img=1\n".toList, "bs_size=".toList, bsSize,
    "\nota_img_packet_md5=".toList] ++ packetMd5 ++ ["\n".toList])

/-! ### The file -/

/-- A span of the output is written; a span that is not inside panics. -/
def copyInto (out : Bytes) (offset : ℕ) (data : Bytes) : Outcome Text Bytes :=
  if out.length < offset + data.length then .panics else .ok (overwrite out offset data)

/-- The loop of `pack` over the sections. -/
def packImages : List OtaPackerSection → ℕ → Bytes → Outcome Text Bytes
  | [], _, out => .ok out
  | img :: images, offset, out => do
    let out ← copyInto out offset img.data
    packImages images (offset + img.data.length) out

/-- `OtaPacker::pack`, with the output as it is after the call. -/
def pack (hasher : Md5Hasher) (packer : Packer) (out : Bytes) : Outcome Text Bytes := do
  let header ← buildHeader hasher packer
  let out ← copyInto out 0 (Utf8.encode header.text)
  packImages packer.images headerSize out

/-! ### What is packed -/

/-- A section to be packed. -/
structure Input where
  ty : Text
  name : Text
  data : Bytes

/-- The sections are added to a packer one after the other. -/
def addAll (hasher : Md5Hasher) : Packer → List Input → Outcome Text Packer
  | packer, [] => .ok packer
  | packer, input :: inputs => do
    let packer ← add hasher packer input.ty input.name input.data
    addAll hasher packer inputs

/-- The sections are packed into zeros. -/
def packInputs (hasher : Md5Hasher) (inputs : List Input) : Outcome Text Bytes := do
  let packer ← addAll hasher new inputs
  pack hasher packer (List.replicate (outputSize packer) 0)

/-- The lines of a section in the header. -/
def imageLines (img : OtaPackerSection) : List Text :=
  ["img_type=".toList ++ img.imgType, "img_name=".toList ++ img.imgName,
    "img_size=".toList ++ Text.ofNat img.data.length, "img_md5=".toList ++ hexText img.imgMd5,
    "img_crc=".toList ++ Text.ofNat img.imgCrc.toNat]

/-- The last lines of the header. -/
def globalLines (packetMd5 : Bytes) : List Text :=
  ["check_img=1".toList, "bs_size=131072".toList,
    "ota_img_packet_md5=".toList ++ hexText packetMd5]

/-- The lines of the header. -/
def headerLines (images : List OtaPackerSection) (packetMd5 : Bytes) : List Text :=
  ["ota_version=0".toList, []] ++ images.flatMap (fun img => imageLines img ++ [[]]) ++
    globalLines packetMd5

/-- The text of the header: its lines, each with a line feed after it. -/
def headerText (images : List OtaPackerSection) (packetMd5 : Bytes) : Text :=
  (headerLines images packetMd5).flatMap (· ++ ['\n'])

/-! ### What is pushed -/

theorem push_ok {cap : ℕ} (header : HString cap) (s : Text)
    (h : header.text.byteLen + s.byteLen ≤ cap) :
  ∃ header', push header s = .ok header' ∧ header'.text = header.text ++ s
  := by
  obtain ⟨header', hpush⟩ := Option.isSome_iff_exists.mp (HString.pushStr_isSome.mpr h)
  use header'
  constructor
  · rw [push, hpush]
  · apply HString.pushStr_text hpush

theorem format_ok {cap : ℕ} {s : Text} (h : s.byteLen ≤ cap) : format cap s = .ok s := if_pos h

/-- Texts that fit are pushed one behind the other. -/
theorem pushAll_ok {cap : ℕ} (header : HString cap) (pieces : List Text)
    (h : header.text.byteLen + Text.byteLen pieces.flatten ≤ cap) :
  ∃ header', pushAll header pieces = .ok header' ∧ header'.text = header.text ++ pieces.flatten
  := by
  induction pieces generalizing header with
  | nil => exact ⟨header, rfl, by simp⟩
  | cons s rest ih =>
      rw [List.flatten_cons, Text.byteLen_append] at h
      obtain ⟨header₁, hpush, htext₁⟩ := push_ok header s (by omega)
      obtain ⟨header₂, hrest, htext₂⟩ := ih header₁ (by
        rw [htext₁, Text.byteLen_append]
        omega)
      use header₂
      constructor
      · rw [pushAll, hpush, Except.ok_bind, hrest]
      · rw [htext₂, htext₁, List.flatten_cons, List.append_assoc]

theorem byteLen_hexByte (b : UInt8) : (hexByte b).byteLen = 2 := by
  rw [← Utf8.length_encode, encode_hexByte]
  rfl

theorem hexPieces_ok (digest : Bytes) :
  ∃ pieces, hexPieces digest = .ok pieces ∧ pieces.flatten = hexText digest
  := by
  induction digest with
  | nil => exact ⟨[], rfl, rfl⟩
  | cons b digest ih =>
      obtain ⟨pieces, hpieces, hflatten⟩ := ih
      use hexByte b :: pieces
      constructor
      · rw [hexPieces, format_ok (Nat.le_of_eq (byteLen_hexByte b)), hpieces]
        rfl
      · rw [List.flatten_cons, hflatten, hexText, hexText, List.flatMap_cons]

/-- The text of a section in the header. -/
def imageText (img : OtaPackerSection) : Text :=
  (imageLines img ++ [[]]).flatMap (· ++ ['\n'])

theorem imagePieces_ok {img : OtaPackerSection} (h : img.data.length < 2 ^ 32) :
  ∃ pieces, imagePieces img = .ok pieces ∧ pieces.flatten = imageText img
  := by
  obtain ⟨md5, hmd5, hflatten⟩ := hexPieces_ok img.imgMd5
  have hsize : (Text.ofNat img.data.length).byteLen ≤ 32 :=
    Text.byteLen_ofNat_le (by omega) (by decide)
  have hcrc : (Text.ofNat img.imgCrc.toNat).byteLen ≤ 32 := by
    have hlt := img.imgCrc.toNat_lt
    apply Text.byteLen_ofNat_le (by omega) (by decide)
  use ["img_type=".toList, img.imgType, "\nimg_name=".toList, img.imgName,
    "\nimg_size=".toList, Text.ofNat img.data.length, "\nimg_md5=".toList] ++ md5 ++
    ["\nimg_crc=".toList, Text.ofNat img.imgCrc.toNat, "\n\n".toList]
  constructor
  · rw [imagePieces, format_ok hsize, hmd5, format_ok hcrc]
    rfl
  · simp [imageText, imageLines, hflatten]

theorem pushImages_ok (header : HString headerSizeMax) {images : List OtaPackerSection}
    (hsize : ∀ img ∈ images, img.data.length < 2 ^ 32)
    (h : header.text.byteLen + Text.byteLen (images.flatMap imageText) ≤ headerSizeMax) :
  ∃ header', pushImages header images = .ok header' ∧
    header'.text = header.text ++ images.flatMap imageText
  := by
  induction images generalizing header with
  | nil => exact ⟨header, rfl, by simp⟩
  | cons img images ih =>
      rw [List.flatMap_cons, Text.byteLen_append] at h
      obtain ⟨pieces, hpieces, hflatten⟩ := imagePieces_ok (hsize img List.mem_cons_self)
      obtain ⟨header₁, hpush, htext₁⟩ := pushAll_ok header pieces (by
        rw [hflatten]
        omega)
      obtain ⟨header₂, hrest, htext₂⟩ := ih header₁
        (fun img himg => hsize img (List.mem_cons_of_mem _ himg)) (by
          rw [htext₁, hflatten, Text.byteLen_append]
          omega)
      use header₂
      constructor
      · rw [pushImages, hpieces, Except.ok_bind, hpush, Except.ok_bind, hrest]
      · rw [htext₂, htext₁, hflatten, List.flatMap_cons, List.append_assoc]

/-- The header is its first lines, the texts of the sections, and its last lines. -/
theorem headerText_eq (images : List OtaPackerSection) (packetMd5 : Bytes) :
  headerText images packetMd5 = "ota_version=0\n\n".toList ++ images.flatMap imageText ++
    (globalLines packetMd5).flatMap (· ++ ['\n'])
  := by
  have himages : (images.flatMap fun img => imageLines img ++ [[]]).flatMap (· ++ ['\n']) =
      images.flatMap imageText := List.flatMap_assoc
  rw [headerText, headerLines, List.flatMap_append, List.flatMap_append, himages]
  rfl

/-- The digest of all sections that stands in the header. -/
def packetMd5 (hasher : Md5Hasher) (images : List OtaPackerSection) : Bytes :=
  hasher.md5Calc (images.map OtaPackerSection.data).flatten

/-- A header that fits is built. -/
theorem buildHeader_ok {hasher : Md5Hasher} (hstreams : hasher.Streams) {packer : Packer}
    (hsize : ∀ img ∈ packer.images, img.data.length < 2 ^ 32)
    (h : Text.byteLen (headerText packer.images (packetMd5 hasher packer.images)) ≤
      headerSizeMax) :
  ∃ header, buildHeader hasher packer = .ok header ∧
    header.text = headerText packer.images (packetMd5 hasher packer.images)
  := by
  rw [headerText_eq, Text.byteLen_append, Text.byteLen_append] at h
  obtain ⟨md5, hmd5, hflatten⟩ := hexPieces_ok (packetMd5 hasher packer.images)
  have hbs : format 32 (Text.ofNat blockSize) = .ok "131072".toList := by decide +kernel
  have hlast : (["check_img=1\n".toList, "bs_size=".toList, "131072".toList,
      "\nota_img_packet_md5=".toList] ++ md5 ++ ["\n".toList]).flatten =
      (globalLines (packetMd5 hasher packer.images)).flatMap (· ++ ['\n']) := by
    simp [globalLines, hflatten]
  let empty : HString headerSizeMax := HString.new
  obtain ⟨header₁, hpush₁, htext₁⟩ := push_ok empty "ota_version=0\n\n".toList (by
    change 0 + _ ≤ _
    omega)
  change header₁.text = "ota_version=0\n\n".toList at htext₁
  obtain ⟨header₂, hpush₂, htext₂⟩ := pushImages_ok header₁ hsize (by
    rw [htext₁]
    omega)
  obtain ⟨header₃, hpush₃, htext₃⟩ := pushAll_ok header₂ (["check_img=1\n".toList,
    "bs_size=".toList, "131072".toList, "\nota_img_packet_md5=".toList] ++ md5 ++ ["\n".toList]) (by
      rw [hlast, htext₂, htext₁, Text.byteLen_append]
      omega)
  use header₃
  constructor
  · rw [packetMd5] at hmd5
    rw [buildHeader, hpush₁, Except.ok_bind, hpush₂, Except.ok_bind, hbs, Except.ok_bind,
      hstreams, hmd5, Except.ok_bind, hpush₃]
  · rw [htext₃, htext₂, htext₁, hlast, headerText_eq]

/-! ### What the file is -/

/-- The sections are copied one behind the other, over what was there. -/
theorem packImages_ok (images : List OtaPackerSection) (before : Bytes) {old : Bytes}
    (h : old.length = (images.map fun img => img.data.length).sum) :
  packImages images before.length (before ++ old) =
    .ok (before ++ (images.map OtaPackerSection.data).flatten)
  := by
  induction images generalizing before old with
  | nil =>
      obtain rfl := List.length_eq_zero_iff.mp h
      simp [packImages]
  | cons img images ih =>
      rw [List.map_cons, List.sum_cons] at h
      have htake : (old.take img.data.length).length = img.data.length :=
        List.length_take_of_le (by omega)
      have hdrop : (old.drop img.data.length).length =
          (images.map fun img => img.data.length).sum := by
        rw [List.length_drop]
        omega
      have hcopy : copyInto (before ++ old) before.length img.data =
          .ok ((before ++ img.data) ++ old.drop img.data.length) := by
        have hover := overwrite_append_right before old img.data 0
        rw [Nat.add_zero] at hover
        have hold : overwrite old 0 img.data = img.data ++ old.drop img.data.length := by
          conv_lhs => rw [← List.take_append_drop img.data.length old]
          rw [overwrite_append_left _ (by omega), overwrite_all htake.symm]
        rw [copyInto, if_neg, hover, hold, List.append_assoc]
        rw [List.length_append]
        omega
      have ih := ih (before ++ img.data) hdrop
      rw [List.length_append] at ih
      rw [packImages, hcopy, Except.ok_bind, ih, List.map_cons, List.flatten_cons,
        List.append_assoc]

/-- What stays of an output between the text of the header and the sections. -/
def leftover (text : Text) (out : Bytes) : Bytes :=
  slice out text.byteLen (headerSize - text.byteLen)

/-- What is packed is the header, what was behind it, and the sections. -/
theorem pack_over {hasher : Md5Hasher} {packer : Packer} {header : HString headerSizeMax}
    (hheader : buildHeader hasher packer = .ok header) {out : Bytes}
    (h : out.length = outputSize packer) :
  pack hasher packer out =
    .ok (Utf8.encode header.text ++ leftover header.text out ++
      (packer.images.map OtaPackerSection.data).flatten)
  := by
  have hroom : header.text.byteLen ≤ headerSize := Nat.le_trans header.fits (by decide)
  have henc := Utf8.length_encode header.text
  rw [outputSize] at h
  obtain ⟨front, old, hout, hfront⟩ : ∃ front old, out = front ++ old ∧
      front.length = headerSize := ⟨out.take headerSize, out.drop headerSize,
    (List.take_append_drop _ _).symm, List.length_take_of_le (by omega)⟩
  have hold : old.length = (packer.images.map fun img => img.data.length).sum := by
    rw [hout, List.length_append] at h
    omega
  have hsplit : front = front.take header.text.byteLen ++ leftover header.text out := by
    rw [leftover, hout, slice_append_left _ (by omega)]
    rw [slice, ← hfront, ← List.length_drop, List.take_length, List.take_append_drop]
  have hcopy : copyInto out 0 (Utf8.encode header.text) =
      .ok (Utf8.encode header.text ++ leftover header.text out ++ old) := by
    have htake : (front.take header.text.byteLen).length = header.text.byteLen :=
      List.length_take_of_le (by omega)
    rw [copyInto, if_neg (by omega)]
    conv_lhs => rw [hout, hsplit]
    rw [List.append_assoc, overwrite_append_left _ (by omega), overwrite_all (by omega),
      List.append_assoc]
  have hbefore : (Utf8.encode header.text ++ leftover header.text out).length = headerSize := by
    have hlen := congrArg List.length hsplit
    rw [List.length_append, List.length_take_of_le (by omega)] at hlen
    rw [List.length_append]
    omega
  have himages :=
    packImages_ok packer.images (Utf8.encode header.text ++ leftover header.text out) hold
  rw [hbefore] at himages
  rw [pack, hheader, Except.ok_bind, hcopy, Except.ok_bind, himages]

/-- What is packed into zeros is the header, filled with NULs, and the sections. -/
theorem pack_ok {hasher : Md5Hasher} (hstreams : hasher.Streams) {packer : Packer}
    (hsize : ∀ img ∈ packer.images, img.data.length < 2 ^ 32)
    (h : Text.byteLen (headerText packer.images (packetMd5 hasher packer.images)) ≤
      headerSizeMax) :
  pack hasher packer (List.replicate (outputSize packer) 0) =
    .ok (padHeader (headerText packer.images (packetMd5 hasher packer.images)) ++
      (packer.images.map OtaPackerSection.data).flatten)
  := by
  obtain ⟨header, hheader, htext⟩ := buildHeader_ok hstreams hsize h
  have hroom : header.text.byteLen ≤ headerSize := Nat.le_trans header.fits (by decide)
  have hnuls : leftover header.text (List.replicate (outputSize packer) 0) =
      List.replicate (headerSize - header.text.byteLen) 0 := by
    rw [leftover, slice, List.drop_replicate, List.take_replicate, outputSize]
    congr 1
    omega
  rw [pack_over hheader List.length_replicate, hnuls, htext]
  rfl

/-! ### The header is read back -/

/-- A text without line feeds that neither begins nor ends with white space. -/
def OneLine (s : Text) : Prop := '\n' ∉ s ∧ Text.SolidStart s ∧ Text.SolidEnd s

theorem oneLine_of_solid {s : Text} (h : ∀ c ∈ s, Text.isWhitespace c = false) : OneLine s := by
  refine ⟨?_, ?_, ?_⟩
  · intro hc
    cases h _ hc
  · intro c hc
    apply h c (List.mem_of_head? hc)
  · apply Text.solidEnd_of_forall h

theorem oneLine_ofNat (n : ℕ) : OneLine (Text.ofNat n) :=
  oneLine_of_solid fun _ hc => (Text.isNumeral_of_mem_ofNat hc).isWhitespace

theorem oneLine_hexText (digest : Bytes) : OneLine (hexText digest) := by
  apply oneLine_of_solid
  intro c hc
  have hall : ∀ c ∈ "0123456789abcdef".toList, Text.isWhitespace c = false := by decide +kernel
  apply hall c (isHex_of_mem_hexText hc)

/-- A key: a text that is not empty, with no white space and no equals sign. -/
def IsKey (key : Text) : Prop :=
  key ≠ [] ∧ ∀ c ∈ key, Text.isWhitespace c = false ∧ c ≠ '='

instance (key : Text) : Decidable (IsKey key) := inferInstanceAs (Decidable (_ ∧ _))

/-- The line of a key and a value. -/
def line (kv : Text × Text) : Text := kv.1 ++ '=' :: kv.2

/-- The key and the value of a line that was written from them. -/
theorem keyValue_line {key v : Text} (hkey : IsKey key) (hv : OneLine v) :
  keyValue (line (key, v)) = some (key, v) ∧ '\n' ∉ line (key, v) ∧ line (key, v) ≠ []
  := by
  obtain ⟨hne, hchars⟩ := hkey
  obtain ⟨hlf, hstart, hend⟩ := hv
  have hsolid : OneLine key := oneLine_of_solid fun c hc => (hchars c hc).1
  have htrim : Text.trim (key ++ '=' :: v) = key ++ '=' :: v := by
    apply Text.trim_append_of_solid hsolid.2.1 hne (List.cons_ne_nil _ _)
    cases v with
    | nil =>
        intro c hc
        cases hc
        rfl
    | cons c v => exact (Text.solidEnd_append (s := ['=']) (List.cons_ne_nil c v)).mpr hend
  have heq : '=' ∉ key := fun hc => (hchars _ hc).2 rfl
  refine ⟨?_, ?_, ?_⟩
  · rw [line, keyValue, htrim, Text.splitOnce_append_cons heq, Option.map_some]
    simp only [Text.trim_of_solid hsolid.2.1 hsolid.2.2, Text.trim_of_solid hstart hend]
  · simp [line, hlf, hsolid.1]
  · simp [line]

/-- A section that is written so that it can be read back. -/
structure Readable (img : OtaPackerSection) : Prop where
  imgType : OneLine img.imgType
  imgName : OneLine img.imgName
  size : img.data.length < 2 ^ 32

/-- The keys and values of the lines of a section. -/
def imageKeyValues (img : OtaPackerSection) : List (Text × Text) :=
  [("img_type".toList, img.imgType), ("img_name".toList, img.imgName),
    ("img_size".toList, Text.ofNat img.data.length), ("img_md5".toList, hexText img.imgMd5),
    ("img_crc".toList, Text.ofNat img.imgCrc.toNat)]

theorem imageLines_eq (img : OtaPackerSection) :
  imageLines img = (imageKeyValues img).map line
  := by
  simp [imageLines, imageKeyValues, line]

theorem isKey_image {img : OtaPackerSection} {kv : Text × Text} (h : kv ∈ imageKeyValues img) :
  IsKey kv.1
  := by
  have hall : ∀ key ∈ ["img_type".toList, "img_name".toList, "img_size".toList,
      "img_md5".toList, "img_crc".toList], IsKey key := by decide +kernel
  apply hall
  rw [show ["img_type".toList, "img_name".toList, "img_size".toList, "img_md5".toList,
    "img_crc".toList] = (imageKeyValues img).map Prod.fst from rfl]
  apply List.mem_map_of_mem h

theorem oneLine_image {img : OtaPackerSection} (h : Readable img) :
  ∀ kv ∈ imageKeyValues img, OneLine kv.2
  := by
  intro kv hkv
  simp only [imageKeyValues, List.mem_cons, List.not_mem_nil, or_false] at hkv
  rcases hkv with rfl | rfl | rfl | rfl | rfl
  · apply h.imgType
  · apply h.imgName
  · apply oneLine_ofNat
  · apply oneLine_hexText
  · apply oneLine_ofNat

/-- Lines that were written from keys and values have them. -/
theorem filterMap_line {kvs : List (Text × Text)} (hkey : ∀ kv ∈ kvs, IsKey kv.1)
    (hv : ∀ kv ∈ kvs, OneLine kv.2) :
  (kvs.map line).filterMap keyValue = kvs ∧ ∀ l ∈ kvs.map line, '\n' ∉ l ∧ l ≠ []
  := by
  constructor
  · rw [List.filterMap_map]
    have hsome : ∀ kv ∈ kvs, (keyValue ∘ line) kv = some kv := by
      intro kv hkv
      apply (keyValue_line (hkey kv hkv) (hv kv hkv)).1
    rw [List.filterMap_congr hsome, List.filterMap_some]
  · intro l hl
    obtain ⟨kv, hkv, rfl⟩ := List.mem_map.mp hl
    apply (keyValue_line (hkey kv hkv) (hv kv hkv)).2

/-- The part of a section in the header. -/
def partText (img : OtaPackerSection) : Text := Text.joinLines ((imageKeyValues img).map line)

theorem imageText_eq (img : OtaPackerSection) :
  imageText img = partText img ++ ['\n', '\n']
  := by
  rw [imageText, imageLines_eq, Text.flatMap_joinLines, partText]
  exact List.cons_ne_nil _ _

theorem keyValues_partText {img : OtaPackerSection} (h : Readable img) :
  keyValues (partText img) = imageKeyValues img
  := by
  obtain ⟨hvalues, hlines⟩ := filterMap_line (fun _ => isKey_image) (oneLine_image h)
  rw [partText, keyValues_joinLines hlines, hvalues]

/-- What is read for a section. -/
def fieldsOf (img : OtaPackerSection) : PartFields :=
  ⟨img.imgName, img.imgType, img.data.length, hexText img.imgMd5, img.imgCrc⟩

theorem parsePart_partText {img : OtaPackerSection} (h : Readable img) :
  parsePart (partText img) = fieldsOf img
  := by
  have hsize : Text.parseUnsigned 32 (Text.ofNat img.data.length) = some img.data.length :=
    Text.parseUnsigned_ofNat h.size
  have hcrc : Text.parseUnsigned 32 (Text.ofNat img.imgCrc.toNat) = some img.imgCrc.toNat :=
    Text.parseUnsigned_ofNat img.imgCrc.toNat_lt
  rw [parsePart, keyValues_partText h, imageKeyValues]
  simp [partLine, fieldsOf, hsize, hcrc]

theorem isImage_partText (img : OtaPackerSection) : isImage (partText img) = true := by
  rw [isImage, Text.contains, decide_eq_true_eq, partText, imageKeyValues, List.map_cons,
    List.map_cons, List.map_cons, Text.joinLines_cons_cons, Text.joinLines_cons_cons]
  refine ⟨line ("img_type".toList, img.imgType) ++ ['\n'], '=' :: (img.imgName ++ '\n' ::
    Text.joinLines (line ("img_size".toList, Text.ofNat img.data.length) ::
      [("img_md5".toList, hexText img.imgMd5),
        ("img_crc".toList, Text.ofNat img.imgCrc.toNat)].map line)), ?_⟩
  simp [line]

/-- The parts of the sections are what the header is split into. -/
theorem splitStr_images {images : List OtaPackerSection} (h : ∀ img ∈ images, Readable img)
    (rest : Text) :
  Text.splitStr "\n\n".toList (images.flatMap imageText ++ rest) =
    images.map partText ++ Text.splitStr "\n\n".toList rest
  := by
  have htext : images.flatMap imageText =
      partsText (images.map fun img => (imageKeyValues img).map line) := by
    rw [partsText, List.flatMap_map]
    exact congrArg (List.flatMap · images) (funext imageText_eq)
  rw [htext, splitStr_partsText, List.map_map]
  · rfl
  · intro ls hls
    obtain ⟨img, himg, rfl⟩ := List.mem_map.mp hls
    exact (filterMap_line (fun _ => isKey_image) (oneLine_image (h img himg))).2

/-- The last lines of the header declare no section. -/
theorem notMem_globalLines (digest : Bytes) :
  'n' ∉ (globalLines digest).flatMap (· ++ ['\n'])
  := by
  have hhex : 'n' ∉ hexText digest := by
    intro hc
    have hn : ¬ IsHex 'n' := by
      unfold IsHex
      decide
    apply hn (isHex_of_mem_hexText hc)
  simp [globalLines, hhex]

/-- The keys and values of the last lines of the header. -/
def globalKeyValues (packetMd5 : Bytes) : List (Text × Text) :=
  [("check_img".toList, "1".toList), ("bs_size".toList, "131072".toList),
    ("ota_img_packet_md5".toList, hexText packetMd5)]

/-- The keys and values of a section set none of the globals. -/
theorem foldl_globalsLine_images (bits : ℕ) (globals : OtaImageGlobals)
    (images : List OtaPackerSection) :
  (images.flatMap imageKeyValues).foldl (globalsLine bits) globals = globals
  := by
  induction images with
  | nil => rfl
  | cons img images ih =>
      have hsection : (imageKeyValues img).foldl (globalsLine bits) globals = globals := by
        simp [imageKeyValues, globalsLine]
      rw [List.flatMap_cons, List.foldl_append, hsection, ih]

/-- The keys and values of the lines of the sections. -/
theorem filterMap_imageLines {images : List OtaPackerSection}
    (h : ∀ img ∈ images, Readable img) :
  (images.flatMap fun img => imageLines img ++ [[]]).filterMap keyValue =
      images.flatMap imageKeyValues ∧
    ∀ l ∈ images.flatMap (fun img => imageLines img ++ [[]]), '\n' ∉ l
  := by
  have hline (img : OtaPackerSection) (himg : img ∈ images) :=
    filterMap_line (fun _ => isKey_image) (oneLine_image (h img himg))
  constructor
  · rw [List.filterMap_flatMap]
    apply List.flatMap_congr
    intro img himg
    rw [List.filterMap_append, imageLines_eq, (hline img himg).1]
    exact List.append_nil _
  · intro l hl
    obtain ⟨img, himg, hl⟩ := List.mem_flatMap.mp hl
    rcases List.mem_append.mp hl with hl | hl
    · rw [imageLines_eq] at hl
      apply ((hline img himg).2 l hl).1
    · rw [List.mem_singleton.mp hl]
      apply List.not_mem_nil

theorem filterMap_globalLines (digest : Bytes) :
  (globalLines digest).filterMap keyValue = globalKeyValues digest ∧
    ∀ l ∈ globalLines digest, '\n' ∉ l
  := by
  have hkey : ∀ kv ∈ globalKeyValues digest, IsKey kv.1 := by
    intro kv hkv
    have hall : ∀ key ∈ ["check_img".toList, "bs_size".toList, "ota_img_packet_md5".toList],
        IsKey key := by decide +kernel
    apply hall
    rw [show ["check_img".toList, "bs_size".toList, "ota_img_packet_md5".toList] =
      (globalKeyValues digest).map Prod.fst from rfl]
    apply List.mem_map_of_mem hkv
  have hvalue : ∀ kv ∈ globalKeyValues digest, OneLine kv.2 := by
    intro kv hkv
    simp only [globalKeyValues, List.mem_cons, List.not_mem_nil, or_false] at hkv
    rcases hkv with rfl | rfl | rfl
    · apply oneLine_of_solid
      decide +kernel
    · apply oneLine_of_solid
      decide +kernel
    · apply oneLine_hexText
  obtain ⟨hvalues, hlines⟩ := filterMap_line hkey hvalue
  have heq : globalLines digest = (globalKeyValues digest).map line := by
    simp [globalLines, globalKeyValues, line]
  rw [heq]
  exact ⟨hvalues, fun l hl => (hlines l hl).1⟩

/-- The keys and values of a header, and of what stands behind it. -/
theorem keyValues_headerText {images : List OtaPackerSection}
    (h : ∀ img ∈ images, Readable img) (digest : Bytes) (left : Text) :
  keyValues (headerText images digest ++ left) =
    ("ota_version".toList, "0".toList) ::
      (images.flatMap imageKeyValues ++ globalKeyValues digest) ++ keyValues left
  := by
  obtain ⟨hvalues, hlines⟩ := filterMap_imageLines h
  obtain ⟨hvalues', hlines'⟩ := filterMap_globalLines digest
  have hlf : ∀ l ∈ headerLines images digest, '\n' ∉ l := by
    intro l hl
    rw [headerLines, List.append_assoc, List.mem_append, List.mem_append] at hl
    rcases hl with hl | hl | hl
    · revert l
      decide
    · apply hlines l hl
    · apply hlines' l hl
  have hfirst : ["ota_version=0".toList, []].filterMap keyValue =
      [("ota_version".toList, "0".toList)] := by decide +kernel
  rw [headerText, keyValues_lines hlf, headerLines, List.filterMap_append,
    List.filterMap_append, hfirst, hvalues, hvalues']
  rfl

/-! ### What is left in the header -/

/-- The sections that a text declares behind the last line of a header. -/
def leftFields (left : Text) : List PartFields :=
  ((Text.splitStr "\n\n".toList ('\n' :: left)).filter isImage).map parsePart

/-- The last lines of the header, the last of them without its end. -/
theorem globalLines_flatMap (digest : Bytes) :
  (globalLines digest).flatMap (· ++ ['\n']) = Text.joinLines (globalLines digest) ++ ['\n']
  := by
  have hjoin : (globalLines digest ++ [[]]).flatMap (· ++ ['\n']) =
      Text.joinLines (globalLines digest) ++ ['\n', '\n'] :=
    Text.flatMap_joinLines (List.cons_ne_nil _ _)
  rw [List.flatMap_append] at hjoin
  apply @List.append_cancel_right _ _ ['\n'] _
  rw [List.append_assoc]
  exact hjoin

theorem notMem_joinLines_globalLines (digest : Bytes) :
  'n' ∉ Text.joinLines (globalLines digest)
  := by
  intro hc
  apply notMem_globalLines digest
  rw [globalLines_flatMap]
  exact List.mem_append_left _ hc

/-- The keys and values behind a line feed are those of the lines behind it. -/
theorem keyValues_lf (s : Text) : keyValues ('\n' :: s) = keyValues s := by
  have hempty : ∀ l ∈ ([[]] : List Text), '\n' ∉ l := by simp
  exact (keyValues_lines hempty s).trans (List.nil_append _)

/-- What a part declares does not depend on the last lines of the header in front of it. -/
theorem parsePart_globalLines (digest : Bytes) (s : Text) :
  parsePart (Text.joinLines (globalLines digest) ++ '\n' :: s) = parsePart ('\n' :: s)
  := by
  obtain ⟨hvalues, hlines⟩ := filterMap_globalLines digest
  have hjoin : Text.joinLines (globalLines digest) ++ '\n' :: s =
      (globalLines digest).flatMap (· ++ ['\n']) ++ s := by
    rw [globalLines_flatMap, List.append_assoc]
    rfl
  rw [parsePart, parsePart, hjoin, keyValues_lines hlines, hvalues, keyValues_lf, List.foldl_append]
  congr 1

/-- Whether a part declares a section does not depend on them either. -/
theorem isImage_globalLines (digest : Bytes) (s : Text) :
  isImage (Text.joinLines (globalLines digest) ++ '\n' :: s) = isImage ('\n' :: s)
  := by
  apply Text.contains_append_cons (by decide)
  exact Text.contains_of_notMem (by decide) (notMem_joinLines_globalLines digest)

theorem unsplit_globalLines (digest : Bytes) (s : Text) :
  Text.Unsplit "\n\n".toList (Text.joinLines (globalLines digest)) ('\n' :: s)
  := by
  apply Text.unsplit_joinLines
  intro l hl
  refine ⟨(filterMap_globalLines digest).2 l hl, ?_⟩
  rintro rfl
  simp [globalLines] at hl

/-- The sections that the last lines of a header declare with what is left behind them. -/
theorem splitStr_globalLines (digest : Bytes) (left : Text) :
  ((Text.splitStr "\n\n".toList ((globalLines digest).flatMap (· ++ ['\n']) ++ left)).filter
    isImage).map parsePart = leftFields left
  := by
  have hcat : (globalLines digest).flatMap (· ++ ['\n']) ++ left =
      Text.joinLines (globalLines digest) ++ '\n' :: left := by
    rw [globalLines_flatMap, List.append_assoc]
    rfl
  have hnone : isImage (Text.joinLines (globalLines digest)) = false :=
    Text.contains_of_notMem (c := 'n') (by decide) (notMem_joinLines_globalLines digest)
  rw [hcat, Text.splitStr_unsplit (unsplit_globalLines digest left), leftFields]
  rcases Text.splitStr_lf left with ⟨pieces, hpieces⟩ | ⟨piece, pieces, hpieces⟩
  · change Text.splitStr "\n\n".toList ('\n' :: left) = _ at hpieces
    rw [hpieces, List.modifyHead_cons, List.append_nil,
      List.filter_cons_of_neg (by rw [hnone]; decide), List.filter_cons_of_neg (by decide)]
  · change Text.splitStr "\n\n".toList ('\n' :: left) = _ at hpieces
    rw [hpieces, List.modifyHead_cons]
    cases himage : isImage ('\n' :: piece) with
    | false =>
        rw [List.filter_cons_of_neg (by rw [isImage_globalLines, himage]; decide),
          List.filter_cons_of_neg (by rw [himage]; decide)]
    | true =>
        rw [List.filter_cons_of_pos (by rw [isImage_globalLines, himage]),
          List.filter_cons_of_pos himage, List.map_cons, List.map_cons, parsePart_globalLines]

/-- A header declares its sections, and then those of what is left behind it. -/
theorem declaredFields_append {images : List OtaPackerSection}
    (h : ∀ img ∈ images, Readable img) (digest : Bytes) (left : Text) :
  declaredFields (headerText images digest ++ left) =
    (images.map fieldsOf ++ leftFields left).take maxImages
  := by
  have hsplit : Text.splitStr "\n\n".toList ("ota_version=0".toList ++ ("\n\n".toList ++
        (images.flatMap imageText ++ ((globalLines digest).flatMap (· ++ ['\n']) ++ left)))) =
      "ota_version=0".toList :: Text.splitStr "\n\n".toList (images.flatMap imageText ++
        ((globalLines digest).flatMap (· ++ ['\n']) ++ left)) :=
    Text.splitStr_append (by decide) _ (Text.unsplit_of_notMem (by decide))
  have htext : headerText images digest ++ left = "ota_version=0".toList ++ ("\n\n".toList ++
      (images.flatMap imageText ++ ((globalLines digest).flatMap (· ++ ['\n']) ++ left))) := by
    rw [headerText_eq, List.append_assoc, List.append_assoc]
    rfl
  have himages : (images.map partText).filter isImage = images.map partText := by
    apply List.filter_eq_self.mpr
    intro part hpart
    obtain ⟨img, -, rfl⟩ := List.mem_map.mp hpart
    apply isImage_partText
  have hfields : (images.map partText).map parsePart = images.map fieldsOf := by
    rw [List.map_map]
    apply List.map_congr_left
    intro img himg
    apply parsePart_partText (h img himg)
  rw [declaredFields, declaredParts, htext, hsplit, splitStr_images h,
    List.filter_cons_of_neg (by decide), List.filter_append, himages, List.map_take,
    List.map_append, hfields, splitStr_globalLines]

theorem leftFields_nuls (n : ℕ) : leftFields (List.replicate n '\x00') = [] := by
  have hnuls : 'n' ∉ '\n' :: List.replicate n '\x00' := by simp
  rw [leftFields, filter_isImage hnuls, List.map_nil]

/-- The sections that the header of a file declares are those that were packed. -/
theorem declaredFields_headerText {images : List OtaPackerSection}
    (h : ∀ img ∈ images, Readable img) (hroom : images.length ≤ maxImages) (digest : Bytes)
    (n : ℕ) :
  declaredFields (headerText images digest ++ List.replicate n '\x00') = images.map fieldsOf
  := by
  rw [declaredFields_append h, leftFields_nuls, List.append_nil,
    List.take_of_length_le (by simpa using hroom)]

/-- The block size and the digest of all sections are read back. -/
theorem parseGlobals_headerText {bits : ℕ} (hbits : 32 ≤ bits) {images : List OtaPackerSection}
    (h : ∀ img ∈ images, Readable img) (digest : Bytes) (n : ℕ) :
  parseGlobals bits (headerText images digest ++ List.replicate n '\x00') =
    ⟨blockSize, some (hexText digest), false⟩
  := by
  have hbs : Text.parseUnsigned bits "131072".toList = some blockSize := by
    have hpow : 2 ^ 32 ≤ 2 ^ bits := Nat.pow_le_pow_right (by decide) hbits
    have hnum : Text.ofNat blockSize = "131072".toList := by decide +kernel
    rw [← hnum]
    apply Text.parseUnsigned_ofNat
    unfold blockSize
    omega
  rw [parseGlobals, keyValues_headerText h, keyValues_nuls, List.append_nil, List.foldl_cons,
    List.foldl_append, foldl_globalsLine_images]
  simpa [globalsLine, globalKeyValues] using congrArg (fun n => n.getD blockSize) hbs

/-! ### What is packed is read back -/

/-- The checksum of a section. -/
def crcOf (data : Bytes) : UInt32 := (xorCrcImg data blockSize).toOption.getD 0

/-- The section that is packed for an input. -/
def packed (hasher : Md5Hasher) (input : Input) : OtaPackerSection :=
  ⟨input.data, input.ty, input.name, hasher.md5Calc input.data, crcOf input.data⟩

/-- The sections that inputs are read back as, the first at an offset and each of the others
behind the one before it. -/
def unpacked (hasher : Md5Hasher) : ℕ → List Input → List OtaImageSection
  | _, [] => []
  | offset, input :: inputs =>
    ⟨input.ty, input.name, input.data.length, hexText (hasher.md5Calc input.data),
      crcOf input.data, offset, input.data, false, false⟩ ::
      unpacked hasher (offset + input.data.length) inputs

/-- The header that is packed for inputs. -/
def headerOf (hasher : Md5Hasher) (inputs : List Input) : Text :=
  headerText (inputs.map (packed hasher)) (packetMd5 hasher (inputs.map (packed hasher)))

theorem xorCrcImg_crcOf (data : Bytes) : xorCrcImg data blockSize = .ok (crcOf data) := by
  have hpos : 0 < blockSize := by decide
  obtain ⟨crc, hcrc⟩ := xorCrcImg_ok data hpos
  rw [crcOf, hcrc]
  rfl

/-- Inputs that there is room for are added. -/
theorem addAll_ok (hasher : Md5Hasher) (packer : Packer) {inputs : List Input}
    (h : packer.images.length + inputs.length ≤ maxImages) :
  ∃ packer', addAll hasher packer inputs = .ok packer' ∧
    packer'.images = packer.images ++ inputs.map (packed hasher)
  := by
  induction inputs generalizing packer with
  | nil => exact ⟨packer, rfl, by simp⟩
  | cons input inputs ih =>
      rw [List.length_cons] at h
      have room : packer.images.length < maxImages := by omega
      have hadd : add hasher packer input.ty input.name input.data =
          .ok ⟨packer.images ++ [packed hasher input], by
            rw [List.length_append]
            exact room⟩ := by
        rw [add, xorCrcImg_crcOf, Except.ok_bind, dif_pos room]
        rfl
      obtain ⟨packer', hrest, himages⟩ := ih ⟨packer.images ++ [packed hasher input], by
        rw [List.length_append]
        exact room⟩ (by
          simp only [List.length_append, List.length_singleton]
          omega)
      use packer'
      constructor
      · rw [addAll, hadd, Except.ok_bind, hrest]
      · rw [himages, List.map_cons, List.append_assoc]
        rfl

/-- In a file of sections one behind the other every section is placed, and is what was
packed. -/
theorem placed_packed (hasher : Md5Hasher) {buf before : Bytes} {inputs : List Input}
    (h : buf = before ++ (inputs.map Input.data).flatten) :
  let places := placed buf.length before.length (inputs.map fun input =>
    fieldsOf (packed hasher input))
  places.length = inputs.length ∧
    places.map (imageAt buf) = unpacked hasher before.length inputs ∧
    ∀ place ∈ places, Passes hasher blockSize buf place
  := by
  induction inputs generalizing before with
  | nil => exact ⟨rfl, rfl, nofun⟩
  | cons input inputs ih =>
      have hbuf : buf = before ++ input.data ++ (inputs.map Input.data).flatten := by
        rw [h, List.map_cons, List.flatten_cons, List.append_assoc]
      have hfit : before.length + (fieldsOf (packed hasher input)).size ≤ buf.length := by
        rw [hbuf, List.length_append, List.length_append]
        apply Nat.le_add_right
      have hslice : slice buf before.length (fieldsOf (packed hasher input)).size =
          input.data := by
        rw [hbuf, slice_append_left]
        · apply slice_append_self
        · rw [List.length_append]
          apply Nat.le_refl
      obtain ⟨hlength, hmap, hpasses⟩ := ih hbuf
      have hoffset : (before ++ input.data).length =
          before.length + (fieldsOf (packed hasher input)).size := List.length_append
      rw [hoffset] at hlength hmap hpasses
      rw [List.map_cons, (placed_cons_fit _ hfit).1]
      refine ⟨by rw [List.length_cons, hlength, List.length_cons], ?_, ?_⟩
      · rw [List.map_cons, hmap, unpacked, imageAt]
        simp only [hslice]
        rfl
      · intro place hplace
        rcases List.mem_cons.mp hplace with rfl | hplace
        · constructor
          · intro _
            rw [hslice, xorCrcImg_crcOf]
            rfl
          · intro _
            rw [hslice]
            apply parseMd5Hex_hexText
            apply Md5Hasher.length_md5Calc
        · apply hpasses place hplace

/-- Sections that can be written on a line each, that fit a header and a file, are packed, and
the file is parsed to the same sections in the same order, with no check failed. -/
theorem parse_packInputs {hasher : Md5Hasher} (hstreams : hasher.Streams) {bits : ℕ}
    (hbits : 32 ≤ bits) {inputs : List Input} (hne : inputs ≠ [])
    (hroom : inputs.length ≤ maxImages)
    (hlines : ∀ input ∈ inputs, OneLine input.ty ∧ OneLine input.name)
    (hsize : headerSize + (inputs.map fun input => input.data.length).sum < 2 ^ 32)
    (hheader : (headerOf hasher inputs).byteLen ≤ headerSizeMax) :
  ∃ out globals, packInputs hasher inputs = .ok out ∧
    parse hasher bits out = .ok (unpacked hasher headerSize inputs, globals) ∧
    globals.bsSize = 131072 ∧ globals.packetMd5Fail = false
  := by
  have hreadable : ∀ img ∈ inputs.map (packed hasher), Readable img := by
    intro img himg
    obtain ⟨input, hinput, rfl⟩ := List.mem_map.mp himg
    have hle : input.data.length ≤ (inputs.map fun input => input.data.length).sum :=
      List.single_le_sum (fun _ _ => Nat.zero_le _) _
        (List.mem_map_of_mem (f := fun input : Input => input.data.length) hinput)
    have hlt : input.data.length < 2 ^ 32 := by omega
    exact ⟨(hlines input hinput).1, (hlines input hinput).2, hlt⟩
  have hnew : new.images.length + inputs.length ≤ maxImages := by
    change 0 + _ ≤ _
    omega
  obtain ⟨packer, hadd, himages⟩ := addAll_ok hasher new hnew
  change packer.images = inputs.map (packed hasher) at himages
  have hdatas : (inputs.map (packed hasher)).map OtaPackerSection.data =
      inputs.map Input.data := List.map_map
  have hpack := @pack_ok hasher hstreams packer
  rw [himages, hdatas] at hpack
  have hpack := hpack (fun img himg => (hreadable img himg).size) hheader
  change pack hasher packer (List.replicate (outputSize packer) 0) =
    .ok (padHeader (headerOf hasher inputs) ++ (inputs.map Input.data).flatten) at hpack
  have hfits : (headerOf hasher inputs).byteLen ≤ headerSize :=
    Nat.le_trans hheader (by decide)
  have hlength := length_padHeader hfits
  generalize hout : padHeader (headerOf hasher inputs) ++ (inputs.map Input.data).flatten = out
    at hpack
  have hsum : (inputs.map Input.data).flatten.length =
      (inputs.map fun input => input.data.length).sum := by
    rw [List.length_flatten, List.map_map]
    rfl
  have hbuf : out.length < 2 ^ bits := by
    have hpow : 2 ^ 32 ≤ 2 ^ bits := Nat.pow_le_pow_right (by decide) hbits
    rw [← hout, List.length_append, hlength, hsum]
    omega
  obtain ⟨hplaced, hmap, hpasses⟩ := placed_packed hasher hout.symm
  rw [hlength] at hplaced hmap hpasses
  have hdecode := decode_padHeader hfits (inputs.map Input.data).flatten
  rw [hout] at hdecode
  generalize headerSize - (headerOf hasher inputs).byteLen = n at hdecode
  have hroom' : (inputs.map (packed hasher)).length ≤ maxImages :=
    List.length_map (packed hasher) ▸ hroom
  have hfields : declaredFields (headerOf hasher inputs ++ List.replicate n '\x00') =
      inputs.map fun input => fieldsOf (packed hasher input) := by
    rw [headerOf, declaredFields_headerText hreadable hroom', List.map_map]
    rfl
  have hglobals := parseGlobals_headerText hbits hreadable
    (packetMd5 hasher (inputs.map (packed hasher))) n
  rw [← headerOf] at hglobals
  refine ⟨out, _, ?_, (parse_iff hbuf).mpr ⟨_, hdecode, ?_, ?_, rfl⟩, ?_, ?_⟩
  · rw [packInputs, hadd, Except.ok_bind, hpack]
  · constructor
    · rw [hfields]
      intro hnil
      rw [hnil] at hplaced
      apply hne (List.length_eq_zero_iff.mp hplaced.symm)
    · rw [hfields, hglobals]
      apply hpasses
    · intro next hnext
      have hnone : (inputs.map fun input => fieldsOf (packed hasher input)).drop inputs.length =
          [] := List.drop_eq_nil_of_le (Nat.le_of_eq (List.length_map _))
      rw [hfields, hplaced, hnone] at hnext
      cases hnext
    · intro _ v hv
      rw [← (parseGlobals_packetMd5 bits _).1, hglobals] at hv
      obtain rfl := Option.some.inj hv
      have hend : placedEnd out.length headerSize (inputs.map fun input =>
          fieldsOf (packed hasher input)) - headerSize =
          (inputs.map Input.data).flatten.length := by
        rw [placedEnd_all (by rw [hplaced, List.length_map]), Nat.add_sub_cancel_left,
          List.map_map, hsum]
        rfl
      have hslice : slice out headerSize (inputs.map Input.data).flatten.length =
          (inputs.map Input.data).flatten := by
        rw [← hout, ← hlength]
        apply slice_append_self
      rw [hfields, hend, hslice, packetMd5, hdatas]
      apply parseMd5Hex_hexText
      apply Md5Hasher.length_md5Calc
  · rw [hfields, hmap]
  · rw [hglobals]
    rfl
  · rw [hglobals]

/-- A section whose type and name look like lines of the header, and one of no bytes. -/
def twoInputs : List Input :=
  [⟨"img_name=a".toList, "bs_size=0".toList, [1, 2, 3]⟩, ⟨[], "a b".toList, []⟩]

theorem parse_packInputs_twoInputs :
  ∃ out globals, packInputs .rfc1321 twoInputs = .ok out ∧
    parse .rfc1321 64 out = .ok (unpacked .rfc1321 headerSize twoInputs, globals) ∧
    globals.bsSize = 131072 ∧ globals.packetMd5Fail = false
  := by
  have hlines : ∀ input ∈ twoInputs, OneLine input.ty ∧ OneLine input.name := by
    unfold OneLine
    decide +kernel
  have hheader : (headerOf .rfc1321 twoInputs).byteLen ≤ headerSizeMax := by decide +kernel
  apply parse_packInputs Md5Hasher.rfc1321_streams (by decide) (List.cons_ne_nil _ _) (by decide)
    hlines (by decide) hheader

end OtaPacker

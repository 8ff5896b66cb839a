import CatplayFirmware.Otalib.Mini.OtaPacker

/-!
# What an output file had before

The packer writes the text of the header and the sections, and leaves what is between them as it
was. A reader takes it for the rest of the header: it may be no text, declare more sections, or
declare another block size or another digest of all sections.
-/

namespace OtaPacker

open Bytes Crc Md5 Ota

/-! ### The text of the header -/

theorem push_text {cap : ℕ} {header header' : HString cap} {s : Text}
    (h : push header s = .ok header') :
  header'.text = header.text ++ s
  := by
  rw [push] at h
  split at h
  · next hpush =>
    cases h
    apply HString.pushStr_text hpush
  · cases h

theorem format_text {cap : ℕ} {s s' : Text} (h : format cap s = .ok s') : s' = s := by
  rw [format] at h
  split at h
  · cases h
    rfl
  · cases h

theorem pushAll_text {cap : ℕ} {header header' : HString cap} {pieces : List Text}
    (h : pushAll header pieces = .ok header') :
  header'.text = header.text ++ pieces.flatten
  := by
  induction pieces generalizing header with
  | nil =>
      cases h
      rw [List.flatten_nil, List.append_nil]
  | cons s rest ih =>
      obtain ⟨header₁, hpush, hrest⟩ := Except.bind_eq_ok_iff.mp h
      rw [ih hrest, push_text hpush, List.flatten_cons, List.append_assoc]

theorem hexPieces_text {digest : Bytes} {pieces : List Text} (h : hexPieces digest = .ok pieces) :
  pieces.flatten = hexText digest
  := by
  obtain ⟨pieces', hpieces, hflatten⟩ := hexPieces_ok digest
  obtain rfl := Except.ok.inj (h.symm.trans hpieces)
  exact hflatten

theorem imagePieces_text {img : OtaPackerSection} {pieces : List Text}
    (h : imagePieces img = .ok pieces) :
  pieces.flatten = imageText img
  := by
  obtain ⟨size, hsize, h⟩ := Except.bind_eq_ok_iff.mp h
  obtain ⟨md5, hmd5, h⟩ := Except.bind_eq_ok_iff.mp h
  obtain ⟨crc, hcrc, h⟩ := Except.bind_eq_ok_iff.mp h
  obtain rfl := Except.ok.inj h
  rw [format_text hsize, format_text hcrc]
  simp [imageText, imageLines, hexPieces_text hmd5]

theorem pushImages_text {header header' : HString headerSizeMax} {images : List OtaPackerSection}
    (h : pushImages header images = .ok header') :
  header'.text = header.text ++ images.flatMap imageText
  := by
  induction images generalizing header with
  | nil =>
      cases h
      rw [List.flatMap_nil, List.append_nil]
  | cons img images ih =>
      obtain ⟨pieces, hpieces, h⟩ := Except.bind_eq_ok_iff.mp h
      obtain ⟨header₁, hpush, hrest⟩ := Except.bind_eq_ok_iff.mp h
      rw [ih hrest, pushAll_text hpush, imagePieces_text hpieces, List.flatMap_cons,
        List.append_assoc]

/-- A header that is built has the text that its sections make. -/
theorem buildHeader_text {hasher : Md5Hasher} (hstreams : hasher.Streams) {packer : Packer}
    {header : HString headerSizeMax} (h : buildHeader hasher packer = .ok header) :
  header.text = headerText packer.images (packetMd5 hasher packer.images)
  := by
  obtain ⟨header₁, hfirst, h⟩ := Except.bind_eq_ok_iff.mp h
  obtain ⟨header₂, himages, h⟩ := Except.bind_eq_ok_iff.mp h
  obtain ⟨bsSize, hbs, h⟩ := Except.bind_eq_ok_iff.mp h
  obtain ⟨md5, hmd5, hlast⟩ := Except.bind_eq_ok_iff.mp h
  rw [hstreams] at hmd5
  have hflatten := hexPieces_text hmd5
  have hnum : Text.ofNat blockSize = "131072".toList := by decide +kernel
  have hempty : (HString.new : HString headerSizeMax).text = [] := rfl
  rw [pushAll_text hlast, pushImages_text himages, push_text hfirst, format_text hbs, hnum, hempty,
    headerText_eq, List.nil_append]
  congr 1
  simp [globalLines, hflatten, packetMd5]

/-- Sections that are added are the ones that are packed. -/
theorem addAll_images {hasher : Md5Hasher} {packer packer' : Packer} {inputs : List Input}
    (h : addAll hasher packer inputs = .ok packer') :
  packer'.images = packer.images ++ inputs.map (packed hasher)
  := by
  induction inputs generalizing packer with
  | nil =>
      cases h
      rw [List.map_nil, List.append_nil]
  | cons input inputs ih =>
      obtain ⟨packer₁, hadd, hrest⟩ := Except.bind_eq_ok_iff.mp h
      rw [add, xorCrcImg_crcOf, Except.ok_bind] at hadd
      simp only at hadd
      split at hadd
      · cases hadd
        rw [ih hrest, List.map_cons, List.append_assoc]
        rfl
      · cases hadd

/-! ### What is left in the header -/

/-- The block size that lines set depends on that before them alone. -/
theorem foldl_globalsLine_bsSize (bits : ℕ) {globals globals' : OtaImageGlobals}
    (h : globals.bsSize = globals'.bsSize) (kvs : List (Text × Text)) :
  (kvs.foldl (globalsLine bits) globals).bsSize = (kvs.foldl (globalsLine bits) globals').bsSize
  := by
  induction kvs generalizing globals globals' with
  | nil => exact h
  | cons kv kvs ih =>
      apply ih
      obtain ⟨k, v⟩ := kv
      simp only [globalsLine]
      split
      · simp only [h]
      · split
        · exact h
        · exact h

/-- The digest that lines set is that of the last one, or else that before them. -/
theorem foldl_globalsLine_packetMd5 (bits bsSize : ℕ) (globals : OtaImageGlobals)
    (kvs : List (Text × Text)) :
  (kvs.foldl (globalsLine bits) globals).packetMd5 =
    ((kvs.foldl (globalsLine bits) ⟨bsSize, none, false⟩).packetMd5).or globals.packetMd5
  := by
  induction kvs using List.reverseRecOn with
  | nil => rfl
  | append_singleton kvs kv ih =>
      obtain ⟨k, v⟩ := kv
      rw [List.foldl_append, List.foldl_append]
      simp only [List.foldl_cons, List.foldl_nil, globalsLine]
      split
      · exact ih
      · split
        · rfl
        · exact ih

/-- The globals of a header with something left behind it are set by its lines first. -/
theorem parseGlobals_append {bits : ℕ} (hbits : 32 ≤ bits) {images : List OtaPackerSection}
    (h : ∀ img ∈ images, Readable img) (digest : Bytes) (left : Text) :
  parseGlobals bits (headerText images digest ++ left) =
    (keyValues left).foldl (globalsLine bits) ⟨blockSize, some (hexText digest), false⟩
  := by
  have hheader := parseGlobals_headerText hbits h digest 0
  rw [parseGlobals, keyValues_headerText h, keyValues_nuls, List.append_nil] at hheader
  rw [parseGlobals, keyValues_headerText h, List.foldl_append, hheader]

/-- The block size is the one that is left behind the header, if there is one. -/
theorem bsSize_append {bits : ℕ} (hbits : 32 ≤ bits) {images : List OtaPackerSection}
    (h : ∀ img ∈ images, Readable img) (digest : Bytes) (left : Text) :
  (parseGlobals bits (headerText images digest ++ left)).bsSize = (parseGlobals bits left).bsSize
  := by
  rw [parseGlobals_append hbits h, parseGlobals]
  apply foldl_globalsLine_bsSize
  rfl

/-- The digest of all sections is the one that is left behind the header, if there is one. -/
theorem lastValue_append_left {bits : ℕ} (hbits : 32 ≤ bits) {images : List OtaPackerSection}
    (h : ∀ img ∈ images, Readable img) (digest : Bytes) (left : Text) :
  lastValue "ota_img_packet_md5".toList (headerText images digest ++ left) =
    (lastValue "ota_img_packet_md5".toList left).or (some (hexText digest))
  := by
  rw [← (parseGlobals_packetMd5 bits _).1, ← (parseGlobals_packetMd5 bits left).1,
    parseGlobals_append hbits h, foldl_globalsLine_packetMd5 bits blockSize, parseGlobals]

/-! ### Sections behind others -/

/-- Sections are placed behind others that are all placed. -/
theorem placed_append {len offset : ℕ} {fields : List PartFields}
    (h : (placed len offset fields).length = fields.length) (rest : List PartFields) :
  placed len offset (fields ++ rest) =
      placed len offset fields ++ placed len (placedEnd len offset fields) rest ∧
    placedEnd len offset (fields ++ rest) = placedEnd len (placedEnd len offset fields) rest
  := by
  induction fields generalizing offset with
  | nil => exact ⟨rfl, rfl⟩
  | cons first fields ih =>
      rcases Nat.lt_or_ge len (offset + first.size) with hmisfit | hfit
      · rw [(placed_cons_misfit fields hmisfit).1] at h
        cases h
      · obtain ⟨hplaced, hend⟩ := placed_cons_fit fields hfit
        obtain ⟨hplaced', hend'⟩ := placed_cons_fit (fields ++ rest) hfit
        rw [hplaced, List.length_cons, List.length_cons] at h
        obtain ⟨hrest, hrestEnd⟩ := ih (Nat.succ.inj h)
        rw [List.cons_append, hplaced', hend', hplaced, hend, hrest, hrestEnd]
        exact ⟨rfl, rfl⟩

/-- At the end of a file only a section of no bytes is placed. -/
theorem placed_end_eq_nil {len : ℕ} {rest : List PartFields} :
  placed len len rest = [] ↔ ∀ next ∈ rest.head?, 0 < next.size
  := by
  cases rest with
  | nil => simp [placed]
  | cons next rest =>
      rw [placed]
      split
      · next hfit =>
        have hzero : next.size = 0 := by omega
        simp [hzero]
      · next hmisfit =>
        have hpos : 0 < next.size := by omega
        simp [hpos]

/-- The checks of packed sections pass exactly if their checksums do, in the blocks that are
read. -/
theorem passes_packed_iff (hasher : Md5Hasher) (bsSize : ℕ) {buf before : Bytes}
    {inputs : List Input} (h : buf = before ++ (inputs.map Input.data).flatten) :
  (∀ place ∈ placed buf.length before.length (inputs.map fun input =>
      fieldsOf (packed hasher input)), Passes hasher bsSize buf place) ↔
    ∀ input ∈ inputs, crcOf input.data ≠ 0 → xorCrcImg input.data bsSize = .ok (crcOf input.data)
  := by
  induction inputs generalizing before with
  | nil => simp [placed]
  | cons input inputs ih =>
      have hbuf : buf = before ++ input.data ++ (inputs.map Input.data).flatten := by
        rw [h, List.map_cons, List.flatten_cons, List.append_assoc]
      have hfit : before.length + (fieldsOf (packed hasher input)).size ≤ buf.length := by
        rw [hbuf, List.length_append, List.length_append]
        apply Nat.le_add_right
      have hslice : slice buf before.length (fieldsOf (packed hasher input)).size = input.data := by
        rw [hbuf, slice_append_left]
        · apply slice_append_self
        · rw [List.length_append]
          apply Nat.le_refl
      have hpass : Passes hasher bsSize buf (before.length, fieldsOf (packed hasher input)) ↔
          (crcOf input.data ≠ 0 → xorCrcImg input.data bsSize = .ok (crcOf input.data)) := by
        constructor
        · intro hpasses hne
          have hcrc := hpasses.crc hne
          rwa [hslice] at hcrc
        · intro hcrc
          constructor
          · rw [hslice]
            exact hcrc
          · intro _
            rw [hslice]
            apply parseMd5Hex_hexText
            apply Md5Hasher.length_md5Calc
      have ih := ih hbuf
      rw [List.length_append] at ih
      rw [List.map_cons, (placed_cons_fit _ hfit).1, List.forall_mem_cons, List.forall_mem_cons,
        hpass]
      exact and_congr_right fun _ => ih

/-! ### What can be read -/

/-- A value that is read is written on a line. -/
theorem oneLine_of_lastValue {key text v : Text} (h : lastValue key text = some v) : OneLine v := by
  rw [lastValue, Option.map_eq_some_iff] at h
  obtain ⟨kv, hlast, rfl⟩ := h
  have hkv := (List.mem_filter.mp (List.mem_of_getLast? hlast)).1
  obtain ⟨l, hl, hkeyValue⟩ := List.mem_filterMap.mp hkv
  rw [keyValue, Option.map_eq_some_iff] at hkeyValue
  obtain ⟨⟨k, v⟩, hsplit, rfl⟩ := hkeyValue
  refine ⟨fun hc => ?_, Text.solidStart_trim v, Text.solidEnd_trim v⟩
  have hv : '\n' ∈ l.trim := by
    rw [(Text.splitOnce_eq_some hsplit).1]
    exact List.mem_append_right _ (List.mem_cons_of_mem _ (Text.mem_of_mem_trim hc))
  exact Text.notMem_of_mem_lines hl (Text.mem_of_mem_trim hv)

theorem oneLine_getD {o : Option Text} {d : Text} (h : ∀ v, o = some v → OneLine v)
    (hd : OneLine d) :
  OneLine (o.getD d)
  := by
  cases o with
  | none => exact hd
  | some v => exact h v rfl

/-- The type and the name that are read for a part are written on a line each, and the size has 32
bits. -/
theorem parsePart_writable (part : Text) :
  OneLine (parsePart part).ty ∧ OneLine (parsePart part).name ∧ (parsePart part).size < 2 ^ 32
  := by
  rw [parsePart_eq]
  refine ⟨?_, ?_, ?_⟩
  · apply oneLine_getD fun v => oneLine_of_lastValue
    apply oneLine_of_solid
    decide
  · apply oneLine_getD fun v => oneLine_of_lastValue
    apply oneLine_of_solid
    decide
  · simp only
    cases hsize : (lastValue "img_size".toList part).bind (Text.parseUnsigned 32) with
    | none => exact Nat.two_pow_pos 32
    | some n =>
        obtain ⟨v, -, hv⟩ := Option.bind_eq_some_iff.mp hsize
        exact Text.parseUnsigned_lt hv

/-! ### What is read back -/

/-- The sections that are read back are the ones that were packed. -/
def SameSections (inputs : List Input) (images : List OtaImageSection) : Prop :=
  images.map (fun image => (image.ty, image.name, image.data)) =
    inputs.map fun input => (input.ty, input.name, input.data)

/-- The sections are packed to the same file over both contents, which is read back. -/
def Independent (hasher : Md5Hasher) (bits : ℕ) (packer : Packer) (inputs : List Input)
    (old old' : Bytes) : Prop :=
  ∃ file images globals, pack hasher packer old = .ok file ∧ pack hasher packer old' = .ok file ∧
    parse hasher bits file = .ok (images, globals) ∧ SameSections inputs images

/-- There are sections, and each can be written on lines. -/
def Writable (inputs : List Input) : Prop :=
  inputs ≠ [] ∧ ∀ input ∈ inputs,
    OneLine input.ty ∧ OneLine input.name ∧ input.data.length < 2 ^ 32

/-- The text that is left behind a header does no harm: if there is room for another section, the
first that it declares has bytes, which are not there; the checksums hold in the blocks that it
asks for; and unless it declares a section that is not there, the digest that it declares is that of
all sections. -/
structure Harmless (hasher : Md5Hasher) (bits : ℕ) (packer : Packer) (inputs : List Input)
    (left : Text) : Prop where
  next : inputs.length < maxImages → ∀ next ∈ (leftFields left).head?,
    0 < next.size ∧ outputSize packer + next.size < 2 ^ bits
  crc : ∀ input ∈ inputs, crcOf input.data ≠ 0 →
    xorCrcImg input.data (parseGlobals bits left).bsSize = .ok (crcOf input.data)
  packet : inputs.length = maxImages ∨ leftFields left = [] →
    ∀ v ∈ lastValue "ota_img_packet_md5".toList left,
      parseMd5Hex v = some (hasher.md5Calc (inputs.map Input.data).flatten)

/-- Sections that are placed are declared. -/
theorem mem_of_mem_placed {len offset : ℕ} {fields : List PartFields} {place : ℕ × PartFields}
    (h : place ∈ placed len offset fields) :
  place.2 ∈ fields
  := by
  induction fields generalizing offset with
  | nil => cases h
  | cons first rest ih =>
      rw [placed] at h
      split at h
      · rcases List.mem_cons.mp h with rfl | h
        · exact List.mem_cons_self
        · exact List.mem_cons_of_mem _ (ih h)
      · cases h

/-- What is read back can be written on lines. -/
theorem writable_of_parse {hasher : Md5Hasher} {bits : ℕ} {file : Bytes}
    (hfile : file.length < 2 ^ bits) {images : List OtaImageSection} {globals : OtaImageGlobals}
    (hparse : parse hasher bits file = .ok (images, globals)) {inputs : List Input}
    (hsame : SameSections inputs images) :
  Writable inputs
  := by
  obtain ⟨text, -, hacc, rfl, -⟩ := (parse_iff hfile).mp hparse
  constructor
  · rintro rfl
    apply hacc.placed_ne_nil
    have hlen := congrArg List.length hsame
    rw [List.length_map, List.length_map] at hlen
    exact List.length_eq_zero_iff.mp hlen
  · intro input hinput
    have hmem : (input.ty, input.name, input.data) ∈
        inputs.map fun input => (input.ty, input.name, input.data) := List.mem_map_of_mem hinput
    rw [← hsame, List.map_map] at hmem
    obtain ⟨place, hplace, hread⟩ := List.mem_map.mp hmem
    obtain ⟨part, -, hpart⟩ := List.mem_map.mp (mem_of_mem_placed hplace)
    obtain ⟨hty, hname, hsize⟩ := parsePart_writable part
    rw [hpart] at hty hname hsize
    have hdata : slice file place.1 place.2.size = input.data :=
      congrArg (fun read : Text × Text × Bytes => read.2.2) hread
    have hle : (slice file place.1 place.2.size).length ≤ place.2.size := List.length_take_le _ _
    rw [hdata] at hle
    have htyEq : place.2.ty = input.ty := congrArg (fun read : Text × Text × Bytes => read.1) hread
    have hnameEq : place.2.name = input.name :=
      congrArg (fun read : Text × Text × Bytes => read.2.1) hread
    exact ⟨htyEq ▸ hty, hnameEq ▸ hname, Nat.lt_of_le_of_lt hle hsize⟩

/-- The header of a file is its text, and what is left behind it. -/
theorem decode_left {text : Text} {left data : Bytes}
    (h : text.byteLen + left.length = headerSize) :
  Utf8.decode (headerBytes (Utf8.encode text ++ left ++ data)) =
    (Utf8.decode left).map (text ++ ·)
  := by
  have hlen : (Utf8.encode text ++ left).length = headerSize := by
    rw [List.length_append, Utf8.length_encode, h]
  have hheader : headerBytes (Utf8.encode text ++ left ++ data) = Utf8.encode text ++ left := by
    rw [headerBytes, List.length_append, hlen, Nat.min_eq_left (Nat.le_add_right _ _), ← hlen,
      List.take_left]
  rw [hheader, Utf8.decode_encode_append]

theorem sameSections_unpacked (hasher : Md5Hasher) (offset : ℕ) (inputs : List Input) :
  SameSections inputs (unpacked hasher offset inputs)
  := by
  induction inputs generalizing offset with
  | nil => rfl
  | cons input inputs ih =>
      rw [SameSections, unpacked, List.map_cons, List.map_cons]
      exact congrArg _ (ih _)

theorem Writable.readable {inputs : List Input} (h : Writable inputs) (hasher : Md5Hasher) :
  ∀ img ∈ inputs.map (packed hasher), Readable img
  := by
  intro img himg
  obtain ⟨input, hinput, rfl⟩ := List.mem_map.mp himg
  obtain ⟨hty, hname, hsize⟩ := h.2 input hinput
  exact ⟨hty, hname, hsize⟩

section

variable {hasher : Md5Hasher} {bits : ℕ} {packer : Packer} {inputs : List Input} {file head : Bytes}
  {left : Text}

/-- What the header of a file declares that has a text left behind the header that was packed. -/
theorem declaredFields_left (hwritable : Writable inputs) (hroom : inputs.length ≤ maxImages) :
  declaredFields (headerOf hasher inputs ++ left) =
    inputs.map (fun input => fieldsOf (packed hasher input)) ++
      (leftFields left).take (maxImages - inputs.length)
  := by
  have hlen : ((inputs.map (packed hasher)).map fieldsOf).length = inputs.length := by
    rw [List.length_map, List.length_map]
  rw [headerOf, declaredFields_append (hwritable.readable hasher), List.take_append, hlen,
    List.take_of_length_le (by omega), List.map_map]
  rfl

/-- The digest that is left behind the header is that of all sections, exactly if the one that is
read is. -/
theorem packet_left_iff (hbits : 32 ≤ bits) (hwritable : Writable inputs) :
  (∀ v ∈ lastValue "ota_img_packet_md5".toList (headerOf hasher inputs ++ left),
      parseMd5Hex v = some (hasher.md5Calc (inputs.map Input.data).flatten)) ↔
    ∀ v ∈ lastValue "ota_img_packet_md5".toList left,
      parseMd5Hex v = some (hasher.md5Calc (inputs.map Input.data).flatten)
  := by
  have hdatas : (inputs.map (packed hasher)).map OtaPackerSection.data = inputs.map Input.data :=
    List.map_map
  have hheader : parseMd5Hex (hexText (packetMd5 hasher (inputs.map (packed hasher)))) =
      some (hasher.md5Calc (inputs.map Input.data).flatten) := by
    rw [packetMd5, hdatas]
    apply parseMd5Hex_hexText
    apply Md5Hasher.length_md5Calc
  rw [headerOf, lastValue_append_left hbits (hwritable.readable hasher)]
  cases lastValue "ota_img_packet_md5".toList left with
  | none => simp [hheader]
  | some v => simp

/-- All sections that were packed are placed, up to the end of the file. -/
theorem placed_left (hfile : file = head ++ (inputs.map Input.data).flatten)
    (hhead : head.length = headerSize) (rest : List PartFields) :
  let fields := inputs.map fun input => fieldsOf (packed hasher input)
  (placed file.length headerSize fields).length = fields.length ∧
    placed file.length headerSize (fields ++ rest) =
      placed file.length headerSize fields ++ placed file.length file.length rest ∧
    placedEnd file.length headerSize (fields ++ rest) = placedEnd file.length file.length rest ∧
    (placed file.length headerSize fields).map (imageAt file) = unpacked hasher headerSize inputs
  := by
  obtain ⟨hlen, hmap, -⟩ := placed_packed hasher hfile
  rw [hhead] at hlen hmap
  have hall : (placed file.length headerSize
      (inputs.map fun input => fieldsOf (packed hasher input))).length =
      (inputs.map fun input => fieldsOf (packed hasher input)).length := by
    rw [hlen, List.length_map]
  have hsizes : (inputs.map fun input => fieldsOf (packed hasher input)).map PartFields.size =
      (inputs.map Input.data).map List.length := by
    rw [List.map_map, List.map_map]
    rfl
  have hend : placedEnd file.length headerSize
      (inputs.map fun input => fieldsOf (packed hasher input)) = file.length := by
    rw [placedEnd_all hall, hsizes, ← List.length_flatten, ← hhead, ← List.length_append, ← hfile]
  obtain ⟨happend, happendEnd⟩ := placed_append hall rest
  rw [hend] at happend happendEnd
  exact ⟨hall, happend, happendEnd, hmap⟩

/-- A file is accepted as the sections that were packed exactly if what is left behind its header
does no harm. -/
theorem accepted_left_iff (hbits : 32 ≤ bits) (hwritable : Writable inputs)
    (hroom : inputs.length ≤ maxImages) (hfile : file = head ++ (inputs.map Input.data).flatten)
    (hhead : head.length = headerSize) (hsize : outputSize packer = file.length) :
  (Accepted hasher bits file (headerOf hasher inputs ++ left) ∧
      SameSections inputs ((placed file.length headerSize
        (declaredFields (headerOf hasher inputs ++ left))).map (imageAt file))) ↔
    Harmless hasher bits packer inputs left
  := by
  obtain ⟨rest, hrest⟩ : ∃ rest, rest = (leftFields left).take (maxImages - inputs.length) :=
    ⟨_, rfl⟩
  obtain ⟨hall, happend, hend, hmap⟩ := @placed_left hasher inputs file head hfile hhead rest
  have hfields := @declaredFields_left hasher inputs left hwritable hroom
  rw [← hrest] at hfields
  have hpacket := @packet_left_iff hasher bits inputs left hbits hwritable
  have hpasses := passes_packed_iff hasher (parseGlobals bits left).bsSize hfile
  rw [hhead] at hpasses
  have hbs : (parseGlobals bits (headerOf hasher inputs ++ left)).bsSize =
      (parseGlobals bits left).bsSize := bsSize_append hbits (hwritable.readable hasher) _ left
  have hslice : slice file headerSize (file.length - headerSize) =
      (inputs.map Input.data).flatten := by
    rw [hfile, ← hhead, List.length_append, Nat.add_sub_cancel_left, slice_append_self]
  have hhead? : rest.head? =
      if maxImages - inputs.length = 0 then none else (leftFields left).head? := by
    rw [hrest, List.head?_take]
  have hnil : rest = [] ↔ inputs.length = maxImages ∨ leftFields left = [] := by
    rw [hrest, List.take_eq_nil_iff]
    exact or_congr (by omega) Iff.rfl
  generalize inputs.map (fun input => fieldsOf (packed hasher input)) = fields at *
  have hsame : SameSections inputs ((placed file.length headerSize (fields ++ rest)).map
      (imageAt file)) ↔ placed file.length file.length rest = [] := by
    rw [happend, List.map_append, hmap]
    constructor
    · intro hsame
      have hlen := congrArg List.length hsame
      have hlen' := congrArg List.length (sameSections_unpacked hasher headerSize inputs)
      rw [List.length_map] at hlen hlen'
      rw [List.length_append, List.length_map, ← hlen'] at hlen
      exact List.length_eq_zero_iff.mp (by omega)
    · intro hplaced
      rw [hplaced, List.map_nil, List.append_nil]
      apply sameSections_unpacked
  have hmisfit (hplaced : placed file.length file.length rest = []) :
      placed file.length headerSize (fields ++ rest) = placed file.length headerSize fields ∧
        placedEnd file.length headerSize (fields ++ rest) = file.length := by
    rw [happend, hend, placedEnd, hplaced, List.append_nil]
    exact ⟨rfl, rfl⟩
  rw [hfields, hsame]
  constructor
  · rintro ⟨⟨-, hchecks, hno, hdigest⟩, hplaced⟩
    obtain ⟨hall', hend'⟩ := hmisfit hplaced
    rw [hfields] at hchecks hno hdigest
    rw [hall'] at hchecks hdigest
    rw [NoOverflow, hall', hall, List.drop_left, hend'] at hno
    constructor
    · intro hlt next hnext
      rw [if_neg (by omega)] at hhead?
      rw [← hhead?] at hnext
      refine ⟨placed_end_eq_nil.mp hplaced next hnext, ?_⟩
      rw [hsize]
      exact hno next hnext
    · rw [hbs] at hchecks
      exact hpasses.mp hchecks
    · intro hdone
      rw [hend', hslice, hnil.mpr hdone, List.append_nil] at hdigest
      exact hpacket.mp (hdigest hall)
  · rintro ⟨hnext, hcrc, hdigest⟩
    have hnext' : ∀ next ∈ rest.head?, 0 < next.size ∧ file.length + next.size < 2 ^ bits := by
      intro next hmem
      rw [hhead?] at hmem
      split at hmem
      · cases hmem
      · next hlt =>
        rw [← hsize]
        exact hnext (by omega) next hmem
    have hplaced : placed file.length file.length rest = [] :=
      placed_end_eq_nil.mpr fun next hmem => (hnext' next hmem).1
    obtain ⟨hall', hend'⟩ := hmisfit hplaced
    refine ⟨⟨?_, ?_, ?_, ?_⟩, hplaced⟩
    · rw [hfields, hall']
      intro hempty
      have hlen := congrArg List.length hmap
      rw [hempty] at hlen
      have hsections := congrArg List.length (sameSections_unpacked hasher headerSize inputs)
      rw [List.length_map, List.length_map, ← hlen] at hsections
      exact hwritable.1 (List.length_eq_zero_iff.mp hsections.symm)
    · rw [hfields, hall', hbs]
      exact hpasses.mpr hcrc
    · rw [hfields, NoOverflow, hall', hall, List.drop_left, hend']
      exact fun next hmem => (hnext' next hmem).2
    · intro hdone
      rw [hfields, hall', hall, List.length_append] at hdone
      have hnone : rest = [] := List.length_eq_zero_iff.mp (by omega)
      rw [hfields, hend', hslice]
      exact hpacket.mpr (hdigest (hnil.mp hnone))

end

/-- What is packed does not depend on what the output had before exactly if what stays of it behind
the header is the same text, which does no harm. -/
theorem independent_iff {hasher : Md5Hasher} (hstreams : hasher.Streams) {bits : ℕ}
    (hbits : 32 ≤ bits) {inputs : List Input} {packer : Packer}
    (hadd : addAll hasher new inputs = .ok packer) {header : HString headerSizeMax}
    (hheader : buildHeader hasher packer = .ok header) (hsize : outputSize packer < 2 ^ bits)
    {old old' : Bytes} (hold : old.length = outputSize packer)
    (hold' : old'.length = outputSize packer) :
  Independent hasher bits packer inputs old old' ↔
    leftover header.text old = leftover header.text old' ∧ Writable inputs ∧
      ∃ left, Utf8.decode (leftover header.text old) = some left ∧
        Harmless hasher bits packer inputs left
  := by
  have himages : packer.images = inputs.map (packed hasher) := addAll_images hadd
  have hroom : inputs.length ≤ maxImages := by
    have hle := packer.room
    rwa [himages, List.length_map] at hle
  have htext : header.text = headerOf hasher inputs := by
    rw [buildHeader_text hstreams hheader, himages, headerOf]
  have hfits : header.text.byteLen ≤ headerSize := Nat.le_trans header.fits (by decide)
  have hdatas : packer.images.map OtaPackerSection.data = inputs.map Input.data := by
    rw [himages, List.map_map]
    rfl
  have hpack := pack_over hheader hold
  have hpack' := pack_over hheader hold'
  rw [hdatas] at hpack hpack'
  have hleftLen : header.text.byteLen + (leftover header.text old).length = headerSize := by
    rw [leftover, length_slice]
    · omega
    · rw [hold, outputSize]
      omega
  generalize leftover header.text old = left at *
  generalize leftover header.text old' = left' at *
  have hhead : (Utf8.encode header.text ++ left).length = headerSize := by
    rw [List.length_append, Utf8.length_encode, hleftLen]
  have hdecode := @decode_left header.text left (inputs.map Input.data).flatten hleftLen
  generalize hfile : Utf8.encode header.text ++ left ++ (inputs.map Input.data).flatten = file at *
  have hlength : outputSize packer = file.length := by
    rw [← hfile, List.length_append, hhead, outputSize, List.length_flatten, ← hdatas,
      List.map_map]
    rfl
  rw [hlength] at hsize
  have haccepted (text : Text) (hwritable : Writable inputs) :=
    @accepted_left_iff hasher bits packer inputs file _ text hbits hwritable hroom hfile.symm hhead
      hlength
  constructor
  · rintro ⟨file₁, images, globals, hok, hok', hparse, hsame⟩
    obtain rfl := Except.ok.inj (hpack.symm.trans hok)
    have hwritable := writable_of_parse hsize hparse hsame
    obtain ⟨text, htext', hacc, rfl, -⟩ := (parse_iff hsize).mp hparse
    rw [hdecode] at htext'
    obtain ⟨leftText, hleftText, rfl⟩ := Option.map_eq_some_iff.mp htext'
    rw [htext] at hacc hsame
    refine ⟨?_, hwritable, leftText, hleftText, (haccepted leftText hwritable).mp ⟨hacc, hsame⟩⟩
    have hsameFile := Except.ok.inj (hpack'.symm.trans hok')
    rw [← hfile] at hsameFile
    exact (List.append_cancel_left (List.append_cancel_right hsameFile)).symm
  · rintro ⟨rfl, hwritable, leftText, hleftText, hharmless⟩
    obtain ⟨hacc, hsame⟩ := (haccepted leftText hwritable).mpr hharmless
    rw [← htext] at hacc hsame
    rw [hfile] at hpack'
    refine ⟨file, _, _, hpack, hpack', (parse_iff hsize).mpr ⟨_, ?_, hacc, rfl, rfl⟩, hsame⟩
    rw [hdecode, hleftText]
    rfl

/-- NULs do no harm. -/
theorem harmless_nuls (hasher : Md5Hasher) (bits : ℕ) (packer : Packer) (inputs : List Input)
    (n : ℕ) :
  Harmless hasher bits packer inputs (List.replicate n '\x00')
  := by
  constructor
  · intro _ next hnext
    rw [leftFields_nuls] at hnext
    cases hnext
  · intro input _ _
    rw [parseGlobals, keyValues_nuls]
    apply xorCrcImg_crcOf
  · intro _ v hv
    rw [lastValue, keyValues_nuls] at hv
    cases hv

theorem leftover_replicate {text : Text} {packer : Packer} (b : UInt8) :
  leftover text (List.replicate (outputSize packer) b) =
    List.replicate (headerSize - text.byteLen) b
  := by
  rw [leftover, slice, List.drop_replicate, List.take_replicate, outputSize]
  congr 1
  omega

/-- The packer of two sections, and their header. -/
theorem pack_twoInputs :
  ∃ packer header, addAll .rfc1321 new twoInputs = .ok packer ∧
    buildHeader .rfc1321 packer = .ok header ∧ outputSize packer < 2 ^ 64
  := by
  obtain ⟨packer, hadd, himages⟩ := addAll_ok .rfc1321 new (show 0 + twoInputs.length ≤ maxImages by
    decide)
  change packer.images = twoInputs.map (packed .rfc1321) at himages
  have hsizes : ∀ img ∈ packer.images, img.data.length < 2 ^ 32 := by
    rw [himages]
    decide
  have hheader : (headerOf .rfc1321 twoInputs).byteLen ≤ headerSizeMax := by decide +kernel
  rw [headerOf, ← himages] at hheader
  obtain ⟨header, hbuild, -⟩ := buildHeader_ok Md5Hasher.rfc1321_streams hsizes hheader
  refine ⟨packer, header, hadd, hbuild, ?_⟩
  rw [outputSize, himages]
  decide

theorem writable_twoInputs : Writable twoInputs := by
  refine ⟨List.cons_ne_nil _ _, ?_⟩
  unfold OneLine
  decide +kernel

/-- Two sections are packed over zeros as over what has ones behind the header. -/
theorem independent_twoInputs :
  ∃ packer, addAll .rfc1321 new twoInputs = .ok packer ∧
    Independent .rfc1321 64 packer twoInputs (List.replicate (outputSize packer) 0)
      (List.replicate headerSize 0 ++ List.replicate (outputSize packer - headerSize) 1)
  := by
  obtain ⟨packer, header, hadd, hbuild, hsize⟩ := pack_twoInputs
  have hfits : header.text.byteLen ≤ headerSize := Nat.le_trans header.fits (by decide)
  have hleft : leftover header.text (List.replicate headerSize 0 ++
      List.replicate (outputSize packer - headerSize) 1) =
      List.replicate (headerSize - header.text.byteLen) 0 := by
    have hinside : header.text.byteLen + (headerSize - header.text.byteLen) ≤
        (List.replicate headerSize (0 : UInt8)).length := by
      rw [List.length_replicate]
      omega
    rw [leftover, slice_append_left _ hinside, slice, List.drop_replicate, List.take_replicate,
      Nat.min_self]
  refine ⟨packer, hadd, ?_⟩
  apply (independent_iff Md5Hasher.rfc1321_streams (by decide) hadd hbuild hsize
    List.length_replicate ?_).mpr
  · rw [leftover_replicate, hleft]
    refine ⟨rfl, writable_twoInputs, _, ?_,
      harmless_nuls _ _ _ _ (headerSize - header.text.byteLen)⟩
    rw [← Utf8.encode_nuls, Utf8.decode_encode]
  · rw [List.length_append, List.length_replicate, List.length_replicate, outputSize]
    omega

/-- The bytes of an erased flash stay behind the header. -/
theorem not_independent :
  ¬ ∀ (inputs : List Input) (packer : Packer) (header : HString headerSizeMax),
    addAll .rfc1321 new inputs = .ok packer → buildHeader .rfc1321 packer = .ok header →
    Writable inputs → outputSize packer < 2 ^ 64 → ∀ old old' : Bytes,
    old.length = outputSize packer → old'.length = outputSize packer →
      Independent .rfc1321 64 packer inputs old old'
  := by
  intro h
  obtain ⟨packer, header, hadd, hbuild, hsize⟩ := pack_twoInputs
  have hindependent := h twoInputs packer header hadd hbuild writable_twoInputs hsize
    (List.replicate (outputSize packer) 0) (List.replicate (outputSize packer) 255)
    List.length_replicate List.length_replicate
  have hleft := ((independent_iff Md5Hasher.rfc1321_streams (by decide) hadd hbuild hsize
    List.length_replicate List.length_replicate).mp hindependent).1
  rw [leftover_replicate, leftover_replicate] at hleft
  have hfits : header.text.byteLen ≤ 8192 := header.fits
  have hpos : 0 < headerSize - header.text.byteLen := by
    have hroom : headerSize = 131072 := rfl
    omega
  obtain ⟨n, hn⟩ := Nat.exists_eq_succ_of_ne_zero (Nat.ne_of_gt hpos)
  rw [hn, List.replicate_succ, List.replicate_succ] at hleft
  exact absurd (List.cons.inj hleft).1 (by decide)

end OtaPacker

import CatplayFirmware.Otalib.Mini.Ota

/-!
# When reading an update file comes back

The parser of update files takes the block size, the sizes of the sections and the digest of
all sections from the text of the header. There are three things that keep it from coming
back: a block size of zero where the checksum of a section with bytes is compared, a section
whose end is no `usize`, and a digest of all sections in a file that ends before its header
does and declares no section.
-/

namespace Crc

open Bytes

/-- One round of the loop of `xor_crc_img` that panics where the end of a block is no `usize`
of `bits` bits. -/
def xorCrcRoundChecked (bits : ℕ) (data : Bytes) (bsSize : ℕ) (st : UInt32 × ℕ) :
    (UInt32 × ℕ) ⊕ Outcome Text UInt32 :=
  let (crcTotal, off) := st
  if off < data.length then
    if 2 ^ bits ≤ off + bsSize then .inr .panics
    else
      let stop := min (off + bsSize) data.length
      .inl (crcTotal ^^^ cksumCrc32 (slice data off (stop - off)), stop)
  else .inr (.ok crcTotal)

/-- `xor_crc_img` with the additions checked. -/
def xorCrcImgChecked (bits : ℕ) (data : Bytes) (bsSize : ℕ) : Outcome Text UInt32 :=
  match Loop.iterate (xorCrcRoundChecked bits data bsSize) (data.length + 1) (0, 0) with
  | some crc => crc
  | none => .diverges

/-- The blocks of a section that is less than half of the address space end in range: the
first begins at the start, and there is another only when they are smaller than the section. -/
theorem iterate_xorCrcRoundChecked {bits : ℕ} {data : Bytes} {bsSize : ℕ}
    (hbs : bsSize < 2 ^ bits) (hdata : 2 * data.length < 2 ^ bits) (n : ℕ) (crcTotal : UInt32)
    {off : ℕ} (hoff : off = 0 ∨ bsSize < data.length ∨ data.length ≤ off) :
  Loop.iterate (xorCrcRoundChecked bits data bsSize) n (crcTotal, off) =
    (Loop.iterate (xorCrcRound data bsSize) n (crcTotal, off)).map Except.ok
  := by
  induction n generalizing crcTotal off with
  | zero => rfl
  | succ n ih =>
      by_cases hlt : off < data.length
      · have hinRange : ¬ 2 ^ bits ≤ off + bsSize := by omega
        rw [Loop.iterate, Loop.iterate, xorCrcRoundChecked, xorCrcRound]
        simp only [if_pos hlt, if_neg hinRange]
        apply ih
        omega
      · rw [Loop.iterate, Loop.iterate, xorCrcRoundChecked, xorCrcRound]
        simp only [if_neg hlt, Option.map_some]

theorem xorCrcImgChecked_eq {bits : ℕ} {data : Bytes} {bsSize : ℕ} (hbs : bsSize < 2 ^ bits)
    (hdata : 2 * data.length < 2 ^ bits) :
  xorCrcImgChecked bits data bsSize = xorCrcImg data bsSize
  := by
  rw [xorCrcImgChecked, iterate_xorCrcRoundChecked hbs hdata _ _ (Or.inl rfl), xorCrcImg]
  cases Loop.iterate (xorCrcRound data bsSize) (data.length + 1) (0, 0) with
  | none => rfl
  | some crc => rfl

end Crc

namespace Ota

open Bytes Crc Md5 Outcome

/-- The block size that a header declares: the value of the last of its `bs_size` lines that
has a numeral of `bits` bits. -/
def declaredBlockSize (bits : ℕ) (text : Text) : Option ℕ :=
  (((keyValues text).filter fun kv => kv.1 == "bs_size".toList).filterMap
    fun kv => Text.parseUnsigned bits kv.2).getLast?

/-- Reading a file comes back with a value or an error, and where the checksum of a section is
compared no end of a block leaves the range of `usize`. -/
structure Total (hasher : Md5Hasher) (bits : ℕ) (buf : Bytes) : Prop where
  settles : (parse hasher bits buf).Settles
  inRange : ∀ text, Utf8.decode (headerBytes buf) = some text →
    ∀ place ∈ placed buf.length headerSize (declaredFields text), place.2.crc ≠ 0 →
      xorCrcImgChecked bits (slice buf place.1 place.2.size) (parseGlobals bits text).bsSize =
        xorCrcImg (slice buf place.1 place.2.size) (parseGlobals bits text).bsSize

/-- A header that brings no harm: blocks of no bytes are declared only where no checksum of a
section with bytes is compared, the first section that does not fit has an end in range, and a
digest of all sections is declared beside a section or in a file that has all of its header. -/
structure Harmless (bits : ℕ) (buf : Bytes) (text : Text) : Prop where
  blocks : declaredBlockSize bits text = some 0 →
    ∀ place ∈ placed buf.length headerSize (declaredFields text), place.2.crc ≠ 0 →
      place.2.size = 0
  noOverflow : NoOverflow bits buf.length headerSize (declaredFields text)
  packet : lastValue "ota_img_packet_md5".toList text ≠ none → declaredParts text = [] →
    headerSize ≤ buf.length

/-! ### The block size -/

/-- The block size that is read is the one declared, or the default. -/
theorem parseGlobals_bsSize (bits : ℕ) (text : Text) :
  (parseGlobals bits text).bsSize = (declaredBlockSize bits text).getD blockSize
  := by
  unfold parseGlobals declaredBlockSize
  induction keyValues text using List.reverseRecOn with
  | nil => rfl
  | append_singleton kvs kv ih =>
      obtain ⟨k, v⟩ := kv
      rw [List.foldl_append, List.filter_append, List.filterMap_append]
      simp only [List.foldl_cons, List.foldl_nil, globalsLine]
      split
      · next hkey =>
        subst hkey
        cases hv : Text.parseUnsigned bits v with
        | none => simpa [hv] using ih
        | some n => simp [hv]
      · next hkey =>
        have hskip : [(k, v)].filter (fun kv => kv.1 == "bs_size".toList) = [] := by
          rw [List.filter_eq_nil_iff]
          intro kv hkv
          rw [List.mem_singleton.mp hkv, beq_iff_eq]
          exact hkey
        rw [hskip, List.filterMap_nil, List.append_nil]
        split
        · exact ih
        · exact ih

theorem bsSize_lt {bits : ℕ} (hbits : blockSize < 2 ^ bits) (text : Text) :
  (parseGlobals bits text).bsSize < 2 ^ bits
  := by
  rw [parseGlobals_bsSize]
  cases hdeclared : declaredBlockSize bits text with
  | none => exact hbits
  | some n =>
      obtain ⟨kv, -, hkv⟩ := List.mem_filterMap.mp (List.mem_of_getLast? hdeclared)
      apply Text.parseUnsigned_lt hkv

theorem bsSize_eq_zero_iff {bits : ℕ} {text : Text} :
  (parseGlobals bits text).bsSize = 0 ↔ declaredBlockSize bits text = some 0
  := by
  rw [parseGlobals_bsSize]
  cases declaredBlockSize bits text with
  | none => simp [blockSize]
  | some n => simp

/-! ### Sections -/

/-- A section is read unless its checksum is compared in blocks of no bytes. -/
theorem exists_readSection {hasher : Md5Hasher} {bsSize : ℕ} {fields : PartFields} {offset : ℕ}
    {data : Bytes} (h : bsSize = 0 → fields.crc ≠ 0 → data = []) :
  ∃ image, readSection hasher bsSize fields offset data = .ok image
  := by
  obtain ⟨crcFail, hcrcFail⟩ : ∃ crcFail, crcFails bsSize fields.crc data = .ok crcFail := by
    rw [crcFails]
    split
    · next hcrc =>
      rcases Nat.eq_zero_or_pos bsSize with hzero | hpos
      · rw [h hzero hcrc]
        use decide (0 ≠ fields.crc)
        rfl
      · obtain ⟨found, hfound⟩ := xorCrcImg_ok data hpos
        use decide (found ≠ fields.crc)
        rw [hfound]
        rfl
    · use false
  use ⟨fields.ty, fields.name, fields.size, fields.md5, fields.crc, offset, data, crcFail,
    md5Fails hasher fields.md5 data⟩
  rw [readSection, hcrcFail]
  rfl

theorem readSection_diverges {hasher : Md5Hasher} {fields : PartFields} {offset : ℕ}
    {data : Bytes} (hcrc : fields.crc ≠ 0) (hdata : data ≠ []) :
  readSection hasher 0 fields offset data = .diverges
  := by
  rw [readSection, crcFails, if_pos hcrc, (xorCrcImg_zero hdata).1]
  rfl

theorem slice_eq_nil_iff {buf : Bytes} {offset size : ℕ} (h : offset + size ≤ buf.length) :
  slice buf offset size = [] ↔ size = 0
  := by
  rw [← List.length_eq_zero_iff, length_slice h]

/-- The loop over the parts ends exactly when no section that is placed has its checksum
compared in blocks of no bytes, and the first that is not placed has an end in range. -/
theorem parseParts_settles_iff {hasher : Md5Hasher} {bits bsSize : ℕ} {buf : Bytes}
    (hbuf : buf.length < 2 ^ bits) {parts : List Text} {images : List OtaImageSection}
    {offset : ℕ} :
  Settles (parseParts hasher bits bsSize buf parts images offset) ↔
    (∀ place ∈ placed buf.length offset (fieldsLeft parts images.length),
      bsSize = 0 → place.2.crc ≠ 0 → place.2.size = 0) ∧
    NoOverflow bits buf.length offset (fieldsLeft parts images.length)
  := by
  have hend (images : List OtaImageSection) (offset : ℕ) :
      Settles (.ok ⟨images, offset, false⟩ : Outcome Text LoopEnd) ↔
        (∀ place ∈ placed buf.length offset [],
          bsSize = 0 → place.2.crc ≠ 0 → place.2.size = 0) ∧
        NoOverflow bits buf.length offset [] := by
    simp [placed, NoOverflow, settles_ok]
  induction parts generalizing images offset with
  | nil =>
      rw [parseParts, fieldsLeft_nil]
      apply hend
  | cons part parts ih =>
      rw [parseParts]
      split
      · next hfull =>
        rw [fieldsLeft_full _ hfull]
        apply hend
      · next hroom =>
        split
        · next himage =>
          rw [fieldsLeft_image _ (by omega) himage]
          simp only
          split
          · next hoverflow =>
            rw [noOverflow_cons_misfit (by omega)]
            constructor
            · intro h
              exact absurd h not_settles_panics
            · rintro ⟨-, hinRange⟩
              omega
          · split
            · next hmisfit =>
              rw [noOverflow_cons_misfit hmisfit, (placed_cons_misfit _ hmisfit).1]
              constructor
              · intro _
                exact ⟨by simp, by omega⟩
              · intro _
                apply settles_ok
            · next hfit =>
              have hfit := Nat.not_lt.mp hfit
              have hlen (image : OtaImageSection) :
                  (images ++ [image]).length = images.length + 1 := by
                simp
              rw [noOverflow_cons_fit hfit, (placed_cons_fit _ hfit).1, List.forall_mem_cons]
              by_cases hblocks : bsSize = 0 → (parsePart part).crc ≠ 0 → (parsePart part).size = 0
              · obtain ⟨image, hread⟩ : ∃ image, readSection hasher bsSize (parsePart part) offset
                    (slice buf offset (parsePart part).size) = .ok image := by
                  apply exists_readSection
                  rw [slice_eq_nil_iff hfit]
                  exact hblocks
                rw [hread, Except.ok_bind]
                apply Iff.trans ih
                rw [hlen]
                constructor
                · rintro ⟨hrest, hno⟩
                  exact ⟨⟨hblocks, hrest⟩, hno⟩
                · rintro ⟨⟨-, hrest⟩, hno⟩
                  exact ⟨hrest, hno⟩
              · constructor
                · intro h
                  push Not at hblocks
                  obtain ⟨rfl, hcrc, hsize⟩ := hblocks
                  rw [readSection_diverges hcrc ((slice_eq_nil_iff hfit).not.mpr hsize)] at h
                  exact absurd h not_settles_diverges
                · rintro ⟨⟨hfirst, -⟩, -⟩
                  exact absurd hfirst hblocks
        · next himage =>
          rw [fieldsLeft_skip himage]
          apply ih

/-- Where the loop over the parts ends. -/
theorem parseParts_stop {hasher : Md5Hasher} {bits bsSize : ℕ} {buf : Bytes} {parts : List Text}
    {images : List OtaImageSection} {offset : ℕ} {stop : LoopEnd}
    (h : parseParts hasher bits bsSize buf parts images offset = .ok stop) :
  stop.offset = placedEnd buf.length offset (fieldsLeft parts images.length) ∧
    (stop.returned = true ↔ (placed buf.length offset (fieldsLeft parts images.length)).length <
      (fieldsLeft parts images.length).length)
  := by
  induction parts generalizing images offset with
  | nil =>
      rw [parseParts] at h
      obtain rfl := Except.ok.inj h
      simp [fieldsLeft_nil, placed, placedEnd]
  | cons part parts ih =>
      rw [parseParts] at h
      split at h
      · next hfull =>
        obtain rfl := Except.ok.inj h
        simp [fieldsLeft_full _ hfull, placed, placedEnd]
      · next hroom =>
        split at h
        · next himage =>
          rw [fieldsLeft_image _ (by omega) himage]
          simp only at h
          split at h
          · cases h
          · split at h
            · next hmisfit =>
              obtain rfl := Except.ok.inj h
              obtain ⟨hplaced, hend⟩ :=
                placed_cons_misfit (fieldsLeft parts (images.length + 1)) hmisfit
              simp [hplaced, hend]
            · next hfit =>
              obtain ⟨hplaced, hend⟩ := placed_cons_fit
                (fieldsLeft parts (images.length + 1)) (Nat.not_lt.mp hfit)
              obtain ⟨image, -, hrest⟩ := Except.bind_eq_ok_iff.mp h
              have hrest := ih hrest
              simp only [List.length_append, List.length_singleton] at hrest
              rw [hplaced, hend]
              simpa using hrest
        · next himage =>
          rw [fieldsLeft_skip himage]
          apply ih h

/-! ### The parser -/

theorem checkPacket_settles_iff {hasher : Md5Hasher} {buf : Bytes} {offset : ℕ}
    {globals : OtaImageGlobals} :
  Settles (checkPacket hasher buf offset globals) ↔
    (globals.packetMd5 ≠ none → offset ≤ buf.length)
  := by
  rw [checkPacket]
  split
  · next hnone => simp [hnone, settles_ok]
  · next v hsome =>
    split
    · next hshort =>
      constructor
      · intro h
        exact absurd h not_settles_panics
      · intro h
        have hle := h (by simp [hsome])
        omega
    · next hlong =>
      constructor
      · intro _ _
        omega
      · intro _
        simp only
        split
        · apply settles_ok
        · apply settles_ok

theorem checkImages_settles (images : List OtaImageSection) : Settles (checkImages images) := by
  induction images with
  | nil => apply settles_ok
  | cons image images ih =>
      rw [checkImages]
      split
      · apply settles_fail
      · split
        · apply settles_fail
        · exact ih

theorem parse_settles_iff_parseOta {hasher : Md5Hasher} {bits : ℕ} {buf : Bytes} :
  Settles (parse hasher bits buf) ↔ Settles (parseOta hasher bits buf)
  := by
  constructor
  · apply Settles.of_bind
  · intro h
    apply h.bind
    rintro ⟨images, globals⟩ -
    simp only
    split
    · apply settles_fail
    · apply (checkImages_settles images).bind
      intro _ _
      split
      · apply settles_fail
      · apply settles_ok

theorem parseParts_noImages {hasher : Md5Hasher} {bits bsSize : ℕ} {buf : Bytes}
    {parts : List Text} (hparts : ∀ part ∈ parts, ¬ isImage part = true)
    (images : List OtaImageSection) (offset : ℕ) :
  parseParts hasher bits bsSize buf parts images offset = .ok ⟨images, offset, false⟩
  := by
  induction parts with
  | nil => rw [parseParts]
  | cons part parts ih =>
      rw [parseParts, if_neg (hparts part List.mem_cons_self)]
      split
      · rfl
      · apply ih fun part' hpart' => hparts part' (List.mem_cons_of_mem _ hpart')

theorem declaredParts_eq_nil_iff {text : Text} :
  declaredParts text = [] ↔ ∀ part ∈ Text.splitStr "\n\n".toList text, ¬ isImage part = true
  := by
  rw [declaredParts, List.take_eq_nil_iff, List.filter_eq_nil_iff]
  simp [maxImages]

/-- Where all sections are placed, the digest of all of them ends inside the file, or there is
no section. -/
theorem placedEnd_le_of_all {buf : Bytes} {text : Text}
    (hall : (declaredFields text).length ≤
      (placed buf.length headerSize (declaredFields text)).length)
    (hnone : declaredParts text = [] → headerSize ≤ buf.length) :
  placedEnd buf.length headerSize (declaredFields text) ≤ buf.length
  := by
  by_cases hplaced : placed buf.length headerSize (declaredFields text) = []
  · rw [placedEnd, hplaced]
    rw [hplaced, List.length_nil, Nat.le_zero, declaredFields, List.length_map] at hall
    apply hnone (List.length_eq_zero_iff.mp hall)
  · apply placedEnd_le hplaced

theorem parseOta_settles_iff {hasher : Md5Hasher} {bits : ℕ} {buf : Bytes}
    (hbuf : buf.length < 2 ^ bits) :
  Settles (parseOta hasher bits buf) ↔
    ∀ text, Utf8.decode (headerBytes buf) = some text → Harmless bits buf text
  := by
  rw [parseOta]
  cases htext : Utf8.decode (headerBytes buf) with
  | none =>
      constructor
      · intro _ text' hnone
        cases hnone
      · intro _
        apply settles_ok
  | some text =>
      have hglobals := (parseGlobals_packetMd5 bits text).1
      have hparts : Settles (parseParts hasher bits (parseGlobals bits text).bsSize buf
            (Text.splitStr "\n\n".toList text) [] headerSize) ↔
          (∀ place ∈ placed buf.length headerSize (declaredFields text),
            (parseGlobals bits text).bsSize = 0 → place.2.crc ≠ 0 → place.2.size = 0) ∧
          NoOverflow bits buf.length headerSize (declaredFields text) :=
        parseParts_settles_iff hbuf
      simp only
      constructor
      · intro h text' hsome
        obtain rfl := Option.some.inj hsome
        obtain ⟨hblocks, hno⟩ := hparts.mp h.of_bind
        constructor
        · intro hzero place hplace
          apply hblocks place hplace (bsSize_eq_zero_iff.mpr hzero)
        · exact hno
        · intro hdeclared hnone
          rw [parseParts_noImages (declaredParts_eq_nil_iff.mp hnone), Except.ok_bind,
            if_neg Bool.false_ne_true] at h
          apply checkPacket_settles_iff.mp h.of_bind
          rw [hglobals]
          exact hdeclared
      · intro h
        obtain ⟨hblocks, hno, hpacket⟩ := h text rfl
        have hloop := hparts.mpr ⟨fun place hplace hzero =>
          hblocks (bsSize_eq_zero_iff.mp hzero) place hplace, hno⟩
        apply hloop.bind
        intro stop hstop
        obtain ⟨hend, hreturned⟩ := parseParts_stop hstop
        rw [List.length_nil, fieldsLeft_zero] at hend hreturned
        split
        · apply settles_ok
        · next hrunThrough =>
          rw [hreturned, Nat.not_lt] at hrunThrough
          have hcheck : Settles (checkPacket hasher buf stop.offset (parseGlobals bits text)) := by
            rw [checkPacket_settles_iff, hglobals, hend]
            intro hdeclared
            apply placedEnd_le_of_all hrunThrough (hpacket hdeclared)
          apply hcheck.bind
          intro globals _
          apply settles_ok

/-- Reading a file comes back, with every addition in range, exactly when its header is no
text or brings no harm. The length of a file in memory is at most half of the address space. -/
theorem total_iff (hasher : Md5Hasher) {bits : ℕ} (hbits : bits = 32 ∨ bits = 64) {buf : Bytes}
    (hbuf : buf.length < 2 ^ (bits - 1)) :
  Total hasher bits buf ↔
    ∀ text, Utf8.decode (headerBytes buf) = some text → Harmless bits buf text
  := by
  have hhalf : 2 * buf.length < 2 ^ bits := by
    rcases hbits with rfl | rfl
    · omega
    · omega
  have hblock : blockSize < 2 ^ bits := by
    rcases hbits with rfl | rfl
    · decide
    · decide
  rw [← @parseOta_settles_iff hasher _ _ (by omega), ← parse_settles_iff_parseOta]
  constructor
  · intro h
    apply h.settles
  · intro h
    use h
    intro text htext place hplace hcrc
    apply xorCrcImgChecked_eq (bsSize_lt hblock text)
    rw [length_slice (placed_inside hplace)]
    have hinside := placed_inside hplace
    omega

/-- A file that is a text shorter than a header is read as this text. -/
theorem decode_headerBytes_encode {text : Text} (h : text.byteLen ≤ headerSize) :
  Utf8.decode (headerBytes (Utf8.encode text)) = some text
  := by
  rw [headerBytes, Utf8.length_encode, Nat.min_eq_right h, List.take_of_length_le,
    Utf8.decode_encode]
  rw [Utf8.length_encode]

/-- A file of one part, with blocks of no bytes and a section that does not fit. -/
def misfitPart : Text := "bs_size=0\nimg_name=a\nimg_size=5\nimg_crc=1".toList

/-- A file whose only section does not fit is read, although its blocks have no bytes. -/
theorem total_misfitPart : Total .rfc1321 32 (Utf8.encode misfitPart) := by
  have hlen : (Utf8.encode misfitPart).length = 41 := by decide +kernel
  apply (total_iff .rfc1321 (Or.inl rfl) (by rw [hlen]; decide)).mpr
  intro text htext
  obtain rfl : misfitPart = text := by
    rw [decode_headerBytes_encode (by decide +kernel)] at htext
    exact Option.some.inj htext
  have hfields : declaredFields misfitPart = [⟨"a".toList, "?".toList, 5, [], 1⟩] := by
    decide +kernel
  have hplaced : placed (Utf8.encode misfitPart).length headerSize (declaredFields misfitPart) =
      [] := by
    rw [hfields, hlen]
    decide
  constructor
  · rw [hplaced]
    intro _ place hplace
    cases hplace
  · rw [NoOverflow, placedEnd, hplaced, hfields]
    intro next hnext
    cases hnext
    decide
  · intro hdeclared
    exact absurd (by decide +kernel) hdeclared

/-- A file of one line that declares a digest of all sections. -/
def packetLine : Text := "ota_img_packet_md5=0".toList

/-- A file of twenty bytes makes the parser read after its end. -/
theorem not_total : ∃ buf, ∀ hasher, parse hasher 64 buf = .panics ∧ ¬ Total hasher 64 buf := by
  use Utf8.encode packetLine
  intro hasher
  have htext : Utf8.decode (headerBytes (Utf8.encode packetLine)) = some packetLine :=
    decode_headerBytes_encode (by decide +kernel)
  have hparts : Text.splitStr "\n\n".toList packetLine = [packetLine] := by decide +kernel
  have himage : ¬ isImage packetLine = true := by decide +kernel
  have hglobals : parseGlobals 64 packetLine = ⟨blockSize, some "0".toList, false⟩ := by
    decide +kernel
  have hshort : (Utf8.encode packetLine).length < headerSize := by decide +kernel
  have hparse : parse hasher 64 (Utf8.encode packetLine) = .panics := by
    rw [parse, parseOta, htext]
    simp only [hparts, hglobals]
    rw [parseParts_noImages (by simpa using himage), Except.ok_bind, if_neg Bool.false_ne_true,
      checkPacket]
    simp only [if_pos hshort]
    rfl
  use hparse
  intro htotal
  apply not_settles_panics (hparse ▸ htotal.settles)

end Ota

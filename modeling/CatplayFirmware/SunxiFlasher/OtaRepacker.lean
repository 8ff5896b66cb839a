import CatplayFirmware.SunxiFlasher.CpioRepack
import CatplayFirmware.SunxiFlasher.Decrypter
import CatplayFirmware.Support.Rfc1321

/-!
# Repacking update images

An encrypted image is decrypted and unpacked to an archive, two members of the archive are
replaced, and the archive is packed and encrypted again. Encryption looks for the trailer at
the last place where its name occurs, which may lie in the data of the trailer member itself:
when that data ends with the name, whether a NUL follows depends on how much padding the
archive happens to need.
-/

/-! ### The envelope -/

namespace UpdateImageEnvelope

open Python

/-- `hashlib.md5`. -/
abbrev Md5 := Bytes → Vector UInt8 16

def hexdigest (md5 : Md5) (data : Bytes) : Bytes := hex (md5 data).toList

/-- The errors of the class, by their messages, with what is written into them. -/
inductive Error where
  | noHeader
  | md5Mismatch (expected actual : Bytes)
  deriving DecidableEq

/-- The end of the header, two blanks, `update.swu` and a line feed. -/
def headerEnd : Bytes := [32, 32, 117, 112, 100, 97, 116, 101, 46, 115, 119, 117, 10]

/-- The digest in the header, `_HEADER_PATTERN.match(content).group(1)`. -/
def matchHeader (content : Bytes) : Option Bytes :=
  if (content.take 32).length = 32 ∧ (∀ c ∈ content.take 32, (hexValue c).isSome) ∧
      headerEnd <+: content.drop 32 then some (content.take 32)
  else none

/-- `lower` of an ASCII character. -/
def lower (c : UInt8) : UInt8 := if 65 ≤ c ∧ c ≤ 90 then c + 32 else c

def unpack (md5 : Md5) (content : Bytes) : Outcome Error Bytes :=
  match matchHeader (content.take 256) with
  | none => .fail .noHeader
  | some digest =>
    let archive := content.drop (32 + headerEnd.length)
    let expected := digest.map lower
    let actual := hexdigest md5 archive
    if actual ≠ expected then .fail (.md5Mismatch expected actual) else .ok archive

def repack (md5 : Md5) (archive : Bytes) : Bytes := hexdigest md5 archive ++ headerEnd ++ archive

theorem length_hexdigest (md5 : Md5) (data : Bytes) : (hexdigest md5 data).length = 32 := by
  rw [hexdigest, length_hex, Vector.length_toList]

/-- What is packed is unpacked. -/
theorem unpack_repack (md5 : Md5) (archive : Bytes) :
  unpack md5 (repack md5 archive) = .ok archive
  := by
  have hlen := length_hexdigest md5 archive
  have hdigits : ∀ c ∈ hexdigest md5 archive, (hexValue c).isSome ∧ lower c = c := by
    intro c hc
    obtain ⟨d, hd, rfl⟩ := exists_lowerDigit_of_mem_hex hc
    have hall : ∀ d < 16,
        (hexValue (lowerDigit d)).isSome ∧ lower (lowerDigit d) = lowerDigit d := by
      decide
    apply hall d hd
  have htake : (repack md5 archive).take 256 =
      hexdigest md5 archive ++ (headerEnd ++ archive.take 211) := by
    rw [repack, List.append_assoc, List.take_append, hlen, List.take_of_length_le (by omega),
      List.take_append]
    rfl
  have hmatch : matchHeader ((repack md5 archive).take 256) = some (hexdigest md5 archive) := by
    rw [htake, matchHeader, ← hlen, List.take_left, List.drop_left, if_pos]
    exact ⟨rfl, fun c hc => (hdigits c hc).1, List.prefix_append _ _⟩
  have harchive : (repack md5 archive).drop (32 + headerEnd.length) = archive := by
    rw [repack, ← hlen, ← List.length_append, List.drop_left]
  have hlower : (hexdigest md5 archive).map lower = hexdigest md5 archive := by
    conv_rhs => rw [← List.map_id (hexdigest md5 archive)]
    apply List.map_congr_left
    intro c hc
    apply (hdigits c hc).2
  rw [unpack, hmatch]
  simp only [harchive, hlower]
  apply if_neg
  exact not_not.mpr rfl

/-- What is unpacked is the end of the image. -/
theorem exists_append_of_unpack {md5 : Md5} {content archive : Bytes}
    (h : unpack md5 content = .ok archive) :
  ∃ header, content = header ++ archive
  := by
  rw [unpack] at h
  split at h
  · cases h
  · simp only at h
    split at h
    · cases h
    · cases h
      exact ⟨content.take (32 + headerEnd.length), (List.take_append_drop _ _).symm⟩

end UpdateImageEnvelope

/-! ### The pipeline -/

structure OtaRepacker where
  key : Vector UInt8 256
  md5 : UpdateImageEnvelope.Md5

namespace OtaRepacker

open CpioArchive

/-- The errors that end the pipeline. -/
inductive Error where
  | decrypter (e : Decrypter.Error)
  | envelope (e : UpdateImageEnvelope.Error)
  | cpio (e : CpioArchive.Error)
  | notReproduced
  | notRoundTrip

/-- The first half of `repack`: the members of an encrypted image, which must be written as they
were read. -/
def readImage (repacker : OtaRepacker) (encrypted : Bytes) : Outcome Error (List Entry) := do
  let decrypted ← (Decrypter.decrypt repacker.key encrypted).mapError .decrypter
  let original ← (UpdateImageEnvelope.unpack repacker.md5 decrypted).mapError .envelope
  let archive ← (CpioArchive.parse original).mapError .cpio
  if CpioArchive.repack archive ≠ original then .fail .notReproduced
  else return archive

/-- The second half of `repack`: the encrypted image of patched members. -/
def writeImage (repacker : OtaRepacker) (archive : List Entry) : Outcome Error Bytes := do
  let patched := CpioArchive.repack archive
  let reparsed ← (CpioArchive.parse patched).mapError .cpio
  if CpioArchive.repack reparsed ≠ patched then .fail .notRoundTrip
  else
    let decrypted := UpdateImageEnvelope.repack repacker.md5 patched
    (Decrypter.encrypt repacker.key decrypted).mapError .decrypter

/-- The members that are replaced, with what they are replaced by. -/
def edits (metadata customer : Bytes) : List (Text × Bytes) :=
  [("sw-description".toList, metadata), ("customer".toList, customer)]

/-- A member of the image that is written: two members are replaced, the others are not. -/
structure Replaced (metadata customer : Bytes) (entry result : Entry) : Prop where
  name : result.name = entry.name
  data : result.data = if entry.name = "sw-description".toList then metadata
    else if entry.name = "customer".toList then customer
    else entry.data

/-- The members can be replaced, the image can be written, and what is written is read back with
exactly the two members replaced. -/
def Lossless (repacker : OtaRepacker) (entries : List Entry) (metadata customer : Bytes) : Prop :=
  ∃ archive output result, replaceMembers entries (edits metadata customer) = .ok archive ∧
    writeImage repacker archive = .ok output ∧ readImage repacker output = .ok result ∧
    List.Forall₂ (Replaced metadata customer) entries result

/-- The bytes that a member takes: header and name, and data, each up to a whole number of
words. -/
def memberLength (entry : Entry) : ℕ :=
  ((headerSize + (nameField entry).length + 3) / 4 * 4 + entry.data.length + 3) / 4 * 4

/-- The data of the trailer ends with the trailer's own name, and so would the archive: no zero
is needed behind the data, and none behind the members. -/
def TrailerExposed (entries : List Entry) (metadata customer : Bytes) : Prop :=
  ∃ last ∈ entries.getLast?, Decrypter.trailerText <:+ last.data ∧ 4 ∣ last.data.length ∧
    alignment ∣ ((entries.map (edited (edits metadata customer))).map memberLength).sum

/-! ### Where the archive ends -/

/-- The zeros behind the data and the name of a written entry: none behind the data if it is a
whole number of words. -/
theorem encoded_split {entry : Entry} (h : WellFormed entry) :
  ∃ (front : Bytes) (m n : ℕ), encoded entry = front ++ List.replicate (m + 1) 0 ++ (entry.data ++
      List.replicate n 0) ∧
    (n = 0 ↔ 4 ∣ entry.data.length) ∧ (encoded entry).length = memberLength entry
  := by
  obtain ⟨m, n, hencoded, hm, hlen⟩ := encoded_eq entry
  have htotal := congrArg List.length hencoded
  simp only [List.length_append, List.length_replicate] at htotal
  rw [h.length_header] at hm hlen htotal
  rw [align4] at hm hlen
  rw [align4] at hlen
  refine ⟨header entry ++ Utf8.encode entry.name, m, n, ?_, ?_, ?_⟩
  · rw [hencoded, nameField, List.replicate_succ]
    simp only [List.append_assoc, List.cons_append, List.nil_append]
  · constructor
    · rintro rfl
      omega
    · intro hdvd
      omega
  · rw [memberLength]
    omega

/-- The archive ends with the text of the trailer's name exactly when the data of its last
member does and no zeros follow. -/
theorem suffix_encoded_iff {entry : Entry} (h : WellFormed entry) (k : ℕ) :
  Decrypter.trailerText <:+ encoded entry ++ List.replicate k 0 ↔
    Decrypter.trailerText <:+ entry.data ∧ 4 ∣ entry.data.length ∧ k = 0
  := by
  obtain ⟨front, m, n, hencoded, hn, -⟩ := encoded_split h
  have hcat : encoded entry ++ List.replicate k 0 =
      front ++ List.replicate (m + 1) 0 ++ entry.data ++ List.replicate (n + k) 0 := by
    have hzeros : List.replicate n 0 ++ List.replicate k 0 = List.replicate (n + k) (0 : UInt8) :=
      List.replicate_append_replicate
    rw [hencoded, ← hzeros]
    simp only [List.append_assoc]
  rw [hcat, ← hn]
  constructor
  · intro hsuffix
    cases hzeros : n + k with
    | succ z =>
        have hlast : List.replicate (z + 1) (0 : UInt8) = List.replicate z 0 ++ [0] :=
          List.replicate_succ'
        rw [hzeros, hlast, ← List.append_assoc] at hsuffix
        exact absurd hsuffix (Decrypter.not_suffix_concat_zero _)
    | zero =>
        rw [hzeros, List.replicate_zero, List.append_nil] at hsuffix
        refine ⟨?_, by omega, by omega⟩
        rcases List.suffix_or_suffix_of_suffix hsuffix (List.suffix_append _ entry.data) with
          htext | ⟨x, hx⟩
        · exact htext
        · -- the text would reach into the zeros before the data
          obtain ⟨y, hy⟩ := hsuffix
          rw [← hx, ← List.append_assoc] at hy
          have hfront := List.append_cancel_right hy
          rcases List.eq_nil_or_concat x with rfl | ⟨x, c, rfl⟩
          · rw [← hx]
            exact List.suffix_refl _
          · rw [List.concat_eq_append, ← List.append_assoc, List.replicate_succ',
              ← List.append_assoc] at hfront
            have hzero : c = 0 := List.singleton_inj.mp (List.append_inj' hfront rfl).2
            have hmem : (0 : UInt8) ∈ Decrypter.trailerText := by
              rw [← hx, hzero]
              simp
            exact absurd hmem (by decide)
  · rintro ⟨htext, rfl, rfl⟩
    rw [List.replicate_zero, List.append_nil]
    apply htext.trans (List.suffix_append _ _)

/-- A padded list is not longer exactly when it was a whole number of blocks. -/
theorem padTo_alignment (xs : Bytes) :
  ∃ k, padTo alignment xs = xs ++ List.replicate k 0 ∧ (k = 0 ↔ alignment ∣ xs.length)
  := by
  refine ⟨_, rfl, ?_⟩
  unfold alignment
  omega

theorem length_flatMap_encoded {entries : List Entry} (h : ∀ entry ∈ entries, WellFormed entry) :
  (entries.flatMap encoded).length = (entries.map memberLength).sum
  := by
  rw [List.length_flatMap]
  congr 1
  apply List.map_congr_left
  intro entry hentry
  obtain ⟨_, _, _, -, -, hlen⟩ := encoded_split (h entry hentry)
  exact hlen

/-! ### Reading and writing -/

theorem readImage_eq_ok_iff {repacker : OtaRepacker} {encrypted : Bytes} {entries : List Entry} :
  readImage repacker encrypted = .ok entries ↔
    ∃ decrypted original, Decrypter.decrypt repacker.key encrypted = .ok decrypted ∧
      UpdateImageEnvelope.unpack repacker.md5 decrypted = .ok original ∧
      CpioArchive.parse original = .ok entries ∧ CpioArchive.repack entries = original
  := by
  simp only [readImage, Except.bind_eq_ok_iff, Outcome.mapError_eq_ok_iff]
  constructor
  · rintro ⟨decrypted, hdecrypt, original, hunpack, archive, hparse, h⟩
    split at h
    · cases h
    · next hsame =>
      cases h
      exact ⟨decrypted, original, hdecrypt, hunpack, hparse, not_not.mp hsame⟩
  · rintro ⟨decrypted, original, hdecrypt, hunpack, hparse, hsame⟩
    refine ⟨decrypted, hdecrypt, original, hunpack, entries, hparse, ?_⟩
    rw [if_neg (not_not.mpr hsame)]
    rfl

/-- Members that can be written are encrypted as soon as the trailer is found. -/
theorem writeImage_eq_ok_iff {repacker : OtaRepacker} {archive : List Entry} {output : Bytes}
    (hwell : ∀ entry ∈ archive, WellFormed entry) (hnamed : Named archive) :
  writeImage repacker archive = .ok output ↔
    Decrypter.encrypt repacker.key (UpdateImageEnvelope.repack repacker.md5
      (CpioArchive.repack archive)) = .ok output
  := by
  rw [writeImage, parse_repack hwell hnamed]
  change (if CpioArchive.repack (archive.map normalise) ≠ CpioArchive.repack archive then _
    else _) = _ ↔ _
  rw [if_neg (not_not.mpr (repack_normalise archive)), Outcome.mapError_eq_ok_iff]

/-- The trailer is looked for in the last member and behind it. -/
theorem assertCpioTrailer_last (front : Bytes) {last : Entry} (hwell : WellFormed last)
    (hname : last.name = trailer) (k : ℕ) :
  Decrypter.assertCpioTrailer (front ++ (encoded last ++ List.replicate k 0)) = .ok () ↔
    Decrypter.assertCpioTrailer (encoded last ++ List.replicate k 0) = .ok ()
  := by
  obtain ⟨m, n, hencoded, -⟩ := encoded_eq last
  apply Decrypter.assertCpioTrailer_append front _ (Nat.le_refl Decrypter.cpioHeaderSize)
  have hfield : nameField last = Decrypter.cpioTrailerName := by
    rw [nameField, hname]
    decide +kernel
  have hheader : Decrypter.cpioHeaderSize = (header last).length := hwell.length_header.symm
  rw [hencoded, List.append_assoc, hheader, List.drop_left, hfield, List.append_assoc]
  apply List.prefix_append

theorem length_edits {metadata customer : Bytes} (hmetadata : metadata.length < 2 ^ 32)
    (hcustomer : customer.length < 2 ^ 32) :
  ∀ edit ∈ edits metadata customer, edit.2.length < 2 ^ 32
  := by
  intro edit hedit
  rw [edits, List.mem_cons, List.mem_singleton] at hedit
  rcases hedit with rfl | rfl
  · exact hmetadata
  · exact hcustomer

/-- Edits of two members give each of them its content. -/
theorem lastContent_pair {name name' : Text} (hne : name' ≠ name) (content content' : Bytes)
    (entry : Entry) :
  lastContent [(name, content), (name', content')] entry =
    if entry.name = name then content
    else if entry.name = name' then content'
    else entry.data
  := by
  rw [lastContent, List.filter_cons, List.filter_cons, List.filter_nil]
  rcases eq_or_ne entry.name name with rfl | hfirst
  · simp [hne]
  · rcases eq_or_ne entry.name name' with rfl | hsecond
    · simp [hne, hne.symm]
    · simp [hfirst, hfirst.symm, hsecond, hsecond.symm]

theorem lastContent_edits (metadata customer : Bytes) (entry : Entry) :
  lastContent (edits metadata customer) entry =
    if entry.name = "sw-description".toList then metadata
    else if entry.name = "customer".toList then customer
    else entry.data
  := by
  apply lastContent_pair
  decide +kernel

/-- Neither edit is of the trailer. -/
theorem edited_trailer (metadata customer : Bytes) {last : Entry} (h : last.name = trailer) :
  edited (edits metadata customer) last = last
  := by
  have hne : trailer ≠ "sw-description".toList := by decide +kernel
  have hne' : trailer ≠ "customer".toList := by decide +kernel
  have hdata : lastContent (edits metadata customer) last = last.data := by
    rw [lastContent_edits, h, if_neg hne, if_neg hne']
  rw [edited, hdata]

/-- A packed archive ends with its last member and the zeros behind it. -/
theorem exists_front (md5 : UpdateImageEnvelope.Md5) {archive before : List Entry} {last : Entry}
    (h : archive = before ++ [last]) {k : ℕ}
    (hk : padTo alignment (archive.flatMap encoded) =
      archive.flatMap encoded ++ List.replicate k 0) :
  ∃ front, UpdateImageEnvelope.repack md5 (CpioArchive.repack archive) =
    front ++ (encoded last ++ List.replicate k 0)
  := by
  use UpdateImageEnvelope.hexdigest md5 (CpioArchive.repack archive) ++
    UpdateImageEnvelope.headerEnd ++ before.flatMap encoded
  rw [UpdateImageEnvelope.repack, List.append_assoc _ _ (encoded last ++ _)]
  congr 1
  rw [repack_eq, hk, h, List.flatMap_append, List.flatMap_singleton, List.append_assoc]

theorem wellFormed_edited {entries : List Entry} (hwell : ∀ entry ∈ entries, WellFormed entry)
    {metadata customer : Bytes} (hmetadata : metadata.length < 2 ^ 32)
    (hcustomer : customer.length < 2 ^ 32) :
  ∀ entry ∈ entries.map (edited (edits metadata customer)), WellFormed entry
  := by
  intro entry hentry
  obtain ⟨original, horiginal, rfl⟩ := List.mem_map.mp hentry
  apply (hwell original horiginal).edited (length_edits hmetadata hcustomer)

theorem named_edited {entries : List Entry} (h : Named entries) (metadata customer : Bytes) :
  Named (entries.map (edited (edits metadata customer)))
  := by
  constructor
  · rw [names_edited, h.first]
  · rw [names_edited, h.last]
  · rw [names_edited]
    exact h.nodup

/-- Two members are replaced without loss exactly when the trailer is found behind the
replacement. -/
theorem lossless_iff_found (repacker : OtaRepacker) {entries : List Entry}
    (hwell : ∀ entry ∈ entries, WellFormed entry) (hnamed : Named entries)
    (hcustomer : "customer".toList ∈ entries.map Entry.name)
    {metadata customer : Bytes} (hmetadataSize : metadata.length < 2 ^ 32)
    (hcustomerSize : customer.length < 2 ^ 32) :
  Lossless repacker entries metadata customer ↔
    Decrypter.assertCpioTrailer (UpdateImageEnvelope.repack repacker.md5
      (CpioArchive.repack (entries.map (edited (edits metadata customer))))) = .ok ()
  := by
  have hmem : ∀ edit ∈ edits metadata customer, edit.1 ∈ entries.map Entry.name := by
    intro edit hedit
    rw [edits, List.mem_cons, List.mem_singleton] at hedit
    rcases hedit with rfl | rfl
    · apply List.mem_of_head? hnamed.first
    · exact hcustomer
  obtain ⟨hreplace, hreparse⟩ := parse_repack_replaced hwell hnamed hmem
    (length_edits hmetadataSize hcustomerSize)
  have hwell' := wellFormed_edited hwell hmetadataSize hcustomerSize
  have hnamed' := named_edited hnamed metadata customer
  constructor
  · rintro ⟨archive, output, result, hreplace', hwrite, -⟩
    rw [hreplace] at hreplace'
    cases hreplace'
    apply (Decrypter.encrypt_eq_ok_iff.mp ((writeImage_eq_ok_iff hwell' hnamed').mp hwrite)).1
  · intro hassert
    have hencrypt : Decrypter.encrypt repacker.key (UpdateImageEnvelope.repack repacker.md5
        (CpioArchive.repack (entries.map (edited (edits metadata customer))))) = .ok _ :=
      Decrypter.encrypt_eq_ok_iff.mpr ⟨hassert, rfl⟩
    refine ⟨_, _, (entries.map (edited (edits metadata customer))).map normalise, hreplace,
      (writeImage_eq_ok_iff hwell' hnamed').mpr hencrypt, ?_, ?_⟩
    · apply readImage_eq_ok_iff.mpr
      exact ⟨_, _, Decrypter.decrypt_encrypt hencrypt, UpdateImageEnvelope.unpack_repack _ _,
        hreparse, repack_normalise _⟩
    · rw [List.map_map, List.forall₂_map_right_iff, List.forall₂_same]
      intro entry _
      exact ⟨rfl, lastContent_edits metadata customer entry⟩

/-- A packed archive with its two members replaced ends with the trailer it had, and with the
trailer's name if the trailer is exposed. -/
theorem trailerExposed_iff (md5 : UpdateImageEnvelope.Md5) {entries before : List Entry}
    {last : Entry} (hentries : entries = before ++ [last]) (hlast : last.name = trailer)
    (hwell : ∀ entry ∈ entries, WellFormed entry)
    {metadata customer : Bytes} (hmetadata : metadata.length < 2 ^ 32)
    (hcustomer : customer.length < 2 ^ 32) :
  ∃ front k, UpdateImageEnvelope.repack md5 (CpioArchive.repack
      (entries.map (edited (edits metadata customer)))) =
        front ++ (encoded last ++ List.replicate k 0) ∧
    (TrailerExposed entries metadata customer ↔
      Decrypter.trailerText <:+ encoded last ++ List.replicate k 0)
  := by
  obtain ⟨k, hpatched, hk⟩ := padTo_alignment
    ((entries.map (edited (edits metadata customer))).flatMap encoded)
  rw [length_flatMap_encoded (wellFormed_edited hwell hmetadata hcustomer)] at hk
  have hlastWell : WellFormed last := by
    apply hwell
    rw [hentries]
    apply List.mem_append_right _ (List.mem_singleton_self last)
  have harchive : entries.map (edited (edits metadata customer)) =
      before.map (edited (edits metadata customer)) ++ [last] := by
    rw [hentries, List.map_append, List.map_singleton, edited_trailer metadata customer hlast]
  obtain ⟨front, hfront⟩ := exists_front md5 harchive hpatched
  refine ⟨front, k, hfront, ?_⟩
  rw [suffix_encoded_iff hlastWell, hk, TrailerExposed, hentries, List.getLast?_concat]
  simp

/-- An image that was read is written with its two members replaced, and read back, exactly when
its trailer is not exposed. -/
theorem lossless_iff (repacker : OtaRepacker) {encrypted : Bytes} {entries : List Entry}
    (hread : readImage repacker encrypted = .ok entries)
    (hcustomer : "customer".toList ∈ entries.map Entry.name)
    {metadata customer : Bytes} (hmetadataSize : metadata.length < 2 ^ 32)
    (hcustomerSize : customer.length < 2 ^ 32) :
  Lossless repacker entries metadata customer ↔ ¬ TrailerExposed entries metadata customer
  := by
  obtain ⟨decrypted, original, hdecrypt, hunpack, hparse, hsame⟩ := readImage_eq_ok_iff.mp hread
  obtain ⟨hwell, hnamed⟩ := wellFormed_of_parse hparse hsame
  rw [lossless_iff_found repacker hwell hnamed hcustomer hmetadataSize hcustomerSize]
  -- the last member is the same before and after, and so is where the trailer is looked for
  obtain ⟨before, last, hentries, hlastName, -⟩ := hnamed.exists_last
  have hlastWell : WellFormed last := by
    apply hwell
    rw [hentries]
    apply List.mem_append_right _ (List.mem_singleton_self last)
  have hfound : ∃ m, Decrypter.assertCpioTrailer (encoded last ++ List.replicate m 0) = .ok () := by
    obtain ⟨m, horiginal, -⟩ := padTo_alignment (entries.flatMap encoded)
    obtain ⟨head, hhead⟩ := UpdateImageEnvelope.exists_append_of_unpack hunpack
    obtain ⟨hassert, -⟩ := Decrypter.decrypt_eq_ok_iff.mp hdecrypt
    rw [hhead, ← hsame, repack_eq, horiginal, hentries, List.flatMap_append,
      List.flatMap_singleton, List.append_assoc, ← List.append_assoc head] at hassert
    exact ⟨m, (assertCpioTrailer_last _ hlastWell hlastName m).mp hassert⟩
  obtain ⟨m, hfound⟩ := hfound
  obtain ⟨front, k, hfront, hexposed⟩ :=
    trailerExposed_iff repacker.md5 hentries hlastName hwell hmetadataSize hcustomerSize
  rw [hexposed, hfront, assertCpioTrailer_last _ hlastWell hlastName]
  apply Decrypter.assertCpioTrailer_zeros_iff hfound

/-! ### An image with an exposed trailer -/

/-- Data that looks like a header and the name of an empty trailer, up to the NUL. -/
def nestedTrailer : Bytes :=
  Magic.crc.bytes ++ List.replicate 95 48 ++ [66] ++ List.replicate 8 48 ++ Decrypter.trailerText

/-- Two empty members, and a trailer with the data of another. -/
def nestedEntries : List Entry :=
  [⟨.newc, "sw-description".toList, fun index => if index = 11 then 15 else 0, []⟩,
    ⟨.newc, "customer".toList, fun index => if index = 11 then 9 else 0, []⟩,
    ⟨.newc, trailer, fun index => if index = 11 then 11 else 0, nestedTrailer⟩]

theorem wellFormed_nestedEntries :
  (∀ entry ∈ nestedEntries, WellFormed entry) ∧ Named nestedEntries
  := by
  constructor
  · intro entry hentry
    rw [nestedEntries, List.mem_cons, List.mem_cons, List.mem_singleton] at hentry
    rcases hentry with rfl | rfl | rfl
    · constructor <;> decide +kernel
    · constructor <;> decide +kernel
    · constructor <;> decide +kernel
  · constructor <;> decide +kernel

/-- The repacker for the one method that is known. -/
def v821 : OtaRepacker := ⟨Decrypter.v821XorKey, Rfc1321.digest⟩

def nestedImage : Bytes :=
  Decrypter.xor v821.key (UpdateImageEnvelope.repack v821.md5 (CpioArchive.repack nestedEntries))

theorem wellFormed_normalise {entries : List Entry}
    (h : (∀ entry ∈ entries, WellFormed entry) ∧ Named entries) :
  (∀ entry ∈ entries.map normalise, WellFormed entry) ∧ Named (entries.map normalise)
  := by
  obtain ⟨hwell, hnamed⟩ := h
  constructor
  · intro entry hentry
    obtain ⟨original, horiginal, rfl⟩ := List.mem_map.mp hentry
    have horiginal := hwell original horiginal
    exact ⟨horiginal.outFields_bounds, rfl, horiginal.data⟩
  · constructor
    · rw [names_normalise, hnamed.first]
    · rw [names_normalise, hnamed.last]
    · rw [names_normalise]
      exact hnamed.nodup

theorem readImage_nestedImage :
  readImage v821 nestedImage = .ok (nestedEntries.map normalise)
  := by
  obtain ⟨hwell, hnamed⟩ := wellFormed_nestedEntries
  obtain ⟨k, hpadded, hk⟩ := padTo_alignment (nestedEntries.flatMap encoded)
  rw [length_flatMap_encoded hwell] at hk
  obtain ⟨n, rfl⟩ : ∃ n, k = n + 1 := by
    apply Nat.exists_eq_succ_of_ne_zero
    intro hzero
    revert hk
    rw [hzero]
    decide +kernel
  have hsplit : nestedEntries = nestedEntries.dropLast ++
      [⟨.newc, trailer, fun index => if index = 11 then 11 else 0, nestedTrailer⟩] := rfl
  obtain ⟨front, hfront⟩ := exists_front v821.md5 hsplit hpadded
  have hassert : Decrypter.assertCpioTrailer (UpdateImageEnvelope.repack v821.md5
      (CpioArchive.repack nestedEntries)) = .ok () := by
    rw [hfront, assertCpioTrailer_last, Decrypter.assertCpioTrailer_zeros]
    · decide +kernel
    · apply hwell
      simp [nestedEntries]
    · rfl
  apply readImage_eq_ok_iff.mpr
  refine ⟨_, _, Decrypter.decrypt_eq_ok_iff.mpr ⟨hassert, ?_⟩,
    UpdateImageEnvelope.unpack_repack _ _, parse_repack hwell hnamed, repack_normalise _⟩
  rw [nestedImage, Decrypter.xor_xor]

/-- An image is read, but is not written with an empty description and 3604 bytes for the
customer: then the archive is full, and ends with the name without a NUL. -/
theorem not_lossless :
  ∃ entries customer, readImage v821 nestedImage = .ok entries ∧
    "customer".toList ∈ entries.map Entry.name ∧ customer.length < 2 ^ 32 ∧
    ¬ Lossless v821 entries [] customer
  := by
  have hsplit : nestedEntries.map normalise = (nestedEntries.map normalise).dropLast ++
      [normalise ⟨.newc, trailer, fun index => if index = 11 then 11 else 0, nestedTrailer⟩] :=
    rfl
  have hcustomer : (List.replicate 3604 (0 : UInt8)).length < 2 ^ 32 := by
    rw [List.length_replicate]
    decide
  have hempty : ([] : Bytes).length < 2 ^ 32 := by decide
  have hmem : "customer".toList ∈ (nestedEntries.map normalise).map Entry.name := by
    decide +kernel
  obtain ⟨hwell, hnamed⟩ := wellFormed_normalise wellFormed_nestedEntries
  have hexposed : TrailerExposed (nestedEntries.map normalise) [] (List.replicate 3604 0) := by
    refine ⟨_, rfl, ?_⟩
    decide +kernel
  refine ⟨_, _, readImage_nestedImage, hmem, hcustomer, ?_⟩
  rw [lossless_iff_found v821 hwell hnamed hmem hempty hcustomer]
  obtain ⟨front, k, hfront, hiff⟩ :=
    trailerExposed_iff v821.md5 hsplit rfl hwell hempty hcustomer
  rw [hfront]
  apply Decrypter.not_assertCpioTrailer
  apply (hiff.mp hexposed).trans (List.suffix_append _ _)

/-- With one byte for the customer it is written. -/
theorem lossless_nestedImage : Lossless v821 (nestedEntries.map normalise) [] [1] := by
  apply (lossless_iff v821 readImage_nestedImage (by decide +kernel) (by decide) (by decide)).mpr
  rintro ⟨-, -, -, -, hfull⟩
  revert hfull
  decide +kernel

end OtaRepacker

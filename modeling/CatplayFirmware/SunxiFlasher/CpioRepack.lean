import CatplayFirmware.SunxiFlasher.CpioArchive
import Mathlib.Data.List.Forall2

/-!
# Rebuilding CPIO archives

Members are replaced by name and the archive is written again: for each member its header, with
the sizes and the checksum of what the member now holds, its name and its data, each padded to
four bytes, and the whole padded to 4096. What is written is parsed to the members it was
written from; and an archive that is written as it was parsed has members that can be written.
-/

namespace CpioArchive

open Python

/-! ### Replacing members -/

/-- `replace_member`: the data of the one member with the name. -/
def replaceMember (entries : List Entry) (name : Text) (content : Bytes) :
    Outcome Error (List Entry) :=
  if (entries.filter fun entry => entry.name = name).length ≠ 1 then .fail (.notExactlyOne name)
  else
    .ok (entries.map fun entry =>
      if entry.name = name then { entry with data := content } else entry)

/-- Calls of `replace_member` one after the other. -/
def replaceMembers : List Entry → List (Text × Bytes) → Outcome Error (List Entry)
  | entries, [] => .ok entries
  | entries, (name, content) :: edits => do
    let entries ← replaceMember entries name content
    replaceMembers entries edits

/-! ### Writing an archive -/

/-- `xs + b"\0" * (-len(xs) % n)`. -/
def padTo (n : ℕ) (xs : Bytes) : Bytes := xs ++ List.replicate ((n - xs.length % n) % n) 0

/-- The name with the NUL behind it. -/
def nameField (entry : Entry) : Bytes := Utf8.encode entry.name ++ [0]

/-- The fields that are written for an entry. -/
def outFields (entry : Entry) (index : Fin 13) : ℤ :=
  if index = 6 then entry.data.length
  else if index = 11 then (nameField entry).length
  else if index = 12 then if entry.magic = .crc then checksum entry.data else 0
  else entry.fields index

def header (entry : Entry) : Bytes :=
  entry.magic.bytes ++ (List.finRange 13).flatMap fun index => format08X (outFields entry index)

/-- One round of the loop of `repack`. -/
def appendEntry (result : Bytes) (entry : Entry) : Bytes :=
  padTo 4 (padTo 4 (result ++ header entry ++ nameField entry) ++ entry.data)

def repack (entries : List Entry) : Bytes := padTo alignment (entries.foldl appendEntry [])

/-! ### What is written -/

/-- The bytes that are written for an entry. -/
def encoded (entry : Entry) : Bytes := appendEntry [] entry

/-- A list that is padded behind a list of a whole number of blocks. -/
theorem padTo_append {n : ℕ} {xs : Bytes} (h : n ∣ xs.length) (ys : Bytes) :
  padTo n (xs ++ ys) = xs ++ padTo n ys
  := by
  obtain ⟨k, hk⟩ := h
  rw [padTo, padTo, List.length_append, hk, Nat.mul_add_mod, List.append_assoc]

theorem padTo_eq (n : ℕ) (xs : Bytes) : ∃ k, padTo n xs = xs ++ List.replicate k 0 := ⟨_, rfl⟩

theorem dvd_length_padTo {n : ℕ} (hn : 0 < n) (xs : Bytes) : n ∣ (padTo n xs).length := by
  rw [padTo, List.length_append, List.length_replicate]
  have hlt := Nat.mod_lt xs.length hn
  have hdiv := Nat.div_add_mod xs.length n
  rcases Nat.eq_zero_or_pos (xs.length % n) with hzero | hpos
  · rw [hzero, Nat.sub_zero, Nat.mod_self, Nat.add_zero]
    apply Nat.dvd_of_mod_eq_zero hzero
  · rw [Nat.mod_eq_of_lt (by omega)]
    use xs.length / n + 1
    rw [Nat.mul_add, Nat.mul_one]
    omega

theorem length_padTo_four (xs : Bytes) : ((padTo 4 xs).length : ℤ) = align4 xs.length := by
  rw [padTo, List.length_append, List.length_replicate, align4]
  omega

/-- Behind a whole number of words an entry is written as it is alone. -/
theorem appendEntry_eq {result : Bytes} (h : 4 ∣ result.length) (entry : Entry) :
  appendEntry result entry = result ++ encoded entry
  := by
  rw [encoded, appendEntry, appendEntry, List.append_assoc, padTo_append h, List.append_assoc,
    padTo_append h, List.nil_append]

theorem dvd_length_encoded (entry : Entry) : 4 ∣ (encoded entry).length :=
  dvd_length_padTo (by decide) _

theorem dvd_length_flatMap_encoded (entries : List Entry) :
  4 ∣ (entries.flatMap encoded).length
  := by
  induction entries with
  | nil => exact Nat.dvd_zero 4
  | cons entry entries ih =>
      rw [List.flatMap_cons, List.length_append]
      apply Nat.dvd_add (dvd_length_encoded entry) ih

theorem repack_eq (entries : List Entry) :
  repack entries = padTo alignment (entries.flatMap encoded)
  := by
  have hfold {result : Bytes} (h : 4 ∣ result.length) :
      entries.foldl appendEntry result = result ++ entries.flatMap encoded := by
    induction entries generalizing result with
    | nil => rw [List.foldl_nil, List.flatMap_nil, List.append_nil]
    | cons entry entries ih =>
        have hdvd : 4 ∣ (result ++ encoded entry).length := by
          rw [List.length_append]
          apply Nat.dvd_add h (dvd_length_encoded entry)
        rw [List.foldl_cons, appendEntry_eq h, ih hdvd, List.flatMap_cons, List.append_assoc]
  have hempty : 4 ∣ ([] : Bytes).length := Nat.dvd_zero 4
  rw [repack, hfold hempty, List.nil_append]

/-- An entry with the fields that are written for it. -/
def normalise (entry : Entry) : Entry := { entry with fields := outFields entry }

theorem outFields_normalise (entry : Entry) : outFields (normalise entry) = outFields entry := by
  funext index
  simp only [outFields, normalise, nameField]
  split
  · rfl
  · split
    · rfl
    · split <;> rfl

theorem encoded_normalise (entry : Entry) : encoded (normalise entry) = encoded entry := by
  simp only [encoded, appendEntry, header, outFields_normalise]
  rfl

theorem repack_normalise (entries : List Entry) :
  repack (entries.map normalise) = repack entries
  := by
  rw [repack_eq, repack_eq, List.flatMap_map]
  simp only [encoded_normalise]

/-! ### Entries that can be written -/

/-- The fields of an entry have at most eight digits, and so has the size of its data. -/
structure WellFormed (entry : Entry) : Prop where
  fields : ∀ index, -(16 ^ 7 : ℤ) < entry.fields index ∧ entry.fields index < 16 ^ 8
  nameSize : entry.fields 11 = (nameField entry).length
  data : entry.data.length < 2 ^ 32

theorem checksum_lt (data : Bytes) : checksum data < 2 ^ 32 := Nat.mod_lt _ (by decide)

theorem WellFormed.outFields_bounds {entry : Entry} (h : WellFormed entry) (index : Fin 13) :
  -(16 ^ 7 : ℤ) < outFields entry index ∧ outFields entry index < 16 ^ 8
  := by
  have hdata := h.data
  have hcrc := checksum_lt entry.data
  have hname := h.fields 11
  rw [h.nameSize] at hname
  rw [outFields]
  split
  · omega
  · split
    · exact hname
    · split
      · split <;> omega
      · apply h.fields

theorem WellFormed.length_format08X {entry : Entry} (h : WellFormed entry) (index : Fin 13) :
  (format08X (outFields entry index)).length = 8
  := by
  obtain ⟨hlo, hhi⟩ := h.outFields_bounds index
  apply Python.length_format08X hlo hhi

theorem length_bytes (magic : Magic) : magic.bytes.length = 6 := by
  cases magic with
  | newc => rfl
  | crc => rfl

theorem WellFormed.length_header {entry : Entry} (h : WellFormed entry) :
  (header entry).length = headerSize
  := by
  have hfields : ((List.finRange 13).flatMap fun index =>
      format08X (outFields entry index)).length = 104 := by
    rw [List.length_flatMap]
    simp only [h.length_format08X]
    rfl
  rw [header, List.length_append, length_bytes, hfields]
  rfl

/-- A field of a header whose fields before it have eight bytes each starts with the first of
its eight bytes. -/
theorem slice_header {entry : Entry} {index : Fin 13} (rest : Bytes)
    (h : ∀ i < index, (format08X (outFields entry i)).length = 8) :
  Bytes.slice (header entry ++ rest) (6 + index * 8) 8 =
    (format08X (outFields entry index)).take 8
  := by
  let field (i : Fin 13) : Bytes := format08X (outFields entry i)
  obtain ⟨before, after, hsplit, hbefore⟩ : ∃ before after,
      List.finRange 13 = before ++ index :: after ∧ before.length = index ∧
        ∀ i ∈ before, i < index := by
    have hlt : (index : ℕ) < (List.finRange 13).length := by
      rw [List.length_finRange]
      exact index.isLt
    refine ⟨(List.finRange 13).take index, (List.finRange 13).drop (index + 1), ?_, ?_, ?_⟩
    · have hcons := List.getElem_cons_drop hlt
      rw [List.getElem_finRange] at hcons
      exact ((congrArg _ hcons).trans (List.take_append_drop _ _)).symm
    · rw [List.length_take, Nat.min_eq_left (Nat.le_of_lt hlt)]
    · intro i hi
      obtain ⟨j, hj, rfl⟩ := List.mem_take_iff_getElem.mp hi
      rw [List.getElem_finRange]
      have hlt : j < index := by omega
      exact hlt
  have hlen : (before.flatMap field).length = index * 8 := by
    have hwidths : before.map (fun i => (field i).length) = before.map fun _ => 8 := by
      apply List.map_congr_left
      intro i hi
      apply h i (hbefore.2 i hi)
    rw [List.length_flatMap, hwidths, List.map_const', List.sum_replicate_nat, hbefore.1]
  have hwidth : 8 ≤ (field index).length := length_format08X_ge _
  have hheader : header entry ++ rest = (entry.magic.bytes ++ before.flatMap field) ++
      (field index ++ (after.flatMap field ++ rest)) := by
    rw [header, hsplit, List.flatMap_append, List.flatMap_cons]
    simp only [List.append_assoc]
    rfl
  have hoffset : 6 + index * 8 = (entry.magic.bytes ++ before.flatMap field).length + 0 := by
    rw [List.length_append, length_bytes, hlen, Nat.add_zero]
  rw [hheader, hoffset, Bytes.slice_append_right, Bytes.slice, List.drop_zero,
    List.take_append_of_le_length hwidth]

theorem align4_add {n : ℕ} (h : 4 ∣ n) (m : ℤ) : align4 (n + m) = n + align4 m := by
  obtain ⟨k, rfl⟩ := h
  rw [align4, align4]
  omega

/-- What is written for an entry: header, name, data, and zeros behind name and data. -/
theorem encoded_eq (entry : Entry) :
  ∃ m n : ℕ, encoded entry = header entry ++ (nameField entry ++
      (List.replicate m 0 ++ (entry.data ++ List.replicate n 0))) ∧
    ((header entry).length + (nameField entry).length + m : ℤ) =
      align4 ((header entry).length + (nameField entry).length) ∧
    ((encoded entry).length : ℤ) = align4 (align4 ((header entry).length +
      (nameField entry).length) + entry.data.length)
  := by
  obtain ⟨m, hm⟩ := padTo_eq 4 (header entry ++ nameField entry)
  obtain ⟨n, hn⟩ := padTo_eq 4 (padTo 4 (header entry ++ nameField entry) ++ entry.data)
  have hname := length_padTo_four (header entry ++ nameField entry)
  have hdata := length_padTo_four (padTo 4 (header entry ++ nameField entry) ++ entry.data)
  have hencoded : encoded entry = padTo 4 (padTo 4 (header entry ++ nameField entry) ++
      entry.data) := by
    rw [encoded, appendEntry, List.nil_append]
  rw [List.length_append, Nat.cast_add, hname, List.length_append, Nat.cast_add,
    ← hencoded] at hdata
  rw [hm, List.length_append, List.length_append, List.length_replicate] at hname
  refine ⟨m, n, ?_, ?_, hdata⟩
  · rw [hencoded, hn, hm, List.append_assoc, List.append_assoc, List.append_assoc]
  · push_cast at hname
    exact hname

/-- The fields of a written entry, up to the first that is wider than it should be, are read as
they were written. -/
theorem readField_encoded {before after : Bytes} {entry : Entry} {index : Fin 13}
    (h : ∀ i < index, (format08X (outFields entry i)).length = 8) :
  readField (before ++ (encoded entry ++ after)) before.length index =
    intHex ((format08X (outFields entry index)).take 8)
  := by
  obtain ⟨m, n, hencoded, -⟩ := encoded_eq entry
  have hstart : (before.length : ℤ) + 6 + index * 8 =
      ((before.length + (6 + index * 8) : ℕ) : ℤ) := by
    push_cast
    ring
  have hstop : (before.length : ℤ) + 14 + index * 8 =
      ((before.length + (6 + index * 8) + 8 : ℕ) : ℤ) := by
    push_cast
    ring
  rw [readField, hstart, hstop, slice_natCast, Bytes.slice_append_right, hencoded,
    List.append_assoc, slice_header _ h]

/-- An entry that is read where it was written can be written, and is read to where it was
written to. -/
theorem wellFormed_of_readsAt {before after : Bytes} (halign : 4 ∣ before.length) {entry : Entry}
    {next : ℤ} (h : ReadsAt (before ++ (encoded entry ++ after)) before.length entry next) :
  WellFormed entry ∧ next = ((before ++ encoded entry).length : ℤ)
  := by
  generalize hraw : before ++ (encoded entry ++ after) = raw at h
  have hbounds (index : Fin 13) :
      -(16 ^ 7 : ℤ) < entry.fields index ∧ entry.fields index < 16 ^ 8 := by
    have hlen := length_slice_add_le raw ((before.length : ℤ) + 6 + index * 8) 8
    have hstop : (before.length : ℤ) + 6 + index * 8 + (8 : ℕ) =
        before.length + 14 + index * 8 := by
      push_cast
      ring
    rw [hstop] at hlen
    apply intHex_bounds hlen (h.fields index)
  -- the name has the length that its field tells
  obtain ⟨n, hn⟩ : ∃ n : ℕ, entry.fields 11 = n + 1 := by
    have hsize := h.nameSize
    use (entry.fields 11 - 1).toNat
    omega
  have hname : (Utf8.encode entry.name).length = n := by
    have hdecode := h.name
    have hend := h.nameEnd
    have hstop : (before.length : ℤ) + headerSize + entry.fields 11 - 1 =
        ((before.length + headerSize + n : ℕ) : ℤ) := by
      rw [hn]
      push_cast
      ring
    rw [hstop, ← Nat.cast_add, slice_natCast] at hdecode
    rw [Utf8.encode_of_decode hdecode, Bytes.length_slice]
    omega
  have hnameField : (nameField entry).length = n + 1 := by
    rw [nameField, List.length_append, hname]
    rfl
  -- the size is not negative: it is the start of a size that was written
  obtain ⟨m, hm⟩ : ∃ m : ℕ, entry.fields 6 = m := by
    have hwidths : ∀ i < (6 : Fin 13), (format08X (outFields entry i)).length = 8 := by
      intro i hi
      have hout : outFields entry i = entry.fields i := by
        rw [outFields, if_neg (by omega), if_neg (by omega), if_neg (by omega)]
      rw [hout]
      apply length_format08X (hbounds i).1 (hbounds i).2
    have hsize : outFields entry 6 = entry.data.length := if_pos rfl
    have hfield := h.fields 6
    rw [← hraw, readField_encoded hwidths, hsize] at hfield
    obtain ⟨m, hm⟩ := intHex_take_format08X (Int.natCast_nonneg entry.data.length)
      (show 0 < 8 by decide)
    rw [hm] at hfield
    exact ⟨m, (Option.some.inj hfield).symm⟩
  obtain ⟨d, hd⟩ : ∃ d : ℕ, entry.dataStart before.length = d := by
    use (entry.dataStart before.length).toNat
    rw [Entry.dataStart, hn, align4]
    omega
  have hdata : entry.data.length = m := by
    have hdata := h.data
    have hend := h.dataEnd
    rw [hd, hm] at hdata hend
    rw [← Nat.cast_add, slice_natCast] at hdata
    rw [hdata, Bytes.length_slice]
    omega
  have hwell : WellFormed entry := by
    constructor
    · exact hbounds
    · rw [hn, hnameField]
      push_cast
      ring
    · have hlt := (hbounds 6).2
      rw [hm] at hlt
      rw [hdata]
      omega
  refine ⟨hwell, ?_⟩
  obtain ⟨-, -, -, -, hlen⟩ := encoded_eq entry
  rw [h.next, Entry.dataStart, List.length_append, Nat.cast_add, hlen, hwell.length_header,
    hnameField, hdata, hn, hm, Int.add_assoc, align4_add halign, Int.add_assoc,
    align4_add halign]
  push_cast
  ring

/-- A span that is known to lie behind a prefix of a file. -/
theorem slice_of_append {before span after : Bytes} {i j : ℤ} (hi : i = before.length)
    (hj : j = i + span.length) :
  slice (before ++ (span ++ after)) i j = span
  := by
  rw [hj, hi, ← Nat.cast_add, slice_natCast, ← Nat.add_zero before.length,
    Bytes.slice_append_right, Bytes.slice, List.drop_zero, List.take_left]

/-- An entry that can be written is read where it was written, with the fields that were
written. -/
theorem readsAt_encoded {before : Bytes} (halign : 4 ∣ before.length) (after : Bytes)
    {entry : Entry} (h : WellFormed entry) :
  ReadsAt (before ++ (encoded entry ++ after)) before.length (normalise entry)
    ((before ++ encoded entry).length : ℕ)
  := by
  obtain ⟨m, n, hencoded, hm, hlen⟩ := encoded_eq entry
  have hheader := h.length_header
  have hnameLen : (nameField entry).length = (Utf8.encode entry.name).length + 1 :=
    List.length_append
  rw [hheader] at hm hlen
  have hraw : before ++ (encoded entry ++ after) = before ++ (header entry ++ (nameField entry ++
      (List.replicate m 0 ++ (entry.data ++ (List.replicate n 0 ++ after))))) := by
    rw [hencoded]
    simp only [List.append_assoc]
  have hfields (index : Fin 13) :
      readField (before ++ (encoded entry ++ after)) before.length index =
        some (outFields entry index) := by
    have hwidth := h.length_format08X index
    rw [readField_encoded fun i _ => h.length_format08X i, ← hwidth, List.take_length,
      intHex_format08X]
  have hsize : outFields entry 6 = entry.data.length := if_pos rfl
  have hnameSize : outFields entry 11 = (nameField entry).length := rfl
  -- the name behind the header, and the data behind the name
  have hatName : before ++ (encoded entry ++ after) = (before ++ header entry) ++
      (Utf8.encode entry.name ++ ([0] ++ (List.replicate m 0 ++ (entry.data ++
        (List.replicate n 0 ++ after))))) := by
    rw [hraw, nameField]
    simp only [List.append_assoc]
  have hatData : before ++ (encoded entry ++ after) = (before ++ (header entry ++
      (nameField entry ++ List.replicate m 0))) ++
        (entry.data ++ (List.replicate n 0 ++ after)) := by
    rw [hraw]
    simp only [List.append_assoc]
  have hdataStart : (normalise entry).dataStart before.length =
      ((before ++ (header entry ++ (nameField entry ++ List.replicate m 0))).length : ℕ) := by
    rw [Entry.dataStart, Int.add_assoc, align4_add halign]
    change (before.length : ℤ) + align4 (headerSize + outFields entry 11) = _
    rw [hnameSize, ← hm]
    simp only [List.length_append, List.length_replicate, hheader]
    push_cast
    ring
  have hatName' : (before ++ header entry).length = before.length + headerSize := by
    rw [List.length_append, hheader]
  constructor
  · rw [hatName, List.length_append, hatName']
    push_cast
    omega
  · rw [hraw, header, List.append_assoc]
    apply slice_of_append rfl
    rw [length_bytes]
    rfl
  · apply hfields
  · change 1 ≤ outFields entry 11
    rw [hnameSize, hnameLen]
    push_cast
    omega
  · change _ + outFields entry 11 ≤ _
    rw [hnameSize, hatData, List.length_append]
    simp only [List.length_append, hheader]
    push_cast
    omega
  · have hlast : (before.length : ℤ) + headerSize + outFields entry 11 - 1 =
        (((before ++ header entry).length + (Utf8.encode entry.name).length : ℕ) : ℤ) := by
      rw [hnameSize, hnameLen, hatName']
      push_cast
      ring
    change item _ (_ + outFields entry 11 - 1) = _
    rw [hlast, item_natCast, hatName, List.getElem?_append_right (Nat.le_add_right _ _),
      Nat.add_sub_cancel_left, List.getElem?_append_right (Nat.le_refl _), Nat.sub_self]
    rfl
  · change Utf8.decode (slice _ _ (_ + outFields entry 11 - 1)) = _
    rw [hatName, slice_of_append]
    · apply Utf8.decode_encode
    · rw [hatName']
      push_cast
      rfl
    · rw [hnameSize, hnameLen]
      push_cast
      ring
  · change _ + outFields entry 6 ≤ _
    rw [hdataStart, hsize, hatData]
    simp only [List.length_append]
    push_cast
    omega
  · change entry.data = slice _ _ (_ + outFields entry 6)
    rw [hatData, slice_of_append hdataStart]
    rw [hsize]
  · intro hmagic
    change (checksum entry.data : ℤ) = outFields entry 12
    exact (if_pos hmagic).symm
  · change _ = align4 (_ + outFields entry 6)
    rw [Entry.dataStart, Int.add_assoc, align4_add halign, Int.add_assoc, align4_add halign]
    change _ = _ + align4 (align4 (headerSize + outFields entry 11) + _)
    rw [hnameSize, hsize, ← hlen, List.length_append]
    push_cast
    rfl

/-! ### What is written is read back -/

/-- The loop walks through entries where they were written. -/
theorem exists_path_encoded {before : Bytes} (halign : 4 ∣ before.length) (after : Bytes)
    {entries : List Entry} (h : ∀ entry ∈ entries, WellFormed entry)
    (hnames : ∀ entry ∈ entries, entry.name ≠ trailer) :
  ∃ members, members.map Member.entry = entries.map normalise ∧
    Path (before ++ (entries.flatMap encoded ++ after)) before.length members
      ((before ++ entries.flatMap encoded).length : ℕ)
  := by
  induction entries generalizing before with
  | nil =>
      refine ⟨[], rfl, ?_⟩
      rw [List.flatMap_nil, List.append_nil]
      rfl
  | cons entry entries ih =>
      have hdvd : 4 ∣ (before ++ encoded entry).length := by
        rw [List.length_append]
        apply Nat.dvd_add halign (dvd_length_encoded entry)
      obtain ⟨members, hentries, hpath⟩ := ih hdvd
        (fun entry hentry => h entry (List.mem_cons_of_mem _ hentry))
        (fun entry hentry => hnames entry (List.mem_cons_of_mem _ hentry))
      have hread := readsAt_encoded halign (entries.flatMap encoded ++ after)
        (h entry List.mem_cons_self)
      rw [List.append_assoc, List.append_assoc] at hpath
      rw [List.flatMap_cons, List.append_assoc]
      refine ⟨⟨before.length, normalise entry, ((before ++ encoded entry).length : ℕ)⟩ :: members,
        ?_, rfl, readMember_eq_ok_iff.mpr hread, ?_, hpath⟩
      · rw [List.map_cons, hentries, List.map_cons]
      · apply hnames entry List.mem_cons_self

/-- The names an archive has: first the description, last the trailer, and no name twice. -/
structure Named (entries : List Entry) : Prop where
  first : (entries.map Entry.name).head? = some "sw-description".toList
  last : (entries.map Entry.name).getLast? = some trailer
  nodup : (entries.map Entry.name).Nodup

/-- Only the last of the members has the name of a trailer. -/
theorem Named.exists_last {entries : List Entry} (h : Named entries) :
  ∃ before last, entries = before ++ [last] ∧ last.name = trailer ∧
    ∀ entry ∈ before, entry.name ≠ trailer
  := by
  have hlast := h.last
  have hnodup := h.nodup
  rcases List.eq_nil_or_concat entries with rfl | ⟨before, last, rfl⟩
  · cases hlast
  · rw [List.concat_eq_append, List.map_append] at hlast hnodup
    have hname : last.name = trailer := by simpa using hlast
    refine ⟨before, last, List.concat_eq_append, hname, ?_⟩
    intro entry hentry htrailer
    have hdisjoint := (List.nodup_append.mp hnodup).2.2
    apply hdisjoint _ (List.mem_map_of_mem hentry) _ (List.mem_singleton_self _)
    rw [htrailer, hname]

theorem names_normalise (entries : List Entry) :
  (entries.map normalise).map Entry.name = entries.map Entry.name
  := by
  rw [List.map_map]
  rfl

/-- What is written for entries that can be written is parsed to them, with the fields that
were written. -/
theorem parse_repack {entries : List Entry} (h : ∀ entry ∈ entries, WellFormed entry)
    (hnamed : Named entries) :
  parse (repack entries) = .ok (entries.map normalise)
  := by
  obtain ⟨before, last, rfl, hlast, hbefore⟩ := hnamed.exists_last
  obtain ⟨k, hk⟩ := padTo_eq alignment ((before ++ [last]).flatMap encoded)
  have hempty : 4 ∣ ([] : Bytes).length := Nat.dvd_zero 4
  obtain ⟨members, hmembers, hpath⟩ := exists_path_encoded hempty
    (encoded last ++ List.replicate k 0) (fun entry hentry => h entry
      (List.mem_append_left _ hentry)) hbefore
  have hread := readsAt_encoded (dvd_length_flatMap_encoded before) (List.replicate k 0)
    (h last (List.mem_append_right _ (List.mem_singleton_self last)))
  have hraw : repack (before ++ [last]) =
      before.flatMap encoded ++ (encoded last ++ List.replicate k 0) := by
    rw [repack_eq, hk, List.flatMap_append, List.flatMap_singleton, List.append_assoc]
  rw [List.nil_append, ← hraw] at hpath
  rw [← hraw] at hread
  apply parse_eq_ok_iff.mpr
  refine ⟨members ++ [⟨_, normalise last, _⟩], _,
    ⟨members, _, rfl, hpath, readMember_eq_ok_iff.mpr hread, rfl, hlast⟩, ?_, ?_⟩
  · rw [List.map_append, hmembers, List.map_append]
    rfl
  · apply check_eq_ok_iff.mpr
    rw [names_normalise]
    refine ⟨?_, ?_, hnamed.first, hnamed.last, hnamed.nodup⟩
    · intro c hc
      rw [sliceFrom_natCast, hraw, ← List.append_assoc, List.drop_left] at hc
      · apply List.eq_of_mem_replicate hc
      · rw [hraw]
        simp only [List.length_append]
        omega
    · apply Nat.mod_eq_zero_of_dvd
      rw [repack_eq]
      apply dvd_length_padTo (by decide)

/-- Entries that are read where they were written can be written. -/
theorem wellFormed_of_path {before after : Bytes} (halign : 4 ∣ before.length)
    {members : List Member} {last : Member} {stop : ℤ}
    (hpath : Path (before ++ (((members ++ [last]).map Member.entry).flatMap encoded ++ after))
      before.length members last.start)
    (hread : readMember (before ++ (((members ++ [last]).map Member.entry).flatMap encoded ++
      after)) last.start = .ok (last.entry, stop)) :
  ∀ entry ∈ (members ++ [last]).map Member.entry, WellFormed entry
  := by
  induction members generalizing before with
  | nil =>
      intro entry hentry
      obtain rfl : entry = last.entry := List.mem_singleton.mp hentry
      have hstart : (before.length : ℤ) = last.start := hpath
      rw [← hstart, List.nil_append, List.map_singleton, List.flatMap_singleton] at hread
      apply (wellFormed_of_readsAt halign (readMember_eq_ok_iff.mp hread)).1
  | cons member members ih =>
      rw [List.cons_append, List.map_cons, List.flatMap_cons, List.append_assoc] at hpath hread
      obtain ⟨hstart, hmember, hname, hpath⟩ := hpath
      obtain ⟨hwell, hstop⟩ := wellFormed_of_readsAt halign (readMember_eq_ok_iff.mp hmember)
      have hdvd : 4 ∣ (before ++ encoded member.entry).length := by
        rw [List.length_append]
        apply Nat.dvd_add halign (dvd_length_encoded member.entry)
      rw [hstop, ← List.append_assoc before] at hpath
      rw [← List.append_assoc before] at hread
      intro entry hentry
      rw [List.cons_append, List.map_cons] at hentry
      rcases List.mem_cons.mp hentry with rfl | hentry
      · exact hwell
      · apply ih hdvd hpath hread entry hentry

/-- An archive that is written as it was parsed has entries that can be written. -/
theorem wellFormed_of_parse {raw : Bytes} {entries : List Entry} (hparse : parse raw = .ok entries)
    (hraw : repack entries = raw) :
  (∀ entry ∈ entries, WellFormed entry) ∧ Named entries
  := by
  obtain ⟨members, stop, ⟨before, last, rfl, hpath, hread, -, -⟩, rfl, hcheck⟩ :=
    parse_eq_ok_iff.mp hparse
  obtain ⟨-, -, hfirst, hlast, hnodup⟩ := check_eq_ok_iff.mp hcheck
  refine ⟨?_, ⟨hfirst, hlast, hnodup⟩⟩
  obtain ⟨k, hk⟩ := padTo_eq alignment (((before ++ [last]).map Member.entry).flatMap encoded)
  rw [repack_eq, hk] at hraw
  subst hraw
  have hempty : 4 ∣ ([] : Bytes).length := Nat.dvd_zero 4
  apply wellFormed_of_path hempty hpath hread

/-! ### Edited archives -/

/-- The last content that edits give a member, or the one it has. -/
def lastContent (edits : List (Text × Bytes)) (entry : Entry) : Bytes :=
  (((edits.filter fun edit => edit.1 = entry.name).getLast?).map Prod.snd).getD entry.data

/-- An entry with the last content that edits give it. -/
def edited (edits : List (Text × Bytes)) (entry : Entry) : Entry :=
  { entry with data := lastContent edits entry }

/-- A member of an archive that was edited, written and parsed again. -/
structure EditedTo (edits : List (Text × Bytes)) (entry result : Entry) : Prop where
  name : result.name = entry.name
  magic : result.magic = entry.magic
  fields : ∀ index, index ≠ 6 → index ≠ 12 → result.fields index = entry.fields index
  data : result.data = lastContent edits entry

theorem names_edited (edits : List (Text × Bytes)) (entries : List Entry) :
  (entries.map (edited edits)).map Entry.name = entries.map Entry.name
  := by
  rw [List.map_map]
  rfl

theorem edited_nil (entries : List Entry) : entries.map (edited []) = entries := List.map_id _

/-- A first edit is made in the entries that the other edits are made in. -/
theorem edited_cons (name : Text) (content : Bytes) (edits : List (Text × Bytes))
    (entry : Entry) :
  edited ((name, content) :: edits) entry =
    edited edits (if entry.name = name then { entry with data := content } else entry)
  := by
  rcases eq_or_ne entry.name name with rfl | hne
  · rw [if_pos rfl]
    simp only [edited, lastContent, List.filter_cons, decide_true, if_true, List.getLast?_cons]
    cases (edits.filter fun edit => edit.1 = entry.name).getLast? with
    | none => rfl
    | some last => rfl
  · rw [if_neg hne]
    simp only [edited, lastContent, List.filter_cons, hne.symm, decide_false,
      Bool.false_eq_true, if_false]

/-- Members that are there once are replaced. -/
theorem replaceMembers_ok {entries : List Entry} {edits : List (Text × Bytes)}
    (hnodup : (entries.map Entry.name).Nodup)
    (hmem : ∀ edit ∈ edits, edit.1 ∈ entries.map Entry.name) :
  replaceMembers entries edits = .ok (entries.map (edited edits))
  := by
  induction edits generalizing entries with
  | nil => rw [edited_nil, replaceMembers]
  | cons edit edits ih =>
      obtain ⟨name, content⟩ := edit
      have hone : (entries.filter fun entry => entry.name = name).length = 1 := by
        have hcount := List.count_eq_one_of_mem hnodup (hmem _ List.mem_cons_self)
        rw [List.count_eq_countP, List.countP_map, List.countP_eq_length_filter] at hcount
        rw [← hcount]
        congr 2
        funext entry
        apply (beq_eq_decide entry.name name).symm
      let first (entry : Entry) : Entry :=
        if entry.name = name then { entry with data := content } else entry
      have hnames : (entries.map first).map Entry.name = entries.map Entry.name := by
        rw [List.map_map]
        apply List.map_congr_left
        intro entry _
        simp only [Function.comp_apply, first]
        split <;> rfl
      have ih : replaceMembers (entries.map first) edits =
          .ok ((entries.map first).map (edited edits)) := by
        apply ih
        · rwa [hnames]
        · intro edit hedit
          rw [hnames]
          apply hmem edit (List.mem_cons_of_mem _ hedit)
      have hreplace : replaceMember entries name content = .ok (entries.map first) :=
        if_neg (not_not.mpr hone)
      rw [replaceMembers, hreplace, Except.ok_bind, ih, List.map_map]
      congr 1
      apply List.map_congr_left
      intro entry _
      apply (edited_cons name content edits entry).symm

theorem WellFormed.edited {entry : Entry} (h : WellFormed entry) {edits : List (Text × Bytes)}
    (hsize : ∀ edit ∈ edits, edit.2.length < 2 ^ 32) :
  WellFormed (edited edits entry)
  := by
  refine ⟨h.fields, h.nameSize, ?_⟩
  change (lastContent edits entry).length < 2 ^ 32
  rw [lastContent]
  cases hlast : (edits.filter fun edit => edit.1 = entry.name).getLast? with
  | none => exact h.data
  | some edit => exact hsize edit (List.mem_filter.mp (List.mem_of_getLast? hlast)).1

/-- Edits of an archive that can be written leave one that can be written. -/
theorem parse_repack_replaced {entries : List Entry} (hwell : ∀ entry ∈ entries, WellFormed entry)
    (hnamed : Named entries) {edits : List (Text × Bytes)}
    (hmem : ∀ edit ∈ edits, edit.1 ∈ entries.map Entry.name)
    (hsize : ∀ edit ∈ edits, edit.2.length < 2 ^ 32) :
  replaceMembers entries edits = .ok (entries.map (edited edits)) ∧
    parse (repack (entries.map (edited edits))) =
      .ok ((entries.map (edited edits)).map normalise)
  := by
  refine ⟨replaceMembers_ok hnamed.nodup hmem, parse_repack ?_ ?_⟩
  · intro entry hentry
    obtain ⟨original, horiginal, rfl⟩ := List.mem_map.mp hentry
    apply (hwell original horiginal).edited hsize
  · constructor
    · rw [names_edited, hnamed.first]
    · rw [names_edited, hnamed.last]
    · rw [names_edited]
      exact hnamed.nodup

theorem editedTo_normalise {entry : Entry} (h : WellFormed entry) (edits : List (Text × Bytes)) :
  EditedTo edits entry (normalise (edited edits entry))
  := by
  refine ⟨rfl, rfl, ?_, rfl⟩
  intro index hsize hcrc
  change outFields (edited edits entry) index = _
  rw [outFields, if_neg hsize, if_neg hcrc]
  split
  · next hname =>
    subst hname
    exact h.nameSize.symm
  · rfl

/-- After any edits of an archive that is written as it was parsed, what is written is parsed
to the same members with the last contents, and is written the same again. -/
theorem parse_repack_edited {raw : Bytes} {entries : List Entry}
    (hparse : parse raw = .ok entries) (hraw : repack entries = raw)
    {edits : List (Text × Bytes)} (hmem : ∀ edit ∈ edits, edit.1 ∈ entries.map Entry.name)
    (hsize : ∀ edit ∈ edits, edit.2.length < 2 ^ 32) :
  ∃ archive result, replaceMembers entries edits = .ok archive ∧
    parse (repack archive) = .ok result ∧ List.Forall₂ (EditedTo edits) entries result ∧
    repack result = repack archive
  := by
  obtain ⟨hwell, hnamed⟩ := wellFormed_of_parse hparse hraw
  obtain ⟨hreplace, hrepack⟩ := parse_repack_replaced hwell hnamed hmem hsize
  refine ⟨_, _, hreplace, hrepack, ?_, repack_normalise _⟩
  rw [List.map_map, List.forall₂_map_right_iff, List.forall₂_same]
  intro entry hentry
  apply editedTo_normalise (hwell entry hentry)

/-- An archive of two members, with a checksum and without one. -/
def twoMembers : List Entry :=
  [⟨.crc, "sw-description".toList, fun index => if index = 11 then 15 else 0, [1, 2, 3, 4, 5]⟩,
    ⟨.newc, trailer, fun index => if index = 11 then 11 else 0, []⟩]

theorem wellFormed_twoMembers :
  (∀ entry ∈ twoMembers, WellFormed entry) ∧ Named twoMembers
  := by
  constructor
  · intro entry hentry
    rw [twoMembers, List.mem_cons, List.mem_singleton] at hentry
    rcases hentry with rfl | rfl
    · constructor <;> decide +kernel
    · constructor <;> decide +kernel
  · constructor <;> decide +kernel

theorem parse_repack_edited_twoMembers :
  ∃ archive result,
    replaceMembers (twoMembers.map normalise) [("sw-description".toList, [7])] = .ok archive ∧
    parse (repack archive) = .ok result ∧
    List.Forall₂ (EditedTo [("sw-description".toList, [7])]) (twoMembers.map normalise) result ∧
    repack result = repack archive
  := by
  obtain ⟨hwell, hnamed⟩ := wellFormed_twoMembers
  apply parse_repack_edited (parse_repack hwell hnamed) (repack_normalise twoMembers)
  · decide +kernel
  · decide +kernel

end CpioArchive

import CatplayFirmware.Support.Outcome
import CatplayFirmware.Support.Python
import CatplayFirmware.Support.Utf8
import Mathlib.Data.Fintype.Basic
import Mathlib.Data.Int.Interval

/-!
# CPIO archives

An archive is a list of members, each a header of 110 bytes, a name and data, up to a trailer.
The header has thirteen fields of eight bytes, which are read as Python's integers: a size may
be negative. Where a member ends is computed from two of its fields, and the next member is
read there, so the loop goes round forever when sizes lead it back to where it has been.
-/

namespace CpioArchive

open Python

def alignment : ℕ := 4096

def headerSize : ℕ := 110

/-- The two magics that are known: without checksum, and with one. -/
inductive Magic where
  | newc
  | crc
  deriving DecidableEq

/-- The bytes of a magic, `070701` and `070702`. -/
def Magic.bytes : Magic → Bytes
  | .newc => [48, 55, 48, 55, 48, 49]
  | .crc => [48, 55, 48, 55, 48, 50]

def Magic.ofBytes (magic : Bytes) : Option Magic :=
  if magic = Magic.newc.bytes then some .newc
  else if magic = Magic.crc.bytes then some .crc
  else none

def trailer : Text := "TRAILER!!!".toList

/-- The errors of the class, by their messages, with what is written into them. -/
inductive Error where
  | truncatedHeader
  | invalidMagic (offset : ℤ) (magic : Bytes)
  | invalidHeader (offset : ℤ)
  | emptyNameField
  | truncatedName
  | nameNotUtf8
  | truncatedData (name : Text)
  | crcMismatch (name : Text)
  | nonZeroBytes
  | notPadded
  | unexpectedOrdering
  | duplicateNames
  | notExactlyOne (name : Text)
  deriving DecidableEq

/-- The indices of the fields of a header are written as numerals. -/
instance neZero_thirteen : NeZero 13 := ⟨by decide⟩

structure Entry where
  magic : Magic
  name : Text
  fields : Fin 13 → ℤ
  data : Bytes

/-! ### Reading a member -/

/-- `(n + 3) & ~3`. -/
def align4 (n : ℤ) : ℤ := (n + 3) / 4 * 4

/-- `sum(data) & 0xFFFFFFFF`. -/
def checksum (data : Bytes) : ℕ := (data.map UInt8.toNat).sum % 2 ^ 32

def readMagic (raw : Bytes) (offset : ℤ) : Outcome Error Magic :=
  match Magic.ofBytes (slice raw offset (offset + 6)) with
  | some magic => .ok magic
  | none => .fail (.invalidMagic offset (slice raw offset (offset + 6)))

/-- A field of the header at an offset. -/
def readField (raw : Bytes) (offset : ℤ) (index : Fin 13) : Option ℤ :=
  intHex (slice raw (offset + 6 + index * 8) (offset + 14 + index * 8))

/-- The fields of the header at an offset, if all are numbers. -/
def readFields (raw : Bytes) (offset : ℤ) : Outcome Error (Fin 13 → ℤ) :=
  if h : ∀ index, (readField raw offset index).isSome then
    .ok fun index => (readField raw offset index).get (h index)
  else .fail (.invalidHeader offset)

/-- The name in a name field. -/
def readName (raw : Bytes) (nameStart nameSize : ℤ) : Outcome Error Text :=
  if nameSize < 1 then .fail .emptyNameField
  else
    let nameEnd := nameStart + nameSize
    if raw.length < nameEnd then .fail .truncatedName
    else
      match item raw (nameEnd - 1) with
      | none => .panics
      | some last =>
        if last ≠ 0 then .fail .truncatedName
        else
          match Utf8.decode (slice raw nameStart (nameEnd - 1)) with
          | none => .fail .nameNotUtf8
          | some name => .ok name

/-- The data of a member, with its checksum compared. -/
def readData (raw : Bytes) (magic : Magic) (name : Text) (dataStart fileSize crc : ℤ) :
    Outcome Error Bytes :=
  let dataEnd := dataStart + fileSize
  if raw.length < dataEnd then .fail (.truncatedData name)
  else
    let data := slice raw dataStart dataEnd
    if magic = .crc ∧ (checksum data : ℤ) ≠ crc then .fail (.crcMismatch name)
    else .ok data

/-- The member at an offset, and the offset behind it. -/
def readMember (raw : Bytes) (offset : ℤ) : Outcome Error (Entry × ℤ) :=
  if raw.length < offset + headerSize then .fail .truncatedHeader
  else do
    let magic ← readMagic raw offset
    let fields ← readFields raw offset
    let nameSize := fields 11
    let fileSize := fields 6
    let nameStart := offset + headerSize
    let name ← readName raw nameStart nameSize
    let dataStart := align4 (nameStart + nameSize)
    let data ← readData raw magic name dataStart fileSize (fields 12)
    return (⟨magic, name, fields, data⟩, align4 (dataStart + fileSize))

/-! ### Reading an archive -/

/-- One round of the loop of `parse`, with the offset and the members so far. -/
def round (raw : Bytes) (st : ℤ × List Entry) :
    (ℤ × List Entry) ⊕ Outcome Error (ℤ × List Entry) :=
  match readMember raw st.1 with
  | .error e => .inr (.error e)
  | .ok (entry, offset) =>
    if entry.name = trailer then .inr (.ok (offset, st.2 ++ [entry]))
    else .inl (offset, st.2 ++ [entry])

/-- What is checked behind the loop. -/
def check (raw : Bytes) (offset : ℤ) (entries : List Entry) : Outcome Error Unit :=
  let names := entries.map Entry.name
  if (sliceFrom raw offset).any (· ≠ 0) then .fail .nonZeroBytes
  else if raw.length % alignment ≠ 0 then .fail .notPadded
  else if names.head? ≠ some "sw-description".toList ∨ names.getLast? ≠ some trailer then
    .fail .unexpectedOrdering
  else if ¬ names.Nodup then .fail .duplicateNames
  else .ok ()

/-- `CpioArchive.parse`. A loop that has not ended after as many rounds as there are offsets
with a header does not end. -/
def parse (raw : Bytes) : Outcome Error (List Entry) :=
  match Loop.iterate (round raw) (2 * raw.length + 2) (0, []) with
  | none => .diverges
  | some (.error e) => .error e
  | some (.ok (offset, entries)) => do
    check raw offset entries
    return entries

/-! ### What is read -/

/-- Where the data of a member at an offset starts. -/
def Entry.dataStart (entry : Entry) (offset : ℤ) : ℤ :=
  align4 (offset + headerSize + entry.fields 11)

/-- The member at an offset is an entry, and the offset behind it is `next`. -/
structure ReadsAt (raw : Bytes) (offset : ℤ) (entry : Entry) (next : ℤ) : Prop where
  header : offset + headerSize ≤ raw.length
  magic : slice raw offset (offset + 6) = entry.magic.bytes
  fields : ∀ index, readField raw offset index = some (entry.fields index)
  nameSize : 1 ≤ entry.fields 11
  nameEnd : offset + headerSize + entry.fields 11 ≤ raw.length
  nul : item raw (offset + headerSize + entry.fields 11 - 1) = some 0
  name : Utf8.decode (slice raw (offset + headerSize)
    (offset + headerSize + entry.fields 11 - 1)) = some entry.name
  dataEnd : entry.dataStart offset + entry.fields 6 ≤ raw.length
  data : entry.data =
    slice raw (entry.dataStart offset) (entry.dataStart offset + entry.fields 6)
  crc : entry.magic = .crc → (checksum entry.data : ℤ) = entry.fields 12
  next : next = align4 (entry.dataStart offset + entry.fields 6)

theorem Magic.ofBytes_eq_some_iff {bytes : Bytes} {magic : Magic} :
  Magic.ofBytes bytes = some magic ↔ bytes = magic.bytes
  := by
  constructor
  · intro h
    rw [Magic.ofBytes] at h
    split at h
    · cases h
      assumption
    · split at h
      · cases h
        assumption
      · cases h
  · rintro rfl
    cases magic with
    | newc => rfl
    | crc => rfl

theorem readMagic_eq_ok_iff {raw : Bytes} {offset : ℤ} {magic : Magic} :
  readMagic raw offset = .ok magic ↔ slice raw offset (offset + 6) = magic.bytes
  := by
  rw [← Magic.ofBytes_eq_some_iff, readMagic]
  split
  · next m hm =>
    rw [hm, Except.ok.injEq, Option.some.injEq]
  · next hm =>
    rw [hm]
    simp

theorem readFields_eq_ok_iff {raw : Bytes} {offset : ℤ} {fields : Fin 13 → ℤ} :
  readFields raw offset = .ok fields ↔
    ∀ index, readField raw offset index = some (fields index)
  := by
  rw [readFields]
  split
  · next hsome =>
    rw [Except.ok.injEq]
    constructor
    · rintro rfl index
      apply (Option.some_get _).symm
    · intro h
      funext index
      apply Option.get_of_eq_some _ (h index)
  · next hsome =>
    constructor
    · intro h
      cases h
    · intro h
      apply absurd _ hsome
      intro index
      rw [h index]
      rfl

theorem readName_eq_ok_iff {raw : Bytes} {nameStart nameSize : ℤ} {name : Text} :
  readName raw nameStart nameSize = .ok name ↔
    1 ≤ nameSize ∧ nameStart + nameSize ≤ raw.length ∧
      item raw (nameStart + nameSize - 1) = some 0 ∧
      Utf8.decode (slice raw nameStart (nameStart + nameSize - 1)) = some name
  := by
  rw [readName]
  split
  · simp
    omega
  · simp only
    split
    · simp
      omega
    · split
      · next hitem => simp [hitem]
      · next last hitem =>
        split
        · next hlast => simp [hitem, hlast]
        · next hlast =>
          rw [hitem, not_not.mp hlast]
          split
          · next hname => simp [hname]
          · next found hname =>
            rw [hname, Except.ok.injEq, Option.some.injEq]
            constructor
            · rintro rfl
              exact ⟨by omega, by omega, rfl, rfl⟩
            · rintro ⟨-, -, -, h⟩
              apply Option.some.inj h

theorem readData_eq_ok_iff {raw : Bytes} {magic : Magic} {name : Text}
    {dataStart fileSize crc : ℤ} {data : Bytes} :
  readData raw magic name dataStart fileSize crc = .ok data ↔
    dataStart + fileSize ≤ raw.length ∧ data = slice raw dataStart (dataStart + fileSize) ∧
      (magic = .crc → (checksum data : ℤ) = crc)
  := by
  rw [readData]
  split
  · simp
    omega
  · simp only
    split
    · next hcrc =>
      constructor
      · intro h
        cases h
      · rintro ⟨-, rfl, h⟩
        exact absurd (h hcrc.1) hcrc.2
    · next hcrc =>
      rw [Except.ok.injEq]
      constructor
      · rintro rfl
        refine ⟨by omega, rfl, ?_⟩
        intro hmagic
        by_contra hne
        exact hcrc ⟨hmagic, hne⟩
      · rintro ⟨-, rfl, -⟩
        rfl

theorem readMember_eq_ok_iff {raw : Bytes} {offset next : ℤ} {entry : Entry} :
  readMember raw offset = .ok (entry, next) ↔ ReadsAt raw offset entry next
  := by
  rw [readMember]
  split
  · next hlt =>
    constructor
    · intro h
      cases h
    · intro h
      have hheader := h.header
      omega
  · next hle =>
    simp only [Except.bind_eq_ok_iff, readMagic_eq_ok_iff, readFields_eq_ok_iff,
      readName_eq_ok_iff, readData_eq_ok_iff]
    constructor
    · rintro ⟨magic, hmagic, fields, hfields, name, ⟨hsize, hend, hnul, hname⟩, data,
        ⟨hdataEnd, hdata, hcrc⟩, h⟩
      cases h
      exact ⟨by omega, hmagic, hfields, hsize, hend, hnul, hname, hdataEnd, hdata, hcrc, rfl⟩
    · rintro ⟨hheader, hmagic, hfields, hsize, hend, hnul, hname, hdataEnd, hdata, hcrc, rfl⟩
      exact ⟨_, hmagic, _, hfields, _, ⟨hsize, hend, hnul, hname⟩, _, ⟨hdataEnd, hdata, hcrc⟩, rfl⟩

/-- A magic lies in the file, at its start or counted from its end. -/
theorem neg_length_le_of_readMagic {raw : Bytes} {offset : ℤ} {magic : Magic}
    (h : readMagic raw offset = .ok magic) :
  -(raw.length : ℤ) ≤ offset
  := by
  have hlen : (slice raw offset (offset + (6 : ℕ))).length = 6 := by
    apply (congrArg List.length (readMagic_eq_ok_iff.mp h)).trans
    cases magic with
    | newc => rfl
    | crc => rfl
  apply (bound_of_length_slice (by decide) hlen).1

theorem ReadsAt.offset_bounds {raw : Bytes} {offset next : ℤ} {entry : Entry}
    (h : ReadsAt raw offset entry next) :
  -(raw.length : ℤ) ≤ offset ∧ offset ≤ raw.length
  := by
  have hheader := h.header
  exact ⟨neg_length_le_of_readMagic (readMagic_eq_ok_iff.mpr h.magic), by omega⟩

/-- The last byte of a name is not looked for outside of the file. -/
theorem readName_settles {raw : Bytes} {nameStart nameSize : ℤ}
    (h : -(raw.length : ℤ) ≤ nameStart) :
  (readName raw nameStart nameSize).Settles
  := by
  rw [readName]
  split
  · apply Outcome.settles_fail
  · simp only
    split
    · apply Outcome.settles_fail
    · have hitem : (item raw (nameStart + nameSize - 1)).isSome :=
        item_isSome (by omega) (by omega)
      split
      · next hnone =>
        rw [hnone] at hitem
        cases hitem
      · split
        · apply Outcome.settles_fail
        · split
          · apply Outcome.settles_fail
          · apply Outcome.settles_ok

/-- Reading a member returns or raises an error of the class. -/
theorem readMember_settles (raw : Bytes) (offset : ℤ) : (readMember raw offset).Settles := by
  rw [readMember]
  split
  · apply Outcome.settles_fail
  · apply Outcome.Settles.bind
    · rw [readMagic]
      split
      · apply Outcome.settles_ok
      · apply Outcome.settles_fail
    intro magic hmagic
    apply Outcome.Settles.bind
    · rw [readFields]
      split
      · apply Outcome.settles_ok
      · apply Outcome.settles_fail
    intro fields _
    apply Outcome.Settles.bind
    · apply readName_settles
      have hlo := neg_length_le_of_readMagic hmagic
      unfold headerSize
      omega
    intro name _
    apply Outcome.Settles.bind
    · rw [readData]
      split
      · apply Outcome.settles_fail
      · simp only
        split
        · apply Outcome.settles_fail
        · apply Outcome.settles_ok
    intro data _
    apply Outcome.settles_ok

theorem check_settles (raw : Bytes) (offset : ℤ) (entries : List Entry) :
  (check raw offset entries).Settles
  := by
  rw [check]
  split
  · apply Outcome.settles_fail
  · split
    · apply Outcome.settles_fail
    · split
      · apply Outcome.settles_fail
      · split
        · apply Outcome.settles_fail
        · apply Outcome.settles_ok

/-! ### The walk of the loop -/

/-- A member that is read, with the offsets where it starts and where it ends. -/
structure Member where
  start : ℤ
  entry : Entry
  stop : ℤ

/-- The loop walks through members from an offset to an offset; none of them is a trailer. -/
def Path (raw : Bytes) : ℤ → List Member → ℤ → Prop
  | offset, [], stop => offset = stop
  | offset, member :: members, stop =>
    member.start = offset ∧ readMember raw offset = .ok (member.entry, member.stop) ∧
      member.entry.name ≠ trailer ∧ Path raw member.stop members stop

/-- The loop walks through members from the start of the file to a trailer, and ends behind
it. -/
def Traversal (raw : Bytes) (members : List Member) (stop : ℤ) : Prop :=
  ∃ before last, members = before ++ [last] ∧ Path raw 0 before last.start ∧
    readMember raw last.start = .ok (last.entry, stop) ∧ last.stop = stop ∧
    last.entry.name = trailer

theorem Path.concat {raw : Bytes} {offset stop next : ℤ} {members : List Member} {entry : Entry}
    (h : Path raw offset members stop) (hread : readMember raw stop = .ok (entry, next))
    (hname : entry.name ≠ trailer) :
  Path raw offset (members ++ [⟨stop, entry, next⟩]) next
  := by
  induction members generalizing offset with
  | nil =>
      obtain rfl : offset = stop := h
      exact ⟨rfl, hread, hname, rfl⟩
  | cons member members ih =>
      obtain ⟨hstart, hmember, hne, hpath⟩ := h
      exact ⟨hstart, hmember, hne, ih hpath⟩

/-- Of two walks from one offset, one goes on where the other ends. -/
theorem Path.comparable {raw : Bytes} {offset stop stop' : ℤ} {members members' : List Member}
    (h : Path raw offset members stop) (h' : Path raw offset members' stop') :
  (∃ rest, members' = members ++ rest ∧ Path raw stop rest stop') ∨
    ∃ rest, members = members' ++ rest ∧ Path raw stop' rest stop
  := by
  induction members generalizing offset members' with
  | nil =>
      obtain rfl : offset = stop := h
      exact .inl ⟨members', rfl, h'⟩
  | cons member members ih =>
      cases members' with
      | nil =>
          obtain rfl : offset = stop' := h'
          exact .inr ⟨member :: members, rfl, h⟩
      | cons member' members' =>
          obtain ⟨rfl, hread, hne, hpath⟩ := h
          obtain ⟨hstart, hread', -, hpath'⟩ := h'
          rw [hread] at hread'
          obtain ⟨hentry, hstop⟩ := Prod.mk.inj (Except.ok.inj hread')
          obtain rfl : member = member' := by
            obtain ⟨start, entry, stop⟩ := member
            obtain ⟨start', entry', stop'⟩ := member'
            cases hstart
            cases hentry
            cases hstop
            rfl
          rcases ih hpath hpath' with ⟨rest, rfl, hrest⟩ | ⟨rest, rfl, hrest⟩
          · exact .inl ⟨rest, rfl, hrest⟩
          · exact .inr ⟨rest, rfl, hrest⟩

/-! ### The loop follows the walk -/

theorem round_member {raw : Bytes} {offset next : ℤ} {entries : List Entry} {entry : Entry}
    (hread : readMember raw offset = .ok (entry, next)) (hname : entry.name ≠ trailer) :
  round raw (offset, entries) = .inl (next, entries ++ [entry])
  := by
  rw [round]
  simp only [hread, if_neg hname]

theorem round_trailer {raw : Bytes} {offset next : ℤ} {entries : List Entry} {entry : Entry}
    (hread : readMember raw offset = .ok (entry, next)) (hname : entry.name = trailer) :
  round raw (offset, entries) = .inr (.ok (next, entries ++ [entry]))
  := by
  rw [round]
  simp only [hread, if_pos hname]

theorem round_error {raw : Bytes} {offset : ℤ} {entries : List Entry} {fault : Fault Error}
    (hread : readMember raw offset = .error fault) :
  round raw (offset, entries) = .inr (.error fault)
  := by
  rw [round]
  simp only [hread]

/-- What a round that goes round again has read. -/
theorem round_eq_inl_iff {raw : Bytes} {offset next : ℤ} {entries entries' : List Entry} :
  round raw (offset, entries) = .inl (next, entries') ↔
    ∃ entry, readMember raw offset = .ok (entry, next) ∧ entry.name ≠ trailer ∧
      entries' = entries ++ [entry]
  := by
  constructor
  · intro h
    cases hread : readMember raw offset with
    | error fault =>
        rw [round_error hread] at h
        cases h
    | ok result =>
        obtain ⟨entry, next'⟩ := result
        rcases eq_or_ne entry.name trailer with hname | hname
        · rw [round_trailer hread hname] at h
          cases h
        · rw [round_member hread hname] at h
          cases h
          exact ⟨entry, rfl, hname, rfl⟩
  · rintro ⟨entry, hread, hname, rfl⟩
    apply round_member hread hname

/-- The loop gets to the end of every walk. -/
theorem Path.returns {raw : Bytes} {offset stop : ℤ} {members : List Member}
    (h : Path raw offset members stop) (entries : List Entry)
    (r : Outcome Error (ℤ × List Entry)) :
  Loop.Returns (round raw) (offset, entries) r ↔
    Loop.Returns (round raw) (stop, entries ++ members.map Member.entry) r
  := by
  induction members generalizing offset entries with
  | nil =>
      obtain rfl : offset = stop := h
      rw [List.map_nil, List.append_nil]
  | cons member members ih =>
      obtain ⟨-, hread, hname, hpath⟩ := h
      rw [Loop.returns_inl (round_member hread hname), ih hpath, List.map_cons,
        List.append_assoc, List.singleton_append]

/-- How the loop over a file ends: at a member that cannot be read, or behind a trailer. -/
inductive Ends (raw : Bytes) : Outcome Error (ℤ × List Entry) → Prop
  | error {members : List Member} {stop : ℤ} {fault : Fault Error}
      (path : Path raw 0 members stop) (read : readMember raw stop = .error fault) :
      Ends raw (.error fault)
  | trailer {members : List Member} {stop : ℤ} (traversal : Traversal raw members stop) :
      Ends raw (.ok (stop, members.map Member.entry))

theorem returns_iff {raw : Bytes} {r : Outcome Error (ℤ × List Entry)} :
  Loop.Returns (round raw) (0, []) r ↔ Ends raw r
  := by
  constructor
  · intro h
    let walked (st : ℤ × List Entry) : Prop :=
      ∃ members, Path raw 0 members st.1 ∧ st.2 = members.map Member.entry
    have hstart : walked (0, []) := ⟨[], rfl, rfl⟩
    refine Loop.Returns.post walked (Ends raw) ?_ ?_ hstart h
    · rintro ⟨offset, entries⟩ ⟨next, entries'⟩ ⟨members, hpath, hentries⟩ hround
      obtain ⟨entry, hread, hname, rfl⟩ := round_eq_inl_iff.mp hround
      use members ++ [⟨offset, entry, next⟩], hpath.concat hread hname
      change entries = _ at hentries
      rw [List.map_append, hentries]
      rfl
    · rintro ⟨offset, entries⟩ r ⟨members, hpath, hentries⟩ hround
      obtain rfl : entries = members.map Member.entry := hentries
      cases hread : readMember raw offset with
      | error fault =>
          rw [round_error hread] at hround
          cases hround
          apply Ends.error hpath hread
      | ok result =>
          obtain ⟨entry, next⟩ := result
          rcases eq_or_ne entry.name trailer with hname | hname
          · rw [round_trailer hread hname] at hround
            cases hround
            have htraversal : Traversal raw (members ++ [⟨offset, entry, next⟩]) next :=
              ⟨members, _, rfl, hpath, hread, rfl, hname⟩
            have hends := Ends.trailer htraversal
            rwa [List.map_append] at hends
          · rw [round_member hread hname] at hround
            cases hround
  · intro h
    cases h with
    | error hpath hread => rw [hpath.returns, Loop.returns_inr (round_error hread)]
    | trailer htraversal =>
        obtain ⟨before, last, rfl, hpath, hread, -, hname⟩ := htraversal
        rw [hpath.returns, Loop.returns_inr (round_trailer hread hname), List.map_append]
        rfl

/-- A loop that is stopped for its number of rounds would never have ended. -/
theorem not_terminates_of_iterate_none {raw : Bytes}
    (h : Loop.iterate (round raw) (2 * raw.length + 2) (0, []) = none) :
  ¬ Loop.Terminates (round raw) (0, [])
  := by
  refine Loop.not_terminates_of_card Prod.fst (Finset.Icc (-(raw.length : ℤ)) raw.length)
    ?_ ?_ ?_ h
  · rintro ⟨offset, entries⟩ ⟨next, entries'⟩ hround
    obtain ⟨entry, hread, -⟩ := round_eq_inl_iff.mp hround
    apply Finset.mem_Icc.mpr (readMember_eq_ok_iff.mp hread).offset_bounds
  · rintro ⟨offset, entries⟩ ⟨_, other⟩ ⟨next, entries'⟩ rfl hround
    obtain ⟨entry, hread, hname, -⟩ := round_eq_inl_iff.mp hround
    exact ⟨_, round_member hread hname, rfl⟩
  · rw [Int.card_Icc]
    omega

/-- What `parse` makes of what the loop returns. -/
def finish (raw : Bytes) (r : Outcome Error (ℤ × List Entry)) : Outcome Error (List Entry) := do
  let (offset, entries) ← r
  check raw offset entries
  return entries

theorem parse_eq_finish {raw : Bytes} {r : Outcome Error (ℤ × List Entry)}
    (h : Loop.Returns (round raw) (0, []) r) :
  parse raw = finish raw r
  := by
  unfold parse
  generalize hiter : Loop.iterate (round raw) (2 * raw.length + 2) (0, []) = found
  cases found with
  | none =>
      exfalso
      apply not_terminates_of_iterate_none hiter
      use r
  | some r' =>
      obtain rfl : r = r' := by
        apply h.unique
        use 2 * raw.length + 2
      cases r with
      | error fault => rfl
      | ok result => rfl

theorem finish_settles {raw : Bytes} {r : Outcome Error (ℤ × List Entry)} (h : r.Settles) :
  (finish raw r).Settles
  := by
  apply Outcome.Settles.bind h
  rintro ⟨offset, entries⟩ _
  apply Outcome.Settles.bind (check_settles raw offset entries)
  intro _ _
  apply Outcome.settles_ok

/-- If the loop ends, `parse` returns or raises an error of the class. -/
theorem parse_settles {raw : Bytes} (h : Loop.Terminates (round raw) (0, [])) :
  (parse raw).Settles
  := by
  obtain ⟨r, hr⟩ := h
  rw [parse_eq_finish hr]
  apply finish_settles
  cases returns_iff.mp hr with
  | error hpath hread =>
      intro fault h
      cases h
      apply readMember_settles raw _ _ hread
  | trailer htraversal => apply Outcome.settles_ok

theorem parse_eq_diverges_iff {raw : Bytes} :
  parse raw = .diverges ↔ ¬ Loop.Terminates (round raw) (0, [])
  := by
  constructor
  · intro h hends
    obtain ⟨e, he⟩ := parse_settles hends _ h
    cases he
  · intro h
    unfold parse
    generalize hiter : Loop.iterate (round raw) (2 * raw.length + 2) (0, []) = found
    cases found with
    | none => rfl
    | some r =>
        exfalso
        apply h
        use r, 2 * raw.length + 2

/-! ### When the extents are consecutive -/

/-- Members that lie one behind the other from an offset on, each at least as long as a
header. -/
def Consecutive : ℤ → List Member → Prop
  | _, [] => True
  | offset, member :: members =>
    member.start = offset ∧ offset + headerSize ≤ member.stop ∧ Consecutive member.stop members

/-- The loop ends, with a value or an error of the class; and the members of an archive that is
returned lie one behind the other inside the file, so that no two overlap. -/
structure Bounded (raw : Bytes) : Prop where
  ends : Loop.Terminates (round raw) (0, [])
  raises : (parse raw).Settles
  extents : ∀ entries, parse raw = .ok entries →
    ∃ members stop, Traversal raw members stop ∧ members.map Member.entry = entries ∧
      Consecutive 0 members ∧
      (∀ member ∈ members, 0 ≤ member.start ∧ member.stop ≤ raw.length) ∧
      members.Pairwise fun member member' => member.stop ≤ member'.start

/-- No member that is reached from an offset has a size so far below zero that it would end
before its own header does. -/
def Advances (raw : Bytes) (offset : ℤ) : Prop :=
  ∀ members start entry stop, Path raw offset members start →
    readMember raw start = .ok (entry, stop) → start + headerSize ≤ stop

/-- The walk comes to an offset without a well-formed member, or to a trailer behind which the
file is not as it must be. -/
def Refused (raw : Bytes) : Prop :=
  (∃ members stop e, Path raw 0 members stop ∧ readMember raw stop = .fail e) ∨
    ∃ members stop e, Traversal raw members stop ∧
      check raw stop (members.map Member.entry) = .fail e

theorem Consecutive.start_le {offset : ℤ} {members : List Member}
    (h : Consecutive offset members) :
  ∀ member ∈ members, offset ≤ member.start ∧ member.start + headerSize ≤ member.stop
  := by
  induction members generalizing offset with
  | nil => nofun
  | cons first members ih =>
      obtain ⟨hstart, hstop, hrest⟩ := h
      intro member hmember
      rcases List.mem_cons.mp hmember with rfl | hmember
      · exact ⟨by omega, by omega⟩
      · obtain ⟨hle, hsize⟩ := ih hrest member hmember
        unfold headerSize at hstop
        exact ⟨by omega, hsize⟩

theorem Consecutive.pairwise {offset : ℤ} {members : List Member}
    (h : Consecutive offset members) :
  members.Pairwise fun member member' => member.stop ≤ member'.start
  := by
  induction members generalizing offset with
  | nil => exact List.Pairwise.nil
  | cons first members ih =>
      obtain ⟨-, -, hrest⟩ := h
      apply List.Pairwise.cons
      · intro member hmember
        apply (hrest.start_le member hmember).1
      · apply ih hrest

/-- From the end of a member that is reached all members that are reached advance. -/
theorem Advances.next {raw : Bytes} {offset next : ℤ} {entry : Entry} (h : Advances raw offset)
    (hread : readMember raw offset = .ok (entry, next)) (hname : entry.name ≠ trailer) :
  Advances raw next
  := by
  intro members start entry' stop hpath hread'
  apply h (⟨offset, entry, next⟩ :: members) start entry' stop _ hread'
  exact ⟨rfl, hread, hname, hpath⟩

theorem Advances.consecutive {raw : Bytes} {offset : ℤ} {before : List Member} {last : Member}
    (h : Advances raw offset) (hpath : Path raw offset before last.start)
    (hread : readMember raw last.start = .ok (last.entry, last.stop)) :
  Consecutive offset (before ++ [last])
  := by
  induction before generalizing offset with
  | nil =>
      obtain rfl : offset = last.start := hpath
      exact ⟨rfl, h [] _ _ _ rfl hread, trivial⟩
  | cons member before ih =>
      obtain ⟨hstart, hmember, hname, hpath⟩ := hpath
      exact ⟨hstart, h [] _ _ _ rfl hmember, ih (h.next hmember hname) hpath⟩

/-- If every member advances, the loop ends: each round leaves less of the file. -/
theorem Advances.terminates {raw : Bytes} (h : Advances raw 0) :
  Loop.Terminates (round raw) (0, [])
  := by
  let advances (st : ℤ × List Entry) : Prop := Advances raw st.1
  have hstart : advances (0, []) := h
  apply Loop.terminates_of_measure advances fun st => (raw.length - st.1).toNat
  · rintro ⟨offset, entries⟩ ⟨next, entries'⟩ hadv hround
    change Advances raw offset at hadv
    obtain ⟨entry, hread, hname, -⟩ := round_eq_inl_iff.mp hround
    have hheader := (readMember_eq_ok_iff.mp hread).header
    have hnext := hadv [] _ _ _ rfl hread
    refine ⟨hadv.next hread hname, ?_⟩
    unfold headerSize at hheader hnext
    simp only
    omega
  · exact hstart

theorem Path.reads {raw : Bytes} {offset stop : ℤ} {members : List Member}
    (h : Path raw offset members stop) :
  ∀ member ∈ members, readMember raw member.start = .ok (member.entry, member.stop)
  := by
  induction members generalizing offset with
  | nil => nofun
  | cons first members ih =>
      obtain ⟨hstart, hread, -, hpath⟩ := h
      intro member hmember
      rcases List.mem_cons.mp hmember with rfl | hmember
      · rw [hstart, hread]
      · apply ih hpath member hmember

theorem Traversal.reads {raw : Bytes} {stop : ℤ} {members : List Member}
    (h : Traversal raw members stop) :
  ∀ member ∈ members, readMember raw member.start = .ok (member.entry, member.stop)
  := by
  obtain ⟨before, last, rfl, hpath, hread, rfl, -⟩ := h
  intro member hmember
  rcases List.mem_append.mp hmember with hmember | hmember
  · apply hpath.reads member hmember
  · rw [List.mem_singleton.mp hmember, hread]

/-- A walk that a traversal has reached reads a member of the traversal next. -/
theorem Traversal.mem_of_read {raw : Bytes} {start stop stop' : ℤ} {members members' : List Member}
    {entry : Entry} (h : Traversal raw members stop) (hpath : Path raw 0 members' start)
    (hread : readMember raw start = .ok (entry, stop')) :
  ⟨start, entry, stop'⟩ ∈ members
  := by
  obtain ⟨before, last, rfl, hbefore, hlast, rfl, hname⟩ := h
  have hmem (hstart : start = last.start) : (⟨start, entry, stop'⟩ : Member) = last := by
    rw [hstart, hlast] at hread
    obtain ⟨hentry, hstop⟩ := Prod.mk.inj (Except.ok.inj hread)
    rw [hstart, ← hentry, ← hstop]
  rcases hpath.comparable hbefore with ⟨rest, rfl, hrest⟩ | ⟨rest, rfl, hrest⟩
  · cases rest with
    | nil =>
        rw [hmem hrest]
        apply List.mem_append_right _ (List.mem_singleton_self last)
    | cons member rest =>
        obtain ⟨hstart, hmember, -⟩ := hrest
        rw [hmember] at hread
        obtain ⟨rfl, rfl⟩ := Prod.mk.inj (Except.ok.inj hread)
        rw [← hstart]
        simp
  · cases rest with
    | nil =>
        obtain rfl : last.start = start := hrest
        rw [hmem rfl]
        apply List.mem_append_right _ (List.mem_singleton_self last)
    | cons member rest =>
        obtain ⟨hstart, hmember, hne, -⟩ := hrest
        rw [hmember] at hlast
        obtain ⟨hentry, -⟩ := Prod.mk.inj (Except.ok.inj hlast)
        rw [hentry] at hne
        exact absurd hname hne

theorem check_eq_ok_iff {raw : Bytes} {offset : ℤ} {entries : List Entry} :
  check raw offset entries = .ok () ↔
    (∀ c ∈ sliceFrom raw offset, c = 0) ∧ raw.length % alignment = 0 ∧
      (entries.map Entry.name).head? = some "sw-description".toList ∧
      (entries.map Entry.name).getLast? = some trailer ∧ (entries.map Entry.name).Nodup
  := by
  rw [check]
  split
  · next hany =>
    constructor
    · intro h
      cases h
    · rintro ⟨hzero, -⟩
      obtain ⟨c, hc, hne⟩ := List.any_eq_true.mp hany
      simp [hzero c hc] at hne
  · next hany =>
    have hzero : ∀ c ∈ sliceFrom raw offset, c = 0 := by simpa using hany
    split
    · next hlen => simp [hlen]
    · next hlen =>
      split
      · next horder =>
        constructor
        · intro h
          cases h
        · rintro ⟨-, -, hhead, hlast, -⟩
          exact absurd horder (by simp [hhead, hlast])
      · next horder =>
        rw [not_or, not_not, not_not] at horder
        split
        · next hdup => simp [hdup]
        · next hdup =>
          simp only [true_iff]
          exact ⟨hzero, not_not.mp hlen, horder.1, horder.2, not_not.mp hdup⟩

/-- What `parse` returns when it returns. -/
theorem parse_eq_ok_iff {raw : Bytes} {entries : List Entry} :
  parse raw = .ok entries ↔
    ∃ members stop, Traversal raw members stop ∧ members.map Member.entry = entries ∧
      check raw stop entries = .ok ()
  := by
  constructor
  · intro h
    have hends : Loop.Terminates (round raw) (0, []) := by
      by_contra hdiverges
      rw [parse_eq_diverges_iff.mpr hdiverges] at h
      cases h
    obtain ⟨r, hr⟩ := hends
    rw [parse_eq_finish hr] at h
    cases returns_iff.mp hr with
    | error hpath hread => cases h
    | trailer htraversal =>
        rw [finish, Except.ok_bind, Except.bind_eq_ok_iff] at h
        obtain ⟨_, hcheck, h⟩ := h
        cases h
        exact ⟨_, _, htraversal, rfl, hcheck⟩
  · rintro ⟨members, stop, htraversal, rfl, hcheck⟩
    rw [parse_eq_finish (returns_iff.mpr (Ends.trailer htraversal)), finish, Except.ok_bind]
    simp only [hcheck, Except.ok_bind]
    rfl

/-- The loop ends, and an archive that is returned has consecutive extents, exactly when every
member that is reached advances, or the walk comes to something that is refused. -/
theorem parse_bounded_iff (raw : Bytes) : Bounded raw ↔ Advances raw 0 ∨ Refused raw := by
  constructor
  · rintro ⟨⟨r, hr⟩, hraises, hextents⟩
    cases returns_iff.mp hr with
    | @error _ _ fault hpath hread =>
        obtain ⟨e, rfl⟩ := readMember_settles _ _ fault hread
        exact .inr (.inl ⟨_, _, e, hpath, hread⟩)
    | @trailer members stop htraversal =>
        cases hcheck : check raw stop (members.map Member.entry) with
        | error fault =>
            obtain ⟨e, rfl⟩ := check_settles _ _ _ fault hcheck
            exact .inr (.inr ⟨_, _, e, htraversal, hcheck⟩)
        | ok u =>
            left
            obtain ⟨members', stop', htraversal', -, hconsecutive, -⟩ := hextents _
              (parse_eq_ok_iff.mpr ⟨_, _, htraversal, rfl, hcheck⟩)
            intro before start entry next hpath hread
            apply (hconsecutive.start_le _ (htraversal'.mem_of_read hpath hread)).2
  · rintro (hadvances | hrefused)
    · refine ⟨hadvances.terminates, parse_settles hadvances.terminates, ?_⟩
      intro entries hparse
      obtain ⟨members, stop, htraversal, hentries, hcheck⟩ := parse_eq_ok_iff.mp hparse
      obtain ⟨-, haligned, -⟩ := check_eq_ok_iff.mp hcheck
      have hconsecutive : Consecutive 0 members := by
        obtain ⟨before, last, rfl, hpath, hread, rfl, -⟩ := htraversal
        apply hadvances.consecutive hpath hread
      refine ⟨members, stop, htraversal, hentries, hconsecutive, ?_, hconsecutive.pairwise⟩
      intro member hmember
      refine ⟨(hconsecutive.start_le member hmember).1, ?_⟩
      have hreads := readMember_eq_ok_iff.mp (htraversal.reads member hmember)
      have hend := hreads.dataEnd
      rw [hreads.next, align4]
      unfold alignment at haligned
      omega
    · have hends : ∃ r, Loop.Returns (round raw) (0, []) r ∧
          ∀ entries, finish raw r ≠ .ok entries := by
        rcases hrefused with ⟨members, stop, e, hpath, hread⟩ |
          ⟨members, stop, e, htraversal, hcheck⟩
        · refine ⟨_, returns_iff.mpr (Ends.error hpath hread), ?_⟩
          intro entries h
          cases h
        · refine ⟨_, returns_iff.mpr (Ends.trailer htraversal), ?_⟩
          intro entries h
          rw [finish, Except.ok_bind] at h
          simp only [hcheck] at h
          cases h
      obtain ⟨r, hr, hne⟩ := hends
      refine ⟨⟨r, hr⟩, parse_settles ⟨r, hr⟩, ?_⟩
      intro entries hparse
      rw [parse_eq_finish hr] at hparse
      exact absurd hparse (hne entries)

/-! ### An archive without an end -/

/-- A member named `x` whose size of `-0000070` leads back to its own header. -/
def loopingArchive : Bytes :=
  Magic.newc.bytes ++ List.replicate 48 48 ++ [45, 48, 48, 48, 48, 48, 55, 48] ++
    List.replicate 32 48 ++ [48, 48, 48, 48, 48, 48, 48, 50] ++ List.replicate 8 48 ++ [120, 0]

theorem not_parse_bounded : ¬ Bounded loopingArchive := by
  have hread : ∃ entry, readMember loopingArchive 0 = .ok (entry, 0) ∧ entry.name ≠ trailer := by
    let fields (index : Fin 13) : ℤ := if index = 6 then -112 else if index = 11 then 2 else 0
    let entry : Entry := ⟨.newc, ['x'], fields, []⟩
    have hreads : ReadsAt loopingArchive 0 entry 0 := by
      constructor <;> decide +kernel
    exact ⟨entry, readMember_eq_ok_iff.mpr hreads, by decide⟩
  obtain ⟨entry, hread, hname⟩ := hread
  intro hbounded
  apply Loop.not_terminates_of_trap (fun st : ℤ × List Entry => st.1 = 0) _ rfl hbounded.ends
  rintro ⟨offset, entries⟩ (rfl : offset = 0)
  exact ⟨_, round_member hread hname, rfl⟩

end CpioArchive

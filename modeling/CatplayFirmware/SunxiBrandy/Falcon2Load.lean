import CatplayFirmware.SunxiBrandy.Falcon2
import Mathlib.Data.List.Forall2

/-!
# What `falcon2` loads

A payload is loaded exactly when all the checks of the loader pass, and loading it is undefined
exactly when a check is made behind the end of the block, or the output would be written over the
loader. A bundle whose header or one of whose payloads fails its checksum is never booted: the boot
ROM is entered, unless loading is undefined before.
-/

namespace Falcon2

open Bytes

/-- The entries of a bundle, in the order of their payloads. -/
def Bundle.entries (bundle : Bundle) : List Entry := [bundle.opensbi, bundle.dtb, bundle.kernel]

def firstOffset : UInt32 := bundleFlashOffset + sectorSize

/-- The offset behind the sectors of a payload. -/
def nextOffset (entry : Entry) (flashOffset : UInt32) : UInt32 :=
  flashOffset + sectors entry.size * sectorSize

/-- The entries with the offsets of their payloads. -/
def located : UInt32 → List Entry → List (Entry × UInt32)
  | _, [] => []
  | flashOffset, entry :: entries =>
    (entry, flashOffset) :: located (nextOffset entry flashOffset) entries

namespace Board

variable {board : Board}

/-- The bytes of a payload at an offset of the flash. -/
def payload (board : Board) (entry : Entry) (flashOffset : UInt32) : Bytes :=
  board.flashBytes ((flashSector flashOffset).toNat * 512) entry.size.toNat

/-! ### One payload -/

/-- All checks of the loader pass, and the payload is decompressed to `content`. -/
structure Loads (board : Board) (entry : Entry) (flashOffset : UInt32) (content : Bytes) :
    Prop where
  compressionType : entry.compressionType = bundleGzip
  malloc : board.mallocFails flashOffset (sectors entry.size * sectorSize) = false
  read : board.readFails (flashSector flashOffset) (sectors entry.size) = none
  size : entry.size.toNat ≤ 2 ^ 32 - 512
  crc32 : board.crc32 (board.payload entry flashOffset) = entry.checksum
  gunzip : board.gunzip entry.uncompressedSize.toNat (board.payload entry flashOffset) =
    (content, true)
  clear : board.Clear entry.loadAddr.toNat content.length

/-- A payload of a size near the end of the words is read, or one with its checksum is
decompressed over the loader or behind the memory. -/
structure Harms (board : Board) (entry : Entry) (flashOffset : UInt32) : Prop where
  compressionType : entry.compressionType = bundleGzip
  malloc : board.mallocFails flashOffset (sectors entry.size * sectorSize) = false
  read : board.readFails (flashSector flashOffset) (sectors entry.size) = none
  harm : 2 ^ 32 - 512 < entry.size.toNat ∨
    board.crc32 (board.payload entry flashOffset) = entry.checksum ∧
      ¬ board.Clear entry.loadAddr.toNat (board.gunzip entry.uncompressedSize.toNat
        (board.payload entry flashOffset)).1.length

theorem take_flashBytes {off len n : ℕ} (h : n ≤ len) :
  (board.flashBytes off len).take n = board.flashBytes off n
  := by
  rw [flashBytes, flashBytes, ← List.map_take, List.take_range, Nat.min_eq_left h]

/-- What loading a payload comes to, check by check. -/
theorem result_loadBundleEntry (entry : Entry) (flashOffset : UInt32) :
  (board.loadBundleEntry entry flashOffset).result =
    if entry.compressionType ≠ bundleGzip then .error (.error .unsupportedComp)
    else if board.mallocFails flashOffset (sectors entry.size * sectorSize) then
      .error (.error .malloc)
    else match board.readFails (flashSector flashOffset) (sectors entry.size) with
      | some _ => .error (.error .payloadRead)
      | none =>
        let (content, done) := board.gunzip entry.uncompressedSize.toNat
          (board.payload entry flashOffset)
        if 2 ^ 32 - 512 < entry.size.toNat then .error .undefined
        else if board.crc32 (board.payload entry flashOffset) ≠ entry.checksum then
          .error (.error .payloadCrc)
        else if ¬ board.Clear entry.loadAddr.toNat content.length then .error .undefined
        else if done then .ok (entry.loadAddr.toNat, content)
        else .error (.error .gunzip)
  := by
  rw [loadBundleEntry]
  split
  · rfl
  rw [Traced.result_bind, Traced.result_act, Except.ok_bind]
  split
  · rfl
  rw [Traced.result_bind, spinorRead]
  cases board.readFails (flashSector flashOffset) (sectors entry.size) with
  | some written => rfl
  | none =>
      have hlen : (board.flashBytes ((flashSector flashOffset).toNat * 512)
          ((sectors entry.size).toNat * 512)).length =
            (sectors entry.size * sectorSize).toNat := by
        rw [length_flashBytes, toNat_readSize]
      simp only [Traced.result_bind, Traced.result_act, Traced.result_pure, Except.ok_bind, hlen]
      by_cases hsize : 2 ^ 32 - 512 < entry.size.toNat
      · rw [if_pos hsize, if_pos]
        · rfl
        · rw [← Nat.not_le, size_le_readSize_iff]
          omega
      · have hroom := size_le_readSize_iff.mpr (Nat.not_lt.mp hsize)
        have htake : (board.flashBytes ((flashSector flashOffset).toNat * 512)
            ((sectors entry.size).toNat * 512)).take entry.size.toNat =
              board.payload entry flashOffset := by
          rw [← toNat_readSize, take_flashBytes hroom]
          rfl
        rw [if_neg hsize, if_neg (Nat.not_lt.mpr hroom), htake]
        split
        · rfl
        rw [Traced.result_bind, Traced.result_act, Except.ok_bind]
        split
        · rfl
        split
        · rfl
        · rfl

theorem loadBundleEntry_eq_ok_iff {entry : Entry} {flashOffset : UInt32} {write : ℕ × Bytes} :
  (board.loadBundleEntry entry flashOffset).result = .ok write ↔
    board.Loads entry flashOffset write.2 ∧ write.1 = entry.loadAddr.toNat
  := by
  rw [result_loadBundleEntry]
  constructor
  · intro h
    split at h
    · cases h
    next htype =>
    split at h
    · cases h
    next hmalloc =>
    split at h
    · cases h
    next hread =>
    split at h
    next content done hgunzip =>
    split at h
    · cases h
    next hsize =>
    split at h
    · cases h
    next hcrc =>
    split at h
    · cases h
    next hclear =>
    split at h
    · next hdone =>
      cases h
      rw [hdone] at hgunzip
      use ⟨not_not.mp htype, Bool.eq_false_of_not_eq_true hmalloc, hread, Nat.not_lt.mp hsize,
        not_not.mp hcrc, hgunzip, not_not.mp hclear⟩
    · cases h
  · rintro ⟨h, haddr⟩
    rw [if_neg (not_not.mpr h.compressionType), h.malloc, h.read, h.gunzip]
    simp only [Bool.false_eq_true, if_false, if_true]
    rw [if_neg (Nat.not_lt.mpr h.size), if_neg (not_not.mpr h.crc32),
      if_neg (not_not.mpr h.clear), ← haddr]

theorem loadBundleEntry_eq_undefined_iff {entry : Entry} {flashOffset : UInt32} :
  (board.loadBundleEntry entry flashOffset).result = .error .undefined ↔
    board.Harms entry flashOffset
  := by
  rw [result_loadBundleEntry]
  constructor
  · intro h
    split at h
    · cases h
    next htype =>
    split at h
    · cases h
    next hmalloc =>
    split at h
    · cases h
    next hread =>
    use not_not.mp htype, Bool.eq_false_of_not_eq_true hmalloc, hread
    split at h
    next content done hgunzip =>
    split at h
    · next hsize =>
      left
      exact hsize
    right
    split at h
    · cases h
    next hcrc =>
    use not_not.mp hcrc
    rw [hgunzip]
    split at h
    · next hclear => exact hclear
    · split at h
      · cases h
      · cases h
  · intro h
    rw [if_neg (not_not.mpr h.compressionType), h.malloc, h.read]
    simp only [Bool.false_eq_true, if_false]
    split
    · rfl
    next hsize =>
    rcases h.harm with hlarge | ⟨hcrc, hclear⟩
    · exact absurd hlarge hsize
    · rw [if_neg (not_not.mpr hcrc), if_pos hclear]

/-- A payload that is loaded is read once. -/
theorem trace_loadBundleEntry {entry : Entry} {flashOffset : UInt32} {write : ℕ × Bytes}
    (h : (board.loadBundleEntry entry flashOffset).result = .ok write) :
  (board.loadBundleEntry entry flashOffset).trace.filterMap Access.extent =
    [((flashSector flashOffset).toNat, (sectors entry.size).toNat)]
  := by
  rw [loadBundleEntry] at h ⊢
  split at h
  · cases h
  next htype =>
  obtain ⟨-, -, h, htrace⟩ := Traced.bind_eq_ok h
  rw [if_neg htype, htrace]
  split at h
  · cases h
  next hmalloc =>
  obtain ⟨src, hsrc, h, htrace⟩ := Traced.bind_eq_ok h
  rw [if_neg hmalloc, htrace]
  obtain ⟨-, -, h, htrace⟩ := Traced.bind_eq_ok h
  rw [htrace]
  split at h
  · cases h
  next hlen =>
  split at h
  · cases h
  next hcrc =>
  obtain ⟨-, -, h, htrace⟩ := Traced.bind_eq_ok h
  rw [if_neg hlen, if_neg hcrc, htrace, spinorRead, (spinorRead_eq_ok_iff.mp hsrc).1]
  generalize board.gunzip entry.uncompressedSize.toNat (src.take entry.size.toNat) = out at h ⊢
  obtain ⟨content, done⟩ := out
  simp only at h ⊢
  split at h
  · cases h
  next hclear =>
  rw [if_neg hclear]
  split at h
  · next hdone =>
    rw [if_pos hdone]
    rfl
  · cases h

/-! ### All payloads -/

/-- The payloads of some entries, loaded one after the other. -/
def loadEntries (board : Board) : UInt32 → List Entry → Traced Access Stop (List (ℕ × Bytes))
  | _, [] => return []
  | flashOffset, entry :: entries => do
    let write ← board.loadBundleEntry entry flashOffset
    let writes ← loadEntries board (nextOffset entry flashOffset) entries
    return write :: writes

theorem loadBundle_eq (bundle : Bundle) :
  board.loadBundle bundle = board.loadEntries firstOffset bundle.entries
  := by
  simp only [loadEntries, Bundle.entries, Traced.bind_assoc, Traced.pure_bind]
  rfl

theorem loadEntries_eq_ok_iff {flashOffset : UInt32} {entries : List Entry}
    {writes : List (ℕ × Bytes)} :
  (board.loadEntries flashOffset entries).result = .ok writes ↔
    List.Forall₂ (fun place write => board.Loads place.1 place.2 write.2 ∧
      write.1 = place.1.loadAddr.toNat) (located flashOffset entries) writes
  := by
  induction entries generalizing flashOffset writes with
  | nil =>
      rw [located, List.forall₂_nil_left_iff]
      constructor
      · rintro ⟨⟩
        rfl
      · rintro rfl
        rfl
  | cons entry entries ih =>
      rw [loadEntries, located, List.forall₂_cons_left_iff]
      constructor
      · intro h
        obtain ⟨write, hwrite, h, -⟩ := Traced.bind_eq_ok h
        obtain ⟨writes', hwrites, h, -⟩ := Traced.bind_eq_ok h
        cases h
        exact ⟨write, writes', loadBundleEntry_eq_ok_iff.mp hwrite, ih.mp hwrites, rfl⟩
      · rintro ⟨write, writes', hwrite, hwrites, rfl⟩
        rw [Traced.result_bind, loadBundleEntry_eq_ok_iff.mpr hwrite, Except.ok_bind,
          Traced.result_bind, ih.mpr hwrites]
        rfl

theorem loads_of_mem {flashOffset : UInt32} {entries : List Entry} {writes : List (ℕ × Bytes)}
    (h : (board.loadEntries flashOffset entries).result = .ok writes) {place : Entry × UInt32}
    (hmem : place ∈ located flashOffset entries) :
  ∃ content, board.Loads place.1 place.2 content
  := by
  have hplaces := loadEntries_eq_ok_iff.mp h
  clear h
  generalize located flashOffset entries = places at hmem hplaces
  induction hplaces with
  | nil => cases hmem
  | cons hfirst _ ih =>
      rcases List.mem_cons.mp hmem with rfl | hmem
      · exact ⟨_, hfirst.1⟩
      · apply ih hmem

/-- Payloads that are loaded are read once each, one after the other. -/
theorem trace_loadEntries {flashOffset : UInt32} {entries : List Entry}
    {writes : List (ℕ × Bytes)}
    (h : (board.loadEntries flashOffset entries).result = .ok writes) :
  (board.loadEntries flashOffset entries).trace.filterMap Access.extent =
    (located flashOffset entries).map fun place =>
      ((flashSector place.2).toNat, (sectors place.1.size).toNat)
  := by
  induction entries generalizing flashOffset writes with
  | nil => rfl
  | cons entry entries ih =>
      rw [loadEntries] at h ⊢
      obtain ⟨write, hwrite, h, htrace⟩ := Traced.bind_eq_ok h
      obtain ⟨writes', hwrites, -, htrace'⟩ := Traced.bind_eq_ok h
      rw [htrace, htrace', List.filterMap_append, List.filterMap_append, ih hwrites,
        trace_loadBundleEntry hwrite, located]
      simp

/-- A payload that harms the loader is reached: all payloads before it are loaded. -/
def Overruns (board : Board) : UInt32 → List Entry → Prop
  | _, [] => False
  | flashOffset, entry :: entries =>
    board.Harms entry flashOffset ∨
      (∃ content, board.Loads entry flashOffset content) ∧
        Overruns board (nextOffset entry flashOffset) entries

theorem loadEntries_eq_undefined_iff {flashOffset : UInt32} {entries : List Entry} :
  (board.loadEntries flashOffset entries).result = .error .undefined ↔
    board.Overruns flashOffset entries
  := by
  induction entries generalizing flashOffset with
  | nil =>
      rw [Overruns, loadEntries]
      constructor
      · rintro ⟨⟩
      · exact False.elim
  | cons entry entries ih =>
      rw [Overruns, loadEntries, Traced.result_bind, Except.bind_eq_error_iff,
        loadBundleEntry_eq_undefined_iff]
      apply or_congr_right
      constructor
      · rintro ⟨write, hwrite, h⟩
        use ⟨write.2, (loadBundleEntry_eq_ok_iff.mp hwrite).1⟩
        rw [Traced.result_bind, Except.bind_eq_error_iff] at h
        rcases h with h | ⟨writes, -, ⟨⟩⟩
        apply ih.mp h
      · rintro ⟨⟨content, hcontent⟩, h⟩
        use (entry.loadAddr.toNat, content), loadBundleEntry_eq_ok_iff.mpr ⟨hcontent, rfl⟩
        rw [Traced.result_bind, ih.mpr h]
        rfl

/-! ### The header -/

/-- The header in the flash. -/
def header (board : Board) : Bundle := Bundle.ofBytes (board.flashBytes 0x40000 sizeofBundle)

/-- The header can be read and passes all checks. -/
structure HeaderLoads (board : Board) : Prop where
  read : board.readFails (flashSector bundleFlashOffset) 1 = none
  magic : board.header.magic = bundleMagic
  crc32 : board.crc32 (board.flashBytes 0x40008 72) = board.header.headerChecksum

theorem slice_flashBytes {off len k n : ℕ} (h : k + n ≤ len) :
  slice (board.flashBytes off len) k n = board.flashBytes (off + k) n
  := by
  apply List.ext_getElem
  · rw [length_slice, length_flashBytes]
    rw [length_flashBytes]
    exact h
  · intro i hi _
    simp only [slice, flashBytes, List.getElem_take, List.getElem_drop, List.getElem_map,
      List.getElem_range, Nat.add_assoc]

theorem result_loadBundleHeader :
  board.loadBundleHeader.result =
    match board.readFails (flashSector bundleFlashOffset) 1 with
    | some _ => .error (.error .headerRead)
    | none =>
      if board.header.magic ≠ bundleMagic then .error (.error .badMagic)
      else if board.crc32 (board.flashBytes 0x40008 72) ≠ board.header.headerChecksum then
        .error (.error .headerCrc)
      else .ok board.header
  := by
  have hstart : (flashSector bundleFlashOffset).toNat * 512 = 0x40000 := rfl
  have hone : (1 : UInt32).toNat * 512 = 512 := rfl
  have hsize : sizeofBundle = 80 := rfl
  rw [loadBundleHeader, Traced.result_bind, spinorRead]
  cases board.readFails (flashSector bundleFlashOffset) 1 with
  | some written => rfl
  | none =>
      have hheader : Bundle.ofBytes ((board.flashBytes 0x40000 512).take sizeofBundle) =
          board.header := by
        rw [take_flashBytes (by omega), header]
      have hchecked : slice (board.flashBytes 0x40000 512) 8 (sizeofBundle - 8) =
          board.flashBytes 0x40008 72 := by
        rw [hsize, slice_flashBytes (by omega)]
      simp only [Traced.result_bind, Traced.result_act, Traced.result_pure, Except.ok_bind, hstart,
        hone, hheader]
      split
      · rfl
      rw [Traced.result_bind, Traced.result_act, Except.ok_bind, hchecked]
      split
      · rfl
      · rfl

theorem loadBundleHeader_eq_ok_iff {bundle : Bundle} :
  board.loadBundleHeader.result = .ok bundle ↔ board.HeaderLoads ∧ bundle = board.header
  := by
  rw [result_loadBundleHeader]
  constructor
  · intro h
    split at h
    · cases h
    next hread =>
    split at h
    · cases h
    next hmagic =>
    split at h
    · cases h
    next hcrc =>
    cases h
    exact ⟨⟨hread, not_not.mp hmagic, not_not.mp hcrc⟩, rfl⟩
  · rintro ⟨h, rfl⟩
    rw [h.read]
    simp only
    rw [if_neg (not_not.mpr h.magic), if_neg (not_not.mpr h.crc32)]

theorem loadBundleHeader_ne_undefined : board.loadBundleHeader.result ≠ .error .undefined := by
  rw [result_loadBundleHeader]
  intro h
  split at h
  · cases h
  split at h
  · cases h
  split at h
  · cases h
  · cases h

/-! ### A boot -/

/-- The boot ROM is entered. -/
def EntersFel (board : Board) : Prop := ∃ report, board.main.2 = .fel report

/-- Loading is tried. -/
structure Starts (board : Board) : Prop where
  rtcFelFlag : board.rtcFelFlag = false
  flashInit : board.flashInit = 0
  header : board.HeaderLoads

/-- The header or a payload in the flash fails its checksum. -/
def FailsCrc (board : Board) : Prop :=
  board.crc32 (board.flashBytes 0x40008 72) ≠ board.header.headerChecksum ∨
    ∃ place ∈ located firstOffset board.header.entries,
      board.crc32 (board.payload place.1 place.2) ≠ place.1.checksum

/-- A boot is undefined exactly when a payload that harms the loader is reached. -/
theorem main_eq_undefined_iff :
  board.main.2 = .undefined ↔ board.Starts ∧ board.Overruns firstOffset board.header.entries
  := by
  rw [main, ← loadEntries_eq_undefined_iff, ← loadBundle_eq]
  constructor
  · intro h
    split at h
    · cases h
    next hflag =>
    split at h
    · cases h
    next hinit =>
    simp only at h
    split at h
    · next stop hstop =>
      cases stop with
      | error e => cases h
      | undefined => exact absurd hstop loadBundleHeader_ne_undefined
    next bundle hbundle =>
    obtain ⟨hheader, rfl⟩ := loadBundleHeader_eq_ok_iff.mp hbundle
    use ⟨Bool.eq_false_of_not_eq_true hflag, not_not.mp hinit, hheader⟩
    split at h
    · next stop hstop =>
      rw [hstop]
      cases stop with
      | error e => cases h
      | undefined => rfl
    · cases h
  · rintro ⟨hstarts, hload⟩
    rw [hstarts.rtcFelFlag, if_neg Bool.false_ne_true, if_neg (not_not.mpr hstarts.flashInit)]
    simp only
    rw [loadBundleHeader_eq_ok_iff.mpr ⟨hstarts.header, rfl⟩]
    simp only
    rw [hload]
    rfl

/-- The kernel is entered only from a bundle without a wrong checksum. -/
theorem not_failsCrc_of_kernel {dtb opensbi kernel : UInt32} {writes : List (ℕ × Bytes)}
    (h : board.main.2 = .kernel dtb opensbi kernel writes) :
  ¬ board.FailsCrc
  := by
  rw [main] at h
  split at h
  · cases h
  split at h
  · cases h
  simp only at h
  split at h
  · next stop hstop =>
    cases stop with
    | error e => cases h
    | undefined => cases h
  next bundle hbundle =>
  obtain ⟨hheader, rfl⟩ := loadBundleHeader_eq_ok_iff.mp hbundle
  split at h
  · next stop hstop =>
    cases stop with
    | error e => cases h
    | undefined => cases h
  next writes' hwrites =>
  rw [loadBundle_eq] at hwrites
  rintro (hcrc | ⟨place, hplace, hcrc⟩)
  · exact hcrc hheader.crc32
  · obtain ⟨content, hloads⟩ := loads_of_mem hwrites hplace
    exact hcrc hloads.crc32

/-- A bundle that fails a checksum leads to the boot ROM, unless a payload that harms the loader
is reached before. -/
theorem entersFel_iff (h : board.FailsCrc) :
  board.EntersFel ↔ ¬ (board.Starts ∧ board.Overruns firstOffset board.header.entries)
  := by
  rw [← main_eq_undefined_iff, EntersFel]
  cases hboot : board.main.2 with
  | fel report => simp
  | kernel dtb opensbi kernel writes => exact absurd h (not_failsCrc_of_kernel hboot)
  | undefined => simp

end Board

end Falcon2

import CatplayFirmware.Support.Endian
import CatplayFirmware.Support.Traced

/-!
# The boot loader `falcon2`

The loader reads the header of a bundle from the flash, then the three payloads of the bundle one
after the other, each in whole sectors, and decompresses them to the addresses that the header asks
for. Where anything goes wrong it leaves a report in the real-time clock and enters the boot ROM.
Sizes, offsets and addresses are words of 32 bits.

Every access to a buffer is recorded. The header is read in a whole sector into a structure that is
smaller, and a payload whose size is near the end of the words is read into no sectors at all.
-/

namespace Falcon2

open Bytes

/-! ### The bundle -/

def bundleFlashOffset : UInt32 := 0x40000
def bundleMagic : UInt32 := 0x56523243
def bundleGzip : UInt32 := 1

/-- `struct c2a_riscv_bundle_entry`. -/
structure Entry where
  size : UInt32
  uncompressedSize : UInt32
  compressionType : UInt32
  loadAddr : UInt32
  jumpAddr : UInt32
  /-- The checksum before decompression. -/
  checksum : UInt32
  deriving DecidableEq

/-- `struct c2a_riscv_bundle`. -/
structure Bundle where
  magic : UInt32
  headerChecksum : UInt32
  opensbi : Entry
  dtb : Entry
  kernel : Entry
  deriving DecidableEq

/-- The word at an offset. -/
def word (bytes : Bytes) (off : ℕ) : UInt32 := UInt32.ofNat (leNat (slice bytes off 4))

/-- The entry that 24 bytes stand for. -/
def Entry.ofBytes (bytes : Bytes) : Entry where
  size := word bytes 0
  uncompressedSize := word bytes 4
  compressionType := word bytes 8
  loadAddr := word bytes 12
  jumpAddr := word bytes 16
  checksum := word bytes 20

def sizeofBundle : ℕ := 80

/-- The bundle that 80 bytes stand for. -/
def Bundle.ofBytes (bytes : Bytes) : Bundle where
  magic := word bytes 0
  headerChecksum := word bytes 4
  opensbi := Entry.ofBytes (slice bytes 8 24)
  dtb := Entry.ofBytes (slice bytes 32 24)
  kernel := Entry.ofBytes (slice bytes 56 24)

/-! ### Errors -/

def rtcBootFail : UInt32 := 0x46455253
def rtcWordIndex : ℕ := 5
def rtcStatusIndex : ℕ := 6
def rtcMarkerIndex : ℕ := 7

inductive Err where
  | flashInit
  | headerRead
  | badMagic
  | headerCrc
  | unsupportedComp
  | payloadRead
  | payloadCrc
  | gunzip
  | malloc
  deriving DecidableEq

def Err.number : Err → UInt32
  | flashInit => 0x01
  | headerRead => 0x02
  | badMagic => 0x03
  | headerCrc => 0x04
  | unsupportedComp => 0x05
  | payloadRead => 0x06
  | payloadCrc => 0x07
  | gunzip => 0x08
  | malloc => 0x09

/-- The ways in which loading ends early. What the code does after it has read outside a buffer, or
has written over itself, is undefined. -/
inductive Stop where
  | error (e : Err)
  | undefined
  deriving DecidableEq

/-! ### Accesses -/

/-- An access to a buffer. -/
inductive Access where
  /-- A call of `spinor_read` for an object of `room` bytes, with the bytes that it writes. -/
  | read (start sectors : UInt32) (room written : ℕ)
  /-- A block for `size` bytes of payload. -/
  | malloc (size block : UInt32)
  /-- A checksum over `len` bytes, `got` of which come from the flash. -/
  | crc32 (len got : ℕ)
  /-- A decompression of `len` bytes, `got` of which come from the flash. -/
  | gunzip (len got : ℕ)
  deriving DecidableEq

/-- The access stays in its buffer. -/
def Access.InBounds : Access → Prop
  | read _ _ room written => written ≤ room
  | malloc size block => size.toNat ≤ block.toNat
  | crc32 len got => len ≤ got
  | gunzip len got => len ≤ got

/-- The sectors that are read, the first and their number. -/
def Access.extent : Access → Option (ℕ × ℕ)
  | read start sectors _ _ => some (start.toNat, sectors.toNat)
  | _ => none

/-- What the loader runs on: the flash, the memory, and the functions that it calls. -/
structure Board where
  rtcFelFlag : Bool
  flashInit : Int
  flash : ℕ → UInt8
  /-- A read that fails, with the number of bytes that are written before it fails. -/
  readFails : (start sectors : UInt32) → Option ℕ
  mallocFails : (flashOffset size : UInt32) → Bool
  crc32 : Bytes → UInt32
  /-- What `gunzip` writes for a number of bytes of room, and whether it returns zero. -/
  gunzip : ℕ → Bytes → Bytes × Bool
  /-- The memory of the loader itself: its code, its stack and its heap. -/
  own : ℕ → Bool

/-! ### The loader -/

def sectorSize : UInt32 := 512

/-- `FALCON2_FLASH_SECTOR`. -/
def flashSector (offset : UInt32) : UInt32 := offset / sectorSize

/-- `FALCON2_SECTORS`. -/
def sectors (size : UInt32) : UInt32 := (size + sectorSize - 1) / sectorSize

namespace Board

variable (board : Board)

/-- Some bytes of the flash. -/
def flashBytes (off len : ℕ) : Bytes := (List.range len).map fun i => board.flash (off + i)

/-- A call of `spinor_read` for an object of `room` bytes. -/
def spinorRead (start sectors : UInt32) (room : ℕ) (e : Err) : Traced Access Stop Bytes :=
  let len := sectors.toNat * 512
  match board.readFails start sectors with
  | some written => do
    .act (.read start sectors room (min written len))
    .fail (.error e)
  | none => do
    .act (.read start sectors room len)
    return board.flashBytes (start.toNat * 512) len

/-- `falcon2_load_bundle_header`. -/
def loadBundleHeader : Traced Access Stop Bundle := do
  let bytes ← board.spinorRead (flashSector bundleFlashOffset) 1 sizeofBundle .headerRead
  let bundle := Bundle.ofBytes (bytes.take sizeofBundle)
  if bundle.magic ≠ bundleMagic then .fail (.error .badMagic)
  else do
    .act (.crc32 (sizeofBundle - 8) (sizeofBundle - 8))
    if board.crc32 (slice bytes 8 (sizeofBundle - 8)) ≠ bundle.headerChecksum then
      .fail (.error .headerCrc)
    else return bundle

/-- Bytes that are written at an address lie in memory, and not in that of the loader. -/
def Clear (addr len : ℕ) : Prop := addr + len ≤ 2 ^ 32 ∧ ∀ i < len, board.own (addr + i) = false

instance (addr len : ℕ) : Decidable (board.Clear addr len) :=
  inferInstanceAs (Decidable (_ ∧ _))

/-- `falcon2_load_bundle_entry`, with the bytes that it has written and their address. -/
def loadBundleEntry (entry : Entry) (flashOffset : UInt32) : Traced Access Stop (ℕ × Bytes) :=
  let startSector := flashSector flashOffset
  let count := sectors entry.size
  let readSize := count * sectorSize
  if entry.compressionType ≠ bundleGzip then .fail (.error .unsupportedComp)
  else do
    .act (.malloc entry.size readSize)
    if board.mallocFails flashOffset readSize then .fail (.error .malloc)
    else do
      let src ← board.spinorRead startSector count readSize.toNat .payloadRead
      .act (.crc32 entry.size.toNat src.length)
      -- the checksum reads behind the block
      if src.length < entry.size.toNat then .fail .undefined
      else if board.crc32 (src.take entry.size.toNat) ≠ entry.checksum then
        .fail (.error .payloadCrc)
      else do
        .act (.gunzip entry.size.toNat src.length)
        let (content, done) :=
          board.gunzip entry.uncompressedSize.toNat (src.take entry.size.toNat)
        -- the output is written over the loader, or behind the memory
        if ¬ board.Clear entry.loadAddr.toNat content.length then .fail .undefined
        else if done then return (entry.loadAddr.toNat, content)
        else .fail (.error .gunzip)

/-- `falcon2_load_bundle`, with all that it has written. -/
def loadBundle (bundle : Bundle) : Traced Access Stop (List (ℕ × Bytes)) := do
  let offset := bundleFlashOffset + sectorSize
  let opensbi ← board.loadBundleEntry bundle.opensbi offset
  let offset := offset + sectors bundle.opensbi.size * sectorSize
  let dtb ← board.loadBundleEntry bundle.dtb offset
  let offset := offset + sectors bundle.dtb.size * sectorSize
  let kernel ← board.loadBundleEntry bundle.kernel offset
  return [opensbi, dtb, kernel]

end Board

/-- What becomes of a boot. -/
inductive Boot where
  /-- The boot ROM is entered, with what the real-time clock reports. -/
  | fel (report : List (ℕ × UInt32))
  /-- The kernel is entered, with all that has been written to the memory. -/
  | kernel (dtb opensbi kernel : UInt32) (writes : List (ℕ × Bytes))
  | undefined
  deriving DecidableEq

/-- `falcon2_boot_to_fel` with what `falcon2_rtc_report_error` reports, the error number being
negative. -/
def bootToFel (e : Err) : Boot :=
  .fel [(rtcWordIndex, -e.number), (rtcStatusIndex, e.number), (rtcMarkerIndex, rtcBootFail)]

def Stop.boot : Stop → Boot
  | error e => bootToFel e
  | undefined => .undefined

/-- `main`, with the accesses it makes. -/
def Board.main (board : Board) : List Access × Boot :=
  if board.rtcFelFlag then ([], .fel [])
  else if board.flashInit ≠ 0 then ([], bootToFel .flashInit)
  else
    let header := board.loadBundleHeader
    match header.result with
    | .error stop => (header.trace, stop.boot)
    | .ok bundle =>
      let payloads := board.loadBundle bundle
      let accesses := header.trace ++ payloads.trace
      match payloads.result with
      | .error stop => (accesses, stop.boot)
      | .ok writes =>
        (accesses, .kernel bundle.dtb.loadAddr bundle.opensbi.jumpAddr bundle.kernel.jumpAddr
          writes)

/-! ### Sectors -/

theorem toNat_flashSector (offset : UInt32) :
  (flashSector offset).toNat = offset.toNat / 512
  := UInt32.toNat_div offset sectorSize

theorem toNat_sectors (size : UInt32) :
  (sectors size).toNat = (size.toNat + 511) % 2 ^ 32 / 512
  := by
  have hone : (1 : UInt32).toNat = 1 := rfl
  have hsector : sectorSize.toNat = 512 := rfl
  rw [sectors, UInt32.toNat_div, UInt32.toNat_sub, UInt32.toNat_add, hone, hsector]
  omega

theorem toNat_readSize (size : UInt32) :
  (sectors size * sectorSize).toNat = (sectors size).toNat * 512
  := by
  have hsector : sectorSize.toNat = 512 := rfl
  have hlt : (sectors size).toNat * 512 < 2 ^ 32 := by
    rw [toNat_sectors]
    omega
  rw [UInt32.toNat_mul, hsector, Nat.mod_eq_of_lt hlt]

/-- The sectors of a payload have room for it, unless its size is near the end of the words: then
there are none of them. -/
theorem size_le_readSize_iff {size : UInt32} :
  size.toNat ≤ (sectors size * sectorSize).toNat ↔ size.toNat ≤ 2 ^ 32 - 512
  := by
  have hsize := size.toNat_lt
  rw [toNat_readSize, toNat_sectors]
  omega

namespace Board

variable {board : Board}

@[simp] theorem length_flashBytes (off len : ℕ) : (board.flashBytes off len).length = len := by
  rw [flashBytes, List.length_map, List.length_range]

/-! ### Accesses out of bounds -/

/-- A read writes at most what is asked for. -/
theorem spinorRead_inBounds {start sectors : UInt32} {room : ℕ} (e : Err)
    (h : sectors.toNat * 512 ≤ room) :
  (board.spinorRead start sectors room e).All Access.InBounds
  := by
  rw [spinorRead]
  cases board.readFails start sectors with
  | some written =>
      simp only
      rw [Traced.all_bind_iff, Traced.all_act_iff]
      constructor
      · apply Nat.le_trans (Nat.min_le_right _ _) h
      · intro _ _
        apply Traced.all_fail
  | none =>
      simp only
      rw [Traced.all_bind_iff, Traced.all_act_iff]
      constructor
      · exact h
      · intro _ _
        apply Traced.all_pure

theorem spinorRead_eq_ok_iff {start sectors : UInt32} {room : ℕ} {e : Err} {bytes : Bytes} :
  (board.spinorRead start sectors room e).result = .ok bytes ↔
    board.readFails start sectors = none ∧
      bytes = board.flashBytes (start.toNat * 512) (sectors.toNat * 512)
  := by
  rw [spinorRead]
  cases board.readFails start sectors with
  | some written =>
      constructor
      · rintro ⟨⟩
      · rintro ⟨⟨⟩, -⟩
  | none =>
      constructor
      · rintro ⟨⟩
        exact ⟨rfl, rfl⟩
      · rintro ⟨-, rfl⟩
        rfl

/-- The header is read out of bounds, unless the read fails before it has written more than the
structure has room for. -/
theorem loadBundleHeader_inBounds_iff :
  board.loadBundleHeader.All Access.InBounds ↔
    ∃ written, board.readFails (flashSector bundleFlashOffset) 1 = some written ∧
      written ≤ sizeofBundle
  := by
  have hsize : sizeofBundle = 80 := rfl
  have hone : (1 : UInt32).toNat = 1 := rfl
  rw [loadBundleHeader, Traced.all_bind_iff]
  cases h : board.readFails (flashSector bundleFlashOffset) 1 with
  | some written =>
      constructor
      · rintro ⟨hread, -⟩
        use written, rfl
        rw [spinorRead, h] at hread
        have hwritten : min written ((1 : UInt32).toNat * 512) ≤ sizeofBundle :=
          hread _ List.mem_cons_self
        omega
      · rintro ⟨_, ⟨⟩, hwritten⟩
        constructor
        · rw [spinorRead, h]
          simp only
          rw [Traced.all_bind_iff, Traced.all_act_iff]
          constructor
          · apply Nat.le_trans (Nat.min_le_left _ _) hwritten
          · intro _ _
            apply Traced.all_fail
        · intro bytes hbytes
          rw [spinorRead_eq_ok_iff, h] at hbytes
          obtain ⟨⟨⟩, -⟩ := hbytes
  | none =>
      constructor
      · rintro ⟨hread, -⟩
        rw [spinorRead, h] at hread
        have hwritten : (1 : UInt32).toNat * 512 ≤ sizeofBundle := hread _ List.mem_cons_self
        omega
      · rintro ⟨_, ⟨⟩, -⟩

/-- A payload is read in bounds exactly when it is not read at all, or its size is not near the end
of the words. -/
theorem loadBundleEntry_inBounds_iff {entry : Entry} {flashOffset : UInt32} :
  (board.loadBundleEntry entry flashOffset).All Access.InBounds ↔
    (entry.compressionType = bundleGzip → entry.size.toNat ≤ 2 ^ 32 - 512)
  := by
  rw [loadBundleEntry, ← size_le_readSize_iff]
  simp only
  split
  · next htype =>
    constructor
    · intro _ hgzip
      exact absurd hgzip htype
    · intro _
      apply Traced.all_fail
  · next htype =>
    rw [Traced.all_bind_iff, Traced.all_act_iff]
    constructor
    · rintro ⟨hmalloc, -⟩ -
      exact hmalloc
    · intro hsize
      have hroom := hsize (not_not.mp htype)
      use hroom
      rintro - -
      split
      · apply Traced.all_fail
      rw [Traced.all_bind_iff]
      constructor
      · apply spinorRead_inBounds
        rw [toNat_readSize]
      intro src hsrc
      have hlen : src.length = (sectors entry.size * sectorSize).toNat := by
        obtain ⟨-, rfl⟩ := spinorRead_eq_ok_iff.mp hsrc
        rw [length_flashBytes, toNat_readSize]
      rw [Traced.all_bind_iff, Traced.all_act_iff]
      constructor
      · rw [Access.InBounds, hlen]
        exact hroom
      rintro - -
      split
      · apply Traced.all_fail
      split
      · apply Traced.all_fail
      rw [Traced.all_bind_iff, Traced.all_act_iff]
      constructor
      · rw [Access.InBounds, hlen]
        exact hroom
      rintro - -
      split
      · apply Traced.all_fail
      split
      · apply Traced.all_pure
      · apply Traced.all_fail

/-- All accesses of a boot are in bounds exactly when the boot ends before the header is read; and
those of a payload are exactly when it is of another type, or its size is not near the end of the
words. -/
theorem inBounds_iff (board : Board) :
  ((∀ access ∈ board.main.1, access.InBounds) ↔
      board.rtcFelFlag = true ∨ board.flashInit ≠ 0 ∨
        ∃ written, board.readFails (flashSector bundleFlashOffset) 1 = some written ∧
          written ≤ sizeofBundle) ∧
    ∀ entry flashOffset,
      (∀ access ∈ (board.loadBundleEntry entry flashOffset).trace, access.InBounds) ↔
        (entry.compressionType = bundleGzip → entry.size.toNat ≤ 2 ^ 32 - 512)
  := by
  constructor
  · rw [main]
    split
    · next hflag =>
      constructor
      · intro _
        left
        exact hflag
      · intro _
        nofun
    · next hflag =>
      split
      · next hinit =>
        constructor
        · intro _
          right
          left
          exact hinit
        · intro _
          nofun
      · next hinit =>
        simp only
        constructor
        · intro h
          right
          right
          apply loadBundleHeader_inBounds_iff.mp
          intro access hmem
          apply h
          cases board.loadBundleHeader.result with
          | error stop => exact hmem
          | ok bundle =>
              have hmem' := List.mem_append_left (board.loadBundle bundle).trace hmem
              simp only
              cases (board.loadBundle bundle).result with
              | error stop => exact hmem'
              | ok writes => exact hmem'
        · rintro (hflag' | hinit' | hfails)
          · exact absurd hflag' hflag
          · exact absurd hinit' hinit
          · have herror : board.loadBundleHeader.result = .error (.error .headerRead) := by
              obtain ⟨written, hwritten, -⟩ := hfails
              rw [loadBundleHeader, spinorRead, hwritten]
              rfl
            rw [herror]
            apply loadBundleHeader_inBounds_iff.mpr hfails
  · intro entry flashOffset
    apply loadBundleEntry_inBounds_iff

end Board

/-- A board with a flash that has not been written to. -/
def erased : Board where
  rtcFelFlag := false
  flashInit := 0
  flash := fun _ => 0xFF
  readFails := fun _ _ => none
  mallocFails := fun _ _ => false
  crc32 := fun _ => 0
  gunzip := fun _ _ => ([], false)
  own := fun _ => false

/-- The header of an erased flash is read out of bounds. -/
theorem erased_not_inBounds : ¬ ∀ access ∈ erased.main.1, access.InBounds := by
  have hmain : erased.main.1 = [.read 512 1 80 512] := by decide +kernel
  intro h
  have hread : 512 ≤ 80 := h (.read 512 1 80 512) (by rw [hmain]; apply List.mem_cons_self)
  omega

end Falcon2

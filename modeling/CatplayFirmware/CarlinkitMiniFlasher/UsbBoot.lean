import CatplayFirmware.CarlinkitMiniFlasher.UImage
import CatplayFirmware.Support.FlatMemory
import CatplayFirmware.Support.Triple

/-!
# The boot program of the chip, over USB

`X1600UsbBoot` loads bytes into the memory of the chip by requests to the boot program in its
ROM: a request sets the address and the length of a transfer, the bytes follow in packets, and
they are read back to be compared. The bus may fail at any transfer, take a part of a packet,
confirm a request that it has lost or lose the confirmation, and store anything as long as it is
inside the transfer.
-/

open Bytes

/-! ### The boot program -/

/-- What the boot program keeps: the memory, the transfer that the next bytes belong to, how many
bytes of it have come, and whether bytes that have come may still be in the caches. -/
structure BootRom where
  memory : FlatMemory 32
  dataAddress : BitVec 32
  dataLength : BitVec 32
  received : ℕ
  dirty : Bool

/-- A place that the transfer writes to. -/
def BootRom.Covers (rom : BootRom) (x : BitVec 32) : Prop :=
  (x - rom.dataAddress).toNat < rom.dataLength.toNat

/-- The requests that send nothing but two numbers, by the names of their constants. -/
inductive VendorRequest where
  | setDataAddress
  | setDataLength
  | flushCaches
  | programStart1
  | programStart2
  deriving DecidableEq

/-- What a request that is not a start does. -/
def BootRom.take (rom : BootRom) (request : VendorRequest) (wValue wIndex : BitVec 16) : BootRom :=
  match request with
  | .setDataAddress => { rom with dataAddress := wValue ++ wIndex, received := 0 }
  | .setDataLength => { rom with dataLength := wValue ++ wIndex, received := 0 }
  | .flushCaches => { rom with dirty := false }
  | .programStart1 => rom
  | .programStart2 => rom

/-! ### The bus -/

/-- What becomes of a request. -/
inductive CtrlOutcome where
  | done
  /-- The request is carried out, but an error is reported. -/
  | unconfirmed
  | lost
  deriving DecidableEq

/-- What is looked at of an endpoint. -/
structure Endpoint where
  directionOut : Bool
  bulk : Bool
  wMaxPacketSize : ℕ
  deriving DecidableEq

/-- What looking for the device and claiming its interface comes to. -/
inductive Found where
  | missing
  | usbError
  | claimed (endpoints : List Endpoint)

/-- What the transfers come to. The bytes of a transfer to the chip change the memory inside the
transfer only. -/
structure Bus where
  State : Type
  find : State → Found × State
  cpuInfo : State → Option Bytes × State
  ctrl : State → VendorRequest → BitVec 16 → BitVec 16 → CtrlOutcome × State
  /-- What the first program leaves when it has come back to the boot program. -/
  firstStage : State → BootRom → BitVec 32 → BootRom
  /-- The memory after a packet, and how many of its bytes are reported as written. -/
  write : State → BootRom → Bytes → (FlatMemory 32 × Option ℕ) × State
  /-- How many of the bytes asked for are read. -/
  read : State → BootRom → ℕ → Option ℕ × State
  /-- How often the device is looked for before the time is over. -/
  polls : State → ℕ
  /-- Whether the port opens within the time. -/
  sshOpen : State → Bool
  write_outside : ∀ state rom chunk x, ¬ rom.Covers x →
    (write state rom chunk).1.1 x = rom.memory x

/-- The chip on the bus, as the program sees it: the endpoints that it has claimed, and what the
second start has been asked for with. -/
structure Link (bus : Bus) where
  state : bus.State
  rom : BootRom
  endpoints : Option (Endpoint × Endpoint)
  launched : Option (BitVec 32 × BootRom)

namespace X1600UsbBoot

/-- What is raised: an error of the program, one of the library, or a failed assertion. -/
inductive Raised where
  | bootError (e : X1600UsbBootError)
  | usbError
  | assertion
  deriving DecidableEq

/-- A call of the program, which may change the chip and may raise. -/
abbrev Usb (bus : Bus) := EStateM Raised (Link bus)

variable {bus : Bus}

/-! ### Opening the device -/

def notFound : Text := "USB boot device a108:eaef not found".toList

def noEndpoints : Text := "Failed to find bulk IN/OUT endpoints".toList

/-- The error when the device is not back in time. -/
def noReturn : Text :=
  "Device did not return to BootROM within expected time after SPL start".toList

/-- The first endpoint for bulk transfers to the chip, and the first from it. -/
def bulkEndpoints (endpoints : List Endpoint) : Option (Endpoint × Endpoint) := do
  let epOut ← endpoints.find? fun e => e.directionOut && e.bulk
  let epIn ← endpoints.find? fun e => !e.directionOut && e.bulk
  return (epOut, epIn)

/-- `open`. -/
def openDevice : Usb bus Unit := fun s =>
  match bus.find s.state with
  | (.missing, state) => .error (.bootError ⟨notFound⟩) { s with state := state }
  | (.usbError, state) => .error .usbError { s with state := state }
  | (.claimed endpoints, state) =>
    match bulkEndpoints endpoints with
    | some found => .ok () { s with state := state, endpoints := some found }
    | none => .error (.bootError ⟨noEndpoints⟩) { s with state := state }

/-- The endpoints are given back. -/
def close : Usb bus Unit := modify fun s => { s with endpoints := none }

/-- The rounds of the loop that waits. -/
def pollFrom : ℕ → Usb bus Unit
  | 0 => throw (.bootError ⟨noReturn⟩)
  | rounds + 1 =>
    tryCatch openDevice fun
      | .bootError _ => pollFrom rounds
      | e => throw e

/-- The device is closed and opened again when it is back. -/
def waitForReenumeration : Usb bus Unit := do
  close
  let s ← get
  pollFrom (bus.polls s.state)

/-! ### Requests -/

/-- The chip after a request that it has taken. -/
def taken (s : Link bus) (request : VendorRequest) (wValue wIndex : BitVec 16) : Link bus :=
  match request with
  | .programStart1 => { s with rom := bus.firstStage s.state s.rom (wValue ++ wIndex) }
  | .programStart2 => { s with launched := some (wValue ++ wIndex, s.rom) }
  | _ => { s with rom := s.rom.take request wValue wIndex }

/-- A request. If it is lost or is not confirmed, the library raises. -/
def ctrlOut (request : VendorRequest) (value index : ℕ) : Usb bus Unit := fun s =>
  if s.endpoints = none then .error .assertion s
  else
    let wValue := BitVec.ofNat 16 (value &&& 0xFFFF)
    let wIndex := BitVec.ofNat 16 (index &&& 0xFFFF)
    match bus.ctrl s.state request wValue wIndex with
    | (.done, state) => .ok () (taken { s with state := state } request wValue wIndex)
    | (.unconfirmed, state) =>
      .error .usbError (taken { s with state := state } request wValue wIndex)
    | (.lost, state) => .error .usbError { s with state := state }

/-- The upper half goes into the value of a request and the lower one into its index. -/
def splitU32BeHalves (x : ℕ) : ℕ × ℕ := (x >>> 16 &&& 0xFFFF, x &&& 0xFFFF)

/-- The requests with a number in two halves. -/
def ctrlU32 (request : VendorRequest) (x : ℕ) : Usb bus Unit :=
  ctrlOut request (splitU32BeHalves x).1 (splitU32BeHalves x).2

/-- What the chip says of itself, which is only shown. -/
def getCpuInfo : Usb bus (Option Bytes) := fun s =>
  if s.endpoints = none then .error .assertion s
  else
    match bus.cpuInfo s.state with
    | (info, state) => .ok info { s with state := state }

def setDataAddress (addr : ℕ) : Usb bus Unit := ctrlU32 .setDataAddress addr

def setDataLength (length : ℕ) : Usb bus Unit := ctrlU32 .setDataLength length

def flushCaches : Usb bus Unit := ctrlOut .flushCaches 0 0

def programStart1 (entry : ℕ) : Usb bus Unit := ctrlU32 .programStart1 entry

def programStart2 (entry : ℕ) : Usb bus Unit := ctrlU32 .programStart2 entry

/-! ### Transfers -/

def writeFailed (offset : ℕ) : Text :=
  "Bulk write failed at offset 0x".toList ++ Nat.toDigits 16 offset

def verifyFailed (addr : ℕ) : Text :=
  "Verification failed for 0x".toList ++ Text.format08x addr ++
    ": readback differs from written data".toList

/-- `ep_out.write`. -/
def epWrite (chunk : Bytes) : Usb bus ℕ := fun s =>
  match bus.write s.state s.rom chunk with
  | ((memory, some written), state) =>
    .ok written { s with
      state := state
      rom := { s.rom with memory := memory, received := s.rom.received + written, dirty := true } }
  | ((memory, none), state) =>
    .error .usbError { s with
      state := state
      rom := { s.rom with memory := memory, dirty := true } }

/-- The loop of `bulk_write` from an offset on, where `skip` bytes are still to be passed over
that have been written. -/
def bulkWriteFrom (packetSize : ℕ) : (offset skip : ℕ) → Bytes → Usb bus Unit
  | _, _, [] => pure ()
  | offset, skip + 1, _ :: data => bulkWriteFrom packetSize (offset + 1) skip data
  | offset, 0, b :: data => do
    let written ← epWrite ((b :: data).take packetSize)
    match written with
    | 0 => throw (.bootError ⟨writeFailed offset⟩)
    | skip + 1 => bulkWriteFrom packetSize (offset + 1) skip data

/-- The packets have the length of the endpoint, or 512 bytes where it has none. -/
def bulkWrite (data : Bytes) : Usb bus Unit := do
  let s ← get
  match s.endpoints with
  | none => throw .assertion
  | some (epOut, _) =>
    bulkWriteFrom (if epOut.wMaxPacketSize = 0 then 512 else epOut.wMaxPacketSize) 0 0 data

/-- The bytes that are read back. There may be fewer than were asked for. -/
def bulkRead (length : ℕ) : Usb bus Bytes := fun s =>
  if s.endpoints = none then .error .assertion s
  else
    match bus.read s.state s.rom length with
    | (some n, state) =>
      .ok (s.rom.memory.load s.rom.dataAddress (min n length)) { s with state := state }
    | (none, state) => .error .usbError { s with state := state }

/-- Bytes are sent to an address, and with `verify` they are read back and compared. -/
def downloadBlob (addr : ℕ) (blob : Bytes) (verify : Bool) : Usb bus Unit := do
  setDataAddress addr
  setDataLength blob.length
  bulkWrite blob
  if verify then do
    setDataAddress addr
    setDataLength blob.length
    let back ← bulkRead blob.length
    if back ≠ blob then throw (.bootError ⟨verifyFailed addr⟩)

/-! ### What is loaded stays loaded -/

/-- Bytes and the address that they belong to. -/
structure Upload where
  addr : ℕ
  blob : Bytes

/-- The bytes stand in memory. -/
def Upload.In (u : Upload) (m : FlatMemory 32) : Prop :=
  m.load (BitVec.ofNat 32 u.addr) u.blob.length = u.blob

/-- The bytes do not go over the end of the addresses. -/
def Upload.Fits (u : Upload) : Prop := u.addr + u.blob.length ≤ 2 ^ 32

/-- One of two uploads ends before the other starts. -/
def Upload.Apart (u v : Upload) : Prop :=
  u.addr + u.blob.length ≤ v.addr ∨ v.addr + v.blob.length ≤ u.addr

/-- Two uploads fit into the memory next to each other. -/
def Upload.Beside (u v : Upload) : Prop := u.Fits ∧ v.Fits ∧ u.Apart v

/-- The second start has not been asked for, and some uploads stand in memory. -/
def Loaded (ups : List Upload) (s : Link bus) : Prop :=
  s.launched = none ∧ ∀ u ∈ ups, u.In s.rom.memory

/-- The second start has not been asked for. -/
def NotLaunched (s : Link bus) : Prop := s.launched = none

/-- Some uploads stand in memory, and the next transfer is for another. -/
def Addressed (ups : List Upload) (v : Upload) (s : Link bus) : Prop :=
  Loaded ups s ∧ s.rom.dataAddress = BitVec.ofNat 32 v.addr ∧
    s.rom.dataLength = BitVec.ofNat 32 v.blob.length

/-- Sixteen bits of a number. -/
theorem and_mask (x : ℕ) : x &&& 0xFFFF = x % 2 ^ 16 := Nat.and_two_pow_sub_one_eq_mod x 16

/-- The boot program gets the number that has been split. -/
theorem halves_u32 (x : ℕ) :
  BitVec.ofNat 16 ((splitU32BeHalves x).1 &&& 0xFFFF) ++
      BitVec.ofNat 16 ((splitU32BeHalves x).2 &&& 0xFFFF) =
    BitVec.ofNat 32 x
  := by
  apply BitVec.eq_of_toNat_eq
  rw [BitVec.toNat_append, ← Nat.shiftLeft_add_eq_or_of_lt (BitVec.isLt _), Nat.shiftLeft_eq,
    BitVec.toNat_ofNat, BitVec.toNat_ofNat, BitVec.toNat_ofNat, splitU32BeHalves]
  dsimp only
  rw [and_mask, and_mask, and_mask, and_mask, Nat.shiftRight_eq_div_pow]
  omega

section

variable {P Q : Link bus → Prop} {E : Raised → Link bus → Prop}

/-- What a request comes to, from what it does when it is taken. -/
theorem triple_ctrlOut {request : VendorRequest} {value index : ℕ}
    (hlost : ∀ s state, P s → P { s with state := state })
    (hdone : ∀ s, P s → Q (taken s request (BitVec.ofNat 16 (value &&& 0xFFFF))
      (BitVec.ofNat 16 (index &&& 0xFFFF))))
    (hP : ∀ e s, P s → E e s) (hQ : ∀ e s, Q s → E e s) :
  Triple P (ctrlOut request value index) (fun _ => Q) E
  := by
  intro s hs
  rw [ctrlOut]
  by_cases hopen : s.endpoints = none
  · rw [if_pos hopen]
    exact hP _ _ hs
  · rw [if_neg hopen]
    dsimp only
    rcases bus.ctrl s.state request _ _ with ⟨outcome, state⟩
    have hs' := hlost s state hs
    cases outcome with
    | done => exact hdone _ hs'
    | unconfirmed => exact hQ _ _ (hdone _ hs')
    | lost => exact hP _ _ hs'

theorem triple_ctrlU32 {request : VendorRequest} {x : ℕ}
    (hlost : ∀ s state, P s → P { s with state := state })
    (hdone : ∀ s wValue wIndex, wValue ++ wIndex = BitVec.ofNat 32 x → P s →
      Q (taken s request wValue wIndex))
    (hP : ∀ e s, P s → E e s) (hQ : ∀ e s, Q s → E e s) :
  Triple P (ctrlU32 request x) (fun _ => Q) E
  := triple_ctrlOut hlost (fun s hs => hdone s _ _ (halves_u32 x) hs) hP hQ

/-- A packet changes the memory inside of the transfer only. -/
theorem triple_epWrite {chunk : Bytes}
    (hwrite : ∀ s state m received dirty, (∀ x, ¬ s.rom.Covers x → m x = s.rom.memory x) → P s →
      P { s with
        state := state
        rom := { s.rom with memory := m, received := received, dirty := dirty } })
    (hP : ∀ e s, P s → E e s) :
  Triple P (epWrite chunk) (fun _ => P) E
  := by
  intro s hs
  have houtside := bus.write_outside s.state s.rom chunk
  rw [epWrite]
  rcases hrun : bus.write s.state s.rom chunk with ⟨⟨m, written⟩, state⟩
  rw [hrun] at houtside
  cases written with
  | some written => exact hwrite s state m _ true houtside hs
  | none => exact hP _ _ (hwrite s state m _ true houtside hs)

/-- What every packet preserves, all of them preserve. -/
theorem triple_bulkWriteFrom {packetSize : ℕ}
    (hwrite : ∀ chunk, Triple P (epWrite chunk) (fun _ => P) E) (hP : ∀ e s, P s → E e s)
    (offset skip : ℕ) (data : Bytes) :
  Triple P (bulkWriteFrom packetSize offset skip data) (fun _ => P) E
  := by
  induction data generalizing offset skip with
  | nil =>
      rw [bulkWriteFrom]
      exact triple_pure fun s hs => hs
  | cons b data ih =>
      cases skip with
      | zero =>
          rw [bulkWriteFrom]
          apply triple_bind (hwrite _)
          intro written
          cases written with
          | zero => exact triple_throw fun s hs => hP _ s hs
          | succ skip => exact ih _ _
      | succ skip =>
          rw [bulkWriteFrom]
          exact ih _ _

theorem triple_bulkWrite {data : Bytes}
    (hwrite : ∀ chunk, Triple P (epWrite chunk) (fun _ => P) E) (hP : ∀ e s, P s → E e s) :
  Triple P (bulkWrite data) (fun _ => P) E
  := by
  rw [bulkWrite]
  apply triple_bind (triple_get (Q := fun _ => P) fun s hs => hs)
  intro s
  cases s.endpoints with
  | none => exact triple_throw fun s hs => hP _ s hs
  | some endpoints => exact triple_bulkWriteFrom hwrite hP _ _ _

/-- What is read back is what stands in memory. -/
theorem triple_bulkRead {length : ℕ} {R : Bytes → Link bus → Prop}
    (hread : ∀ s state n, P s →
      R (s.rom.memory.load s.rom.dataAddress (min n length)) { s with state := state })
    (hP : ∀ e s state, P s → E e { s with state := state }) :
  Triple P (bulkRead length) R E
  := by
  intro s hs
  rw [bulkRead]
  by_cases hopen : s.endpoints = none
  · rw [if_pos hopen]
    exact hP _ s s.state hs
  · rw [if_neg hopen]
    rcases bus.read s.state s.rom length with ⟨read, state⟩
    cases read with
    | some n => exact hread s state n hs
    | none => exact hP _ _ _ hs

end

section

variable {ups : List Upload} {v : Upload}

/-- The address is set when the request is known to be done. -/
theorem triple_setDataAddress :
  Triple (Loaded ups : Link bus → Prop) (setDataAddress v.addr)
    (fun _ s => Loaded ups s ∧ s.rom.dataAddress = BitVec.ofNat 32 v.addr)
    (fun _ => NotLaunched)
  := by
  apply triple_ctrlU32
  · exact fun s state hs => hs
  · exact fun s wValue wIndex haddr hs => ⟨hs, haddr⟩
  · exact fun e s hs => hs.1
  · exact fun e s hs => hs.1.1

/-- Then the length is. -/
theorem triple_setDataLength :
  Triple (fun s : Link bus => Loaded ups s ∧ s.rom.dataAddress = BitVec.ofNat 32 v.addr)
    (setDataLength v.blob.length) (fun _ => Addressed ups v) (fun _ => NotLaunched)
  := by
  apply triple_ctrlU32
  · exact fun s state hs => hs
  · exact fun s wValue wIndex hlen hs => ⟨hs.1, hs.2, hlen⟩
  · exact fun e s hs => hs.1.1
  · exact fun e s hs => hs.1.1

/-- The packets of an upload keep what stands apart from it. -/
theorem triple_epWrite_upload (hups : ∀ u ∈ ups, u.Beside v) (chunk : Bytes) :
  Triple (Addressed ups v : Link bus → Prop) (epWrite chunk) (fun _ => Addressed ups v)
    (fun _ => NotLaunched)
  := by
  apply triple_epWrite
  · rintro s state m received dirty houtside ⟨⟨hlaunched, hloaded⟩, haddr, hlen⟩
    refine ⟨⟨hlaunched, ?_⟩, haddr, hlen⟩
    intro u hu
    obtain ⟨hfits, hv, hapart⟩ := hups u hu
    have hsame : m.load (BitVec.ofNat 32 u.addr) u.blob.length =
        s.rom.memory.load (BitVec.ofNat 32 u.addr) u.blob.length := by
      apply FlatMemory.load_congr (Nat.le_trans (Nat.le_add_left _ _) hfits)
      intro x hx
      apply houtside
      have hout := FlatMemory.outside_of_apart hapart hfits hv hx
      rw [BootRom.Covers, haddr, hlen, BitVec.toNat_ofNat, Nat.not_lt]
      exact Nat.le_trans (Nat.mod_le _ _) hout
    exact hsame.trans (hloaded u hu)
  · exact fun e s hs => hs.1.1

/-- An upload that has been verified stands in memory, whatever the bus did, and so do those
before. -/
theorem triple_downloadBlob (hups : ∀ u ∈ ups, u.Beside v) :
  Triple (Loaded ups : Link bus → Prop) (downloadBlob v.addr v.blob true)
    (fun _ => Loaded (v :: ups)) (fun _ => NotLaunched)
  := by
  have hwrite := @triple_epWrite_upload bus ups v hups
  have hnot : ∀ (e : Raised) (s : Link bus), Addressed ups v s → NotLaunched s :=
    fun e s hs => hs.1.1
  rw [downloadBlob]
  apply triple_bind triple_setDataAddress
  intro _
  apply triple_bind triple_setDataLength
  intro _
  apply triple_bind (triple_bulkWrite hwrite hnot)
  intro _
  rw [if_pos rfl]
  apply triple_bind (triple_setDataAddress.mono (fun s hs => hs.1) (fun _ _ => id) (fun _ _ => id))
  intro _
  apply triple_bind triple_setDataLength
  intro _
  apply triple_bind (Q := fun back s => Loaded ups s ∧
    (back = v.blob → v.In s.rom.memory))
  · apply triple_bulkRead
    · rintro s state n ⟨hloaded, haddr, -⟩
      refine ⟨hloaded, ?_⟩
      intro hback
      have hlen := congrArg List.length hback
      rw [FlatMemory.length_load] at hlen
      rw [hlen, haddr] at hback
      exact hback
    · exact fun e s state hs => hs.1.1
  · intro back
    apply triple_ite
    · intro _
      exact triple_throw fun s hs => hs.1.1
    · intro hback
      apply triple_pure
      rintro s ⟨⟨hlaunched, hloaded⟩, hin⟩
      exact ⟨hlaunched, List.forall_mem_cons.mpr ⟨hin (not_not.mp hback), hloaded⟩⟩

end

/-! ### A bus that loses nothing -/

/-- The device is found, requests are confirmed, at least one byte of a packet is taken and what is
taken is stored behind what came before, and all that is asked for is read. -/
structure Reliable (bus : Bus) : Prop where
  find : ∀ state, ∃ endpoints found state', bus.find state = (.claimed endpoints, state') ∧
    bulkEndpoints endpoints = some found
  polls : ∀ state, 0 < bus.polls state
  ctrl : ∀ state request wValue wIndex, (bus.ctrl state request wValue wIndex).1 = .done
  write : ∀ state rom chunk, chunk ≠ [] → rom.received + chunk.length ≤ rom.dataLength.toNat →
    ∃ written state', 0 < written ∧ written ≤ chunk.length ∧
      bus.write state rom chunk = ((rom.memory.store
        (rom.dataAddress + BitVec.ofNat 32 rom.received) (chunk.take written), some written),
        state')
  read : ∀ state rom n, ∃ state', bus.read state rom n = (some n, state')

/-- The device has been opened. -/
def Opened (s : Link bus) : Prop := s.endpoints ≠ none

/-- The first bytes of a transfer have been stored. -/
structure Receiving (addr : ℕ) (blob : Bytes) (n : ℕ) (s : Link bus) : Prop where
  opened : Opened s
  dataAddress : s.rom.dataAddress = BitVec.ofNat 32 addr
  dataLength : s.rom.dataLength = BitVec.ofNat 32 blob.length
  received : s.rom.received = n
  stored : s.rom.memory.load s.rom.dataAddress n = blob.take n

/-- No error is raised. -/
def Never {σ : Type} : Raised → σ → Prop := fun _ _ => False

namespace Reliable

theorem triple_ctrlOut (h : Reliable bus) {request : VendorRequest} {value index : ℕ}
    {P Q : Link bus → Prop}
    (hopened : ∀ s, P s → Opened s)
    (hstate : ∀ s state, P s → P { s with state := state })
    (hdone : ∀ s, P s → Q (taken s request (BitVec.ofNat 16 (value &&& 0xFFFF))
      (BitVec.ofNat 16 (index &&& 0xFFFF)))) :
  Triple P (ctrlOut request value index) (fun _ => Q) Never
  := by
  intro s hs
  have hctrl := h.ctrl s.state request (BitVec.ofNat 16 (value &&& 0xFFFF))
    (BitVec.ofNat 16 (index &&& 0xFFFF))
  rw [ctrlOut, if_neg (hopened s hs)]
  dsimp only
  rcases hrun : bus.ctrl s.state request _ _ with ⟨outcome, state⟩
  rw [hrun] at hctrl
  obtain rfl : outcome = .done := hctrl
  exact hdone _ (hstate s state hs)

theorem triple_ctrlU32 (h : Reliable bus) {request : VendorRequest} {x : ℕ} {P Q : Link bus → Prop}
    (hopened : ∀ s, P s → Opened s)
    (hstate : ∀ s state, P s → P { s with state := state })
    (hdone : ∀ s wValue wIndex, wValue ++ wIndex = BitVec.ofNat 32 x → P s →
      Q (taken s request wValue wIndex)) :
  Triple P (ctrlU32 request x) (fun _ => Q) Never
  := h.triple_ctrlOut hopened hstate fun s hs => hdone s _ _ (halves_u32 x) hs

/-- The device is there, with its two endpoints. -/
theorem triple_openDevice (h : Reliable bus) {P : Link bus → Prop} :
  Triple P openDevice (fun _ => Opened) Never
  := by
  intro s _
  obtain ⟨endpoints, found, state, hfind, hfound⟩ := h.find s.state
  rw [openDevice, hfind]
  dsimp only
  rw [hfound]
  exact Option.some_ne_none _

theorem triple_getCpuInfo :
  Triple (Opened : Link bus → Prop) getCpuInfo (fun _ => Opened) Never
  := by
  intro s hs
  rw [getCpuInfo, if_neg hs]
  exact hs

/-- The device comes back, and is found at the first look. -/
theorem triple_waitForReenumeration (h : Reliable bus) {P : Link bus → Prop} :
  Triple P waitForReenumeration (fun _ => Opened) Never
  := by
  have hclose : Triple P close (fun _ _ => True) Never := triple_modify fun _ _ => trivial
  rw [waitForReenumeration]
  apply triple_bind hclose
  intro _
  apply triple_bind (triple_get (Q := fun _ _ => True) fun _ _ => trivial)
  intro s
  obtain ⟨rounds, hrounds⟩ := Nat.exists_eq_succ_of_ne_zero (Nat.ne_of_gt (h.polls s.state))
  rw [hrounds, pollFrom]
  apply triple_tryCatch h.triple_openDevice
  intro e s hs
  exact hs.elim

/-- The loop takes all of a transfer, however many bytes a round takes. -/
theorem triple_bulkWriteFrom (h : Reliable bus) {addr packetSize : ℕ} {blob : Bytes}
    (hpacket : 0 < packetSize)
    (hlen : blob.length < 2 ^ 32) {offset skip : ℕ} {data : Bytes} (hdata : data = blob.drop offset)
    (hskip : offset + skip ≤ blob.length) :
  Triple (Receiving addr blob (offset + skip) : Link bus → Prop)
    (bulkWriteFrom packetSize offset skip data)
    (fun _ => Receiving addr blob blob.length) Never
  := by
  induction data generalizing offset skip with
  | nil =>
      have hend := List.drop_eq_nil_iff.mp hdata.symm
      have hall : offset + skip = blob.length := by omega
      rw [bulkWriteFrom, hall]
      exact triple_pure fun s hs => hs
  | cons b data ih =>
      have hrest : data = blob.drop (offset + 1) := by
        rw [← List.tail_drop, ← hdata, List.tail_cons]
      cases skip with
      | succ skip =>
          rw [bulkWriteFrom, Nat.add_succ, ← Nat.succ_add]
          exact ih hrest (by omega)
      | zero =>
          rw [bulkWriteFrom]
          apply triple_bind (Q := fun written s => 0 < written ∧
            offset + written ≤ blob.length ∧ Receiving addr blob (offset + written) s)
          · rw [Nat.add_zero]
            rintro s ⟨hopened, haddr, hlength, hreceived, hstored⟩
            have hchunk : (b :: data).take packetSize ≠ [] := by
              rw [ne_eq, List.take_eq_nil_iff]
              rintro (hzero | hnil)
              · omega
              · cases hnil
            have hfits : offset + ((b :: data).take packetSize).length ≤ blob.length := by
              have hle := List.length_take_le' packetSize (b :: data)
              have hdrop := congrArg List.length hdata
              rw [List.length_drop] at hdrop
              have hpos := List.length_pos_of_ne_nil (List.cons_ne_nil b data)
              omega
            have htoNat : s.rom.dataLength.toNat = blob.length := by
              rw [hlength, BitVec.toNat_ofNat, Nat.mod_eq_of_lt hlen]
            obtain ⟨written, state, hpos, hle, hwrite⟩ := h.write s.state s.rom
              ((b :: data).take packetSize) hchunk (by rw [hreceived, htoNat]; exact hfits)
            rw [epWrite, hwrite]
            have hpiece : ((b :: data).take packetSize).take written =
                (blob.drop offset).take written := by
              have hmin := Nat.le_trans hle (List.length_take_le packetSize (b :: data))
              rw [List.take_take, Nat.min_eq_left hmin, hdata]
            have hpieceLen : ((blob.drop offset).take written).length = written := by
              rw [← hpiece, List.length_take_of_le hle]
            refine ⟨hpos, by omega, hopened, haddr, hlength, congrArg (· + written) hreceived, ?_⟩
            have hload := @FlatMemory.load_store_behind 32 s.rom.dataAddress offset
              ((blob.drop offset).take written) s.rom.memory (by omega)
            rw [hpieceLen, hstored, ← List.take_add] at hload
            rw [hpiece, hreceived]
            exact hload
          · rintro (_ | skip)
            · rintro s ⟨hpos, -⟩
              exact absurd hpos (Nat.lt_irrefl 0)
            · rintro s ⟨-, hle, hs⟩
              rw [Nat.add_succ, ← Nat.succ_add] at hs
              exact ih hrest (by omega) s hs

/-- All bytes are sent, and stand where they were sent to. -/
theorem triple_bulkWrite (h : Reliable bus) {addr : ℕ} {blob : Bytes}
    (hlen : blob.length < 2 ^ 32) :
  Triple (Receiving addr blob 0 : Link bus → Prop) (bulkWrite blob)
    (fun _ => Receiving addr blob blob.length) Never
  := by
  rw [bulkWrite]
  apply triple_bind (Q := fun s s' => Opened s ∧ Receiving addr blob 0 s')
  · exact triple_get fun s hs => ⟨hs.opened, hs⟩
  · intro s
    apply triple_of_pure
    intro hopened
    cases hendpoints : s.endpoints with
    | none => exact absurd hendpoints hopened
    | some endpoints =>
        have hpacket : 0 < if endpoints.1.wMaxPacketSize = 0 then 512
            else endpoints.1.wMaxPacketSize := by
          split
          · decide
          · next hpacket => exact Nat.pos_of_ne_zero hpacket
        exact @triple_bulkWriteFrom bus h addr _ blob hpacket hlen 0 0 blob List.drop_zero.symm
          (Nat.zero_le _)

/-- All bytes are read back. -/
theorem triple_bulkRead (h : Reliable bus) {P : Link bus → Prop} {length : ℕ}
    {R : Bytes → Link bus → Prop} (hopened : ∀ s, P s → Opened s)
    (hread : ∀ s state, P s →
      R (s.rom.memory.load s.rom.dataAddress length) { s with state := state }) :
  Triple P (bulkRead length) R Never
  := by
  intro s hs
  obtain ⟨state, hrun⟩ := h.read s.state s.rom length
  rw [bulkRead, if_neg (hopened s hs), hrun]
  have hR := hread s state hs
  dsimp only
  rw [Nat.min_self]
  exact hR

/-- Bytes are loaded and verified. -/
theorem triple_downloadBlob (h : Reliable bus) (addr : ℕ) {blob : Bytes}
    (hlen : blob.length < 2 ^ 32) (verify : Bool) :
  Triple (Opened : Link bus → Prop) (downloadBlob addr blob verify) (fun _ => Opened) Never
  := by
  have haddress : Triple (Opened : Link bus → Prop) (setDataAddress addr)
      (fun _ s => Opened s ∧ s.rom.dataAddress = BitVec.ofNat 32 addr) Never :=
    h.triple_ctrlU32 (fun s hs => hs) (fun s state hs => hs)
      fun s wValue wIndex haddr hs => ⟨hs, haddr⟩
  have hlength : Triple (fun s : Link bus => Opened s ∧ s.rom.dataAddress = BitVec.ofNat 32 addr)
      (setDataLength blob.length) (fun _ => Receiving addr blob 0) Never :=
    h.triple_ctrlU32 (fun s hs => hs.1) (fun s state hs => hs)
      fun s wValue wIndex hlength hs => ⟨hs.1, hs.2, hlength, rfl, rfl⟩
  rw [downloadBlob]
  apply triple_bind haddress
  intro _
  apply triple_bind hlength
  intro _
  apply triple_bind (h.triple_bulkWrite hlen)
  intro _
  apply triple_ite
  · intro _
    apply triple_bind (Q := fun _ s => Opened s ∧ s.rom.dataAddress = BitVec.ofNat 32 addr ∧
      s.rom.memory.load (BitVec.ofNat 32 addr) blob.length = blob)
    · apply h.triple_ctrlU32
      · exact fun s hs => hs.opened
      · exact fun s state hs => ⟨hs.opened, hs.dataAddress, hs.dataLength, hs.received, hs.stored⟩
      · intro s wValue wIndex haddr hs
        have hstored := hs.stored
        rw [hs.dataAddress, List.take_length] at hstored
        exact ⟨hs.opened, haddr, hstored⟩
    intro _
    apply triple_bind (Q := fun _ s => Opened s ∧ s.rom.dataAddress = BitVec.ofNat 32 addr ∧
      s.rom.memory.load (BitVec.ofNat 32 addr) blob.length = blob)
    · exact h.triple_ctrlU32 (fun s hs => hs.1) (fun s state hs => hs)
        fun s wValue wIndex hlength hs => hs
    intro _
    apply triple_bind (Q := fun back s => back = blob ∧ Opened s)
    · apply h.triple_bulkRead
      · exact fun s hs => hs.1
      · rintro s state ⟨hopened, haddr, hstored⟩
        rw [haddr]
        exact ⟨hstored, hopened⟩
    intro back
    apply triple_of_pure
    rintro rfl
    rw [if_neg (not_not.mpr rfl)]
    exact triple_pure fun s hs => hs
  · intro _
    exact triple_pure fun s hs => hs.opened

end Reliable

/-- The bus that takes two bytes of a packet at a time and loses nothing. -/
def slowBus : Bus where
  State := Unit
  find state := (.claimed [⟨false, true, 64⟩, ⟨true, true, 64⟩], state)
  cpuInfo state := (none, state)
  ctrl state _ _ _ := (.done, state)
  firstStage _ rom _ := rom
  write state rom chunk :=
    if rom.received + chunk.length ≤ rom.dataLength.toNat then
      ((rom.memory.store (rom.dataAddress + BitVec.ofNat 32 rom.received) (chunk.take 2),
        some (min 2 chunk.length)), state)
    else ((rom.memory, none), state)
  read state _ n := (some n, state)
  polls _ := 1
  sshOpen _ := true
  write_outside := by
    intro state rom chunk x hx
    have hlen := rom.dataLength.isLt
    rw [BootRom.Covers, Nat.not_lt] at hx
    split
    · next hfits =>
      have hle := List.length_take_le' 2 chunk
      apply FlatMemory.store_of_outside
      · omega
      · omega
      · exact .inr (by omega)
    · rfl

/-- The slow bus keeps what it takes. -/
theorem reliable_slowBus : Reliable slowBus := by
  refine ⟨?_, ?_, ?_, ?_, ?_⟩
  · exact fun state => ⟨_, (⟨true, true, 64⟩, ⟨false, true, 64⟩), state, rfl, rfl⟩
  · exact fun state => Nat.one_pos
  · exact fun state request wValue wIndex => rfl
  · intro state rom chunk hchunk hfits
    have hpos := List.length_pos_of_ne_nil hchunk
    refine ⟨min 2 chunk.length, state, by omega, Nat.min_le_right _ _, ?_⟩
    have htake : chunk.take (min 2 chunk.length) = chunk.take 2 := by
      rw [← List.take_take, List.take_length]
    rw [htake]
    exact if_pos hfits
  · exact fun state rom n => ⟨state, rfl⟩

end X1600UsbBoot

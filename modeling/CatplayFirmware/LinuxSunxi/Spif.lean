import CatplayFirmware.Support.Bitfield
import Mathlib.Algebra.Ring.Int.Defs
import Mathlib.Data.Int.Notation
import Mathlib.Data.UInt

/-!
# The descriptor of the SPIF controller

An operation on a memory chip is packed into a descriptor of eight words. The operation goes to the
chip as it is exactly when the fields of the descriptor are read back as they were, which the test
for supported operations does not make sure of.
-/

namespace SunxiSpif

open Bitfield

/-- A phase of an operation: its bytes, the width of the bus, and whether it has a double rate. -/
structure Phase where
  nbytes : UInt8
  buswidth : UInt8
  dtr : Bool

/-- The direction of the data, as the processor sees it. -/
inductive Dir where
  | noData
  | dataIn
  | dataOut
  deriving DecidableEq

/-- `struct spi_mem_op`. -/
structure Op where
  opcode : UInt16
  cmd : Phase
  addr : Phase
  addrVal : UInt64
  dummy : Phase
  dataNbytes : UInt32
  dataBuswidth : UInt8
  dataDtr : Bool
  dataDir : Dir

/-- What `sunxi_spif_width` gives for a width that the controller does not have. -/
def einval : ℤ := -22

/-- The one opcode that may have a wide address: the quad read with a quad address. -/
def spinorOpRead144 : UInt16 := 0xeb

/-- Longer operations are cut to this length. -/
def maxData : UInt32 := 4096

/-- A shorter read is made this long. -/
def minRead : ℕ := 8

/-! ### The fields -/

def phaseRx : Bitfield := bit 8

def phaseTx : Bitfield := bit 12

def phaseDummy : Bitfield := bit 16

def phaseAddr : Bitfield := bit 24

def phaseCmd : Bitfield := bit 28

def tcsDataWidth : Bitfield := genmask 1 0

def tcsAddrWidth : Bitfield := genmask 5 4

def tcsCmdWidth : Bitfield := genmask 9 8

def tcsCmdOpcode : Bitfield := genmask 31 24

def tnmDataCount : Bitfield := genmask 15 0

def tnmDummyCount : Bitfield := genmask 23 16

def tnmAddrSize : Bitfield := genmask 25 24

def tnmDescNormal : Bitfield := bit 28

def descLast : Bitfield := bit 0

def descWriteToRam : Bitfield := bit 1

def descBurst : Bitfield := genmask 6 4

def descBlock : Bitfield := genmask 31 24

def descDataLen : Bitfield := genmask 16 0

/-! ### The driver -/

/-- `struct sunxi_spif_desc`. -/
structure Desc where
  control : ℕ
  dataLen : ℕ
  dataAddr : ℕ
  nextDesc : ℕ
  phase : ℕ
  flashAddr : ℕ
  command : ℕ
  count : ℕ
  deriving DecidableEq

/-- `sunxi_spif_width`. -/
def width (w : UInt8) : ℤ :=
  if w = 1 then 0
  else if w = 2 then 1
  else if w = 4 then 2
  else if w = 8 then 3
  else einval

/-- A number as an `u32`. -/
def toU32 (x : ℤ) : ℕ := (x % 2 ^ 32).toNat

/-- `sunxi_spif_supports_op`, where `default` is `spi_mem_default_supports_op`. -/
def supportsOp (default : Op → Bool) (op : Op) : Bool :=
  if !default op then false
  else if op.cmd.dtr || op.addr.dtr || op.dummy.dtr || op.dataDtr then false
  else if op.cmd.buswidth ≠ 1 ∨ (op.addr.nbytes ≠ 0 ∧ width op.addr.buswidth < 0) ∨
      (op.dummy.nbytes ≠ 0 ∧ width op.dummy.buswidth < 0) ∨
      (op.dataNbytes ≠ 0 ∧ width op.dataBuswidth < 0) then
    false
  else if (op.addr.nbytes ≠ 0 ∧ op.addr.buswidth ≠ 1) ∨
      (op.dummy.nbytes ≠ 0 ∧ op.dummy.buswidth ≠ 1) then
    decide (op.opcode = spinorOpRead144 ∧ op.addr.buswidth = 4 ∧
      (op.dummy.nbytes = 0 ∨ op.dummy.buswidth = 4) ∧ op.dataDir = .dataIn ∧ op.dataBuswidth = 4)
  else decide (op.addr.nbytes ≤ 4 ∧ op.dummy.nbytes ≤ 0xff)

/-- `sunxi_spif_adjust_op_size`. -/
def adjustOpSize (op : Op) : Op :=
  if maxData < op.dataNbytes then { op with dataNbytes := maxData } else op

/-- The address of an operation. -/
def addAddr (op : Op) (desc : Desc) : Desc :=
  if op.addr.nbytes = 0 then desc
  else
    { desc with
      phase := desc.phase ||| phaseAddr.prep 1
      flashAddr := toU32 op.addrVal.toNat
      command := desc.command ||| tcsAddrWidth.prep (toU32 (width op.addr.buswidth))
      count := desc.count ||| tnmAddrSize.prep (op.addr.nbytes.toNat - 1) }

/-- The dummy cycles of an operation. -/
def addDummy (op : Op) (desc : Desc) : Desc :=
  if op.dummy.nbytes = 0 then desc
  else
    let dummyCycles := op.dummy.nbytes.toNat * 8 / op.dummy.buswidth.toNat
    { desc with
      phase := desc.phase ||| phaseDummy.prep 1
      count := desc.count ||| tnmDummyCount.prep dummyCycles }

/-- The data of an operation. -/
def addData (op : Op) (dataDma : ℕ) (desc : Desc) : Desc :=
  if op.dataNbytes = 0 then desc
  else
    let dataLen :=
      if op.dataDir = .dataIn then max op.dataNbytes.toNat minRead else op.dataNbytes.toNat
    let desc :=
      { desc with
        command := desc.command ||| tcsDataWidth.prep (toU32 (width op.dataBuswidth))
        dataLen := desc.dataLen ||| descDataLen.prep dataLen
        dataAddr := toU32 (dataDma >>> 2)
        count := desc.count ||| tnmDataCount.prep dataLen }
    if op.dataDir = .dataIn then
      { desc with
        control := desc.control ||| descWriteToRam.prep 1
        phase := desc.phase ||| phaseRx.prep 1 }
    else { desc with phase := desc.phase ||| phaseTx.prep 1 }

/-- `sunxi_spif_build_desc`. -/
def buildDesc (op : Op) (dataDma : ℕ) : Desc :=
  let desc :=
    { control := descLast.prep 1 ||| descBurst.prep 7
      dataLen := descBlock.prep 3
      dataAddr := 0
      nextDesc := 0
      phase := phaseCmd.prep 1
      flashAddr := 0
      command := tcsCmdOpcode.prep op.opcode.toNat |||
        tcsCmdWidth.prep (toU32 (width op.cmd.buswidth))
      count := tnmDescNormal.prep 1 }
  addData op dataDma (addDummy op (addAddr op desc))

/-! ### What the controller reads -/

/-- An operation as it goes to the chip. -/
structure Transfer where
  opcode : ℕ
  cmdWidth : ℕ
  /-- The address, its bytes, and the width of its bus. -/
  addr : Option (ℕ × ℕ × ℕ)
  /-- The dummy cycles. -/
  dummy : Option ℕ
  /-- The length for the memory and for the bus, the direction, and the width of the bus. -/
  data : Option (ℕ × ℕ × Dir × ℕ)
  deriving DecidableEq

/-- The direction of the data, in which the memory and the bus have to agree. -/
def Desc.dir (desc : Desc) : Dir :=
  match phaseRx.get desc.phase, phaseTx.get desc.phase, descWriteToRam.get desc.control with
  | 1, 0, 1 => .dataIn
  | 0, 1, 0 => .dataOut
  | _, _, _ => .noData

/-- The transfer that a descriptor stands for. -/
def decode (desc : Desc) : Transfer where
  opcode := tcsCmdOpcode.get desc.command
  cmdWidth := 2 ^ tcsCmdWidth.get desc.command
  addr :=
    if phaseAddr.get desc.phase = 0 then none
    else some (desc.flashAddr, tnmAddrSize.get desc.count + 1, 2 ^ tcsAddrWidth.get desc.command)
  dummy := if phaseDummy.get desc.phase = 0 then none else some (tnmDummyCount.get desc.count)
  data :=
    if phaseRx.get desc.phase = 0 ∧ phaseTx.get desc.phase = 0 then none
    else
      some (descDataLen.get desc.dataLen, tnmDataCount.get desc.count, desc.dir,
        2 ^ tcsDataWidth.get desc.command)

/-- The length of the data, rounded up for short reads. -/
def Op.dataLen (op : Op) : ℕ :=
  if op.dataDir = .dataIn then max op.dataNbytes.toNat minRead else op.dataNbytes.toNat

/-- The transfer that an operation asks for. -/
def Op.transfer (op : Op) : Transfer where
  opcode := op.opcode.toNat
  cmdWidth := op.cmd.buswidth.toNat
  addr :=
    if op.addr.nbytes = 0 then none
    else some (op.addrVal.toNat, op.addr.nbytes.toNat, op.addr.buswidth.toNat)
  dummy :=
    if op.dummy.nbytes = 0 then none
    else some (op.dummy.nbytes.toNat * 8 / op.dummy.buswidth.toNat)
  data :=
    if op.dataNbytes = 0 then none
    else some (op.dataLen, op.dataLen, op.dataDir, op.dataBuswidth.toNat)

/-- The opcode fits in eight bits, the address in 32 and its bytes in two, the dummy cycles fit in
eight, and data have a direction. -/
structure Fits (op : Op) : Prop where
  opcode : op.opcode < 256
  addr : op.addr.nbytes ≠ 0 → op.addr.nbytes ≤ 4 ∧ op.addrVal < 2 ^ 32
  dummy : op.dummy.nbytes ≠ 0 → op.dummy.nbytes.toNat < 32 * op.dummy.buswidth.toNat
  data : op.dataNbytes ≠ 0 → op.dataDir ≠ .noData

/-- The fields that are the same in every descriptor. -/
structure Unspilled (desc : Desc) : Prop where
  last : descLast.get desc.control = 1
  burst : descBurst.get desc.control = 7
  block : descBlock.get desc.dataLen = 3
  cmd : phaseCmd.get desc.phase = 1
  normal : tnmDescNormal.get desc.count = 1

/-- The descriptor carries the operation, and no field spills into another. -/
def Lossless (op : Op) (dataDma : ℕ) : Prop :=
  decode (buildDesc op dataDma) = op.transfer ∧ Unspilled (buildDesc op dataDma)

/-! ### The words -/

section

variable (op : Op) (dataDma : ℕ)

/-- The phases, one flag for each part that the operation has. -/
theorem phase_buildDesc :
  (buildDesc op dataDma).phase = phaseCmd.prep 1 |||
    (if op.addr.nbytes = 0 then 0 else phaseAddr.prep 1) |||
    (if op.dummy.nbytes = 0 then 0 else phaseDummy.prep 1) |||
    (if op.dataNbytes = 0 then 0
    else if op.dataDir = .dataIn then phaseRx.prep 1 else phaseTx.prep 1)
  := by
  simp only [buildDesc, addData, addDummy, addAddr]
  split <;> split <;> split <;> try split
  all_goals simp only [Nat.or_zero]

/-- The opcode and the widths of the buses. -/
theorem command_buildDesc :
  (buildDesc op dataDma).command = tcsCmdOpcode.prep op.opcode.toNat |||
    tcsCmdWidth.prep (toU32 (width op.cmd.buswidth)) |||
    (if op.addr.nbytes = 0 then 0 else tcsAddrWidth.prep (toU32 (width op.addr.buswidth))) |||
    (if op.dataNbytes = 0 then 0 else tcsDataWidth.prep (toU32 (width op.dataBuswidth)))
  := by
  simp only [buildDesc, addData, addDummy, addAddr]
  split <;> split <;> split <;> try split
  all_goals simp only [Nat.or_zero]

/-- The counts of address bytes, dummy cycles and data bytes. -/
theorem count_buildDesc :
  (buildDesc op dataDma).count = tnmDescNormal.prep 1 |||
    (if op.addr.nbytes = 0 then 0 else tnmAddrSize.prep (op.addr.nbytes.toNat - 1)) |||
    (if op.dummy.nbytes = 0 then 0
    else tnmDummyCount.prep (op.dummy.nbytes.toNat * 8 / op.dummy.buswidth.toNat)) |||
    (if op.dataNbytes = 0 then 0 else tnmDataCount.prep op.dataLen)
  := by
  simp only [buildDesc, addData, addDummy, addAddr, Op.dataLen]
  split <;> split <;> split <;> try split
  all_goals simp only [Nat.or_zero]

/-- The length of the data for the memory. -/
theorem dataLen_buildDesc :
  (buildDesc op dataDma).dataLen = descBlock.prep 3 |||
    (if op.dataNbytes = 0 then 0 else descDataLen.prep op.dataLen)
  := by
  simp only [buildDesc, addData, addDummy, addAddr, Op.dataLen]
  split <;> split <;> split <;> try split
  all_goals simp only [Nat.or_zero]

/-- The flags of the transfer to or from memory. -/
theorem control_buildDesc :
  (buildDesc op dataDma).control = descLast.prep 1 ||| descBurst.prep 7 |||
    (if op.dataNbytes = 0 then 0
    else if op.dataDir = .dataIn then descWriteToRam.prep 1 else 0)
  := by
  simp only [buildDesc, addData, addDummy, addAddr]
  split <;> split <;> split <;> try split
  all_goals simp only [Nat.or_zero]

/-- Only 32 bits of the address get into the descriptor. -/
theorem flashAddr_buildDesc (h : op.addr.nbytes ≠ 0) :
  (buildDesc op dataDma).flashAddr = op.addrVal.toNat % 2 ^ 32
  := by
  simp only [buildDesc, addData, addDummy, addAddr, if_neg h, toU32]
  split <;> split <;> try split
  all_goals rfl

end

/-! ### The fields of the words -/

section

variable (op : Op) (dataDma : ℕ)

/-- Only eight bits of the opcode do. -/
theorem opcode_buildDesc :
  tcsCmdOpcode.get (buildDesc op dataDma).command = op.opcode.toNat % 2 ^ 8
  := by
  rw [command_buildDesc]
  simp (disch := decide)
  rfl

theorem cmdWidth_buildDesc :
  tcsCmdWidth.get (buildDesc op dataDma).command = toU32 (width op.cmd.buswidth) % 4
  := by
  rw [command_buildDesc]
  simp (disch := decide)
  rfl

theorem addrWidth_buildDesc (h : op.addr.nbytes ≠ 0) :
  tcsAddrWidth.get (buildDesc op dataDma).command = toU32 (width op.addr.buswidth) % 4
  := by
  rw [command_buildDesc, if_neg h]
  simp (disch := decide)
  rfl

theorem dataWidth_buildDesc (h : op.dataNbytes ≠ 0) :
  tcsDataWidth.get (buildDesc op dataDma).command = toU32 (width op.dataBuswidth) % 4
  := by
  rw [command_buildDesc, if_neg h]
  simp (disch := decide)
  rfl

theorem phaseAddr_buildDesc :
  phaseAddr.get (buildDesc op dataDma).phase = if op.addr.nbytes = 0 then 0 else 1
  := by
  rw [phase_buildDesc]
  simp (disch := decide)

theorem phaseDummy_buildDesc :
  phaseDummy.get (buildDesc op dataDma).phase = if op.dummy.nbytes = 0 then 0 else 1
  := by
  rw [phase_buildDesc]
  simp (disch := decide)

theorem phaseRx_buildDesc :
  phaseRx.get (buildDesc op dataDma).phase =
    if op.dataNbytes = 0 then 0 else if op.dataDir = .dataIn then 1 else 0
  := by
  rw [phase_buildDesc]
  simp (disch := decide)

theorem phaseTx_buildDesc :
  phaseTx.get (buildDesc op dataDma).phase =
    if op.dataNbytes = 0 then 0 else if op.dataDir = .dataIn then 0 else 1
  := by
  rw [phase_buildDesc]
  simp (disch := decide)

theorem writeToRam_buildDesc :
  descWriteToRam.get (buildDesc op dataDma).control =
    if op.dataNbytes = 0 then 0 else if op.dataDir = .dataIn then 1 else 0
  := by
  rw [control_buildDesc]
  simp (disch := decide)

/-- One less than the number of bytes of the address, in two bits. -/
theorem addrSize_buildDesc (h : op.addr.nbytes ≠ 0) :
  tnmAddrSize.get (buildDesc op dataDma).count = (op.addr.nbytes.toNat - 1) % 4
  := by
  rw [count_buildDesc, if_neg h]
  simp (disch := decide)
  rfl

/-- The dummy cycles, in eight bits. -/
theorem dummyCount_buildDesc (h : op.dummy.nbytes ≠ 0) :
  tnmDummyCount.get (buildDesc op dataDma).count =
    op.dummy.nbytes.toNat * 8 / op.dummy.buswidth.toNat % 256
  := by
  rw [count_buildDesc, if_neg h]
  simp (disch := decide)
  rfl

/-- The length for the bus, in 16 bits. -/
theorem dataCount_buildDesc (h : op.dataNbytes ≠ 0) :
  tnmDataCount.get (buildDesc op dataDma).count = op.dataLen % 2 ^ 16
  := by
  rw [count_buildDesc, if_neg h]
  simp (disch := decide)
  rfl

/-- The length for the memory, in 17 bits. -/
theorem descDataLen_buildDesc (h : op.dataNbytes ≠ 0) :
  descDataLen.get (buildDesc op dataDma).dataLen = op.dataLen % 2 ^ 17
  := by
  rw [dataLen_buildDesc, if_neg h]
  simp (disch := decide)
  rfl

/-- What is cut off from a value is lost, and reaches no other field. -/
theorem unspilled_buildDesc : Unspilled (buildDesc op dataDma) := by
  constructor
  · rw [control_buildDesc]
    simp (disch := decide)
  · rw [control_buildDesc]
    simp (disch := decide)
    rfl
  · rw [dataLen_buildDesc]
    simp (disch := decide)
    rfl
  · rw [phase_buildDesc]
    simp (disch := decide)
  · rw [count_buildDesc]
    simp (disch := decide)

end

/-! ### The transfer -/

/-- The code of a width that the controller knows. -/
theorem two_pow_width {w : UInt8} (h : ¬ width w < 0) : 2 ^ (toU32 (width w) % 4) = w.toNat := by
  rw [width] at h ⊢
  split at h
  · next hw => simp [hw, toU32]
  · split at h
    · next hw => simp [hw, toU32]
    · split at h
      · next hw => simp [hw, toU32]
      · split at h
        · next hw => simp [hw, toU32]
        · exact absurd (by decide) h

/-- A width of the controller is not zero, so that the dummy cycles are well defined. -/
theorem pos_of_width {w : UInt8} (h : ¬ width w < 0) : 0 < w.toNat := by
  rw [← two_pow_width h]
  apply Nat.two_pow_pos

/-- What the test for supported operations makes sure of. -/
structure Supported (op : Op) : Prop where
  cmd : op.cmd.buswidth = 1
  addr : op.addr.nbytes ≠ 0 → ¬ width op.addr.buswidth < 0
  dummy : op.dummy.nbytes ≠ 0 → ¬ width op.dummy.buswidth < 0
  data : op.dataNbytes ≠ 0 → ¬ width op.dataBuswidth < 0

/-- What the test for supported operations makes sure of. -/
theorem supported_of_supportsOp {default : Op → Bool} {op : Op}
    (h : supportsOp default op = true) :
  default op = true ∧ Supported op
  := by
  rw [supportsOp] at h
  split at h
  · cases h
  · next hdefault =>
    rw [Bool.not_eq_true, Bool.not_eq_false'] at hdefault
    use hdefault
    split at h
    · cases h
    · split at h
      · cases h
      · next hwidths =>
        rw [not_or, not_or, not_or, not_not, not_and, not_and, not_and] at hwidths
        obtain ⟨hcmd, haddr, hdummy, hdata⟩ := hwidths
        exact ⟨hcmd, haddr, hdummy, hdata⟩

section

variable {op : Op} (dataDma : ℕ)

/-- The address is read back exactly when it and its number of bytes fit. -/
theorem decode_addr_iff (h : Supported op) :
  (decode (buildDesc op dataDma)).addr = op.transfer.addr ↔
    (op.addr.nbytes ≠ 0 → op.addr.nbytes ≤ 4 ∧ op.addrVal < 2 ^ 32)
  := by
  by_cases hnone : op.addr.nbytes = 0
  · simp [decode, Op.transfer, phaseAddr_buildDesc, hnone]
  · have hbytes : 0 < op.addr.nbytes.toNat := by
      apply Nat.pos_of_ne_zero
      intro hzero
      apply hnone (UInt8.toNat_inj.mp hzero)
    have hsize : (op.addr.nbytes.toNat - 1) % 4 + 1 = op.addr.nbytes.toNat ↔
        op.addr.nbytes ≤ 4 := by
      rw [UInt8.le_iff_toNat_le]
      change _ ↔ op.addr.nbytes.toNat ≤ 4
      omega
    have hval : op.addrVal.toNat % 2 ^ 32 = op.addrVal.toNat ↔ op.addrVal < 2 ^ 32 := by
      rw [UInt64.lt_iff_toNat_lt]
      apply Nat.mod_eq_iff_lt
      decide
    simp only [decode, Op.transfer, phaseAddr_buildDesc, if_neg hnone,
      flashAddr_buildDesc _ _ hnone,
      addrSize_buildDesc _ _ hnone, addrWidth_buildDesc _ _ hnone, two_pow_width (h.addr hnone),
      Option.some.injEq, Prod.mk.injEq, and_true, hsize, hval, Nat.one_ne_zero, if_false]
    constructor
    · intro hboth _
      exact ⟨hboth.2, hboth.1⟩
    · intro hboth
      exact ⟨(hboth hnone).2, (hboth hnone).1⟩

/-- The dummy cycles are read back exactly when there are fewer than 256. -/
theorem decode_dummy_iff (h : Supported op) :
  (decode (buildDesc op dataDma)).dummy = op.transfer.dummy ↔
    (op.dummy.nbytes ≠ 0 → op.dummy.nbytes.toNat < 32 * op.dummy.buswidth.toNat)
  := by
  by_cases hnone : op.dummy.nbytes = 0
  · simp [decode, Op.transfer, phaseDummy_buildDesc, hnone]
  · have hpos := pos_of_width (h.dummy hnone)
    have hcycles : op.dummy.nbytes.toNat * 8 / op.dummy.buswidth.toNat < 256 ↔
        op.dummy.nbytes.toNat < 32 * op.dummy.buswidth.toNat := by
      rw [Nat.div_lt_iff_lt_mul hpos]
      omega
    simp only [decode, Op.transfer, phaseDummy_buildDesc, if_neg hnone,
      dummyCount_buildDesc _ _ hnone, Option.some.injEq, Nat.one_ne_zero, if_false]
    rw [Nat.mod_eq_iff_lt (by decide), hcycles]
    constructor
    · intro hfits _
      exact hfits
    · intro hfits
      apply hfits hnone

/-- The length of data that have been adjusted fits in its fields. -/
theorem dataLen_lt (h : op.dataNbytes ≤ maxData) : op.dataLen < 2 ^ 16 := by
  have hbytes : op.dataNbytes.toNat ≤ 4096 := UInt32.le_iff_toNat_le.mp h
  rw [Op.dataLen]
  split
  · apply Nat.max_lt.mpr
    use Nat.lt_of_le_of_lt hbytes (by decide)
    decide
  · apply Nat.lt_of_le_of_lt hbytes
    decide

/-- Whatever is not read is written. -/
theorem dir_buildDesc (h : op.dataNbytes ≠ 0) :
  (buildDesc op dataDma).dir = if op.dataDir = .dataIn then .dataIn else .dataOut
  := by
  rw [Desc.dir, phaseRx_buildDesc, phaseTx_buildDesc, writeToRam_buildDesc, if_neg h, if_neg h]
  by_cases hdir : op.dataDir = .dataIn
  · simp only [if_pos hdir]
  · simp only [if_neg hdir]

/-- The data are read back exactly when they have a direction: data without one are sent out. -/
theorem decode_data_iff (h : Supported op) (hmax : op.dataNbytes ≤ maxData) :
  (decode (buildDesc op dataDma)).data = op.transfer.data ↔
    (op.dataNbytes ≠ 0 → op.dataDir ≠ .noData)
  := by
  by_cases hnone : op.dataNbytes = 0
  · simp [decode, Op.transfer, phaseRx_buildDesc, phaseTx_buildDesc, hnone]
  · have hlen := dataLen_lt hmax
    have hlen' : op.dataLen < 2 ^ 17 := Nat.lt_of_lt_of_le hlen (by decide)
    have hphase : ¬ (phaseRx.get (buildDesc op dataDma).phase = 0 ∧
        phaseTx.get (buildDesc op dataDma).phase = 0) := by
      rw [phaseRx_buildDesc, phaseTx_buildDesc, if_neg hnone, if_neg hnone]
      split
      · rintro ⟨⟨⟩, -⟩
      · rintro ⟨-, ⟨⟩⟩
    simp only [decode, Op.transfer, if_neg hphase, if_neg hnone, descDataLen_buildDesc _ _ hnone,
      dataCount_buildDesc _ _ hnone, dataWidth_buildDesc _ _ hnone, two_pow_width (h.data hnone),
      Nat.mod_eq_of_lt hlen, Nat.mod_eq_of_lt hlen', dir_buildDesc _ hnone, Option.some.injEq,
      Prod.mk.injEq, true_and, and_true]
    cases op.dataDir with
    | noData => simp [hnone]
    | dataIn => simp
    | dataOut => simp

/-- The opcode is read back exactly when it is one byte. -/
theorem decode_opcode_iff :
  (decode (buildDesc op dataDma)).opcode = op.transfer.opcode ↔ op.opcode < 256
  := by
  rw [decode, Op.transfer, opcode_buildDesc, UInt16.lt_iff_toNat_lt]
  apply Nat.mod_eq_iff_lt
  decide

/-- The descriptor of an operation that is supported and adjusted carries it exactly when its fields
fit. -/
theorem decoded_iff (h : Supported op) (hmax : op.dataNbytes ≤ maxData) :
  Lossless op dataDma ↔ Fits op
  := by
  have hcode := @decode_opcode_iff op dataDma
  have hwidth : 2 ^ tcsCmdWidth.get (buildDesc op dataDma).command = op.cmd.buswidth.toNat := by
    rw [cmdWidth_buildDesc]
    apply two_pow_width
    rw [h.cmd]
    decide
  have haddr := @decode_addr_iff op dataDma h
  have hdummy := @decode_dummy_iff op dataDma h
  have hdata := @decode_data_iff op dataDma h hmax
  constructor
  · rintro ⟨hdecode, -⟩
    constructor
    · apply hcode.mp (congrArg Transfer.opcode hdecode)
    · apply haddr.mp (congrArg Transfer.addr hdecode)
    · apply hdummy.mp (congrArg Transfer.dummy hdecode)
    · apply hdata.mp (congrArg Transfer.data hdecode)
  · intro hfits
    refine ⟨?_, unspilled_buildDesc op dataDma⟩
    rw [Transfer.mk.injEq]
    exact ⟨hcode.mpr hfits.opcode, hwidth, haddr.mpr hfits.addr, hdummy.mpr hfits.dummy,
      hdata.mpr hfits.data⟩

end

/-- Data that are adjusted do not vanish. -/
theorem adjustOpSize_eq (op : Op) :
  ∃ n, adjustOpSize op = { op with dataNbytes := n } ∧ n ≤ maxData ∧ (n = 0 ↔ op.dataNbytes = 0)
  := by
  rw [adjustOpSize]
  split
  · next hmore =>
    refine ⟨maxData, rfl, UInt32.le_refl _, ?_⟩
    apply iff_of_false (by decide)
    intro hnone
    rw [hnone] at hmore
    exact absurd hmore (by decide)
  · next hless => exact ⟨op.dataNbytes, rfl, UInt32.not_lt.mp hless, Iff.rfl⟩

/-- The descriptor of an operation that is supported carries it exactly when its opcode,
its address, its dummy cycles and its direction fit. -/
theorem buildDesc_lossless_iff {default : Op → Bool} {op : Op} (hop : supportsOp default op = true)
    (dataDma : ℕ) :
  Lossless (adjustOpSize op) dataDma ↔ Fits op
  := by
  obtain ⟨-, hsupported⟩ := supported_of_supportsOp hop
  obtain ⟨n, hadjusted, hmax, hzero⟩ := adjustOpSize_eq op
  rw [hadjusted]
  have hsupported' : Supported { op with dataNbytes := n } := by
    use hsupported.cmd, hsupported.addr, hsupported.dummy
    intro hsome
    apply hsupported.data (mt hzero.mpr hsome)
  rw [decoded_iff dataDma hsupported' hmax]
  constructor
  · rintro ⟨hopcode, haddr, hdummy, hdir⟩
    use hopcode, haddr, hdummy
    intro hsome
    apply hdir (mt hzero.mp hsome)
  · rintro ⟨hopcode, haddr, hdummy, hdir⟩
    use hopcode, haddr, hdummy
    intro hsome
    apply hdir (mt hzero.mpr hsome)

/-- `spi_mem_default_supports_op` on a controller that has all widths of the bus, and no double
rate. -/
def defaultSupportsOp (op : Op) : Bool :=
  !(op.cmd.dtr || op.addr.dtr || op.dummy.dtr || op.dataDtr) && decide (op.cmd.nbytes = 1) &&
    decide (0 ≤ width op.cmd.buswidth ∧ (op.addr.nbytes ≠ 0 → 0 ≤ width op.addr.buswidth) ∧
      (op.dummy.nbytes ≠ 0 → 0 ≤ width op.dummy.buswidth) ∧
      (op.dataDir ≠ .noData → 0 ≤ width op.dataBuswidth))

/-- A read of 4 bytes at the address `0x1000`, with some dummy bytes. -/
def read (dummy : UInt8) : Op where
  opcode := 0x0b
  cmd := ⟨1, 1, false⟩
  addr := ⟨3, 1, false⟩
  addrVal := 0x1000
  dummy := ⟨dummy, 1, false⟩
  dataNbytes := 4
  dataBuswidth := 1
  dataDtr := false
  dataDir := .dataIn

/-- A fast read fits. -/
theorem lossless_read : Lossless (adjustOpSize (read 1)) 0 := by
  apply (@buildDesc_lossless_iff defaultSupportsOp (read 1) (by decide) 0).mpr
  constructor
  · decide
  · intro _
    decide
  · intro _
    decide
  · intro _
    decide

/-- A read with 32 dummy bytes is supported, but its 256 dummy cycles are lost. -/
theorem not_lossless_read :
  ¬ ∀ (op : Op) (dataDma : ℕ), supportsOp defaultSupportsOp op = true →
    decode (buildDesc (adjustOpSize op) dataDma) = (adjustOpSize op).transfer
  := by
  intro h
  have hdummy := congrArg Transfer.dummy (h (read 32) 0 (by decide))
  exact absurd hdummy (by decide)

end SunxiSpif

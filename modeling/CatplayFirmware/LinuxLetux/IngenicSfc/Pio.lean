import CatplayFirmware.LinuxLetux.IngenicSfc.Controller
import CatplayFirmware.Support.FlatMemory

/-!
# Programmed transfers

The driver starts a transfer and waits. The handler of the interrupts pushes the bytes of a buffer
into the FIFO, or pops them from it, in words whose lowest byte is the first one. While the handler
runs, and between its accesses to the registers, the controller goes on. All of its sources are
masked before a transfer and behind its end.
-/

namespace IngenicSfc

open Bytes FlatMemory Controller

abbrev Memory := FlatMemory 32

def eio : ℤ := -5

def eopnotsupp : ℤ := -95

def etimedout : ℤ := -110

/-- `struct ingenic_sfc`, as far as a programmed transfer uses it. -/
structure Sfc where
  lastError : ℤ
  active : Bool
  completed : Bool
  txBuf : Option (BitVec 32)
  txLen : ℕ
  txPos : ℕ
  rxBuf : Option (BitVec 32)
  rxLen : ℕ
  rxPos : ℕ
  deriving DecidableEq

/-- What the handler works on, with the addresses of the buffer that it has touched, and what the
controller does on its own before each of the next accesses to a register. -/
structure Machine where
  sfc : Sfc
  hw : Controller
  mem : Memory
  touched : List (BitVec 32)
  batches : List (List Event)

/-! ### Registers -/

/-- The controller runs on its own until the next access. -/
def tick (m : Machine) : Machine :=
  match m.batches with
  | [] => m
  | events :: batches => { m with hw := m.hw.run events, batches }

/-- An end that stands in the status is read with it. -/
def noteEnd (m : Machine) : Machine :=
  { m with hw := { m.hw with endRead := m.hw.endRead || m.hw.sr.ends } }

/-- The status and the level of the FIFO. -/
def readSr (m : Machine) : Machine × Status × ℕ :=
  let m := noteEnd (tick m)
  (m, m.hw.sr, m.hw.fifo.length % 128)

def writeScr (m : Machine) (bits : Status) : Machine :=
  let m := tick m
  { m with hw := { m.hw with sr := m.hw.sr.without bits } }

def readIntc (m : Machine) : Machine × Status :=
  let m := tick m
  (m, m.hw.intc)

def writeIntc (m : Machine) (intc : Status) : Machine :=
  let m := tick m
  { m with hw := { m.hw with intc } }

/-- The mask is read, changed and written. -/
def updateIntc (m : Machine) (f : Status → Status) : Machine :=
  let (m, intc) := readIntc m
  writeIntc m (f intc)

/-- A word that is pushed into a full FIFO is lost. -/
def writeDr (m : Machine) (w : Word) : Machine :=
  let m := tick m
  let fifo := if m.hw.fifo.length < maxFifoWords then m.hw.fifo ++ [w] else m.hw.fifo
  { m with hw := { m.hw with fifo, pushed := m.hw.pushed ++ [w] } }

def readDr (m : Machine) : Machine × Word :=
  let m := tick m
  match m.hw.fifo with
  | [] => (m, m.hw.stale)
  | w :: fifo => ({ m with hw := { m.hw with fifo, popped := m.hw.popped ++ [w] } }, w)

/-! ### The FIFO -/

/-- A word of up to four bytes, each of which is shifted behind those before it. -/
def wordOf (bytes : Bytes) : Word :=
  bytes.foldr (fun b w => b.toBitVec.setWidth 32 ||| w <<< 8) 0

/-- The first `n` bytes of a word, which is shifted down behind each. -/
def bytesOf : ℕ → Word → Bytes
  | 0, _ => []
  | n + 1, w => UInt8.ofBitVec (w.setWidth 8) :: bytesOf n (w >>> 8)

/-- `DIV_ROUND_UP(len, 4)`, whose sum has 32 bits. -/
def wordsFor (len : ℕ) : ℕ := (len + 3) % 2 ^ 32 / 4

/-- The addresses of `n` bytes. -/
def addresses (a : BitVec 32) (n : ℕ) : List (BitVec 32) :=
  (List.range n).map fun i => a + BitVec.ofNat 32 i

/-- The loop of `ingenic_sfc_write_txfifo`. -/
def writeWords : ℕ → Machine → BitVec 32 → ℕ → Machine
  | 0, m, _, _ => m
  | n + 1, m, src, len =>
    let k := min 4 len
    let m := { m with touched := m.touched ++ addresses src k }
    writeWords n (writeDr m (wordOf (load m.mem src k))) (src + BitVec.ofNat 32 k) (len - k)

/-- `ingenic_sfc_write_txfifo`. -/
def writeTxfifo (m : Machine) (src : BitVec 32) (len : ℕ) : Machine :=
  writeWords (wordsFor len) m src len

/-- The loop of `ingenic_sfc_read_rxfifo`. -/
def readWords : ℕ → Machine → BitVec 32 → ℕ → Machine
  | 0, m, _, _ => m
  | n + 1, m, dst, len =>
    let k := min 4 len
    let (m, val) := readDr m
    let m := { m with
      mem := store m.mem dst (bytesOf k val)
      touched := m.touched ++ addresses dst k }
    readWords n m (dst + BitVec.ofNat 32 k) (len - k)

/-- `ingenic_sfc_read_rxfifo`. -/
def readRxfifo (m : Machine) (dst : BitVec 32) (len : ℕ) : Machine :=
  readWords (wordsFor len) m dst len

/-! ### The handler -/

/-- As many bytes as fit are pushed when words are requested. -/
def pushRequested (m : Machine) : Machine :=
  match m.sfc.txBuf with
  | none => m
  | some buf =>
    if m.sfc.txPos < m.sfc.txLen then
      let txLen := min (m.sfc.txLen - m.sfc.txPos) ((maxFifoWords - 1) * 4)
      let m := writeTxfifo m (buf + BitVec.ofNat 32 m.sfc.txPos) txLen
      { m with sfc := { m.sfc with txPos := m.sfc.txPos + txLen } }
    else m

/-- The request for words is masked behind the last one. -/
def serveTx (m : Machine) : Machine :=
  let m := pushRequested m
  if m.sfc.txPos = m.sfc.txLen then updateIntc m fun intc => { intc with tranReq := true } else m

/-- As many words as were in the FIFO are popped. -/
def popReceived (m : Machine) (fifoWords : ℕ) : Machine :=
  match m.sfc.rxBuf with
  | none => m
  | some buf =>
    if m.sfc.rxPos < m.sfc.rxLen then
      let rxLen := min (m.sfc.rxLen - m.sfc.rxPos) (fifoWords * 4)
      if rxLen ≠ 0 then
        let m := readRxfifo m (buf + BitVec.ofNat 32 m.sfc.rxPos) rxLen
        { m with sfc := { m.sfc with rxPos := m.sfc.rxPos + rxLen } }
      else m
    else m

/-- The request to read is masked behind the last word. -/
def serveRx (m : Machine) (fifoWords : ℕ) : Machine :=
  let m := popReceived m fifoWords
  if m.sfc.rxPos = m.sfc.rxLen then updateIntc m fun intc => { intc with receReq := true } else m

/-- The rest is popped at the end of the transfer. -/
def popRest (m : Machine) : Machine :=
  match m.sfc.rxBuf with
  | none => m
  | some buf =>
    if m.sfc.rxPos < m.sfc.rxLen then
      let m := readRxfifo m (buf + BitVec.ofNat 32 m.sfc.rxPos) (m.sfc.rxLen - m.sfc.rxPos)
      { m with sfc := { m.sfc with rxPos := m.sfc.rxLen } }
    else m

def serveEnd (m : Machine) : Machine :=
  let m := popRest m
  { m with sfc := { m.sfc with lastError := 0 } }

/-- The end of the handler: what has been served is cleared. -/
def finish (m : Machine) (sr : Status) (terminal : Bool) : Machine :=
  let m := if terminal then tick (writeIntc m .all) else m
  let m := tick (tick (writeScr m sr))
  if terminal then { m with sfc := { m.sfc with active := false, completed := true } } else m

/-- `ingenic_sfc_irq_handler`. -/
def irqHandler (m : Machine) : Machine :=
  let (m, sr, fifoWords) := readSr m
  if !sr.any then m
  else if !m.sfc.active then tick (tick (writeScr m sr))
  else if sr.overrun || sr.underrun then
    finish { m with sfc := { m.sfc with lastError := eio } } sr true
  else
    let m := if sr.tranReq then serveTx m else m
    let m := if sr.receReq then serveRx m fifoWords else m
    if sr.ends then finish (serveEnd m) sr true else finish m sr false

/-! ### The transfer -/

/-- `enum spi_mem_data_dir`. -/
inductive Dir where
  | noData
  | dataIn
  | dataOut
  deriving DecidableEq

/-- The data of `struct spi_mem_op`. -/
structure Op where
  dir : Dir
  nbytes : ℕ
  buf : Option (BitVec 32)
  deriving DecidableEq

/-- Where `ingenic_sfc_exec_op_pio` is: it waits, or clears one field after the other, or has
returned. -/
inductive Thread where
  | waiting
  | cleaning (ret : ℤ) (step : ℕ)
  | returned (ret : ℤ)
  deriving DecidableEq

structure System where
  m : Machine
  thread : Thread

/-- `ingenic_sfc_pio_eligible`. -/
def pioEligible (op : Op) : Bool := op.dir == .noData || op.buf.isSome

/-- The mask of a transfer. -/
def intcOf (dir : Dir) : Status where
  ends := false
  tranReq := dir != .dataOut
  receReq := dir != .dataIn
  overrun := false
  underrun := false

def Dir.tranDir : Dir → TranDir
  | .dataIn => .read
  | _ => .write

/-- The machine before a transfer. -/
def idle (mem : Memory) (stale : Word) : Machine where
  sfc :=
    { lastError := 0
      active := false
      completed := false
      txBuf := none
      txLen := 0
      txPos := 0
      rxBuf := none
      rxLen := 0
      rxPos := 0 }
  hw :=
    { dir := .write
      len := 0
      fifo := []
      sr := .none
      intc := .all
      line := []
      placed := []
      taken := []
      pushed := []
      popped := []
      endRead := false
      faulted := false
      stale }
  mem
  touched := []
  batches := []

/-- `ingenic_sfc_exec_op_pio` until it waits. No interrupt is delivered meanwhile, since all sources
are masked until its last step. The words of `line` will come from the flash. -/
def startTransfer (m : Machine) (op : Op) (line : List Word) : Machine :=
  { m with
    sfc :=
      { lastError := 0
        active := true
        completed := false
        txBuf := if op.dir = .dataOut then op.buf else none
        txLen := if op.dir = .dataOut then op.nbytes else 0
        txPos := 0
        rxBuf := if op.dir = .dataIn then op.buf else none
        rxLen := if op.dir = .dataIn then op.nbytes else 0
        rxPos := 0 }
    hw := { m.hw with dir := op.dir.tranDir, len := op.nbytes, intc := intcOf op.dir, line } }

def start (op : Op) (mem : Memory) (line : List Word) (stale : Word) : System :=
  if pioEligible op then { m := startTransfer (idle mem stale) op line, thread := .waiting }
  else { m := idle mem stale, thread := .returned eopnotsupp }

/-- One of the steps behind the label `out`. -/
def cleanStep (m : Machine) : ℕ → Machine
  | 0 => { m with sfc := { m.sfc with txBuf := none } }
  | 1 => { m with sfc := { m.sfc with txLen := 0 } }
  | 2 => { m with sfc := { m.sfc with txPos := 0 } }
  | 3 => { m with sfc := { m.sfc with rxBuf := none } }
  | 4 => { m with sfc := { m.sfc with rxLen := 0 } }
  | 5 => { m with sfc := { m.sfc with rxPos := 0 } }
  | 6 => { m with sfc := { m.sfc with active := false } }
  | 7 => writeIntc m .all
  | 8 => writeScr m .all
  | _ => m

/-- What happens next: the controller runs, the processor is interrupted, the thread takes a step,
or its wait times out. The handler decides by the status what there is to do, so that an interrupt
may come at any time. -/
inductive Moment where
  | device (events : List Event)
  | interrupt (batches : List (List Event))
  | thread
  | timeout

def step (s : System) : Moment → System
  | .device events => { s with m := { s.m with hw := s.m.hw.run events } }
  | .interrupt batches => { s with m := { irqHandler { s.m with batches } with batches := [] } }
  | .thread =>
    match s.thread with
    | .waiting =>
      if s.m.sfc.completed then { s with thread := .cleaning s.m.sfc.lastError 0 } else s
    | .cleaning ret n =>
      if n < 9 then { m := cleanStep s.m n, thread := .cleaning ret (n + 1) }
      else { s with thread := .returned ret }
    | .returned _ => s
  | .timeout =>
    match s.thread with
    | .waiting => if s.m.sfc.completed then s else { s with thread := .cleaning etimedout 0 }
    | _ => s

/-- `ingenic_sfc_exec_op_pio`, as far as it has come. -/
def execOpPio (op : Op) (mem : Memory) (line : List Word) (stale : Word) (moments : List Moment) :
    System :=
  moments.foldl step (start op mem line stale)

end IngenicSfc

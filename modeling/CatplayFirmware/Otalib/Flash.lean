import CatplayFirmware.Support.Bytes
import CatplayFirmware.Support.Outcome
import CatplayFirmware.Support.Text
import Mathlib.Data.List.Basic
import Mathlib.Tactic.Ring

/-!
# Reading and writing the flash

The flash is 16 MiB. On some devices it is one partition, on others three or four partitions
that follow each other, and `read` and `write` walk over the partitions a span touches. A
device is the contents of its partitions, and `flat` is their concatenation. A read returns
a span of `flat`, and a write replaces one, whatever the partitions are: the flash behaves as
one flat image. Sizes and offsets are natural numbers; spans that fit the flash and partitions
that sum to it stay far below a machine word.
-/

namespace Flash

open Bytes

inductive FlashLayout where
  | modern
  | legacy
  | legacyUltraNor
  | legacyUltraNand
  | unknown
  deriving DecidableEq

def flashSize : ℕ := 16 * 1024 * 1024

def flashBlockSize : ℕ := 64 * 1024

def ultraNandFlashSize : ℕ := 128 * 1024 * 1024

/-! ### The device and the system -/

/-- The contents of the four partitions. -/
structure Device where
  partitions : Vector Bytes 4

namespace Device

/-- The sizes of the partitions. -/
def sizes (dev : Device) : Vector ℕ 4 := dev.partitions.map List.length

/-- The partitions one behind the other. -/
def flat (dev : Device) : Bytes := dev.partitions.toList.flatten

/-- What a mapping of the partition `i` holds goes to the partition. -/
def store (dev : Device) (i : Fin 4) (mem : Bytes) : Device :=
  { partitions := dev.partitions.set i (overwrite dev.partitions[i] 0 mem) }

end Device

/-- What the system answers to the calls made in one `read` or `write`, by partition: whether
its size is found when the layout is detected and when the walk starts, whether it opens and
maps, whether the `msync` of the writer and the one of the walk succeed; and whether the
device is an ultra. -/
structure System where
  isUltra : Bool
  detects : ℕ → Bool
  stats : ℕ → Bool
  opens : ℕ → Bool
  maps : ℕ → Bool
  writerSyncs : ℕ → Bool
  syncs : ℕ → Bool

/-- `Flash::layout`: a partition whose size is not found counts as empty. -/
def layout (sys : System) (dev : Device) : FlashLayout :=
  let sizes := Vector.ofFn fun i : Fin 4 => if sys.detects i then dev.partitions[i].length else 0
  let sum := sizes.sum
  if sys.isUltra ∧ sum = ultraNandFlashSize then .legacyUltraNand
  else if sizes[0] = flashSize then .modern
  else if sum = flashSize ∧ 0 < sizes[0] ∧ 0 < sizes[1] ∧ 0 < sizes[2] then
    if 0 < sizes[3] ∧ sys.isUltra then .legacyUltraNor else .legacy
  else .unknown

/-- The sizes the walk goes by: every partition has to be online. -/
def walkSizes (sys : System) (dev : Device) : Outcome Text (Vector ℕ 4) :=
  if ∀ i : Fin 4, sys.stats i then .ok dev.sizes
  else .fail "legacy partition is offline".toList

/-- `SmallFd::open` and `SmallFd::mmap` of the first `len` bytes of a partition. -/
def openMap (sys : System) (dev : Device) (i : Fin 4) (len : ℕ) : Outcome Text Bytes :=
  if sys.opens i = false then .fail "failed to open fd".toList
  else if sys.maps i = false then .fail "mmap failed".toList
  else .ok (slice dev.partitions[i] 0 len)

/-! ### The mapped memory -/

/-- The variables of the loop of `write_if_different`. -/
structure WriterState where
  mem : Bytes
  written : Bool
  pos : ℕ

/-- One round of the loop of `write_if_different`. -/
def writerRound (syncs : Bool) (offset : ℕ) (data : Bytes) (blockSize : ℕ) (st : WriterState) :
    WriterState ⊕ (Bytes × Outcome Text Unit) :=
  if st.pos < data.length then
    let blockOff := offset + st.pos
    let remain := data.length - st.pos
    let chunkLen := min remain blockSize
    if st.mem.length < blockOff + chunkLen then .inr (st.mem, .panics)
    else
      let oldChunk := slice st.mem blockOff chunkLen
      let newChunk := slice data st.pos chunkLen
      if oldChunk ≠ newChunk then
        .inl ⟨overwrite st.mem blockOff newChunk, true, st.pos + chunkLen⟩
      else .inl { st with pos := st.pos + chunkLen }
  else if st.written ∧ syncs = false then .inr (st.mem, .fail "msync failed".toList)
  else .inr (st.mem, .ok ())

/-- `MmapGuard::write_if_different`, with the memory as it is after the call. A loop that has
not ended after as many rounds as there are bytes does not end. -/
def writeIfDifferent (syncs : Bool) (mem : Bytes) (offset : ℕ) (data : Bytes) (blockSize : ℕ) :
    Bytes × Outcome Text Unit :=
  (Loop.iterate (writerRound syncs offset data blockSize) (data.length + 1) ⟨mem, false, 0⟩).getD
    (mem, .diverges)

/-- `MmapGuard::read` into a buffer of length `len`. -/
def mmapRead (mem : Bytes) (offset len : ℕ) : Outcome Text Bytes :=
  if mem.length < offset + len then .panics else .ok (slice mem offset len)

/-! ### Writing -/

/-- A partition is opened, mapped and written to. -/
def writePartition (sys : System) (dev : Device) (i : Fin 4) (len off : ℕ) (data : Bytes) :
    Device × Outcome Text Unit :=
  match openMap sys dev i len with
  | .error fault => (dev, .error fault)
  | .ok mem =>
    let (mem, result) := writeIfDifferent (sys.writerSyncs i) mem off data flashBlockSize
    (dev.store i mem, result)

/-- The variables of the walk of `write`. -/
structure WriteState where
  dev : Device
  i : ℕ
  off : ℕ
  written : ℕ

/-- One round of the `for` loop of `write`. -/
def writeRound (sys : System) (sizes : Vector ℕ 4) (data : Bytes) (st : WriteState) :
    WriteState ⊕ (Device × Outcome Text Unit) :=
  if hi : st.i < 4 then
    if sizes[st.i] ≤ st.off then
      .inl { st with i := st.i + 1, off := st.off - sizes[st.i] }
    else
      let avail := sizes[st.i] - st.off
      let toWrite := min avail (data.length - st.written)
      let chunk := slice data st.written toWrite
      match writePartition sys st.dev ⟨st.i, hi⟩ sizes[st.i] st.off chunk with
      | (dev, .error fault) => .inr (dev, .error fault)
      | (dev, .ok ()) =>
        if sys.syncs st.i = false then .inr (dev, .fail "msync failed".toList)
        else if data.length ≤ st.written + toWrite then .inr (dev, .ok ())
        else .inl ⟨dev, st.i + 1, 0, st.written + toWrite⟩
  else .inr (st.dev, .ok ())

/-- The walk of `write` over the partitions. -/
def writeWalk (sys : System) (dev : Device) (offset : ℕ) (data : Bytes) :
    Device × Outcome Text Unit :=
  match walkSizes sys dev with
  | .error fault => (dev, .error fault)
  | .ok sizes =>
    if sizes.sum < offset + data.length then (dev, .fail "write exceeds flash size #2".toList)
    else
      (Loop.iterate (writeRound sys sizes data) 5 ⟨dev, 0, offset, 0⟩).getD (dev, .diverges)

/-- `Flash::write`, with the device as it is after the call. -/
def write (sys : System) (dev : Device) (offset : ℕ) (data : Bytes) : Device × Outcome Text Unit :=
  if flashSize < offset + data.length then (dev, .fail "write exceeds flash size".toList)
  else
    match layout sys dev with
    | .modern => writePartition sys dev 0 flashSize offset data
    | .legacy | .legacyUltraNor => writeWalk sys dev offset data
    | .legacyUltraNand => (dev, .fail "flashing ultra NAND not supported yet".toList)
    | .unknown => (dev, .fail "unknown flash layout".toList)

/-! ### Reading -/

/-- The variables of the walk of `read`. -/
structure ReadState where
  data : Bytes
  i : ℕ
  off : ℕ
  readTotal : ℕ

/-- One round of the `for` loop of `read`. -/
def readRound (sys : System) (dev : Device) (sizes : Vector ℕ 4) (st : ReadState) :
    ReadState ⊕ (Bytes × Outcome Text Unit) :=
  if hi : st.i < 4 then
    if sizes[st.i] ≤ st.off then
      .inl { st with i := st.i + 1, off := st.off - sizes[st.i] }
    else
      let avail := sizes[st.i] - st.off
      let toRead := min avail (st.data.length - st.readTotal)
      match openMap sys dev ⟨st.i, hi⟩ sizes[st.i] >>= fun mem => mmapRead mem st.off toRead with
      | .error fault => .inr (st.data, .error fault)
      | .ok chunk =>
        let data := overwrite st.data st.readTotal chunk
        if data.length ≤ st.readTotal + toRead then .inr (data, .ok ())
        else .inl ⟨data, st.i + 1, 0, st.readTotal + toRead⟩
  else .inr (st.data, .ok ())

/-- The walk of `read` over the partitions. -/
def readWalk (sys : System) (dev : Device) (offset : ℕ) (data : Bytes) :
    Bytes × Outcome Text Unit :=
  match walkSizes sys dev with
  | .error fault => (data, .error fault)
  | .ok sizes =>
    if sizes.sum < offset + data.length then (data, .fail "read exceeds flash size #2".toList)
    else
      (Loop.iterate (readRound sys dev sizes) 5 ⟨data, 0, offset, 0⟩).getD (data, .diverges)

/-- `Flash::read`, with the buffer as it is after the call. -/
def read (sys : System) (dev : Device) (offset : ℕ) (data : Bytes) : Bytes × Outcome Text Unit :=
  if flashSize < offset + data.length then (data, .fail "read exceeds flash size".toList)
  else
    match layout sys dev with
    | .modern =>
      match openMap sys dev 0 flashSize >>= fun mem => mmapRead mem offset data.length with
      | .error fault => (data, .error fault)
      | .ok chunk => (chunk, .ok ())
    | .legacy | .legacyUltraNor => readWalk sys dev offset data
    | .legacyUltraNand => (data, .fail "flashing ultra NAND not supported yet".toList)
    | .unknown => (data, .fail "unknown flash layout".toList)

/-! ### The writer overwrites -/

/-- The writer has put the first `pos` bytes in place. -/
structure WriterInv (mem : Bytes) (offset : ℕ) (data : Bytes) (st : WriterState) : Prop where
  pos_le : st.pos ≤ data.length
  mem_eq : st.mem = overwrite mem offset (data.take st.pos)

/-- A round of the writer puts one more chunk in place, whether it differs or not. -/
theorem WriterInv.round {syncs : Bool} {mem data : Bytes} {offset blockSize : ℕ}
    {st st' : WriterState} (hfit : offset + data.length ≤ mem.length) (hblock : 0 < blockSize)
    (hinv : WriterInv mem offset data st)
    (hstep : writerRound syncs offset data blockSize st = .inl st') :
  WriterInv mem offset data st' ∧ data.length - st'.pos < data.length - st.pos
  := by
  have hmem := hinv.mem_eq
  rw [writerRound] at hstep
  split at hstep
  · next hpos =>
    have hlen : (data.take st.pos).length = st.pos := List.length_take_of_le hinv.pos_le
    have hstlen : st.mem.length = mem.length := by
      rw [hmem]
      apply length_overwrite
      omega
    obtain ⟨chunk, hchunk⟩ : ∃ chunk, chunk = min (data.length - st.pos) blockSize := ⟨_, rfl⟩
    have hnext : overwrite mem offset (data.take (st.pos + chunk)) =
        overwrite st.mem (offset + st.pos) (slice data st.pos chunk) := by
      rw [hmem, ← take_append_slice, ← overwrite_overwrite (by omega), hlen]
    simp only [← hchunk] at hstep
    split at hstep
    · cases hstep
    · split at hstep
      · cases hstep
        refine ⟨⟨?_, hnext.symm⟩, ?_⟩
        · change st.pos + chunk ≤ _
          omega
        · change _ - (st.pos + chunk) < _
          omega
      · next hsame =>
        cases hstep
        refine ⟨⟨?_, ?_⟩, ?_⟩
        · change st.pos + chunk ≤ _
          omega
        · change st.mem = overwrite mem offset (data.take (st.pos + chunk))
          rw [hnext, ← not_ne_iff.mp hsame, overwrite_slice (by omega)]
        · change _ - (st.pos + chunk) < _
          omega
  · split at hstep
    · cases hstep
    · cases hstep

/-- When the writer leaves, all bytes are in place, and only its `msync` can have failed. -/
theorem WriterInv.leave {syncs : Bool} {mem data : Bytes} {offset blockSize : ℕ}
    {st : WriterState} {r : Bytes × Outcome Text Unit}
    (hfit : offset + data.length ≤ mem.length) (hinv : WriterInv mem offset data st)
    (hstep : writerRound syncs offset data blockSize st = .inr r) :
  r.1 = overwrite mem offset data ∧
    ∀ fault, r.2 = .error fault → fault = .error "msync failed".toList ∧ syncs = false
  := by
  have hmem := hinv.mem_eq
  rw [writerRound] at hstep
  split at hstep
  · next hpos =>
    have hstlen : st.mem.length = mem.length := by
      rw [hmem]
      apply length_overwrite
      rw [List.length_take]
      omega
    simp only at hstep
    split at hstep
    · next hout => omega
    · split at hstep
      · cases hstep
      · cases hstep
  · next hpos =>
    rw [List.take_of_length_le (by omega)] at hmem
    split at hstep
    · next hfail =>
      cases hstep
      use hmem
      rintro fault ⟨⟩
      exact ⟨rfl, hfail.2⟩
    · cases hstep
      use hmem
      rintro fault ⟨⟩

/-- `writeIfDifferent` overwrites the memory, and fails only when its `msync` does. -/
theorem writeIfDifferent_spec (syncs : Bool) {mem data : Bytes} {offset blockSize : ℕ}
    (hfit : offset + data.length ≤ mem.length) (hblock : 0 < blockSize) :
  (writeIfDifferent syncs mem offset data blockSize).1 = overwrite mem offset data ∧
  ∀ fault, (writeIfDifferent syncs mem offset data blockSize).2 = .error fault →
    fault = .error "msync failed".toList ∧ syncs = false
  := by
  obtain ⟨r, hr, hpost⟩ : ∃ r,
      Loop.iterate (writerRound syncs offset data blockSize) (data.length + 1) ⟨mem, false, 0⟩ =
        some r ∧ (r.1 = overwrite mem offset data ∧
          ∀ fault, r.2 = .error fault → fault = .error "msync failed".toList ∧ syncs = false) := by
    apply Loop.iterate_total (WriterInv mem offset data) (fun st => data.length - st.pos)
    · intro st st' hinv
      apply hinv.round hfit hblock
    · intro st r hinv
      apply hinv.leave hfit
    · exact ⟨Nat.zero_le _, (overwrite_nil mem offset).symm⟩
    · apply Nat.lt_succ_self
  rw [writeIfDifferent, hr]
  exact hpost

/-! ### Partitions -/

theorem Device.getElem_sizes (dev : Device) {i : ℕ} (hi : i < 4) :
  dev.sizes[i] = dev.partitions[i].length
  := by
  simp [Device.sizes]

/-- The flat image is as long as the partitions together. -/
theorem Device.length_flat (dev : Device) : dev.flat.length = dev.sizes.sum := by
  rw [Device.flat, List.length_flatten, ← Vector.sum_toList, Device.sizes, Vector.toList_map]

/-- Where the partition `i` starts in the flat image. -/
def Device.start (dev : Device) (i : ℕ) : ℕ := (dev.partitions.toList.take i).flatten.length

theorem Device.start_succ (dev : Device) {i : ℕ} (hi : i < 4) :
  dev.start (i + 1) = dev.start i + dev.sizes[i]
  := by
  rw [Device.start, length_flatten_take_succ (by simpa using hi), dev.getElem_sizes hi]
  simp [Device.start]

theorem Device.start_four (dev : Device) : dev.start 4 = dev.sizes.sum := by
  rw [← dev.length_flat, Device.start, Device.flat, List.take_of_length_le (by simp)]

/-- The partitions start where they do because of their sizes. -/
theorem Device.start_congr {dev dev' : Device} (h : dev'.sizes = dev.sizes) (i : ℕ) :
  dev'.start i = dev.start i
  := by
  have hlen : dev'.partitions.toList.map List.length = dev.partitions.toList.map List.length := by
    rw [← Vector.toList_map, ← Vector.toList_map]
    exact congrArg Vector.toList h
  rw [Device.start, Device.start, List.length_flatten, List.length_flatten, List.map_take, hlen,
    List.map_take]

/-- A partition that is overwritten within overwrites the flat image. -/
theorem Device.store_overwrite (dev : Device) (i : Fin 4) {off : ℕ} {data : Bytes}
    (hfit : off + data.length ≤ dev.partitions[i].length) :
  (dev.store i (overwrite dev.partitions[i] off data)).sizes = dev.sizes ∧
  (dev.store i (overwrite dev.partitions[i] off data)).flat =
    overwrite dev.flat (dev.start i + off) data
  := by
  have hlen := length_overwrite hfit
  have hstore : dev.store i (overwrite dev.partitions[i] off data) =
      ⟨dev.partitions.set i (overwrite dev.partitions[i] off data)⟩ := by
    rw [store, overwrite_all hlen]
  rw [hstore]
  constructor
  · ext j hj
    rw [getElem_sizes _ hj, getElem_sizes _ hj, Vector.getElem_set]
    split
    · next hij =>
      subst hij
      exact hlen
    · rfl
  · have hi : (i : ℕ) < dev.partitions.toList.length := by simp
    have hget : dev.partitions.toList[(i : ℕ)] = dev.partitions[i] := by simp
    rw [flat, Vector.toList_set, flat, start, ← flatten_set_overwrite hi (by rw [hget]; exact hfit),
      hget]

/-- Every call the walks make is answered with success. -/
structure System.Answers (sys : System) : Prop where
  detects : ∀ i, sys.detects i = true
  stats : ∀ i, sys.stats i = true
  opens : ∀ i, sys.opens i = true
  maps : ∀ i, sys.maps i = true
  writerSyncs : ∀ i, sys.writerSyncs i = true
  syncs : ∀ i, sys.syncs i = true

/-- A call on the partition `i` fails with an error. -/
def System.FailsAt (sys : System) (i : Fin 4) (e : Text) : Prop :=
  e = "failed to open fd".toList ∧ sys.opens i = false ∨
  e = "mmap failed".toList ∧ sys.maps i = false ∨
  e = "msync failed".toList ∧ (sys.writerSyncs i = false ∨ sys.syncs i = false)

theorem System.Answers.not_failsAt {sys : System} (h : sys.Answers) {i : Fin 4} {e : Text} :
  ¬ sys.FailsAt i e
  := by
  simp [FailsAt, h.opens, h.maps, h.writerSyncs, h.syncs]

/-- The partition `i` holds a part of the range of `len` bytes from `offset` on. A range of no
bytes is a part of what ends or begins where it lies. -/
def Device.Holds (dev : Device) (i : Fin 4) (offset len : ℕ) : Prop :=
  dev.start i < offset + len ∧ offset < dev.start i + dev.sizes[i] ∨
  len = 0 ∧ dev.start i ≤ offset ∧ offset ≤ dev.start i + dev.sizes[i]

/-- A read or a write of a range fails only because a call on a partition that holds a part of the
range fails. -/
def Serves (sys : System) (dev : Device) (offset len : ℕ) (result : Outcome Text Unit) : Prop :=
  ∀ fault, result = .error fault →
    ∃ (i : Fin 4) (e : Text), fault = .error e ∧ dev.Holds i offset len ∧ sys.FailsAt i e

theorem serves_ok {sys : System} {dev : Device} {offset len : ℕ} :
  Serves sys dev offset len (.ok ())
  := nofun

theorem Serves.of_answers {sys : System} {dev : Device} {offset len : ℕ}
    {result : Outcome Text Unit} (h : Serves sys dev offset len result) (hsys : sys.Answers) :
  result = .ok ()
  := by
  cases result with
  | ok u => rfl
  | error fault =>
      obtain ⟨i, e, -, -, hfails⟩ := h fault rfl
      exact absurd hfails hsys.not_failsAt

/-- What is mapped of a partition is the partition. -/
theorem openMap_ok {sys : System} {dev : Device} {i : Fin 4} {len : ℕ} {mem : Bytes}
    (hlen : len = dev.partitions[i].length) (h : openMap sys dev i len = .ok mem) :
  mem = dev.partitions[i]
  := by
  rw [openMap] at h
  split at h
  · cases h
  · split at h
    · cases h
    · obtain rfl := Except.ok.inj h
      rw [hlen, slice_length_self]

theorem openMap_error {sys : System} {dev : Device} {i : Fin 4} {len : ℕ} {fault : Fault Text}
    (h : openMap sys dev i len = .error fault) :
  ∃ e, fault = .error e ∧ sys.FailsAt i e
  := by
  rw [openMap] at h
  split at h
  · next hopens =>
    cases h
    exact ⟨_, rfl, .inl ⟨rfl, hopens⟩⟩
  · split at h
    · next hmaps =>
      cases h
      exact ⟨_, rfl, .inr (.inl ⟨rfl, hmaps⟩)⟩
    · cases h

theorem flashBlockSize_pos : 0 < flashBlockSize := by decide

/-- A write to a partition that succeeds overwrites the flat image. -/
theorem writePartition_ok {sys : System} {dev dev' : Device} {i : Fin 4} {len off : ℕ}
    {data : Bytes} (hlen : len = dev.partitions[i].length) (hfit : off + data.length ≤ len)
    (h : writePartition sys dev i len off data = (dev', .ok ())) :
  dev'.sizes = dev.sizes ∧ dev'.flat = overwrite dev.flat (dev.start i + off) data
  := by
  cases hmap : openMap sys dev i len with
  | error fault =>
      rw [writePartition, hmap] at h
      cases h
  | ok mem =>
      obtain rfl := openMap_ok hlen hmap
      have hwrite := (writeIfDifferent_spec (sys.writerSyncs i) (hlen ▸ hfit) flashBlockSize_pos).1
      have hstore : (writePartition sys dev i len off data).1 =
          dev.store i (overwrite dev.partitions[i] off data) := by
        rw [writePartition, hmap, ← hwrite]
      rw [h] at hstore
      subst hstore
      apply dev.store_overwrite i (hlen ▸ hfit)

/-- A read of a partition that succeeds finds a span of the flat image. -/
theorem readPartition_ok {sys : System} {dev : Device} {i : Fin 4} {len off n : ℕ}
    {chunk : Bytes} (hlen : len = dev.partitions[i].length)
    (h : (openMap sys dev i len >>= fun mem => mmapRead mem off n) = .ok chunk) :
  chunk.length = n ∧ chunk = slice dev.flat (dev.start i + off) n
  := by
  obtain ⟨mem, hmap, hread⟩ := Except.bind_eq_ok_iff.mp h
  obtain rfl := openMap_ok hlen hmap
  rw [mmapRead] at hread
  split at hread
  · cases hread
  · next hroom =>
    have hlist : (i : ℕ) < dev.partitions.toList.length := by simp
    have hget : dev.partitions.toList[(i : ℕ)] = dev.partitions[i] := by simp
    rw [← Except.ok.inj hread]
    constructor
    · apply length_slice (Nat.not_lt.mp hroom)
    · rw [Device.flat, Device.start, slice_flatten hlist (by rw [hget]; exact Nat.not_lt.mp hroom),
        hget]

theorem writePartition_error {sys : System} {dev dev' : Device} {i : Fin 4} {len off : ℕ}
    {data : Bytes} {fault : Fault Text} (hlen : len = dev.partitions[i].length)
    (hfit : off + data.length ≤ len)
    (h : writePartition sys dev i len off data = (dev', .error fault)) :
  ∃ e, fault = .error e ∧ sys.FailsAt i e
  := by
  rw [writePartition] at h
  split at h
  · next hmap =>
    cases h
    apply openMap_error hmap
  · next mem hmap =>
    obtain rfl := openMap_ok hlen hmap
    obtain ⟨rfl, hsyncs⟩ := (writeIfDifferent_spec (sys.writerSyncs i) (hlen ▸ hfit)
      flashBlockSize_pos).2 fault (congrArg Prod.snd h)
    exact ⟨_, rfl, .inr (.inr ⟨rfl, .inl hsyncs⟩)⟩

theorem readPartition_error {sys : System} {dev : Device} {i : Fin 4} {len off n : ℕ}
    {fault : Fault Text} (hlen : len = dev.partitions[i].length) (hfit : off + n ≤ len)
    (h : (openMap sys dev i len >>= fun mem => mmapRead mem off n) = .error fault) :
  ∃ e, fault = .error e ∧ sys.FailsAt i e
  := by
  rcases Except.bind_eq_error_iff.mp h with h | ⟨mem, hmap, h⟩
  · apply openMap_error h
  · obtain rfl := openMap_ok hlen hmap
    rw [mmapRead, if_neg (by omega)] at h
    cases h

/-! ### The walk of a write -/

/-- The walk of a write has written the first `written` bytes, and stands `off` bytes behind
the start of partition `i`, which is where the next byte goes. -/
structure WriteInv (dev : Device) (offset : ℕ) (data : Bytes) (st : WriteState) : Prop where
  i_le : st.i ≤ 4
  written_le : st.written ≤ data.length
  more : data.length = 0 ∨ st.written < data.length
  position : dev.start st.i + st.off = offset + st.written
  sizes_eq : st.dev.sizes = dev.sizes
  flat_eq : st.dev.flat = overwrite dev.flat offset (data.take st.written)

/-- The write of a walk: the bytes that fit the partition. -/
theorem WriteInv.write {sys : System} {dev dev' : Device} {offset : ℕ} {data : Bytes}
    {st : WriteState} (hinv : WriteInv dev offset data st)
    (hfit : offset + data.length ≤ dev.sizes.sum) (hi : st.i < 4)
    (hoff : st.off < dev.sizes[st.i]) {n : ℕ}
    (hn : n = min (dev.sizes[st.i] - st.off) (data.length - st.written))
    (h : writePartition sys st.dev ⟨st.i, hi⟩ dev.sizes[st.i] st.off (slice data st.written n) =
      (dev', .ok ())) :
  dev'.sizes = dev.sizes ∧ dev'.flat = overwrite dev.flat offset (data.take (st.written + n))
  := by
  have hwritten := hinv.written_le
  have hslice : (slice data st.written n).length = n := length_slice (by omega)
  have hlen : dev.sizes[st.i] = st.dev.partitions[st.i].length := by
    rw [← st.dev.getElem_sizes hi]
    simp only [hinv.sizes_eq]
  have htake : (data.take st.written).length = st.written := List.length_take_of_le hwritten
  obtain ⟨hsizes, hflat⟩ := writePartition_ok hlen (by omega) h
  constructor
  · rw [hsizes, hinv.sizes_eq]
  · have hstart : st.dev.start st.i + st.off = offset + (data.take st.written).length := by
      rw [Device.start_congr hinv.sizes_eq, hinv.position, htake]
    have hle : offset ≤ dev.flat.length := by
      rw [dev.length_flat]
      omega
    rw [hflat, hstart, hinv.flat_eq, overwrite_overwrite hle, take_append_slice]

/-- A round of the walk keeps its invariant. -/
theorem WriteInv.round {sys : System} {dev : Device} {offset : ℕ} {data : Bytes}
    {st st' : WriteState} (hfit : offset + data.length ≤ dev.sizes.sum)
    (hinv : WriteInv dev offset data st)
    (hstep : writeRound sys dev.sizes data st = .inl st') :
  WriteInv dev offset data st' ∧ 4 - st'.i < 4 - st.i
  := by
  have hposition := hinv.position
  have hwritten := hinv.written_le
  rw [writeRound] at hstep
  split at hstep
  · next hi =>
    have hstart := dev.start_succ hi
    split at hstep
    · next hoff =>
      -- the partition ends before the span starts, or is empty
      cases hstep
      refine ⟨⟨Nat.succ_le_of_lt hi, hwritten, hinv.more, ?_, hinv.sizes_eq, hinv.flat_eq⟩, ?_⟩
      · change dev.start (st.i + 1) + (st.off - dev.sizes[st.i]) = offset + st.written
        omega
      · change 4 - (st.i + 1) < 4 - st.i
        omega
    · next hoff =>
      obtain ⟨n, hn⟩ : ∃ n, n = min (dev.sizes[st.i] - st.off) (data.length - st.written) :=
        ⟨_, rfl⟩
      simp only [← hn] at hstep
      split at hstep
      · cases hstep
      · next dev' hwrite =>
        split at hstep
        · cases hstep
        · split at hstep
          · cases hstep
          · next hmore =>
            -- there is more to write, so the partition was filled to its end
            obtain ⟨hsizes, hflat⟩ := hinv.write hfit hi (by omega) hn hwrite
            cases hstep
            refine ⟨⟨Nat.succ_le_of_lt hi, ?_, .inr (Nat.not_le.mp hmore), ?_, hsizes, hflat⟩, ?_⟩
            · change st.written + n ≤ data.length
              omega
            · change dev.start (st.i + 1) + 0 = offset + (st.written + n)
              omega
            · change 4 - (st.i + 1) < 4 - st.i
              omega
  · cases hstep

/-- The partition that a walk writes to holds a part of the range. -/
theorem WriteInv.holds {dev : Device} {offset : ℕ} {data : Bytes} {st : WriteState}
    (hinv : WriteInv dev offset data st) (hi : st.i < 4) (hoff : st.off < dev.sizes[st.i]) :
  dev.Holds ⟨st.i, hi⟩ offset data.length
  := by
  have hposition := hinv.position
  have hwritten := hinv.written_le
  have hmore := hinv.more
  change dev.start st.i < offset + data.length ∧ offset < dev.start st.i + dev.sizes[st.i] ∨
    data.length = 0 ∧ dev.start st.i ≤ offset ∧ offset ≤ dev.start st.i + dev.sizes[st.i]
  omega

/-- A walk that leaves without an error has written everything, and one that leaves with an error
does so at a partition that holds a part of the range. -/
theorem WriteInv.leave {sys : System} {dev : Device} {offset : ℕ} {data : Bytes}
    {st : WriteState} {r : Device × Outcome Text Unit}
    (hfit : offset + data.length ≤ dev.sizes.sum) (hinv : WriteInv dev offset data st)
    (hstep : writeRound sys dev.sizes data st = .inr r) :
  (r.2 = .ok () → r.1.sizes = dev.sizes ∧ r.1.flat = overwrite dev.flat offset data) ∧
  Serves sys dev offset data.length r.2
  := by
  have hposition := hinv.position
  have hwritten := hinv.written_le
  rw [writeRound] at hstep
  split at hstep
  · next hi =>
    split at hstep
    · cases hstep
    · next hoff =>
      obtain ⟨n, hn⟩ : ∃ n, n = min (dev.sizes[st.i] - st.off) (data.length - st.written) :=
        ⟨_, rfl⟩
      simp only [← hn] at hstep
      split at hstep
      · next dev' fault hwrite =>
        cases hstep
        refine ⟨nofun, ?_⟩
        rintro fault ⟨⟩
        have hslice : (slice data st.written n).length = n := length_slice (by omega)
        have hlen : dev.sizes[st.i] = st.dev.partitions[st.i].length := by
          rw [← st.dev.getElem_sizes hi]
          simp only [hinv.sizes_eq]
        obtain ⟨e, he, hfails⟩ := writePartition_error hlen (by omega) hwrite
        exact ⟨_, e, he, hinv.holds hi (by omega), hfails⟩
      · next dev' hwrite =>
        split at hstep
        · next hsync =>
          cases hstep
          refine ⟨nofun, ?_⟩
          rintro fault ⟨⟩
          exact ⟨_, _, rfl, hinv.holds hi (by omega), .inr (.inr ⟨rfl, .inr hsync⟩)⟩
        · split at hstep
          · next hdone =>
            obtain ⟨hsizes, hflat⟩ := hinv.write hfit hi (by omega) hn hwrite
            rw [List.take_of_length_le hdone] at hflat
            cases hstep
            exact ⟨fun _ => ⟨hsizes, hflat⟩, serves_ok⟩
          · cases hstep
  · next hi =>
    -- behind the last partition there is no room left, so nothing is left to write
    have hlast : st.i = 4 := Nat.le_antisymm hinv.i_le (by omega)
    rw [hlast, dev.start_four] at hposition
    have hflat := hinv.flat_eq
    rw [List.take_of_length_le (by omega)] at hflat
    cases hstep
    exact ⟨fun _ => ⟨hinv.sizes_eq, hflat⟩, serves_ok⟩

/-- The walk of a write ends. It overwrites the flat image unless a call on a partition that holds
a part of the range fails. -/
theorem writeWalk_ends (sys : System) {dev : Device} {offset : ℕ} {data : Bytes}
    (hfit : offset + data.length ≤ dev.sizes.sum) :
  ∃ r, Loop.iterate (writeRound sys dev.sizes data) 5 ⟨dev, 0, offset, 0⟩ = some r ∧
    (r.2 = .ok () → r.1.sizes = dev.sizes ∧ r.1.flat = overwrite dev.flat offset data) ∧
    Serves sys dev offset data.length r.2
  := by
  apply Loop.iterate_total (WriteInv dev offset data) (fun st => 4 - st.i)
  · intro st st' hinv
    apply hinv.round hfit
  · intro st r hinv
    apply hinv.leave hfit
  · exact ⟨Nat.zero_le _, Nat.zero_le _, Nat.eq_zero_or_pos _, by simp [Device.start], rfl, by simp⟩
  · apply Nat.lt_succ_self

/-- The walks start when every partition is online. -/
theorem walkSizes_ok {sys : System} {dev : Device} {sizes : Vector ℕ 4}
    (h : walkSizes sys dev = .ok sizes) :
  sizes = dev.sizes
  := by
  rw [walkSizes] at h
  split at h
  · exact (Except.ok.inj h).symm
  · cases h

theorem walkSizes_online {sys : System} (h : ∀ i : Fin 4, sys.stats i) (dev : Device) :
  walkSizes sys dev = .ok dev.sizes
  := if_pos h

theorem walkSizes_offline {sys : System} (h : ¬ ∀ i : Fin 4, sys.stats i) (dev : Device) :
  walkSizes sys dev = .fail "legacy partition is offline".toList
  := if_neg h

theorem writeWalk_ok {sys : System} {dev dev' : Device} {offset : ℕ} {data : Bytes}
    (h : writeWalk sys dev offset data = (dev', .ok ())) :
  dev'.sizes = dev.sizes ∧ dev'.flat = overwrite dev.flat offset data
  := by
  rw [writeWalk] at h
  split at h
  · cases h
  · next sizes hsizes =>
    obtain rfl := walkSizes_ok hsizes
    split at h
    · cases h
    · next hfit =>
      obtain ⟨r, hr, hpost, -⟩ := writeWalk_ends sys (Nat.not_lt.mp hfit)
      rw [hr] at h
      change r = (dev', .ok ()) at h
      subst h
      exact hpost rfl

theorem writeWalk_serves {sys : System} (h : ∀ i : Fin 4, sys.stats i) {dev : Device} {offset : ℕ}
    {data : Bytes} (hfit : offset + data.length ≤ dev.sizes.sum) :
  Serves sys dev offset data.length (writeWalk sys dev offset data).2
  := by
  obtain ⟨r, hr, -, hpost⟩ := writeWalk_ends sys hfit
  rw [writeWalk, walkSizes_online h]
  simp only [if_neg (Nat.not_lt.mpr hfit), hr]
  exact hpost

/-! ### The walk of a read -/

/-- The walk of a read has the first `readTotal` bytes of the span, and stands `off` bytes
behind the start of partition `i`, which is where the next byte is. -/
structure ReadInv (dev : Device) (offset : ℕ) (data : Bytes) (st : ReadState) : Prop where
  i_le : st.i ≤ 4
  readTotal_le : st.readTotal ≤ data.length
  more : data.length = 0 ∨ st.readTotal < data.length
  position : dev.start st.i + st.off = offset + st.readTotal
  length_eq : st.data.length = data.length
  taken : st.data.take st.readTotal = slice dev.flat offset st.readTotal

/-- The read of a walk: the bytes that the partition has. -/
theorem ReadInv.read {sys : System} {dev : Device} {offset : ℕ} {data : Bytes}
    {st : ReadState} {chunk : Bytes} (hinv : ReadInv dev offset data st) (hi : st.i < 4) {n : ℕ}
    (hdata : st.readTotal + n ≤ data.length)
    (h : (openMap sys dev ⟨st.i, hi⟩ dev.sizes[st.i] >>= fun mem => mmapRead mem st.off n) =
      .ok chunk) :
  (overwrite st.data st.readTotal chunk).length = data.length ∧
  (overwrite st.data st.readTotal chunk).take (st.readTotal + n) =
    slice dev.flat offset (st.readTotal + n)
  := by
  have hlength := hinv.length_eq
  obtain ⟨hlen, hchunk⟩ := readPartition_ok (dev.getElem_sizes hi) h
  constructor
  · rw [length_overwrite (by omega), hlength]
  · have htake : (overwrite st.data st.readTotal chunk).take (st.readTotal + chunk.length) =
        st.data.take st.readTotal ++ chunk := take_overwrite chunk (by omega)
    rw [hlen] at htake
    rw [htake, hinv.taken, slice_add, ← hinv.position, ← hchunk]

/-- A round of the walk keeps its invariant. -/
theorem ReadInv.round {sys : System} {dev : Device} {offset : ℕ} {data : Bytes}
    {st st' : ReadState} (hinv : ReadInv dev offset data st)
    (hstep : readRound sys dev dev.sizes st = .inl st') :
  ReadInv dev offset data st' ∧ 4 - st'.i < 4 - st.i
  := by
  have hposition := hinv.position
  have hread := hinv.readTotal_le
  have hlength := hinv.length_eq
  rw [readRound] at hstep
  split at hstep
  · next hi =>
    have hstart := dev.start_succ hi
    split at hstep
    · next hoff =>
      cases hstep
      refine ⟨⟨Nat.succ_le_of_lt hi, hread, hinv.more, ?_, hlength, hinv.taken⟩, ?_⟩
      · change dev.start (st.i + 1) + (st.off - dev.sizes[st.i]) = offset + st.readTotal
        omega
      · change 4 - (st.i + 1) < 4 - st.i
        omega
    · next hoff =>
      obtain ⟨n, hn⟩ : ∃ n, n = min (dev.sizes[st.i] - st.off) (st.data.length - st.readTotal) :=
        ⟨_, rfl⟩
      simp only [← hn] at hstep
      split at hstep
      · cases hstep
      · next chunk hchunk =>
        obtain ⟨hlen, htaken⟩ := hinv.read hi (by omega) hchunk
        split at hstep
        · cases hstep
        · next hmore =>
          -- there is more to read, so the partition was read to its end
          cases hstep
          refine ⟨⟨Nat.succ_le_of_lt hi, ?_, .inr ?_, ?_, hlen, htaken⟩, ?_⟩
          · change st.readTotal + n ≤ data.length
            omega
          · change st.readTotal + n < data.length
            omega
          · change dev.start (st.i + 1) + 0 = offset + (st.readTotal + n)
            omega
          · change 4 - (st.i + 1) < 4 - st.i
            omega
  · cases hstep

/-- The partition that a walk reads from holds a part of the range. -/
theorem ReadInv.holds {dev : Device} {offset : ℕ} {data : Bytes} {st : ReadState}
    (hinv : ReadInv dev offset data st) (hi : st.i < 4) (hoff : st.off < dev.sizes[st.i]) :
  dev.Holds ⟨st.i, hi⟩ offset data.length
  := by
  have hposition := hinv.position
  have hread := hinv.readTotal_le
  have hmore := hinv.more
  change dev.start st.i < offset + data.length ∧ offset < dev.start st.i + dev.sizes[st.i] ∨
    data.length = 0 ∧ dev.start st.i ≤ offset ∧ offset ≤ dev.start st.i + dev.sizes[st.i]
  omega

/-- A walk that leaves without an error has read everything, and one that leaves with an error does
so at a partition that holds a part of the range. -/
theorem ReadInv.leave {sys : System} {dev : Device} {offset : ℕ} {data : Bytes}
    {st : ReadState} {r : Bytes × Outcome Text Unit}
    (hfit : offset + data.length ≤ dev.sizes.sum) (hinv : ReadInv dev offset data st)
    (hstep : readRound sys dev dev.sizes st = .inr r) :
  (r.2 = .ok () → r.1 = slice dev.flat offset data.length) ∧ Serves sys dev offset data.length r.2
  := by
  have hposition := hinv.position
  have hread := hinv.readTotal_le
  have hlength := hinv.length_eq
  rw [readRound] at hstep
  split at hstep
  · next hi =>
    split at hstep
    · cases hstep
    · next hoff =>
      obtain ⟨n, hn⟩ : ∃ n, n = min (dev.sizes[st.i] - st.off) (st.data.length - st.readTotal) :=
        ⟨_, rfl⟩
      simp only [← hn] at hstep
      split at hstep
      · next fault hfault =>
        cases hstep
        refine ⟨nofun, ?_⟩
        rintro fault ⟨⟩
        obtain ⟨e, he, hfails⟩ := readPartition_error (dev.getElem_sizes hi) (by omega) hfault
        exact ⟨_, e, he, hinv.holds hi (by omega), hfails⟩
      · next chunk hchunk =>
        obtain ⟨hlen, htaken⟩ := hinv.read hi (by omega) hchunk
        split at hstep
        · next hdone =>
          rw [List.take_of_length_le hdone] at htaken
          cases hstep
          refine ⟨fun _ => ?_, serves_ok⟩
          change overwrite st.data st.readTotal chunk = _
          rw [htaken]
          congr 1
          omega
        · cases hstep
  · next hi =>
    have hlast : st.i = 4 := Nat.le_antisymm hinv.i_le (by omega)
    rw [hlast, dev.start_four] at hposition
    have htaken := hinv.taken
    have hall : st.readTotal = data.length := by omega
    rw [List.take_of_length_le (by omega), hall] at htaken
    cases hstep
    exact ⟨fun _ => htaken, serves_ok⟩

/-- The walk of a read ends. It finds the span of the flat image unless a call on a partition that
holds a part of the range fails. -/
theorem readWalk_ends (sys : System) {dev : Device} {offset : ℕ} {data : Bytes}
    (hfit : offset + data.length ≤ dev.sizes.sum) :
  ∃ r, Loop.iterate (readRound sys dev dev.sizes) 5 ⟨data, 0, offset, 0⟩ = some r ∧
    (r.2 = .ok () → r.1 = slice dev.flat offset data.length) ∧
    Serves sys dev offset data.length r.2
  := by
  apply Loop.iterate_total (ReadInv dev offset data) (fun st => 4 - st.i)
  · intro st st' hinv
    apply hinv.round
  · intro st r hinv
    apply hinv.leave hfit
  · exact ⟨Nat.zero_le _, Nat.zero_le _, Nat.eq_zero_or_pos _, by simp [Device.start], rfl, by simp⟩
  · apply Nat.lt_succ_self

theorem readWalk_ok {sys : System} {dev : Device} {offset : ℕ} {data data' : Bytes}
    (h : readWalk sys dev offset data = (data', .ok ())) :
  data' = slice dev.flat offset data.length
  := by
  rw [readWalk] at h
  split at h
  · cases h
  · next sizes hsizes =>
    obtain rfl := walkSizes_ok hsizes
    split at h
    · cases h
    · next hfit =>
      obtain ⟨r, hr, hpost, -⟩ := readWalk_ends sys (Nat.not_lt.mp hfit)
      rw [hr] at h
      change r = (data', .ok ()) at h
      subst h
      exact hpost rfl

theorem readWalk_serves {sys : System} (h : ∀ i : Fin 4, sys.stats i) {dev : Device} {offset : ℕ}
    {data : Bytes} (hfit : offset + data.length ≤ dev.sizes.sum) :
  Serves sys dev offset data.length (readWalk sys dev offset data).2
  := by
  obtain ⟨r, hr, -, hpost⟩ := readWalk_ends sys hfit
  rw [readWalk, walkSizes_online h]
  simp only [if_neg (Nat.not_lt.mpr hfit), hr]
  exact hpost

/-! ### One flat image -/

/-- The flash is modern only when its first partition is all of it. -/
theorem layout_modern {sys : System} {dev : Device} (h : layout sys dev = .modern) :
  flashSize = dev.partitions[(0 : Fin 4)].length
  := by
  rw [layout] at h
  split at h
  · cases h
  · split at h
    · next hsize =>
      rw [Vector.getElem_ofFn] at hsize
      split at hsize
      · exact hsize.symm
      · cases hsize
    · split at h
      · split at h
        · cases h
        · cases h
      · cases h

theorem sum_four (sizes : Vector ℕ 4) :
  sizes.sum = sizes[0] + sizes[1] + sizes[2] + sizes[3]
  := by
  have hlist : sizes.toList = [sizes[0], sizes[1], sizes[2], sizes[3]] := by
    apply List.ext_getElem
    · simp
    · intro i hi hi'
      rw [Vector.getElem_toList]
      match i, hi' with
      | 0, _ => rfl
      | 1, _ => rfl
      | 2, _ => rfl
      | 3, _ => rfl
  rw [← Vector.sum_toList, hlist]
  simp only [List.sum_cons, List.sum_nil]
  omega

/-- The flash is legacy only when its partitions hold all of it. -/
theorem layout_legacy {sys : System} {dev : Device}
    (h : layout sys dev = .legacy ∨ layout sys dev = .legacyUltraNor) :
  flashSize ≤ dev.sizes.sum
  := by
  obtain ⟨sizes, hsizes⟩ : ∃ sizes, sizes = Vector.ofFn fun i : Fin 4 =>
    if sys.detects i then dev.partitions[i].length else 0 := ⟨_, rfl⟩
  have hle {i : ℕ} (hi : i < 4) : sizes[i] ≤ dev.sizes[i] := by
    rw [hsizes, Vector.getElem_ofFn, dev.getElem_sizes hi]
    split
    · exact Nat.le_refl _
    · exact Nat.zero_le _
  have hsum : sizes.sum = flashSize := by
    rw [layout, ← hsizes] at h
    split at h
    · rcases h with h | h <;> cases h
    · split at h
      · rcases h with h | h <;> cases h
      · split at h
        · next hsum => exact hsum.1
        · rcases h with h | h <;> cases h
  have h0 := @hle 0 (by decide)
  have h1 := @hle 1 (by decide)
  have h2 := @hle 2 (by decide)
  have h3 := @hle 3 (by decide)
  rw [← hsum, sum_four, sum_four]
  omega

/-- The first partition of a modern flash holds every range. -/
theorem holds_modern {dev : Device} {offset len : ℕ}
    (hsize : flashSize = dev.partitions[(0 : Fin 4)].length) (hfit : offset + len ≤ flashSize) :
  dev.Holds 0 offset len
  := by
  have hsizes : dev.sizes[0] = flashSize := (dev.getElem_sizes (by decide)).trans hsize.symm
  have hstart : dev.start 0 = 0 := rfl
  have hpos : 0 < flashSize := by decide
  change dev.start 0 < offset + len ∧ offset < dev.start 0 + dev.sizes[0] ∨
    len = 0 ∧ dev.start 0 ≤ offset ∧ offset ≤ dev.start 0 + dev.sizes[0]
  omega

theorem writeModern_serves {sys : System} {dev : Device} (h : layout sys dev = .modern) {offset : ℕ}
    {data : Bytes} (hfit : offset + data.length ≤ flashSize) :
  Serves sys dev offset data.length (writePartition sys dev 0 flashSize offset data).2
  := by
  intro fault hfault
  obtain ⟨e, he, hfails⟩ := writePartition_error (layout_modern h) hfit (Prod.ext rfl hfault)
  exact ⟨0, e, he, holds_modern (layout_modern h) hfit, hfails⟩

/-- A write that succeeds overwrites the flat image. -/
theorem write_ok {sys : System} {dev dev' : Device} {offset : ℕ} {data : Bytes}
    (h : write sys dev offset data = (dev', .ok ())) :
  dev'.sizes = dev.sizes ∧ dev'.flat = overwrite dev.flat offset data
  := by
  rw [write] at h
  split at h
  · cases h
  · next hfit =>
    split at h
    · next hlayout =>
      have hwrite := writePartition_ok (layout_modern hlayout) (Nat.not_lt.mp hfit) h
      simpa [Device.start] using hwrite
    · apply writeWalk_ok h
    · apply writeWalk_ok h
    · cases h
    · cases h

/-- A read that succeeds finds a span of the flat image. -/
theorem read_ok {sys : System} {dev : Device} {offset : ℕ} {data data' : Bytes}
    (h : read sys dev offset data = (data', .ok ())) :
  data' = slice dev.flat offset data.length
  := by
  rw [read] at h
  split at h
  · cases h
  · next hfit =>
    split at h
    · next hlayout =>
      split at h
      · cases h
      · next chunk hchunk =>
        obtain ⟨-, hspan⟩ := readPartition_ok (layout_modern hlayout) hchunk
        obtain ⟨rfl, -⟩ := Prod.mk.inj h
        simpa [Device.start] using hspan
    · apply readWalk_ok h
    · apply readWalk_ok h
    · cases h
    · cases h

/-! ### Flashable layouts -/

/-- The layouts that are reported as flashable. -/
def FlashLayout.Flashable (layout : FlashLayout) : Prop :=
  layout = .modern ∨ layout = .legacy ∨ layout = .legacyUltraNor

/-- A write to a flash that is one partition, or all of whose partitions are online, is served. -/
theorem write_serves {sys : System} {dev : Device} (hflash : (layout sys dev).Flashable)
    (honline : layout sys dev = .modern ∨ ∀ i : Fin 4, sys.stats i) {offset : ℕ} {data : Bytes}
    (hfit : offset + data.length ≤ flashSize) :
  Serves sys dev offset data.length (write sys dev offset data).2
  := by
  rw [write, if_neg (Nat.not_lt.mpr hfit)]
  rcases hflash with hmodern | hlegacy
  · have hserves := writeModern_serves hmodern hfit
    rwa [hmodern]
  · have hsum := layout_legacy hlegacy
    rcases hlegacy with hlayout | hlayout
    · rw [hlayout] at honline ⊢
      apply writeWalk_serves (honline.resolve_left nofun) (Nat.le_trans hfit hsum)
    · rw [hlayout] at honline ⊢
      apply writeWalk_serves (honline.resolve_left nofun) (Nat.le_trans hfit hsum)

/-- A read of such a flash is served. -/
theorem read_serves {sys : System} {dev : Device} (hflash : (layout sys dev).Flashable)
    (honline : layout sys dev = .modern ∨ ∀ i : Fin 4, sys.stats i) {offset : ℕ} {data : Bytes}
    (hfit : offset + data.length ≤ flashSize) :
  Serves sys dev offset data.length (read sys dev offset data).2
  := by
  rw [read, if_neg (Nat.not_lt.mpr hfit)]
  rcases hflash with hmodern | hlegacy
  · rw [hmodern]
    simp only
    split
    · next hread =>
      rintro fault ⟨⟩
      obtain ⟨e, he, hfails⟩ := readPartition_error (layout_modern hmodern) hfit hread
      exact ⟨0, e, he, holds_modern (layout_modern hmodern) hfit, hfails⟩
    · exact serves_ok
  · have hsum := layout_legacy hlegacy
    rcases hlegacy with hlayout | hlayout
    · rw [hlayout] at honline ⊢
      apply readWalk_serves (honline.resolve_left nofun) (Nat.le_trans hfit hsum)
    · rw [hlayout] at honline ⊢
      apply readWalk_serves (honline.resolve_left nofun) (Nat.le_trans hfit hsum)

/-- A layout that is reported as flashable can be served exactly when it is modern or all four
partitions are online: the walks of a legacy flash need the size of a fourth partition that the
layout does without. -/
theorem serves_iff {sys : System} {dev : Device} (hflash : (layout sys dev).Flashable) {offset : ℕ}
    {data : Bytes} (hfit : offset + data.length ≤ flashSize) :
  Serves sys dev offset data.length (write sys dev offset data).2 ∧
      Serves sys dev offset data.length (read sys dev offset data).2 ↔
    layout sys dev = .modern ∨ ∀ i : Fin 4, sys.stats i
  := by
  constructor
  · rintro ⟨hwrite, -⟩
    by_contra hno
    rw [not_or] at hno
    obtain ⟨hmodern, hoffline⟩ := hno
    have hfail : (write sys dev offset data).2 = .fail "legacy partition is offline".toList := by
      rw [write, if_neg (Nat.not_lt.mpr hfit)]
      rcases hflash.resolve_left hmodern with hlayout | hlayout
      · rw [hlayout]
        simp only [writeWalk, walkSizes_offline hoffline]
        rfl
      · rw [hlayout]
        simp only [writeWalk, walkSizes_offline hoffline]
        rfl
    obtain ⟨i, e, he, -, hfails⟩ := hwrite _ hfail
    cases he
    rcases hfails with ⟨htext, -⟩ | ⟨htext, -⟩ | ⟨htext, -⟩
    · revert htext
      decide
    · revert htext
      decide
    · revert htext
      decide
  · intro honline
    exact ⟨write_serves hflash honline hfit, read_serves hflash honline hfit⟩

/-- A read into a buffer, or a write. -/
inductive Op where
  | read (offset : ℕ) (data : Bytes)
  | write (offset : ℕ) (data : Bytes)

/-- What an operation does to one flat image, and the bytes it is answered with. -/
def Op.onImage (image : Bytes) : Op → Bytes × Bytes
  | .read offset data => (image, slice image offset data.length)
  | .write offset data => (overwrite image offset data, [])

/-- A sequence of operations on one flat image. -/
def runImage : List Op → Bytes → Bytes × List Bytes
  | [], image => (image, [])
  | op :: ops, image =>
    let (image, answer) := op.onImage image
    let (image, answers) := runImage ops image
    (image, answer :: answers)

/-- What an operation does to a device. -/
def Op.onDevice (sys : System) (dev : Device) : Op → Outcome Text (Device × Bytes)
  | .read offset data =>
    let (data, result) := Flash.read sys dev offset data
    result.map fun _ => (dev, data)
  | .write offset data =>
    let (dev, result) := Flash.write sys dev offset data
    result.map fun _ => (dev, [])

/-- A sequence of operations on a device, each with what the system answers to it, up to the
first that fails. -/
def runDevice : List (System × Op) → Device → Outcome Text (Device × List Bytes)
  | [], dev => .ok (dev, [])
  | (sys, op) :: ops, dev => do
    let (dev, answer) ← op.onDevice sys dev
    let (dev, answers) ← runDevice ops dev
    return (dev, answer :: answers)

/-- An operation that succeeds on a device does to its flat image what it does to one. -/
theorem Op.onDevice_ok {sys : System} {dev dev' : Device} {op : Op} {answer : Bytes}
    (h : op.onDevice sys dev = .ok (dev', answer)) :
  dev'.sizes = dev.sizes ∧ (dev'.flat, answer) = op.onImage dev.flat
  := by
  cases op with
  | read offset data =>
      rw [onDevice] at h
      obtain ⟨u, hu, hpair⟩ := Except.map_eq_ok_iff.mp h
      obtain ⟨rfl, rfl⟩ := Prod.mk.inj hpair
      have hread : Flash.read sys dev offset data =
          ((Flash.read sys dev offset data).1, .ok ()) := Prod.ext rfl hu
      exact ⟨rfl, congrArg (Prod.mk dev.flat) (read_ok hread)⟩
  | write offset data =>
      rw [onDevice] at h
      obtain ⟨u, hu, hpair⟩ := Except.map_eq_ok_iff.mp h
      obtain ⟨rfl, rfl⟩ := Prod.mk.inj hpair
      have hwrite : Flash.write sys dev offset data =
          ((Flash.write sys dev offset data).1, .ok ()) := Prod.ext rfl hu
      obtain ⟨hsizes, hflat⟩ := write_ok hwrite
      exact ⟨hsizes, congrArg (fun image => (image, [])) hflat⟩

/-- A run that succeeds on a device does to its flat image what it does to one. -/
theorem runDevice_ok {ops : List (System × Op)} {dev dev' : Device} {answers : List Bytes}
    (h : runDevice ops dev = .ok (dev', answers)) :
  dev'.sizes = dev.sizes ∧ (dev'.flat, answers) = runImage (ops.map Prod.snd) dev.flat
  := by
  induction ops generalizing dev answers with
  | nil =>
      cases h
      exact ⟨rfl, rfl⟩
  | cons op ops ih =>
      rw [runDevice] at h
      obtain ⟨⟨dev₁, answer⟩, hop, h⟩ := Except.bind_eq_ok_iff.mp h
      obtain ⟨⟨dev₂, answers₂⟩, hops, h⟩ := Except.bind_eq_ok_iff.mp h
      cases h
      obtain ⟨hsizes, himage⟩ := Op.onDevice_ok hop
      obtain ⟨hsizes', himage'⟩ := ih hops
      constructor
      · rw [hsizes', hsizes]
      · rw [List.map_cons, runImage, ← himage]
        simp only
        rw [← himage']

/-- A device whose flash is one partition, or at least three that sum to it. -/
def Device.Supported (dev : Device) : Prop :=
  dev.sizes[0] = flashSize ∨
  dev.sizes.sum = flashSize ∧ 0 < dev.sizes[0] ∧ 0 < dev.sizes[1] ∧ 0 < dev.sizes[2]

/-- Where every call is answered, a supported device can be flashed. -/
theorem flashable_of_answers {sys : System} (hsys : sys.Answers) (hultra : sys.isUltra = false)
    {dev : Device} (hdev : dev.Supported) :
  (layout sys dev).Flashable
  := by
  have hsizes : (Vector.ofFn fun i : Fin 4 =>
      if sys.detects i then dev.partitions[i].length else 0) = dev.sizes := by
    ext i hi
    rw [Vector.getElem_ofFn, hsys.detects, if_pos rfl, dev.getElem_sizes hi]
    rfl
  rw [layout, hsizes, hultra]
  by_cases hmodern : dev.sizes[0] = flashSize
  · left
    simp [hmodern]
  · obtain hsum := hdev.resolve_left hmodern
    right
    left
    simp [hmodern, hsum]

theorem write_of_answers {sys : System} (hsys : sys.Answers) (hultra : sys.isUltra = false)
    {dev : Device} (hdev : dev.Supported) {offset : ℕ} {data : Bytes}
    (hfit : offset + data.length ≤ flashSize) :
  (write sys dev offset data).2 = .ok ()
  := by
  have hserves := write_serves (flashable_of_answers hsys hultra hdev) (.inr fun i => hsys.stats i)
    hfit
  apply hserves.of_answers hsys

theorem read_of_answers {sys : System} (hsys : sys.Answers) (hultra : sys.isUltra = false)
    {dev : Device} (hdev : dev.Supported) {offset : ℕ} {data : Bytes}
    (hfit : offset + data.length ≤ flashSize) :
  (read sys dev offset data).2 = .ok ()
  := by
  have hserves := read_serves (flashable_of_answers hsys hultra hdev) (.inr fun i => hsys.stats i)
    hfit
  apply hserves.of_answers hsys

/-- The span an operation touches lies in the flash. -/
def Op.Fits : Op → Prop
  | .read offset data => offset + data.length ≤ flashSize
  | .write offset data => offset + data.length ≤ flashSize

/-- Where every call is answered, operations that fit a supported device succeed. -/
theorem runDevice_of_answers {ops : List (System × Op)} {dev : Device} (hdev : dev.Supported)
    (hops : ∀ op ∈ ops, op.1.Answers ∧ op.1.isUltra = false ∧ op.2.Fits) :
  ∃ dev' answers, runDevice ops dev = .ok (dev', answers)
  := by
  induction ops generalizing dev with
  | nil => exact ⟨dev, [], rfl⟩
  | cons op ops ih =>
      obtain ⟨sys, op⟩ := op
      obtain ⟨hsys, hultra, hfit⟩ := hops (sys, op) List.mem_cons_self
      obtain ⟨dev₁, answer, hop⟩ : ∃ dev₁ answer, op.onDevice sys dev = .ok (dev₁, answer) := by
        cases op with
        | read offset data =>
            have hread : (read sys dev offset data).2 = .ok () :=
              read_of_answers hsys hultra hdev hfit
            use dev, (read sys dev offset data).1
            rw [Op.onDevice]
            simp only [hread]
            rfl
        | write offset data =>
            have hwrite : (write sys dev offset data).2 = .ok () :=
              write_of_answers hsys hultra hdev hfit
            use (write sys dev offset data).1, []
            rw [Op.onDevice]
            simp only [hwrite]
            rfl
      have hdev₁ : dev₁.Supported := by
        rw [Device.Supported, (Op.onDevice_ok hop).1]
        exact hdev
      obtain ⟨dev₂, answers, hrest⟩ := ih hdev₁ fun op hop =>
        hops op (List.mem_cons_of_mem _ hop)
      use dev₂, answer :: answers
      rw [runDevice, hop, Except.ok_bind]
      simp only [hrest]
      rfl

/-- The flash behaves as one flat image: a write that succeeds replaces a span of it, a read
that succeeds finds a span of it, and two devices with the same flat image answer the same
operations with the same bytes and have the same flat image afterwards, whatever their
partitions are. -/
theorem device_isImage :
  (∀ (sys : System) (dev dev' : Device) (offset : ℕ) (data : Bytes),
    write sys dev offset data = (dev', .ok ()) →
      dev'.sizes = dev.sizes ∧ dev'.flat = overwrite dev.flat offset data) ∧
  (∀ (sys : System) (dev : Device) (offset : ℕ) (data data' : Bytes),
    read sys dev offset data = (data', .ok ()) →
      data' = slice dev.flat offset data.length) ∧
  (∀ (dev₁ dev₂ dev₁' dev₂' : Device) (ops₁ ops₂ : List (System × Op))
      (answers₁ answers₂ : List Bytes),
    dev₁.flat = dev₂.flat → ops₁.map Prod.snd = ops₂.map Prod.snd →
    runDevice ops₁ dev₁ = .ok (dev₁', answers₁) → runDevice ops₂ dev₂ = .ok (dev₂', answers₂) →
      dev₁'.flat = dev₂'.flat ∧ answers₁ = answers₂)
  := by
  refine ⟨?_, ?_, ?_⟩
  · intro sys dev dev' offset data
    apply write_ok
  · intro sys dev offset data data'
    apply read_ok
  · intro dev₁ dev₂ dev₁' dev₂' ops₁ ops₂ answers₁ answers₂ hflat hops hrun₁ hrun₂
    have himage₁ := (runDevice_ok hrun₁).2
    have himage₂ := (runDevice_ok hrun₂).2
    rw [← hflat, ← hops, ← himage₁] at himage₂
    obtain ⟨himage, hanswers⟩ := Prod.mk.inj himage₂
    exact ⟨himage.symm, hanswers.symm⟩

/-- A system that answers every call. -/
def calm : System := ⟨false, fun _ => true, fun _ => true, fun _ => true, fun _ => true,
  fun _ => true, fun _ => true⟩

theorem calm_answers : calm.Answers :=
  ⟨fun _ => rfl, fun _ => rfl, fun _ => rfl, fun _ => rfl, fun _ => rfl, fun _ => rfl⟩

/-- An erased device with partitions of the given sizes. -/
def erased (sizes : Vector ℕ 4) : Device := ⟨sizes.map fun size => List.replicate size 0xFF⟩

theorem sizes_erased (sizes : Vector ℕ 4) : (erased sizes).sizes = sizes := by
  ext i hi
  simp [Device.sizes, erased]

/-- All erased devices of one size have the same flat image. -/
theorem flat_erased (sizes : Vector ℕ 4) :
  (erased sizes).flat = List.replicate sizes.sum 0xFF
  := by
  have hlen : (erased sizes).flat.length = sizes.sum := by
    rw [Device.length_flat, sizes_erased]
  apply List.eq_replicate_iff.mpr
  constructor
  · exact hlen
  · intro b hb
    obtain ⟨part, hpart, hb⟩ := List.mem_flatten.mp hb
    rw [erased, Vector.toList_map] at hpart
    obtain ⟨size, -, rfl⟩ := List.mem_map.mp hpart
    apply List.eq_of_mem_replicate hb

/-- A system without a fourth partition, as on devices that are no ultra. -/
def threePartitions : System :=
  { calm with detects := fun i => decide (i ≠ 3), stats := fun i => decide (i ≠ 3) }

/-- The flash of a device with three partitions that sum to it is reported as legacy. -/
theorem layout_threePartitions :
  layout threePartitions (erased #v[262144, 4194304, 12320768, 0]) = .legacy
  := by
  have hsizes : (Vector.ofFn fun i : Fin 4 => if threePartitions.detects i then
      (erased #v[262144, 4194304, 12320768, 0]).partitions[i].length else 0) =
      #v[262144, 4194304, 12320768, 0] := by
    ext i hi
    have hlen : (erased #v[262144, 4194304, 12320768, 0]).partitions[i].length =
        (#v[262144, 4194304, 12320768, 0] : Vector ℕ 4)[i] := by
      rw [← Device.getElem_sizes _ hi]
      simp only [sizes_erased]
    rw [Vector.getElem_ofFn]
    change (if decide (i ≠ 3) = true then
      (erased #v[262144, 4194304, 12320768, 0]).partitions[i].length else 0) = _
    rw [hlen]
    split
    · rfl
    · next hthree =>
      rw [decide_eq_true_iff, not_not] at hthree
      subst hthree
      rfl
  rw [layout, hsizes]
  decide

/-- It cannot be served, although no call on a partition fails. -/
theorem not_serves :
  ¬ ∀ (sys : System) (dev : Device) (offset : ℕ) (data : Bytes), (layout sys dev).Flashable →
    offset + data.length ≤ flashSize →
      Serves sys dev offset data.length (write sys dev offset data).2 ∧
      Serves sys dev offset data.length (read sys dev offset data).2
  := by
  intro h
  have hserves := h threePartitions (erased #v[262144, 4194304, 12320768, 0]) 0 [1]
    (.inr (.inl layout_threePartitions)) (by decide)
  rcases (serves_iff (.inr (.inl layout_threePartitions)) (by decide)).mp hserves with
    hmodern | honline
  · rw [layout_threePartitions] at hmodern
    cases hmodern
  · cases honline 3

/-- With a fourth partition that is online the device is served. -/
theorem serves_threePartitions :
  Serves calm (erased #v[262144, 4194304, 12320768, 0]) 0 1
    (write calm (erased #v[262144, 4194304, 12320768, 0]) 0 [1]).2 ∧
  Serves calm (erased #v[262144, 4194304, 12320768, 0]) 0 1
    (read calm (erased #v[262144, 4194304, 12320768, 0]) 0 [1]).2
  := by
  have honline : ∀ i : Fin 4, calm.stats i := fun _ => rfl
  refine (@serves_iff calm (erased #v[262144, 4194304, 12320768, 0]) ?_ 0 [1] ?_).mpr
    (.inr honline)
  · apply flashable_of_answers calm_answers rfl
    rw [Device.Supported, sizes_erased]
    decide
  · decide

/-- A write across a partition boundary, and a read of what is around it. -/
def boundaryOps : List (System × Op) :=
  [(calm, .write 262142 [1, 2, 3, 4]), (calm, .read 262141 [0, 0, 0, 0, 0, 0])]

/-- An erased legacy device and an erased modern one answer a write across the first partition
boundary of the legacy one, and a read around it, in the same way. -/
theorem device_isImage_boundary :
  ∃ dev₁' dev₂' answers,
    runDevice boundaryOps (erased #v[262144, 4194304, 12320768, 0]) = .ok (dev₁', answers) ∧
    runDevice boundaryOps (erased #v[16777216, 0, 0, 0]) = .ok (dev₂', answers) ∧
    dev₁'.flat = dev₂'.flat
  := by
  have hops : ∀ op ∈ boundaryOps, op.1.Answers ∧ op.1.isUltra = false ∧ op.2.Fits := by
    intro op hop
    simp only [boundaryOps, List.mem_cons, List.not_mem_nil, or_false] at hop
    rcases hop with rfl | rfl
    · exact ⟨calm_answers, rfl, by simp [Op.Fits, flashSize]⟩
    · exact ⟨calm_answers, rfl, by simp [Op.Fits, flashSize]⟩
  have hlegacy : (erased #v[262144, 4194304, 12320768, 0]).Supported := by
    rw [Device.Supported, sizes_erased]
    decide
  have hmodern : (erased #v[16777216, 0, 0, 0]).Supported := by
    rw [Device.Supported, sizes_erased]
    decide
  have hflat : (erased #v[262144, 4194304, 12320768, 0]).flat =
      (erased #v[16777216, 0, 0, 0]).flat := by
    have hsum : (#v[262144, 4194304, 12320768, 0] : Vector ℕ 4).sum =
        (#v[16777216, 0, 0, 0] : Vector ℕ 4).sum := by decide
    rw [flat_erased, flat_erased, hsum]
  obtain ⟨dev₁', answers₁, hrun₁⟩ := runDevice_of_answers hlegacy hops
  obtain ⟨dev₂', answers₂, hrun₂⟩ := runDevice_of_answers hmodern hops
  obtain ⟨himage, rfl⟩ := device_isImage.2.2 _ _ _ _ _ _ _ _ hflat rfl hrun₁ hrun₂
  exact ⟨dev₁', dev₂', answers₁, hrun₁, hrun₂, himage⟩

end Flash

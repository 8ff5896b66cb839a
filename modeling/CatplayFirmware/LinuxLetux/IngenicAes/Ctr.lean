import CatplayFirmware.LinuxLetux.IngenicAes.Counter
import CatplayFirmware.LinuxLetux.IngenicAes.Scatter
import CatplayFirmware.Support.Cbc
import Mathlib.Data.List.Lattice

/-!
# Counter mode

The engine encrypts counter blocks from one buffer into another while the driver combines what it
has encrypted before with the bytes of the request, and writes the next counter blocks. There are
two slots of two buffers each, which take turns.
-/

namespace IngenicAes

open Bytes

/-- `INGENIC_AES_BUF_SIZE`. -/
def bufSize : ℕ := 16384

def enodev : ℤ := -19

def etimedout : ℤ := -110

/-- What a driver runs on: the CPU it is compiled for, what the calls into the kernel return, and
the engine. -/
structure Env where
  order : ByteOrder
  mips : Bool
  present : Bool
  clkAes : ℤ
  clkPdma : ℤ
  prepare : ℤ
  cipher : BlockCipher
  /-- What the waits for the engine return. -/
  dmaWait : ℕ → ℤ
  /-- What an output buffer holds while the engine writes to it. -/
  busy : Bytes
  /-- Where the output buffers are. -/
  outAddr : Bool → ℕ

/-- A request with the key of its context. -/
structure Request where
  src : List Entry
  dst : List Entry
  cryptlen : ℕ
  key : Bytes

/-- What a request works on: the memory, its counter, the buffers of the two slots, and the slot
and the input of a transfer that has been started. -/
structure Machine where
  mem : Memory
  iv : Bytes
  bufIn : Bool → Bytes
  bufOut : Bool → Bytes
  pending : Option (Bool × Bytes)
  waits : ℕ

/-- The part of a request that a slot is used for. -/
structure Slot where
  offset : ℕ
  chunk : ℕ
  keystreamLen : ℕ

/-- The part of a request from an offset on. -/
def slotAt (cryptlen offset : ℕ) : Slot where
  offset
  chunk := min (cryptlen - offset) bufSize
  keystreamLen := (min (cryptlen - offset) bufSize + 15) / 16 * 16

/-- The blocks of an input encrypted one by one. -/
def ecb (encrypt : Bytes → Bytes) : ℕ → Bytes → Bytes
  | 0, _ => []
  | n + 1, input => encrypt (input.take 16) ++ ecb encrypt n (input.drop 16)

section

variable (env : Env) (req : Request)

/-- The counter blocks of a slot are written. -/
def fillSlot (m : Machine) (slot : Bool) (len : ℕ) : Machine :=
  let (out, iv) := fillCounterBlocks env.order m.iv len
  { m with bufIn := Function.update m.bufIn slot (overwrite (m.bufIn slot) 0 out), iv }

/-- `ingenic_aes_dma_start`. From now on the engine reads the input and writes the output. -/
def dmaStart (m : Machine) (slot : Bool) (len : ℕ) : Machine × ℤ :=
  if len = 0 then (m, einval)
  else if len % 16 ≠ 0 then (m, einval)
  else if bufSize < len then (m, einval)
  else
    ({ m with
      bufOut := Function.update m.bufOut slot env.busy
      pending := some (slot, (m.bufIn slot).take len) }, 0)

/-- `ingenic_aes_dma_wait`. The engine has encrypted the input, if nothing has been written to it
since the start. -/
def dmaWait (m : Machine) : Machine × ℤ :=
  match m.pending with
  | none => ({ m with waits := m.waits + 1 }, etimedout)
  | some (slot, input) =>
    if env.dmaWait m.waits ≠ 0 then ({ m with waits := m.waits + 1 }, env.dmaWait m.waits)
    else
      let output := if (m.bufIn slot).take input.length = input then
          ecb (env.cipher.encrypt req.key) (input.length / 16) input
        else []
      ({ m with
        bufOut := Function.update m.bufOut slot (overwrite (m.bufOut slot) 0 output)
        pending := none
        waits := m.waits + 1 }, 0)

/-- The end of a round: the bytes of the current slot are combined with its key stream. -/
def xorSlot (srcNents dstNents : ℕ) (m : Machine) (cur : Bool) (slot : Slot) : Machine × ℤ :=
  let (mem, err) := ctrXorSg env.mips m.mem req.src req.dst srcNents dstNents (env.outAddr cur)
    ((m.bufOut cur).take slot.chunk) slot.offset
  ({ m with mem }, err)

/-- A round with the next slot filled: the engine is started on it before the bytes of the current
one are combined. -/
def roundNext (srcNents dstNents : ℕ) (m : Machine) (cur : Bool) (slot next : Slot) :
    Machine × ℤ :=
  let (m, err) := dmaWait env req m
  if err ≠ 0 then (m, err)
  else
    let (m, startErr) := dmaStart env m (!cur) next.keystreamLen
    let (m, err) := xorSlot env req srcNents dstNents m cur slot
    if err ≠ 0 then (if startErr = 0 then (dmaWait env req m).1 else m, err)
    else (m, startErr)

/-- The last round. -/
def roundLast (srcNents dstNents : ℕ) (m : Machine) (cur : Bool) (slot : Slot) : Machine × ℤ :=
  let (m, err) := dmaWait env req m
  if err ≠ 0 then (m, err)
  else xorSlot env req srcNents dstNents m cur slot

/-- The loop of `ingenic_aes_ctr_crypt`, with the offset of the next slot. -/
def ctrLoop (srcNents dstNents : ℕ) (m : Machine) (cur : Bool) (slot : Slot) (nextOffset : ℕ) :
    Machine × ℤ :=
  if _h : nextOffset < req.cryptlen then
    let next := slotAt req.cryptlen nextOffset
    let m := fillSlot env m (!cur) next.keystreamLen
    let (m, err) := roundNext env req srcNents dstNents m cur slot next
    if err ≠ 0 then (m, err)
    else ctrLoop srcNents dstNents m (!cur) next (nextOffset + next.chunk)
  else roundLast env req srcNents dstNents m cur slot
termination_by req.cryptlen - nextOffset
decreasing_by
  have hsize : bufSize = 16384 := rfl
  change req.cryptlen - (nextOffset + min (req.cryptlen - nextOffset) bufSize) <
    req.cryptlen - nextOffset
  omega

/-- `ingenic_aes_ctr_crypt`, with what it works on after the call. -/
def ctrCrypt (m : Machine) : Machine × ℤ :=
  if !env.present then (m, enodev)
  else if req.cryptlen = 0 then (m, 0)
  else
    match nentsForLen req.src req.cryptlen with
    | none => (m, einval)
    | some srcNents =>
      match nentsForLen req.dst req.cryptlen with
      | none => (m, einval)
      | some dstNents =>
        if env.clkAes ≠ 0 then (m, env.clkAes)
        else if env.clkPdma ≠ 0 then (m, env.clkPdma)
        else if env.prepare ≠ 0 then (m, env.prepare)
        else
          let slot := slotAt req.cryptlen 0
          let m := fillSlot env m false slot.keystreamLen
          let (m, err) := dmaStart env m false slot.keystreamLen
          if err ≠ 0 then (m, err)
          else ctrLoop env req srcNents dstNents m false slot slot.chunk

end

/-! ### The key stream -/

/-- The encryption of the counter blocks from a number on. -/
def keystream (encrypt : Bytes → Bytes) (start count : ℕ) : Bytes :=
  blocksFrom (fun i => encrypt (beBytes 16 i)) start count

theorem keystream_succ (encrypt : Bytes → Bytes) (start count : ℕ) :
  keystream encrypt start (count + 1) =
    encrypt (beBytes 16 start) ++ keystream encrypt (start + 1) count
  := rfl

theorem ecb_counters (encrypt : Bytes → Bytes) (start count : ℕ) :
  ecb encrypt count (counters start count) = keystream encrypt start count
  := by
  induction count generalizing start with
  | zero => rfl
  | succ count ih =>
      have hlen : (beBytes 16 start).length = 16 := length_beBytes 16 start
      rw [counters, blocksFrom, ecb, List.take_left' hlen, List.drop_left' hlen, ← counters, ih,
        keystream_succ]

section

variable {encrypt : Bytes → Bytes} (hencrypt : ∀ block, block.length = 16 →
  (encrypt block).length = 16)

include hencrypt

theorem length_keystream (start count : ℕ) :
  (keystream encrypt start count).length = 16 * count
  := length_blocksFrom (fun n => hencrypt _ (length_beBytes 16 n)) start count

/-- A part of a key stream that begins with a block. -/
theorem slice_keystream (start : ℕ) {total i count len : ℕ} (h : i + count ≤ total)
    (hlen : len ≤ 16 * count) :
  slice (keystream encrypt start total) (16 * i) len =
    (keystream encrypt (start + i) count).take len
  := by
  obtain ⟨rest, rfl⟩ := Nat.exists_eq_add_of_le h
  have hfront := length_keystream hencrypt start i
  have hmiddle := length_keystream hencrypt (start + i) count
  rw [keystream] at hfront hmiddle
  rw [keystream, Nat.add_assoc, blocksFrom_add, blocksFrom_add, slice, List.drop_left' hfront,
    List.take_append_of_le_length (by omega), keystream]

/-- A byte of a key stream. -/
theorem getElem?_keystream (start : ℕ) {count j : ℕ} (h : j < 16 * count) :
  (keystream encrypt start count)[j]? = (encrypt (beBytes 16 (start + j / 16)))[j % 16]?
  := by
  induction count generalizing start j with
  | zero => omega
  | succ count ih =>
      have hblock := hencrypt (beBytes 16 start) (length_beBytes 16 start)
      rw [keystream_succ]
      rcases Nat.lt_or_ge j 16 with hfirst | hlater
      · rw [List.getElem?_append_left (by omega), Nat.div_eq_of_lt hfirst, Nat.mod_eq_of_lt hfirst,
          Nat.add_zero]
      · have hdiv : start + 1 + (j - 16) / 16 = start + j / 16 := by omega
        have hmod : (j - 16) % 16 = j % 16 := by omega
        rw [List.getElem?_append_right (by omega), hblock, ih (start + 1) (by omega), hdiv, hmod]

end

/-! ### Requests -/

/-- A request whose lists hold its bytes. No byte is written twice, and it is done in place or
reads other bytes than it writes. -/
structure ScatteredRequest extends Request where
  pos : 0 < cryptlen
  srcLong : cryptlen ≤ (addrs src).length
  dstLong : cryptlen ≤ (addrs dst).length
  nodup : ((addrs dst).take cryptlen).Nodup
  inPlace : (addrs src).take cryptlen = (addrs dst).take cryptlen ∨
    ((addrs src).take cryptlen).Disjoint ((addrs dst).take cryptlen)

theorem ScatteredRequest.noClobber (req : ScatteredRequest) :
  NoClobber ((addrs req.dst).take req.cryptlen) ((addrs req.src).take req.cryptlen)
  := by
  intro i j a hij hi hj
  rcases req.inPlace with hsame | hdisjoint
  · rw [hsame] at hj
    have hilt := (List.getElem?_eq_some_iff.mp hi).1
    have heq := (List.getElem?_inj hilt req.nodup).mp (hi.trans hj.symm)
    omega
  · apply hdisjoint (List.mem_of_getElem? hj) (List.mem_of_getElem? hi)

/-- No address of a part of a request is clobbered. -/
theorem ScatteredRequest.noClobber_slice (req : ScatteredRequest) {offset len : ℕ}
    (h : offset + len ≤ req.cryptlen) :
  NoClobber (slice (addrs req.dst) offset len) (slice (addrs req.src) offset len)
  := by
  have hslice (xs : List ℕ) : slice xs offset len =
      ((xs.take req.cryptlen).drop offset).take len := by
    rw [slice, List.drop_take, List.take_take, Nat.min_eq_left]
    omega
  rw [hslice, hslice]
  apply (req.noClobber.drop offset).take

/-- The number of blocks of a slot. -/
def Slot.blocks (slot : Slot) : ℕ := (slot.chunk + 15) / 16

theorem keystreamLen_slotAt (cryptlen offset : ℕ) :
  (slotAt cryptlen offset).keystreamLen = 16 * (slotAt cryptlen offset).blocks
  := Nat.mul_comm _ _

theorem chunk_slotAt (cryptlen offset : ℕ) :
  (slotAt cryptlen offset).chunk = min (cryptlen - offset) bufSize
  := rfl

section

variable {env : Env} {req : ScatteredRequest}

/-- The encryption of a block under the key of a request. -/
def blockOf (env : Env) (req : ScatteredRequest) : Bytes → Bytes := env.cipher.encrypt req.key

theorem length_blockOf (block : Bytes) (h : block.length = 16) :
  (blockOf env req block).length = 16
  := env.cipher.length_encrypt req.key block h

/-- The memory when the first `len` bytes of a request are combined. -/
def combined (env : Env) (req : ScatteredRequest) (iv : ℕ) (mem : Memory) (len : ℕ) : Memory :=
  xorAt mem ((addrs req.dst).take len) ((addrs req.src).take len)
    ((keystream (blockOf env req) iv ((req.cryptlen + 15) / 16)).take len)

/-- The bytes of a slot are combined behind those before it. -/
theorem combined_add {iv offset chunk : ℕ} {mem : Memory} (h : offset + chunk ≤ req.cryptlen) :
  combined env req iv mem (offset + chunk) =
    xorAt (combined env req iv mem offset) (slice (addrs req.dst) offset chunk)
      (slice (addrs req.src) offset chunk)
      (slice (keystream (blockOf env req) iv ((req.cryptlen + 15) / 16)) offset chunk)
  := by
  have hkeystream :=
    @length_keystream (blockOf env req) length_blockOf iv ((req.cryptlen + 15) / 16)
  have hsrc := req.srcLong
  have hdst := req.dstLong
  have htake {α : Type} {xs : List α} (hlen : req.cryptlen ≤ xs.length) :
      (xs.take offset).length = offset := by
    rw [List.length_take]
    omega
  have hlong : req.cryptlen ≤
      (keystream (blockOf env req) iv ((req.cryptlen + 15) / 16)).length := by
    omega
  rw [combined, ← take_append_slice, ← take_append_slice, ← take_append_slice,
    xorAt_append, combined]
  · rw [htake hdst, htake hlong]
  · rw [htake hsrc, htake hlong]

/-- A slot has been filled and the engine has been started on it, and the bytes before it are
combined. -/
structure Running (env : Env) (req : ScatteredRequest) (iv : ℕ) (mem : Memory) (m : Machine)
    (cur : Bool) (slot : Slot) (i : ℕ) : Prop where
  slot_eq : slot = slotAt req.cryptlen (16 * i)
  before : 16 * i < req.cryptlen
  counter : m.iv = beBytes 16 (iv + i + slot.blocks)
  pending : m.pending = some (cur, counters (iv + i) slot.blocks)
  input : (m.bufIn cur).take (16 * slot.blocks) = counters (iv + i) slot.blocks
  mem : m.mem = combined env req iv mem (16 * i)

theorem take_overwrite_zero {α : Type} (xs ys : List α) :
  (overwrite xs 0 ys).take ys.length = ys
  := by
  have htake := take_overwrite ys (Nat.zero_le xs.length)
  rwa [Nat.zero_add, List.take_zero, List.nil_append] at htake

/-- The engine has encrypted the counter blocks of the slot it was started on. -/
theorem dmaWait_ok (hwait : ∀ n, env.dmaWait n = 0) {m : Machine} {cur : Bool} {start count : ℕ}
    (hpending : m.pending = some (cur, counters start count))
    (hinput : (m.bufIn cur).take (16 * count) = counters start count) :
  ∃ m', dmaWait env req.toRequest m = (m', 0) ∧ m'.mem = m.mem ∧ m'.iv = m.iv ∧
    m'.bufIn = m.bufIn ∧
    (m'.bufOut cur).take (16 * count) = keystream (blockOf env req) start count
  := by
  have hlen := length_counters start count
  have hblocks : 16 * count / 16 = count := by omega
  have hkeystream := @length_keystream (blockOf env req) length_blockOf start count
  rw [dmaWait, hpending]
  simp only
  rw [if_neg (not_not.mpr (hwait m.waits)), hlen, if_pos hinput, hblocks, ecb_counters]
  refine ⟨_, rfl, rfl, rfl, rfl, ?_⟩
  simp only [Function.update_self]
  rw [← blockOf, ← hkeystream]
  apply take_overwrite_zero

/-- The next slot is filled, and nothing of the current one changes. -/
theorem fillSlot_ok (m : Machine) (slot : Bool) {start : ℕ} (count : ℕ)
    (hiv : m.iv = beBytes 16 start) :
  (fillSlot env m slot (16 * count)).mem = m.mem ∧
    (fillSlot env m slot (16 * count)).iv = beBytes 16 (start + count) ∧
    (fillSlot env m slot (16 * count)).pending = m.pending ∧
    ((fillSlot env m slot (16 * count)).bufIn slot).take (16 * count) = counters start count ∧
    (fillSlot env m slot (16 * count)).bufIn (!slot) = m.bufIn (!slot)
  := by
  have hlen := length_counters start count
  have hother : (!slot) ≠ slot := by
    cases slot <;> exact nofun
  rw [fillSlot, hiv, fillCounterBlocks_eq]
  refine ⟨rfl, rfl, rfl, ?_, ?_⟩
  · simp only [Function.update_self]
    rw [← hlen]
    apply take_overwrite_zero
  · apply Function.update_of_ne hother

/-- The engine is started on a slot, and the output of the other one does not change. -/
theorem dmaStart_ok (m : Machine) (slot : Bool) {count : ℕ} (hpos : 0 < count)
    (hle : 16 * count ≤ bufSize) :
  ∃ m', dmaStart env m slot (16 * count) = (m', 0) ∧ m'.mem = m.mem ∧ m'.iv = m.iv ∧
    m'.bufIn = m.bufIn ∧ m'.pending = some (slot, (m.bufIn slot).take (16 * count)) ∧
    m'.bufOut (!slot) = m.bufOut (!slot)
  := by
  have hother : (!slot) ≠ slot := by
    cases slot <;> exact nofun
  have hblocks : 16 * count % 16 = 0 := Nat.mul_mod_right 16 count
  rw [dmaStart, if_neg (by omega), if_neg (not_not.mpr hblocks), if_neg (by omega)]
  refine ⟨_, rfl, rfl, rfl, rfl, rfl, ?_⟩
  apply Function.update_of_ne hother

/-- The key stream of a slot is a part of that of the request. -/
theorem keystream_slot (iv : ℕ) {i : ℕ} (h : 16 * i < req.cryptlen) :
  (keystream (blockOf env req) (iv + i) (slotAt req.cryptlen (16 * i)).blocks).take
      (slotAt req.cryptlen (16 * i)).chunk =
    slice (keystream (blockOf env req) iv ((req.cryptlen + 15) / 16)) (16 * i)
      (slotAt req.cryptlen (16 * i)).chunk
  := by
  have hchunk := chunk_slotAt req.cryptlen (16 * i)
  have hsize : bufSize = 16384 := rfl
  have hblocks : (slotAt req.cryptlen (16 * i)).blocks =
    ((slotAt req.cryptlen (16 * i)).chunk + 15) / 16 := rfl
  apply (slice_keystream length_blockOf iv _ _).symm
  · omega
  · omega

section

variable {srcNents dstNents : ℕ}
  (hsrc : req.cryptlen ≤ (addrs (req.src.take srcNents)).length)
  (hdst : req.cryptlen ≤ (addrs (req.dst.take dstNents)).length)
  (hwait : ∀ n, env.dmaWait n = 0)

include hsrc hdst

/-- The bytes of a slot are combined with its key stream. -/
theorem xorSlot_ok {iv : ℕ} {mem : Memory} {m : Machine} (cur : Bool) {i : ℕ}
    (h : 16 * i < req.cryptlen) (hmem : m.mem = combined env req iv mem (16 * i))
    (hout : (m.bufOut cur).take (16 * (slotAt req.cryptlen (16 * i)).blocks) =
      keystream (blockOf env req) (iv + i) (slotAt req.cryptlen (16 * i)).blocks) :
  xorSlot env req.toRequest srcNents dstNents m cur (slotAt req.cryptlen (16 * i)) =
    ({ m with mem :=
      combined env req iv mem (16 * i + (slotAt req.cryptlen (16 * i)).chunk) }, 0)
  := by
  have hchunk := chunk_slotAt req.cryptlen (16 * i)
  have hblocks : (slotAt req.cryptlen (16 * i)).blocks =
    ((slotAt req.cryptlen (16 * i)).chunk + 15) / 16 := rfl
  have hoffset : (slotAt req.cryptlen (16 * i)).offset = 16 * i := rfl
  obtain ⟨chunk, hc⟩ : ∃ chunk, chunk = (slotAt req.cryptlen (16 * i)).chunk := ⟨_, rfl⟩
  have htake : (m.bufOut cur).take chunk =
      slice (keystream (blockOf env req) iv ((req.cryptlen + 15) / 16)) (16 * i) chunk := by
    have hle : min chunk (16 * (slotAt req.cryptlen (16 * i)).blocks) = chunk := by omega
    rw [hc, ← keystream_slot iv h, ← hout, List.take_take, ← hc, hle]
  have hlen : ((m.bufOut cur).take chunk).length = chunk := by
    rw [htake, length_slice]
    rw [length_keystream length_blockOf]
    omega
  have hclobber : NoClobber
      (slice (addrs req.dst) (16 * i) ((m.bufOut cur).take chunk).length)
      (slice (addrs req.src) (16 * i) ((m.bufOut cur).take chunk).length) := by
    apply req.noClobber_slice
    omega
  rw [xorSlot, ← hc, hoffset, ctrXorSg_eq env.mips _ _ _ hclobber, hlen, htake, hmem, combined_add]
  · omega
  · omega
  · omega

include hwait

/-- The last round combines the bytes of the last slot. -/
theorem roundLast_ok {iv : ℕ} {mem : Memory} {m : Machine} {cur : Bool} {slot : Slot} {i : ℕ}
    (h : Running env req iv mem m cur slot i) :
  ∃ m', roundLast env req.toRequest srcNents dstNents m cur slot = (m', 0) ∧ m'.iv = m.iv ∧
    m'.mem = combined env req iv mem (16 * i + slot.chunk)
  := by
  obtain ⟨m', hm', hmem, hiv, -, hout⟩ := dmaWait_ok hwait h.pending h.input
  have hslot := h.slot_eq
  subst hslot
  rw [roundLast, hm']
  simp only [ne_eq, not_true_eq_false, if_false]
  rw [xorSlot_ok hsrc hdst cur h.before (hmem.trans h.mem) hout]
  exact ⟨_, rfl, hiv, rfl⟩

/-- A round fills and starts the next slot and combines the bytes of the current one. -/
theorem roundNext_ok {iv : ℕ} {mem : Memory} {m : Machine} {cur : Bool} {slot : Slot} {i : ℕ}
    (h : Running env req iv mem m cur slot i) (hmore : 16 * i + slot.chunk < req.cryptlen) :
  ∃ m', roundNext env req.toRequest srcNents dstNents
      (fillSlot env m (!cur) (slotAt req.cryptlen (16 * i + slot.chunk)).keystreamLen) cur slot
      (slotAt req.cryptlen (16 * i + slot.chunk)) = (m', 0) ∧
    16 * i + slot.chunk = 16 * (i + slot.blocks) ∧
    Running env req iv mem m' (!cur) (slotAt req.cryptlen (16 * i + slot.chunk)) (i + slot.blocks)
  := by
  have hslot := h.slot_eq
  subst hslot
  have hsize : bufSize = 16384 := rfl
  have hchunk := chunk_slotAt req.cryptlen (16 * i)
  have hblocks : (slotAt req.cryptlen (16 * i)).blocks =
    ((slotAt req.cryptlen (16 * i)).chunk + 15) / 16 := rfl
  obtain ⟨j, hj⟩ : ∃ j, j = i + (slotAt req.cryptlen (16 * i)).blocks := ⟨_, rfl⟩
  have hnext : 16 * i + (slotAt req.cryptlen (16 * i)).chunk = 16 * j := by omega
  have hchunkNext := chunk_slotAt req.cryptlen (16 * j)
  have hblocksNext : (slotAt req.cryptlen (16 * j)).blocks =
    ((slotAt req.cryptlen (16 * j)).chunk + 15) / 16 := rfl
  have hcounter : m.iv = beBytes 16 (iv + j) := by
    rw [h.counter, hj, Nat.add_assoc]
  rw [hnext, keystreamLen_slotAt]
  obtain ⟨hmem₁, hiv₁, hpending₁, hin₁, hother₁⟩ :=
    @fillSlot_ok env m (!cur) (iv + j) (slotAt req.cryptlen (16 * j)).blocks hcounter
  rw [Bool.not_not] at hother₁
  obtain ⟨m₂, hm₂, hmem₂, hiv₂, hin₂, hout₂⟩ := @dmaWait_ok env req hwait _ cur _ _
    (hpending₁.trans h.pending) (hother₁ ▸ h.input)
  obtain ⟨m₃, hm₃, hmem₃, hiv₃, hin₃, hpending₃, hout₃⟩ := @dmaStart_ok env m₂ (!cur)
    (slotAt req.cryptlen (16 * j)).blocks (by omega) (by omega)
  rw [Bool.not_not] at hout₃
  rw [roundNext, hm₂]
  simp only [ne_eq, not_true_eq_false, if_false]
  rw [keystreamLen_slotAt, hm₃]
  simp only
  rw [xorSlot_ok hsrc hdst cur h.before (hmem₃.trans (hmem₂.trans (hmem₁.trans h.mem)))
    (hout₃ ▸ hout₂)]
  refine ⟨_, rfl, congrArg (16 * ·) hj, ?_⟩
  rw [← hj]
  constructor
  · rfl
  · omega
  · exact hiv₃.trans (hiv₂.trans hiv₁)
  · rw [hpending₃, hin₂, hin₁]
  · rw [hin₃, hin₂, hin₁]
  · rw [hnext]

/-- The loop combines the bytes of the slots one after the other. -/
theorem ctrLoop_ok {iv : ℕ} {mem : Memory} {m : Machine} {cur : Bool} {slot : Slot} {i : ℕ}
    (h : Running env req iv mem m cur slot i) :
  ∃ m', ctrLoop env req.toRequest srcNents dstNents m cur slot (16 * i + slot.chunk) = (m', 0) ∧
    m'.iv = beBytes 16 (iv + (req.cryptlen + 15) / 16) ∧
    m'.mem = combined env req iv mem req.cryptlen
  := by
  obtain ⟨left, hleft⟩ : ∃ left, left = req.cryptlen - 16 * i := ⟨_, rfl⟩
  induction left using Nat.strongRecOn generalizing m cur slot i with
  | _ left ih =>
      rw [ctrLoop]
      split
      · next hmore =>
        obtain ⟨m', hm', hnext, hrunning⟩ := roundNext_ok hsrc hdst hwait h hmore
        have hsize : bufSize = 16384 := rfl
        have hbefore := h.before
        have hslot := h.slot_eq
        have hchunk := chunk_slotAt req.cryptlen (16 * i)
        rw [← hslot] at hchunk
        simp only
        rw [hm']
        simp only [ne_eq, not_true_eq_false, if_false]
        have hrest := @ih (req.cryptlen - 16 * (i + slot.blocks)) (by omega) _ _ _ _ hrunning rfl
        rwa [← hnext] at hrest
      · next hlast =>
        have hbefore := h.before
        have hslot := h.slot_eq
        have hchunk := chunk_slotAt req.cryptlen (16 * i)
        rw [← hslot] at hchunk
        have hblocks : slot.blocks = (slot.chunk + 15) / 16 := rfl
        obtain ⟨m', hm', hiv, hmem⟩ := roundLast_ok hsrc hdst hwait h
        have hend : 16 * i + slot.chunk = req.cryptlen := by omega
        have htotal : iv + i + slot.blocks = iv + (req.cryptlen + 15) / 16 := by omega
        refine ⟨m', hm', ?_, ?_⟩
        · rw [hiv, h.counter, htotal]
        · rw [hmem, hend]

end

end

/-! ### The whole request -/

/-- A driver whose clocks and engine work. -/
def Env.working (order : ByteOrder) (mips : Bool) (cipher : BlockCipher) (busy : Bytes)
    (outAddr : Bool → ℕ) : Env where
  order
  mips
  present := true
  clkAes := 0
  clkPdma := 0
  prepare := 0
  cipher
  dmaWait _ := 0
  busy
  outAddr

/-- The bytes of a counter of 128 bits that is increased. -/
theorem beBytes_bitVec (iv : BitVec 128) (k : ℕ) :
  beBytes 16 (iv + BitVec.ofNat 128 k).toNat = beBytes 16 (iv.toNat + k)
  := by
  have hmod : (iv + BitVec.ofNat 128 k).toNat = (iv.toNat + k) % 256 ^ 16 := by
    rw [BitVec.toNat_add, BitVec.toNat_ofNat, Nat.add_mod_mod]
    norm_num
  rw [hmod, beBytes_mod]

section

variable {env : Env} {req : ScatteredRequest}

/-- A request leaves the memory combined and the counter behind its last block. -/
theorem ctrCrypt_ok (hpresent : env.present = true) (haes : env.clkAes = 0)
    (hpdma : env.clkPdma = 0) (hprepare : env.prepare = 0) (hwait : ∀ n, env.dmaWait n = 0)
    {m : Machine} {iv : ℕ} (hiv : m.iv = beBytes 16 iv) :
  ∃ m', ctrCrypt env req.toRequest m = (m', 0) ∧
    m'.iv = beBytes 16 (iv + (req.cryptlen + 15) / 16) ∧
    m'.mem = combined env req iv m.mem req.cryptlen
  := by
  have hpos := req.pos
  have hsize : bufSize = 16384 := rfl
  have hchunk := chunk_slotAt req.cryptlen 0
  have hblocks : (slotAt req.cryptlen 0).blocks =
    ((slotAt req.cryptlen 0).chunk + 15) / 16 := rfl
  obtain ⟨srcNents, hsrcNents, hsrc⟩ := nentsForLen_addrs req.srcLong
  obtain ⟨dstNents, hdstNents, hdst⟩ := nentsForLen_addrs req.dstLong
  obtain ⟨hmem₁, hiv₁, -, hin₁, -⟩ :=
    @fillSlot_ok env m false iv (slotAt req.cryptlen 0).blocks hiv
  rw [ctrCrypt, hpresent, Bool.not_true, if_neg Bool.false_ne_true, if_neg (Nat.ne_of_gt hpos),
    hsrcNents]
  simp only
  rw [hdstNents]
  simp only
  rw [if_neg (not_not.mpr haes), if_neg (not_not.mpr hpdma), if_neg (not_not.mpr hprepare),
    keystreamLen_slotAt]
  obtain ⟨m₂, hm₂, hmem₂, hiv₂, hin₂, hpending₂, -⟩ :=
    @dmaStart_ok env (fillSlot env m false (16 * (slotAt req.cryptlen 0).blocks)) false
      (slotAt req.cryptlen 0).blocks (by omega) (by omega)
  rw [hm₂]
  simp only [ne_eq, not_true_eq_false, if_false]
  have hrunning : Running env req iv m.mem m₂ false (slotAt req.cryptlen 0) 0 := by
    constructor
    · rfl
    · exact hpos
    · exact hiv₂.trans hiv₁
    · rw [hpending₂, hin₁]
      rfl
    · rw [hin₂, hin₁]
      rfl
    · exact hmem₂.trans hmem₁
  have hloop := ctrLoop_ok hsrc hdst hwait hrunning
  rwa [Nat.mul_zero, Nat.zero_add] at hloop

end

/-- On a driver that works every request is done: every byte of the destination is the byte of the
source combined with its byte of the encrypted counters, nothing else is written, and the counter
is left behind the last block. -/
theorem ctrCrypt_working (order : ByteOrder) (mips : Bool) (cipher : BlockCipher) (busy : Bytes)
    (outAddr : Bool → ℕ) (req : ScatteredRequest) (iv : BitVec 128) (m : Machine) :
  ∃ m', ctrCrypt (Env.working order mips cipher busy outAddr) req.toRequest
      { m with iv := beBytes 16 iv.toNat } = (m', 0) ∧
    (∀ j < req.cryptlen, m'.mem ((addrs req.dst).getD j 0) =
      m.mem ((addrs req.src).getD j 0) ^^^
        (cipher.encrypt req.key (beBytes 16 (iv + BitVec.ofNat 128 (j / 16)).toNat)).getD
          (j % 16) 0) ∧
    (∀ a, a ∉ (addrs req.dst).take req.cryptlen → m'.mem a = m.mem a) ∧
    m'.iv = beBytes 16 (iv + BitVec.ofNat 128 ((req.cryptlen + 15) / 16)).toNat
  := by
  obtain ⟨env, henv⟩ : ∃ env, env = Env.working order mips cipher busy outAddr := ⟨_, rfl⟩
  have hkeystream := @length_keystream (blockOf env req) length_blockOf iv.toNat
    ((req.cryptlen + 15) / 16)
  obtain ⟨m', hm', hiv, hmem⟩ := @ctrCrypt_ok env req (by rw [henv]; rfl) (by rw [henv]; rfl)
    (by rw [henv]; rfl) (by rw [henv]; rfl) (fun n => by rw [henv]; rfl)
    { m with iv := beBytes 16 iv.toNat } iv.toNat rfl
  have htake {α : Type} {xs : List α} (hlen : req.cryptlen ≤ xs.length) :
      (xs.take req.cryptlen).length = req.cryptlen := by
    rw [List.length_take, Nat.min_eq_left hlen]
  have hks := htake (Nat.le_trans (by omega) (Nat.le_of_eq hkeystream.symm))
  obtain ⟨hread, hframe⟩ := @xorAt_spec m.mem _ _ _ ((htake req.dstLong).trans hks.symm)
    ((htake req.srcLong).trans hks.symm) req.nodup req.noClobber
  rw [← henv]
  refine ⟨m', hm', ?_, ?_, ?_⟩
  · intro j hj
    have hdst := Nat.lt_of_lt_of_le hj req.dstLong
    have hsrc := Nat.lt_of_lt_of_le hj req.srcLong
    obtain ⟨block, hblock⟩ : ∃ block,
        block = blockOf env req (beBytes 16 (iv.toNat + j / 16)) := ⟨_, rfl⟩
    have hlen : block.length = 16 := by
      rw [hblock]
      apply length_blockOf _ (length_beBytes 16 _)
    have hbyte : block[j % 16]? = some (block.getD (j % 16) 0) := by
      rw [List.getD_eq_getElem?_getD, List.getElem?_eq_getElem (by omega)]
      rfl
    have haddr {xs : List ℕ} (hlt : j < xs.length) :
        (xs.take req.cryptlen)[j]? = some (xs.getD j 0) := by
      rw [List.getElem?_take_of_lt hj, List.getD_eq_getElem?_getD, List.getElem?_eq_getElem hlt]
      rfl
    have hk : ((keystream (blockOf env req) iv.toNat ((req.cryptlen + 15) / 16)).take
        req.cryptlen)[j]? = some (block.getD (j % 16) 0) := by
      rw [List.getElem?_take_of_lt hj, getElem?_keystream length_blockOf _ (by omega), ← hblock,
        hbyte]
    rw [hmem, combined, hread j _ _ _ (haddr hdst) (haddr hsrc) hk, beBytes_bitVec, hblock, henv]
    rfl
  · intro a ha
    rw [hmem, combined, hframe a ha]
  · rw [hiv, beBytes_bitVec]

/-- A request from three pieces of memory to two. -/
def threePieces : ScatteredRequest where
  src := [⟨0, 5, by decide⟩, ⟨100, 20, by decide⟩, ⟨4000, 8, by decide⟩]
  dst := [⟨8192, 18, by decide⟩, ⟨9000, 15, by decide⟩]
  cryptlen := 33
  key := List.replicate 16 0
  pos := by decide
  srcLong := by decide
  dstLong := by decide
  nodup := by decide
  inPlace := .inr (by unfold List.Disjoint; decide)

/-- A byte of each block, where the counter runs over between the first two. -/
theorem ctrCrypt_threePieces :
  ∃ m', ctrCrypt (Env.working .little true Cbc.vernam [] fun _ => 0) threePieces.toRequest
      ⟨fun a => UInt8.ofNat a, List.replicate 16 255, fun _ => [], fun _ => [], none, 0⟩ =
        (m', 0) ∧
    m'.mem 8192 = 255 ∧ m'.mem 8209 = 112 ∧ m'.mem 9014 = 167 ∧ m'.mem 9015 = 55 ∧
    m'.iv = List.replicate 15 0 ++ [2]
  := by
  obtain ⟨m', hrun, hbytes, hframe, hiv⟩ := ctrCrypt_working .little true Cbc.vernam []
    (fun _ => 0) threePieces (BitVec.ofNat 128 (2 ^ 128 - 1))
    ⟨fun a => UInt8.ofNat a, [], fun _ => [], fun _ => [], none, 0⟩
  refine ⟨m', hrun, (hbytes 0 (by decide)).trans ?_, (hbytes 17 (by decide)).trans ?_,
    (hbytes 32 (by decide)).trans ?_, (hframe 9015 (by decide)).trans ?_, hiv.trans ?_⟩
  all_goals decide +kernel

end IngenicAes

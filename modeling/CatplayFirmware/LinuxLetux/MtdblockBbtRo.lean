import CatplayFirmware.Support.Bytes
import Mathlib.Algebra.Order.Ring.Int
import Mathlib.Data.List.GetD
import Mathlib.Data.List.Range
import Mathlib.Data.Nat.Notation
import Mathlib.Data.Int.Notation

/-!
# The block device over good blocks

`mtdblock_bbt_ro` makes a read-only block device of a flash by leaving out its bad erase blocks.
The first read makes a table of the good blocks, with items as wide as the number of blocks needs,
and where an item is zero the device ends unless it is the first. Every read then comes from the
good blocks, one behind another, as they were found at the first read.
-/

open Bytes

namespace MtdblockBbtRo

/-- The flash: its size, a multiple of that of an erase block, with as many erase blocks as an
`int` can count. -/
structure MtdInfo where
  size : ℕ
  erasesize : ℕ
  erasesize_pos : 0 < erasesize
  erasesize_lt : erasesize < 2 ^ 32
  dvd : erasesize ∣ size
  count_lt : size / erasesize < 2 ^ 31

/-- `mtd_div_by_eb` and `mtd_mod_by_eb`. -/
def MtdInfo.divByEb (mtd : MtdInfo) (sz : ℕ) : ℕ := sz / mtd.erasesize % 2 ^ 32

def MtdInfo.modByEb (mtd : MtdInfo) (sz : ℕ) : ℕ := sz % mtd.erasesize

/-- What `mtd_read` comes to. -/
structure MtdRead where
  err : ℤ
  retlen : ℕ
  buf : Bytes

def EOVERFLOW : ℤ := 75

def EUCLEAN : ℤ := 117

/-- `mtd_is_bitflip`. -/
def isBitflip (err : ℤ) : Bool := err = -EUCLEAN

/-- All bytes have been read, perhaps with bit flips that have been corrected. -/
def MtdRead.Fine (r : MtdRead) (len : ℕ) : Prop := r.err = 0 ∨ isBitflip r.err ∧ len = r.retlen

/-- The part of `struct m_mtd_data` behind `dev`; the table is missing until the first read. -/
structure MMtdData where
  bbt : Option (List ℕ)
  blockCount : ℕ
  usableCount : ℕ
  deriving DecidableEq

/-- What `kzalloc` gives. -/
def MMtdData.fresh : MMtdData := ⟨none, 0, 0⟩

/-! ### The table -/

def itemSize (blockCount : ℕ) : ℕ :=
  if blockCount < 256 then 1 else if blockCount < 65536 then 2 else 4

/-- One round of the loop of `create_bbt`, over the table, the count of bad blocks and the
offset. -/
def createRound (mtd : MtdInfo) (isbad : ℕ → ℤ) (item : ℕ) :
    List ℕ × ℕ × ℕ → ℕ → List ℕ × ℕ × ℕ
  | (bbt, badCount, offs), i =>
    if 0 < isbad offs then (bbt, badCount + 1, offs + mtd.erasesize)
    else (bbt.set (i - badCount) (i % 256 ^ item), badCount, offs + mtd.erasesize)

def createBbt (mtd : MtdInfo) (isbad : ℕ → ℤ) : MMtdData :=
  let blockCount := mtd.divByEb mtd.size
  let (bbt, badCount, _) := (List.range blockCount).foldl
    (createRound mtd isbad (itemSize blockCount)) (List.replicate blockCount 0, 0, 0)
  ⟨some bbt, blockCount, blockCount - badCount⟩

/-- The item at an index inside of the table. -/
def getFromBbt (bbt : List ℕ) (index : ℕ) : ℤ :=
  let ret := bbt.getD index 0
  if ret = 0 then if index ≠ 0 then -1 else 0 else ret

/-! ### The device -/

/-- `mtdblock_readsect`: what it returns, the buffer if it is filled, and the data of the device
afterwards. -/
def readsect (mtd : MtdInfo) (blockSize : ℕ) (isbad : ℕ → ℤ) (read : ℕ → ℕ → MtdRead)
    (data : MMtdData) (block : ℕ) : (ℤ × Option Bytes) × MMtdData :=
  let index := mtd.divByEb (block * blockSize % 2 ^ 64)
  let delta := mtd.modByEb (block * blockSize % 2 ^ 64)
  let data := if data.bbt.isNone then createBbt mtd isbad else data
  if data.usableCount = 0 then ((-EOVERFLOW, none), data)
  else
    let index := getFromBbt (data.bbt.getD []) index
    if index < 0 then ((-EOVERFLOW, none), data)
    else
      let off := (index.toNat * mtd.erasesize + delta) % 2 ^ 32
      let r := read off blockSize
      if r.err ≠ 0 then
        if isBitflip r.err ∧ blockSize = r.retlen then ((0, some r.buf), data)
        else ((1, none), data)
      else ((0, some r.buf), data)

/-! ### What the table holds -/

section

variable (mtd : MtdInfo) (isbad : ℕ → ℤ)

/-- The good blocks among the first `k`. -/
def good (k : ℕ) : List ℕ := (List.range k).filter fun i => isbad (i * mtd.erasesize) ≤ 0

theorem good_succ (k : ℕ) :
  good mtd isbad (k + 1) =
    good mtd isbad k ++ if isbad (k * mtd.erasesize) ≤ 0 then [k] else []
  := by
  rw [good, good, List.range_succ, List.filter_append]
  congr 1
  split
  · next h => exact List.filter_cons_of_pos (decide_eq_true h)
  · next h => exact List.filter_cons_of_neg (by rwa [decide_eq_true_eq])

theorem length_good_le (k : ℕ) : (good mtd isbad k).length ≤ k := by
  have h := List.length_filter_le (fun i => decide (isbad (i * mtd.erasesize) ≤ 0)) (List.range k)
  rwa [List.length_range] at h

/-- The block at a place of the table does not come before the place. -/
theorem le_of_good {k i b : ℕ} (h : (good mtd isbad k)[i]? = some b) : i ≤ b ∧ b < k := by
  induction k with
  | zero => cases h
  | succ k ih =>
      rw [good_succ] at h
      have hlen := length_good_le mtd isbad k
      rcases Nat.lt_or_ge i (good mtd isbad k).length with hi | hi
      · rw [List.getElem?_append_left hi] at h
        have hk := ih h
        omega
      · rw [List.getElem?_append_right hi] at h
        split at h
        · rw [List.getElem?_singleton] at h
          split at h
          · cases h
            omega
          · cases h
        · cases h

/-- The table after some rounds holds the good blocks found, and zeros behind them. -/
theorem foldl_createRound {n item : ℕ} (hn : n ≤ 256 ^ item) {k : ℕ} (hk : k ≤ n) :
  (List.range k).foldl (createRound mtd isbad item) (List.replicate n 0, 0, 0) =
    (good mtd isbad k ++ List.replicate (n - (good mtd isbad k).length) 0,
      k - (good mtd isbad k).length, k * mtd.erasesize)
  := by
  induction k with
  | zero => simp [good]
  | succ k ih =>
      have hlen := length_good_le mtd isbad k
      have hoffs : k * mtd.erasesize + mtd.erasesize = (k + 1) * mtd.erasesize :=
        (Nat.succ_mul k mtd.erasesize).symm
      rw [List.range_succ, List.foldl_append, ih (by omega), List.foldl_cons, List.foldl_nil,
        createRound, good_succ, hoffs]
      rcases Int.lt_or_le 0 (isbad (k * mtd.erasesize)) with hbad | hgood
      · rw [if_pos hbad, if_neg (by omega), List.append_nil, Nat.succ_sub hlen]
      · have hplace : k - (k - (good mtd isbad k).length) = (good mtd isbad k).length := by omega
        have hitem : k % 256 ^ item = k := Nat.mod_eq_of_lt (by omega)
        have hrest : List.replicate (n - (good mtd isbad k).length) 0 =
            0 :: List.replicate (n - ((good mtd isbad k).length + 1)) 0 := by
          rw [← List.replicate_succ]
          congr 1
          omega
        rw [if_neg (by omega), if_pos hgood, hplace, hitem, hrest,
          List.set_append_right _ _ (Nat.le_refl _), Nat.sub_self, List.set_cons_zero,
          List.length_append, List.length_singleton, List.append_assoc, List.singleton_append,
          Nat.add_sub_add_right]

end

/-- How many erase blocks there are. -/
def MtdInfo.blockCount (mtd : MtdInfo) : ℕ := mtd.size / mtd.erasesize

theorem MtdInfo.divByEb_eq (mtd : MtdInfo) {sz : ℕ} (h : sz ≤ mtd.size) :
  mtd.divByEb sz = sz / mtd.erasesize
  := by
  have hle := Nat.div_le_div_right (c := mtd.erasesize) h
  have hlt := mtd.count_lt
  rw [MtdInfo.divByEb, Nat.mod_eq_of_lt (by omega)]

theorem lt_itemSize {n : ℕ} (h : n < 2 ^ 31) : n ≤ 256 ^ itemSize n := by
  rw [itemSize]
  split
  · omega
  split
  · omega
  · omega

/-- The table lists the good blocks. -/
theorem createBbt_eq (mtd : MtdInfo) (isbad : ℕ → ℤ) :
  createBbt mtd isbad =
    ⟨some (good mtd isbad mtd.blockCount ++
      List.replicate (mtd.blockCount - (good mtd isbad mtd.blockCount).length) 0),
      mtd.blockCount, (good mtd isbad mtd.blockCount).length⟩
  := by
  have hcount : mtd.divByEb mtd.size = mtd.blockCount := mtd.divByEb_eq (Nat.le_refl _)
  have hlen := length_good_le mtd isbad mtd.blockCount
  have hitem : mtd.blockCount ≤ 256 ^ itemSize mtd.blockCount := lt_itemSize mtd.count_lt
  have hloop := foldl_createRound mtd isbad hitem (Nat.le_refl mtd.blockCount)
  rw [createBbt, hcount]
  dsimp only
  change (match (List.range mtd.blockCount).foldl (createRound mtd isbad (itemSize mtd.blockCount))
    (List.replicate mtd.blockCount 0, 0, 0) with
    | (bbt, badCount, _) => (⟨some bbt, mtd.blockCount, mtd.blockCount - badCount⟩ : MMtdData)) = _
  rw [hloop]
  dsimp only
  rw [Nat.sub_sub_self hlen]

/-- An item of the table is the good block at its place, and behind the last good block there is
none, unless the place is the first. -/
theorem getFromBbt_good {mtd : MtdInfo} {isbad : ℕ → ℤ} {n index : ℕ}
    (hsome : (good mtd isbad n).length ≠ 0) :
  getFromBbt (good mtd isbad n ++ List.replicate (n - (good mtd isbad n).length) 0) index =
    match (good mtd isbad n)[index]? with
    | some b => (b : ℤ)
    | none => -1
  := by
  rw [getFromBbt]
  cases hget : (good mtd isbad n)[index]? with
  | some b =>
      have hlt := (List.getElem?_eq_some_iff.mp hget).1
      have hle := (le_of_good mtd isbad hget).1
      rw [List.getD_append _ _ _ _ hlt, List.getD_eq_getElem?_getD, hget, Option.getD_some]
      dsimp only
      split
      · next hzero =>
        rw [if_neg (by omega), hzero]
        rfl
      · rfl
  | none =>
      have hge := List.getElem?_eq_none_iff.mp hget
      have hzero : ∀ k m : ℕ, (List.replicate m 0).getD k 0 = 0 := by
        intro k m
        rw [List.getD_eq_getElem?_getD, List.getElem?_replicate]
        split <;> rfl
      rw [List.getD_append_right _ _ _ _ hge, hzero, if_pos rfl, if_pos (by omega)]

/-! ### The device over all reads -/

/-- A read of a block, with what the flash answers while it goes on. What is read, or read with
bit flips that have been corrected, is what stands in the flash. -/
structure Access (mtd : MtdInfo) (blockSize : ℕ) where
  block : ℕ
  isbad : ℕ → ℤ
  flash : Bytes
  read : ℕ → ℕ → MtdRead
  inCapacity : (block + 1) * blockSize ≤ mtd.size
  length_flash : flash.length = mtd.size
  truthful : ∀ off len, (read off len).Fine len → (read off len).buf = slice flash off len

variable {mtd : MtdInfo} {blockSize : ℕ}

/-- The results of reads one after another. -/
def serve : MMtdData → List (Access mtd blockSize) → List (ℤ × Option Bytes)
  | _, [] => []
  | data, a :: accesses =>
    (readsect mtd blockSize a.isbad a.read data a.block).1 ::
      serve (readsect mtd blockSize a.isbad a.read data a.block).2 accesses

/-- The good blocks, one behind another. -/
def content (mtd : MtdInfo) (blocks : List ℕ) (flash : Bytes) : Bytes :=
  (blocks.map fun b => slice flash (b * mtd.erasesize) mtd.erasesize).flatten

/-- What the flash answers for the place of an access, which lies in the block `b`. -/
def Access.answer (a : Access mtd blockSize) (b : ℕ) : MtdRead :=
  a.read (b * mtd.erasesize + a.block * blockSize % mtd.erasesize) blockSize

/-- What a read from some blocks comes to: behind the last one it fails, and before that it gives
what stands there if the flash can read it in the block of the place, and else it fails. -/
structure Serves (blocks : List ℕ) (a : Access mtd blockSize) (r : ℤ × Option Bytes) : Prop where
  behind : (content mtd blocks a.flash).length ≤ a.block * blockSize → r = (-EOVERFLOW, none)
  before : a.block * blockSize < (content mtd blocks a.flash).length →
    ∃ b, blocks[a.block * blockSize / mtd.erasesize]? = some b ∧
      ((a.answer b).Fine blockSize →
        r = (0, some (slice (content mtd blocks a.flash) (a.block * blockSize) blockSize))) ∧
      (¬ (a.answer b).Fine blockSize → r = (1, none))

section

variable {blocks : List ℕ} {flash : Bytes}

theorem length_block_of_lt (hflash : flash.length = mtd.size) {b : ℕ} (hb : b < mtd.blockCount) :
  (slice flash (b * mtd.erasesize) mtd.erasesize).length = mtd.erasesize
  := by
  apply length_slice
  have hle := Nat.mul_le_mul_right mtd.erasesize (Nat.succ_le_of_lt hb)
  have hdiv := Nat.div_mul_le_self mtd.size mtd.erasesize
  rw [Nat.succ_mul] at hle
  rw [hflash]
  exact hle.trans hdiv

theorem length_content (hflash : flash.length = mtd.size)
    (hblocks : ∀ b ∈ blocks, b < mtd.blockCount) :
  (content mtd blocks flash).length = blocks.length * mtd.erasesize
  := by
  induction blocks with
  | nil => exact (Nat.zero_mul _).symm
  | cons b blocks ih =>
      obtain ⟨hb, hblocks⟩ := List.forall_mem_cons.mp hblocks
      have hrest := ih hblocks
      rw [content] at hrest
      rw [content, List.map_cons, List.flatten_cons, List.length_append, hrest,
        length_block_of_lt hflash hb, List.length_cons, Nat.succ_mul, Nat.add_comm]

/-- What stands in the block at a place stands in the device at the place. -/
theorem slice_content (hflash : flash.length = mtd.size)
    (hblocks : ∀ b ∈ blocks, b < mtd.blockCount) {i b delta len : ℕ} (hb : blocks[i]? = some b)
    (hdelta : delta + len ≤ mtd.erasesize) :
  slice (content mtd blocks flash) (i * mtd.erasesize + delta) len =
    slice flash (b * mtd.erasesize + delta) len
  := by
  obtain ⟨hi, hget⟩ := List.getElem?_eq_some_iff.mp hb
  have hmap : i < (blocks.map fun b => slice flash (b * mtd.erasesize) mtd.erasesize).length := by
    rwa [List.length_map]
  have hlen : (blocks.map fun b => slice flash (b * mtd.erasesize) mtd.erasesize)[i] =
      slice flash (b * mtd.erasesize) mtd.erasesize := by
    rw [List.getElem_map, hget]
  have hblock := length_block_of_lt hflash (hblocks b (List.mem_of_getElem? hb))
  have hfront : ((blocks.map fun b => slice flash (b * mtd.erasesize) mtd.erasesize).take
      i).flatten.length = i * mtd.erasesize := by
    rw [← List.map_take]
    have hfirst : ∀ b ∈ blocks.take i, b < mtd.blockCount :=
      fun b hb => hblocks b (List.mem_of_mem_take hb)
    have h := length_content hflash hfirst
    rw [content, List.length_take_of_le (Nat.le_of_lt hi)] at h
    exact h
  have hinside : delta + len ≤
      (blocks.map fun b => slice flash (b * mtd.erasesize) mtd.erasesize)[i].length := by
    rwa [hlen, hblock]
  have hslice := slice_flatten hmap hinside
  rw [hfront, hlen, slice_slice _ _ hdelta] at hslice
  rw [content, hslice]

end

section

variable {r : MtdRead}

theorem read_of_fine (data : MMtdData) (h : r.Fine blockSize) :
  (if r.err ≠ 0 then
      if isBitflip r.err ∧ blockSize = r.retlen then ((0, some r.buf), data)
      else (((1 : ℤ), none), data)
    else ((0, some r.buf), data)) = ((0, some r.buf), data)
  := by
  rcases h with h | h
  · rw [if_neg (not_not.mpr h)]
  · rw [if_pos h, ite_self]

theorem read_of_not_fine (data : MMtdData) (h : ¬ r.Fine blockSize) :
  (if r.err ≠ 0 then
      if isBitflip r.err ∧ blockSize = r.retlen then (((0 : ℤ), some r.buf), data)
      else ((1, none), data)
    else ((0, some r.buf), data)) = ((1, none), data)
  := by
  rw [MtdRead.Fine, not_or] at h
  rw [if_pos h.1, if_neg h.2]

end

/-- A block of the device does not reach over the end of an erase block. -/
theorem mod_add_le {n size erasesize : ℕ} (hpos : 0 < erasesize) (hdvd : size ∣ erasesize) :
  n * size % erasesize + size ≤ erasesize
  := by
  obtain ⟨k, rfl⟩ := hdvd
  have hk : 0 < k := Nat.pos_of_mul_pos_left hpos
  have hlt := Nat.mod_lt n hk
  have hle := Nat.mul_le_mul_left size (Nat.succ_le_of_lt hlt)
  rw [Nat.mul_comm n, Nat.mul_mod_mul_left]
  rwa [Nat.mul_succ] at hle

/-- One read over a table that lists the good blocks. -/
theorem readsect_table {isbad : ℕ → ℤ} (a : Access mtd blockSize) (hsize : mtd.size ≤ 2 ^ 32)
    (hdvd : blockSize ∣ mtd.erasesize) (hpos : 0 < blockSize) {data : MMtdData}
    (hdata : data = createBbt mtd isbad) :
  Serves (good mtd isbad mtd.blockCount) a
      (readsect mtd blockSize a.isbad a.read data a.block).1 ∧
    (readsect mtd blockSize a.isbad a.read data a.block).2 = data
  := by
  have hblocks : ∀ b ∈ good mtd isbad mtd.blockCount, b < mtd.blockCount :=
    fun b hb => List.mem_range.mp (List.mem_of_mem_filter hb)
  have hcontent := length_content a.length_flash hblocks
  have hcapacity := a.inCapacity
  rw [Nat.succ_mul] at hcapacity
  have hu64 : a.block * blockSize % 2 ^ 64 = a.block * blockSize := Nat.mod_eq_of_lt (by omega)
  have hindex : mtd.divByEb (a.block * blockSize) = a.block * blockSize / mtd.erasesize :=
    mtd.divByEb_eq (by omega)
  subst hdata
  rw [readsect, createBbt_eq, hu64, hindex]
  simp only [Option.isNone_some, Option.getD_some, Bool.false_eq_true, if_false]
  rcases Nat.eq_zero_or_pos (good mtd isbad mtd.blockCount).length with hnone | hsome
  · rw [if_pos hnone]
    refine ⟨⟨fun _ => rfl, ?_⟩, rfl⟩
    intro hlt
    rw [hcontent, hnone] at hlt
    omega
  · rw [if_neg (Nat.ne_of_gt hsome), getFromBbt_good (Nat.ne_of_gt hsome)]
    cases hget : (good mtd isbad mtd.blockCount)[a.block * blockSize / mtd.erasesize]? with
    | none =>
        have hge := List.getElem?_eq_none_iff.mp hget
        have hlen := (Nat.le_div_iff_mul_le mtd.erasesize_pos).mp hge
        rw [if_pos (by decide)]
        refine ⟨⟨fun _ => rfl, ?_⟩, rfl⟩
        intro hlt
        rw [hcontent] at hlt
        omega
    | some b =>
        have hb := hblocks b (List.mem_of_getElem? hget)
        have hlt := (List.getElem?_eq_some_iff.mp hget).1
        have hinside : a.block * blockSize <
            (content mtd (good mtd isbad mtd.blockCount) a.flash).length := by
          rw [hcontent]
          exact (Nat.div_lt_iff_lt_mul mtd.erasesize_pos).mp hlt
        have hdelta := mod_add_le (n := a.block) mtd.erasesize_pos hdvd
        have hoff : (b * mtd.erasesize + a.block * blockSize % mtd.erasesize) % 2 ^ 32 =
            b * mtd.erasesize + a.block * blockSize % mtd.erasesize := by
          have hmul := Nat.mul_le_mul_right mtd.erasesize (Nat.succ_le_of_lt hb)
          have hdiv := Nat.div_mul_le_self mtd.size mtd.erasesize
          have hmod := Nat.mod_lt (a.block * blockSize) mtd.erasesize_pos
          rw [MtdInfo.blockCount, Nat.succ_mul] at hmul
          exact Nat.mod_eq_of_lt (by omega)
        have hslice := slice_content a.length_flash hblocks hget hdelta
        rw [Nat.mul_comm (a.block * blockSize / mtd.erasesize), Nat.div_add_mod] at hslice
        have htruthful : (a.answer b).Fine blockSize → (a.answer b).buf =
            slice a.flash (b * mtd.erasesize + a.block * blockSize % mtd.erasesize) blockSize :=
          a.truthful _ _
        dsimp only
        rw [if_neg (by omega), Int.toNat_natCast, MtdInfo.modByEb, hoff, ← Access.answer]
        by_cases hfine : (a.answer b).Fine blockSize
        · rw [read_of_fine _ hfine, htruthful hfine, ← hslice]
          exact ⟨⟨fun hle => absurd hinside (Nat.not_lt.mpr hle),
            fun _ => ⟨b, hget, fun _ => rfl, fun hnot => absurd hfine hnot⟩⟩, rfl⟩
        · rw [read_of_not_fine _ hfine]
          exact ⟨⟨fun hle => absurd hinside (Nat.not_lt.mpr hle),
            fun _ => ⟨b, hget, fun h => absurd h hfine, fun _ => rfl⟩⟩, rfl⟩

/-- Over a table that has been made, every read comes from the good blocks that it lists. -/
theorem serve_table {isbad : ℕ → ℤ} (hsize : mtd.size ≤ 2 ^ 32)
    (hdvd : blockSize ∣ mtd.erasesize) (hpos : 0 < blockSize)
    (accesses : List (Access mtd blockSize)) :
  List.Forall₂ (Serves (good mtd isbad mtd.blockCount)) accesses
    (serve (createBbt mtd isbad) accesses)
  := by
  induction accesses with
  | nil => exact .nil
  | cons a accesses ih =>
      obtain ⟨hserves, hdata⟩ := readsect_table a hsize hdvd hpos (rfl : createBbt mtd isbad = _)
      rw [serve, hdata]
      exact .cons hserves ih

/-- The first read makes the table and is served from it. -/
theorem readsect_fresh (isbad : ℕ → ℤ) (read : ℕ → ℕ → MtdRead) (block : ℕ) :
  readsect mtd blockSize isbad read .fresh block =
    readsect mtd blockSize isbad read (createBbt mtd isbad) block
  := by
  rw [readsect, readsect, createBbt_eq]
  rfl

/-- All reads of a new device are served from one list of blocks, those that were good at the
first read, in any order and whatever becomes of the blocks. -/
theorem serve_fresh (hsize : mtd.size ≤ 2 ^ 32) (hdvd : blockSize ∣ mtd.erasesize)
    (hpos : 0 < blockSize) (first : Access mtd blockSize)
    (accesses : List (Access mtd blockSize)) :
  List.Forall₂ (Serves (good mtd first.isbad mtd.blockCount)) (first :: accesses)
    (serve .fresh (first :: accesses))
  := by
  have h := @serve_table mtd blockSize first.isbad hsize hdvd hpos (first :: accesses)
  rw [serve] at h ⊢
  rw [readsect_fresh]
  exact h

/-- Two erase blocks of four bytes. -/
def smallMtd : MtdInfo := ⟨8, 4, Nat.succ_pos 3, by decide, by decide, by decide⟩

/-- A read of two bytes from a flash whose first erase block is bad. -/
def smallAccess (block : ℕ) (h : (block + 1) * 2 ≤ 8) : Access smallMtd 2 where
  block := block
  isbad off := if off = 0 then 1 else 0
  flash := [0, 0, 0, 0, 1, 2, 3, 4]
  read off len := ⟨0, len, slice [0, 0, 0, 0, 1, 2, 3, 4] off len⟩
  inCapacity := h
  length_flash := rfl
  truthful _ _ _ := rfl

theorem serve_fresh_small :
  List.Forall₂ (Serves [1]) [smallAccess 1 (by decide), smallAccess 2 (by decide)]
    (serve .fresh [smallAccess 1 (by decide), smallAccess 2 (by decide)])
  := serve_fresh (by decide) (by decide) (by decide) (smallAccess 1 (by decide))
    [smallAccess 2 (by decide)]

end MtdblockBbtRo

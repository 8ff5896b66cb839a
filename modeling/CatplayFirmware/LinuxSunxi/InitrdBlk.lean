import CatplayFirmware.Support.FlatMemory

/-!
# The block device of the initrd

The initrd that is left in memory is a block device. Its bytes are copied to and from the segments
of a request, or handed out by the page. Sectors are numbered with 64 bits, but the offsets and
sizes of the initrd, as the addresses of the memory, are of 32 bits.
-/

namespace InitrdBlk

open Bytes FlatMemory

abbrev Memory := FlatMemory 32

def enodev : ℤ := -19

def einval : ℤ := -22

def erange : ℤ := -34

/-- `struct initrd_device`: where the initrd is, and its size. -/
structure InitrdDevice where
  start : BitVec 32
  size : BitVec 32
  deriving DecidableEq

/-- `initrd_blk_init`, as far as it depends on the initrd. -/
def initrdBlkInit (initrdStart initrdEnd : BitVec 32) : Except ℤ InitrdDevice :=
  if initrdStart = 0 ∨ initrdEnd = 0 then .error enodev
  else if initrdStart &&& 4095 ≠ 0 then .error einval
  else if (initrdEnd - initrdStart) &&& 4095 ≠ 0 then .error einval
  else .ok ⟨initrdStart, initrdEnd - initrdStart⟩

/-- A request. The bytes of its segments are counted by 32 bits, and are whole sectors. -/
structure Bio where
  write : Bool
  sector : BitVec 64
  lens : List ℕ
  size_lt : lens.sum < 2 ^ 32
  sectors : 512 ∣ lens.sum

/-- What a request leaves: the memory, what its segments hold, and whether it ended without an
error. -/
structure Completion where
  mem : Memory
  segs : List Bytes
  ok : Bool

/-- The loop of `initrd_submit_bio` over the segments, while bytes are left. -/
def submitLoop (initrdStart : BitVec 32) (dev : InitrdDevice) (write : Bool) (mem : Memory)
    (sector : BitVec 64) : List Bytes → Completion
  | [] => ⟨mem, [], true⟩
  | seg :: segs =>
    if (seg :: segs).flatten.length = 0 then ⟨mem, seg :: segs, true⟩
    else
      let len := BitVec.ofNat 32 seg.length
      let offset := (sector <<< 9).setWidth 32
      if dev.size < offset + len then ⟨mem, seg :: segs, false⟩
      else
        let next := sector + (len >>> 9).setWidth 64
        if write then
          let r := submitLoop initrdStart dev write (store mem (initrdStart + offset) seg) next segs
          ⟨r.mem, seg :: r.segs, r.ok⟩
        else
          let r := submitLoop initrdStart dev write mem next segs
          ⟨r.mem, load mem (initrdStart + offset) seg.length :: r.segs, r.ok⟩

/-- `initrd_submit_bio`, with what the segments hold before. -/
def submitBio (initrdStart : BitVec 32) (dev : InitrdDevice) (mem : Memory) (bio : Bio)
    (segs : List Bytes) : Completion :=
  if initrdStart = 0 then ⟨mem, segs, false⟩
  else submitLoop initrdStart dev bio.write mem bio.sector segs

/-- What is handed out: the number of pages, the address, and the number of its page frame. -/
structure DirectAccess where
  nrPages : BitVec 32
  kaddr : BitVec 32
  pfn : BitVec 32
  deriving DecidableEq

/-- `initrd_dax_direct_access`, where `pa` is the physical address of an address. The number of
pages is a signed word. -/
def daxDirectAccess (pa : BitVec 32 → BitVec 32) (initrdStart : BitVec 32) (dev : InitrdDevice)
    (pgoff nrPages : BitVec 32) : Except ℤ DirectAccess :=
  let offset := pgoff <<< 12
  if dev.size < offset + nrPages <<< 12 then .error erange
  else if initrdStart = 0 then .error enodev
  else .ok ⟨nrPages, initrdStart + offset, pa (initrdStart + offset) >>> 12⟩

/-! ### What the device should do -/

/-- The bytes of the initrd. -/
def image (dev : InitrdDevice) (mem : Memory) : Bytes := load mem dev.start dev.size.toNat

/-- A request that ends without an error is inside the initrd. A read fills the segments with the
bytes of the initrd from its sector on; a write replaces them by those of the segments, and nothing
else is written. -/
def BioCorrect (initrdStart : BitVec 32) (dev : InitrdDevice) (bio : Bio) : Prop :=
  ∀ mem segs, segs.map List.length = bio.lens →
    let r := submitBio initrdStart dev mem bio segs
    let off := 512 * bio.sector.toNat
    r.ok = true → (∀ i < bio.lens.sum, off + i < dev.size.toNat) ∧
      if bio.write then
        r.segs = segs ∧ image dev r.mem = overwrite (image dev mem) off segs.flatten ∧
          ∀ x, dev.size.toNat ≤ (x - dev.start).toNat → r.mem x = mem x
      else
        r.mem = mem ∧ r.segs.map List.length = bio.lens ∧
          r.segs.flatten = slice (image dev mem) off bio.lens.sum

/-- A request that reads a page. -/
def pageBio (page : ℕ) : Bio where
  write := false
  sector := BitVec.ofNat 64 (8 * page)
  lens := [4096]
  size_lt := by decide
  sectors := by decide

/-- Pages that are handed out are pages of the initrd, and a read of one of them gives the bytes at
its address. -/
def DaxCorrect (pa : BitVec 32 → BitVec 32) (initrdStart : BitVec 32) (dev : InitrdDevice)
    (pgoff nrPages : BitVec 32) : Prop :=
  ∀ access, daxDirectAccess pa initrdStart dev pgoff nrPages = .ok access →
    access.nrPages = nrPages ∧ access.pfn = pa access.kaddr >>> 12 ∧
    ∀ k < nrPages.toInt.toNat,
      4096 * (pgoff.toNat + k) + 4096 ≤ dev.size.toNat ∧
      ∀ mem seg, seg.length = 4096 →
        submitBio initrdStart dev mem (pageBio (pgoff.toNat + k)) [seg] =
          ⟨mem, [load mem (access.kaddr + BitVec.ofNat 32 (4096 * k)) 4096], true⟩

/-! ### Conditions on requests -/

/-- The end of some segment is behind the initrd, as it is computed: from the whole sectors of the
segments before it, with 32 bits. -/
def Refused (dev : InitrdDevice) (sector : ℕ) (lens : List ℕ) : Prop :=
  ∃ front len back, lens = front ++ len :: back ∧ 0 < len + back.sum ∧
    dev.size.toNat < (512 * (sector + (front.map (· / 512)).sum) + len) % 2 ^ 32

/-- A request is inside the initrd, and all of its segments are whole sectors. -/
def Aligned (dev : InitrdDevice) (bio : Bio) : Prop :=
  (bio.lens.sum = 0 ∨ 512 * bio.sector.toNat + bio.lens.sum ≤ dev.size.toNat) ∧
    ∀ len ∈ bio.lens, 512 ∣ len

theorem not_refused_nil (dev : InitrdDevice) (sector : ℕ) : ¬ Refused dev sector [] := by
  rintro ⟨front, len, back, hlens, -⟩
  cases front <;> cases hlens

theorem refused_cons (dev : InitrdDevice) (sector len : ℕ) (lens : List ℕ) :
  Refused dev sector (len :: lens) ↔
    (0 < len + lens.sum ∧ dev.size.toNat < (512 * sector + len) % 2 ^ 32) ∨
      Refused dev (sector + len / 512) lens
  := by
  constructor
  · rintro ⟨front, len', back, hlens, hpos, hend⟩
    cases front with
    | nil =>
        cases hlens
        exact .inl ⟨hpos, hend⟩
    | cons first front =>
        cases hlens
        right
        rw [List.map_cons, List.sum_cons, ← Nat.add_assoc] at hend
        exact ⟨front, len', back, rfl, hpos, hend⟩
  · rintro (⟨hpos, hend⟩ | ⟨front, len', back, rfl, hpos, hend⟩)
    · exact ⟨[], len, lens, rfl, hpos, hend⟩
    · refine ⟨len :: front, len', back, rfl, hpos, ?_⟩
      rwa [List.map_cons, List.sum_cons, ← Nat.add_assoc]

/-! ### A step of the loop -/

theorem offset_eq (s : ℕ) :
  (BitVec.ofNat 64 s <<< 9).setWidth 32 = BitVec.ofNat 32 (512 * s)
  := by
  apply BitVec.eq_of_toNat_eq
  rw [BitVec.toNat_setWidth, BitVec.toNat_shiftLeft, BitVec.toNat_ofNat, BitVec.toNat_ofNat,
    Nat.shiftLeft_eq]
  omega

theorem next_eq (s : ℕ) {len : ℕ} (h : len < 2 ^ 32) :
  BitVec.ofNat 64 s + (BitVec.ofNat 32 len >>> 9).setWidth 64 = BitVec.ofNat 64 (s + len / 512)
  := by
  apply BitVec.eq_of_toNat_eq
  rw [BitVec.toNat_add, BitVec.toNat_setWidth, BitVec.toNat_ushiftRight, BitVec.toNat_ofNat,
    BitVec.toNat_ofNat, BitVec.toNat_ofNat, Nat.shiftRight_eq_div_pow]
  omega

theorem size_lt_iff (dev : InitrdDevice) (s len : ℕ) :
  dev.size < BitVec.ofNat 32 (512 * s) + BitVec.ofNat 32 len ↔
    dev.size.toNat < (512 * s + len) % 2 ^ 32
  := by
  rw [← BitVec.ofNat_add, BitVec.lt_def, BitVec.toNat_ofNat]

section

variable {st : BitVec 32} {dev : InitrdDevice} {write : Bool} {mem : Memory} {s : ℕ} {seg : Bytes}
  {segs : List Bytes}

/-- When no bytes are left, the loop ends. -/
theorem submitLoop_done (h : segs.flatten.length = 0) :
  submitLoop st dev write mem (BitVec.ofNat 64 s) segs = ⟨mem, segs, true⟩
  := by
  cases segs with
  | nil => rfl
  | cons seg segs => rw [submitLoop, if_pos h]

section

variable (hleft : 0 < (seg :: segs).flatten.length) (hlen : seg.length < 2 ^ 32)

include hleft

theorem submitLoop_refused (h : dev.size.toNat < (512 * s + seg.length) % 2 ^ 32) :
  submitLoop st dev write mem (BitVec.ofNat 64 s) (seg :: segs) = ⟨mem, seg :: segs, false⟩
  := by
  rw [submitLoop, if_neg (Nat.ne_of_gt hleft)]
  simp only
  rw [offset_eq, if_pos ((size_lt_iff dev s seg.length).mpr h)]

include hlen

theorem submitLoop_write (h : ¬ dev.size.toNat < (512 * s + seg.length) % 2 ^ 32) :
  submitLoop st dev true mem (BitVec.ofNat 64 s) (seg :: segs) =
    let r := submitLoop st dev true (store mem (st + BitVec.ofNat 32 (512 * s)) seg)
      (BitVec.ofNat 64 (s + seg.length / 512)) segs
    ⟨r.mem, seg :: r.segs, r.ok⟩
  := by
  rw [submitLoop, if_neg (Nat.ne_of_gt hleft)]
  simp only
  rw [offset_eq, if_neg (mt (size_lt_iff dev s seg.length).mp h), next_eq s hlen, if_pos trivial]

theorem submitLoop_read (h : ¬ dev.size.toNat < (512 * s + seg.length) % 2 ^ 32) :
  submitLoop st dev false mem (BitVec.ofNat 64 s) (seg :: segs) =
    let r := submitLoop st dev false mem (BitVec.ofNat 64 (s + seg.length / 512)) segs
    ⟨r.mem, load mem (st + BitVec.ofNat 32 (512 * s)) seg.length :: r.segs, r.ok⟩
  := by
  rw [submitLoop, if_neg (Nat.ne_of_gt hleft)]
  simp only
  rw [offset_eq, if_neg (mt (size_lt_iff dev s seg.length).mp h), next_eq s hlen,
    if_neg Bool.false_ne_true]

end

/-- The loop ends without an error exactly if it is not refused. -/
theorem submitLoop_ok_iff (h : segs.flatten.length < 2 ^ 32) :
  (submitLoop st dev write mem (BitVec.ofNat 64 s) segs).ok = true ↔
    ¬ Refused dev s (segs.map List.length)
  := by
  induction segs generalizing mem s with
  | nil => exact iff_of_true rfl (not_refused_nil dev s)
  | cons seg segs ih =>
      have hsum : (seg :: segs).flatten.length = seg.length + segs.flatten.length := by
        rw [List.flatten_cons, List.length_append]
      rw [List.map_cons, refused_cons, ← List.length_flatten, ← hsum, not_or]
      rcases Nat.eq_zero_or_pos (seg :: segs).flatten.length with hzero | hpos
      · have hrest : segs.flatten.length = 0 := by omega
        rw [submitLoop_done hzero]
        have hnot := (@ih mem (s + seg.length / 512) (by omega)).mp (by rw [submitLoop_done hrest])
        exact iff_of_true rfl ⟨fun hand => Nat.ne_of_gt hand.1 hzero, hnot⟩
      · by_cases hend : dev.size.toNat < (512 * s + seg.length) % 2 ^ 32
        · rw [submitLoop_refused hpos hend]
          exact iff_of_false Bool.false_ne_true fun hand => hand.1 ⟨hpos, hend⟩
        · have hnot : ¬ (0 < (seg :: segs).flatten.length ∧
              dev.size.toNat < (512 * s + seg.length) % 2 ^ 32) := fun hand => hend hand.2
          cases write with
          | false =>
              rw [submitLoop_read hpos (by omega) hend, ih (by omega)]
              exact (and_iff_right hnot).symm
          | true =>
              rw [submitLoop_write hpos (by omega) hend, ih (by omega)]
              exact (and_iff_right hnot).symm

end

/-! ### Segments of whole sectors -/

section

variable {dev : InitrdDevice} {mem : Memory} {s : ℕ} {segs : List Bytes}
  (hlens : ∀ len ∈ segs.map List.length, 512 ∣ len)
  (hsize : 512 * s + segs.flatten.length ≤ dev.size.toNat)

include hlens hsize

/-- A request inside the initrd whose segments are whole sectors reads what is there. -/
theorem submitLoop_read_aligned :
  let r := submitLoop dev.start dev false mem (BitVec.ofNat 64 s) segs
  r.mem = mem ∧ r.segs.map List.length = segs.map List.length ∧
    r.segs.flatten = slice (image dev mem) (512 * s) segs.flatten.length
  := by
  have hlt := dev.size.isLt
  induction segs generalizing s with
  | nil => exact ⟨rfl, rfl, (slice_zero _ _).symm⟩
  | cons seg segs ih =>
      have hsum : (seg :: segs).flatten.length = seg.length + segs.flatten.length := by
        rw [List.flatten_cons, List.length_append]
      rcases Nat.eq_zero_or_pos (seg :: segs).flatten.length with hzero | hpos
      · rw [submitLoop_done hzero, hzero, slice_zero]
        exact ⟨rfl, rfl, List.length_eq_zero_iff.mp hzero⟩
      · rw [List.map_cons] at hlens
        obtain ⟨hseg, hrest⟩ := List.forall_mem_cons.mp hlens
        have hnext : 512 * (s + seg.length / 512) = 512 * s + seg.length := by
          rw [Nat.mul_add, Nat.mul_div_cancel' hseg]
        obtain ⟨hmem, hmap, hflat⟩ := @ih (s + seg.length / 512) hrest (by omega)
        rw [submitLoop_read hpos (by omega) (by rw [Nat.mod_eq_of_lt] <;> omega)]
        refine ⟨hmem, ?_, ?_⟩
        · simp only
          rw [List.map_cons, List.map_cons, hmap, length_load]
        · simp only
          rw [List.flatten_cons, hflat, load_offset mem (n := dev.size.toNat) (by omega), hnext,
            hsum, slice_add]
          rfl

/-- A request inside the initrd whose segments are whole sectors writes what is in them. -/
theorem submitLoop_write_aligned :
  let r := submitLoop dev.start dev true mem (BitVec.ofNat 64 s) segs
  r.segs = segs ∧ image dev r.mem = overwrite (image dev mem) (512 * s) segs.flatten ∧
    ∀ x, dev.size.toNat ≤ (x - dev.start).toNat → r.mem x = mem x
  := by
  have hlt := dev.size.isLt
  induction segs generalizing s mem with
  | nil => exact ⟨rfl, (overwrite_nil _ _).symm, fun _ _ => rfl⟩
  | cons seg segs ih =>
      have hsum : (seg :: segs).flatten.length = seg.length + segs.flatten.length := by
        rw [List.flatten_cons, List.length_append]
      rcases Nat.eq_zero_or_pos (seg :: segs).flatten.length with hzero | hpos
      · rw [submitLoop_done hzero, List.length_eq_zero_iff.mp hzero, overwrite_nil]
        exact ⟨rfl, rfl, fun _ _ => rfl⟩
      · rw [List.map_cons] at hlens
        obtain ⟨hseg, hrest⟩ := List.forall_mem_cons.mp hlens
        have hnext : 512 * (s + seg.length / 512) = 512 * s + seg.length := by
          rw [Nat.mul_add, Nat.mul_div_cancel' hseg]
        obtain ⟨hsegs, himage, hframe⟩ := @ih
          (store mem (dev.start + BitVec.ofNat 32 (512 * s)) seg) (s + seg.length / 512) hrest
          (by omega)
        have hoff : 512 * s ≤ (image dev mem).length := by
          rw [image, length_load]
          omega
        rw [submitLoop_write hpos (by omega) (by rw [Nat.mod_eq_of_lt] <;> omega)]
        refine ⟨congrArg (seg :: ·) hsegs, ?_, ?_⟩
        · simp only
          rw [himage, hnext, image, load_store mem hlt (by omega), ← image,
            overwrite_overwrite hoff, List.flatten_cons]
        · intro x hx
          rw [hframe x hx, store_outside_region mem hlt (by omega) hx]

end

/-! ### Segments that are not whole sectors -/

/-- Every segment ends before an offset, as the loop counts the sectors. -/
def EndsBefore (last : ℕ) : ℕ → List ℕ → Prop
  | _, [] => True
  | s, len :: lens => 512 * s + len ≤ last ∧ EndsBefore last (s + len / 512) lens

/-- The loop does not count further than it copies. -/
theorem endsBefore_of_le {last s : ℕ} {lens : List ℕ} (h : 512 * s + lens.sum ≤ last) :
  EndsBefore last s lens
  := by
  induction lens generalizing s with
  | nil => trivial
  | cons len lens ih =>
      rw [List.sum_cons] at h
      refine ⟨by omega, ih ?_⟩
      omega

theorem sum_pos_of_mem {lens : List ℕ} {len : ℕ} (hmem : len ∈ lens) (hpos : 0 < len) :
  0 < lens.sum
  := by
  obtain ⟨front, back, rfl⟩ := List.append_of_mem hmem
  rw [List.sum_append, List.sum_cons]
  omega

/-- When a segment is not whole sectors, the loop falls behind, and the last byte is not reached. -/
theorem endsBefore_of_misaligned {last s len : ℕ} {lens : List ℕ}
    (h : 512 * s + lens.sum = last + 1) (hdvd : 512 ∣ lens.sum) (hmem : len ∈ lens)
    (hlen : ¬ 512 ∣ len) :
  EndsBefore last s lens
  := by
  induction lens generalizing s with
  | nil => cases hmem
  | cons first lens ih =>
      rw [List.sum_cons] at h hdvd
      by_cases hfirst : 512 ∣ first
      · have hrest : len ∈ lens := by
          rcases List.mem_cons.mp hmem with rfl | hrest
          · exact absurd hfirst hlen
          · exact hrest
        have hpos : 0 < len := by
          apply Nat.pos_of_ne_zero
          rintro rfl
          exact hlen (Nat.dvd_zero 512)
        have hsum := sum_pos_of_mem hrest hpos
        refine ⟨by omega, ih ?_ ((Nat.dvd_add_right hfirst).mp hdvd) hrest⟩
        omega
      · refine ⟨by omega, endsBefore_of_le ?_⟩
        omega

section

variable {dev : InitrdDevice} {mem : Memory} {s last : ℕ} {segs : List Bytes}
  (hlast : last < 2 ^ 32) (hends : EndsBefore last s (segs.map List.length))
  (hsize : segs.flatten.length < 2 ^ 32)

include hlast hends hsize

/-- A byte behind all segments is not written. -/
theorem submitLoop_write_behind :
  (submitLoop dev.start dev true mem (BitVec.ofNat 64 s) segs).mem
    (dev.start + BitVec.ofNat 32 last) = mem (dev.start + BitVec.ofNat 32 last)
  := by
  induction segs generalizing s mem with
  | nil => rfl
  | cons seg segs ih =>
      have hsum : (seg :: segs).flatten.length = seg.length + segs.flatten.length := by
        rw [List.flatten_cons, List.length_append]
      rcases Nat.eq_zero_or_pos (seg :: segs).flatten.length with hzero | hpos
      · rw [submitLoop_done hzero]
      · obtain ⟨hend, hrest⟩ := hends
        by_cases hrefused : dev.size.toNat < (512 * s + seg.length) % 2 ^ 32
        · rw [submitLoop_refused hpos hrefused]
        · rw [submitLoop_write hpos (by omega) hrefused]
          simp only
          rw [ih hrest (by omega)]
          apply store_of_outside mem (by omega) (by omega)
          rw [toNat_offset_sub dev.start hlast]
          exact .inr hend

/-- A byte behind all segments is not read. -/
theorem submitLoop_read_behind (b : UInt8) :
  (submitLoop dev.start dev false (Function.update mem (dev.start + BitVec.ofNat 32 last) b)
      (BitVec.ofNat 64 s) segs).segs =
    (submitLoop dev.start dev false mem (BitVec.ofNat 64 s) segs).segs
  := by
  induction segs generalizing s with
  | nil => rfl
  | cons seg segs ih =>
      have hsum : (seg :: segs).flatten.length = seg.length + segs.flatten.length := by
        rw [List.flatten_cons, List.length_append]
      rcases Nat.eq_zero_or_pos (seg :: segs).flatten.length with hzero | hpos
      · rw [submitLoop_done hzero, submitLoop_done hzero]
      · obtain ⟨hend, hrest⟩ := hends
        by_cases hrefused : dev.size.toNat < (512 * s + seg.length) % 2 ^ 32
        · rw [submitLoop_refused hpos hrefused, submitLoop_refused hpos hrefused]
        · rw [submitLoop_read hpos (by omega) hrefused, submitLoop_read hpos (by omega) hrefused]
          simp only
          rw [ih hrest (by omega), load_update mem b hend hlast]

end

/-! ### When the device is correct -/

/-- Segments that hold the same byte everywhere. -/
def filled (lens : List ℕ) (b : UInt8) : List Bytes := lens.map (List.replicate · b)

theorem length_filled (lens : List ℕ) (b : UInt8) :
  (filled lens b).map List.length = lens
  := by
  rw [filled, List.map_map]
  conv_rhs => rw [← List.map_id lens]
  apply List.map_congr_left
  intro len _
  exact List.length_replicate

theorem flatten_filled (lens : List ℕ) (b : UInt8) :
  (filled lens b).flatten = List.replicate lens.sum b
  := by
  induction lens with
  | nil => rfl
  | cons len lens ih =>
      rw [List.sum_cons, ← List.replicate_append_replicate, ← ih]
      rfl

theorem length_flatten_eq {segs : List Bytes} {lens : List ℕ} (h : segs.map List.length = lens) :
  segs.flatten.length = lens.sum
  := by rw [← h, List.length_flatten]

section

variable {dev : InitrdDevice} {bio : Bio}

theorem submitBio_eq (hstart : dev.start ≠ 0) (mem : Memory) (segs : List Bytes) :
  submitBio dev.start dev mem bio segs =
    submitLoop dev.start dev bio.write mem (BitVec.ofNat 64 bio.sector.toNat) segs
  := by
  rw [submitBio, if_neg hstart, BitVec.ofNat_toNat, BitVec.setWidth_eq]

theorem ok_iff (hstart : dev.start ≠ 0) (mem : Memory) {segs : List Bytes}
    (hlens : segs.map List.length = bio.lens) :
  (submitBio dev.start dev mem bio segs).ok = true ↔ ¬ Refused dev bio.sector.toNat bio.lens
  := by
  have hsize := bio.size_lt
  rw [← length_flatten_eq hlens] at hsize
  rw [submitBio_eq hstart, submitLoop_ok_iff hsize, hlens]

theorem getElem?_slice_image (mem : Memory) {off len i : ℕ} (hi : i < len)
    (h : off + i < dev.size.toNat) :
  (slice (image dev mem) off len)[i]? = some (mem (dev.start + BitVec.ofNat 32 (off + i)))
  := by
  rw [slice, List.getElem?_take_of_lt hi, List.getElem?_drop, image, getElem?_load _ _ h]

/-- An aligned request is correct. -/
theorem Aligned.correct (h : Aligned dev bio) (hstart : dev.start ≠ 0) :
  BioCorrect dev.start dev bio
  := by
  obtain ⟨hsize, hdvd⟩ := h
  intro mem segs hlens
  have hsum := length_flatten_eq hlens
  simp only
  intro _
  rw [submitBio_eq hstart]
  rcases Nat.eq_zero_or_pos bio.lens.sum with hzero | hpos
  · have hnil := List.length_eq_zero_iff.mp (hsum.trans hzero)
    refine ⟨fun i hi => absurd hi (by omega), ?_⟩
    rw [submitLoop_done (hsum.trans hzero)]
    split
    · rw [hnil, overwrite_nil]
      exact ⟨rfl, rfl, fun _ _ => rfl⟩
    · rw [hzero, slice_zero]
      exact ⟨rfl, hlens, hnil⟩
  · have hfits : 512 * bio.sector.toNat + segs.flatten.length ≤ dev.size.toNat := by omega
    refine ⟨fun i hi => by omega, ?_⟩
    cases hwrite : bio.write with
    | false =>
        obtain ⟨hmem, hmap, hflat⟩ := @submitLoop_read_aligned dev mem _ _ (hlens ▸ hdvd) hfits
        exact ⟨hmem, hmap.trans hlens, hsum ▸ hflat⟩
    | true => exact submitLoop_write_aligned (hlens ▸ hdvd) hfits

/-- A request that is not refused and has a segment that is not whole sectors is not correct. -/
theorem not_correct_of_misaligned (hstart : dev.start ≠ 0)
    (haccepted : ¬ Refused dev bio.sector.toNat bio.lens) {len : ℕ} (hmem : len ∈ bio.lens)
    (hlen : ¬ 512 ∣ len) :
  ¬ BioCorrect dev.start dev bio
  := by
  intro hcorrect
  have hsize := dev.size.isLt
  have hpos : 0 < bio.lens.sum := by
    apply sum_pos_of_mem hmem
    apply Nat.pos_of_ne_zero
    rintro rfl
    exact hlen (Nat.dvd_zero 512)
  have hrun (mem : Memory) (b : UInt8) := hcorrect mem (filled bio.lens b) (length_filled _ b)
    ((ok_iff hstart mem (length_filled _ b)).mpr haccepted)
  obtain ⟨last, hlast⟩ : ∃ last, last + 1 = 512 * bio.sector.toNat + bio.lens.sum :=
    ⟨512 * bio.sector.toNat + bio.lens.sum - 1, by omega⟩
  have hinside := (hrun (fun _ => 0) 0).1 (bio.lens.sum - 1) (by omega)
  have hends (b : UInt8) : EndsBefore last bio.sector.toNat
      ((filled bio.lens b).map List.length) := by
    rw [length_filled]
    exact endsBefore_of_misaligned hlast.symm bio.sectors hmem hlen
  have hbytes (b : UInt8) : (filled bio.lens b).flatten.length < 2 ^ 32 := by
    rw [length_flatten_eq (length_filled _ b)]
    exact bio.size_lt
  have hindex : 512 * bio.sector.toNat + (bio.lens.sum - 1) = last := by omega
  cases hwrite : bio.write with
  | false =>
      -- two memories that differ in the last byte only are read as the same
      obtain ⟨mem, hmem'⟩ : ∃ mem : Memory,
        mem = Function.update (fun _ => 0) (dev.start + BitVec.ofNat 32 last) 1 := ⟨_, rfl⟩
      obtain ⟨-, hzeros⟩ := hrun (fun _ => 0) 0
      obtain ⟨-, hone⟩ := hrun mem 0
      have hsame := @submitLoop_read_behind dev (fun _ => 0) _ _ _ (by omega) (hends 0) (hbytes 0) 1
      rw [← hmem'] at hsame
      rw [submitBio_eq hstart, hwrite] at hzeros hone
      have hread := hone.2.2.symm.trans ((congrArg List.flatten hsame).trans hzeros.2.2)
      have hbyte := congrArg (·[bio.lens.sum - 1]?) hread
      rw [getElem?_slice_image _ (by omega) hinside, getElem?_slice_image _ (by omega) hinside,
        hindex, hmem', Function.update_self] at hbyte
      exact absurd (Option.some.inj hbyte) (by decide)
  | true =>
      have hkept := @submitLoop_write_behind dev (fun _ => 0) _ _ _ (by omega) (hends 1) (hbytes 1)
      obtain ⟨-, hwritten⟩ := hrun (fun _ => 0) 1
      rw [submitBio_eq hstart, hwrite] at hwritten
      have hoff : 512 * bio.sector.toNat ≤ (image dev fun _ => 0).length := by
        rw [image, length_load]
        omega
      have hslice := congrArg (slice · (512 * bio.sector.toNat) bio.lens.sum) hwritten.2.1
      rw [← length_flatten_eq (length_filled bio.lens 1), slice_overwrite_self _ hoff,
        flatten_filled, List.length_replicate] at hslice
      have hbyte := congrArg (·[bio.lens.sum - 1]?) hslice
      rw [getElem?_slice_image _ (by omega) hinside, hindex, hkept,
        List.getElem?_replicate_of_lt (by omega)] at hbyte
      exact absurd (Option.some.inj hbyte) (by decide)

end

/-- A request is correct exactly if it is refused or aligned. -/
theorem bioCorrect_iff {st : BitVec 32} {dev : InitrdDevice} (hst : st = 0 ∨ st = dev.start)
    (bio : Bio) :
  BioCorrect st dev bio ↔
    st = 0 ∨ Refused dev bio.sector.toNat bio.lens ∨ Aligned dev bio
  := by
  by_cases hzero : st = 0
  · subst hzero
    refine iff_of_true (fun mem segs _ => ?_) (.inl rfl)
    simp only
    rw [submitBio, if_pos rfl]
    intro hok
    cases hok
  · obtain rfl := hst.resolve_left hzero
    constructor
    · intro hcorrect
      by_cases haccepted : Refused dev bio.sector.toNat bio.lens
      · exact .inr (.inl haccepted)
      · refine .inr (.inr ⟨?_, fun len hmem => ?_⟩)
        · have hrun := (hcorrect (fun _ => 0) (filled bio.lens 0) (length_filled _ 0)
            ((ok_iff hzero _ (length_filled _ 0)).mpr haccepted)).1 (bio.lens.sum - 1)
          omega
        · by_contra hlen
          exact not_correct_of_misaligned hzero haccepted hmem hlen hcorrect
    · rintro (h | hrefused | haligned)
      · exact absurd h hzero
      · intro mem segs hlens
        simp only
        intro hok
        exact absurd hrefused ((ok_iff hzero mem hlens).mp hok)
      · exact haligned.correct hzero

/-! ### Pages -/

/-- The end of the pages is behind the initrd, as it is computed with 32 bits. -/
def DaxRefused (dev : InitrdDevice) (pgoff nrPages : BitVec 32) : Prop :=
  dev.size.toNat < (4096 * pgoff.toNat + 4096 * nrPages.toNat) % 2 ^ 32

/-- The pages are inside the initrd. -/
def DaxInside (dev : InitrdDevice) (pgoff nrPages : BitVec 32) : Prop :=
  nrPages.toInt ≤ 0 ∨ 4096 * (pgoff.toNat + nrPages.toInt.toNat) ≤ dev.size.toNat

theorem toNat_shiftLeft_page (x : BitVec 32) : (x <<< 12).toNat = 4096 * x.toNat % 2 ^ 32 := by
  rw [BitVec.toNat_shiftLeft, Nat.shiftLeft_eq]
  omega

theorem dax_end (pgoff nrPages : BitVec 32) :
  (pgoff <<< 12 + nrPages <<< 12).toNat =
    (4096 * pgoff.toNat + 4096 * nrPages.toNat) % 2 ^ 32
  := by
  rw [BitVec.toNat_add, toNat_shiftLeft_page, toNat_shiftLeft_page, ← Nat.add_mod]

section

variable {pa : BitVec 32 → BitVec 32} {dev : InitrdDevice} {pgoff nrPages : BitVec 32}

theorem daxDirectAccess_refused (st : BitVec 32) (h : DaxRefused dev pgoff nrPages) :
  daxDirectAccess pa st dev pgoff nrPages = .error erange
  := by
  rw [daxDirectAccess, if_pos (BitVec.lt_def.mpr (by rwa [dax_end]))]

theorem daxDirectAccess_accepted (hstart : dev.start ≠ 0) (h : ¬ DaxRefused dev pgoff nrPages) :
  daxDirectAccess pa dev.start dev pgoff nrPages =
    .ok ⟨nrPages, dev.start + pgoff <<< 12, pa (dev.start + pgoff <<< 12) >>> 12⟩
  := by
  rw [daxDirectAccess, if_neg, if_neg hstart]
  rw [BitVec.lt_def, dax_end]
  exact h

/-- The pages of the initrd are read and handed out at the same addresses. -/
theorem submitBio_page (hstart : dev.start ≠ 0) {k : ℕ}
    (h : 4096 * (pgoff.toNat + k) + 4096 ≤ dev.size.toNat) (mem : Memory) {seg : Bytes}
    (hseg : seg.length = 4096) :
  submitBio dev.start dev mem (pageBio (pgoff.toNat + k)) [seg] =
    ⟨mem, [load mem (dev.start + pgoff <<< 12 + BitVec.ofNat 32 (4096 * k)) 4096], true⟩
  := by
  have hsize := dev.size.isLt
  have hpos : 0 < [seg].flatten.length := by
    rw [List.flatten_singleton, hseg]
    decide
  have hnot : ¬ dev.size.toNat < (512 * (8 * (pgoff.toNat + k)) + seg.length) % 2 ^ 32 := by
    rw [Nat.mod_eq_of_lt] <;> omega
  have hpage : pgoff <<< 12 = BitVec.ofNat 32 (4096 * pgoff.toNat) := by
    apply BitVec.eq_of_toNat_eq
    rw [toNat_shiftLeft_page, BitVec.toNat_ofNat]
  have haddr : BitVec.ofNat 32 (512 * (8 * (pgoff.toNat + k))) =
      pgoff <<< 12 + BitVec.ofNat 32 (4096 * k) := by
    have hmul : 512 * (8 * (pgoff.toNat + k)) = 4096 * pgoff.toNat + 4096 * k := by omega
    rw [hpage, ← BitVec.ofNat_add, hmul]
  rw [submitBio, if_neg hstart, pageBio, submitLoop_read hpos (by omega) hnot, haddr,
    ← BitVec.add_assoc, hseg]
  rfl

/-- Pages are handed out correctly exactly if they are refused or inside the initrd. -/
theorem daxCorrect_iff {st : BitVec 32} (hst : st = 0 ∨ st = dev.start) :
  DaxCorrect pa st dev pgoff nrPages ↔
    st = 0 ∨ DaxRefused dev pgoff nrPages ∨ DaxInside dev pgoff nrPages
  := by
  by_cases hrefused : DaxRefused dev pgoff nrPages
  · refine iff_of_true (fun access h => ?_) (.inr (.inl hrefused))
    rw [daxDirectAccess_refused st hrefused] at h
    cases h
  by_cases hzero : st = 0
  · refine iff_of_true (fun access h => ?_) (.inl hzero)
    rw [daxDirectAccess, if_neg, if_pos hzero] at h
    · cases h
    · rw [BitVec.lt_def, dax_end]
      exact hrefused
  obtain rfl := hst.resolve_left hzero
  have haccess := @daxDirectAccess_accepted pa _ _ _ hzero hrefused
  constructor
  · intro hcorrect
    obtain ⟨-, -, hpages⟩ := hcorrect _ haccess
    refine .inr (.inr ?_)
    by_contra houtside
    rw [DaxInside, not_or] at houtside
    have hlast := (hpages (nrPages.toInt.toNat - 1) (by omega)).1
    omega
  · rintro (h | h | hinside)
    · exact absurd h hzero
    · exact absurd h hrefused
    · intro access h
      cases haccess.symm.trans h
      refine ⟨rfl, rfl, fun k hk => ?_⟩
      have hfits : 4096 * (pgoff.toNat + k) + 4096 ≤ dev.size.toNat := by
        rcases hinside with hnone | hfits <;> omega
      exact ⟨hfits, fun mem seg hseg => submitBio_page hzero hfits mem hseg⟩

end

/-- The requests and the pages of an initrd that is found are served correctly exactly if they are
refused, or are inside it and are whole sectors. -/
theorem initrd_correct_iff {initrdStart initrdEnd : BitVec 32} {dev : InitrdDevice}
    (hinit : initrdBlkInit initrdStart initrdEnd = .ok dev) {st : BitVec 32}
    (hst : st = 0 ∨ st = initrdStart) (pa : BitVec 32 → BitVec 32) (bio : Bio)
    (pgoff nrPages : BitVec 32) :
  (BioCorrect st dev bio ↔
    st = 0 ∨ Refused dev bio.sector.toNat bio.lens ∨ Aligned dev bio) ∧
  (DaxCorrect pa st dev pgoff nrPages ↔
    st = 0 ∨ DaxRefused dev pgoff nrPages ∨ DaxInside dev pgoff nrPages)
  := by
  have hstart : dev.start = initrdStart := by
    rw [initrdBlkInit] at hinit
    split at hinit
    · cases hinit
    · split at hinit
      · cases hinit
      · split at hinit
        · cases hinit
        · cases hinit
          rfl
  rw [← hstart] at hst
  exact ⟨bioCorrect_iff hst bio, daxCorrect_iff hst⟩

/-- A request for one sector. -/
def sectorBio (write : Bool) (sector : BitVec 64) : Bio where
  write
  sector
  lens := [512]
  size_lt := by decide
  sectors := by decide

/-- The first sector of an initrd of a page is written, and the page is mapped. -/
theorem initrd_correct_page :
  BioCorrect 0x1000 ⟨0x1000, 0x1000⟩ (sectorBio true 0) ∧
  DaxCorrect id 0x1000 ⟨0x1000, 0x1000⟩ 0 1
  := by
  obtain ⟨hbio, hdax⟩ := @initrd_correct_iff 0x1000 0x2000 ⟨0x1000, 0x1000⟩ (by rfl) 0x1000
    (.inr rfl) id (sectorBio true 0) 0 1
  have haligned : Aligned ⟨0x1000, 0x1000⟩ (sectorBio true 0) := ⟨.inr (by decide), by decide⟩
  have hinside : DaxInside ⟨0x1000, 0x1000⟩ 0 1 := .inr (by decide)
  exact ⟨hbio.mpr (.inr (.inr haligned)), hdax.mpr (.inr (.inr hinside))⟩

/-- The sector number 2 ^ 23 is that of the first sector, when its offset is computed. -/
theorem not_initrd_correct :
  ¬ ∀ (initrdStart initrdEnd : BitVec 32) (dev : InitrdDevice),
    initrdBlkInit initrdStart initrdEnd = .ok dev → ∀ (pa : BitVec 32 → BitVec 32) (bio : Bio)
      (pgoff nrPages : BitVec 32), BioCorrect initrdStart dev bio ∧
        DaxCorrect pa initrdStart dev pgoff nrPages
  := by
  intro h
  have hcorrect := (h 0x1000 0x2000 ⟨0x1000, 0x1000⟩ (by rfl) id
    (sectorBio true (BitVec.ofNat 64 (2 ^ 23))) 0 0).1
  have hst : (0x1000 : BitVec 32) = 0 ∨
    0x1000 = (⟨0x1000, 0x1000⟩ : InitrdDevice).start := .inr rfl
  rcases (bioCorrect_iff hst _).mp hcorrect with hzero | hrefused | ⟨hinside, -⟩
  · exact absurd hzero (by decide)
  · rcases (refused_cons _ _ _ _).mp hrefused with ⟨-, hend⟩ | hrest
    · exact absurd hend (by decide)
    · exact not_refused_nil _ _ hrest
  · exact absurd hinside (by decide)

end InitrdBlk

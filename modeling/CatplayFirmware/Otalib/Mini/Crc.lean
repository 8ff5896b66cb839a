import CatplayFirmware.Support.Bytes
import CatplayFirmware.Support.Outcome
import CatplayFirmware.Support.Text
import Mathlib.Data.Nat.Notation
import Mathlib.Logic.Function.Iterate

/-!
# Checksums of image sections

`cksumCrc32` is the checksum of POSIX `cksum`, and `xorCrcImg` is the exclusive or of the
checksums of the blocks of a section. A block size of zero makes no progress.
-/

namespace Crc

open Bytes

def poly : UInt32 := 0x04C11DB7

/-- One round of the inner loop of `make_cksum_table`. -/
def cksumBit (crc : UInt32) : UInt32 :=
  if crc &&& 0x80000000 ≠ 0 then (crc <<< 1) ^^^ poly else crc <<< 1

def cksumTable : Vector UInt32 256 :=
  Vector.ofFn fun i => cksumBit^[8] (UInt32.ofNat i <<< 24)

/-- A shift by one byte and a table entry. -/
def update (crc idx : UInt32) : UInt32 :=
  (crc <<< 8) ^^^ (cksumTable[idx.toNat]?).getD 0

/-- The first loop of `cksum_crc32`, four bytes a round, and the second, over the rest. -/
def cksumData (crc : UInt32) : Bytes → UInt32
  | a :: b :: c :: d :: rest =>
    let crc := update crc ((crc >>> 24) ^^^ a.toUInt32)
    let crc := update crc ((crc >>> 24) ^^^ b.toUInt32)
    let crc := update crc ((crc >>> 24) ^^^ c.toUInt32)
    let crc := update crc ((crc >>> 24) ^^^ d.toUInt32)
    cksumData crc rest
  | rest => rest.foldl (fun crc byte => update crc (((crc >>> 24) ^^^ byte.toUInt32) &&& 0xFF)) crc

/-- The last loop of `cksum_crc32`, over the bytes of the length; there are at most four. -/
def cksumLen : ℕ → UInt32 → UInt32 → UInt32
  | 0, crc, _ => crc
  | rounds + 1, crc, len =>
    if len = 0 then crc
    else cksumLen rounds (update crc (((crc >>> 24) ^^^ (len &&& 0xFF)) &&& 0xFF)) (len >>> 8)

def cksumCrc32 (data : Bytes) : UInt32 :=
  cksumLen 4 (cksumData 0 data) (UInt32.ofNat data.length)

example : cksumCrc32 [0x31, 0x32, 0x33, 0x34, 0x35, 0x36, 0x37, 0x38, 0x39] = 0xC8859FEE := by
  decide +kernel

/-- One round of the loop of `xor_crc_img`, on the checksum so far and the offset. -/
def xorCrcRound (data : Bytes) (bsSize : ℕ) (st : UInt32 × ℕ) : (UInt32 × ℕ) ⊕ UInt32 :=
  let (crcTotal, off) := st
  if off < data.length then
    let stop := min (off + bsSize) data.length
    .inl (crcTotal ^^^ cksumCrc32 (slice data off (stop - off)), stop)
  else .inr crcTotal

/-- `xor_crc_img`. A loop that has not ended after as many rounds as there are bytes does not
end. -/
def xorCrcImg (data : Bytes) (bsSize : ℕ) : Outcome Text UInt32 :=
  match Loop.iterate (xorCrcRound data bsSize) (data.length + 1) (0, 0) with
  | some crc => .ok crc
  | none => .diverges

/-- With blocks of at least one byte the checksum of a section is found. -/
theorem xorCrcImg_ok (data : Bytes) {bsSize : ℕ} (h : 0 < bsSize) :
  ∃ crc, xorCrcImg data bsSize = .ok crc
  := by
  obtain ⟨crc, hcrc⟩ : ∃ crc,
      Loop.iterate (xorCrcRound data bsSize) (data.length + 1) (0, 0) = some crc := by
    apply Loop.iterate_of_measure (fun _ => True) (fun st => data.length - st.2)
    · rintro ⟨crcTotal, off⟩ st' - hround
      rw [xorCrcRound] at hround
      split at hround
      · next hoff =>
        cases hround
        refine ⟨trivial, ?_⟩
        change data.length - min (off + bsSize) data.length < data.length - off
        omega
      · cases hround
    · trivial
    · apply Nat.lt_succ_self
  use crc
  rw [xorCrcImg, hcrc]

/-- With blocks of no bytes the loop over a section that is not empty goes round forever. -/
theorem xorCrcImg_zero {data : Bytes} (h : data ≠ []) :
  xorCrcImg data 0 = .diverges ∧ ¬ Loop.Terminates (xorCrcRound data 0) (0, 0)
  := by
  have hpos : 0 < data.length := List.length_pos_iff.mpr h
  have htrap : ¬ Loop.Terminates (xorCrcRound data 0) (0, 0) := by
    apply Loop.not_terminates_of_trap (fun st => st.2 = 0)
    · rintro ⟨crcTotal, off⟩ (rfl : off = 0)
      rw [xorCrcRound]
      simp only [if_pos hpos]
      exact ⟨_, rfl, by simp⟩
    · rfl
  refine ⟨?_, htrap⟩
  rw [xorCrcImg]
  split
  · next crc hcrc => exact absurd ⟨crc, _, hcrc⟩ htrap
  · rfl

end Crc

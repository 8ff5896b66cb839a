import CatplayFirmware.Support.Rfc1321
import CatplayFirmware.Support.Utf8
import Mathlib.Data.Nat.Notation

/-!
# Digests of image sections

The digest itself is that of the `md5hash` crate: a hasher takes bytes in pieces and gives a
digest of 16 bytes. Here are the texts of digests in headers: they are written as 32
hexadecimal digits, and read back.
-/

/-- The hasher of the `md5hash` crate. -/
structure Md5Hasher where
  State : Type
  new : State
  digest : State → Bytes → State
  finish : State → Vector UInt8 16

namespace Md5Hasher

/-- `md5_calc`. -/
def md5Calc (hasher : Md5Hasher) (data : Bytes) : Bytes :=
  (hasher.finish (hasher.digest hasher.new data)).toList

/-- What the hasher documents: bytes taken in pieces have the digest of the bytes in one
piece. -/
def Streams (hasher : Md5Hasher) : Prop :=
  ∀ pieces : List Bytes, (hasher.finish (pieces.foldl hasher.digest hasher.new)).toList =
    hasher.md5Calc pieces.flatten

/-- The hasher of RFC 1321, which keeps the bytes it has taken. -/
def rfc1321 : Md5Hasher := ⟨Bytes, [], List.append, Rfc1321.digest⟩

/-- The digest of parts is the digest of the whole. -/
theorem rfc1321_streams : rfc1321.Streams := by
  intro pieces
  have hfold (state : Bytes) : pieces.foldl List.append state = state ++ pieces.flatten := by
    induction pieces generalizing state with
    | nil => simp
    | cons piece pieces ih =>
        rw [List.foldl_cons, ih, List.flatten_cons]
        exact List.append_assoc _ _ _
  change (Rfc1321.digest (pieces.foldl List.append [])).toList = _
  rw [hfold, List.nil_append]
  rfl

end Md5Hasher

namespace Md5

/-! ### Hexadecimal texts -/

/-- The value of a digit of either case. -/
def fromHexNibble (c : UInt8) : Option UInt8 :=
  if 0x30 ≤ c ∧ c ≤ 0x39 then some (c - 0x30)
  else if 0x61 ≤ c ∧ c ≤ 0x66 then some (c - 0x61 + 10)
  else if 0x41 ≤ c ∧ c ≤ 0x46 then some (c - 0x41 + 10)
  else none

/-- The loop of `parse_md5_hex`, two digits a round. -/
def parseHexPairs : Bytes → Option Bytes
  | hi :: lo :: rest => do
    let hi ← fromHexNibble hi
    let lo ← fromHexNibble lo
    let out ← parseHexPairs rest
    return ((hi <<< 4) ||| lo) :: out
  | _ => some []

/-- A digest from 32 digits. -/
def parseMd5Hex (s : Text) : Option Bytes :=
  if s.byteLen ≠ 32 then none else parseHexPairs (Utf8.encode s)

/-- A byte as `{:02x}` writes it. -/
def hexByte (b : UInt8) : Text := [Nat.digitChar (b.toNat / 16), Nat.digitChar (b.toNat % 16)]

/-- The bytes of a digest, each as `{:02x}` writes it. -/
def hexText (digest : Bytes) : Text := digest.flatMap hexByte

/-- The characters of hexadecimal texts: digits, and letters from `a` to `f`. -/
def IsHex (c : Char) : Prop := c ∈ "0123456789abcdef".toList

theorem isHex_of_mem_hexByte {b : UInt8} {c : Char} (h : c ∈ hexByte b) : IsHex c := by
  have hall : ∀ n < 256, ∀ c ∈ [Nat.digitChar (n / 16), Nat.digitChar (n % 16)],
      c ∈ "0123456789abcdef".toList := by
    decide +kernel
  apply hall b.toNat b.toNat_lt c h

/-- A digest is written in hexadecimal digits. -/
theorem isHex_of_mem_hexText {digest : Bytes} {c : Char} (h : c ∈ hexText digest) : IsHex c := by
  obtain ⟨b, -, hc⟩ := List.mem_flatMap.mp h
  apply isHex_of_mem_hexByte hc

theorem IsHex.toNat_lt {c : Char} (h : IsHex c) : c.toNat < 128 := by
  have hall : ∀ c ∈ "0123456789abcdef".toList, c.toNat < 128 := by decide +kernel
  apply hall c h

theorem encode_hexByte (b : UInt8) :
  Utf8.encode (hexByte b) = [UInt8.ofNat (Nat.digitChar (b.toNat / 16)).toNat,
    UInt8.ofNat (Nat.digitChar (b.toNat % 16)).toNat]
  := Utf8.encode_ascii fun _ hc => (isHex_of_mem_hexByte hc).toNat_lt

/-- The two digits of a byte are read back as the byte. -/
theorem parseHexPairs_hexByte (b : UInt8) (rest : Bytes) :
  parseHexPairs (Utf8.encode (hexByte b) ++ rest) = (parseHexPairs rest).map (b :: ·)
  := by
  have hall : ∀ n < 256, parseHexPairs [UInt8.ofNat (Nat.digitChar (n / 16)).toNat,
      UInt8.ofNat (Nat.digitChar (n % 16)).toNat] = some [UInt8.ofNat n] := by
    decide +kernel
  have hbyte := hall b.toNat b.toNat_lt
  rw [UInt8.ofNat_toNat, parseHexPairs] at hbyte
  rw [encode_hexByte, List.cons_append, List.cons_append, List.nil_append, parseHexPairs]
  cases hhi : fromHexNibble (UInt8.ofNat (Nat.digitChar (b.toNat / 16)).toNat) with
  | none =>
      rw [hhi] at hbyte
      cases hbyte
  | some hi =>
      cases hlo : fromHexNibble (UInt8.ofNat (Nat.digitChar (b.toNat % 16)).toNat) with
      | none =>
          rw [hhi, hlo] at hbyte
          cases hbyte
      | some lo =>
          rw [hhi, hlo] at hbyte
          have hb : (hi <<< 4) ||| lo = b := (List.cons.inj (Option.some.inj hbyte)).1
          cases hrest : parseHexPairs rest with
          | none => rfl
          | some out => exact congrArg (fun b => some (b :: out)) hb

/-- Two digits for a byte. -/
theorem byteLen_hexText (digest : Bytes) : (hexText digest).byteLen = 2 * digest.length := by
  rw [← Utf8.length_encode]
  induction digest with
  | nil => rfl
  | cons b digest ih =>
      rw [hexText, List.flatMap_cons, Utf8.encode_append, List.length_append, encode_hexByte]
      change 2 + (Utf8.encode (hexText digest)).length = _
      rw [ih, List.length_cons]
      omega

/-- A digest is read back from its text. -/
theorem parseMd5Hex_hexText {digest : Bytes} (h : digest.length = 16) :
  parseMd5Hex (hexText digest) = some digest
  := by
  have hpairs (ds : Bytes) : parseHexPairs (Utf8.encode (hexText ds)) = some ds := by
    induction ds with
    | nil => rfl
    | cons d ds ih =>
        rw [hexText, List.flatMap_cons, Utf8.encode_append, parseHexPairs_hexByte]
        change (parseHexPairs (Utf8.encode (hexText ds))).map (d :: ·) = _
        rw [ih]
        rfl
  rw [parseMd5Hex, if_neg, hpairs]
  rw [byteLen_hexText, h]
  simp

end Md5

@[simp] theorem Md5Hasher.length_md5Calc (hasher : Md5Hasher) (data : Bytes) :
  (hasher.md5Calc data).length = 16
  := by
  simp [md5Calc]

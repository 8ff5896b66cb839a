import CatplayFirmware.Support.Bytes
import Mathlib.Algebra.GroupWithZero.Nat
import Mathlib.Data.Nat.Notation

/-!
# The MD5 digest

The digest of RFC 1321: the message is padded to blocks of 64 bytes, and each block is mixed
into a state of four words in 64 steps.
-/

namespace Rfc1321

/-- The left rotations of the 64 steps. -/
def shifts : List UInt32 :=
  (List.replicate 4 [7, 12, 17, 22]).flatten ++ (List.replicate 4 [5, 9, 14, 20]).flatten ++
    (List.replicate 4 [4, 11, 16, 23]).flatten ++ (List.replicate 4 [6, 10, 15, 21]).flatten

/-- The constants of the 64 steps. -/
def sines : List UInt32 := [
    0xD76AA478, 0xE8C7B756, 0x242070DB, 0xC1BDCEEE,
    0xF57C0FAF, 0x4787C62A, 0xA8304613, 0xFD469501,
    0x698098D8, 0x8B44F7AF, 0xFFFF5BB1, 0x895CD7BE,
    0x6B901122, 0xFD987193, 0xA679438E, 0x49B40821,
    0xF61E2562, 0xC040B340, 0x265E5A51, 0xE9B6C7AA,
    0xD62F105D, 0x02441453, 0xD8A1E681, 0xE7D3FBC8,
    0x21E1CDE6, 0xC33707D6, 0xF4D50D87, 0x455A14ED,
    0xA9E3E905, 0xFCEFA3F8, 0x676F02D9, 0x8D2A4C8A,
    0xFFFA3942, 0x8771F681, 0x6D9D6122, 0xFDE5380C,
    0xA4BEEA44, 0x4BDECFA9, 0xF6BB4B60, 0xBEBFBC70,
    0x289B7EC6, 0xEAA127FA, 0xD4EF3085, 0x04881D05,
    0xD9D4D039, 0xE6DB99E5, 0x1FA27CF8, 0xC4AC5665,
    0xF4292244, 0x432AFF97, 0xAB9423A7, 0xFC93A039,
    0x655B59C3, 0x8F0CCC92, 0xFFEFF47D, 0x85845DD1,
    0x6FA87E4F, 0xFE2CE6E0, 0xA3014314, 0x4E0811A1,
    0xF7537E82, 0xBD3AF235, 0x2AD7D2BB, 0xEB86D391]

/-- The four words of the state. -/
structure State where
  a : UInt32
  b : UInt32
  c : UInt32
  d : UInt32
  deriving DecidableEq

def initial : State := ⟨0x67452301, 0xEFCDAB89, 0x98BADCFE, 0x10325476⟩

/-- Four bytes as a word, the least significant first. -/
def word : Bytes → UInt32
  | [] => 0
  | byte :: rest => byte.toUInt32 ||| (word rest <<< 8)

/-- The four bytes of a word, the least significant first. -/
def wordBytes (w : UInt32) : Bytes :=
  [w.toUInt8, (w >>> 8).toUInt8, (w >>> 16).toUInt8, (w >>> 24).toUInt8]

/-- The step `i` on a block. -/
def step (block : Bytes) (st : State) (i : ℕ) : State :=
  let (mixed, index) :=
    if i < 16 then ((st.b &&& st.c) ||| (~~~st.b &&& st.d), i)
    else if i < 32 then ((st.d &&& st.b) ||| (~~~st.d &&& st.c), (5 * i + 1) % 16)
    else if i < 48 then (st.b ^^^ st.c ^^^ st.d, (3 * i + 5) % 16)
    else (st.c ^^^ (st.b ||| ~~~st.d), 7 * i % 16)
  let sum := st.a + mixed + sines.getD i 0 + word (Bytes.slice block (4 * index) 4)
  let shift := shifts.getD i 0
  ⟨st.d, st.b + ((sum <<< shift) ||| (sum >>> (32 - shift))), st.b, st.c⟩

def mixBlock (st : State) (block : Bytes) : State :=
  let mixed := (List.range 64).foldl (step block) st
  ⟨st.a + mixed.a, st.b + mixed.b, st.c + mixed.c, st.d + mixed.d⟩

/-- The message with a one bit, zeros, and its length in bits in eight bytes. -/
def pad (message : Bytes) : Bytes :=
  let zeros := (119 - message.length % 64) % 64
  let bits := 8 * message.length
  message ++ 0x80 :: List.replicate zeros 0 ++
    wordBytes (UInt32.ofNat bits) ++ wordBytes (UInt32.ofNat (bits / 2 ^ 32))

/-- The blocks of a padded message, at most `n`. -/
def blocks : ℕ → Bytes → List Bytes
  | 0, _ => []
  | n + 1, message => message.take 64 :: blocks n (message.drop 64)

/-- The digest of a message. -/
def digest (message : Bytes) : Vector UInt8 16 :=
  let padded := pad message
  let st := (blocks (padded.length / 64) padded).foldl mixBlock initial
  let bytes := wordBytes st.a ++ wordBytes st.b ++ wordBytes st.c ++ wordBytes st.d
  Vector.ofFn fun i => bytes.getD i 0

example : (digest [0x61, 0x62, 0x63]).toList =
    [0x90, 0x01, 0x50, 0x98, 0x3C, 0xD2, 0x4F, 0xB0, 0xD6, 0x96, 0x3F, 0x7D, 0x28, 0xE1, 0x7F,
      0x72] := by
  decide +kernel

end Rfc1321

import CatplayFirmware.Support.Endian

/-!
# Gzip members

A raw deflate stream ends by itself, so that a decompressor finds its content and what follows
it. A gzip member is such a stream between a header of ten bytes and a trailer with the
checksum and the length of the content.
-/

open Bytes

/-- A deflate compressor with a decompressor that reads its streams. -/
structure Deflate where
  compress : Bytes → Bytes
  inflate : Bytes → Option (Bytes × Bytes)
  inflate_compress : ∀ content rest, inflate (compress content ++ rest) = some (content, rest)

namespace Deflate

/-! ### Stored blocks -/

/-- The header of a stored block of `len` bytes. -/
def storedHeader (last : UInt8) (len : ℕ) : Bytes :=
  last :: (leBytes 2 len ++ leBytes 2 (65535 - len))

/-- A stream of stored blocks, as long as they can be. -/
def storedStream (content : Bytes) : Bytes :=
  if content.length ≤ 65535 then storedHeader 1 content.length ++ content
  else storedHeader 0 65535 ++ content.take 65535 ++ storedStream (content.drop 65535)
termination_by content.length
decreasing_by
  rw [List.length_drop]
  omega

/-- A stored block: whether it is the last, its content, and what follows it. -/
def readStored (bytes : Bytes) : Option (Bool × Bytes × Bytes) :=
  match bytes with
  | [] => none
  | last :: bytes =>
    let len := leNat (slice bytes 0 2)
    if (last = 0 ∨ last = 1) ∧ len + leNat (slice bytes 2 2) = 65535 ∧
        4 + len ≤ bytes.length then
      some (decide (last = 1), slice bytes 4 len, bytes.drop (4 + len))
    else none

theorem length_readStored {bytes content rest : Bytes} {last : Bool}
    (h : readStored bytes = some (last, content, rest)) :
  rest.length < bytes.length
  := by
  cases bytes with
  | nil => cases h
  | cons b bytes =>
      rw [readStored] at h
      split at h
      · cases h
        rw [List.length_drop, List.length_cons]
        omega
      · cases h

/-- The content of a stream of stored blocks, and what follows it. -/
def readStoredStream (bytes : Bytes) : Option (Bytes × Bytes) :=
  match _h : readStored bytes with
  | none => none
  | some (true, content, rest) => some (content, rest)
  | some (false, content, rest) =>
    (readStoredStream rest).map fun (more, rest) => (content ++ more, rest)
termination_by bytes.length
decreasing_by apply length_readStored _h

theorem readStored_header {last : UInt8} (hlast : last = 0 ∨ last = 1) {content : Bytes}
    (hlen : content.length ≤ 65535) (rest : Bytes) :
  readStored (storedHeader last content.length ++ content ++ rest) =
    some (decide (last = 1), content, rest)
  := by
  have hlow : slice (leBytes 2 content.length ++ leBytes 2 (65535 - content.length) ++ content ++
      rest) 0 2 = leBytes 2 content.length := by
    rw [slice, List.drop_zero, List.append_assoc, List.append_assoc,
      List.take_left' (length_leBytes 2 _)]
  have hhigh : slice (leBytes 2 content.length ++ leBytes 2 (65535 - content.length) ++ content ++
      rest) 2 2 = leBytes 2 (65535 - content.length) := by
    rw [slice, List.append_assoc, List.append_assoc, List.drop_left' (length_leBytes 2 _),
      List.take_left' (length_leBytes 2 _)]
  have hfour : (leBytes 2 content.length ++ leBytes 2 (65535 - content.length)).length = 4 := by
    simp
  have hlowNat : leNat (leBytes 2 content.length) = content.length := leNat_leBytes (by omega)
  have hhighNat : leNat (leBytes 2 (65535 - content.length)) = 65535 - content.length :=
    leNat_leBytes (by omega)
  rw [storedHeader, List.cons_append, List.cons_append, readStored, hlow, hhigh, hlowNat,
    hhighNat, if_pos]
  · rw [slice, ← List.drop_drop, List.append_assoc _ content rest, List.drop_left' hfour,
      List.take_left' rfl, List.drop_left' rfl]
  · refine ⟨hlast, by omega, ?_⟩
    rw [List.length_append, List.length_append, hfour]
    omega

theorem readStoredStream_storedStream (content rest : Bytes) :
  readStoredStream (storedStream content ++ rest) = some (content, rest)
  := by
  induction content using storedStream.induct with
  | case1 content hshort =>
      rw [storedStream, if_pos hshort, readStoredStream]
      have hread := readStored_header (.inr rfl) hshort rest
      split
      · next h =>
        rw [hread] at h
        cases h
      · next h =>
        rw [hread] at h
        cases h
        rfl
      · next h =>
        rw [hread] at h
        cases h
  | case2 content hlong ih =>
      have htake : (content.take 65535).length = 65535 := by
        rw [List.length_take]
        omega
      have hread := readStored_header (.inl rfl) (Nat.le_of_eq htake)
        (storedStream (content.drop 65535) ++ rest)
      rw [htake] at hread
      rw [storedStream, if_neg hlong, List.append_assoc, readStoredStream]
      split
      · next h =>
        rw [hread] at h
        cases h
      · next h =>
        rw [hread] at h
        cases h
      · next h =>
        rw [hread] at h
        cases h
        rw [ih, Option.map_some]
        simp only
        rw [List.take_append_drop]

theorem length_readStoredStream {bytes content rest : Bytes}
    (h : readStoredStream bytes = some (content, rest)) :
  rest.length < bytes.length
  := by
  induction bytes using readStoredStream.induct generalizing content with
  | case1 bytes hread =>
      rw [readStoredStream] at h
      split at h
      · cases h
      · next hread' =>
        rw [hread] at hread'
        cases hread'
      · next hread' =>
        rw [hread] at hread'
        cases hread'
  | case2 bytes more rest' hread =>
      rw [readStoredStream] at h
      split at h
      · cases h
      · next hread' =>
        cases h
        apply length_readStored hread'
      · next hread' =>
        rw [hread] at hread'
        cases hread'
  | case3 bytes more rest' hread ih =>
      rw [readStoredStream] at h
      split at h
      · cases h
      · next hread' =>
        rw [hread] at hread'
        cases hread'
      · next hread' =>
        rw [hread] at hread'
        cases hread'
        obtain ⟨⟨more', rest''⟩, hstream, ⟨⟩⟩ := Option.map_eq_some_iff.mp h
        apply Nat.lt_trans (ih hstream) (length_readStored hread)

/-- The compressor that stores its input. -/
def stored : Deflate := ⟨storedStream, readStoredStream, readStoredStream_storedStream⟩

/-! ### A run of zeros -/

variable (start : ℕ)

/-- The number of zeros from a place on. -/
def zeros (content : Bytes) : ℕ :=
  min ((content.drop start).takeWhile (· = 0)).length (2 ^ 64 - 1)

/-- The zeros from a place on are left out, and their number is put in front. -/
def squeeze (content : Bytes) : Bytes :=
  leBytes 8 (zeros start content) ++
    (content.take start ++ content.drop (start + zeros start content))

def unsqueeze (bytes : Bytes) : Bytes :=
  (bytes.drop 8).take start ++ List.replicate (leNat (bytes.take 8)) 0 ++
    (bytes.drop 8).drop start

theorem take_zeros (content : Bytes) :
  (content.drop start).take (zeros start content) = List.replicate (zeros start content) 0
  := by
  obtain ⟨rest, hrest⟩ := List.takeWhile_prefix (p := (· = 0)) (l := content.drop start)
  have hall : (content.drop start).takeWhile (· = 0) =
      List.replicate ((content.drop start).takeWhile (· = 0)).length 0 := by
    apply List.eq_replicate_of_mem
    intro b hb
    exact of_decide_eq_true (List.all_eq_true.mp List.all_takeWhile b hb)
  have hle : zeros start content ≤ ((content.drop start).takeWhile (· = 0)).length :=
    Nat.min_le_left _ _
  rw [← hrest, List.take_append_of_le_length hle, hall, List.take_replicate, Nat.min_eq_left hle]

theorem unsqueeze_squeeze (content : Bytes) :
  unsqueeze start (squeeze start content) = content
  := by
  have hzeros : leNat (leBytes 8 (zeros start content)) = zeros start content := by
    apply leNat_leBytes
    have hle : zeros start content ≤ 2 ^ 64 - 1 := Nat.min_le_right _ _
    omega
  have hrun : List.replicate (zeros start content) 0 ++
      content.drop (start + zeros start content) = content.drop start := by
    rw [← take_zeros, ← List.drop_drop, List.take_append_drop]
  rw [unsqueeze, squeeze, List.take_left' (length_leBytes 8 _),
    List.drop_left' (length_leBytes 8 _), hzeros]
  rcases Nat.lt_or_ge content.length start with hshort | hlong
  · have hnone : zeros start content = 0 := by
      rw [zeros, List.drop_of_length_le (Nat.le_of_lt hshort)]
      rfl
    rw [hnone, List.replicate_zero, List.append_nil, Nat.add_zero, List.take_append_drop,
      List.take_append_drop]
  · have hfront : (content.take start).length = start := List.length_take_of_le hlong
    rw [List.take_left' hfront, List.drop_left' hfront, List.append_assoc, hrun,
      List.take_append_drop]

theorem zeros_le (content : Bytes) : zeros start content ≤ content.length - start := by
  rw [← List.length_drop]
  exact Nat.le_trans (Nat.min_le_left _ _) (List.takeWhile_prefix _).length_le

/-- Zeros that stand at the place are all left out. -/
theorem le_zeros {content rest : Bytes} {n : ℕ}
    (h : content.drop start = List.replicate n 0 ++ rest) (hn : n < 2 ^ 64) :
  n ≤ zeros start content
  := by
  rw [zeros, h, List.takeWhile_append_of_pos, List.length_append, List.length_replicate]
  · omega
  · intro b hb
    rw [List.eq_of_mem_replicate hb]
    rfl

/-- A compressor that stores its input without a run of zeros. -/
def squeezed : Deflate where
  compress content := storedStream (squeeze start content)
  inflate bytes :=
    (readStoredStream bytes).map fun (content, rest) => (unsqueeze start content, rest)
  inflate_compress content rest := by
    rw [readStoredStream_storedStream, Option.map_some]
    simp only [unsqueeze_squeeze]

theorem length_squeezed {content : Bytes} (h : start + zeros start content ≤ content.length)
    (hshort : content.length ≤ 65527 + zeros start content) :
  ((squeezed start).compress content).length = content.length + 13 - zeros start content
  := by
  have hlen : (squeeze start content).length = content.length + 8 - zeros start content := by
    rw [squeeze, List.length_append, List.length_append, length_leBytes, List.length_take,
      List.length_drop]
    omega
  rw [squeezed]
  simp only
  rw [storedStream, if_pos (by omega), storedHeader]
  simp only [List.length_append, List.length_cons, length_leBytes, hlen]
  omega

end Deflate

namespace Gzip

variable (deflate : Deflate) (crc32 : Bytes → UInt32)

/-- The member at the beginning of some bytes: its content, and what follows it. The header has
no optional fields. -/
def readMember (bytes : Bytes) : Option (Bytes × Bytes) :=
  if bytes.take 4 = [0x1F, 0x8B, 0x08, 0x00] ∧ 10 ≤ bytes.length then
    match deflate.inflate (bytes.drop 10) with
    | none => none
    | some (content, rest) =>
      if 8 ≤ rest.length ∧ leNat (slice rest 0 4) = (crc32 content).toNat ∧
          leNat (slice rest 4 4) = content.length % 2 ^ 32 then
        some (content, rest.drop 8)
      else none
  else none

/-- The checksum and the length that a member ends with. -/
def trailer (content : Bytes) : Bytes :=
  leBytes 4 (crc32 content).toNat ++ leBytes 4 (content.length % 2 ^ 32)

/-- A member is read back. -/
theorem readMember_compress {header : Bytes} (hlen : header.length = 10)
    (hmagic : header.take 4 = [0x1F, 0x8B, 0x08, 0x00]) (content rest : Bytes) :
  readMember deflate crc32 (header ++ deflate.compress content ++ trailer crc32 content ++ rest) =
    some (content, rest)
  := by
  have htrailer : (trailer crc32 content).length = 8 := by
    simp [trailer]
  have hcrc : slice (trailer crc32 content ++ rest) 0 4 = leBytes 4 (crc32 content).toNat := by
    rw [slice, List.drop_zero, trailer, List.append_assoc, List.take_left' (length_leBytes 4 _)]
  have hsize : slice (trailer crc32 content ++ rest) 4 4 =
      leBytes 4 (content.length % 2 ^ 32) := by
    rw [slice, trailer, List.append_assoc, List.drop_left' (length_leBytes 4 _),
      List.take_left' (length_leBytes 4 _)]
  have hcrcNat : leNat (leBytes 4 (crc32 content).toNat) = (crc32 content).toNat :=
    leNat_leBytes (crc32 content).toNat_lt
  have hsizeNat : leNat (leBytes 4 (content.length % 2 ^ 32)) = content.length % 2 ^ 32 :=
    leNat_leBytes (Nat.mod_lt _ (by decide))
  rw [readMember, if_pos, List.append_assoc, List.append_assoc, List.drop_left' hlen,
    deflate.inflate_compress]
  · simp only
    rw [hcrc, hsize, hcrcNat, hsizeNat, if_pos, List.drop_left' htrailer]
    refine ⟨?_, rfl, rfl⟩
    rw [List.length_append, htrailer]
    omega
  · constructor
    · rw [List.append_assoc, List.append_assoc, List.take_append_of_le_length (by omega), hmagic]
    · rw [List.length_append, List.length_append, List.length_append]
      omega

theorem length_readMember (hinflate : ∀ bytes content rest,
      deflate.inflate bytes = some (content, rest) → rest.length < bytes.length)
    {bytes content rest : Bytes} (h : readMember deflate crc32 bytes = some (content, rest)) :
  rest.length < bytes.length
  := by
  rw [readMember] at h
  split at h
  · next hheader =>
    cases hstream : deflate.inflate (bytes.drop 10) with
    | none =>
        rw [hstream] at h
        cases h
    | some stream =>
        rw [hstream] at h
        simp only at h
        split at h
        · cases h
          have hrest := hinflate _ _ _ hstream
          rw [List.length_drop] at hrest ⊢
          omega
        · cases h
  · cases h

/-! ### Whole files -/

/-- A reader and a writer of gzip members, with the checksum that they use. -/
structure Codec where
  /-- The content of the member at the beginning of some bytes, and what follows it. -/
  member : Bytes → Option (Bytes × Bytes)
  compress : Bytes → Bytes
  crc32 : Bytes → UInt32
  length_member : ∀ bytes content rest,
    member bytes = some (content, rest) → rest.length < bytes.length
  member_compress : ∀ content, member (compress content) = some (content, [])

namespace Codec

variable (codec : Codec)

/-- The content of a file: that of all its members, which zeros may follow. -/
def decompress (bytes : Bytes) : Option Bytes :=
  if bytes = [] then some []
  else match _h : codec.member bytes with
    | none => none
    | some (content, rest) =>
      (decompress (rest.dropWhile (· = 0))).map fun more => content ++ more
termination_by bytes.length
decreasing_by
  apply Nat.lt_of_le_of_lt _ (codec.length_member _ _ _ _h)
  apply (List.dropWhile_suffix _).length_le

variable {codec}

theorem member_nil : codec.member [] = none := by
  cases h : codec.member [] with
  | none => rfl
  | some pair => exact absurd (codec.length_member _ _ _ h) (Nat.not_lt_zero _)

theorem decompress_nil : codec.decompress [] = some [] := by
  rw [decompress, if_pos rfl]

/-- The content of a file is that of its first member and that of the others. -/
theorem decompress_member {bytes content rest : Bytes}
    (h : codec.member bytes = some (content, rest)) :
  codec.decompress bytes =
    (codec.decompress (rest.dropWhile (· = 0))).map fun more => content ++ more
  := by
  rw [decompress]
  split
  · next hnil =>
    rw [hnil, member_nil] at h
    cases h
  · split
    · next hnone =>
      rw [h] at hnone
      cases hnone
    · next hsome =>
      rw [h] at hsome
      cases hsome
      rfl

/-- The content of a file begins with that of its first member. -/
theorem decompress_of_member {bytes content whole rest : Bytes}
    (hmember : codec.member bytes = some (content, rest))
    (hwhole : codec.decompress bytes = some whole) :
  ∃ more, whole = content ++ more
  := by
  rw [decompress_member hmember] at hwhole
  obtain ⟨more, -, rfl⟩ := Option.map_eq_some_iff.mp hwhole
  use more

/-- The codec whose members are not compressed. -/
def stored (crc32 : Bytes → UInt32) : Codec where
  member := readMember .stored crc32
  compress content :=
    [0x1F, 0x8B, 0x08, 0x00, 0, 0, 0, 0, 2, 0xFF] ++ Deflate.storedStream content ++
      trailer crc32 content
  crc32 := crc32
  length_member _ _ _ := length_readMember .stored crc32 fun _ _ _ =>
    Deflate.length_readStoredStream
  member_compress content := by
    have h := @readMember_compress .stored crc32
      [0x1F, 0x8B, 0x08, 0x00, 0, 0, 0, 0, 2, 0xFF] rfl rfl content []
    rw [List.append_nil] at h
    exact h

theorem stored_member (crc32 : Bytes → UInt32) (content rest : Bytes) :
  (stored crc32).member ((stored crc32).compress content ++ rest) = some (content, rest)
  := @readMember_compress .stored crc32 [0x1F, 0x8B, 0x08, 0x00, 0, 0, 0, 0, 2, 0xFF] rfl rfl
    content rest

theorem length_stored_compress (crc32 : Bytes → UInt32) {content : Bytes}
    (h : content.length ≤ 65535) :
  ((stored crc32).compress content).length = content.length + 23
  := by
  rw [stored]
  simp only
  rw [Deflate.storedStream, if_pos h, Deflate.storedHeader, trailer]
  simp only [List.length_append, List.length_cons, List.length_nil, length_leBytes]
  omega

end Codec

end Gzip

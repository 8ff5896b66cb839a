import CatplayFirmware.Support.Bytes
import CatplayFirmware.Support.Text

/-!
# UTF-8

The encoding of a text is the concatenation of the encodings of its characters, and a byte
string is decoded to the text it is the encoding of, if there is one.
-/

namespace Utf8

/-- The UTF-8 encoding of a text, `str::as_bytes`. -/
def encode (t : Text) : Bytes := t.flatMap String.utf8EncodeChar

/-- The text that a byte string is the encoding of, `str::from_utf8`. -/
def decode (bs : Bytes) : Option Text :=
  bs.toByteArray.utf8Decode?.map Array.toList

/-- The text of a byte string, in which every byte that neither begins nor continues a character
is read as the replacement character. -/
def decodeLossy : Bytes → Text
  | [] => []
  | b :: rest =>
    match (b :: rest).toByteArray.utf8DecodeChar? 0 with
    | some c => c :: decodeLossy (rest.drop (c.utf8Size - 1))
    | none => '\uFFFD' :: decodeLossy rest
termination_by bs => bs.length
decreasing_by
  · rw [List.length_drop, List.length_cons]
    omega
  · rw [List.length_cons]
    omega

@[simp] theorem encode_nil : encode [] = [] := rfl

theorem encode_cons (c : Char) (t : Text) :
  encode (c :: t) = String.utf8EncodeChar c ++ encode t
  := List.flatMap_cons

theorem encode_append (s t : Text) :
  encode (s ++ t) = encode s ++ encode t
  := List.flatMap_append

@[simp] theorem length_encode (t : Text) :
  (encode t).length = t.byteLen
  := by
  induction t with
  | nil => rfl
  | cons c t ih =>
      rw [encode_cons, List.length_append, ih, String.length_utf8EncodeChar, Text.byteLen_cons]

/-- What is encoded is decoded. -/
@[simp] theorem decode_encode (t : Text) : decode (encode t) = some t := by
  have h : (encode t).toByteArray.utf8Decode? = some t.toArray := List.utf8Decode?_utf8Encode
  rw [decode, h]
  rfl

/-- What is decoded is the encoding of what it is decoded to. -/
theorem encode_of_decode {bs : Bytes} {t : Text} (h : decode bs = some t) :
  encode t = bs
  := by
  obtain ⟨chars, hchars, rfl⟩ := Option.map_eq_some_iff.mp h
  apply List.toByteArray_inj.mp
  have hsome : bs.toByteArray.utf8Decode?.isSome := by
    rw [hchars]
    rfl
  have hget := ByteArray.utf8Encode_get_utf8Decode? (b := bs.toByteArray) (h := hsome)
  simp only [hchars, Option.get_some] at hget
  exact hget

/-- A text whose encoding begins with that of another begins with it. -/
theorem eq_append_of_encode_eq {s t : Text} {bs : Bytes} (h : encode t = encode s ++ bs) :
  ∃ u, t = s ++ u ∧ encode u = bs
  := by
  induction s generalizing t with
  | nil => exact ⟨t, rfl, h⟩
  | cons c s ih =>
      rw [encode_cons, List.append_assoc] at h
      cases t with
      | nil =>
          have hlen := congrArg List.length h
          have hpos := Char.utf8Size_pos c
          rw [List.length_append, String.length_utf8EncodeChar, encode_nil, List.length_nil] at hlen
          omega
      | cons d t =>
          rw [encode_cons] at h
          have hchar : some d = some c := by
            rw [← ByteArray.utf8DecodeChar?_utf8EncodeChar_append (b := (encode t).toByteArray),
              ← List.toByteArray_append, h, List.toByteArray_append]
            apply ByteArray.utf8DecodeChar?_utf8EncodeChar_append
          obtain rfl := Option.some.inj hchar
          obtain ⟨u, rfl, hu⟩ := ih (List.append_cancel_left h)
          exact ⟨u, rfl, hu⟩

/-- Bytes behind the encoding of a text are decoded on their own. -/
theorem decode_encode_append (s : Text) (bs : Bytes) :
  decode (encode s ++ bs) = (decode bs).map (s ++ ·)
  := by
  cases hbs : decode bs with
  | some t => rw [← encode_of_decode hbs, ← encode_append, decode_encode, Option.map_some]
  | none =>
      cases hall : decode (encode s ++ bs) with
      | none => rfl
      | some t =>
          obtain ⟨u, -, hu⟩ := eq_append_of_encode_eq (encode_of_decode hall)
          rw [← hu, decode_encode] at hbs
          cases hbs

/-- A character below 128 is one byte, its number. -/
theorem encode_ascii {t : Text} (h : ∀ c ∈ t, c.toNat < 128) :
  encode t = t.map fun c => UInt8.ofNat c.toNat
  := by
  induction t with
  | nil => rfl
  | cons c t ih =>
      have hc : c.val.toNat ≤ 0x7f := Nat.le_of_lt_succ (h c List.mem_cons_self)
      rw [encode_cons, ih fun c hc => h c (List.mem_cons_of_mem _ hc), String.utf8EncodeChar,
        if_pos hc]
      rfl

theorem encode_nuls (n : ℕ) : encode (List.replicate n '\x00') = List.replicate n 0 := by
  rw [encode_ascii, List.map_replicate]
  · rfl
  · intro c hc
    rw [List.eq_of_mem_replicate hc]
    decide

/-- What is encoded is read back without replacement. -/
@[simp] theorem decodeLossy_encode (t : Text) : decodeLossy (encode t) = t := by
  induction t with
  | nil => rw [encode_nil, decodeLossy]
  | cons c t ih =>
      obtain ⟨b, rest, hcons⟩ : ∃ b rest, String.utf8EncodeChar c = b :: rest := by
        apply List.exists_cons_of_length_pos
        rw [String.length_utf8EncodeChar]
        apply Char.utf8Size_pos
      have hsize : c.utf8Size - 1 = rest.length := by
        rw [← String.length_utf8EncodeChar, hcons, List.length_cons, Nat.add_sub_cancel]
      have hchar : (b :: (rest ++ encode t)).toByteArray.utf8DecodeChar? 0 = some c := by
        rw [← List.cons_append, ← hcons, List.toByteArray_append]
        apply ByteArray.utf8DecodeChar?_utf8EncodeChar_append
      rw [encode_cons, hcons, List.cons_append, decodeLossy, hchar]
      simp only
      rw [hsize, List.drop_left, ih]

theorem decodeLossy_of_decode {bs : Bytes} {t : Text} (h : decode bs = some t) :
  decodeLossy bs = t
  := by
  rw [← encode_of_decode h, decodeLossy_encode]

/-- The byte zero encodes only the character zero. -/
theorem nul_of_zero_mem_encode {t : Text} (h : 0 ∈ encode t) : '\x00' ∈ t := by
  have hbyte : ∀ n : ℕ, 0 = UInt8.ofNat n → n % 256 = 0 := by
    intro n hn
    have hnat := congrArg UInt8.toNat hn
    rw [UInt8.toNat_ofNat'] at hnat
    exact hnat.symm
  obtain ⟨c, hc, hzero⟩ := List.mem_flatMap.mp h
  suffices hnat : c.toNat = 0 by
    have hchar : c = '\x00' := by rw [← Char.ofNat_toNat c, hnat]
    rwa [← hchar]
  have hval : c.toNat = c.val.toNat := rfl
  rw [String.utf8EncodeChar] at hzero
  split at hzero
  · have := hbyte _ (List.mem_singleton.mp hzero)
    omega
  split at hzero
  · simp only [List.mem_cons, List.not_mem_nil, or_false] at hzero
    rcases hzero with hzero | hzero <;> have := hbyte _ hzero <;> omega
  split at hzero
  · simp only [List.mem_cons, List.not_mem_nil, or_false] at hzero
    rcases hzero with hzero | hzero | hzero <;> have := hbyte _ hzero <;> omega
  · simp only [List.mem_cons, List.not_mem_nil, or_false] at hzero
    rcases hzero with hzero | hzero | hzero | hzero <;> have := hbyte _ hzero <;> omega

/-- How many bytes one replacement character stands for, where bytes begin with no character: the
longest beginning of a character, or one byte. -/
def invalidLen : Bytes → ℕ
  | b :: c :: rest =>
    let (low, high) : UInt8 × UInt8 :=
      if b = 0xE0 then (0xA0, 0xBF)
      else if b = 0xED then (0x80, 0x9F)
      else if b = 0xF0 then (0x90, 0xBF)
      else if b = 0xF4 then (0x80, 0x8F)
      else (0x80, 0xBF)
    if b < 0xE0 ∨ 0xF4 < b ∨ c < low ∨ high < c then 1
    else if b < 0xF0 then 2
    else
      match rest with
      | d :: _ => if 0x80 ≤ d ∧ d ≤ 0xBF then 3 else 2
      | [] => 2
  | _ => 1

/-- `String::from_utf8_lossy`. -/
def fromUtf8Lossy : Bytes → Text
  | [] => []
  | b :: rest =>
    match (b :: rest).toByteArray.utf8DecodeChar? 0 with
    | some c => c :: fromUtf8Lossy (rest.drop (c.utf8Size - 1))
    | none => '\uFFFD' :: fromUtf8Lossy (rest.drop (invalidLen (b :: rest) - 1))
termination_by bs => bs.length
decreasing_by
  · rw [List.length_drop, List.length_cons]
    omega
  · rw [List.length_drop, List.length_cons]
    omega

@[simp] theorem fromUtf8Lossy_encode (t : Text) : fromUtf8Lossy (encode t) = t := by
  induction t with
  | nil => rw [encode_nil, fromUtf8Lossy]
  | cons c t ih =>
      obtain ⟨b, rest, hcons⟩ : ∃ b rest, String.utf8EncodeChar c = b :: rest := by
        apply List.exists_cons_of_length_pos
        rw [String.length_utf8EncodeChar]
        apply Char.utf8Size_pos
      have hsize : c.utf8Size - 1 = rest.length := by
        rw [← String.length_utf8EncodeChar, hcons, List.length_cons, Nat.add_sub_cancel]
      have hchar : (b :: (rest ++ encode t)).toByteArray.utf8DecodeChar? 0 = some c := by
        rw [← List.cons_append, ← hcons, List.toByteArray_append]
        apply ByteArray.utf8DecodeChar?_utf8EncodeChar_append
      rw [encode_cons, hcons, List.cons_append, fromUtf8Lossy, hchar]
      simp only
      rw [hsize, List.drop_left, ih]

/-- A byte below 128 encodes only its own character. -/
theorem mem_of_byte_mem_encode {c : Char} (hc : c.toNat < 128) {t : Text}
    (h : Bytes.byte c ∈ encode t) :
  c ∈ t
  := by
  have hbyte : ∀ n : ℕ, Bytes.byte c = UInt8.ofNat n → n % 256 = c.toNat := by
    intro n hn
    have hnat := congrArg UInt8.toNat hn
    rw [Bytes.byte, UInt8.toNat_ofNat', UInt8.toNat_ofNat'] at hnat
    omega
  obtain ⟨d, hd, hmem⟩ := List.mem_flatMap.mp h
  suffices hnat : d.toNat = c.toNat by
    have hchar : d = c := by rw [← Char.ofNat_toNat d, hnat, Char.ofNat_toNat]
    rwa [← hchar]
  have hval : d.toNat = d.val.toNat := rfl
  rw [String.utf8EncodeChar] at hmem
  split at hmem
  · have := hbyte _ (List.mem_singleton.mp hmem)
    omega
  split at hmem
  · simp only [List.mem_cons, List.not_mem_nil, or_false] at hmem
    rcases hmem with hmem | hmem <;> have := hbyte _ hmem <;> omega
  split at hmem
  · simp only [List.mem_cons, List.not_mem_nil, or_false] at hmem
    rcases hmem with hmem | hmem | hmem <;> have := hbyte _ hmem <;> omega
  · simp only [List.mem_cons, List.not_mem_nil, or_false] at hmem
    rcases hmem with hmem | hmem | hmem | hmem <;> have := hbyte _ hmem <;> omega

theorem utf8EncodeChar_ascii {c : Char} (hc : c.toNat < 128) :
  String.utf8EncodeChar c = [Bytes.byte c]
  := by
  have h := @encode_ascii [c] (by simpa using hc)
  rwa [encode_cons, encode_nil, List.append_nil] at h

/-- A byte below 128 in an encoding stands where its character begins. -/
theorem exists_append_of_encode_eq {c : Char} (hc : c.toNat < 128) {t : Text} {front rest : Bytes}
    (h : encode t = front ++ Bytes.byte c :: rest) :
  ∃ s u, t = s ++ c :: u ∧ encode s = front ∧ encode u = rest
  := by
  induction t generalizing front with
  | nil => simp at h
  | cons d t ih =>
      rw [encode_cons] at h
      rcases List.append_eq_append_iff.mp h with ⟨bs, hfront, htail⟩ | ⟨bs, hchar, htail⟩
      · obtain ⟨s, u, rfl, rfl, hu⟩ := ih htail
        exact ⟨d :: s, u, rfl, by rw [encode_cons, hfront], hu⟩
      · cases bs with
        | nil =>
            rw [List.append_nil] at hchar
            obtain ⟨s, u, rfl, hs, hu⟩ := @ih [] htail.symm
            exact ⟨d :: s, u, rfl, by rw [encode_cons, hs, hchar, List.append_nil], hu⟩
        | cons b bs =>
            obtain ⟨rfl, htail⟩ := List.cons.inj htail
            -- The byte is one of the first character, so it is the whole of it.
            have hmem : Bytes.byte c ∈ encode [d] := by
              rw [encode_cons, hchar]
              simp
            obtain rfl := List.mem_singleton.mp (mem_of_byte_mem_encode hc hmem)
            rw [utf8EncodeChar_ascii hc] at hchar
            obtain ⟨rfl, hbs⟩ : front = [] ∧ bs = [] := by
              have hlen := congrArg List.length hchar
              simp only [List.length_cons, List.length_append, List.length_nil] at hlen
              exact ⟨List.eq_nil_of_length_eq_zero (by omega),
                List.eq_nil_of_length_eq_zero (by omega)⟩
            subst hbs
            exact ⟨[], t, rfl, rfl, (List.cons.inj htail).2.symm⟩

/-- A text that begins with a byte below 128 is found in an encoding only where it stands. -/
theorem infix_of_encode_infix {c : Char} (hc : c.toNat < 128) {p t : Text}
    (h : encode (c :: p) <:+: encode t) :
  c :: p <:+: t
  := by
  obtain ⟨front, rest, ht⟩ := h
  rw [encode_cons, utf8EncodeChar_ascii hc, List.append_assoc] at ht
  obtain ⟨s, u, rfl, -, hu⟩ := exists_append_of_encode_eq hc ht.symm
  obtain ⟨v, rfl, -⟩ := eq_append_of_encode_eq hu
  exact ⟨s, v, by rw [List.append_assoc, List.cons_append]⟩

end Utf8

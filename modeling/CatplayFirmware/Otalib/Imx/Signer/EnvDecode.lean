import CatplayFirmware.Otalib.Imx.Signer.Env

/-!
# Decoding a pack

A device reads a pack from the end of a block: the length, then the encrypted blocks, which hold
a gzip member with the image. What it reads is the environment and the device tree that were
packed, with every checksum right.
-/

namespace Env

open Bytes Rust Outcome

variable (crates : Crates)

/-- The key or the initialization vector that a device makes of two of its identifiers. -/
def deviceText (a b : UInt32) : Bytes :=
  Utf8.encode (Text.hexDigits 8 a.toNat ++ Text.hexDigits 8 b.toNat)

/-- The bytes are an image of `env` and `dtb`: both are filled up with zeros, and both checksums
are right. -/
structure IsImage (bytes env dtb : Bytes) : Prop where
  length : bytes.length = 0x10000
  envCrc : leNat (slice bytes 0 4) = (crc32 crates (slice bytes 4 0x7FC)).toNat
  env : slice bytes 4 0x7FC = env ++ List.replicate (0x7FC - env.length) 0
  dtb : slice bytes 0x800 0xF7FC = dtb ++ List.replicate (0xF7FC - dtb.length) 0
  crc : leNat (slice bytes 0xFFFC 4) = (crc32 crates (slice bytes 0 0xFFFC)).toNat

/-- A device finds `env` and `dtb` in the last `n` bytes of a block. -/
structure DecodesTo (block : Bytes) (n : ℕ) (env dtb : Bytes) (hwid : Hwid) : Prop where
  room : 16 ≤ n ∧ n ≤ block.length
  size : leNat (slice block (block.length - 4) 4) = n
  zeros : slice block (block.length - 16) 12 = List.replicate 12 0
  blocks : 16 ∣ n
  content : ∃ bytes pad, pad < 16 ∧
    Gzip.readMember crates.deflate (crc32 crates)
      (Cbc.decrypt crates.aes (deviceText hwid.cfg0 hwid.cfg1) (deviceText hwid.mac0 hwid.mac1)
        ((n - 16) / 16) (slice block (block.length - n) (n - 16))) =
      some (bytes, List.replicate pad 0) ∧
    IsImage crates bytes env dtb

variable {crates}

/-! ### The key -/

theorem encode_digitChar {d : ℕ} (h : d < 16) :
  Utf8.encode [Nat.digitChar d] = [hex.getD d 0]
  := by
  revert d
  decide +kernel

theorem shiftRight_and_mask {val : UInt32} {s : ℕ} (h : s < 32) :
  ((val >>> UInt32.ofNat s) &&& 0xF).toNat = val.toNat / 2 ^ s % 16
  := by
  have hmask : (0xF : UInt32).toNat = 2 ^ 4 - 1 := rfl
  rw [UInt32.toNat_and, UInt32.toNat_shiftRight, hmask, Nat.and_two_pow_sub_one_eq_mod,
    Nat.shiftRight_eq_div_pow, UInt32.toNat_ofNat']
  rw [Nat.mod_eq_of_lt (a := s), Nat.mod_eq_of_lt h]
  omega

/-- `hex_write` writes the eight hexadecimal digits of a number. -/
theorem hexWrite_eq (val : UInt32) : hexWrite val = Utf8.encode (Text.hexDigits 8 val.toNat) := by
  have hdigits (k n : ℕ) : Utf8.encode (Text.hexDigits (k + 1) n) =
      Utf8.encode (Text.hexDigits k (n / 16)) ++ [hex.getD (n % 16) 0] := by
    rw [Text.hexDigits, Utf8.encode_append, encode_digitChar (Nat.mod_lt _ (by decide))]
  have hnone (n : ℕ) : Utf8.encode (Text.hexDigits 0 n) = [] := rfl
  have hrange : List.range 8 = [0, 1, 2, 3, 4, 5, 6, 7] := rfl
  rw [hexWrite, hrange]
  simp only [hdigits, hnone, List.map_cons, List.map_nil, Nat.div_div_eq_div_mul,
    List.nil_append, List.cons_append]
  rw [shiftRight_and_mask (by omega), shiftRight_and_mask (by omega),
    shiftRight_and_mask (by omega),
    shiftRight_and_mask (by omega), shiftRight_and_mask (by omega), shiftRight_and_mask (by omega),
    shiftRight_and_mask (by omega), shiftRight_and_mask (by omega)]
  norm_num

theorem formatU32x2_eq (a b : UInt32) : formatU32x2 a b = deviceText a b := by
  rw [formatU32x2, hexWrite_eq, hexWrite_eq, deviceText, Utf8.encode_append]

/-! ### The layers -/

theorem isImage_image {env dtb : Bytes} (henv : env.length ≤ envTotal - 4)
    (hdtb : dtb.length ≤ dtbTotal - 4) :
  IsImage crates (image crates env dtb) env dtb
  := by
  have htotal : envTotal = 0x800 := rfl
  have htotal' : dtbTotal = 0xF800 := rfl
  have hblock : blockLen = 0x10000 := rfl
  obtain ⟨body, hbody⟩ : ∃ body,
      body = env ++ (List.replicate (envTotal - 4 - env.length) 0 : Bytes) := ⟨_, rfl⟩
  obtain ⟨dtbBuf, hdtbBuf⟩ : ∃ dtbBuf,
      dtbBuf = dtb ++ (List.replicate (dtbTotal - 4 - dtb.length) 0 : Bytes) := ⟨_, rfl⟩
  obtain ⟨crc, hcrc⟩ : ∃ crc, crc = leBytes 4 (crc32 crates body).toNat := ⟨_, rfl⟩
  obtain ⟨front, hfront⟩ : ∃ front, front = crc ++ body ++ dtbBuf := ⟨_, rfl⟩
  have hcrcLen : crc.length = 4 := by
    rw [hcrc, length_leBytes]
  have hbodyLen : body.length = 0x7FC := by
    rw [hbody, List.length_append, List.length_replicate]
    omega
  have hdtbLen : dtbBuf.length = 0xF7FC := by
    rw [hdtbBuf, List.length_append, List.length_replicate]
    omega
  have hfrontLen : front.length = 0xFFFC := by
    rw [hfront, List.length_append, List.length_append, hcrcLen, hbodyLen, hdtbLen]
  have himage : image crates env dtb = front ++ leBytes 4 (crc32 crates front).toNat := by
    rw [image, envBlock, ← hbody, ← hcrc, ← hdtbBuf, ← hfront]
  have hparts : image crates env dtb =
      crc ++ (body ++ (dtbBuf ++ leBytes 4 (crc32 crates front).toNat)) := by
    rw [himage, hfront, List.append_assoc, List.append_assoc]
  have henvSlice : slice (image crates env dtb) 4 0x7FC = body := by
    rw [hparts, slice, List.drop_left' hcrcLen, List.take_left' hbodyLen]
  have hdtbSlice : slice (image crates env dtb) 0x800 0xF7FC = dtbBuf := by
    rw [hparts, slice, ← List.append_assoc, List.drop_left', List.take_left' hdtbLen]
    rw [List.length_append, hcrcLen, hbodyLen]
  have hfrontSlice : slice (image crates env dtb) 0 0xFFFC = front := by
    rw [himage, slice, List.drop_zero, List.take_left' hfrontLen]
  constructor
  · rw [length_image henv hdtb]
    rfl
  · rw [henvSlice, hparts, slice, List.drop_zero, List.take_left' hcrcLen, hcrc]
    apply leNat_leBytes (UInt32.toNat_lt _)
  · rw [henvSlice, hbody]
    rfl
  · rw [hdtbSlice, hdtbBuf]
    rfl
  · rw [hfrontSlice, himage, slice, List.drop_left' hfrontLen, List.take_of_length_le]
    · apply leNat_leBytes (UInt32.toNat_lt _)
    · rw [length_leBytes]

/-- What a device decrypts of a pack is the padded member. -/
theorem decrypt_encryptInPlace (hwid : Hwid) {data : Bytes} :
  Cbc.decrypt crates.aes (deviceText hwid.cfg0 hwid.cfg1) (deviceText hwid.mac0 hwid.mac1)
    (data.length / 16) (encryptInPlace crates data (formatU32x2 hwid.cfg0 hwid.cfg1)
      (formatU32x2 hwid.mac0 hwid.mac1)) = data
  := by
  rw [encryptInPlace, ← formatU32x2_eq, ← formatU32x2_eq]
  apply Cbc.decrypt_encrypt (length_formatU32x2 _ _)
  apply Nat.mul_div_le

theorem readMember_padded (content : Bytes) :
  ∃ pad, pad < 16 ∧ Gzip.readMember crates.deflate (crc32 crates) (padded (member crates content)) =
    some (content, List.replicate pad 0)
  := by
  use (16 - (member crates content).length % 16) % 16
  constructor
  · apply Nat.mod_lt _ (by decide)
  · rw [padded, member]
    apply Gzip.readMember_compress
    · rfl
    · rfl

/-- A device decodes a pack at the end of a block. -/
theorem decodesTo_append {env dtb : Bytes} (henv : env.length ≤ envTotal - 4)
    (hdtb : dtb.length ≤ dtbTotal - 4) (hwid : Hwid)
    (hle : (pack crates env dtb hwid).length ≤ blockLen) (before : Bytes) :
  DecodesTo crates (before ++ pack crates env dtb hwid) (pack crates env dtb hwid).length env dtb
    hwid
  := by
  have hblock : blockLen = 0x10000 := rfl
  obtain ⟨data, hdata⟩ : ∃ data, data = padded (member crates (image crates env dtb)) := ⟨_, rfl⟩
  obtain ⟨body, hbody⟩ : ∃ body, body = encryptInPlace crates data
    (formatU32x2 hwid.cfg0 hwid.cfg1) (formatU32x2 hwid.mac0 hwid.mac1) := ⟨_, rfl⟩
  have hlen : (pack crates env dtb hwid).length = data.length + 16 := by
    rw [length_pack, hdata]
  have hbodyLen : body.length = data.length := by
    rw [hbody, length_encryptInPlace _ (length_formatU32x2 _ _)]
  have hparts : before ++ pack crates env dtb hwid =
      before ++ body ++ List.replicate 12 0 ++ leBytes 4 (data.length + 16) := by
    rw [pack, sealBytes, ← hdata, ← hbody, List.append_assoc, List.append_assoc]
  have htotal : (before ++ pack crates env dtb hwid).length = before.length + data.length + 16 := by
    rw [List.length_append, hlen, Nat.add_assoc]
  constructor
  · omega
  · have hfour : (before ++ pack crates env dtb hwid).length - 4 =
        (before ++ body ++ (List.replicate 12 0 : Bytes)).length := by
      rw [htotal, List.length_append, List.length_append, hbodyLen, List.length_replicate]
      omega
    rw [hfour, hparts, slice, List.drop_left, List.take_of_length_le, hlen]
    · apply leNat_leBytes
      omega
    · rw [length_leBytes]
  · have hsixteen : (before ++ pack crates env dtb hwid).length - 16 = (before ++ body).length := by
      rw [htotal, List.length_append, hbodyLen]
      omega
    rw [hsixteen, hparts, slice, List.append_assoc, List.drop_left, List.take_left']
    rw [List.length_replicate]
  · rw [hlen, hdata]
    apply Nat.dvd_add (padded_dvd _) (Nat.dvd_refl 16)
  · obtain ⟨pad, hpad, hread⟩ := @readMember_padded crates (image crates env dtb)
    have hstart : (before ++ pack crates env dtb hwid).length - (pack crates env dtb hwid).length =
        before.length := by
      rw [List.length_append, Nat.add_sub_cancel]
    have hslice : slice (before ++ pack crates env dtb hwid) before.length data.length = body := by
      rw [hparts, slice, List.append_assoc, List.append_assoc, List.drop_left,
        List.take_left' hbodyLen]
    use image crates env dtb, pad, hpad
    constructor
    · rw [hstart, hlen, Nat.add_sub_cancel, hslice, hbody, decrypt_encryptInPlace, hdata, hread]
    · apply isImage_image henv hdtb

/-! ### The block -/

/-- A pack of a buffer that holds it is put at the end of a block. -/
theorem putPacked_eq {data packed : Bytes} (hdata : data.length = envCsfProvisionBlockLen)
    (rest : Bytes) (hle : packed.length ≤ envCsfProvisionBlockLen) :
  putPacked data (packed ++ rest) packed.length =
    .ok (data.take (envCsfProvisionBlockLen - packed.length) ++ packed)
  := by
  rw [putPacked, sliceTo_ok, Except.ok_bind, List.take_left]
  · simp only
    rw [copyFromSlice_ok rfl, overwrite, List.drop_of_length_le, List.append_nil]
    · omega
    · omega
  · rw [List.length_append]
    omega

section

variable {build : Build} {ubootTextBase ubootFlashOffset ubootFlashSize ubootPrintfAddr : UInt32}
  {hwid : Hwid} {data data' : Bytes}

/-- The pack of an environment in a buffer of the size of a block. -/
theorem envPack_provision {env : Bytes} (henv : env.length ≤ envTotal - 4)
    (hle : (pack crates env [] hwid).length ≤ blockLen) :
  envPack crates env [] hwid (List.replicate envCsfProvisionBlockLen 0) =
    .ok (pack crates env [] hwid ++
        (List.replicate envCsfProvisionBlockLen 0).drop (pack crates env [] hwid).length,
      (pack crates env [] hwid).length)
  := by
  apply envPack_ok_iff.mpr
  refine ⟨⟨henv, Nat.zero_le _, ?_, hle⟩, rfl, rfl⟩
  rw [List.length_replicate]
  apply Nat.le_refl

theorem packProvision_ok_iff {packed : Bytes} {size : ℕ} :
  packProvision crates build ubootTextBase ubootFlashOffset ubootFlashSize ubootPrintfAddr hwid =
    .ok (packed, size) ↔
  ∃ env, Shellcode.createEnv build ubootTextBase ubootFlashOffset ubootFlashSize ubootPrintfAddr =
      .ok env ∧
    envPack crates (Utf8.encode env) [] hwid (List.replicate envCsfProvisionBlockLen 0) =
      .ok (packed, size)
  := Except.bind_eq_ok_iff

/-- There is room for the environment that the signer makes. -/
theorem length_createEnv {env : Text} (h : Shellcode.createEnv build ubootTextBase
    ubootFlashOffset ubootFlashSize ubootPrintfAddr = .ok env) :
  (Utf8.encode env).length ≤ envTotal - 4
  := by
  rw [Utf8.length_encode, Shellcode.createEnv_fits h]
  decide

/-- The pack of an environment fits where the zeros behind it are compressed. -/
theorem length_pack_squeezed (hdeflate : crates.deflate = .squeezed envTotal) {env : Bytes}
    (henv : env.length ≤ envTotal - 4) (hwid : Hwid) :
  (pack crates env [] hwid).length ≤ blockLen
  := by
  have htotal : envTotal = 0x800 := rfl
  have htotal' : dtbTotal = 0xF800 := rfl
  have hblock : blockLen = 0x10000 := rfl
  have hlen : (image crates env []).length = blockLen := length_image henv (Nat.zero_le _)
  have hdrop : (image crates env []).drop envTotal = List.replicate (dtbTotal - 4) 0 ++
      leBytes 4 (crc32 crates (envBlock crates env ++ List.replicate (dtbTotal - 4) 0)).toNat := by
    rw [image, List.append_assoc, List.drop_left' (length_envBlock henv)]
    rfl
  have hzeros := Deflate.le_zeros envTotal hdrop (by decide)
  have hle := Deflate.zeros_le envTotal (image crates env [])
  have hcompressed : (crates.deflate.compress (image crates env [])).length =
      (image crates env []).length + 13 - Deflate.zeros envTotal (image crates env []) := by
    rw [hdeflate]
    apply Deflate.length_squeezed <;> omega
  have hmember := @length_member crates (image crates env [])
  rw [length_pack, length_padded]
  omega

/-- A provision block is patched exactly when the pack of its environment fits it, and then the
pack is at its end and nothing before the pack has changed. -/
theorem patchCsfEnvProvisionBlock_ok_iff (hdata : data.length = envCsfProvisionBlockLen) :
  patchCsfEnvProvisionBlock crates build data ubootTextBase ubootFlashOffset ubootFlashSize
    ubootPrintfAddr hwid = (data', .ok ()) ↔
  ∃ env, Shellcode.createEnv build ubootTextBase ubootFlashOffset ubootFlashSize ubootPrintfAddr =
      .ok env ∧
    (pack crates (Utf8.encode env) [] hwid).length ≤ blockLen ∧
    data' = data.take (blockLen - (pack crates (Utf8.encode env) [] hwid).length) ++
      pack crates (Utf8.encode env) [] hwid
  := by
  have hblock : blockLen = envCsfProvisionBlockLen := rfl
  rw [patchCsfEnvProvisionBlock]
  constructor
  · intro h
    split at h
    · cases h
    · next packed size hpacked =>
      obtain ⟨env, henv, hpack⟩ := packProvision_ok_iff.mp hpacked
      obtain ⟨⟨-, -, -, hle⟩, hsize, hpacked⟩ := envPack_ok_iff.mp hpack
      subst hsize hpacked
      rw [putPacked_eq hdata _ hle] at h
      cases h
      exact ⟨env, henv, hle, rfl⟩
  · rintro ⟨env, henv, hle, rfl⟩
    rw [packProvision_ok_iff.mpr ⟨env, henv, envPack_provision (length_createEnv henv) hle⟩]
    simp only
    rw [putPacked_eq hdata _ hle]
    rfl

/-- A call that does not patch a provision block leaves it as it is. -/
theorem patchCsfEnvProvisionBlock_error {fault : Fault Text}
    (h : patchCsfEnvProvisionBlock crates build data ubootTextBase ubootFlashOffset ubootFlashSize
      ubootPrintfAddr hwid = (data', .error fault)) :
  data' = data
  := by
  rw [patchCsfEnvProvisionBlock] at h
  split at h
  · cases h
    rfl
  · split at h
    · cases h
      rfl
    · cases h

end

/-- What is packed is decoded, from the output of `env_pack` and from the end of a patched
provision block, and nothing but the last bytes of the block is written. -/
theorem packed_decodesTo (crates : Crates) (hwid : Hwid) :
  (∀ env dtb out, (envPack crates env dtb hwid out).Post fun (out', n) =>
    DecodesTo crates (out'.take n) n env dtb hwid ∧ out'.drop n = out.drop n) ∧
  ∀ (build : Build) (ubootTextBase ubootFlashOffset ubootFlashSize ubootPrintfAddr : UInt32)
      (data : Vector UInt8 envCsfProvisionBlockLen) (data' : Bytes),
    patchCsfEnvProvisionBlock crates build data.toList ubootTextBase ubootFlashOffset
      ubootFlashSize ubootPrintfAddr hwid = (data', .ok ()) →
    ∃ patchedEnv packed n,
      Shellcode.createEnv build ubootTextBase ubootFlashOffset ubootFlashSize ubootPrintfAddr =
        .ok patchedEnv ∧
      envPack crates (Utf8.encode patchedEnv) [] hwid
        (List.replicate envCsfProvisionBlockLen 0) = .ok (packed, n) ∧
      DecodesTo crates data' n (Utf8.encode patchedEnv) [] hwid ∧
      data'.length = envCsfProvisionBlockLen ∧
      data'.take (envCsfProvisionBlockLen - n) = data.toList.take (envCsfProvisionBlockLen - n)
  := by
  have hblock : blockLen = envCsfProvisionBlockLen := rfl
  constructor
  · rintro env dtb out ⟨out', n⟩ h
    obtain ⟨⟨henv, hdtb, -, hle⟩, rfl, rfl⟩ := envPack_ok_iff.mp h
    simp only
    rw [List.take_left, List.drop_left]
    use decodesTo_append henv hdtb hwid hle []
  · intro build ubootTextBase ubootFlashOffset ubootFlashSize ubootPrintfAddr data data' h
    have hdata : data.toList.length = envCsfProvisionBlockLen := Vector.length_toList
    obtain ⟨env, henv, hle, rfl⟩ := (patchCsfEnvProvisionBlock_ok_iff hdata).mp h
    have hroom := length_createEnv henv
    have hbefore : (data.toList.take
        (blockLen - (pack crates (Utf8.encode env) [] hwid).length)).length =
        blockLen - (pack crates (Utf8.encode env) [] hwid).length := by
      rw [List.length_take]
      omega
    refine ⟨env, _, _, henv, envPack_provision hroom hle,
      decodesTo_append hroom (Nat.zero_le _) hwid hle _, ?_, ?_⟩
    · rw [List.length_append, hbefore]
      omega
    · apply List.take_left' hbefore

end Env

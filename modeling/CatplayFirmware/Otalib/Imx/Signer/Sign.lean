import CatplayFirmware.Otalib.Imx.Signer.EnvDecode

/-!
# Signing an image

An image with the known boot loader is signed by putting a pack at the end of its provision block
and zeros into the encrypted block behind it. The length of the pack is the same for all devices,
so that a second signature covers the first.
-/

namespace Sign

open Bytes Rust Outcome Env

/-- Where the boot loader with the checksum `oldUbootCrc` has its `printf`. -/
def oldUbootPrintfAddr : UInt32 := 0x87fc90e8

/-- The checksum of the one boot loader that is signed for. -/
def oldUbootCrc : UInt32 := 0x26b2a736

/-- Where the environment loads the boot loader from the flash. -/
def ubootTextBase : UInt32 := 0x87800000

def ubootFlashOffset : UInt32 := 0x40000

def ubootFlashSize : UInt32 := 0x80000

/-- The error for any other boot loader. -/
def unknownText : Text := "invalid uboot crc (unknown bootloader revision)".toList

/-- The error of a program that was built without the feature. -/
def disabledText : Text := "sign_wic disabled at compile time".toList

section

variable (crates : Crates)

/-- The checksum of the first 128 KB, with zeros in place of the first 1024 bytes. -/
def calcUbootCrc (wicBuf : Bytes) : Outcome Text UInt32 := do
  let part ← sliceRange wicBuf 0x400 0x20000
  let buf ← copyFromSlice (List.replicate 0x20000 0) 0x400 0x20000 part
  return crc32 crates buf

/-- The end of `sign_wic`, which clears the encrypted block. -/
def clearEncrypted (wicBuf : Bytes) : Bytes × Outcome Text Unit :=
  match sliceRange wicBuf envEncryptedBlock (envEncryptedBlock + envEncryptedBlockLen) with
  | .error fault => (wicBuf, .error fault)
  | .ok block =>
    match patchEncryptedEnvBlock block with
    | .error fault => (wicBuf, .error fault)
    | .ok block => (overwrite wicBuf envEncryptedBlock block, .ok ())

/-- The two patches of `sign_wic`. -/
def patchBlocks (build : Build) (wicBuf : Bytes) (hwid : Hwid) : Bytes × Outcome Text Unit :=
  match sliceRange wicBuf envCsfProvisionBlock (envCsfProvisionBlock + envCsfProvisionBlockLen) with
  | .error fault => (wicBuf, .error fault)
  | .ok block =>
    match patchCsfEnvProvisionBlock crates build block ubootTextBase ubootFlashOffset
        ubootFlashSize oldUbootPrintfAddr hwid with
    | (block, .error fault) => (overwrite wicBuf envCsfProvisionBlock block, .error fault)
    | (block, .ok ()) => clearEncrypted (overwrite wicBuf envCsfProvisionBlock block)

/-- `sign_wic`, with the image as it is after the call, built with the feature `signer` or
without it. -/
def signWic (build : Build) (signer : Bool) (wicBuf : Bytes) (hwid : Hwid) :
    Bytes × Outcome Text Unit :=
  if signer then
    match calcUbootCrc crates wicBuf with
    | .error fault => (wicBuf, .error fault)
    | .ok crc =>
      if crc ≠ oldUbootCrc then (wicBuf, .fail unknownText)
      else patchBlocks crates build wicBuf hwid
  else (wicBuf, .fail disabledText)

/-- An image with a pack before the end of the provision block and zeros in the encrypted block. -/
def signedWith (wicBuf packed : Bytes) : Bytes :=
  wicBuf.take (0x30000 - packed.length) ++ packed ++ List.replicate 0x10000 0 ++
    wicBuf.drop 0x40000

variable {crates}

/-! ### The blocks -/

/-- The encrypted block is cleared and the rest is as before. -/
theorem clearEncrypted_eq {wicBuf : Bytes} (h : 0x40000 ≤ wicBuf.length) :
  clearEncrypted wicBuf =
    (wicBuf.take 0x30000 ++ List.replicate 0x10000 0 ++ wicBuf.drop 0x40000, .ok ())
  := by
  have hstart : envEncryptedBlock = 0x30000 := rfl
  have hlen : envEncryptedBlockLen = 0x10000 := rfl
  have hblock : (slice wicBuf envEncryptedBlock
      (envEncryptedBlock + envEncryptedBlockLen - envEncryptedBlock)).length = 0x10000 := by
    rw [length_slice]
    · rfl
    · omega
  rw [clearEncrypted, sliceRange_ok (by omega) (by omega)]
  simp only
  rw [patchEncryptedEnvBlock, copyFromSlice_ok (by rw [List.length_replicate]; rfl) (by omega),
    overwrite_all (by rw [hblock, List.length_replicate, hlen])]
  simp only
  rw [overwrite, List.length_replicate]
  rfl

/-- The image before the encrypted block, with another end of the provision block. -/
theorem overwrite_provision {wicBuf packed : Bytes} (h : 0x40000 ≤ wicBuf.length)
    (hle : packed.length ≤ blockLen) :
  overwrite wicBuf envCsfProvisionBlock
    ((slice wicBuf envCsfProvisionBlock 0x10000).take (blockLen - packed.length) ++ packed) =
    wicBuf.take (0x30000 - packed.length) ++ packed ++ wicBuf.drop 0x30000
  := by
  have hstart : envCsfProvisionBlock = 0x20000 := rfl
  have hblock : blockLen = 0x10000 := rfl
  have htake : (slice wicBuf envCsfProvisionBlock 0x10000).take (blockLen - packed.length) =
      slice wicBuf envCsfProvisionBlock (blockLen - packed.length) := by
    rw [slice, List.take_take, slice, Nat.min_eq_left (by omega)]
  have hlen : (slice wicBuf envCsfProvisionBlock (blockLen - packed.length)).length =
      blockLen - packed.length := by
    apply length_slice
    omega
  have hstop : envCsfProvisionBlock + (blockLen - packed.length) = 0x30000 - packed.length := by
    omega
  have hend : envCsfProvisionBlock + (blockLen - packed.length + packed.length) = 0x30000 := by
    omega
  rw [htake, overwrite, List.length_append, hlen, hend, ← List.append_assoc, take_append_slice,
    hstop]

/-- Behind a pack in the provision block, clearing makes the signed image. -/
theorem clearEncrypted_patched {wicBuf packed : Bytes} (h : 0x40000 ≤ wicBuf.length)
    (hle : packed.length ≤ 0x10000) :
  clearEncrypted (wicBuf.take (0x30000 - packed.length) ++ packed ++ wicBuf.drop 0x30000) =
    (signedWith wicBuf packed, .ok ())
  := by
  have hfront : (wicBuf.take (0x30000 - packed.length) ++ packed).length = 0x30000 := by
    rw [List.length_append, List.length_take]
    omega
  rw [clearEncrypted_eq]
  · have hback : 0x40000 = (wicBuf.take (0x30000 - packed.length) ++ packed).length + 0x10000 := by
      rw [hfront]
    rw [List.take_left' hfront, hback, List.drop_length_add_append, List.drop_drop, signedWith]
  · rw [List.length_append, hfront, List.length_drop]
    omega

/-- The provision block of an image. -/
theorem length_provision {wicBuf : Bytes} (h : 0x40000 ≤ wicBuf.length) :
  (slice wicBuf envCsfProvisionBlock 0x10000).length = envCsfProvisionBlockLen
  := by
  apply length_slice
  have hstart : envCsfProvisionBlock = 0x20000 := rfl
  omega

/-- The slice of the provision block is in range. -/
theorem patchBlocks_eq {build : Build} {wicBuf : Bytes} {hwid : Hwid}
    (h : 0x40000 ≤ wicBuf.length) :
  patchBlocks crates build wicBuf hwid =
    match patchCsfEnvProvisionBlock crates build (slice wicBuf envCsfProvisionBlock 0x10000)
        ubootTextBase ubootFlashOffset ubootFlashSize oldUbootPrintfAddr hwid with
    | (block, .error fault) => (overwrite wicBuf envCsfProvisionBlock block, .error fault)
    | (block, .ok ()) => clearEncrypted (overwrite wicBuf envCsfProvisionBlock block)
  := by
  have hstart : envCsfProvisionBlock = 0x20000 := rfl
  have hlen : envCsfProvisionBlockLen = 0x10000 := rfl
  have hblock : sliceRange wicBuf envCsfProvisionBlock
      (envCsfProvisionBlock + envCsfProvisionBlockLen) =
      (.ok (slice wicBuf envCsfProvisionBlock 0x10000) : Outcome Text Bytes) := by
    rw [sliceRange_ok (by omega) (by omega), hlen, Nat.add_sub_cancel_left]
  -- for every patch: the kernel would evaluate this one to see that the match is decided
  have hpatch (patch : Bytes → Bytes × Outcome Text Unit) :
      (match sliceRange wicBuf envCsfProvisionBlock
        (envCsfProvisionBlock + envCsfProvisionBlockLen) with
      | .error fault => (wicBuf, .error fault)
      | .ok block => patch block) = patch (slice wicBuf envCsfProvisionBlock 0x10000) := by
    rw [hblock]
  apply hpatch

/-- The blocks are patched exactly when there is an environment and its pack fits. -/
theorem patchBlocks_ok_iff {build : Build} {wicBuf wicBuf' : Bytes} {hwid : Hwid}
    (h : 0x40000 ≤ wicBuf.length) :
  patchBlocks crates build wicBuf hwid = (wicBuf', .ok ()) ↔
    ∃ env, Shellcode.createEnv build ubootTextBase ubootFlashOffset ubootFlashSize
        oldUbootPrintfAddr = .ok env ∧
      (pack crates (Utf8.encode env) [] hwid).length ≤ blockLen ∧
      wicBuf' = signedWith wicBuf (pack crates (Utf8.encode env) [] hwid)
  := by
  rw [patchBlocks_eq h]
  constructor
  · intro hpatch
    split at hpatch
    · cases hpatch
    · next block hblock =>
      obtain ⟨env, henv, hle, rfl⟩ :=
        (patchCsfEnvProvisionBlock_ok_iff (length_provision h)).mp hblock
      rw [overwrite_provision h hle, clearEncrypted_patched h hle] at hpatch
      cases hpatch
      use env
  · rintro ⟨env, henv, hle, rfl⟩
    have hblock := (patchCsfEnvProvisionBlock_ok_iff (length_provision h)).mpr
      ⟨env, henv, hle, rfl⟩
    rw [hblock]
    simp only
    rw [overwrite_provision h hle, clearEncrypted_patched h hle]

/-- Whatever fails is found before anything is written. -/
theorem patchBlocks_error {build : Build} {wicBuf wicBuf' : Bytes} {hwid : Hwid}
    {fault : Fault Text} (h : 0x40000 ≤ wicBuf.length)
    (hpatch : patchBlocks crates build wicBuf hwid = (wicBuf', .error fault)) :
  wicBuf' = wicBuf
  := by
  rw [patchBlocks_eq h] at hpatch
  split at hpatch
  · next block fault hblock =>
    obtain rfl := patchCsfEnvProvisionBlock_error hblock
    cases hpatch
    apply overwrite_slice
    have hstart : envCsfProvisionBlock = 0x20000 := rfl
    omega
  · next block hblock =>
    obtain ⟨env, henv, hle, rfl⟩ :=
      (patchCsfEnvProvisionBlock_ok_iff (length_provision h)).mp hblock
    rw [overwrite_provision h hle, clearEncrypted_patched h hle] at hpatch
    cases hpatch

/-! ### The image -/

/-- The image before the pack is not touched. -/
theorem take_signedWith {wicBuf packed : Bytes} (h : 0x40000 ≤ wicBuf.length) {n : ℕ}
    (hn : n ≤ 0x30000 - packed.length) :
  (signedWith wicBuf packed).take n = wicBuf.take n
  := by
  have hlen : (wicBuf.take (0x30000 - packed.length)).length = 0x30000 - packed.length := by
    rw [List.length_take]
    omega
  rw [signedWith, List.append_assoc, List.append_assoc, List.take_append_of_le_length (by omega),
    List.take_take, Nat.min_eq_left hn]

/-- The encrypted block ends where it did. -/
theorem length_signedWith_front {wicBuf packed : Bytes} (h : 0x40000 ≤ wicBuf.length)
    (hle : packed.length ≤ 0x10000) :
  (wicBuf.take (0x30000 - packed.length) ++ packed ++ List.replicate 0x10000 0).length = 0x40000
  := by
  rw [List.length_append, List.length_append, List.length_take, List.length_replicate]
  omega

/-- The image behind the encrypted block is not touched. -/
theorem drop_signedWith {wicBuf packed : Bytes} (h : 0x40000 ≤ wicBuf.length)
    (hle : packed.length ≤ 0x10000) :
  (signedWith wicBuf packed).drop 0x40000 = wicBuf.drop 0x40000
  := List.drop_left' (length_signedWith_front h hle)

/-- The image keeps its length. -/
theorem length_signedWith {wicBuf packed : Bytes} (h : 0x40000 ≤ wicBuf.length)
    (hle : packed.length ≤ 0x10000) :
  (signedWith wicBuf packed).length = wicBuf.length
  := by
  rw [signedWith, List.length_append, length_signedWith_front h hle, List.length_drop]
  omega

/-- A second signature of the same length covers the first. -/
theorem signedWith_signedWith {wicBuf packed packed' : Bytes} (h : 0x40000 ≤ wicBuf.length)
    (hle : packed.length ≤ 0x10000) (hlen : packed'.length = packed.length) :
  signedWith (signedWith wicBuf packed) packed' = signedWith wicBuf packed'
  := by
  rw [signedWith, drop_signedWith h hle, take_signedWith h (by omega), ← signedWith]

/-- The checksum of the boot loader is a function of the first bytes of an image. -/
theorem calcUbootCrc_congr {wicBuf wicBuf' : Bytes} (h : 0x20000 ≤ wicBuf.length)
    (h' : 0x20000 ≤ wicBuf'.length) (htake : wicBuf'.take 0x20000 = wicBuf.take 0x20000) :
  calcUbootCrc crates wicBuf' = calcUbootCrc crates wicBuf
  := by
  have hslice : slice wicBuf' 0x400 (0x20000 - 0x400) = slice wicBuf 0x400 (0x20000 - 0x400) := by
    rw [slice, slice, ← List.drop_take, ← List.drop_take, htake]
  rw [calcUbootCrc, calcUbootCrc, sliceRange_ok (by omega) h', sliceRange_ok (by omega) h, hslice]

/-- A signature lies behind the bytes that the checksum is about. -/
theorem calcUbootCrc_signedWith {wicBuf packed : Bytes} (h : 0x40000 ≤ wicBuf.length)
    (hle : packed.length ≤ 0x10000) :
  calcUbootCrc crates (signedWith wicBuf packed) = calcUbootCrc crates wicBuf
  := by
  apply calcUbootCrc_congr (by omega)
  · rw [length_signedWith h hle]
    omega
  · apply take_signedWith h
    omega

/-- An image is signed exactly when it has the known boot loader and the pack of its environment
fits the provision block. -/
theorem signWic_ok_iff {build : Build} {signer : Bool} {wicBuf wicBuf' : Bytes} {hwid : Hwid}
    (h : 0x40000 ≤ wicBuf.length) :
  signWic crates build signer wicBuf hwid = (wicBuf', .ok ()) ↔
    signer = true ∧ calcUbootCrc crates wicBuf = .ok oldUbootCrc ∧
    ∃ env, Shellcode.createEnv build ubootTextBase ubootFlashOffset ubootFlashSize
        oldUbootPrintfAddr = .ok env ∧
      (pack crates (Utf8.encode env) [] hwid).length ≤ blockLen ∧
      wicBuf' = signedWith wicBuf (pack crates (Utf8.encode env) [] hwid)
  := by
  rw [← patchBlocks_ok_iff h, signWic]
  constructor
  · intro hsign
    split at hsign
    · next hsigner =>
      split at hsign
      · cases hsign
      · next crc hcrc =>
        split at hsign
        · cases hsign
        · next hold =>
          rw [Decidable.not_not] at hold
          rw [hold] at hcrc
          exact ⟨hsigner, hcrc, hsign⟩
    · cases hsign
  · rintro ⟨hsigner, hcrc, hpatch⟩
    rw [if_pos hsigner, hcrc]
    simp only
    rw [if_neg (fun hne => hne rfl), hpatch]

/-- Signing keeps the length of an image. -/
theorem length_signWic {build : Build} {signer : Bool} {wicBuf wicBuf' : Bytes} {hwid : Hwid}
    (h : 0x40000 ≤ wicBuf.length)
    (hsign : signWic crates build signer wicBuf hwid = (wicBuf', .ok ())) :
  wicBuf'.length = wicBuf.length
  := by
  obtain ⟨-, -, env, -, hle, rfl⟩ := (signWic_ok_iff h).mp hsign
  exact length_signedWith h hle

/-- An image that is not signed is left as it is. -/
theorem signWic_error {build : Build} {signer : Bool} {wicBuf wicBuf' : Bytes} {hwid : Hwid}
    {fault : Fault Text} (h : 0x40000 ≤ wicBuf.length)
    (hsign : signWic crates build signer wicBuf hwid = (wicBuf', .error fault)) :
  wicBuf' = wicBuf
  := by
  rw [signWic] at hsign
  split at hsign
  · split at hsign
    · cases hsign
      rfl
    · split at hsign
      · cases hsign
        rfl
      · apply patchBlocks_error h hsign
  · cases hsign
    rfl

/-- A signed image is signed for another device as the image before it is. -/
theorem signWic_signed {build : Build} {signer : Bool} {wicBuf wicBuf' : Bytes} {hwid : Hwid}
    (h : 0x40000 ≤ wicBuf.length)
    (hsign : signWic crates build signer wicBuf hwid = (wicBuf', .ok ())) (hwid' : Hwid) :
  signWic crates build signer wicBuf' hwid' = signWic crates build signer wicBuf hwid'
  := by
  obtain ⟨hsigner, hcrc, env, henv, hle, rfl⟩ := (signWic_ok_iff h).mp hsign
  have hlen : (pack crates (Utf8.encode env) [] hwid').length =
      (pack crates (Utf8.encode env) [] hwid).length := by
    rw [length_pack, length_pack]
  have hlong := length_signedWith h hle
  have hagain := (signWic_ok_iff (hlong ▸ h)).mpr ⟨hsigner, (calcUbootCrc_signedWith h hle).trans
    hcrc, env, henv, hlen ▸ hle, rfl⟩
  have hfirst := (signWic_ok_iff h).mpr ⟨hsigner, hcrc, env, henv, hlen ▸ hle, rfl⟩
  rw [hagain, hfirst, signedWith_signedWith h hle hlen]

end

/-- Signing an image leaves it as it is or changes its two blocks only, and signing it again is
signing it once. -/
theorem signWic_frame (crates : Crates) (build : Build) (signer : Bool) {wicBuf : Bytes}
    (h : 0x40000 ≤ wicBuf.length) :
  (∀ hwid wicBuf' fault, signWic crates build signer wicBuf hwid = (wicBuf', .error fault) →
    wicBuf' = wicBuf) ∧
  (∀ hwid wicBuf', signWic crates build signer wicBuf hwid = (wicBuf', .ok ()) →
    wicBuf'.length = wicBuf.length ∧
    (∀ i, i < 0x20000 ∨ 0x40000 ≤ i → wicBuf'[i]? = wicBuf[i]?) ∧
    calcUbootCrc crates wicBuf' = calcUbootCrc crates wicBuf) ∧
  ∀ hwid₁ hwid₂, signWic crates build signer (signWic crates build signer wicBuf hwid₁).1 hwid₂ =
    signWic crates build signer wicBuf hwid₂
  := by
  refine ⟨fun hwid wicBuf' fault => signWic_error h, ?_, ?_⟩
  · intro hwid wicBuf' hsign
    obtain ⟨-, -, env, -, hle, rfl⟩ := (signWic_ok_iff h).mp hsign
    refine ⟨length_signWic h hsign, ?_, calcUbootCrc_signedWith h hle⟩
    have hblock : blockLen = 0x10000 := rfl
    rintro i (hbefore | hbehind)
    · rw [← List.getElem?_take_of_lt hbefore, take_signedWith h (by omega),
        List.getElem?_take_of_lt hbefore]
    · obtain ⟨k, rfl⟩ := Nat.exists_eq_add_of_le hbehind
      rw [← List.getElem?_drop, drop_signedWith h hle, List.getElem?_drop]
  · intro hwid₁ hwid₂
    rcases hsign : signWic crates build signer wicBuf hwid₁ with ⟨wicBuf', fault | done⟩
    · obtain rfl := signWic_error h hsign
      rfl
    · apply signWic_signed h hsign

/-! ### An image that is signed -/

/-- The checksum of an image whose first bytes are zeros. -/
theorem calcUbootCrc_eq {crates : Crates} {wicBuf : Bytes} (h : 0x20000 ≤ wicBuf.length)
    (hzeros : wicBuf.take 0x400 = List.replicate 0x400 0) :
  calcUbootCrc crates wicBuf = .ok (crc32 crates (wicBuf.take 0x20000))
  := by
  have hpart : (slice wicBuf 0x400 (0x20000 - 0x400)).length = 0x20000 - 0x400 :=
    length_slice (by omega)
  have hstop : (0x20000 : ℕ) = 0x400 + (slice wicBuf 0x400 (0x20000 - 0x400)).length := by
    rw [hpart]
  have hfront : (List.replicate 0x20000 0 : Bytes).take 0x400 = wicBuf.take 0x400 := by
    rw [List.take_replicate, hzeros]
    rfl
  rw [calcUbootCrc, sliceRange_ok (by omega) h, Except.ok_bind,
    copyFromSlice_ok hstop (by rw [List.length_replicate]), Except.ok_bind, overwrite, ← hstop,
    hfront, List.drop_of_length_le (by rw [List.length_replicate]), List.append_nil,
    take_append_slice]
  rfl

/-- Four bytes behind zeros that make them the known boot loader. -/
def bootBytes (n : ℕ) : Bytes :=
  List.replicate n 0 ++ Crc32Hasher.forge
    ((List.replicate n 0).foldl Crc32Hasher.byte 0xFFFFFFFF) (~~~oldUbootCrc)

theorem length_bootBytes (n : ℕ) : (bootBytes n).length = n + 4 := by
  rw [bootBytes, List.length_append, List.length_replicate, Crc32Hasher.length_forge]

/-- An image that begins with the known boot loader. -/
def oldImage (rest : Bytes) : Bytes := bootBytes 0x1fffc ++ rest

theorem length_oldImage (rest : Bytes) : (oldImage rest).length = 0x20000 + rest.length := by
  rw [oldImage, List.length_append, length_bootBytes]

/-- The four bytes behind the zeros make the checksum the known one. -/
theorem calcUbootCrc_oldImage (aes : BlockCipher) (deflate : Deflate) (rest : Bytes) :
  calcUbootCrc ⟨aes, deflate, .ieee⟩ (oldImage rest) = .ok oldUbootCrc
  := by
  have hboot : (oldImage rest).take 0x20000 = bootBytes 0x1fffc :=
    List.take_left' (length_bootBytes 0x1fffc)
  have hzeros : (oldImage rest).take 0x400 = List.replicate 0x400 0 := by
    rw [oldImage, bootBytes, List.append_assoc, List.take_append_of_le_length, List.take_replicate]
    · rfl
    · rw [List.length_replicate]
      decide
  rw [calcUbootCrc_eq (by rw [length_oldImage]; exact Nat.le_add_right ..) hzeros, hboot]
  exact congrArg Except.ok (Crc32Hasher.crc32_append_forge _ oldUbootCrc)

/-- An image with the known boot loader is signed where the zeros behind the environment are
compressed. -/
theorem signWic_oldImage {rest : Bytes} (hrest : 0x20000 ≤ rest.length) (hwid : Hwid) :
  ∃ signed, signWic ⟨Cbc.vernam, .squeezed envTotal, .ieee⟩ ⟨64, false⟩ true (oldImage rest) hwid =
    (signed, .ok ())
  := by
  have hlong : 0x40000 ≤ (oldImage rest).length := by
    rw [length_oldImage]
    omega
  have hcrc := calcUbootCrc_oldImage Cbc.vernam (.squeezed envTotal) rest
  have hmade : (Shellcode.createEnv ⟨64, false⟩ ubootTextBase ubootFlashOffset ubootFlashSize
      oldUbootPrintfAddr).map (fun _ => ()) = .ok () := by
    decide +kernel
  obtain ⟨env, henv, -⟩ := Except.map_eq_ok_iff.mp hmade
  exact ⟨_, (signWic_ok_iff hlong).mpr
    ⟨rfl, hcrc, env, henv, length_pack_squeezed rfl (length_createEnv henv) hwid, rfl⟩⟩

/-- The blocks behind the boot loader are full of ones at first. -/
theorem signWic_frame_signed :
  let crates : Crates := ⟨Cbc.vernam, .squeezed envTotal, .ieee⟩
  let image := oldImage (List.replicate 0x20000 1)
  ∃ signed, signWic crates ⟨64, false⟩ true image ⟨1, 2, 3, 4⟩ = (signed, .ok ()) ∧
    signed.length = image.length ∧
    (∀ i, i < 0x20000 ∨ 0x40000 ≤ i → signed[i]? = image[i]?) ∧
    calcUbootCrc crates signed = .ok oldUbootCrc ∧
    ∃ again, signWic crates ⟨64, false⟩ true signed ⟨5, 6, 7, 8⟩ = (again, .ok ()) ∧
      signWic crates ⟨64, false⟩ true image ⟨5, 6, 7, 8⟩ = (again, .ok ())
  := by
  intro crates image
  have hrest : 0x20000 ≤ (List.replicate 0x20000 1 : Bytes).length := by rw [List.length_replicate]
  have hlong : 0x40000 ≤ image.length := by
    rw [length_oldImage, List.length_replicate]
  obtain ⟨-, hframe, hagain⟩ := signWic_frame crates ⟨64, false⟩ true hlong
  obtain ⟨signed, hsigned⟩ := signWic_oldImage hrest ⟨1, 2, 3, 4⟩
  obtain ⟨again, hdirect⟩ := signWic_oldImage hrest ⟨5, 6, 7, 8⟩
  obtain ⟨hlen, hsame, hcrc⟩ := hframe _ _ hsigned
  have hsecond := hagain ⟨1, 2, 3, 4⟩ ⟨5, 6, 7, 8⟩
  rw [hsigned, hdirect] at hsecond
  exact ⟨signed, hsigned, hlen, hsame, hcrc.trans (calcUbootCrc_oldImage ..), again, hsecond,
    hdirect⟩

end Sign

import CatplayFirmware.Otalib.Imx.Hwid
import CatplayFirmware.Otalib.Imx.Signer.Shellcode
import CatplayFirmware.Support.Cbc
import CatplayFirmware.Support.Crc32
import CatplayFirmware.Support.Gzip
import CatplayFirmware.Support.Utf8

/-!
# Signed environment blocks

An environment and a device tree are put into an image of 64 KiB with two checksums, which is
compressed to a gzip member, padded with zeros, encrypted with the identifiers of a device, and
followed by twelve zeros and the length of all of it. A signed image has such a pack at the end
of its provision block.
-/

namespace Env

open Bytes Rust Outcome

/-- What the signer uses of other crates: `aes`, `miniz_oxide` and `crc32fast`. -/
structure Crates where
  aes : BlockCipher
  deflate : Deflate
  hasher : Crc32Hasher

/-- Where the provision block is in an image, right before the encrypted block. -/
def envCsfProvisionBlock : ℕ := 0x20000

def envCsfProvisionBlockLen : ℕ := 0x10000

def envEncryptedBlock : ℕ := 0x30000

def envEncryptedBlockLen : ℕ := 0x10000

/-- The length of the environment with its checksum. -/
def envTotal : ℕ := 0x800

/-- What is left for the device tree and the checksum of all. -/
def dtbTotal : ℕ := 0x10000 - 0x800

def blockLen : ℕ := 0x10000

/-- The digits of `hex_write`. -/
def hex : Bytes := Utf8.encode "0123456789abcdef".toList

/-- The bytes that `hex_write` writes. -/
def hexWrite (val : UInt32) : Bytes :=
  (List.range 8).map fun i =>
    hex.getD ((val >>> UInt32.ofNat (28 - i * 4)) &&& 0xF).toNat 0

/-- Two numbers as sixteen digits, which are a key or a first block. -/
def formatU32x2 (a b : UInt32) : Bytes := hexWrite a ++ hexWrite b

/-- The constant header of a member. -/
def gzipHeader : Bytes := [0x1F, 0x8B, 0x08, 0x00, 0x00, 0x00, 0x00, 0x00, 0x00, 0x03]

/-! ### Packing -/

section

variable (crates : Crates)

/-- The whole blocks of the data, encrypted one after another. -/
def encryptInPlace (data key iv : Bytes) : Bytes :=
  Cbc.encrypt crates.aes key iv (data.length / 16) data

def crc32 (data : Bytes) : UInt32 := crates.hasher.crc32 data

/-- The checksum of two buffers, one after the other. -/
def crc32x2 (data dataB : Bytes) : UInt32 :=
  crates.hasher.finalize
    (crates.hasher.update (crates.hasher.update crates.hasher.new data) dataB)

/-- `gzip_compress`, with the buffer as it is after the call. -/
def gzipCompress (input out : Bytes) : Outcome Text (Bytes × ℕ) :=
  if out.length < gzipHeader.length then .fail "buffer too small".toList
  else do
    let out ← copyFromSlice out 0 gzipHeader.length gzipHeader
    let pos := gzipHeader.length
    let compressed := crates.deflate.compress input
    if out.length < pos + compressed.length + 8 then .fail "buffer too small".toList
    else do
      let out ← copyFromSlice out pos (pos + compressed.length) compressed
      let pos := pos + compressed.length
      let crc := crc32 crates input
      let out ← copyFromSlice out pos (pos + 4) (leBytes 4 crc.toNat)
      let pos := pos + 4
      let out ← copyFromSlice out pos (pos + 4) (leBytes 4 (input.length % 2 ^ 32))
      return (out, pos + 4)

/-- The image that `env_pack` makes of an environment and a device tree. -/
def rawBlock (env dtb : Bytes) : Outcome Text Bytes := do
  let envBuf ← copyFromSlice (List.replicate envTotal 0) 4 (4 + env.length) env
  let envCrc := crc32 crates (envBuf.drop 4)
  let envBuf ← copyFromSlice envBuf 0 4 (leBytes 4 envCrc.toNat)
  let dtbBuf ← copyFromSlice (List.replicate (dtbTotal - 4) 0) 0 dtb.length dtb
  let crc := crc32x2 crates envBuf dtbBuf
  let raw ← copyFromSlice (List.replicate blockLen 0) 0 envTotal envBuf
  let raw ← copyFromSlice raw envTotal (envTotal + (dtbTotal - 4)) dtbBuf
  copyFromSlice raw (blockLen - 4) blockLen (leBytes 4 crc.toNat)

/-- The rest of `env_pack`, from the compressed image of `dataLen` bytes on, with `out` as it is
after the call. -/
def sealBlock (hwid : Hwid) (gzBuf : Bytes) (dataLen : ℕ) (out : Bytes) :
    Outcome Text (Bytes × ℕ) := do
  let key := formatU32x2 hwid.cfg0 hwid.cfg1
  let iv := formatU32x2 hwid.mac0 hwid.mac1
  let padLen := (16 - dataLen % 16) % 16
  let gzBuf ← copyFromSlice gzBuf dataLen (dataLen + padLen) (List.replicate padLen 0)
  let dataLen := dataLen + padLen
  let data ← sliceTo gzBuf dataLen
  let gzBuf := overwrite gzBuf 0 (encryptInPlace crates data key iv)
  let offset := (dataLen + 16) % 2 ^ 32
  let gzBuf ← copyFromSlice gzBuf dataLen (dataLen + 12) (List.replicate 12 0)
  let gzBuf ← copyFromSlice gzBuf (dataLen + 12) (dataLen + 16) (leBytes 4 offset)
  let dataLen := dataLen + 16
  if 0x10000 < dataLen then .fail "compressed too big".toList
  else do
    let packed ← sliceTo gzBuf dataLen
    let out ← copyFromSlice out 0 dataLen packed
    return (out, dataLen)

/-- `env_pack`, with the output as it is after the call. -/
def envPack (env dtb : Bytes) (hwid : Hwid) (out : Bytes) : Outcome Text (Bytes × ℕ) :=
  if envTotal - 4 < env.length then .fail "env too big".toList
  else if dtbTotal - 4 < dtb.length then .fail "dtb too big".toList
  else if out.length < blockLen then .fail "output too small".toList
  else do
    let raw ← rawBlock crates env dtb
    let (gzBuf, dataLen) ← gzipCompress crates raw (List.replicate blockLen 0)
    sealBlock crates hwid gzBuf dataLen out

/-- The pack that is put into a provision block. -/
def packProvision (build : Build)
    (ubootTextBase ubootFlashOffset ubootFlashSize ubootPrintfAddr : UInt32) (hwid : Hwid) :
    Outcome Text (Bytes × ℕ) := do
  let patchedEnv ← Shellcode.createEnv build ubootTextBase ubootFlashOffset ubootFlashSize
    ubootPrintfAddr
  envPack crates (Utf8.encode patchedEnv) [] hwid (List.replicate envCsfProvisionBlockLen 0)

/-- The end of `patch_csf_env_provision_block`, which puts the first `size` bytes of a pack at the
end of the block. -/
def putPacked (data packed : Bytes) (size : ℕ) : Outcome Text Bytes := do
  let packed ← sliceTo packed size
  let s := envCsfProvisionBlockLen - size
  copyFromSlice data s (s + size) packed

/-- `patch_csf_env_provision_block`, with the block as it is after the call. -/
def patchCsfEnvProvisionBlock (build : Build) (data : Bytes)
    (ubootTextBase ubootFlashOffset ubootFlashSize ubootPrintfAddr : UInt32) (hwid : Hwid) :
    Bytes × Outcome Text Unit :=
  match packProvision crates build ubootTextBase ubootFlashOffset ubootFlashSize ubootPrintfAddr
      hwid with
  | .error fault => (data, .error fault)
  | .ok (packed, size) =>
    match putPacked data packed size with
    | .error fault => (data, .error fault)
    | .ok data => (data, .ok ())

/-- `patch_encrypted_env_block`. -/
def patchEncryptedEnvBlock (data : Bytes) : Outcome Text Bytes :=
  copyFromSlice data 0 envEncryptedBlockLen (List.replicate envEncryptedBlockLen 0)

/-! ### What a pack is -/

/-- An environment filled up with zeros, behind its checksum. -/
def envBlock (env : Bytes) : Bytes :=
  let body := env ++ List.replicate (envTotal - 4 - env.length) 0
  leBytes 4 (crc32 crates body).toNat ++ body

/-- The image of an environment and a device tree. -/
def image (env dtb : Bytes) : Bytes :=
  let front := envBlock crates env ++ (dtb ++ List.replicate (dtbTotal - 4 - dtb.length) 0)
  front ++ leBytes 4 (crc32 crates front).toNat

/-- The gzip member with some content. -/
def member (content : Bytes) : Bytes :=
  gzipHeader ++ crates.deflate.compress content ++ Gzip.trailer (crc32 crates) content

/-- Some bytes filled up with zeros to a number of blocks. -/
def padded (bytes : Bytes) : Bytes :=
  bytes ++ List.replicate ((16 - bytes.length % 16) % 16) 0

/-- Some blocks encrypted for a device, with twelve zeros and the length of all behind them. -/
def sealBytes (hwid : Hwid) (data : Bytes) : Bytes :=
  encryptInPlace crates data (formatU32x2 hwid.cfg0 hwid.cfg1) (formatU32x2 hwid.mac0 hwid.mac1) ++
    (List.replicate 12 0 ++ leBytes 4 (data.length + 16))

/-- The pack of an environment and a device tree for a device. -/
def pack (env dtb : Bytes) (hwid : Hwid) : Bytes :=
  sealBytes crates hwid (padded (member crates (image crates env dtb)))

variable {crates}

/-! ### The image -/

/-- Eight digits. -/
theorem length_hexWrite (val : UInt32) : (hexWrite val).length = 8 := by
  rw [hexWrite, List.length_map, List.length_range]

theorem length_formatU32x2 (a b : UInt32) : (formatU32x2 a b).length = 16 := by
  rw [formatU32x2, List.length_append, length_hexWrite, length_hexWrite]

/-- The checksum of two buffers is that of both together. -/
theorem crc32x2_eq (a b : Bytes) : crc32x2 crates a b = crc32 crates (a ++ b) :=
  crates.hasher.update_update _ a b

/-- The environment takes its length, however short it is. -/
theorem length_envBlock {env : Bytes} (h : env.length ≤ envTotal - 4) :
  (envBlock crates env).length = envTotal
  := by
  have htotal : envTotal = 0x800 := rfl
  rw [envBlock, List.length_append, length_leBytes, List.length_append, List.length_replicate]
  omega

/-- The image takes a block. -/
theorem length_image {env dtb : Bytes} (henv : env.length ≤ envTotal - 4)
    (hdtb : dtb.length ≤ dtbTotal - 4) :
  (image crates env dtb).length = blockLen
  := by
  have htotal : envTotal = 0x800 := rfl
  have htotal' : dtbTotal = 0xF800 := rfl
  have hblock : blockLen = 0x10000 := rfl
  rw [image, List.length_append, length_leBytes, List.length_append, length_envBlock henv,
    List.length_append, List.length_replicate]
  omega

/-- The buffer of the environment. -/
theorem envBuf_eq {env : Bytes} (h : env.length ≤ envTotal - 4) :
  (do
    let envBuf ← copyFromSlice (List.replicate envTotal 0) 4 (4 + env.length) env
    copyFromSlice envBuf 0 4 (leBytes 4 (crc32 crates (envBuf.drop 4)).toNat) :
      Outcome Text Bytes) = .ok (envBlock crates env)
  := by
  have hsplit : (List.replicate envTotal 0 : Bytes) =
      List.replicate 4 0 ++ List.replicate (envTotal - 4) 0 := by
    rw [List.replicate_append_replicate]
    rfl
  have hfour : (List.replicate 4 0 : Bytes).length = 4 := List.length_replicate
  rw [hsplit, copyFromSlice_replicate hfour.symm rfl h, Except.ok_bind, List.append_assoc,
    List.drop_left' hfour, copyFromSlice_ok (by rw [length_leBytes]), envBlock, overwrite,
    length_leBytes, List.take_zero, List.nil_append, Nat.zero_add, List.drop_left' hfour]
  rw [List.length_append, hfour]
  omega

/-- No copy into the image is out of range. -/
theorem rawBlock_eq {env dtb : Bytes} (henv : env.length ≤ envTotal - 4)
    (hdtb : dtb.length ≤ dtbTotal - 4) :
  rawBlock crates env dtb = .ok (image crates env dtb)
  := by
  have htotal : envTotal = 0x800 := rfl
  have htotal' : dtbTotal = 0xF800 := rfl
  have hblock : blockLen = 0x10000 := rfl
  obtain ⟨envBuf, hfirst, hsecond⟩ := Except.bind_eq_ok_iff.mp (@envBuf_eq crates _ henv)
  obtain ⟨dtbBuf, hdtbBuf⟩ : ∃ dtbBuf,
      dtbBuf = dtb ++ (List.replicate (dtbTotal - 4 - dtb.length) 0 : Bytes) := ⟨_, rfl⟩
  have hdtbLen : dtbBuf.length = dtbTotal - 4 := by
    rw [hdtbBuf, List.length_append, List.length_replicate]
    omega
  have hlen : (envBlock crates env).length = envTotal := length_envBlock henv
  have hfront : (envBlock crates env ++ dtbBuf).length = blockLen - 4 := by
    rw [List.length_append, hlen, hdtbLen]
    rfl
  rw [rawBlock, hfirst, Except.ok_bind]
  simp only
  rw [hsecond, Except.ok_bind, copyFromSlice_start rfl hdtb, ← hdtbBuf, Except.ok_bind,
    copyFromSlice_start hlen.symm (by omega), Except.ok_bind,
    copyFromSlice_replicate hlen.symm (by rw [hdtbLen]) (by omega), Except.ok_bind,
    copyFromSlice_replicate hfront.symm (by rw [length_leBytes]; rfl)
      (by rw [length_leBytes]; omega),
    crc32x2_eq, image, ← hdtbBuf, length_leBytes, hlen, hdtbLen]
  have hnone : blockLen - envTotal - (dtbTotal - 4) - 4 = 0 := rfl
  rw [hnone, List.replicate_zero, List.append_nil]

/-! ### The gzip member -/

theorem length_trailer (content : Bytes) :
  (Gzip.trailer (crc32 crates) content).length = 8
  := by
  rw [Gzip.trailer, List.length_append, length_leBytes, length_leBytes]

/-- A member has eighteen bytes besides what is compressed. -/
theorem length_member (content : Bytes) :
  (member crates content).length = 18 + (crates.deflate.compress content).length
  := by
  have hheader : gzipHeader.length = 10 := rfl
  rw [member, List.length_append, List.length_append, hheader, length_trailer]
  omega

/-- A buffer that a member fits is filled with it. -/
theorem gzipCompress_ok {content : Bytes} {n : ℕ} (h : (member crates content).length ≤ n) :
  gzipCompress crates content (List.replicate n 0) =
    .ok (member crates content ++ List.replicate (n - (member crates content).length) 0,
      (member crates content).length)
  := by
  have hheader : gzipHeader.length = 10 := rfl
  have hlen : (member crates content).length =
    18 + (crates.deflate.compress content).length := length_member content
  have hcompressed : gzipHeader.length + (crates.deflate.compress content).length =
      (gzipHeader ++ crates.deflate.compress content).length := by
    rw [List.length_append]
  have hcrc : gzipHeader.length + (crates.deflate.compress content).length + 4 =
      (gzipHeader ++ crates.deflate.compress content ++
        leBytes 4 (crc32 crates content).toNat).length := by
    rw [List.length_append, List.length_append, length_leBytes]
  have hbuf : (gzipHeader ++ (List.replicate (n - gzipHeader.length) 0 : Bytes)).length = n := by
    rw [List.length_append, List.length_replicate]
    omega
  rw [gzipCompress, List.length_replicate, if_neg (by omega), copyFromSlice_start rfl (by omega),
    Except.ok_bind]
  simp only
  rw [hbuf, if_neg (by omega), copyFromSlice_replicate rfl rfl (by omega), Except.ok_bind,
    copyFromSlice_replicate hcompressed (by rw [length_leBytes])
      (by rw [length_leBytes]; omega), Except.ok_bind,
    copyFromSlice_replicate hcrc (by rw [length_leBytes])
      (by simp only [length_leBytes]; omega),
    Except.ok_bind]
  have hrest : n - gzipHeader.length - (crates.deflate.compress content).length - 4 - 4 =
      n - (member crates content).length := by
    omega
  have hsize : gzipHeader.length + (crates.deflate.compress content).length + 4 + 4 =
      (member crates content).length := by
    omega
  have hmember : gzipHeader ++ crates.deflate.compress content ++
      leBytes 4 (crc32 crates content).toNat ++ leBytes 4 (content.length % 2 ^ 32) =
      member crates content := by
    rw [member, Gzip.trailer, List.append_assoc]
  rw [length_leBytes, length_leBytes, hrest, hsize, hmember]
  rfl

/-- A member that is too long for its buffer is refused. -/
theorem gzipCompress_fail {content : Bytes} {n : ℕ} (h : n < (member crates content).length) :
  gzipCompress crates content (List.replicate n 0) = .fail "buffer too small".toList
  := by
  have hheader : gzipHeader.length = 10 := rfl
  have hlen : (member crates content).length =
    18 + (crates.deflate.compress content).length := length_member content
  rw [gzipCompress, List.length_replicate]
  split
  · rfl
  · next hroom =>
    have hbuf : (gzipHeader ++ (List.replicate (n - gzipHeader.length) 0 : Bytes)).length = n := by
      rw [List.length_append, List.length_replicate]
      omega
    rw [copyFromSlice_start rfl (by omega), Except.ok_bind]
    simp only
    rw [hbuf, if_pos (by omega)]

/-! ### The pack -/

/-- Zeros up to a multiple of a block of the cipher. -/
theorem length_padded (bytes : Bytes) :
  (padded bytes).length = bytes.length + (16 - bytes.length % 16) % 16
  := by
  rw [padded, List.length_append, List.length_replicate]

/-- Encrypting keeps the length. -/
theorem length_encryptInPlace (data : Bytes) {key iv : Bytes} (hiv : iv.length = 16) :
  (encryptInPlace crates data key iv).length = data.length
  := by
  rw [encryptInPlace, Cbc.length_encrypt hiv]
  apply Nat.mul_div_le

/-- What is padded is a number of whole blocks. -/
theorem padded_dvd (bytes : Bytes) : 16 ∣ (padded bytes).length := by
  rw [length_padded]
  omega

/-- Padding does not go over the end of a buffer of whole blocks. -/
theorem length_padded_le {bytes : Bytes} (h : bytes.length ≤ blockLen) :
  (padded bytes).length ≤ blockLen
  := by
  have hblock : blockLen = 0x10000 := rfl
  have hlen := length_padded bytes
  obtain ⟨k, hk⟩ := padded_dvd bytes
  omega

/-- The trailer of a pack takes sixteen bytes. -/
theorem length_sealBytes (hwid : Hwid) (data : Bytes) :
  (sealBytes crates hwid data).length = data.length + 16
  := by
  rw [sealBytes, List.length_append, length_encryptInPlace _ (length_formatU32x2 _ _),
    List.length_append, List.length_replicate, length_leBytes]

/-- The length of a pack does not depend on the device. -/
theorem length_pack (env dtb : Bytes) (hwid : Hwid) :
  (pack crates env dtb hwid).length = (padded (member crates (image crates env dtb))).length + 16
  := length_sealBytes hwid _

/-- The rest of `env_pack` for a buffer with a member. -/
theorem sealBlock_eq {hwid : Hwid} {bytes out : Bytes} (hbytes : bytes.length ≤ blockLen)
    (hout : blockLen ≤ out.length) :
  sealBlock crates hwid (bytes ++ List.replicate (blockLen - bytes.length) 0) bytes.length out =
    if (padded bytes).length + 16 ≤ blockLen then
      .ok (sealBytes crates hwid (padded bytes) ++
          out.drop (sealBytes crates hwid (padded bytes)).length,
        (sealBytes crates hwid (padded bytes)).length)
    else .panics
  := by
  have hblock : blockLen = 0x10000 := rfl
  have hlen : (padded bytes).length = bytes.length + (16 - bytes.length % 16) % 16 :=
    length_padded bytes
  have hle := length_padded_le hbytes
  have hpad : (List.replicate ((16 - bytes.length % 16) % 16) 0 : Bytes).length =
    (16 - bytes.length % 16) % 16 := List.length_replicate
  have hrest : blockLen - bytes.length - (16 - bytes.length % 16) % 16 =
      blockLen - (padded bytes).length := by
    omega
  obtain ⟨body, hbody⟩ : ∃ body, body = encryptInPlace crates (padded bytes)
    (formatU32x2 hwid.cfg0 hwid.cfg1) (formatU32x2 hwid.mac0 hwid.mac1) := ⟨_, rfl⟩
  have hbodyLen : body.length = (padded bytes).length := by
    rw [hbody, length_encryptInPlace _ (length_formatU32x2 _ _)]
  have hover (rest : Bytes) : overwrite (padded bytes ++ rest) 0 body = body ++ rest := by
    rw [overwrite_append_left, overwrite_all hbodyLen]
    omega
  rw [sealBlock]
  simp only
  rw [copyFromSlice_replicate rfl (by rw [hpad]) (by rw [hpad]; omega), Except.ok_bind, hpad, hrest,
    ← padded, ← hlen, sliceTo_ok (by rw [List.length_append]; omega), Except.ok_bind,
    List.take_left, ← hbody, hover]
  by_cases hfits : (padded bytes).length + 16 ≤ blockLen
  · have hoffset : ((padded bytes).length + 16) % 2 ^ 32 = (padded bytes).length + 16 := by
      apply Nat.mod_eq_of_lt
      omega
    have htwelve : (padded bytes).length + 12 =
        (body ++ (List.replicate 12 0 : Bytes)).length := by
      rw [List.length_append, List.length_replicate, hbodyLen]
    have hpacked : body ++ List.replicate 12 0 ++ leBytes 4 ((padded bytes).length + 16) =
        sealBytes crates hwid (padded bytes) := by
      rw [sealBytes, ← hbody, List.append_assoc]
    have hpackedLen : (sealBytes crates hwid (padded bytes)).length =
      (padded bytes).length + 16 := length_sealBytes hwid _
    rw [copyFromSlice_replicate hbodyLen.symm (by rw [List.length_replicate])
        (by rw [List.length_replicate]; omega), Except.ok_bind,
      copyFromSlice_replicate htwelve (by rw [length_leBytes])
        (by rw [length_leBytes, List.length_replicate]; omega), Except.ok_bind, if_neg (by omega),
      hoffset, hpacked, sliceTo_ok (by rw [List.length_append]; omega), Except.ok_bind,
      ← hpackedLen, List.take_left, copyFromSlice_ok (Nat.zero_add _).symm (by omega),
      Except.ok_bind, if_pos (by omega), overwrite, Nat.zero_add, List.take_zero, List.nil_append]
    rfl
  · rw [if_neg hfits, copyFromSlice_panics]
    · rfl
    · rw [List.length_append, List.length_replicate]
      omega

/-- A pack is made exactly when the environment and the device tree are not too big, the output
is large enough, and the member leaves room for the end of the pack. -/
theorem envPack_ok_iff {env dtb out out' : Bytes} {hwid : Hwid} {n : ℕ} :
  envPack crates env dtb hwid out = .ok (out', n) ↔
    (env.length ≤ envTotal - 4 ∧ dtb.length ≤ dtbTotal - 4 ∧ blockLen ≤ out.length ∧
      (pack crates env dtb hwid).length ≤ blockLen) ∧
    n = (pack crates env dtb hwid).length ∧ out' = pack crates env dtb hwid ++ out.drop n
  := by
  have hpack : (pack crates env dtb hwid).length =
    (padded (member crates (image crates env dtb))).length + 16 := length_pack env dtb hwid
  rw [envPack]
  split
  · next henv =>
    constructor
    · rintro ⟨⟩
    · rintro ⟨⟨henv', -⟩, -⟩
      omega
  · next henv =>
    split
    · next hdtb =>
      constructor
      · rintro ⟨⟩
      · rintro ⟨⟨-, hdtb', -⟩, -⟩
        omega
    · next hdtb =>
      split
      · next hout =>
        constructor
        · rintro ⟨⟩
        · rintro ⟨⟨-, -, hout', -⟩, -⟩
          omega
      · next hout =>
        rw [Nat.not_lt] at henv hdtb hout
        rw [rawBlock_eq henv hdtb, Except.ok_bind]
        rcases Nat.lt_or_ge blockLen (member crates (image crates env dtb)).length with
          hlong | hfits
        · rw [gzipCompress_fail hlong]
          constructor
          · rintro ⟨⟩
          · rintro ⟨⟨-, -, -, hle⟩, -⟩
            have hpadded := length_padded (member crates (image crates env dtb))
            omega
        · rw [gzipCompress_ok hfits, Except.ok_bind]
          simp only
          rw [sealBlock_eq hfits hout]
          split
          · next hroom =>
            constructor
            · rintro ⟨⟩
              exact ⟨⟨henv, hdtb, hout, by omega⟩, rfl, rfl⟩
            · rintro ⟨-, rfl, rfl⟩
              rfl
          · next hroom =>
            constructor
            · rintro ⟨⟩
            · rintro ⟨⟨-, -, -, hle⟩, -⟩
              omega

/-! ### Packing panics -/

/-- A call of `env_pack` comes back, with whole blocks that fit a block of 64 KiB or with an
error. -/
def Packs (result : Outcome Text (Bytes × ℕ)) : Prop :=
  result.Settles ∧ result.Post fun (_, n) => 16 ≤ n ∧ n ≤ 0x10000 ∧ 16 ∣ n

theorem packs_fail (e : Text) : Packs (fail e) := ⟨settles_fail e, nofun⟩

/-- The end of a pack is written behind the member before its size is checked: packing panics
exactly when the member fits the buffer and leaves no room for the end. -/
theorem packs_envPack_iff (env dtb : Bytes) (hwid : Hwid) (out : Bytes) :
  Packs (envPack crates env dtb hwid out) ↔
    ¬ (env.length ≤ envTotal - 4 ∧ dtb.length ≤ dtbTotal - 4 ∧ blockLen ≤ out.length ∧
      0xFFDE < (crates.deflate.compress (image crates env dtb)).length ∧
      (crates.deflate.compress (image crates env dtb)).length ≤ 0xFFEE)
  := by
  have hblock : blockLen = 0x10000 := rfl
  have hmember := @length_member crates (image crates env dtb)
  have hpadded := length_padded (member crates (image crates env dtb))
  rw [envPack]
  split
  · exact iff_of_true (packs_fail _) (by omega)
  · split
    · exact iff_of_true (packs_fail _) (by omega)
    · split
      · exact iff_of_true (packs_fail _) (by omega)
      · next henv hdtb hout =>
        rw [Nat.not_lt] at henv hdtb hout
        rw [rawBlock_eq henv hdtb, Except.ok_bind]
        rcases Nat.lt_or_ge blockLen (member crates (image crates env dtb)).length with
          hlong | hfits
        · rw [gzipCompress_fail hlong]
          exact iff_of_true (packs_fail _) (by omega)
        · rw [gzipCompress_ok hfits, Except.ok_bind]
          simp only
          rw [sealBlock_eq hfits hout]
          obtain ⟨k, hk⟩ := padded_dvd (member crates (image crates env dtb))
          split
          · next hroom =>
            apply iff_of_true
            · use settles_ok _
              rintro ⟨out', n⟩ ⟨⟩
              rw [length_sealBytes]
              simp only
              omega
            · omega
          · next hroom =>
            apply iff_of_false
            · intro h
              apply not_settles_panics h.1
            · omega

end

/-- An environment that begins with 31 zeros. -/
def zerosEnv : Bytes := List.replicate 31 0 ++ [1]

/-- The image of such an environment can be compressed to 65518 bytes, and does not leave room for
the end of the pack. -/
theorem not_packs_envPack :
  ¬ ∀ (crates : Crates) (env dtb : Bytes) (hwid : Hwid) (out : Bytes),
    Packs (envPack crates env dtb hwid out)
  := by
  intro h
  have hlen : (image ⟨Cbc.vernam, .squeezed 4, .ieee⟩ zerosEnv []).length = 0x10000 :=
    length_image (by decide) (by decide)
  have hzeros : Deflate.zeros 4 (image ⟨Cbc.vernam, .squeezed 4, .ieee⟩ zerosEnv []) = 31 := by
    have hfour (n : ℕ) : (leBytes 4 n).length = 4 := length_leBytes 4 n
    rw [Deflate.zeros, image, envBlock, zerosEnv, List.append_assoc, List.append_assoc,
      List.append_assoc, List.append_assoc, List.drop_left' (hfour _)]
    rw [List.takeWhile_append_of_pos]
    · rfl
    · intro b hb
      rw [List.eq_of_mem_replicate hb]
      rfl
  have hcompressed := @Deflate.length_squeezed 4
    (image ⟨Cbc.vernam, .squeezed 4, .ieee⟩ zerosEnv []) (by omega) (by omega)
  have hpacks := h ⟨Cbc.vernam, .squeezed 4, .ieee⟩ zerosEnv [] ⟨0, 0, 0, 0⟩
    (List.replicate blockLen 0)
  apply (packs_envPack_iff ..).mp hpacks
  refine ⟨by decide, by decide, ?_, ?_, ?_⟩
  · rw [List.length_replicate]
  · simp only [hcompressed, hlen, hzeros]
    decide
  · simp only [hcompressed, hlen, hzeros]
    decide

end Env

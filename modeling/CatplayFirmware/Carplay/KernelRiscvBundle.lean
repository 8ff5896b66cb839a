import CatplayFirmware.Support.Gzip
import CatplayFirmware.Support.Outcome
import CatplayFirmware.Support.Text

/-!
# The kernel bundle for RISC-V

The recipe packs OpenSBI, the device tree and the kernel into one image: a header that says of each
its size, where it goes and its checksum, and the three payloads, compressed. Header and payloads
are filled up with zeros to whole sectors. A file that is compressed already is taken as it is.
-/

namespace KernelRiscvBundle

open Bytes Gzip

def magic : ℤ := 0x56523243
def gzip : ℤ := 1
def sectorSize : ℕ := 512
def imageType : Text := "c2rvImage".toList

/-- The names of the variables of a payload: its file, its load address and its jump address. -/
structure Vars where
  path : Text
  loadAddr : Text
  jumpAddr : Text

/-- The three payloads have variables of their own, with names of one form. -/
def opensbiVars : Vars where
  path := "C2A_RISCV_BUNDLE_OPENSBI".toList
  loadAddr := "C2A_RISCV_BUNDLE_OPENSBI_LOADADDRESS".toList
  jumpAddr := "C2A_RISCV_BUNDLE_OPENSBI_JUMPADDRESS".toList

def dtbVars : Vars where
  path := "C2A_RISCV_BUNDLE_DTB".toList
  loadAddr := "C2A_RISCV_BUNDLE_DTB_LOADADDRESS".toList
  jumpAddr := "C2A_RISCV_BUNDLE_DTB_JUMPADDRESS".toList

def kernelVars : Vars where
  path := "C2A_RISCV_BUNDLE_KERNEL".toList
  loadAddr := "C2A_RISCV_BUNDLE_KERNEL_LOADADDRESS".toList
  jumpAddr := "C2A_RISCV_BUNDLE_KERNEL_JUMPADDRESS".toList

/-- What a recipe can see. -/
structure Recipe where
  /-- The values of the variables, those of `KERNEL_IMAGETYPES` as words. -/
  getVar : Text → Option Text
  kernelImagetypes : List Text
  /-- The files that match a pattern, sorted. -/
  glob : Text → List Text
  read : Text → Bytes
  /-- `int(s, 0)`, none for a text that is no numeral. -/
  numeral : Text → Option ℤ

/-! ### The recipe -/

/-- `struct.pack` with a format of `I` only. -/
def packWords (words : List ℤ) : Outcome Text Bytes :=
  if ∀ word ∈ words, 0 ≤ word ∧ word < 2 ^ 32 then
    .ok (words.map fun word => leBytes 4 word.toNat).flatten
  else .panics

/-- `'%x'`. -/
def hex (n : ℤ) : Text :=
  if n < 0 then '-' :: Nat.toDigits 16 n.natAbs else Nat.toDigits 16 n.natAbs

/-- Zeros up to a multiple of `size`. -/
def align (data : Bytes) (size : ℕ) : Bytes :=
  data ++ List.replicate ((-(data.length : ℤ)) % size).toNat 0

/-- The file is compressed already. -/
def IsGzip (path : Text) (data : Bytes) : Prop :=
  ".gz".toList <:+ path ∨ [0x1F, 0x8B] <+: data

instance (path : Text) (data : Bytes) : Decidable (IsGzip path data) :=
  inferInstanceAs (Decidable (_ ∨ _))

namespace Recipe

variable (codec : Codec) (recipe : Recipe)

/-- A pattern has to match one file. -/
def onePath (pattern : Text) : Outcome Text Text :=
  match recipe.glob pattern with
  | [path] => .ok path
  | paths =>
    .fail ("Expected exactly one file for ".toList ++ pattern ++ ", found ".toList ++
      Text.ofNat paths.length ++ ": ".toList ++ [' '].intercalate paths)

/-- An address has to be set. A text that is no numeral is an uncaught error. -/
def parseAddr (varname : Text) : Outcome Text ℤ :=
  match recipe.getVar varname with
  | none => .fail (varname ++ " must be set".toList)
  | some value =>
    if value = [] then .fail (varname ++ " must be set".toList)
    else match recipe.numeral value with
      | some n => .ok n
      | none => .panics

/-- What is stored of a file, with the length of its content. -/
def payload (path : Text) : Outcome Text (Bytes × ℕ) :=
  let data := recipe.read path
  if IsGzip path data then
    match codec.decompress data with
    | none => .panics
    | some content => .ok (data, content.length)
  else .ok (codec.compress data, data.length)

/-- One round of the loop over the payloads: the payload and its entry of the header. -/
def packEntry (vars : Vars) : Outcome Text (Bytes × Bytes) :=
  match recipe.getVar vars.path with
  | none => .panics
  | some pattern => do
    let path ← recipe.onePath pattern
    let (data, uncompressedSize) ← recipe.payload codec path
    let loadAddr ← recipe.parseAddr vars.loadAddr
    let jumpAddr ← recipe.parseAddr vars.jumpAddr
    if 0xFFFFFFFF < loadAddr ∨ 0xFFFFFFFF < jumpAddr then
      .fail (vars.loadAddr ++ "/".toList ++ vars.jumpAddr ++
        " must fit in 32 bits: load=0x".toList ++ hex loadAddr ++ " jump=0x".toList ++
        hex jumpAddr)
    else do
      let headerEntry ← packWords [data.length, uncompressedSize, gzip, loadAddr, jumpAddr,
        (codec.crc32 data).toNat]
      return (data, headerEntry)

/-- The loop over the payloads. -/
def packEntries : List Vars → Outcome Text (List (Bytes × Bytes))
  | [] => .ok []
  | vars :: rest => do
    let first ← recipe.packEntry codec vars
    let others ← packEntries rest
    return first :: others

/-- `do_assemble_c2rvimage`, with the image that it writes; none when the build does not ask for
one. -/
def assembleC2rvimage : Outcome Text (Option Bytes) :=
  if imageType ∉ recipe.kernelImagetypes then .ok none
  else do
    let entries ← recipe.packEntries codec [opensbiVars, dtbVars, kernelVars]
    let entryBlob := (entries.map Prod.snd).flatten
    let head ← packWords [magic, (codec.crc32 entryBlob).toNat]
    let header := head ++ entryBlob
    if sectorSize < header.length then
      .fail "RISC-V bundle header is larger than one sector".toList
    else
      .ok (some (align header sectorSize ++
        (entries.map fun entry => align entry.1 sectorSize).flatten))

end Recipe

/-! ### The parts of an image -/

/-- A payload as it is stored, its content, and the addresses for it. -/
structure Piece where
  stored : Bytes
  content : Bytes
  loadAddr : UInt32
  jumpAddr : UInt32

/-- The payload that a recipe asks for under the names of some variables. -/
structure Recipe.IsPiece (recipe : Recipe) (codec : Codec) (vars : Vars) (piece : Piece) :
    Prop where
  payload : ∃ pattern path, recipe.getVar vars.path = some pattern ∧
    recipe.glob pattern = [path] ∧
    if IsGzip path (recipe.read path) then
      piece.stored = recipe.read path ∧ codec.decompress piece.stored = some piece.content
    else piece.stored = codec.compress piece.content ∧ piece.content = recipe.read path
  loadAddr : recipe.parseAddr vars.loadAddr = .ok piece.loadAddr.toNat
  jumpAddr : recipe.parseAddr vars.jumpAddr = .ok piece.jumpAddr.toNat
  stored_lt : piece.stored.length < 2 ^ 32
  content_lt : piece.content.length < 2 ^ 32

/-- The entry of the header for a payload. -/
def Piece.entry (codec : Codec) (piece : Piece) : Bytes :=
  leBytes 4 piece.stored.length ++ leBytes 4 piece.content.length ++ leBytes 4 1 ++
    leBytes 4 piece.loadAddr.toNat ++ leBytes 4 piece.jumpAddr.toNat ++
    leBytes 4 (codec.crc32 piece.stored).toNat

/-- A header with its payloads. -/
def entryBlob (codec : Codec) (pieces : List Piece) : Bytes :=
  (pieces.map (Piece.entry codec)).flatten

/-- The header before it is filled up to a sector. -/
def header (codec : Codec) (pieces : List Piece) : Bytes :=
  leBytes 4 0x56523243 ++ leBytes 4 (codec.crc32 (entryBlob codec pieces)).toNat ++
    entryBlob codec pieces

/-- The whole image, a multiple of a sector long. -/
def image (codec : Codec) (pieces : List Piece) : Bytes :=
  align (header codec pieces) sectorSize ++
    (pieces.map fun piece => align piece.stored sectorSize).flatten

/-- Six words of a payload. -/
@[simp] theorem length_entry (codec : Codec) (piece : Piece) : (piece.entry codec).length = 24 := by
  simp [Piece.entry]

/-- Data is filled up to whole sectors. -/
theorem length_align (data : Bytes) :
  (align data sectorSize).length = (data.length + 511) / 512 * 512
  := by
  have hsector : (sectorSize : ℤ) = 512 := rfl
  rw [align, List.length_append, List.length_replicate, hsector]
  omega

variable {codec : Codec} {recipe : Recipe}

/-- Words are packed exactly when each of them fits. -/
theorem packWords_eq_ok_iff {words : List ℤ} {bytes : Bytes} :
  packWords words = .ok bytes ↔
    (∀ word ∈ words, 0 ≤ word ∧ word < 2 ^ 32) ∧
      bytes = (words.map fun word => leBytes 4 word.toNat).flatten
  := by
  rw [packWords]
  split
  · next h =>
    constructor
    · rintro ⟨⟩
      exact ⟨h, rfl⟩
    · rintro ⟨-, rfl⟩
      rfl
  · next h =>
    constructor
    · rintro ⟨⟩
    · rintro ⟨h', -⟩
      exact absurd h' h

namespace Recipe

/-- The one file that matches. -/
theorem onePath_eq_ok_iff {pattern path : Text} :
  recipe.onePath pattern = .ok path ↔ recipe.glob pattern = [path]
  := by
  rw [onePath]
  split
  · next only h =>
    rw [h]
    constructor
    · rintro ⟨⟩
      rfl
    · rintro ⟨⟩
      rfl
  · next paths h =>
    constructor
    · rintro ⟨⟩
    · intro hone
      exact absurd hone (h path)

/-- A payload is stored as it is when it is compressed already, and is compressed otherwise. -/
theorem payload_eq_ok_iff {path : Text} {data : Bytes} {size : ℕ} :
  recipe.payload codec path = .ok (data, size) ↔
    ∃ content, size = content.length ∧
      if IsGzip path (recipe.read path) then
        data = recipe.read path ∧ codec.decompress data = some content
      else data = codec.compress content ∧ content = recipe.read path
  := by
  rw [payload]
  split
  · next hgzip =>
    constructor
    · intro h
      split at h
      · cases h
      · next content hcontent =>
        cases h
        exact ⟨content, rfl, rfl, hcontent⟩
    · rintro ⟨content, rfl, rfl, hcontent⟩
      rw [hcontent]
  · next hplain =>
    constructor
    · rintro ⟨⟩
      exact ⟨recipe.read path, rfl, rfl, rfl⟩
    · rintro ⟨content, rfl, rfl, rfl⟩
      rfl

/-- What is packed for a payload is the payload that the recipe asks for, with its entry. -/
theorem packEntry_eq_ok {vars : Vars} {data headerEntry : Bytes}
    (h : recipe.packEntry codec vars = .ok (data, headerEntry)) :
  ∃ piece, recipe.IsPiece codec vars piece ∧ data = piece.stored ∧
    headerEntry = piece.entry codec
  := by
  rw [packEntry] at h
  split at h
  · cases h
  next pattern hpattern =>
  obtain ⟨path, hpath, h⟩ := Except.bind_eq_ok_iff.mp h
  obtain ⟨⟨data', size⟩, hpayload, h⟩ := Except.bind_eq_ok_iff.mp h
  obtain ⟨load, hload, h⟩ := Except.bind_eq_ok_iff.mp h
  obtain ⟨jump, hjump, h⟩ := Except.bind_eq_ok_iff.mp h
  split at h
  · cases h
  obtain ⟨words, hwords, h⟩ := Except.bind_eq_ok_iff.mp h
  cases h
  obtain ⟨hfit, rfl⟩ := packWords_eq_ok_iff.mp hwords
  obtain ⟨content, rfl, hcontent⟩ := payload_eq_ok_iff.mp hpayload
  simp only [List.forall_mem_cons] at hfit
  obtain ⟨hdata, hsize, -, hloadFit, hjumpFit, -⟩ := hfit
  have hloadNat : (UInt32.ofNat load.toNat).toNat = load.toNat := by
    have hlt : load.toNat < 2 ^ 32 := by omega
    apply UInt32.toNat_ofNat_of_lt' hlt
  have hjumpNat : (UInt32.ofNat jump.toNat).toNat = jump.toNat := by
    have hlt : jump.toNat < 2 ^ 32 := by omega
    apply UInt32.toNat_ofNat_of_lt' hlt
  use ⟨data, content, UInt32.ofNat load.toNat, UInt32.ofNat jump.toNat⟩
  constructor
  · constructor
    · exact ⟨pattern, path, hpattern, onePath_eq_ok_iff.mp hpath, hcontent⟩
    · simp only [hloadNat, Int.toNat_of_nonneg hloadFit.1]
      exact hload
    · simp only [hjumpNat, Int.toNat_of_nonneg hjumpFit.1]
      exact hjump
    · simp only
      omega
    · simp only
      omega
  · use rfl
    rw [Piece.entry, hloadNat, hjumpNat]
    simp [gzip]

/-- The payload that a recipe asks for is packed. -/
theorem packEntry_of_isPiece {vars : Vars} {piece : Piece} (h : recipe.IsPiece codec vars piece) :
  recipe.packEntry codec vars = .ok (piece.stored, piece.entry codec)
  := by
  obtain ⟨pattern, path, hpattern, hpath, hpayload⟩ := h.payload
  have hpack := payload_eq_ok_iff.mpr ⟨piece.content, rfl, hpayload⟩
  have hload := piece.loadAddr.toNat_lt
  have hjump := piece.jumpAddr.toNat_lt
  have hcrc := (codec.crc32 piece.stored).toNat_lt
  have hstored := h.stored_lt
  have hcontent := h.content_lt
  have hwords : packWords [(piece.stored.length : ℤ), (piece.content.length : ℤ), gzip,
      (piece.loadAddr.toNat : ℤ), (piece.jumpAddr.toNat : ℤ),
      ((codec.crc32 piece.stored).toNat : ℤ)] = .ok (piece.entry codec) := by
    rw [packWords_eq_ok_iff]
    constructor
    · simp only [List.forall_mem_cons, gzip]
      refine ⟨by omega, by omega, by omega, by omega, by omega, by omega, nofun⟩
    · simp [Piece.entry, gzip]
  rw [packEntry, hpattern]
  simp only
  rw [onePath_eq_ok_iff.mpr hpath, Except.ok_bind, hpack, Except.ok_bind]
  simp only
  rw [h.loadAddr, Except.ok_bind, h.jumpAddr, Except.ok_bind, if_neg (by omega), hwords]
  rfl

/-- The payloads are packed one by one, in the order of their variables. -/
theorem packEntries_eq_ok {vars : List Vars} {entries : List (Bytes × Bytes)}
    (h : recipe.packEntries codec vars = .ok entries) :
  ∃ pieces, List.Forall₂ (recipe.IsPiece codec) vars pieces ∧
    entries = pieces.map fun piece => (piece.stored, piece.entry codec)
  := by
  induction vars generalizing entries with
  | nil =>
      cases h
      exact ⟨[], .nil, rfl⟩
  | cons first rest ih =>
      obtain ⟨⟨data, headerEntry⟩, hfirst, h⟩ := Except.bind_eq_ok_iff.mp h
      obtain ⟨others, hothers, h⟩ := Except.bind_eq_ok_iff.mp h
      cases h
      obtain ⟨piece, hpiece, rfl, rfl⟩ := packEntry_eq_ok hfirst
      obtain ⟨pieces, hpieces, rfl⟩ := ih hothers
      exact ⟨piece :: pieces, .cons hpiece hpieces, rfl⟩

/-- An image that is written is that of the payloads that the recipe asks for. -/
theorem assembleC2rvimage_eq_ok {bytes : Bytes}
    (h : recipe.assembleC2rvimage codec = .ok (some bytes)) :
  ∃ opensbi dtb kernel, recipe.IsPiece codec opensbiVars opensbi ∧
    recipe.IsPiece codec dtbVars dtb ∧ recipe.IsPiece codec kernelVars kernel ∧
    bytes = image codec [opensbi, dtb, kernel]
  := by
  rw [assembleC2rvimage] at h
  split at h
  · cases h
  obtain ⟨entries, hentries, h⟩ := Except.bind_eq_ok_iff.mp h
  obtain ⟨head, hhead, h⟩ := Except.bind_eq_ok_iff.mp h
  simp only at h
  split at h
  · cases h
  cases h
  obtain ⟨pieces, hpieces, rfl⟩ := packEntries_eq_ok hentries
  obtain ⟨-, rfl⟩ := packWords_eq_ok_iff.mp hhead
  rcases hpieces with _ | ⟨hopensbi, _ | ⟨hdtb, _ | ⟨hkernel, ⟨⟩⟩⟩⟩
  refine ⟨_, _, _, hopensbi, hdtb, hkernel, ?_⟩
  simp [image, header, entryBlob, magic]

/-- An image is written of the payloads that a recipe asks for, in a build that asks for the
image. -/
theorem assembleC2rvimage_of_isPiece (htype : imageType ∈ recipe.kernelImagetypes)
    {opensbi dtb kernel : Piece} (hopensbi : recipe.IsPiece codec opensbiVars opensbi)
    (hdtb : recipe.IsPiece codec dtbVars dtb) (hkernel : recipe.IsPiece codec kernelVars kernel) :
  recipe.assembleC2rvimage codec = .ok (some (image codec [opensbi, dtb, kernel]))
  := by
  have hentries : recipe.packEntries codec [opensbiVars, dtbVars, kernelVars] =
      .ok ([opensbi, dtb, kernel].map fun piece => (piece.stored, piece.entry codec)) := by
    rw [packEntries, packEntries, packEntries, packEntries, packEntry_of_isPiece hopensbi,
      packEntry_of_isPiece hdtb, packEntry_of_isPiece hkernel]
    rfl
  have hcrc := (codec.crc32 (entryBlob codec [opensbi, dtb, kernel])).toNat_lt
  have hhead : packWords [magic, ((codec.crc32 (entryBlob codec [opensbi, dtb, kernel])).toNat :
      ℤ)] = .ok (leBytes 4 0x56523243 ++
        leBytes 4 (codec.crc32 (entryBlob codec [opensbi, dtb, kernel])).toNat) := by
    rw [packWords_eq_ok_iff]
    constructor
    · simp only [List.forall_mem_cons, magic]
      exact ⟨by omega, by omega, nofun⟩
    · simp [magic]
  have hblob : (([opensbi, dtb, kernel].map fun piece =>
      (piece.stored, piece.entry codec)).map Prod.snd).flatten =
        entryBlob codec [opensbi, dtb, kernel] := by
    simp [entryBlob]
  rw [assembleC2rvimage, if_neg (not_not.mpr htype), hentries, Except.ok_bind, hblob]
  simp only
  rw [hhead, Except.ok_bind, if_neg]
  · simp [image, header]
  · simp [entryBlob, sectorSize]

end Recipe

end KernelRiscvBundle

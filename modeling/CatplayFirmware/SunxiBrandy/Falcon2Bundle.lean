import CatplayFirmware.Carplay.KernelRiscvBundle
import CatplayFirmware.Support.Crc32
import CatplayFirmware.Support.SparseFile
import CatplayFirmware.SunxiBrandy.Falcon2Load

/-!
# The bundle and the boot loader

The recipe writes the bundle and the loader reads it. They agree on the header and its checksum, on
the sectors of each payload, and on what is in memory at the end, exactly when every payload is a
single member to the loader, the sizes and the offsets fit the words of the loader, and the contents
have places of their own in memory, or agree on what they share.
-/

namespace Falcon2

open Bytes Gzip KernelRiscvBundle SparseFile

/-! ### Words -/

/-- The first word is skipped. -/
theorem word_skip (m off : ℕ) (rest : Bytes) :
  word (leBytes 4 m ++ rest) (off + 4) = word rest off
  := by
  have hslice := slice_append_right (leBytes 4 m) rest off 4
  rw [length_leBytes, Nat.add_comm] at hslice
  rw [word, word, hslice]

/-- The first word is read. -/
theorem word_first {n : ℕ} (h : n < 2 ^ 32) (rest : Bytes) :
  word (leBytes 4 n ++ rest) 0 = UInt32.ofNat n
  := by
  rw [word, slice, List.drop_zero, List.take_left' (length_leBytes 4 n), leNat_leBytes h]

theorem word_only {n : ℕ} (h : n < 2 ^ 32) : word (leBytes 4 n) 0 = UInt32.ofNat n := by
  rw [← List.append_nil (leBytes 4 n), word_first h]

/-! ### The header -/

/-- The entry of a payload. -/
def entryOf (codec : Codec) (piece : Piece) : Entry where
  size := UInt32.ofNat piece.stored.length
  uncompressedSize := UInt32.ofNat piece.content.length
  compressionType := bundleGzip
  loadAddr := piece.loadAddr
  jumpAddr := piece.jumpAddr
  checksum := codec.crc32 piece.stored

/-- The bundle that the loader reads from the header of three pieces. -/
def bundleOf (codec : Codec) (opensbi dtb kernel : Piece) : Bundle where
  magic := bundleMagic
  headerChecksum := codec.crc32 (entryBlob codec [opensbi, dtb, kernel])
  opensbi := entryOf codec opensbi
  dtb := entryOf codec dtb
  kernel := entryOf codec kernel

/-- The loader reads the entry of a piece as the recipe has packed it. -/
theorem entry_ofBytes {codec : Codec} {piece : Piece} (hstored : piece.stored.length < 2 ^ 32)
    (hcontent : piece.content.length < 2 ^ 32) :
  Entry.ofBytes (piece.entry codec) = entryOf codec piece
  := by
  have hload := piece.loadAddr.toNat_lt
  have hjump := piece.jumpAddr.toNat_lt
  have hcrc := (codec.crc32 piece.stored).toNat_lt
  simp only [Entry.ofBytes, Piece.entry, List.append_assoc]
  rw [word_first hstored, word_skip _ 0, word_first hcontent, word_skip _ 4, word_skip _ 0,
    word_first (by omega), word_skip _ 8, word_skip _ 4, word_skip _ 0, word_first hload,
    word_skip _ 12, word_skip _ 8, word_skip _ 4, word_skip _ 0, word_first hjump,
    word_skip _ 16, word_skip _ 12, word_skip _ 8, word_skip _ 4, word_skip _ 0, word_only hcrc,
    UInt32.ofNat_toNat, UInt32.ofNat_toNat, UInt32.ofNat_toNat]
  rfl

/-- Three entries of 24 bytes. -/
theorem length_entryBlob (codec : Codec) (opensbi dtb kernel : Piece) :
  (entryBlob codec [opensbi, dtb, kernel]).length = 72
  := by
  simp [entryBlob]

/-- Two words and the three entries. -/
theorem length_header (codec : Codec) (opensbi dtb kernel : Piece) :
  (header codec [opensbi, dtb, kernel]).length = 80
  := by
  rw [header, List.length_append, List.length_append, length_leBytes, length_leBytes,
    length_entryBlob]

/-- The loader reads the header that the recipe writes. -/
theorem bundle_ofBytes {codec : Codec} {opensbi dtb kernel : Piece}
    (hstored : ∀ piece ∈ [opensbi, dtb, kernel], piece.stored.length < 2 ^ 32)
    (hcontent : ∀ piece ∈ [opensbi, dtb, kernel], piece.content.length < 2 ^ 32) :
  Bundle.ofBytes (header codec [opensbi, dtb, kernel]) = bundleOf codec opensbi dtb kernel
  := by
  simp only [List.forall_mem_cons] at hstored hcontent
  have hcrc := (codec.crc32 (entryBlob codec [opensbi, dtb, kernel])).toNat_lt
  have height : (leBytes 4 0x56523243 ++
      leBytes 4 (codec.crc32 (entryBlob codec [opensbi, dtb, kernel])).toNat).length = 8 := by
    rw [List.length_append, length_leBytes, length_leBytes]
  have hentry : ∀ off, slice (header codec [opensbi, dtb, kernel]) (8 + off) 24 =
      slice (entryBlob codec [opensbi, dtb, kernel]) off 24 := by
    intro off
    rw [header, ← height, slice_append_right]
  have hblob : entryBlob codec [opensbi, dtb, kernel] =
      opensbi.entry codec ++ (dtb.entry codec ++ kernel.entry codec) := by
    simp [entryBlob]
  have hopensbi : slice (entryBlob codec [opensbi, dtb, kernel]) 0 24 = opensbi.entry codec := by
    rw [hblob, slice, List.drop_zero, List.take_left' (length_entry codec opensbi)]
  have hdtb : slice (entryBlob codec [opensbi, dtb, kernel]) 24 24 = dtb.entry codec := by
    rw [hblob, slice, List.drop_left' (length_entry codec opensbi),
      List.take_left' (length_entry codec dtb)]
  have hkernel : slice (entryBlob codec [opensbi, dtb, kernel]) 48 24 = kernel.entry codec := by
    rw [hblob, slice, ← List.append_assoc, List.drop_left', List.take_of_length_le]
    · rw [length_entry]
    · rw [List.length_append, length_entry, length_entry]
  rw [Bundle.ofBytes, hentry 0, hentry 24, hentry 48, hopensbi, hdtb, hkernel,
    entry_ofBytes hstored.1 hcontent.1, entry_ofBytes hstored.2.1 hcontent.2.1,
    entry_ofBytes hstored.2.2.1 hcontent.2.2.1, header, List.append_assoc, word_first (by omega),
    word_skip _ 0, word_first hcrc, UInt32.ofNat_toNat]
  rfl

/-! ### The flash -/

/-- Bytes of the flash that are two strings, one behind the other. -/
theorem flashBytes_append {board : Board} {off : ℕ} {xs ys : Bytes}
    (h : board.flashBytes off (xs ++ ys).length = xs ++ ys) :
  board.flashBytes off xs.length = xs ∧ board.flashBytes (off + xs.length) ys.length = ys
  := by
  rw [List.length_append] at h
  constructor
  · rw [← Board.take_flashBytes (Nat.le_add_right xs.length ys.length), h, List.take_left]
  · rw [← Board.slice_flashBytes (Nat.le_refl (xs.length + ys.length)), h, slice_append_self]

/-- A board on which everything works, with the checksum and the compression of the recipe. Of
compressed bytes one member is decompressed. -/
structure Board.Working (board : Board) (codec : Codec) : Prop where
  readFails : ∀ start sectors, board.readFails start sectors = none
  mallocFails : ∀ flashOffset size, board.mallocFails flashOffset size = false
  crc32 : board.crc32 = codec.crc32
  gunzip_member : ∀ room bytes content rest, codec.member bytes = some (content, rest) →
    content.length ≤ room → board.gunzip room bytes = (content, true)
  gunzip_none : ∀ room bytes, codec.member bytes = none → (board.gunzip room bytes).2 = false

/-- A payload, filled up to whole sectors. -/
def filled (piece : Piece) : Bytes := align piece.stored KernelRiscvBundle.sectorSize

/-- The sectors that payloads are written to from an offset of the flash on, the first of each
and their number. -/
def extents : ℕ → List Piece → List (ℕ × ℕ)
  | _, [] => []
  | off, piece :: pieces =>
    let len := (filled piece).length
    (off / 512, len / 512) :: extents (off + len) pieces

/-- What is written to the memory for a payload. -/
def written (piece : Piece) : ℕ × Bytes := (piece.loadAddr.toNat, piece.content)

/-- The stored payload is read as one member by the loader, and as a whole. -/
def Single (codec : Codec) (piece : Piece) : Prop :=
  ∃ rest, codec.member piece.stored = some (piece.content, rest)

/-- The content of a payload begins with that of the first member. -/
theorem content_of_member {codec : Codec} {recipe : Recipe} {vars : Vars} {piece : Piece}
    (h : recipe.IsPiece codec vars piece) {first rest : Bytes}
    (hmember : codec.member piece.stored = some (first, rest)) :
  first.length ≤ piece.content.length
  := by
  obtain ⟨-, path, -, -, hpayload⟩ := h.payload
  split at hpayload
  · obtain ⟨more, hmore⟩ := Codec.decompress_of_member hmember hpayload.2
    rw [hmore, List.length_append]
    apply Nat.le_add_right
  · rw [hpayload.1, codec.member_compress] at hmember
    cases hmember
    apply Nat.le_refl

/-- A payload in the flash is loaded exactly when it is a single member, its size is not near the
end of the words, and its place in memory is free. -/
theorem loads_iff {codec : Codec} {board : Board} (hworking : board.Working codec)
    {recipe : Recipe} {vars : Vars} {piece : Piece} (hpiece : recipe.IsPiece codec vars piece)
    {flashOffset : UInt32} (hmod : flashOffset.toNat % 512 = 0)
    (hflash : board.flashBytes flashOffset.toNat piece.stored.length = piece.stored) :
  board.Loads (entryOf codec piece) flashOffset piece.content ↔
    Single codec piece ∧ piece.stored.length ≤ 2 ^ 32 - 512 ∧
      board.Clear piece.loadAddr.toNat piece.content.length
  := by
  have hsize : (entryOf codec piece).size.toNat = piece.stored.length :=
    UInt32.toNat_ofNat_of_lt' hpiece.stored_lt
  have hroom : (entryOf codec piece).uncompressedSize.toNat = piece.content.length :=
    UInt32.toNat_ofNat_of_lt' hpiece.content_lt
  have hpayload : board.payload (entryOf codec piece) flashOffset = piece.stored := by
    rw [Board.payload, toNat_flashSector, hsize, Nat.div_mul_cancel (Nat.dvd_of_mod_eq_zero hmod),
      hflash]
  constructor
  · intro h
    have hgunzip := h.gunzip
    rw [hpayload, hroom] at hgunzip
    have hlarge := h.size
    rw [hsize] at hlarge
    refine ⟨?_, hlarge, h.clear⟩
    cases hmember : codec.member piece.stored with
    | none =>
        have hfails := hworking.gunzip_none piece.content.length _ hmember
        rw [hgunzip] at hfails
        cases hfails
    | some pair =>
        obtain ⟨first, rest⟩ := pair
        rw [hworking.gunzip_member _ _ _ _ hmember (content_of_member hpiece hmember)] at hgunzip
        cases hgunzip
        exact ⟨rest, hmember⟩
  · rintro ⟨⟨rest, hmember⟩, hlarge, hclear⟩
    constructor
    · rfl
    · apply hworking.mallocFails
    · apply hworking.readFails
    · rw [hsize]
      exact hlarge
    · rw [hpayload, hworking.crc32]
      rfl
    · rw [hpayload, hroom]
      apply hworking.gunzip_member _ _ _ _ hmember (Nat.le_refl _)
    · exact hclear

/-- The sectors of a payload are its length, filled up. -/
theorem toNat_sectors_entryOf {codec : Codec} {piece : Piece}
    (h : piece.stored.length ≤ 2 ^ 32 - 512) :
  (sectors (entryOf codec piece).size).toNat * 512 = (filled piece).length
  := by
  have hsize : (entryOf codec piece).size.toNat = piece.stored.length :=
    UInt32.toNat_ofNat_of_lt' (Nat.lt_of_le_of_lt h (by decide))
  rw [toNat_sectors, hsize, filled, length_align]
  omega

theorem toNat_nextOffset (entry : Entry) (flashOffset : UInt32) :
  (nextOffset entry flashOffset).toNat =
    (flashOffset.toNat + (sectors entry.size).toNat * 512) % 2 ^ 32
  := by
  rw [nextOffset, UInt32.toNat_add, toNat_readSize]

/-- Payloads are loaded, and from the sectors that they are written to from `off` on. -/
def LoadsAsWritten (board : Board) (codec : Codec) (off : ℕ) (flashOffset : UInt32)
    (pieces : List Piece) : Prop :=
  List.Forall₂ (fun place write => board.Loads place.1 place.2 write.2 ∧
      write.1 = place.1.loadAddr.toNat)
    (located flashOffset (pieces.map (entryOf codec))) (pieces.map written) ∧
  (located flashOffset (pieces.map (entryOf codec))).map (fun place =>
    ((flashSector place.2).toNat, (sectors place.1.size).toNat)) = extents off pieces

/-- Each payload can be loaded, and the sectors that they are written to begin within the words. -/
def FitsFrom (board : Board) (codec : Codec) (off : ℕ) (pieces : List Piece) : Prop :=
  (∀ piece ∈ pieces, Single codec piece ∧ piece.stored.length ≤ 2 ^ 32 - 512 ∧
    board.Clear piece.loadAddr.toNat piece.content.length) ∧
  ∀ extent ∈ extents off pieces, extent.1 * 512 < 2 ^ 32

/-- Payloads in the flash are loaded from the sectors that they are written to exactly when each of
them can be, and the sectors begin within the words. -/
theorem loads_extents_iff {codec : Codec} {board : Board} (hworking : board.Working codec)
    {pieces : List Piece}
    (hpieces : ∀ piece ∈ pieces, ∃ recipe vars, Recipe.IsPiece recipe codec vars piece)
    {off : ℕ} (hmod : off % 512 = 0) {flashOffset : UInt32}
    (hoff : flashOffset.toNat = off % 2 ^ 32)
    (hflash : board.flashBytes off (pieces.map filled).flatten.length =
      (pieces.map filled).flatten) :
  LoadsAsWritten board codec off flashOffset pieces ↔ FitsFrom board codec off pieces
  := by
  induction pieces generalizing off flashOffset with
  | nil => simp [LoadsAsWritten, FitsFrom, located, extents]
  | cons piece pieces ih =>
      rw [List.map_cons, List.flatten_cons] at hflash
      obtain ⟨hfirst, hrest⟩ := flashBytes_append hflash
      obtain ⟨hstored, -⟩ := @flashBytes_append board off piece.stored _ hfirst
      obtain ⟨recipe, vars, hpiece⟩ := hpieces piece List.mem_cons_self
      have hlen : (filled piece).length = (piece.stored.length + 511) / 512 * 512 :=
        length_align piece.stored
      -- the first payload, when its offset is a word
      have hloads : off < 2 ^ 32 → (board.Loads (entryOf codec piece) flashOffset piece.content ↔
          Single codec piece ∧ piece.stored.length ≤ 2 ^ 32 - 512 ∧
            board.Clear piece.loadAddr.toNat piece.content.length) := by
        intro hlt
        rw [Nat.mod_eq_of_lt hlt] at hoff
        apply loads_iff hworking hpiece
        · rw [hoff]
          exact hmod
        · rw [hoff]
          exact hstored
      -- the other payloads, when the first is not too large
      have hothers : piece.stored.length ≤ 2 ^ 32 - 512 →
          (LoadsAsWritten board codec (off + (filled piece).length)
            (nextOffset (entryOf codec piece) flashOffset) pieces ↔
              FitsFrom board codec (off + (filled piece).length) pieces) := by
        intro hsize
        have hnext : (nextOffset (entryOf codec piece) flashOffset).toNat =
            (off + (filled piece).length) % 2 ^ 32 := by
          rw [toNat_nextOffset, toNat_sectors_entryOf hsize, hoff, Nat.mod_add_mod]
        exact ih (fun other hother => hpieces other (List.mem_cons_of_mem _ hother)) (by omega)
          hnext hrest
      rw [LoadsAsWritten, FitsFrom, List.map_cons, located, List.map_cons, List.map_cons, extents,
        List.forall₂_cons,
        List.cons.injEq, Prod.mk.injEq, List.forall_mem_cons, List.forall_mem_cons,
        toNat_flashSector, hoff]
      simp only
      constructor
      · rintro ⟨⟨⟨hload, -⟩, hload'⟩, ⟨hstart, -⟩, hextents⟩
        have hlt : off < 2 ^ 32 := by omega
        have hpart := (hloads hlt).mp hload
        obtain ⟨hparts, hbegin⟩ := (hothers hpart.2.1).mp ⟨hload', hextents⟩
        exact ⟨⟨hpart, hparts⟩, by omega, hbegin⟩
      · rintro ⟨⟨hpart, hparts⟩, hbegin, hbegin'⟩
        have hlt : off < 2 ^ 32 := by omega
        obtain ⟨hload', hextents⟩ := (hothers hpart.2.1).mpr ⟨hparts, hbegin'⟩
        have hcount := @toNat_sectors_entryOf codec _ hpart.2.1
        exact ⟨⟨⟨(hloads hlt).mpr hpart, rfl⟩, hload'⟩, ⟨by omega, by omega⟩, hextents⟩

/-! ### The recipe and the loader -/

/-- The output of a recipe at its place in the flash of a board that works. -/
structure Placed (codec : Codec) where
  recipe : Recipe
  image : Bytes
  assembled : recipe.assembleC2rvimage codec = .ok (some image)
  board : Board
  working : board.Working codec
  placed : board.flashBytes 0x40000 image.length = image

namespace Placed

variable {codec : Codec}

/-- The recipe and the loader agree on a bundle. -/
structure Agrees (placed : Placed codec) (opensbi dtb kernel : Piece) : Prop where
  /-- The header is accepted. -/
  header : placed.board.loadBundleHeader.result = .ok (bundleOf codec opensbi dtb kernel)
  /-- The payloads are accepted, and their contents are written. -/
  payloads : (placed.board.loadBundle (bundleOf codec opensbi dtb kernel)).result =
    .ok ([opensbi, dtb, kernel].map written)
  /-- The payloads are read from the sectors that they are written to. -/
  sectors : (placed.board.loadBundle (bundleOf codec opensbi dtb kernel)).trace.filterMap
      Access.extent =
    extents (0x40000 + (align (KernelRiscvBundle.header codec [opensbi, dtb, kernel])
      KernelRiscvBundle.sectorSize).length) [opensbi, dtb, kernel]
  /-- The contents are in memory at the end. -/
  memory : ∀ memory, ∀ piece ∈ [opensbi, dtb, kernel],
    slice (writeAll 0 memory ([opensbi, dtb, kernel].map written)) piece.loadAddr.toNat
      piece.content.length = piece.content

/-- Each payload can be loaded, the sectors that they are written to begin within the words, and
contents that overlap in memory agree on what they share. -/
structure Fits (placed : Placed codec) (opensbi dtb kernel : Piece) : Prop where
  single : ∀ piece ∈ [opensbi, dtb, kernel], Single codec piece
  size : ∀ piece ∈ [opensbi, dtb, kernel], piece.stored.length ≤ 2 ^ 32 - 512
  clear : ∀ piece ∈ [opensbi, dtb, kernel],
    placed.board.Clear piece.loadAddr.toNat piece.content.length
  offset : ∀ extent ∈ extents 0x40200 [opensbi, dtb, kernel], extent.1 * 512 < 2 ^ 32
  agree : Agree ([opensbi, dtb, kernel].map written)

/-- The payloads that the recipe asks for. -/
structure AreParts (placed : Placed codec) (opensbi dtb kernel : Piece) : Prop where
  isOpensbi : placed.recipe.IsPiece codec opensbiVars opensbi
  isDtb : placed.recipe.IsPiece codec dtbVars dtb
  isKernel : placed.recipe.IsPiece codec kernelVars kernel
  image : placed.image = KernelRiscvBundle.image codec [opensbi, dtb, kernel]

variable {placed : Placed codec} {opensbi dtb kernel : Piece}

/-- An image that has been assembled is made of three pieces. -/
theorem exists_areParts (placed : Placed codec) :
  ∃ opensbi dtb kernel, placed.AreParts opensbi dtb kernel
  := by
  obtain ⟨opensbi, dtb, kernel, hopensbi, hdtb, hkernel, himage⟩ :=
    Recipe.assembleC2rvimage_eq_ok placed.assembled
  exact ⟨opensbi, dtb, kernel, hopensbi, hdtb, hkernel, himage⟩

/-- A recipe asks for one payload under the names of some variables. -/
theorem isPiece_unique {recipe : Recipe} {vars : Vars} {piece piece' : Piece}
    (h : recipe.IsPiece codec vars piece) (h' : recipe.IsPiece codec vars piece') :
  piece = piece'
  := by
  obtain ⟨pattern, path, hvar, hglob, hpayload⟩ := h.payload
  obtain ⟨pattern', path', hvar', hglob', hpayload'⟩ := h'.payload
  obtain rfl := Option.some.inj (hvar.symm.trans hvar')
  obtain rfl := List.singleton_inj.mp (hglob.symm.trans hglob')
  have haddr {a b : UInt32} (hab : (.ok a.toNat : Outcome Text ℤ) = .ok b.toNat) : a = b :=
    UInt32.toNat_inj.mp (Int.ofNat_inj.mp (Except.ok.inj hab))
  have hload := haddr (h.loadAddr.symm.trans h'.loadAddr)
  have hjump := haddr (h.jumpAddr.symm.trans h'.jumpAddr)
  cases piece
  cases piece'
  dsimp only at hload hjump hpayload hpayload'
  subst hload hjump
  split at hpayload
  · next hgzip =>
    rw [if_pos hgzip] at hpayload'
    obtain ⟨rfl, hcontent⟩ := hpayload
    obtain ⟨rfl, hcontent'⟩ := hpayload'
    rw [Option.some.inj (hcontent.symm.trans hcontent')]
  · next hgzip =>
    rw [if_neg hgzip] at hpayload'
    obtain ⟨rfl, rfl⟩ := hpayload
    obtain ⟨rfl, rfl⟩ := hpayload'
    rfl

/-- The image says which pieces it is made of. -/
theorem AreParts.unique {opensbi' dtb' kernel' : Piece} (h : placed.AreParts opensbi dtb kernel)
    (h' : placed.AreParts opensbi' dtb' kernel') :
  opensbi = opensbi' ∧ dtb = dtb' ∧ kernel = kernel'
  := ⟨isPiece_unique h.isOpensbi h'.isOpensbi, isPiece_unique h.isDtb h'.isDtb,
    isPiece_unique h.isKernel h'.isKernel⟩

/-- Each piece is one that the recipe packs. -/
theorem AreParts.isPiece (h : placed.AreParts opensbi dtb kernel) :
  ∀ piece ∈ [opensbi, dtb, kernel], ∃ recipe vars, Recipe.IsPiece recipe codec vars piece
  := by
  simp only [List.forall_mem_cons]
  exact ⟨⟨_, _, h.isOpensbi⟩, ⟨_, _, h.isDtb⟩, ⟨_, _, h.isKernel⟩, nofun⟩

/-- Header and payloads in the flash. -/
theorem AreParts.flash (h : placed.AreParts opensbi dtb kernel) :
  placed.board.flashBytes 0x40000 80 = KernelRiscvBundle.header codec [opensbi, dtb, kernel] ∧
    placed.board.flashBytes 0x40008 72 = entryBlob codec [opensbi, dtb, kernel] ∧
    placed.board.flashBytes 0x40200 (([opensbi, dtb, kernel].map filled).flatten).length =
      ([opensbi, dtb, kernel].map filled).flatten
  := by
  have hplaced := placed.placed
  rw [h.image, KernelRiscvBundle.image] at hplaced
  obtain ⟨hsector, hpayloads⟩ := flashBytes_append hplaced
  rw [length_align, length_header] at hpayloads
  rw [align] at hsector
  obtain ⟨hheader, -⟩ := flashBytes_append hsector
  have hblob := hheader
  rw [KernelRiscvBundle.header] at hblob
  obtain ⟨-, hblob⟩ := flashBytes_append hblob
  rw [List.length_append, length_leBytes, length_leBytes, length_entryBlob] at hblob
  rw [length_header] at hheader
  exact ⟨hheader, hblob, hpayloads⟩

/-- The loader accepts the header of the recipe. -/
theorem AreParts.header (h : placed.AreParts opensbi dtb kernel) :
  placed.board.loadBundleHeader.result = .ok (bundleOf codec opensbi dtb kernel)
  := by
  obtain ⟨hheader, hblob, -⟩ := h.flash
  have hbundle : placed.board.header = bundleOf codec opensbi dtb kernel := by
    have hsize : sizeofBundle = 80 := rfl
    rw [Board.header, hsize, hheader, bundle_ofBytes]
    · intro piece hmem
      obtain ⟨_, _, hpiece⟩ := h.isPiece piece hmem
      exact hpiece.stored_lt
    · intro piece hmem
      obtain ⟨_, _, hpiece⟩ := h.isPiece piece hmem
      exact hpiece.content_lt
  rw [Board.loadBundleHeader_eq_ok_iff, hbundle]
  constructor
  · constructor
    · apply placed.working.readFails
    · rw [hbundle]
      rfl
    · rw [hblob, hbundle, placed.working.crc32]
      rfl
  · rfl

/-- The payloads are loaded from the sectors that they are written to exactly when they fit. -/
theorem AreParts.loads_iff (h : placed.AreParts opensbi dtb kernel) :
  LoadsAsWritten placed.board codec 0x40200 firstOffset [opensbi, dtb, kernel] ↔
    FitsFrom placed.board codec 0x40200 [opensbi, dtb, kernel]
  := by
  apply loads_extents_iff placed.working h.isPiece
  · rfl
  · rfl
  · exact h.flash.2.2

/-- The recipe and the loader agree on a bundle exactly when the payloads fit. -/
theorem AreParts.agrees_iff_fits (h : placed.AreParts opensbi dtb kernel) :
  placed.Agrees opensbi dtb kernel ↔ placed.Fits opensbi dtb kernel
  := by
  have hentries : (bundleOf codec opensbi dtb kernel).entries =
      [opensbi, dtb, kernel].map (entryOf codec) := rfl
  have hoff : 0x40000 + (align (KernelRiscvBundle.header codec [opensbi, dtb, kernel])
      KernelRiscvBundle.sectorSize).length = 0x40200 := by
    rw [length_align, length_header]
  constructor
  · rintro ⟨-, hpayloads, hsectors, hmemory⟩
    rw [Board.loadBundle_eq, hentries] at hpayloads hsectors
    rw [hoff, Board.trace_loadEntries hpayloads] at hsectors
    obtain ⟨hparts, hbegin⟩ :=
      h.loads_iff.mp ⟨Board.loadEntries_eq_ok_iff.mp hpayloads, hsectors⟩
    constructor
    · exact fun piece hmem => (hparts piece hmem).1
    · exact fun piece hmem => (hparts piece hmem).2.1
    · exact fun piece hmem => (hparts piece hmem).2.2
    · exact hbegin
    · apply (@writeAll_contents_iff _ 0 [] _).mp
      intro write hmem
      obtain ⟨piece, hpiece, rfl⟩ := List.mem_map.mp hmem
      apply hmemory [] piece hpiece
  · rintro ⟨hsingle, hsize, hclear, hbegin, hagree⟩
    obtain ⟨hpayloads, hsectors⟩ := h.loads_iff.mpr
      ⟨fun piece hmem => ⟨hsingle piece hmem, hsize piece hmem, hclear piece hmem⟩, hbegin⟩
    have hresult := Board.loadEntries_eq_ok_iff.mpr hpayloads
    constructor
    · exact h.header
    · rw [Board.loadBundle_eq, hentries, hresult]
    · rw [Board.loadBundle_eq, hentries, Board.trace_loadEntries hresult, hoff, hsectors]
    · intro memory piece hmem
      apply writeAll_contents_iff.mpr hagree (written piece)
      exact List.mem_map_of_mem hmem

end Placed

/-- A board whose bundle fails a checksum. -/
structure Corrupted where
  board : Board
  failsCrc : board.FailsCrc

/-- The recipe and the loader agree on a bundle exactly when its payloads fit, and a bundle that
fails a checksum leads to the boot ROM exactly when no payload before harms the loader. -/
theorem agreement (codec : Codec) :
  (∀ placed : Placed codec, ∃ opensbi dtb kernel, placed.AreParts opensbi dtb kernel ∧
    (placed.Agrees opensbi dtb kernel ↔ placed.Fits opensbi dtb kernel)) ∧
  ∀ corrupted : Corrupted, corrupted.board.EntersFel ↔
    ¬ (corrupted.board.Starts ∧
      corrupted.board.Overruns firstOffset corrupted.board.header.entries)
  := by
  constructor
  · intro placed
    obtain ⟨opensbi, dtb, kernel, hparts⟩ := placed.exists_areParts
    exact ⟨opensbi, dtb, kernel, hparts, hparts.agrees_iff_fits⟩
  · intro corrupted
    apply Board.entersFel_iff corrupted.failsCrc

/-! ### Boards with an image -/

section

/-- Members that are stored as they are. -/
def exampleCodec : Codec := .stored Crc32Hasher.ieee.crc32

/-- A piece that is entered where it is loaded. -/
def examplePiece (stored content : Bytes) (addr : UInt32) : Piece where
  stored := stored
  content := content
  loadAddr := addr
  jumpAddr := addr

/-- A first member and what is behind it. -/
def exampleOpensbi (rest more : Bytes) : Piece :=
  examplePiece (exampleCodec.compress [1] ++ rest) ([1] ++ more) 0x80FC0000

def exampleDtb : Piece := examplePiece (exampleCodec.compress [3]) [3] 0x80F00000
def exampleKernel : Piece := examplePiece (exampleCodec.compress [4]) [4] 0x80000000

variable (opensbi : Piece)

/-- A recipe whose files are found under the names of their variables. -/
def exampleRecipe : Recipe where
  getVar := some
  kernelImagetypes := [imageType]
  glob pattern := [pattern]
  read path :=
    if path = opensbiVars.path then opensbi.stored
    else if path = dtbVars.path then exampleDtb.stored
    else exampleKernel.stored
  numeral value :=
    if value ∈ [opensbiVars.loadAddr, opensbiVars.jumpAddr] then some 0x80FC0000
    else if value ∈ [dtbVars.loadAddr, dtbVars.jumpAddr] then some 0x80F00000
    else some 0x80000000

def exampleImage : Bytes :=
  KernelRiscvBundle.image exampleCodec [opensbi, exampleDtb, exampleKernel]

/-- A board with the image in its flash. -/
def exampleBoard : Board where
  rtcFelFlag := false
  flashInit := 0
  flash i := (exampleImage opensbi).getD (i - 0x40000) 0xFF
  readFails _ _ := none
  mallocFails _ _ := false
  crc32 := exampleCodec.crc32
  gunzip room bytes :=
    match exampleCodec.member bytes with
    | none => ([], false)
    | some (content, _) =>
      if content.length ≤ room then (content, true) else (content.take room, false)
  own _ := false

theorem exampleBoard_working : (exampleBoard opensbi).Working exampleCodec := by
  constructor
  · exact fun _ _ => rfl
  · exact fun _ _ => rfl
  · rfl
  · intro room bytes content rest hmember hroom
    simp only [exampleBoard, hmember]
    rw [if_pos hroom]
  · intro room bytes hmember
    simp only [exampleBoard, hmember]

/-- What is stored is read back. -/
theorem decompress_compress (content : Bytes) :
  exampleCodec.decompress (exampleCodec.compress content) = some content
  := by
  rw [Codec.decompress_member (exampleCodec.member_compress content), List.dropWhile_nil,
    Codec.decompress_nil, Option.map_some, List.append_nil]

theorem member_exampleOpensbi (rest more : Bytes) :
  exampleCodec.member (exampleOpensbi rest more).stored = some ([1], rest)
  := Codec.stored_member _ _ _

theorem length_exampleCodec_compress (b : UInt8) : (exampleCodec.compress [b]).length = 24 :=
  Codec.length_stored_compress _ (Nat.le_add_left 1 65534)

/-- The addresses do not depend on the files. -/
theorem parseAddr_exampleRecipe (name : Text) :
  (exampleRecipe opensbi).parseAddr name = (exampleRecipe exampleDtb).parseAddr name
  := rfl

theorem exampleOpensbi_isPiece {rest more : Bytes}
    (hmore : exampleCodec.decompress (rest.dropWhile (· = 0)) = some more)
    (hrest : rest.length ≤ 24) (hshort : more.length ≤ 24) :
  (exampleRecipe (exampleOpensbi rest more)).IsPiece exampleCodec opensbiVars
    (exampleOpensbi rest more)
  := by
  have hread : (exampleRecipe (exampleOpensbi rest more)).read opensbiVars.path =
      exampleCodec.compress [1] ++ rest := by
    simp only [exampleRecipe, if_true]
    rfl
  constructor
  · use opensbiVars.path, opensbiVars.path, rfl, rfl
    rw [hread, if_pos (.inr ⟨_, rfl⟩)]
    refine ⟨rfl, ?_⟩
    rw [Codec.decompress_member (member_exampleOpensbi rest more), hmore]
    rfl
  · have haddr : (exampleRecipe exampleDtb).parseAddr opensbiVars.loadAddr =
        .ok ((0x80FC0000 : UInt32).toNat : ℤ) := by decide +kernel
    exact (parseAddr_exampleRecipe _ _).trans haddr
  · have haddr : (exampleRecipe exampleDtb).parseAddr opensbiVars.jumpAddr =
        .ok ((0x80FC0000 : UInt32).toNat : ℤ) := by decide +kernel
    exact (parseAddr_exampleRecipe _ _).trans haddr
  · rw [exampleOpensbi, examplePiece, List.length_append, length_exampleCodec_compress]
    omega
  · rw [exampleOpensbi, examplePiece, List.length_append, List.length_singleton]
    omega

theorem exampleDtb_isPiece : (exampleRecipe opensbi).IsPiece exampleCodec dtbVars exampleDtb := by
  have hread : (exampleRecipe opensbi).read dtbVars.path = exampleCodec.compress [3] := by
    simp only [exampleRecipe, if_true]
    rw [if_neg (by decide +kernel)]
    rfl
  constructor
  · use dtbVars.path, dtbVars.path, rfl, rfl
    rw [hread, if_pos (.inr ⟨_, rfl⟩)]
    exact ⟨rfl, decompress_compress _⟩
  · rw [parseAddr_exampleRecipe]
    decide +kernel
  · rw [parseAddr_exampleRecipe]
    decide +kernel
  · rw [exampleDtb, examplePiece, length_exampleCodec_compress]
    decide
  · decide

theorem exampleKernel_isPiece :
  (exampleRecipe opensbi).IsPiece exampleCodec kernelVars exampleKernel
  := by
  have hread : (exampleRecipe opensbi).read kernelVars.path = exampleCodec.compress [4] := by
    simp only [exampleRecipe]
    rw [if_neg (by decide +kernel), if_neg (by decide +kernel)]
    rfl
  constructor
  · use kernelVars.path, kernelVars.path, rfl, rfl
    rw [hread, if_pos (.inr ⟨_, rfl⟩)]
    exact ⟨rfl, decompress_compress _⟩
  · rw [parseAddr_exampleRecipe]
    decide +kernel
  · rw [parseAddr_exampleRecipe]
    decide +kernel
  · rw [exampleKernel, examplePiece, length_exampleCodec_compress]
    decide
  · decide

/-- The image stands in the flash of the board. -/
theorem exampleImage_in_flash :
  (exampleBoard opensbi).flashBytes 0x40000 (exampleImage opensbi).length = exampleImage opensbi
  := by
  apply List.ext_getElem
  · apply Board.length_flashBytes
  · intro i _ hi
    simp only [Board.flashBytes, List.getElem_map, List.getElem_range, exampleBoard,
      Nat.add_sub_cancel_left, List.getD_eq_getElem?_getD, List.getElem?_eq_getElem hi,
      Option.getD_some]

variable {opensbi}

def examplePlaced (h : (exampleRecipe opensbi).IsPiece exampleCodec opensbiVars opensbi) :
    Placed exampleCodec where
  recipe := exampleRecipe opensbi
  image := exampleImage opensbi
  assembled := Recipe.assembleC2rvimage_of_isPiece List.mem_cons_self h
    (exampleDtb_isPiece opensbi) (exampleKernel_isPiece opensbi)
  board := exampleBoard opensbi
  working := exampleBoard_working opensbi
  placed := exampleImage_in_flash opensbi

theorem examplePlaced_areParts
    (h : (exampleRecipe opensbi).IsPiece exampleCodec opensbiVars opensbi) :
  (examplePlaced h).AreParts opensbi exampleDtb exampleKernel
  := ⟨h, exampleDtb_isPiece opensbi, exampleKernel_isPiece opensbi, rfl⟩

theorem oneMember_isPiece :
  (exampleRecipe (exampleOpensbi [] [])).IsPiece exampleCodec opensbiVars (exampleOpensbi [] [])
  := exampleOpensbi_isPiece Codec.decompress_nil (by decide) (by decide)

theorem twoMembers_isPiece :
  (exampleRecipe (exampleOpensbi (exampleCodec.compress [2]) [2])).IsPiece exampleCodec opensbiVars
    (exampleOpensbi (exampleCodec.compress [2]) [2])
  := exampleOpensbi_isPiece (decompress_compress [2])
    (Nat.le_of_eq (length_exampleCodec_compress 2)) (by decide)

/-- An image with one member for each payload. -/
def oneMember : Placed exampleCodec := examplePlaced oneMember_isPiece

/-- An image with a payload of two members. -/
def twoMembers : Placed exampleCodec := examplePlaced twoMembers_isPiece

/-- A payload of one member is loaded as it was written. -/
theorem oneMember_fits : oneMember.Fits (exampleOpensbi [] []) exampleDtb exampleKernel := by
  constructor
  case single =>
    simp only [List.forall_mem_cons]
    exact ⟨⟨_, member_exampleOpensbi [] []⟩, ⟨_, exampleCodec.member_compress [3]⟩,
      ⟨_, exampleCodec.member_compress [4]⟩, List.forall_mem_nil _⟩
  case size => decide +kernel
  case clear => decide +kernel
  case offset => decide +kernel
  case agree =>
    unfold Agree
    decide +kernel

/-- The board of an image with a byte of the last payload changed. -/
def corruptedBoard : Board :=
  { oneMember.board with flash := fun i => if i = 0x4060C then 7 else oneMember.board.flash i }

theorem corruptedBoard_failsCrc : corruptedBoard.FailsCrc := by
  right
  decide +kernel

/-- Payloads of a size that can be rounded up, whose output has room, harm no loader. -/
theorem Board.not_overruns {board : Board} {flashOffset : UInt32} {entries : List Entry}
    (h : ∀ place ∈ located flashOffset entries, place.1.size.toNat ≤ 2 ^ 32 - 512 ∧
      board.Clear place.1.loadAddr.toNat (board.gunzip place.1.uncompressedSize.toNat
        (board.payload place.1 place.2)).1.length) :
  ¬ board.Overruns flashOffset entries
  := by
  induction entries generalizing flashOffset with
  | nil => exact id
  | cons entry entries ih =>
      obtain ⟨⟨hsize, hclear⟩, hentries⟩ := List.forall_mem_cons.mp h
      rintro (hharms | ⟨-, hoverruns⟩)
      · rcases hharms.harm with hlarge | ⟨-, hover⟩
        · exact absurd hsize (Nat.not_le.mpr hlarge)
        · exact hover hclear
      · exact ih hentries hoverruns

/-- An image that fits is loaded, and one with a changed byte leads to the boot ROM. -/
theorem agreement_oneMember :
  (∃ opensbi dtb kernel, oneMember.AreParts opensbi dtb kernel ∧
    oneMember.Agrees opensbi dtb kernel) ∧
  corruptedBoard.FailsCrc ∧ corruptedBoard.EntersFel
  := by
  obtain ⟨hplaced, hcorrupted⟩ := agreement exampleCodec
  obtain ⟨opensbi, dtb, kernel, hparts, hagrees⟩ := hplaced oneMember
  obtain ⟨rfl, rfl, rfl⟩ := hparts.unique (examplePlaced_areParts oneMember_isPiece)
  refine ⟨⟨_, _, _, hparts, hagrees.mpr oneMember_fits⟩, corruptedBoard_failsCrc, ?_⟩
  apply (hcorrupted ⟨corruptedBoard, corruptedBoard_failsCrc⟩).mpr
  rintro ⟨-, hoverruns⟩
  apply Board.not_overruns _ hoverruns
  decide +kernel

/-- The content of two members is not loaded: the loader decompresses the first one only. -/
theorem examplePlaced_not_agrees :
  ∃ opensbi dtb kernel, twoMembers.AreParts opensbi dtb kernel ∧
    ¬ twoMembers.Agrees opensbi dtb kernel
  := by
  have hparts := examplePlaced_areParts twoMembers_isPiece
  refine ⟨_, _, _, hparts, ?_⟩
  intro hagrees
  obtain ⟨rest, hrest⟩ := (hparts.agrees_iff_fits.mp hagrees).single _ List.mem_cons_self
  have hcontent : ([1] : Bytes) = [1, 2] :=
    congrArg Prod.fst (Option.some.inj ((member_exampleOpensbi _ _).symm.trans hrest))
  cases hcontent

end

end Falcon2

import CatplayFirmware.Support.Mips32
import CatplayFirmware.Support.Utf8

/-!
# The arguments of the kernel

`MipsFwArgsLayout.build` lays out the block that `main` loads for the kernel: the pointers to its
arguments, the pointer that ends its environment, and the texts of the arguments behind them.
`Trampoline.buildLinuxMips` is the code that sets the registers and jumps to the kernel.
-/

open Bytes Mips32

/-! ### The block -/

/-- The block and what the registers are to say of it. -/
structure MipsFwArgsLayout where
  blob : Bytes
  argc : ℕ
  argvAddr : ℕ
  envpAddr : ℕ
  promvec : ℕ
  cmdline : Text
  deriving DecidableEq

namespace MipsFwArgsLayout

/-- The next multiple of `align`, which is a power of two. -/
def alignUp (value align : ℕ) : ℕ := Nat.ldiff (value + align - 1) (align - 1)

/-- `struct.pack_into` with the format `<I`. -/
def packInto (blob : Bytes) (off value : ℕ) : Option Bytes :=
  if value < 2 ^ 32 ∧ off + 4 ≤ blob.length then some (overwrite blob off (leBytes 4 value))
  else none

/-- One round of the loop that writes the texts. -/
def writeItem (baseAddr : ℕ) : Bytes × ℕ × List ℕ → Bytes → Bytes × ℕ × List ℕ
  | (blob, writeOff, argvPtrs), item =>
    (overwrite blob writeOff item, writeOff + item.length, argvPtrs ++ [baseAddr + writeOff])

/-- One round of the loop that writes the pointers. -/
def writePtr (blob : Bytes) : ℕ × ℕ → Option Bytes
  | (ptr, idx) => packInto blob (idx * 4) ptr

/-- The block for a command line, at the address it is to be loaded at. -/
def build (baseAddr : ℕ) (cmdline : Text) : Option MipsFwArgsLayout := do
  let argvItems := [ascii "linux\x00", Utf8.encode cmdline ++ [0]]
  let argc := argvItems.length
  let argvTableSize := (argc + 1) * 4
  let envpTableSize := 4
  let stringsOffset := alignUp (argvTableSize + envpTableSize) 4
  let totalStrings := (argvItems.map List.length).sum
  let (blob, _, argvPtrs) := argvItems.foldl (writeItem baseAddr)
    (List.replicate (stringsOffset + totalStrings) 0, stringsOffset, [])
  let blob ← argvPtrs.zipIdx.foldlM writePtr blob
  let blob ← packInto blob (argc * 4) 0
  let blob ← packInto blob argvTableSize 0
  return ⟨blob, argc, baseAddr, baseAddr + argvTableSize, 0, cmdline⟩

/-- The block of a command line. -/
def block (baseAddr : ℕ) (cmdline : Text) : Bytes :=
  leBytes 4 (baseAddr + 16) ++ (leBytes 4 (baseAddr + 22) ++ (leBytes 4 0 ++ (leBytes 4 0 ++
    (ascii "linux\x00" ++ (Utf8.encode cmdline ++ [0])))))

/-- A word is put in place of four bytes. -/
theorem packInto_eq {xs ys ws : Bytes} {off value : ℕ} (hvalue : value < 2 ^ 32)
    (hoff : xs.length = off) (hlen : ys.length = 4) :
  packInto (xs ++ (ys ++ ws)) off value = some (xs ++ (leBytes 4 value ++ ws))
  := by
  have hfits : off + 4 ≤ (xs ++ (ys ++ ws)).length := by
    rw [List.length_append, List.length_append]
    omega
  rw [packInto, if_pos ⟨hvalue, hfits⟩, overwrite_piece hoff]
  rw [length_leBytes, hlen]

/-- Where each of several items starts when they stand one behind another. -/
def offsets (off : ℕ) : List Bytes → List ℕ
  | [] => []
  | item :: items => off :: offsets (off + item.length) items

/-- The items are written one behind another. -/
theorem foldl_writeItem (baseAddr : ℕ) (front : Bytes) (argvPtrs : List ℕ) (items : List Bytes) :
  items.foldl (writeItem baseAddr)
      (front ++ List.replicate (items.map List.length).sum 0, front.length, argvPtrs) =
    (front ++ items.flatten, front.length + (items.map List.length).sum,
      argvPtrs ++ (offsets front.length items).map (baseAddr + ·))
  := by
  induction items generalizing front argvPtrs with
  | nil => simp [offsets]
  | cons item items ih =>
      have hwrite : overwrite
          (front ++ (List.replicate item.length 0 ++
            List.replicate (items.map List.length).sum 0)) front.length item =
          (front ++ item) ++ List.replicate (items.map List.length).sum 0 := by
        rw [overwrite_piece rfl List.length_replicate.symm, List.append_assoc]
      have hnext := ih (front ++ item) (argvPtrs ++ [baseAddr + front.length])
      rw [List.length_append] at hnext
      rw [List.map_cons, List.sum_cons, List.replicate_add, List.foldl_cons, writeItem, hwrite,
        hnext, List.flatten_cons, List.append_assoc, offsets, List.map_cons, List.append_assoc,
        Nat.add_assoc, List.singleton_append]

/-- The pointers are written one behind another. -/
theorem foldlM_writePtr {front : Bytes} {k : ℕ} {ptrs : List ℕ} (hfront : front.length = k * 4)
    (hptrs : ∀ ptr ∈ ptrs, ptr < 2 ^ 32) (rest : Bytes) :
  (ptrs.zipIdx k).foldlM writePtr (front ++ (List.replicate (4 * ptrs.length) 0 ++ rest)) =
    some (front ++ (ptrs.flatMap (leBytes 4) ++ rest))
  := by
  induction ptrs generalizing front k with
  | nil => rfl
  | cons ptr ptrs ih =>
      obtain ⟨hptr, hptrs⟩ := List.forall_mem_cons.mp hptrs
      have hlen : (front ++ leBytes 4 ptr).length = (k + 1) * 4 := by
        rw [List.length_append, length_leBytes, hfront, Nat.succ_mul]
      have hnext := ih hlen hptrs
      rw [List.append_assoc, List.append_assoc] at hnext
      rw [List.length_cons, Nat.mul_succ, Nat.add_comm, List.replicate_add, List.append_assoc,
        List.zipIdx_cons, List.foldlM_cons, writePtr,
        packInto_eq hptr hfront List.length_replicate, List.flatMap_cons, List.append_assoc]
      exact hnext

/-- The tables of two pointers and an empty environment are written before the texts. -/
theorem writeTables {ptr₀ ptr₁ : ℕ} (h₀ : ptr₀ < 2 ^ 32) (h₁ : ptr₁ < 2 ^ 32) (texts : Bytes) :
  ((([ptr₀, ptr₁].zipIdx.foldlM writePtr (List.replicate 16 0 ++ texts)).bind
      fun blob => packInto blob 8 0).bind fun blob => packInto blob 12 0) =
    some (leBytes 4 ptr₀ ++ (leBytes 4 ptr₁ ++ (leBytes 4 0 ++ (leBytes 4 0 ++ texts))))
  := by
  have hptrs : ∀ ptr ∈ [ptr₀, ptr₁], ptr < 2 ^ 32 := by
    simp only [List.forall_mem_cons]
    exact ⟨h₀, h₁, by simp⟩
  have hblank : List.replicate 16 (0 : UInt8) ++ texts =
      List.replicate (4 * [ptr₀, ptr₁].length) 0 ++ (List.replicate 8 0 ++ texts) := rfl
  have htable := @foldlM_writePtr [] 0 _ rfl hptrs (List.replicate 8 0 ++ texts)
  have hargv : packInto (leBytes 4 ptr₀ ++ leBytes 4 ptr₁ ++
      (List.replicate 4 0 ++ (List.replicate 4 0 ++ texts))) 8 0 = some _ :=
    packInto_eq (by omega) rfl rfl
  have henvp : packInto (leBytes 4 ptr₀ ++ leBytes 4 ptr₁ ++ leBytes 4 0 ++
      (List.replicate 4 0 ++ texts)) 12 0 = some _ :=
    packInto_eq (by omega) rfl rfl
  rw [List.append_assoc (leBytes 4 ptr₀ ++ leBytes 4 ptr₁)] at henvp
  rw [hblank]
  have hfirst : [ptr₀, ptr₁].zipIdx.foldlM writePtr
      (List.replicate (4 * [ptr₀, ptr₁].length) 0 ++ (List.replicate 8 0 ++ texts)) =
      some (leBytes 4 ptr₀ ++ leBytes 4 ptr₁ ++
        (List.replicate 4 0 ++ (List.replicate 4 0 ++ texts))) := htable
  rw [hfirst, Option.bind_some, hargv, Option.bind_some, henvp]
  simp only [List.append_assoc]

/-- The two loops of `build` lay the block out in one piece. -/
theorem build_eq {baseAddr : ℕ} (cmdline : Text) (h : baseAddr + 22 < 2 ^ 32) :
  build baseAddr cmdline =
    some ⟨block baseAddr cmdline, 2, baseAddr, baseAddr + 12, 0, cmdline⟩
  := by
  have halign : alignUp 16 4 = 16 := by decide +kernel
  have hitems := foldl_writeItem baseAddr (List.replicate 16 0) []
    [ascii "linux\x00", Utf8.encode cmdline ++ [0]]
  rw [← List.replicate_add, List.length_replicate, List.flatten_cons, List.flatten_singleton]
    at hitems
  have htables := @writeTables (baseAddr + 16) (baseAddr + 22) (by omega) h
    (ascii "linux\x00" ++ (Utf8.encode cmdline ++ [0]))
  rw [build]
  dsimp only
  rw [List.length_cons, List.length_singleton]
  dsimp only [Nat.reduceAdd, Nat.reduceMul]
  rw [halign, hitems]
  obtain ⟨blob', htable, henvp⟩ := Option.bind_eq_some_iff.mp htables
  obtain ⟨blob, hptrs, hargv⟩ := Option.bind_eq_some_iff.mp htable
  change ([baseAddr + 16, baseAddr + 22].zipIdx.foldlM writePtr
    (List.replicate 16 0 ++ (ascii "linux\x00" ++ (Utf8.encode cmdline ++ [0])))).bind _ = _
  rw [hptrs, Option.bind_some]
  change (packInto blob 8 0).bind _ = _
  rw [hargv, Option.bind_some]
  change (packInto blob' 12 0).bind _ = _
  rw [henvp]
  rfl

/-! ### The block in memory -/

/-- Two tables of 16 bytes in all, and two texts with their ends. -/
theorem length_block (baseAddr : ℕ) (cmdline : Text) :
  (block baseAddr cmdline).length = 16 + (6 + (cmdline.byteLen + 1))
  := by
  have hlinux : (ascii "linux\x00").length = 6 := rfl
  simp only [block, List.length_append, length_leBytes, hlinux, Utf8.length_encode,
    List.length_singleton]
  omega

/-- A string of bytes stands in memory with the byte at its end. -/
structure IsCString (m : FlatMemory 32) (a : Word) (bs : Bytes) : Prop where
  load : m.load a (bs.length + 1) = bs ++ [0]
  nonzero : 0 ∉ bs

/-- The arguments of the kernel stand in memory: pointers to the two strings, each with the byte
at its end inside the block behind the tables and one behind the other, and the pointers that end
the tables. -/
structure ArgsBlock (m : FlatMemory 32) (layout : MipsFwArgsLayout) (baseAddr : ℕ) : Prop where
  argc : layout.argc = 2
  argvAddr : layout.argvAddr = baseAddr
  envpAddr : layout.envpAddr = baseAddr + 4 * (layout.argc + 1)
  strings : ∃ ptr₀ ptr₁ : ℕ,
    word m (BitVec.ofNat 32 layout.argvAddr) = BitVec.ofNat 32 ptr₀ ∧
    word m (BitVec.ofNat 32 (layout.argvAddr + 4)) = BitVec.ofNat 32 ptr₁ ∧
    IsCString m (BitVec.ofNat 32 ptr₀) (ascii "linux") ∧
    IsCString m (BitVec.ofNat 32 ptr₁) (Utf8.encode layout.cmdline) ∧
    layout.envpAddr + 4 ≤ ptr₀ ∧
    ptr₀ + (ascii "linux").length + 1 ≤ ptr₁ ∧
    ptr₁ + (Utf8.encode layout.cmdline).length + 1 ≤ baseAddr + layout.blob.length
  argvEnd : word m (BitVec.ofNat 32 (layout.argvAddr + 4 * layout.argc)) = 0
  envpEnd : word m (BitVec.ofNat 32 layout.envpAddr) = 0

/-- Four bytes in memory are a word. -/
theorem word_of_load {m : FlatMemory 32} {a : Word} {value : ℕ} (hvalue : value < 2 ^ 32)
    (h : m.load a 4 = leBytes 4 value) :
  word m a = BitVec.ofNat 32 value
  := by
  rw [word, h, leNat_leBytes hvalue]

/-- Where the block stands, its pointers point into it. -/
theorem argsBlock_of_load {m : FlatMemory 32} {baseAddr : ℕ} {cmdline : Text}
    (hnul : '\x00' ∉ cmdline) (hfits : baseAddr + 22 < 2 ^ 32)
    (hblob : m.load (BitVec.ofNat 32 baseAddr) (block baseAddr cmdline).length =
      block baseAddr cmdline) :
  ArgsBlock m ⟨block baseAddr cmdline, 2, baseAddr, baseAddr + 12, 0, cmdline⟩ baseAddr
  := by
  have hlen := length_block baseAddr cmdline
  obtain ⟨hptr₀, hrest⟩ := FlatMemory.load_append hblob
  obtain ⟨hptr₁, hrest⟩ := FlatMemory.load_append hrest
  obtain ⟨hargv, hrest⟩ := FlatMemory.load_append hrest
  obtain ⟨henvp, hrest⟩ := FlatMemory.load_append hrest
  obtain ⟨hlinux, hcmdline⟩ := FlatMemory.load_append hrest
  refine ⟨rfl, rfl, rfl, ⟨baseAddr + 16, baseAddr + 22, ?_, ?_, ?_, ?_, ?_, ?_, ?_⟩, ?_, ?_⟩
  · exact word_of_load (by omega) hptr₀
  · exact word_of_load hfits hptr₁
  · exact ⟨hlinux, by decide⟩
  · rw [List.length_append] at hcmdline
    exact ⟨hcmdline, fun h => hnul (Utf8.nul_of_zero_mem_encode h)⟩
  · exact Nat.le_refl _
  · exact Nat.le_refl _
  · dsimp only
    rw [hlen, Utf8.length_encode]
    omega
  · exact word_of_load (Nat.two_pow_pos 32) hargv
  · exact word_of_load (Nat.two_pow_pos 32) henvp

/-- The block of a command line that fits is laid out, and where it is loaded it holds the two
arguments. -/
theorem build_spec {baseAddr : ℕ} {cmdline : Text} (hnul : '\x00' ∉ cmdline)
    (hfits : baseAddr + (cmdline.byteLen + 23) ≤ 2 ^ 32) :
  ∃ layout, build baseAddr cmdline = some layout ∧ layout.cmdline = cmdline ∧
    layout.blob.length = cmdline.byteLen + 23 ∧
    ∀ m : FlatMemory 32, m.load (BitVec.ofNat 32 baseAddr) layout.blob.length = layout.blob →
      ArgsBlock m layout baseAddr
  := by
  refine ⟨_, build_eq cmdline (by omega), rfl, ?_, ?_⟩
  · dsimp only
    rw [length_block]
    omega
  · intro m hblob
    exact argsBlock_of_load hnul (by omega) hblob

end MipsFwArgsLayout

/-! ### The code -/

namespace Trampoline

/-- An instruction with an immediate value. Fields that are too long are cut. -/
def mipsI (op rs rt imm16 : ℕ) : ℕ :=
  (op &&& 0x3F) <<< 26 ||| (rs &&& 0x1F) <<< 21 ||| (rt &&& 0x1F) <<< 16 ||| imm16 &&& 0xFFFF

/-- An instruction between registers. -/
def mipsR (rs rt rd shamt funct : ℕ) : ℕ :=
  (rs &&& 0x1F) <<< 21 ||| (rt &&& 0x1F) <<< 16 ||| (rd &&& 0x1F) <<< 11 |||
    (shamt &&& 0x1F) <<< 6 ||| funct &&& 0x3F

def encodeLui (rt imm16 : ℕ) : ℕ := mipsI 0x0F 0 rt imm16

def encodeOri (rt rs imm16 : ℕ) : ℕ := mipsI 0x0D rs rt imm16

def encodeJr (rs : ℕ) : ℕ := mipsR rs 0 0 0 0x08

/-- Two instructions that load a register, the upper half first. -/
def mipsLoadU32 (reg value : ℕ) : List ℕ :=
  let hi := value >>> 16 &&& 0xFFFF
  let lo := value &&& 0xFFFF
  [encodeLui reg hi, encodeOri reg reg lo]

/-- `struct.pack` with the format `<I`. -/
def pack (w : ℕ) : Option Bytes := if w < 2 ^ 32 then some (leBytes 4 w) else none

/-- Four arguments, the entry in register 25, the jump, and a word behind it that does nothing. -/
def linuxMipsWords (kernelEntry a0Val a1Val a2Val a3Val : ℕ) : List ℕ :=
  mipsLoadU32 4 a0Val ++ mipsLoadU32 5 a1Val ++ mipsLoadU32 6 a2Val ++ mipsLoadU32 7 a3Val ++
    mipsLoadU32 25 kernelEntry ++ [encodeJr 25] ++ [0]

/-- The bytes of the code. -/
def buildLinuxMips (kernelEntry a0Val a1Val a2Val a3Val : ℕ) : Option Bytes :=
  ((linuxMipsWords kernelEntry a0Val a1Val a2Val a3Val).mapM pack).map List.flatten

/-! ### What the words are -/

/-- A disjunction of bits that do not meet is a sum. -/
theorem mul_or {i a b : ℕ} (h : b < 2 ^ i) : a <<< i ||| b = a * 2 ^ i + b := by
  rw [← Nat.shiftLeft_add_eq_or_of_lt h, Nat.shiftLeft_eq]

/-- Fields that are not too long are put next to each other. -/
theorem mipsI_eq {op rs rt imm16 : ℕ} (hop : op < 64) (hrs : rs < 32) (hrt : rt < 32)
    (himm : imm16 < 2 ^ 16) :
  mipsI op rs rt imm16 = op * 2 ^ 26 + rs * 2 ^ 21 + rt * 2 ^ 16 + imm16
  := by
  have hopMask : op &&& 0x3F = op := Nat.and_two_pow_sub_one_of_lt_two_pow (n := 6) hop
  have hrsMask : rs &&& 0x1F = rs := Nat.and_two_pow_sub_one_of_lt_two_pow (n := 5) hrs
  have hrtMask : rt &&& 0x1F = rt := Nat.and_two_pow_sub_one_of_lt_two_pow (n := 5) hrt
  have himmMask : imm16 &&& 0xFFFF = imm16 := Nat.and_two_pow_sub_one_of_lt_two_pow (n := 16) himm
  have hupper : op <<< 26 ||| rs <<< 21 = (op * 2 ^ 5 + rs) <<< 21 := by
    rw [Nat.shiftLeft_eq rs, mul_or (by omega), Nat.shiftLeft_eq]
    omega
  have hmiddle : (op * 2 ^ 5 + rs) <<< 21 ||| rt <<< 16 =
      ((op * 2 ^ 5 + rs) * 2 ^ 5 + rt) <<< 16 := by
    rw [Nat.shiftLeft_eq rt, mul_or (by omega), Nat.shiftLeft_eq]
    omega
  rw [mipsI, hopMask, hrsMask, hrtMask, himmMask, hupper, hmiddle, mul_or himm]
  omega

theorem encodeLui_eq {rt imm16 : ℕ} (hrt : rt < 32) (himm : imm16 < 2 ^ 16) :
  encodeLui rt imm16 = 0x0F * 2 ^ 26 + rt * 2 ^ 16 + imm16
  := mipsI_eq (by omega) (by omega) hrt himm

theorem encodeOri_eq {rt rs imm16 : ℕ} (hrt : rt < 32) (hrs : rs < 32) (himm : imm16 < 2 ^ 16) :
  encodeOri rt rs imm16 = 0x0D * 2 ^ 26 + rs * 2 ^ 21 + rt * 2 ^ 16 + imm16
  := mipsI_eq (by omega) hrs hrt himm

theorem encodeJr_eq {rs : ℕ} (hrs : rs < 32) : encodeJr rs = rs * 2 ^ 21 + 0x08 := by
  have hrsMask : rs &&& 0x1F = rs := Nat.and_two_pow_sub_one_of_lt_two_pow (n := 5) hrs
  have hor : encodeJr rs = rs <<< 21 ||| 0x08 := by
    rw [encodeJr, mipsR, hrsMask]
    simp
  rw [hor, mul_or (by omega)]

theorem toNat_ofNat_of_lt {w n : ℕ} (h : n < 2 ^ w) : (BitVec.ofNat w n).toNat = n := by
  rw [BitVec.toNat_ofNat, Nat.mod_eq_of_lt h]

/-- What is encoded as `lui` is executed as `lui`. -/
theorem decode_encodeLui {rt imm16 : ℕ} (hrt : rt < 32) (himm : imm16 < 2 ^ 16) :
  decode (BitVec.ofNat 32 (encodeLui rt imm16)) =
    some (.lui (BitVec.ofNat 5 rt) (BitVec.ofNat 16 imm16))
  := by
  apply decode_lui
  rw [encodeLui_eq hrt himm, toNat_ofNat_of_lt (by omega), toNat_ofNat_of_lt (by omega),
    toNat_ofNat_of_lt himm]

/-- What is encoded as `ori` is executed as `ori`. -/
theorem decode_encodeOri {rt rs imm16 : ℕ} (hrt : rt < 32) (hrs : rs < 32)
    (himm : imm16 < 2 ^ 16) :
  decode (BitVec.ofNat 32 (encodeOri rt rs imm16)) =
    some (.ori (BitVec.ofNat 5 rt) (BitVec.ofNat 5 rs) (BitVec.ofNat 16 imm16))
  := by
  apply decode_ori
  rw [encodeOri_eq hrt hrs himm, toNat_ofNat_of_lt (by omega), toNat_ofNat_of_lt (by omega),
    toNat_ofNat_of_lt (by omega), toNat_ofNat_of_lt himm]

/-- What is encoded as `jr` is executed as `jr`. -/
theorem decode_encodeJr {rs : ℕ} (hrs : rs < 32) :
  decode (BitVec.ofNat 32 (encodeJr rs)) = some (.jr (BitVec.ofNat 5 rs))
  := by
  apply decode_jr
  rw [encodeJr_eq hrs, toNat_ofNat_of_lt (by omega), toNat_ofNat_of_lt (by omega)]

/-- A word is its upper half before its lower half. -/
theorem append_halves (v : Word) :
  BitVec.ofNat 16 (v.toNat / 2 ^ 16) ++ BitVec.ofNat 16 (v.toNat % 2 ^ 16) = v
  := by
  have hv := v.isLt
  apply BitVec.eq_of_toNat_eq
  rw [BitVec.toNat_append, mul_or (BitVec.isLt _), toNat_ofNat_of_lt (by omega),
    toNat_ofNat_of_lt (by omega)]
  omega

/-- The words that load a register. -/
theorem run_mipsLoadU32 {s : State} {a : Word} {r : ℕ} {v : Word} (hr : BitVec.ofNat 5 r ≠ 0)
    (hlt : r < 32) (ha : Aligned a)
    (hcode : Code s.memory a ((mipsLoadU32 r v.toNat).map (BitVec.ofNat 32))) :
  run 2 (s.goTo a) = some ((s.setReg (BitVec.ofNat 5 r) v).goTo (a + 8))
  := by
  have hv := v.isLt
  have hhi : v.toNat >>> 16 &&& 0xFFFF = v.toNat / 2 ^ 16 := by
    rw [Nat.shiftRight_eq_div_pow]
    exact Nat.and_two_pow_sub_one_of_lt_two_pow (n := 16) (by omega)
  have hlo : v.toNat &&& 0xFFFF = v.toNat % 2 ^ 16 := Nat.and_two_pow_sub_one_eq_mod _ 16
  rw [mipsLoadU32, hhi, hlo] at hcode
  have hrun := run_lui_ori hr ha hcode (decode_encodeLui hlt (by omega))
    (decode_encodeOri hlt hlt (by omega))
  rw [append_halves] at hrun
  exact hrun

/-! ### The whole code -/

/-- The words that load registers one after another. -/
def loadWords (loads : List (ℕ × Word)) : List ℕ :=
  loads.flatMap fun (r, v) => mipsLoadU32 r v.toNat

/-- The registers after several loads. -/
def setRegs (s : State) (loads : List (ℕ × Word)) : State :=
  loads.foldl (fun s (r, v) => s.setReg (BitVec.ofNat 5 r) v) s

/-- Loading registers leaves the memory as it is. -/
theorem setRegs_memory (s : State) (loads : List (ℕ × Word)) :
  (setRegs s loads).memory = s.memory
  := by
  induction loads generalizing s with
  | nil => rfl
  | cons load loads ih => exact (ih _).trans (setReg_memory s _)

/-- The words that load registers, two for each. -/
theorem run_loadWords {s : State} {a : Word} {loads : List (ℕ × Word)}
    (hr : ∀ load ∈ loads, BitVec.ofNat 5 load.1 ≠ 0 ∧ load.1 < 32) (ha : Aligned a)
    (hcode : Code s.memory a ((loadWords loads).map (BitVec.ofNat 32))) :
  run (2 * loads.length) (s.goTo a) =
    some ((setRegs s loads).goTo (a + BitVec.ofNat 32 (8 * loads.length)))
  := by
  induction loads generalizing s a with
  | nil =>
      have hzero : a + BitVec.ofNat 32 0 = a := BitVec.add_zero a
      rw [List.length_nil, Nat.mul_zero, hzero]
      rfl
  | cons load loads ih =>
      obtain ⟨r, v⟩ := load
      obtain ⟨hne, hlt⟩ := hr _ List.mem_cons_self
      rw [loadWords, List.flatMap_cons, List.map_append, ← loadWords] at hcode
      obtain ⟨hfirst, hrest⟩ := code_append hcode
      have hoff : a + 8 + BitVec.ofNat 32 (8 * loads.length) =
          a + BitVec.ofNat 32 (8 * (loads.length + 1)) := by
        rw [BitVec.add_assoc, Nat.mul_succ, Nat.add_comm, BitVec.ofNat_add]
        rfl
      rw [← setReg_memory s (r := BitVec.ofNat 5 r) (v := v)] at hrest
      have hnext : run (2 * loads.length) ((s.setReg (BitVec.ofNat 5 r) v).goTo (a + 8)) =
          some ((setRegs (s.setReg (BitVec.ofNat 5 r) v) loads).goTo
            (a + 8 + BitVec.ofNat 32 (8 * loads.length))) :=
        ih (fun load hload => hr load (List.mem_cons_of_mem _ hload))
          (add_four_add_four a ▸ ha.add_four.add_four) hrest
      rw [List.length_cons, Nat.mul_succ, Nat.add_comm, run_add,
        run_mipsLoadU32 hne hlt ha hfirst, Option.bind_some, hnext, hoff]
      rfl

/-- An instruction is a word. -/
theorem mipsI_lt (op rs rt imm16 : ℕ) : mipsI op rs rt imm16 < 2 ^ 32 := by
  have hop : op &&& 0x3F ≤ 0x3F := Nat.and_le_right
  have hrs : rs &&& 0x1F ≤ 0x1F := Nat.and_le_right
  have hrt : rt &&& 0x1F ≤ 0x1F := Nat.and_le_right
  have himm : imm16 &&& 0xFFFF ≤ 0xFFFF := Nat.and_le_right
  rw [mipsI, Nat.shiftLeft_eq, Nat.shiftLeft_eq, Nat.shiftLeft_eq]
  apply Nat.or_lt_two_pow _ (by omega)
  apply Nat.or_lt_two_pow _ (by omega)
  apply Nat.or_lt_two_pow <;> omega

/-- The instructions that load registers are words. -/
theorem loadWords_lt {loads : List (ℕ × Word)} {w : ℕ} (h : w ∈ loadWords loads) : w < 2 ^ 32 := by
  obtain ⟨⟨r, v⟩, -, hmem⟩ := List.mem_flatMap.mp h
  have hw : w ∈ mipsLoadU32 r v.toNat := hmem
  rw [mipsLoadU32] at hw
  simp only [List.mem_cons, List.not_mem_nil, or_false] at hw
  rcases hw with rfl | rfl
  · apply mipsI_lt
  · apply mipsI_lt

/-- Words can be packed. -/
theorem mapM_pack {ws : List ℕ} (h : ∀ w ∈ ws, w < 2 ^ 32) :
  ws.mapM pack = some (ws.map (leBytes 4))
  := by
  induction ws with
  | nil => rfl
  | cons w ws ih =>
      obtain ⟨hw, hws⟩ := List.forall_mem_cons.mp h
      rw [List.mapM_cons, ih hws, pack, if_pos hw]
      rfl

/-- Words in memory are code. -/
theorem code_of_words {m : FlatMemory 32} {a : Word} {ws : List ℕ} (hws : ∀ w ∈ ws, w < 2 ^ 32)
    (h : m.load a (4 * ws.length) = (ws.map (leBytes 4)).flatten) :
  Code m a (ws.map (BitVec.ofNat 32))
  := by
  apply code_of_load
  rw [List.length_map, h, List.flatMap_map, List.flatMap]
  congr 1
  apply List.map_congr_left
  intro w hw
  rw [toNat_ofNat_of_lt (hws w hw)]

/-- The registers that the code sets, with the values that they get. -/
def linuxLoads (kernelEntry a0Val a1Val a2Val a3Val : Word) : List (ℕ × Word) :=
  [(4, a0Val), (5, a1Val), (6, a2Val), (7, a3Val), (25, kernelEntry)]

/-- The code loads five registers and jumps. -/
theorem linuxMipsWords_eq (kernelEntry a0Val a1Val a2Val a3Val : Word) :
  linuxMipsWords kernelEntry.toNat a0Val.toNat a1Val.toNat a2Val.toNat a3Val.toNat =
    loadWords (linuxLoads kernelEntry a0Val a1Val a2Val a3Val) ++ [encodeJr 25, 0]
  := rfl

theorem linuxMipsWords_lt {kernelEntry a0Val a1Val a2Val a3Val : Word} :
  ∀ w ∈ linuxMipsWords kernelEntry.toNat a0Val.toNat a1Val.toNat a2Val.toNat a3Val.toNat,
    w < 2 ^ 32
  := by
  intro w hw
  rw [linuxMipsWords_eq] at hw
  rcases List.mem_append.mp hw with hw | hw
  · exact loadWords_lt hw
  · simp only [List.mem_cons, List.not_mem_nil, or_false] at hw
    rcases hw with rfl | rfl
    · rw [encodeJr_eq (by omega)]
      omega
    · omega

/-- The code is never refused. -/
theorem buildLinuxMips_eq (kernelEntry a0Val a1Val a2Val a3Val : Word) :
  buildLinuxMips kernelEntry.toNat a0Val.toNat a1Val.toNat a2Val.toNat a3Val.toNat =
    some ((linuxMipsWords kernelEntry.toNat a0Val.toNat a1Val.toNat a2Val.toNat
      a3Val.toNat).map (leBytes 4)).flatten
  := by
  rw [buildLinuxMips, mapM_pack linuxMipsWords_lt, Option.map_some]

/-- The code sets the registers and goes on at the kernel. -/
theorem run_linuxMips {s : State} {a : Word} {kernelEntry a0Val a1Val a2Val a3Val : Word}
    {code : Bytes}
    (hbuild : buildLinuxMips kernelEntry.toNat a0Val.toNat a1Val.toNat a2Val.toNat a3Val.toNat =
      some code)
    (ha : Aligned a) (hcode : s.memory.load a code.length = code) :
  run 12 (s.goTo a) =
    some ((setRegs s (linuxLoads kernelEntry a0Val a1Val a2Val a3Val)).goTo kernelEntry)
  := by
  rw [buildLinuxMips_eq] at hbuild
  obtain rfl := Option.some.inj hbuild
  have hwords := code_of_words linuxMipsWords_lt hcode
  rw [linuxMipsWords_eq, List.map_append] at hwords
  obtain ⟨hloads, hjump⟩ := code_append hwords
  have hlast : Aligned (a + BitVec.ofNat 32 40) := by
    rw [Aligned] at ha ⊢
    rw [BitVec.toNat_add, BitVec.toNat_ofNat]
    omega
  have hregs : run 10 (s.goTo a) = some
      ((setRegs s (linuxLoads kernelEntry a0Val a1Val a2Val a3Val)).goTo
        (a + BitVec.ofNat 32 40)) :=
    run_loadWords (by simp only [linuxLoads, List.forall_mem_cons]; decide) ha hloads
  rw [← setRegs_memory s (linuxLoads kernelEntry a0Val a1Val a2Val a3Val)] at hjump
  have hjr := run_jr hlast hjump (decode_encodeJr (by omega))
  have hentry : (setRegs s (linuxLoads kernelEntry a0Val a1Val a2Val a3Val)).reg
      (BitVec.ofNat 5 25) = kernelEntry := reg_setReg_self _ _ (by decide)
  rw [hentry] at hjr
  rw [run_add 10 2, hregs, Option.bind_some, hjr]

/-- Only the registers that are set change. -/
theorem reg_setRegs_of_notMem {s : State} {loads : List (ℕ × Word)} {r : Reg}
    (h : ∀ load ∈ loads, r ≠ BitVec.ofNat 5 load.1) :
  (setRegs s loads).reg r = s.reg r
  := by
  induction loads generalizing s with
  | nil => rfl
  | cons load loads ih =>
      obtain ⟨hne, hrest⟩ := List.forall_mem_cons.mp h
      exact (ih hrest).trans (reg_setReg_of_ne s _ hne)

/-- The code, where it is loaded, ends at the kernel with the values in the registers of the
arguments, and nothing else but one register has changed. -/
theorem buildLinuxMips_spec (kernelEntry a0Val a1Val a2Val a3Val : Word) :
  ∃ code, buildLinuxMips kernelEntry.toNat a0Val.toNat a1Val.toNat a2Val.toNat a3Val.toNat =
      some code ∧
    ∀ (s : State) (a : Word), Aligned a → s.memory.load a code.length = code →
      ∃ s', run 12 (s.goTo a) = some s' ∧ s'.pc = kernelEntry ∧ s'.nextPc = kernelEntry + 4 ∧
        s'.reg 4 = a0Val ∧ s'.reg 5 = a1Val ∧ s'.reg 6 = a2Val ∧ s'.reg 7 = a3Val ∧
        (∀ r, r ∉ [4, 5, 6, 7, 25] → s'.reg r = s.reg r) ∧ s'.memory = s.memory
  := by
  have hbuild := buildLinuxMips_eq kernelEntry a0Val a1Val a2Val a3Val
  refine ⟨_, hbuild, ?_⟩
  intro s a ha hcode
  refine ⟨_, run_linuxMips hbuild ha hcode, rfl, rfl, rfl, rfl, rfl, rfl, ?_, setRegs_memory s _⟩
  intro r hr
  simp only [List.mem_cons, List.not_mem_nil, or_false, not_or] at hr
  obtain ⟨h4, h5, h6, h7, h25⟩ := hr
  have hloads : ∀ load ∈ linuxLoads kernelEntry a0Val a1Val a2Val a3Val,
      r ≠ BitVec.ofNat 5 load.1 := by
    simp only [linuxLoads, List.forall_mem_cons]
    exact ⟨h4, h5, h6, h7, h25, by simp⟩
  exact reg_setRegs_of_notMem (s := s) hloads

end Trampoline

/-! ### The hand-off -/

namespace Recov

/-- The block of a command line that fits is laid out, and where it is loaded it holds the two
arguments; the code, where it is loaded, ends at the kernel with the values in the registers of the
arguments, and nothing else but one register has changed. -/
theorem mipsHandOff {baseAddr : ℕ} {cmdline : Text} (hnul : '\x00' ∉ cmdline)
    (hfits : baseAddr + (cmdline.byteLen + 23) ≤ 2 ^ 32)
    (kernelEntry a0Val a1Val a2Val a3Val : Word) :
  (∃ layout, MipsFwArgsLayout.build baseAddr cmdline = some layout ∧ layout.cmdline = cmdline ∧
    layout.blob.length = cmdline.byteLen + 23 ∧
    ∀ m : FlatMemory 32, m.load (BitVec.ofNat 32 baseAddr) layout.blob.length = layout.blob →
      MipsFwArgsLayout.ArgsBlock m layout baseAddr) ∧
  ∃ code, Trampoline.buildLinuxMips kernelEntry.toNat a0Val.toNat a1Val.toNat a2Val.toNat
      a3Val.toNat = some code ∧
    ∀ (s : State) (a : Word), Aligned a → s.memory.load a code.length = code →
      ∃ s', run 12 (s.goTo a) = some s' ∧ s'.pc = kernelEntry ∧ s'.nextPc = kernelEntry + 4 ∧
        s'.reg 4 = a0Val ∧ s'.reg 5 = a1Val ∧ s'.reg 6 = a2Val ∧ s'.reg 7 = a3Val ∧
        (∀ r, r ∉ [4, 5, 6, 7, 25] → s'.reg r = s.reg r) ∧ s'.memory = s.memory
  := by
  constructor
  · exact MipsFwArgsLayout.build_spec hnul hfits
  · exact Trampoline.buildLinuxMips_spec kernelEntry a0Val a1Val a2Val a3Val

/-- The block at the end of the first sixteen megabytes, and registers with zero halves and with
the highest bit set. -/
theorem mipsHandOff_console :
  (∃ layout, MipsFwArgsLayout.build 0x80F00000 "console=ttyS2".toList = some layout ∧
    layout.blob.length = 36) ∧
  ∃ code, Trampoline.buildLinuxMips 0x80010000 2 0x80F00000 0 0xFFFF8000 = some code ∧
    ∀ s : State, s.memory.load 0x80E00000 code.length = code →
      ∃ s', run 12 (s.goTo 0x80E00000) = some s' ∧ s'.pc = 0x80010000 ∧ s'.reg 7 = 0xFFFF8000
  := by
  obtain ⟨⟨layout, hbuild, -, hlen, -⟩, code, hcode, hrun⟩ :=
    @mipsHandOff 0x80F00000 "console=ttyS2".toList (by decide)
      (by decide) 0x80010000 2 0x80F00000 0 0xFFFF8000
  refine ⟨⟨layout, hbuild, hlen⟩, code, hcode, ?_⟩
  intro s hload
  obtain ⟨s', hs', hpc, -, -, -, -, ha3, -⟩ := hrun s 0x80E00000 (by decide) hload
  exact ⟨s', hs', hpc, ha3⟩

/-- The arguments of the program that say where the block goes and what the registers get. -/
structure Args where
  bootargsAddr : ℕ
  linuxA0 : Option ℕ
  linuxA1 : Option ℕ
  linuxA2 : Option ℕ
  linuxA3 : Option ℕ

/-- The block and the code that `main` makes for the kernel. -/
def handOff (args : Args) (kernelEntryAddr : ℕ) (extraBootargs : Text) :
    Option (MipsFwArgsLayout × Bytes) := do
  let fwArgs ← MipsFwArgsLayout.build args.bootargsAddr extraBootargs
  let linuxA0 := args.linuxA0.getD fwArgs.argc
  let linuxA1 := args.linuxA1.getD fwArgs.argvAddr
  let linuxA2 := args.linuxA2.getD fwArgs.envpAddr
  let linuxA3 := args.linuxA3.getD fwArgs.promvec
  let trampoline ← Trampoline.buildLinuxMips kernelEntryAddr linuxA0 linuxA1 linuxA2 linuxA3
  return (fwArgs, trampoline)

end Recov

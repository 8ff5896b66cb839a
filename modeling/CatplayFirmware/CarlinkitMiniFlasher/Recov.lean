import CatplayFirmware.CarlinkitMiniFlasher.Trampoline
import CatplayFirmware.CarlinkitMiniFlasher.UsbBoot

/-!
# Starting a kernel over USB

`main` of the program that starts a kernel on the chip: it checks where everything goes, loads
and starts the first program, loads the kernel, its file system, its arguments and the code that
enters it, and starts that code. Whatever the bus does, the code is not started unless all of it
stands in memory.
-/

open Bytes Mips32

namespace Recov

open X1600UsbBoot

/-- The memory of the chip, 64 MB. -/
def ramBase : ℕ := 0x80000000

def ramEndExcl : ℕ := 0x84000000

/-- The length that the manual allows the first program. -/
def firstStageMax : ℕ := 20 * 1024

/-- `--verify` and `--verify-uimage-data-crc` have the value that they would be given. -/
def verify : Bool := true

/-- The arguments of the program that are numbers or texts. -/
structure Options extends Args where
  splLoadAddr : ℕ
  splEntryAddr : ℕ
  initramfsLoadAddr : ℕ
  extraBootargs : Text
  trampolineAddr : ℕ

/-- The files of the program, or what the error of reading one says. -/
structure Files where
  spl : Except Text Bytes
  kernel : Except Text Bytes
  initramfs : Except Text Bytes

/-- What ends the program without an exit code of its own. -/
inductive Uncaught where
  | bootError (e : X1600UsbBootError)
  | structError
  | assertion
  deriving DecidableEq

/-! ### What is checked before the device is looked for -/

/-- A file that cannot be read is an error of the program. -/
def readFile (file : Except Text Bytes) : Except X1600UsbBootError Bytes :=
  file.mapError fun what => ⟨"Failed to read ".toList ++ what⟩

def splTooLarge (length : ℕ) : Text :=
  "SPL is ".toList ++ Text.ofNat length ++
    " B, but first stage should not exceed 20 KB per the manual".toList

/-- The arguments of the kernel, with the place of its file system behind those asked for. -/
def initramfsBootargs (args : Text) (initramfsStart initramfsSize : ℕ) : Text :=
  args ++ " rd_start=0x".toList ++ Text.format08x initramfsStart ++ " rd_size=0x".toList ++
    Text.format08x initramfsSize

/-- A part of the memory, up to `stop` but without it. -/
structure Region where
  name : String
  start : ℕ
  stop : ℕ

/-- `[0x…, 0x…)`. -/
def range (start stop : ℕ) : Text :=
  "[0x".toList ++ Text.format08x start ++ ", 0x".toList ++ Text.format08x stop ++ ")".toList

def exceedsRam (r : Region) : Text :=
  "Area ".toList ++ r.name.toList ++ " exceeds RAM memory range: ".toList ++ range r.start r.stop ++
    ", RAM=".toList ++ range ramBase ramEndExcl

def invalidRegion (r : Region) : Text :=
  "Invalid ".toList ++ r.name.toList ++ " region: start=0x".toList ++ Text.format08x r.start ++
    ", end=0x".toList ++ Text.format08x r.stop

def regionsOverlap (a b : Region) : Text :=
  "Memory regions overlap: ".toList ++ a.name.toList ++ " ".toList ++ range a.start a.stop ++
    " and ".toList ++ b.name.toList ++ " ".toList ++ range b.start b.stop

/-- Two parts of the memory meet. -/
def overlaps (a0 a1 b0 b1 : ℕ) : Bool := max a0 b0 < min a1 b1

/-- A region is checked against the memory before it is checked for being empty. -/
def checkRegion (r : Region) : Except X1600UsbBootError Unit :=
  if r.start < ramBase ∨ ramEndExcl < r.stop then .error ⟨exceedsRam r⟩
  else if r.stop ≤ r.start then .error ⟨invalidRegion r⟩
  else .ok ()

def checkPair (a b : Region) : Except X1600UsbBootError Unit :=
  if overlaps a.start a.stop b.start b.stop then .error ⟨regionsOverlap a b⟩ else .ok ()

/-- Every region is checked against those behind it. -/
def checkOverlaps : List Region → Except X1600UsbBootError Unit
  | [] => .ok ()
  | a :: regions => do
    regions.forM (checkPair a)
    checkOverlaps regions

/-- The first error is the one that is reported. -/
def checkRegions (regions : List Region) : Except X1600UsbBootError Unit := do
  regions.forM checkRegion
  checkOverlaps regions

/-- What is loaded and started. -/
structure Plan where
  spl : Bytes
  uimg : UImage.Image
  initramfs : Bytes
  fwArgs : MipsFwArgsLayout
  trampoline : Bytes

/-- What is loaded after the first program has come back. -/
def Plan.regions (plan : Plan) (args : Options) : List Region :=
  [⟨"kernel payload", plan.uimg.loadAddr.toNat, plan.uimg.loadAddr.toNat + plan.uimg.data.length⟩,
    ⟨"initramfs", args.initramfsLoadAddr, args.initramfsLoadAddr + plan.initramfs.length⟩,
    ⟨"bootargs", args.bootargsAddr, args.bootargsAddr + plan.fwArgs.blob.length⟩,
    ⟨"trampoline", args.trampolineAddr, args.trampolineAddr + plan.trampoline.length⟩]

/-- The part of `main` before the device is looked for. -/
def prepare (args : Options) (files : Files) : Except Uncaught Plan := do
  let spl ← (readFile files.spl).mapError .bootError
  let kernelRaw ← (readFile files.kernel).mapError .bootError
  let initramfs ← (readFile files.initramfs).mapError .bootError
  if firstStageMax < spl.length then .error (.bootError ⟨splTooLarge spl.length⟩)
  else
    let uimg ← (UImage.init kernelRaw true verify).mapError .bootError
    let extraBootargs :=
      initramfsBootargs args.extraBootargs args.initramfsLoadAddr initramfs.length
    match handOff args.toArgs uimg.entryAddr.toNat extraBootargs with
    | none => .error .structError
    | some (fwArgs, trampoline) =>
      let plan : Plan := ⟨spl, uimg, initramfs, fwArgs, trampoline⟩
      (checkRegions (plan.regions args)).mapError .bootError
      return plan

/-! ### What is done with the device -/

variable {bus : Bus}

/-- The part of `main` inside of its `try`. -/
def boot (args : Options) (plan : Plan) : Usb bus ℕ := do
  openDevice
  let _ ← getCpuInfo
  downloadBlob args.splLoadAddr plan.spl verify
  programStart1 args.splEntryAddr
  waitForReenumeration
  let _ ← getCpuInfo
  downloadBlob plan.uimg.loadAddr.toNat plan.uimg.data verify
  downloadBlob args.initramfsLoadAddr plan.initramfs verify
  downloadBlob args.bootargsAddr plan.fwArgs.blob verify
  downloadBlob args.trampolineAddr plan.trampoline verify
  flushCaches
  programStart2 args.trampolineAddr
  let s ← get
  return if bus.sshOpen s.state then 0 else 3

/-- The exit code of `main`, or what ends it, and what it leaves. -/
def main (args : Options) (files : Files) (s : Link bus) : Except Uncaught ℕ × Link bus :=
  match prepare args files with
  | .error e => (.error e, s)
  | .ok plan =>
    match boot args plan s with
    | .ok code s' => (.ok code, { s' with endpoints := none })
    | .error (.bootError _) s' => (.ok 1, { s' with endpoints := none })
    | .error .usbError s' => (.ok 2, { s' with endpoints := none })
    | .error .assertion s' => (.error .assertion, { s' with endpoints := none })

/-! ### What the checks say -/

/-- A region lies in memory and is not empty. -/
def Region.InRam (r : Region) : Prop :=
  ramBase ≤ r.start ∧ r.start < r.stop ∧ r.stop ≤ ramEndExcl

/-- One of two regions ends before the other starts. -/
def Region.Apart (a b : Region) : Prop := a.stop ≤ b.start ∨ b.stop ≤ a.start

/-- A region is accepted exactly when it lies in memory and is not empty. -/
theorem checkRegion_eq_ok_iff {r : Region} : checkRegion r = .ok () ↔ r.InRam := by
  rw [checkRegion, Region.InRam]
  constructor
  · intro h
    split at h
    · cases h
    split at h
    · cases h
    · next hram hvalid => omega
  · intro h
    rw [if_neg (by omega), if_neg (by omega)]

/-- Two regions that are not empty are accepted exactly when they do not meet. -/
theorem checkPair_eq_ok_iff {a b : Region} (ha : a.InRam) (hb : b.InRam) :
  checkPair a b = .ok () ↔ a.Apart b
  := by
  rw [Region.InRam] at ha hb
  have hoverlaps : overlaps a.start a.stop b.start b.stop = true ↔ ¬ a.Apart b := by
    rw [overlaps, decide_eq_true_eq, Region.Apart]
    omega
  rw [checkPair]
  constructor
  · intro h
    split at h
    · cases h
    · next hnot => exact not_not.mp (fun h => hnot (hoverlaps.mpr h))
  · intro h
    rw [if_neg]
    exact fun hov => hoverlaps.mp hov h

/-- Each pair of regions is looked at. -/
theorem checkOverlaps_eq_ok_iff {regions : List Region} (hram : ∀ r ∈ regions, r.InRam) :
  checkOverlaps regions = .ok () ↔ regions.Pairwise Region.Apart
  := by
  induction regions with
  | nil => simp [checkOverlaps]
  | cons a regions ih =>
      obtain ⟨ha, hram⟩ := List.forall_mem_cons.mp hram
      rw [checkOverlaps, List.pairwise_cons, Except.bind_eq_ok_iff, ← ih hram]
      constructor
      · rintro ⟨⟨⟩, hfirst, hrest⟩
        refine ⟨?_, hrest⟩
        intro b hb
        exact (checkPair_eq_ok_iff ha (hram b hb)).mp (Except.forM_eq_ok_iff.mp hfirst b hb)
      · rintro ⟨hfirst, hrest⟩
        refine ⟨⟨⟩, Except.forM_eq_ok_iff.mpr ?_, hrest⟩
        intro b hb
        exact (checkPair_eq_ok_iff ha (hram b hb)).mpr (hfirst b hb)

/-- The regions that are accepted are those that lie in memory, are not empty and do not meet. -/
theorem checkRegions_eq_ok_iff {regions : List Region} :
  checkRegions regions = .ok () ↔
    (∀ r ∈ regions, r.InRam) ∧ regions.Pairwise Region.Apart
  := by
  rw [checkRegions, Except.bind_eq_ok_iff]
  constructor
  · rintro ⟨⟨⟩, hram, hapart⟩
    have hram : ∀ r ∈ regions, r.InRam :=
      fun r hr => checkRegion_eq_ok_iff.mp (Except.forM_eq_ok_iff.mp hram r hr)
    exact ⟨hram, (checkOverlaps_eq_ok_iff hram).mp hapart⟩
  · rintro ⟨hram, hapart⟩
    refine ⟨⟨⟩, Except.forM_eq_ok_iff.mpr ?_, (checkOverlaps_eq_ok_iff hram).mpr hapart⟩
    exact fun r hr => checkRegion_eq_ok_iff.mpr (hram r hr)

/-- A plan follows from the files and the arguments, and its regions have been checked. -/
structure Prepared (args : Options) (files : Files) (plan : Plan) : Prop where
  spl : files.spl = .ok plan.spl
  kernel : ∃ kernelRaw, files.kernel = .ok kernelRaw ∧
    UImage.init kernelRaw true true = .ok plan.uimg
  initramfs : files.initramfs = .ok plan.initramfs
  firstStage : plan.spl.length ≤ firstStageMax
  handOff : handOff args.toArgs plan.uimg.entryAddr.toNat
    (initramfsBootargs args.extraBootargs args.initramfsLoadAddr plan.initramfs.length) =
      some (plan.fwArgs, plan.trampoline)
  inRam : ∀ r ∈ plan.regions args, r.InRam
  apart : (plan.regions args).Pairwise Region.Apart

theorem readFile_eq_ok {file : Except Text Bytes} {data : Bytes}
    (h : (readFile file).mapError Uncaught.bootError = .ok data) :
  file = .ok data
  := Except.mapError_eq_ok_iff.mp (Except.mapError_eq_ok_iff.mp h)

/-- What has been checked when a plan has been made. -/
theorem prepare_eq_ok {args : Options} {files : Files} {plan : Plan}
    (h : prepare args files = .ok plan) :
  Prepared args files plan
  := by
  rw [prepare] at h
  obtain ⟨spl, hspl, h⟩ := Except.bind_eq_ok_iff.mp h
  obtain ⟨kernelRaw, hkernel, h⟩ := Except.bind_eq_ok_iff.mp h
  obtain ⟨initramfs, hinitramfs, h⟩ := Except.bind_eq_ok_iff.mp h
  split at h
  · cases h
  next hfirst =>
  obtain ⟨uimg, huimg, h⟩ := Except.bind_eq_ok_iff.mp h
  dsimp only at h
  split at h
  · cases h
  next fwArgs trampoline hhandOff =>
  obtain ⟨⟨⟩, hregions, h⟩ := Except.bind_eq_ok_iff.mp h
  cases h
  obtain ⟨hram, hapart⟩ := checkRegions_eq_ok_iff.mp (Except.mapError_eq_ok_iff.mp hregions)
  exact ⟨readFile_eq_ok hspl, ⟨kernelRaw, readFile_eq_ok hkernel,
    Except.mapError_eq_ok_iff.mp huimg⟩, readFile_eq_ok hinitramfs, Nat.not_lt.mp hfirst,
    hhandOff, hram, hapart⟩

/-- A plan is prepared exactly when it follows and its regions are in order. -/
theorem prepare_eq_ok_iff {args : Options} {files : Files} {plan : Plan} :
  prepare args files = .ok plan ↔ Prepared args files plan
  := by
  constructor
  · exact prepare_eq_ok
  · rintro ⟨hspl, ⟨kernelRaw, hkernel, huimg⟩, hinitramfs, hfirst, hhandOff, hram, hapart⟩
    have hread : ∀ {file : Except Text Bytes} {data : Bytes}, file = .ok data →
        (readFile file).mapError Uncaught.bootError = .ok data :=
      fun h => Except.mapError_eq_ok_iff.mpr (Except.mapError_eq_ok_iff.mpr h)
    rw [prepare]
    refine Except.bind_eq_ok_iff.mpr ⟨_, hread hspl, ?_⟩
    refine Except.bind_eq_ok_iff.mpr ⟨_, hread hkernel, ?_⟩
    refine Except.bind_eq_ok_iff.mpr ⟨_, hread hinitramfs, ?_⟩
    rw [if_neg (Nat.not_lt.mpr hfirst)]
    refine Except.bind_eq_ok_iff.mpr ⟨_, Except.mapError_eq_ok_iff.mpr huimg, ?_⟩
    dsimp only
    rw [hhandOff]
    exact Except.bind_eq_ok_iff.mpr ⟨(), Except.mapError_eq_ok_iff.mpr
      (checkRegions_eq_ok_iff.mpr ⟨hram, hapart⟩), rfl⟩

/-! ### How the kernel is entered -/

/-- The processor at the entry of the kernel: the kernel and its file system stand in memory, so
do its arguments, which say where the file system is, and the registers have the values asked
for, or the count and the tables of the arguments. -/
structure KernelEntered (args : Options) (plan : Plan) (c : State) : Prop where
  pc : c.pc = plan.uimg.entryAddr.toBitVec
  kernel : c.memory.load (BitVec.ofNat 32 plan.uimg.loadAddr.toNat) plan.uimg.data.length =
    plan.uimg.data
  initramfs : c.memory.load (BitVec.ofNat 32 args.initramfsLoadAddr) plan.initramfs.length =
    plan.initramfs
  argsBlock : MipsFwArgsLayout.ArgsBlock c.memory plan.fwArgs args.bootargsAddr
  cmdline : ∃ start size, plan.fwArgs.cmdline = args.extraBootargs ++ " rd_start=0x".toList ++
      start ++ " rd_size=0x".toList ++ size ∧
    Text.digits16 0 start = some args.initramfsLoadAddr ∧
    Text.digits16 0 size = some plan.initramfs.length
  a0 : c.reg 4 = BitVec.ofNat 32 (args.linuxA0.getD plan.fwArgs.argc)
  a1 : c.reg 5 = BitVec.ofNat 32 (args.linuxA1.getD plan.fwArgs.argvAddr)
  a2 : c.reg 6 = BitVec.ofNat 32 (args.linuxA2.getD plan.fwArgs.envpAddr)
  a3 : c.reg 7 = BitVec.ofNat 32 (args.linuxA3.getD plan.fwArgs.promvec)

/-- Only the lowest 32 bits of a number get into a register. -/
theorem mipsLoadU32_ofNat (reg value : ℕ) :
  Trampoline.mipsLoadU32 reg value = Trampoline.mipsLoadU32 reg (BitVec.ofNat 32 value).toNat
  := by
  have hhi : value >>> 16 &&& 0xFFFF = (BitVec.ofNat 32 value).toNat >>> 16 &&& 0xFFFF := by
    rw [and_mask, and_mask, Nat.shiftRight_eq_div_pow, Nat.shiftRight_eq_div_pow,
      BitVec.toNat_ofNat]
    omega
  have hlo : value &&& 0xFFFF = (BitVec.ofNat 32 value).toNat &&& 0xFFFF := by
    rw [and_mask, and_mask, BitVec.toNat_ofNat]
    omega
  rw [Trampoline.mipsLoadU32, Trampoline.mipsLoadU32, hhi, hlo]

/-- Arguments that are too long for a register are cut. -/
theorem buildLinuxMips_ofNat (kernelEntry a0Val a1Val a2Val a3Val : ℕ) :
  Trampoline.buildLinuxMips kernelEntry a0Val a1Val a2Val a3Val =
    Trampoline.buildLinuxMips (BitVec.ofNat 32 kernelEntry).toNat (BitVec.ofNat 32 a0Val).toNat
      (BitVec.ofNat 32 a1Val).toNat (BitVec.ofNat 32 a2Val).toNat (BitVec.ofNat 32 a3Val).toNat
  := by
  rw [Trampoline.buildLinuxMips, Trampoline.buildLinuxMips, Trampoline.linuxMipsWords,
    Trampoline.linuxMipsWords, ← mipsLoadU32_ofNat, ← mipsLoadU32_ofNat, ← mipsLoadU32_ofNat,
    ← mipsLoadU32_ofNat, ← mipsLoadU32_ofNat]

/-- The place of the file system adds no NUL to the arguments. -/
theorem nul_notMem_initramfsBootargs {args : Text} (h : '\x00' ∉ args) (start size : ℕ) :
  '\x00' ∉ initramfsBootargs args start size
  := by
  have hdigits : ∀ n, '\x00' ∉ Text.format08x n := by
    intro n hmem
    obtain ⟨d, hd, hdigit⟩ := Text.digit_of_mem_format08x hmem
    interval_cases d <;> cases hdigit
  rw [initramfsBootargs, List.mem_append, List.mem_append, List.mem_append, List.mem_append]
  rintro ((((hmem | hmem) | hmem) | hmem) | hmem)
  · exact h hmem
  · exact absurd hmem (by decide)
  · exact hdigits start hmem
  · exact absurd hmem (by decide)
  · exact hdigits size hmem

section

variable {args : Options} {files : Files} {plan : Plan}

/-- The arguments fit below the end of the memory. -/
theorem Prepared.fwArgs_eq (h : Prepared args files plan) :
  ∃ cmdline, cmdline =
      initramfsBootargs args.extraBootargs args.initramfsLoadAddr plan.initramfs.length ∧
    args.bootargsAddr + (cmdline.byteLen + 23) ≤ ramEndExcl ∧
    plan.fwArgs = ⟨MipsFwArgsLayout.block args.bootargsAddr cmdline, 2, args.bootargsAddr,
      args.bootargsAddr + 12, 0, cmdline⟩
  := by
  have hbootargs := h.inRam ⟨"bootargs", args.bootargsAddr,
    args.bootargsAddr + plan.fwArgs.blob.length⟩ (by simp [Plan.regions])
  obtain ⟨-, -, hstop⟩ := hbootargs
  have hhandOff := h.handOff
  rw [Recov.handOff] at hhandOff
  obtain ⟨fwArgs, hbuild, hhandOff⟩ := Option.bind_eq_some_iff.mp hhandOff
  obtain ⟨trampoline, -, hplan⟩ := Option.bind_eq_some_iff.mp hhandOff
  cases hplan
  have hend : ramEndExcl = 0x84000000 := rfl
  dsimp only at hstop
  rw [MipsFwArgsLayout.build_eq _ (by omega)] at hbuild
  refine ⟨_, rfl, ?_, (Option.some.inj hbuild).symm⟩
  rw [← Option.some.inj hbuild] at hstop
  dsimp only at hstop
  rw [MipsFwArgsLayout.length_block] at hstop
  omega

/-- The code, where it stands in memory with what it hands over, enters the kernel. -/
theorem Prepared.enters (h : Prepared args files plan) (hnul : '\x00' ∉ args.extraBootargs)
    (halign : 4 ∣ args.trampolineAddr) {c : State}
    (hkernel : c.memory.load (BitVec.ofNat 32 plan.uimg.loadAddr.toNat) plan.uimg.data.length =
      plan.uimg.data)
    (hinitramfs : c.memory.load (BitVec.ofNat 32 args.initramfsLoadAddr) plan.initramfs.length =
      plan.initramfs)
    (hblob : c.memory.load (BitVec.ofNat 32 args.bootargsAddr) plan.fwArgs.blob.length =
      plan.fwArgs.blob)
    (hcode : c.memory.load (BitVec.ofNat 32 args.trampolineAddr) plan.trampoline.length =
      plan.trampoline) :
  ∃ c', run 12 (c.goTo (BitVec.ofNat 32 args.trampolineAddr)) = some c' ∧
    KernelEntered args plan c'
  := by
  obtain ⟨cmdline, hcmdline, hfits, hfwArgs⟩ := h.fwArgs_eq
  have hhandOff := h.handOff
  rw [Recov.handOff] at hhandOff
  obtain ⟨fwArgs, hbuild, hhandOff⟩ := Option.bind_eq_some_iff.mp hhandOff
  obtain ⟨trampoline, htrampoline, hplan⟩ := Option.bind_eq_some_iff.mp hhandOff
  have hplan := Option.some.inj hplan
  have hfw : fwArgs = plan.fwArgs := congrArg Prod.fst hplan
  have htr : trampoline = plan.trampoline := congrArg Prod.snd hplan
  rw [hfw, htr, buildLinuxMips_ofNat] at htrampoline
  have haligned : Aligned (BitVec.ofNat 32 args.trampolineAddr) := by
    rw [Aligned, BitVec.toNat_ofNat]
    omega
  obtain ⟨code, hbuilt, hrun⟩ := Trampoline.buildLinuxMips_spec
    (BitVec.ofNat 32 plan.uimg.entryAddr.toNat)
    (BitVec.ofNat 32 (args.linuxA0.getD plan.fwArgs.argc))
    (BitVec.ofNat 32 (args.linuxA1.getD plan.fwArgs.argvAddr))
    (BitVec.ofNat 32 (args.linuxA2.getD plan.fwArgs.envpAddr))
    (BitVec.ofNat 32 (args.linuxA3.getD plan.fwArgs.promvec))
  rw [htrampoline] at hbuilt
  rw [← Option.some.inj hbuilt] at hrun
  obtain ⟨c', hc', hpc, -, ha0, ha1, ha2, ha3, -, hmemory⟩ := hrun c _ haligned hcode
  refine ⟨c', hc', ?_, hmemory ▸ hkernel, hmemory ▸ hinitramfs, ?_, ?_, ha0, ha1, ha2, ha3⟩
  · apply BitVec.eq_of_toNat_eq
    rw [hpc, BitVec.toNat_ofNat, Nat.mod_eq_of_lt (UInt32.toNat_lt _)]
    rfl
  · have hend : ramEndExcl = 0x84000000 := rfl
    rw [hmemory, hfwArgs]
    rw [hfwArgs] at hblob
    apply MipsFwArgsLayout.argsBlock_of_load _ (by omega) hblob
    rw [hcmdline]
    exact nul_notMem_initramfsBootargs hnul _ _
  · refine ⟨_, _, ?_, Text.digits16_format08x _, Text.digits16_format08x _⟩
    rw [hfwArgs]
    exact hcmdline

end

/-! ### Whatever the bus does -/

/-- The parts that are loaded after the first program has come back, the last first. -/
def Plan.uploads (plan : Plan) (args : Options) : List Upload :=
  [⟨args.trampolineAddr, plan.trampoline⟩, ⟨args.bootargsAddr, plan.fwArgs.blob⟩,
    ⟨args.initramfsLoadAddr, plan.initramfs⟩, ⟨plan.uimg.loadAddr.toNat, plan.uimg.data⟩]

/-- If the code has been started, all parts stand in memory, behind the caches. -/
def LaunchedWell (args : Options) (plan : Plan) (s : Link bus) : Prop :=
  ∀ entry rom, s.launched = some (entry, rom) →
    entry = BitVec.ofNat 32 args.trampolineAddr ∧ rom.dirty = false ∧
      ∀ u ∈ plan.uploads args, u.In rom.memory

/-- There is nothing to show while the code has not been started. -/
theorem launchedWell_of_not {args : Options} {plan : Plan} {s : Link bus}
    (h : NotLaunched s) :
  LaunchedWell args plan s
  := by
  intro entry rom hlaunched
  rw [NotLaunched] at h
  rw [h] at hlaunched
  cases hlaunched

/-- What neither loads nor starts anything. -/
theorem triple_openDevice :
  Triple (NotLaunched : Link bus → Prop) openDevice (fun _ => NotLaunched) (fun _ => NotLaunched)
  := by
  intro s hs
  rw [openDevice]
  rcases bus.find s.state with ⟨found, state⟩
  cases found with
  | missing => exact hs
  | usbError => exact hs
  | claimed endpoints =>
      dsimp only
      cases bulkEndpoints endpoints with
      | some found => exact hs
      | none => exact hs

/-- A question to the chip. -/
theorem triple_getCpuInfo :
  Triple (NotLaunched : Link bus → Prop) getCpuInfo (fun _ => NotLaunched) (fun _ => NotLaunched)
  := by
  intro s hs
  rw [getCpuInfo]
  by_cases hopen : s.endpoints = none
  · rw [if_pos hopen]
    exact hs
  · rw [if_neg hopen]
    exact hs

/-- Looking for the device until it is there, or until the rounds are over. -/
theorem triple_pollFrom (rounds : ℕ) :
  Triple (NotLaunched : Link bus → Prop) (pollFrom rounds) (fun _ => NotLaunched)
    (fun _ => NotLaunched)
  := by
  induction rounds with
  | zero => exact triple_throw fun s hs => hs
  | succ rounds ih =>
      apply triple_tryCatch triple_openDevice
      intro e
      cases e with
      | bootError e => exact ih
      | usbError => exact triple_throw fun s hs => hs
      | assertion => exact triple_throw fun s hs => hs

/-- The wait for the first program to come back. -/
theorem triple_waitForReenumeration :
  Triple (NotLaunched : Link bus → Prop) waitForReenumeration (fun _ => NotLaunched)
    (fun _ => NotLaunched)
  := by
  rw [waitForReenumeration]
  have hclose : Triple (NotLaunched : Link bus → Prop) close (fun _ => NotLaunched)
      (fun _ => NotLaunched) := triple_modify fun s hs => hs
  apply triple_bind hclose
  intro _
  apply triple_bind (triple_get (Q := fun _ => NotLaunched) fun s hs => hs)
  intro s
  exact triple_pollFrom _

/-- The first start is not the one that counts. -/
theorem triple_programStart1 (entry : ℕ) :
  Triple (NotLaunched : Link bus → Prop) (programStart1 entry) (fun _ => NotLaunched)
    (fun _ => NotLaunched)
  := by
  apply triple_ctrlU32
  · exact fun s state hs => hs
  · exact fun s wValue wIndex haddr hs => hs
  · exact fun e s hs => hs
  · exact fun e s hs => hs

/-- Before the parts are loaded there is nothing that has to stand in memory. -/
theorem notLaunched_iff {s : Link bus} : NotLaunched s ↔ Loaded [] s :=
  ⟨fun h => ⟨h, nofun⟩, fun h => h.1⟩

/-- A flush that fails may have been done, and then nothing more is started. -/
theorem triple_flushCaches (ups : List Upload) :
  Triple (Loaded ups : Link bus → Prop) flushCaches
    (fun _ s => Loaded ups s ∧ s.rom.dirty = false) (fun _ => NotLaunched)
  := by
  apply triple_ctrlOut
  · exact fun s state hs => hs
  · exact fun s hs => ⟨hs, rfl⟩
  · exact fun e s hs => hs.1
  · exact fun e s hs => hs.1.1

section

variable {args : Options} {files : Files} {plan : Plan}

/-- A start that is reported as failed may have been taken, so that both ends promise the same. -/
theorem triple_programStart2 :
  Triple (fun s : Link bus => Loaded (plan.uploads args) s ∧ s.rom.dirty = false)
    (programStart2 args.trampolineAddr) (fun _ => LaunchedWell args plan)
    (fun _ => LaunchedWell args plan)
  := by
  apply triple_ctrlU32
  · exact fun s state hs => hs
  · rintro s wValue wIndex haddr ⟨⟨hlaunched, hloaded⟩, hdirty⟩ entry rom h
    obtain ⟨rfl, rfl⟩ := Prod.mk.inj (Option.some.inj h)
    exact ⟨haddr, hdirty, hloaded⟩
  · exact fun e s hs => launchedWell_of_not hs.1.1
  · exact fun e s hs => hs

/-- The checks make sure that no part goes beyond the addresses of the bus. -/
theorem Prepared.fits (h : Prepared args files plan) : ∀ u ∈ plan.uploads args, u.Fits := by
  have hend : ramEndExcl ≤ 2 ^ 32 := by decide
  have hram := h.inRam
  simp only [Plan.regions, List.forall_mem_cons] at hram
  obtain ⟨⟨-, -, hkernel⟩, ⟨-, -, hinitramfs⟩, ⟨-, -, hbootargs⟩, ⟨-, -, htrampoline⟩, -⟩ := hram
  simp only [Plan.uploads, List.forall_mem_cons]
  exact ⟨htrampoline.trans hend, hbootargs.trans hend, hinitramfs.trans hend,
    hkernel.trans hend, nofun⟩

/-- The parts are apart from those that are loaded before them. -/
theorem Prepared.pairwise_apart (h : Prepared args files plan) :
  (plan.uploads args).Pairwise fun v u => u.Apart v
  := by
  have hapart := h.apart
  simp only [Plan.regions, List.pairwise_cons, List.forall_mem_cons] at hapart
  obtain ⟨⟨hki, hkb, hkt, -⟩, ⟨hib, hit, -⟩, ⟨hbt, -⟩, -⟩ := hapart
  simp only [Plan.uploads, List.pairwise_cons, List.forall_mem_cons]
  exact ⟨⟨hbt, hit, hkt, nofun⟩, ⟨hib, hkb, nofun⟩, ⟨hki, nofun⟩, nofun, .nil⟩

/-- A part is loaded next to those before. -/
theorem triple_upload {v : Upload} {ups : List Upload} (hfits : ∀ u ∈ v :: ups, u.Fits)
    (hapart : (v :: ups).Pairwise fun v u => u.Apart v) :
  Triple (Loaded ups : Link bus → Prop) (downloadBlob v.addr v.blob verify)
    (fun _ => Loaded (v :: ups)) (fun _ => LaunchedWell args plan)
  := by
  obtain ⟨hv, hups⟩ := List.forall_mem_cons.mp hfits
  have hdownload := @triple_downloadBlob bus ups v
    fun u hu => ⟨hups u hu, hv, (List.pairwise_cons.mp hapart).1 u hu⟩
  exact hdownload.mono (fun s hs => hs) (fun _ s hs => hs) fun _ s hs => launchedWell_of_not hs

/-- All of `boot`, call by call. Every error before the second start leaves the code unstarted. -/
theorem triple_boot (h : Prepared args files plan) :
  Triple (NotLaunched : Link bus → Prop) (boot args plan) (fun _ => LaunchedWell args plan)
    (fun _ => LaunchedWell args plan)
  := by
  have hfits := h.fits
  have hapart := h.pairwise_apart
  have hwell : ∀ (e : Raised) (s : Link bus), NotLaunched s → LaunchedWell args plan s :=
    fun _ s hs => launchedWell_of_not hs
  have hspl : Triple (NotLaunched : Link bus → Prop)
      (downloadBlob args.splLoadAddr plan.spl verify) (fun _ => NotLaunched)
      (fun _ => LaunchedWell args plan) :=
    (@triple_downloadBlob bus [] ⟨args.splLoadAddr, plan.spl⟩ nofun).mono
      (fun s hs => notLaunched_iff.mp hs) (fun _ s hs => hs.1) hwell
  rw [boot]
  apply triple_bind (triple_openDevice.mono (fun _ => id) (fun _ _ => id) hwell)
  intro _
  apply triple_bind (triple_getCpuInfo.mono (fun _ => id) (fun _ _ => id) hwell)
  intro _
  apply triple_bind hspl
  intro _
  apply triple_bind ((triple_programStart1 _).mono (fun _ => id) (fun _ _ => id) hwell)
  intro _
  apply triple_bind (triple_waitForReenumeration.mono (fun _ => id) (fun _ _ => id) hwell)
  intro _
  apply triple_bind (triple_getCpuInfo.mono (fun _ => id) (fun _ _ => id) hwell)
  intro _
  apply triple_bind ((triple_upload (List.forall_mem_cons.mp (List.forall_mem_cons.mp
    (List.forall_mem_cons.mp hfits).2).2).2 hapart.of_cons.of_cons.of_cons).mono
      (fun s hs => notLaunched_iff.mp hs) (fun _ _ => id) (fun _ _ => id))
  intro _
  apply triple_bind (triple_upload (List.forall_mem_cons.mp
    (List.forall_mem_cons.mp hfits).2).2 hapart.of_cons.of_cons)
  intro _
  apply triple_bind (triple_upload (List.forall_mem_cons.mp hfits).2 hapart.of_cons)
  intro _
  apply triple_bind (triple_upload hfits hapart)
  intro _
  apply triple_bind ((triple_flushCaches _).mono (fun _ => id) (fun _ _ => id) hwell)
  intro _
  apply triple_bind triple_programStart2
  intro _
  apply triple_bind (triple_get fun s hs => hs)
  intro s
  exact triple_pure fun s hs => hs

end

/-- Whatever the bus does, if the code has been started then all that it needs stands in memory, and
if it starts at a whole word and the arguments that were asked for have no NUL, the kernel is
entered, with its file system and its arguments. -/
theorem main_launched {args : Options} {files : Files} {s : Link bus} (hs : s.launched = none)
    {entry : BitVec 32} {rom : BootRom}
    (hlaunched : (main args files s).2.launched = some (entry, rom)) :
  ∃ plan, Prepared args files plan ∧ entry = BitVec.ofNat 32 args.trampolineAddr ∧
    rom.dirty = false ∧ (∀ u ∈ plan.uploads args, u.In rom.memory) ∧
    ('\x00' ∉ args.extraBootargs → 4 ∣ args.trampolineAddr → ∀ c : State, c.memory = rom.memory →
      ∃ c', run 12 (c.goTo entry) = some c' ∧ KernelEntered args plan c')
  := by
  rw [main] at hlaunched
  split at hlaunched
  · next heq =>
    rw [hs] at hlaunched
    cases hlaunched
  · next plan hplan =>
    have h := prepare_eq_ok hplan
    have hwell : ∃ s' : Link bus, LaunchedWell args plan s' ∧ s'.launched = some (entry, rom) := by
      cases hrun : boot args plan s with
      | ok code s' =>
          rw [hrun] at hlaunched
          exact ⟨s', (triple_boot h).run_ok hs hrun, hlaunched⟩
      | error e s' =>
          rw [hrun] at hlaunched
          use s', (triple_boot h).run_error hs hrun
          cases e with
          | bootError e => exact hlaunched
          | usbError => exact hlaunched
          | assertion => exact hlaunched
    obtain ⟨s', hwell, hlaunched⟩ := hwell
    obtain ⟨rfl, hdirty, hin⟩ := hwell entry rom hlaunched
    refine ⟨plan, h, rfl, hdirty, hin, ?_⟩
    simp only [Plan.uploads, List.forall_mem_cons] at hin
    obtain ⟨htrampoline, hbootargs, hinitramfs, hkernel, -⟩ := hin
    intro hnul halign c hc
    apply h.enters hnul halign
    · exact hc ▸ hkernel
    · exact hc ▸ hinitramfs
    · exact hc ▸ hbootargs
    · exact hc ▸ htrampoline

/-! ### On a bus that loses nothing -/

/-- The second start has been asked for at an address. -/
def LaunchedAt (addr : ℕ) (s : Link bus) : Prop :=
  ∃ rom, s.launched = some (BitVec.ofNat 32 addr, rom)

section

variable {args : Options} {files : Files} {plan : Plan}

/-- On a bus that loses nothing no call fails. -/
theorem triple_boot_reliable (h : Prepared args files plan) (hbus : Reliable bus) :
  Triple (fun _ : Link bus => True) (boot args plan)
    (fun code s => (code = 0 ∨ code = 3) ∧ LaunchedAt args.trampolineAddr s) Never
  := by
  have hfits := h.fits
  simp only [Plan.uploads, List.forall_mem_cons] at hfits
  obtain ⟨htrampoline, hbootargs, hinitramfs, hkernel, -⟩ := hfits
  have hram := h.inRam
  simp only [Plan.regions, List.forall_mem_cons] at hram
  obtain ⟨⟨hk, -, -⟩, ⟨hi, -, -⟩, ⟨hb, -, -⟩, ⟨ht, -, -⟩, -⟩ := hram
  have hbase : 0 < ramBase := by decide
  have hspl : plan.spl.length < 2 ^ 32 := Nat.lt_of_le_of_lt h.firstStage (by decide)
  have hlen : ∀ {u : Upload}, u.Fits → ramBase ≤ u.addr → u.blob.length < 2 ^ 32 := by
    intro u hu hle
    rw [Upload.Fits] at hu
    omega
  have hstart1 : Triple (Opened : Link bus → Prop) (programStart1 args.splEntryAddr)
      (fun _ => Opened) Never :=
    hbus.triple_ctrlU32 (fun s hs => hs) (fun s state hs => hs) fun s wValue wIndex hentry hs => hs
  have hflush : Triple (Opened : Link bus → Prop) flushCaches (fun _ => Opened) Never :=
    hbus.triple_ctrlOut (fun s hs => hs) (fun s state hs => hs) fun s hs => hs
  have hstart2 : Triple (Opened : Link bus → Prop) (programStart2 args.trampolineAddr)
      (fun _ => LaunchedAt args.trampolineAddr) Never :=
    hbus.triple_ctrlU32 (fun s hs => hs) (fun s state hs => hs)
      fun s wValue wIndex hentry hs => ⟨s.rom, by rw [← hentry]; rfl⟩
  rw [boot]
  apply triple_bind hbus.triple_openDevice
  intro _
  apply triple_bind Reliable.triple_getCpuInfo
  intro _
  apply triple_bind (hbus.triple_downloadBlob _ hspl _)
  intro _
  apply triple_bind hstart1
  intro _
  apply triple_bind hbus.triple_waitForReenumeration
  intro _
  apply triple_bind Reliable.triple_getCpuInfo
  intro _
  apply triple_bind (hbus.triple_downloadBlob _ (hlen hkernel hk) _)
  intro _
  apply triple_bind (hbus.triple_downloadBlob _ (hlen hinitramfs hi) _)
  intro _
  apply triple_bind (hbus.triple_downloadBlob _ (hlen hbootargs hb) _)
  intro _
  apply triple_bind (hbus.triple_downloadBlob _ (hlen htrampoline ht) _)
  intro _
  apply triple_bind hflush
  intro _
  apply triple_bind hstart2
  intro _
  apply triple_bind (triple_get (P := LaunchedAt args.trampolineAddr)
    (Q := fun _ => LaunchedAt args.trampolineAddr) fun s hs => hs)
  intro s
  apply triple_pure
  intro s' hs'
  refine ⟨?_, hs'⟩
  split
  · exact .inl rfl
  · exact .inr rfl

/-- On a bus that loses nothing a plan that has been prepared is carried out, however few bytes of
a packet are taken at a time. -/
theorem main_reliable (hbus : Reliable bus) (hplan : prepare args files = .ok plan)
    (s : Link bus) :
  ∃ code s', main args files s = (.ok code, s') ∧ (code = 0 ∨ code = 3) ∧
    LaunchedAt args.trampolineAddr s'
  := by
  have hboot := triple_boot_reliable (prepare_eq_ok hplan) hbus
  rw [main, hplan]
  dsimp only
  cases hrun : boot args plan s with
  | error e s' => exact (hboot.run_error trivial hrun).elim
  | ok code s' =>
      obtain ⟨hcode, hlaunched⟩ := hboot.run_ok trivial hrun
      exact ⟨code, _, rfl, hcode, hlaunched⟩

end

/-- The addresses that the program uses if it is not told others. -/
def defaultOptions : Options :=
  { bootargsAddr := 0x83FF0000
    linuxA0 := none
    linuxA1 := none
    linuxA2 := none
    linuxA3 := none
    splLoadAddr := 0x80001800
    splEntryAddr := 0x80001800
    initramfsLoadAddr := 0x82100000
    extraBootargs := "root=/dev/initrd".toList
    trampolineAddr := 0x83FF1000 }

/-- A first program of one byte, a kernel of three and a file system of one. -/
def smallFiles : Files :=
  ⟨.ok [0], .ok (UImage.smallHeader.bytes ++ [1, 2, 3]), .ok [7]⟩

/-- What is loaded of the small files. -/
def smallPlan : Plan :=
  { spl := [0]
    uimg := UImage.smallHeader.image [1, 2, 3]
    initramfs := [7]
    fwArgs := ⟨MipsFwArgsLayout.block 0x83FF0000
      (initramfsBootargs defaultOptions.extraBootargs 0x82100000 1), 2, 0x83FF0000, 0x83FF000C, 0,
      initramfsBootargs defaultOptions.extraBootargs 0x82100000 1⟩
    trampoline := ((Trampoline.linuxMipsWords 0x80010000 2 0x83FF0000 0x83FF000C 0).map
      (leBytes 4)).flatten }

/-- The small plan is the one that is made of the small files. -/
theorem prepared_small : Prepared defaultOptions smallFiles smallPlan := by
  have hinit := UImage.init_checked_iff.mpr
    ⟨UImage.smallHeader, [1, 2, 3], [], UImage.wellFormed_smallHeader, rfl, rfl⟩
  have hcode : Trampoline.buildLinuxMips 0x80010000 2 0x83FF0000 0x83FF000C 0 =
      some smallPlan.trampoline :=
    Trampoline.buildLinuxMips_eq 0x80010000 2 0x83FF0000 0x83FF000C 0
  have hblock : smallPlan.fwArgs.blob.length = 78 := by
    have hlen := MipsFwArgsLayout.length_block 0x83FF0000
      (initramfsBootargs defaultOptions.extraBootargs 0x82100000 1)
    have hbytes : (initramfsBootargs defaultOptions.extraBootargs 0x82100000 1).byteLen = 55 := by
      decide +kernel
    rw [hbytes] at hlen
    exact hlen
  have htrampoline : smallPlan.trampoline.length = 48 := rfl
  have hregions : smallPlan.regions defaultOptions =
      [⟨"kernel payload", 0x82F00000, 0x82F00003⟩, ⟨"initramfs", 0x82100000, 0x82100001⟩,
        ⟨"bootargs", 0x83FF0000, 0x83FF004E⟩, ⟨"trampoline", 0x83FF1000, 0x83FF1030⟩] := by
    rw [Plan.regions, hblock, htrampoline]
    rfl
  refine ⟨rfl, ⟨_, rfl, hinit⟩, rfl, by decide, ?_, ?_, ?_⟩
  · rw [handOff]
    change (MipsFwArgsLayout.build 0x83FF0000
      (initramfsBootargs defaultOptions.extraBootargs 0x82100000 1)).bind _ = _
    rw [MipsFwArgsLayout.build_eq _ (by decide), Option.bind_some]
    change (Trampoline.buildLinuxMips 0x80010000 2 0x83FF0000 0x83FF000C 0).bind _ = _
    rw [hcode]
    rfl
  · rw [hregions]
    simp only [List.forall_mem_cons, Region.InRam]
    decide
  · rw [hregions]
    simp [Region.Apart]

/-- The slow bus before anything is loaded. -/
def smallLink : Link slowBus := ⟨(), ⟨fun _ => 0, 0, 0, 0, false⟩, none, none⟩

theorem main_reliable_small :
  ∃ code s', main defaultOptions smallFiles smallLink = (.ok code, s') ∧ (code = 0 ∨ code = 3) ∧
    LaunchedAt defaultOptions.trampolineAddr s'
  := main_reliable reliable_slowBus (prepare_eq_ok_iff.mpr prepared_small) smallLink

theorem main_launched_small :
  ∃ entry rom, (main defaultOptions smallFiles smallLink).2.launched = some (entry, rom) ∧
    rom.dirty = false ∧ (∀ u ∈ smallPlan.uploads defaultOptions, u.In rom.memory) ∧
    ∃ c', run 12 (State.goTo ⟨0, 4, fun _ => 0, rom.memory⟩ entry) = some c' ∧
      KernelEntered defaultOptions smallPlan c'
  := by
  obtain ⟨code, s', hrun, -, rom, hlaunched⟩ := main_reliable reliable_slowBus
    (prepare_eq_ok_iff.mpr prepared_small) smallLink
  have hsmall : (main defaultOptions smallFiles smallLink).2.launched =
      some (BitVec.ofNat 32 defaultOptions.trampolineAddr, rom) := by
    rw [hrun, hlaunched]
  have hnul : '\x00' ∉ defaultOptions.extraBootargs := by decide
  have halign : 4 ∣ defaultOptions.trampolineAddr := by decide
  obtain ⟨plan, hplan, -, hdirty, hin, henter⟩ := main_launched rfl hsmall
  have hsame := (prepare_eq_ok_iff.mpr hplan).symm.trans (prepare_eq_ok_iff.mpr prepared_small)
  obtain rfl := Except.ok.inj hsame
  exact ⟨_, rom, hsmall, hdirty, hin, henter hnul halign ⟨0, 4, fun _ => 0, rom.memory⟩ rfl⟩

end Recov

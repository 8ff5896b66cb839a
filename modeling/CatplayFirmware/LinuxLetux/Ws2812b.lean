import CatplayFirmware.Support.Bytes
import CatplayFirmware.Support.Except
import Mathlib.Data.Nat.Notation
import Mathlib.Data.Int.Notation
import Mathlib.Data.UInt
import Mathlib.Logic.Function.Basic

/-!
# LEDs on a line of pulses

The WS2812B driver sends the colors of a chain of LEDs over the data pin of an SPI controller:
silence, then three bits for each bit of a color, `110` for a one and `100` for a zero, from
tables. Setting a LED writes its part of the buffer and sends the whole. Every frame is silence
and the pulses of what each LED was last set to.
-/

open Bytes

namespace Ws2812b

def bytesPerColor : ℕ := 3

def numColors : ℕ := 3

def resetLen : ℕ := 18

def EINVAL : ℤ := 22

/-! ### The buffer -/

def h3b : List UInt8 := [0x92, 0x93, 0x9a, 0x9b, 0xd2, 0xd3, 0xda, 0xdb]

def m2b : List UInt8 := [0x49, 0x4d, 0x69, 0x6d]

def l3b : List UInt8 := [0x24, 0x26, 0x34, 0x36, 0xa4, 0xa6, 0xb4, 0xb6]

/-- The three bytes for a byte of a color. -/
def pulseBytes (val : UInt8) : Bytes :=
  [h3b.getD (val >>> 5).toNat 0, m2b.getD ((val >>> 3) &&& 0x3).toNat 0,
    l3b.getD (val &&& 0x7).toNat 0]

/-- `ws2812b_set_byte`. -/
def setByte (dataBuf : Bytes) (offset : ℕ) (val : UInt8) : Bytes :=
  overwrite dataBuf (resetLen + offset * bytesPerColor) (pulseBytes val)

structure Priv where
  numLeds : ℕ
  dataBuf : Bytes
  deriving DecidableEq

/-- A LED is set: its place in the chain, and the brightness of its colors. -/
structure Setting where
  cascade : ℕ
  brightness : Fin 3 → ℕ

/-- `ws2812b_set`, with the frame that is sent. -/
def set (priv : Priv) (e : Setting) : Priv × Bytes :=
  let dataBuf := (List.finRange 3).foldl (fun buf (i : Fin 3) =>
    setByte buf (e.cascade * numColors + i) (UInt8.ofNat (e.brightness i))) priv.dataBuf
  ({ priv with dataBuf := dataBuf }, dataBuf)

/-! ### Finding the LEDs -/

/-- A node of the device tree: its number or the error of reading it, and what registering its
LED returns. -/
structure LedNode where
  reg : Except ℤ ℕ
  register : ℤ

inductive Action where
  | register (curLed : ℕ)
  | unregister (curLed : ℕ)
  deriving DecidableEq

/-- The loop behind `ERR_UNREG_LEDS`. -/
def unregisterFrom : ℕ → List Action
  | 0 => [.unregister 0]
  | curLed + 1 => .unregister (curLed + 1) :: unregisterFrom curLed

/-- The loop over the nodes, with the places of the LEDs in the chain. -/
def probeFrom (numLeds : ℕ) : ℕ → List LedNode → Except ℤ (List ℕ) × List Action
  | _, [] => (.ok [], [])
  | curLed, node :: nodes =>
    match node.reg with
    | .error ret => (.error ret, unregisterFrom curLed)
    | .ok cascade =>
      if numLeds ≤ cascade then (.error (-EINVAL), unregisterFrom curLed)
      else if node.register ≠ 0 then
        (.error node.register, .register curLed :: unregisterFrom curLed)
      else
        let (r, actions) := probeFrom numLeds (curLed + 1) nodes
        (r.map (cascade :: ·), .register curLed :: actions)

/-- `ws2812b_probe`, with enough memory. -/
def probe (nodes : List LedNode) : Except ℤ (Priv × List ℕ) × List Action :=
  let numLeds := nodes.length
  let dataLen := numLeds * bytesPerColor * numColors + resetLen
  let dataBuf := (List.range (numLeds * numColors)).foldl (fun buf i => setByte buf i 0)
    (List.replicate dataLen 0)
  let (r, actions) := probeFrom numLeds 0 nodes
  (r.map fun leds => (⟨numLeds, dataBuf⟩, leds), actions)

/-! ### What a chain makes of a frame -/

/-- The bits of a byte in the order in which they are sent. -/
def byteBits (b : UInt8) : List Bool :=
  [7, 6, 5, 4, 3, 2, 1, 0].map b.toNat.testBit

def bits (bs : Bytes) : List Bool := bs.flatMap byteBits

/-- The bits that long and short pulses stand for. -/
def ofPulses : List Bool → Option (List Bool)
  | [] => some []
  | true :: b :: false :: rest => (ofPulses rest).map (b :: ·)
  | _ => none

/-- The pulses of bits. -/
def pulses (bs : List Bool) : List Bool := bs.flatMap fun b => [true, b, false]

theorem ofPulses_pulses (bs : List Bool) : ofPulses (pulses bs) = some bs := by
  induction bs with
  | nil => rfl
  | cons b bs ih =>
      rw [pulses, List.flatMap_cons, ← pulses]
      change (ofPulses (pulses bs)).map (b :: ·) = _
      rw [ih, Option.map_some]

/-- The tables hold pulses. -/
theorem bits_pulseBytes (val : UInt8) : bits (pulseBytes val) = pulses (byteBits val) := by
  have hall : ∀ n : Fin 256, bits (pulseBytes (UInt8.ofNat n)) =
      pulses (byteBits (UInt8.ofNat n)) := by decide +kernel
  have h := hall ⟨val.toNat, val.toNat_lt⟩
  rwa [UInt8.ofNat_toNat] at h

theorem bits_flatMap_pulseBytes (vals : Bytes) :
  bits (vals.flatMap pulseBytes) = pulses (bits vals)
  := by
  induction vals with
  | nil => rfl
  | cons val vals ih =>
      rw [bits, bits] at ih ⊢
      rw [List.flatMap_cons, List.flatMap_append, List.flatMap_cons, pulses, List.flatMap_append,
        ih]
      congr 1
      exact bits_pulseBytes val

/-! ### What the buffer holds -/

/-- The colors of a chain of LEDs, three bytes for each. -/
def colorBytes (numLeds : ℕ) (colors : ℕ → Fin 3 → UInt8) : Bytes :=
  (List.range numLeds).flatMap fun c => (List.finRange 3).map (colors c)

/-- Silence, and the pulses of the colors. -/
def frame (numLeds : ℕ) (colors : ℕ → Fin 3 → UInt8) : Bytes :=
  List.replicate resetLen 0 ++ (colorBytes numLeds colors).flatMap pulseBytes

theorem length_flatMap_pulseBytes (vals : Bytes) :
  (vals.flatMap pulseBytes).length = vals.length * bytesPerColor
  := by
  induction vals with
  | nil => rfl
  | cons val vals ih =>
      rw [List.flatMap_cons, List.length_append, ih, List.length_cons, Nat.succ_mul, Nat.add_comm]
      rfl

/-- Writing a byte of a color changes the color. -/
theorem setByte_pulses {vals : Bytes} {offset : ℕ} (h : offset < vals.length) (val : UInt8) :
  setByte (List.replicate resetLen 0 ++ vals.flatMap pulseBytes) offset val =
    List.replicate resetLen 0 ++ (vals.set offset val).flatMap pulseBytes
  := by
  have hreset : (List.replicate resetLen (0 : UInt8)).length = resetLen := List.length_replicate
  have hpiece := overwrite_append_right (List.replicate resetLen (0 : UInt8))
    (vals.flatMap pulseBytes) (pulseBytes val) (offset * bytesPerColor)
  rw [hreset] at hpiece
  rw [setByte, hpiece]
  congr 1
  have hsplit : vals = vals.take offset ++ (vals[offset] :: vals.drop (offset + 1)) := by
    rw [List.getElem_cons_drop, List.take_append_drop]
  have hfront : ((vals.take offset).flatMap pulseBytes).length = offset * bytesPerColor := by
    rw [length_flatMap_pulseBytes, List.length_take_of_le (Nat.le_of_lt h)]
  have hpulses : vals.flatMap pulseBytes = (vals.take offset).flatMap pulseBytes ++
      (pulseBytes vals[offset] ++ (vals.drop (offset + 1)).flatMap pulseBytes) := by
    rw [← List.flatMap_cons, ← List.flatMap_append, ← hsplit]
  have hlen : (pulseBytes val).length = (pulseBytes vals[offset]).length := rfl
  rw [hpulses, overwrite_piece hfront hlen, List.set_eq_take_append_cons_drop, if_pos h,
    List.flatMap_append, List.flatMap_cons]

theorem length_colorBytes (numLeds : ℕ) (colors : ℕ → Fin 3 → UInt8) :
  (colorBytes numLeds colors).length = numLeds * 3
  := by
  induction numLeds with
  | zero => rfl
  | succ n ih =>
      rw [colorBytes, List.range_succ, List.flatMap_append, List.length_append, ← colorBytes, ih,
        Nat.succ_mul]
      rfl

theorem colorBytes_succ (numLeds : ℕ) (colors : ℕ → Fin 3 → UInt8) :
  colorBytes (numLeds + 1) colors =
    colorBytes numLeds colors ++ (List.finRange 3).map (colors numLeds)
  := by
  rw [colorBytes, List.range_succ, List.flatMap_append, List.flatMap_singleton, ← colorBytes]

/-- Colors of LEDs that are not in the chain do not matter. -/
theorem colorBytes_congr {numLeds : ℕ} {colors colors' : ℕ → Fin 3 → UInt8}
    (h : ∀ c < numLeds, colors c = colors' c) :
  colorBytes numLeds colors = colorBytes numLeds colors'
  := by
  apply List.flatMap_congr
  intro c hc
  rw [h c (List.mem_range.mp hc)]

theorem set_map_finRange (f : Fin 3 → UInt8) (i : Fin 3) (val : UInt8) :
  ((List.finRange 3).map f).set i val = (List.finRange 3).map (Function.update f i val)
  := by
  have hlist : ∀ g : Fin 3 → UInt8, (List.finRange 3).map g = [g 0, g 1, g 2] := fun g => rfl
  rw [hlist, hlist]
  match i with
  | 0 => rfl
  | 1 => rfl
  | 2 => rfl

/-- Setting a byte sets the color at its place. -/
theorem set_colorBytes {numLeds c : ℕ} (hc : c < numLeds) (colors : ℕ → Fin 3 → UInt8) (i : Fin 3)
    (val : UInt8) :
  (colorBytes numLeds colors).set (c * 3 + i) val =
    colorBytes numLeds (Function.update colors c (Function.update (colors c) i val))
  := by
  induction numLeds with
  | zero => exact absurd hc (Nat.not_lt_zero c)
  | succ n ih =>
      have hlen := length_colorBytes n colors
      rw [colorBytes_succ, colorBytes_succ]
      rcases Nat.lt_or_eq_of_le (Nat.le_of_lt_succ hc) with hlt | rfl
      · rw [List.set_append_left _ _ (by omega), ih hlt,
          Function.update_of_ne (Nat.ne_of_gt hlt)]
      · have hsame : colorBytes c (Function.update colors c (Function.update (colors c) i val)) =
            colorBytes c colors := by
          apply colorBytes_congr
          intro c' hc'
          rw [Function.update_of_ne (Nat.ne_of_lt hc')]
        rw [List.set_append_right _ _ (by omega), hlen, Nat.add_sub_cancel_left, set_map_finRange,
          hsame, Function.update_self]

theorem setByte_frame {numLeds c : ℕ} (hc : c < numLeds) (colors : ℕ → Fin 3 → UInt8) (i : Fin 3)
    (val : UInt8) :
  setByte (frame numLeds colors) (c * 3 + i) val =
    frame numLeds (Function.update colors c (Function.update (colors c) i val))
  := by
  have hi := i.isLt
  have hinside : c * 3 + i < (colorBytes numLeds colors).length := by
    rw [length_colorBytes]
    omega
  rw [frame, setByte_pulses hinside, set_colorBytes hc, frame]

/-! ### Settings one after another -/

/-- The colors of the LEDs after one of them has been set. -/
def Setting.apply (e : Setting) (colors : ℕ → Fin 3 → UInt8) : ℕ → Fin 3 → UInt8 :=
  Function.update colors e.cascade fun i => UInt8.ofNat (e.brightness i)

/-- Setting a LED sends its colors and leaves those of the others. -/
theorem set_frame {numLeds : ℕ} {e : Setting} (he : e.cascade < numLeds)
    (colors : ℕ → Fin 3 → UInt8) :
  set ⟨numLeds, frame numLeds colors⟩ e =
    (⟨numLeds, frame numLeds (e.apply colors)⟩, frame numLeds (e.apply colors))
  := by
  have hbuf : (List.finRange 3).foldl (fun buf (i : Fin 3) =>
      setByte buf (e.cascade * numColors + i) (UInt8.ofNat (e.brightness i)))
      (frame numLeds colors) = frame numLeds (e.apply colors) := by
    have hlist : List.finRange 3 = [0, 1, 2] := rfl
    rw [hlist, List.foldl_cons, List.foldl_cons, List.foldl_cons, List.foldl_nil]
    simp only [numColors]
    rw [setByte_frame he, setByte_frame he, setByte_frame he]
    simp only [Function.update_self, Function.update_idem]
    rw [Setting.apply]
    congr 2
    ext i
    match i with
    | 0 => rfl
    | 1 => rfl
    | 2 => rfl
  rw [set]
  dsimp only
  rw [hbuf]

/-- The frames that are sent by settings one after another. -/
def frames : Priv → List Setting → List Bytes
  | _, [] => []
  | priv, e :: settings => (set priv e).2 :: frames (set priv e).1 settings

/-- The colors that a LED has been set to last, off before that. -/
def lastColors (settings : List Setting) (c : ℕ) (i : Fin 3) : UInt8 :=
  settings.foldl (fun color e => if e.cascade = c then UInt8.ofNat (e.brightness i) else color) 0

theorem foldl_apply (settings : List Setting) (colors : ℕ → Fin 3 → UInt8) (c : ℕ) (i : Fin 3) :
  settings.foldl (fun colors e => e.apply colors) colors c i =
    settings.foldl (fun color e =>
      if e.cascade = c then UInt8.ofNat (e.brightness i) else color) (colors c i)
  := by
  induction settings generalizing colors with
  | nil => rfl
  | cons e settings ih =>
      rw [List.foldl_cons, List.foldl_cons, ih, Setting.apply]
      split
      · next hc => rw [hc, Function.update_self]
      · next hc => rw [Function.update_of_ne (Ne.symm hc)]

/-- Every frame is silence and the pulses of the colors set until then. -/
theorem frames_frame {numLeds : ℕ} {settings : List Setting}
    (h : ∀ e ∈ settings, e.cascade < numLeds) (colors : ℕ → Fin 3 → UInt8) (k : ℕ) :
  (frames ⟨numLeds, frame numLeds colors⟩ settings)[k]? =
    if k < settings.length then
      some (frame numLeds ((settings.take (k + 1)).foldl (fun colors e => e.apply colors) colors))
    else none
  := by
  induction settings generalizing colors k with
  | nil => rfl
  | cons e settings ih =>
      obtain ⟨he, h⟩ := List.forall_mem_cons.mp h
      rw [frames, set_frame he]
      cases k with
      | zero => rfl
      | succ k =>
          rw [List.getElem?_cons_succ, ih h, List.length_cons, List.take_succ_cons, List.foldl_cons]
          simp only [Nat.add_lt_add_iff_right]

/-! ### The first frame -/

/-- The rounds of the loop that turns all LEDs off. -/
theorem foldl_setByte_zero {n k : ℕ} (hk : k ≤ n) :
  (List.range k).foldl (fun buf i => setByte buf i 0)
      (List.replicate (n * bytesPerColor + resetLen) 0) =
    List.replicate resetLen 0 ++ ((List.replicate k 0).flatMap pulseBytes ++
      List.replicate ((n - k) * bytesPerColor) 0)
  := by
  induction k with
  | zero => rw [List.range_zero, List.foldl_nil, List.replicate_zero, List.flatMap_nil,
      List.nil_append, ← List.replicate_add, Nat.sub_zero, Nat.add_comm]
  | succ k ih =>
      have hfront : ((List.replicate k (0 : UInt8)).flatMap pulseBytes).length =
          k * bytesPerColor := by
        rw [length_flatMap_pulseBytes, List.length_replicate]
      have hsplit : (n - k) * bytesPerColor = 3 + (n - (k + 1)) * bytesPerColor := by
        rw [bytesPerColor]
        omega
      have hpiece : overwrite ((List.replicate k (0 : UInt8)).flatMap pulseBytes ++
          (List.replicate 3 0 ++ List.replicate ((n - (k + 1)) * bytesPerColor) 0))
          (k * bytesPerColor) (pulseBytes 0) = _ := overwrite_piece hfront rfl
      have hreset := overwrite_append_right (List.replicate resetLen (0 : UInt8))
        ((List.replicate k (0 : UInt8)).flatMap pulseBytes ++
          (List.replicate 3 0 ++ List.replicate ((n - (k + 1)) * bytesPerColor) 0))
        (pulseBytes 0) (k * bytesPerColor)
      rw [List.length_replicate, hpiece] at hreset
      rw [List.range_succ, List.foldl_append, ih (Nat.le_of_succ_le hk), List.foldl_cons,
        List.foldl_nil, setByte, hsplit, List.replicate_add, hreset, List.replicate_succ',
        List.flatMap_append, List.flatMap_singleton, List.append_assoc]

theorem colorBytes_zero (numLeds : ℕ) :
  colorBytes numLeds (fun _ _ => 0) = List.replicate (numLeds * numColors) 0
  := by
  induction numLeds with
  | zero => rfl
  | succ n ih =>
      rw [colorBytes_succ, ih, Nat.succ_mul, List.replicate_add]
      rfl

theorem mem_of_probeFrom {numLeds curLed : ℕ} {nodes : List LedNode} {leds : List ℕ}
    (h : (probeFrom numLeds curLed nodes).1 = .ok leds) :
  ∀ c ∈ leds, c < numLeds
  := by
  induction nodes generalizing curLed leds with
  | nil =>
      cases h
      nofun
  | cons node nodes ih =>
      rw [probeFrom] at h
      split at h
      · cases h
      · next cascade hreg =>
        split at h
        · cases h
        · next hcascade =>
          split at h
          · cases h
          · dsimp only at h
            obtain ⟨rest, hrest, rfl⟩ := Except.map_eq_ok_iff.mp h
            intro c hc
            rcases List.mem_cons.mp hc with rfl | hc
            · exact Nat.not_le.mp hcascade
            · exact ih hrest c hc

/-- A chain that has been found starts with all LEDs off, and has the LEDs of the nodes. -/
theorem probe_eq_ok {nodes : List LedNode} {priv : Priv} {leds : List ℕ}
    (h : (probe nodes).1 = .ok (priv, leds)) :
  priv = ⟨nodes.length, frame nodes.length fun _ _ => 0⟩ ∧ ∀ c ∈ leds, c < nodes.length
  := by
  rw [probe] at h
  dsimp only at h
  obtain ⟨found, hfound, hpriv⟩ := Except.map_eq_ok_iff.mp h
  obtain ⟨rfl, rfl⟩ := Prod.mk.inj hpriv
  have hlen : nodes.length * bytesPerColor * numColors + resetLen =
      nodes.length * numColors * bytesPerColor + resetLen := rfl
  refine ⟨?_, mem_of_probeFrom hfound⟩
  rw [hlen, foldl_setByte_zero (Nat.le_refl _), Nat.sub_self, Nat.zero_mul, List.replicate_zero,
    List.append_nil, frame, colorBytes_zero]

/-- Whatever LEDs of a chain are set in whatever order, every frame that is sent is silence and
then the pulses of what each LED has been set to last. -/
theorem frames_pulses {nodes : List LedNode} {priv : Priv} {leds : List ℕ}
    (hprobe : (probe nodes).1 = .ok (priv, leds)) {settings : List Setting}
    (hsettings : ∀ e ∈ settings, e.cascade ∈ leds) {k : ℕ} {sent : Bytes}
    (hsent : (frames priv settings)[k]? = some sent) :
  sent.take resetLen = List.replicate resetLen 0 ∧
    ofPulses (bits (sent.drop resetLen)) =
      some (bits (colorBytes nodes.length (lastColors (settings.take (k + 1)))))
  := by
  obtain ⟨rfl, hleds⟩ := probe_eq_ok hprobe
  rw [frames_frame fun e he => hleds _ (hsettings e he)] at hsent
  split at hsent
  · have hcolors : (settings.take (k + 1)).foldl (fun colors e => e.apply colors)
        (fun _ _ => 0) = lastColors (settings.take (k + 1)) := by
      funext c i
      exact foldl_apply _ _ c i
    obtain rfl := Option.some.inj hsent
    have hreset : (List.replicate resetLen (0 : UInt8)).length = resetLen := List.length_replicate
    rw [hcolors, frame, List.take_left' hreset, List.drop_left' hreset, bits_flatMap_pulseBytes,
      ofPulses_pulses]
    exact ⟨rfl, rfl⟩
  · cases hsent

/-- Two LEDs, of which the second is set twice. -/
theorem frames_pulses_two :
  ∃ priv leds, (probe [⟨.ok 0, 0⟩, ⟨.ok 1, 0⟩]).1 = .ok (priv, leds) ∧
    ∃ sent, (frames priv [⟨1, fun _ => 255⟩, ⟨1, fun _ => 7⟩])[1]? = some sent ∧
      ofPulses (bits (sent.drop resetLen)) = some (bits [0, 0, 0, 7, 7, 7])
  := by
  have hprobe : (probe [⟨.ok 0, 0⟩, ⟨.ok 1, 0⟩]).1 = .ok (_, [0, 1]) := rfl
  refine ⟨_, _, hprobe, _, rfl, ?_⟩
  have hpulses := @frames_pulses _ _ _ hprobe [⟨1, fun _ => 255⟩, ⟨1, fun _ => 7⟩] (by simp) 1 _
    rfl
  exact hpulses.2

end Ws2812b

import CatplayFirmware.LinuxLetux.IngenicSfc.PioWords

/-!
# The handler of the interrupts

Whatever the status that it reads, the handler pushes or pops the next words of the buffer, and the
controller that goes on meanwhile leaves them in order. It moves no position past its length.
-/

namespace IngenicSfc

open Bytes FlatMemory Controller

/-! ### Accesses -/

/-- What an access of the processor to a register, or the controller on its own, can change. -/
inductive Access : Controller → Controller → Prop where
  | step {c c' : Controller} (h : Step c c') : Access c c'
  | push (c : Controller) (fifo pushed : List Word) : Access c { c with fifo, pushed }
  | pop (c : Controller) (fifo popped : List Word) : Access c { c with fifo, popped }
  | mask (c : Controller) (intc : Status) : Access c { c with intc }

/-- Some accesses, while no bit of the status is cleared. -/
def Serves : Controller → Controller → Prop := Relation.ReflTransGen Access

/-- What every access preserves, several preserve. -/
theorem Serves.preserves {P : Controller → Prop} (hP : ∀ c c', Access c c' → P c → P c')
    {c c' : Controller} (h : Serves c c') (hc : P c) :
  P c'
  := by
  induction h with
  | refl => exact hc
  | tail _ hlast ih => exact hP _ _ hlast ih

/-- A fault stays in the status while nothing is cleared. -/
theorem Serves.alert {c c' : Controller} (h : Serves c c') (halert : Alert c) : Alert c' := by
  apply h.preserves _ halert
  intro c c' haccess hc
  cases haccess with
  | step hstep => exact hc.step hstep
  | push fifo pushed => exact hc
  | pop fifo popped => exact hc
  | mask intc => exact hc

/-- What is raised behind the end is not a fault before it, whatever is accessed. -/
theorem Serves.clean {c c' : Controller} (h : Serves c c') (hclean : Clean c) : Clean c' := by
  apply h.preserves _ hclean
  intro c c' haccess hc
  cases haccess with
  | step hstep => exact hc.step hstep
  | push fifo pushed => exact hc
  | pop fifo popped => exact hc
  | mask intc => exact hc

/-- The controller on its own only makes steps. -/
theorem serves_run (c : Controller) (events : List Event) : Serves c (c.run events) :=
  run_of_step (P := Serves c) (fun _ _ hstep h => h.tail (.step hstep)) .refl events

/-- A tick lets the controller go on, or does nothing. -/
theorem serves_tick (m : Machine) : Serves m.hw (tick m).hw := by
  rw [tick]
  split
  · exact .refl
  · apply serves_run

/-- What every step of the controller preserves, a tick preserves. -/
theorem tick_of_step {P : Controller → Prop} (hstep : ∀ c c', Step c c' → P c → P c') {m : Machine}
    (h : P m.hw) :
  P (tick m).hw
  := by
  rw [tick]
  split
  · exact h
  · exact run_of_step hstep h _

/-- The controller does not change the state of the driver. -/
@[simp] theorem tick_sfc (m : Machine) : (tick m).sfc = m.sfc := by
  rw [tick]
  split <;> rfl

@[simp] theorem tick_mem (m : Machine) : (tick m).mem = m.mem := by
  rw [tick]
  split <;> rfl

@[simp] theorem tick_touched (m : Machine) : (tick m).touched = m.touched := by
  rw [tick]
  split <;> rfl

/-- The controller goes on with the transfer that it was given. -/
theorem sameTransfer_tick (m : Machine) : SameTransfer m.hw (tick m).hw := by
  rw [tick]
  split
  · exact ⟨rfl, rfl, rfl, rfl, rfl⟩
  · apply sameTransfer_run

/-! ### A transfer -/

/-- A transfer between a buffer of a memory and the words that the flash has. -/
structure Transfer where
  dir : Dir
  buf : BitVec 32
  len : ℕ
  mem : Memory
  data : List Word
  len_lt : len < 2 ^ 32
  data_length : dir = .dataIn → data.length = (len + 3) / 4

/-- The bytes of the buffer before the transfer. -/
def Transfer.bytes (t : Transfer) : Bytes := load t.mem t.buf t.len

@[simp] theorem Transfer.length_bytes (t : Transfer) : t.bytes.length = t.len := length_load _ _ _

/-- A position behind whole words, or at the end, in a transfer of that direction. In another it
does not move. -/
def Transfer.Whole (t : Transfer) (dir : Dir) (p : ℕ) : Prop :=
  p ≤ t.len ∧ (4 ∣ p ∨ p = t.len) ∧ (t.dir ≠ dir → p = 0)

/-- How far a transfer has come: what is pushed are the bytes of the buffer before one position,
what is popped are those before another, and nothing else is touched. -/
structure At (t : Transfer) (m : Machine) (p q : ℕ) : Prop where
  dir : m.hw.dir = t.dir.tranDir
  len : m.hw.len = t.len
  flow : Flow t.data m.hw
  touched : ∀ a ∈ m.touched, t.dir ≠ .noData ∧ ∃ i < t.len, a = t.buf + BitVec.ofNat 32 i
  frame : ∀ x, (t.dir = .dataIn → t.len ≤ (x - t.buf).toNat) → m.mem x = t.mem x
  tx : t.Whole .dataOut p
  pushed : m.hw.pushed = words (t.bytes.take p)
  rx : t.Whole .dataIn q
  popped : m.hw.popped.length = (q + 3) / 4
  read : load m.mem t.buf q = (bytesOfWords m.hw.popped).take q

section

variable {t : Transfer} {m : Machine} {p q : ℕ}

/-- A tick takes the transfer nowhere. -/
theorem At.ticked (h : At t m p q) : At t (tick m) p q := by
  have hsame := sameTransfer_tick m
  constructor
  · rw [hsame.dir, h.dir]
  · rw [hsame.len, h.len]
  · exact tick_of_step (fun _ _ hstep hflow => hflow.step hstep) h.flow
  · rw [tick_touched]
    exact h.touched
  · rw [tick_mem]
    exact h.frame
  · exact h.tx
  · rw [hsame.pushed, h.pushed]
  · exact h.rx
  · rw [hsame.popped, h.popped]
  · rw [tick_mem, hsame.popped, h.read]

/-- Addresses inside the buffer. -/
theorem mem_addresses {k : ℕ} (h : p + k ≤ t.len) {a : BitVec 32}
    (ha : a ∈ addresses (t.buf + BitVec.ofNat 32 p) k) :
  ∃ i < t.len, a = t.buf + BitVec.ofNat 32 i
  := by
  obtain ⟨i, hi, rfl⟩ := List.mem_map.mp ha
  have hlt := List.mem_range.mp hi
  refine ⟨p + i, by omega, ?_⟩
  rw [BitVec.add_assoc, ← BitVec.ofNat_add]

/-- What is touched inside the buffer may be touched. -/
theorem At.touch (h : At t m p q) (hdir : t.dir ≠ .noData) {as : List (BitVec 32)}
    (has : ∀ a ∈ as, ∃ i < t.len, a = t.buf + BitVec.ofNat 32 i) :
  At t { m with touched := m.touched ++ as } p q
  := by
  refine ⟨h.dir, h.len, h.flow, fun a ha => ?_, h.frame, h.tx, h.pushed, h.rx, h.popped, h.read⟩
  rcases List.mem_append.mp ha with hbefore | hnew
  · exact h.touched a hbefore
  · exact ⟨hdir, has a hnew⟩

/-- A word is pushed while there is room for it. -/
theorem Flow.push {data : List Word} {c : Controller} (h : Flow data c) {n : ℕ}
    (hroom : AtMost n c) (hn : n < maxFifoWords) (w : Word) :
  Flow data { c with fifo := c.fifo ++ [w], pushed := c.pushed ++ [w] }
  := by
  obtain ⟨hwrite, hlevel⟩ := hroom
  constructor
  · rw [List.length_append, List.length_singleton]
    omega
  · intro _
    simp only
    rw [h.write hwrite, List.append_assoc]
  · intro hread
    rw [hwrite] at hread
    cases hread
  · exact h.intact
  · exact h.ends

/-- A word of the buffer is pushed. -/
theorem At.push (h : At t m p q) (hdir : t.dir = .dataOut) {n k : ℕ} (hroom : AtMost n m.hw)
    (hn : n < maxFifoWords) (hp : 4 ∣ p) (hk : k = min 4 (t.len - p)) (hmore : p < t.len) :
  let m' := writeDr
    { m with touched := m.touched ++ addresses (t.buf + BitVec.ofNat 32 p) k }
    (wordOf (load m.mem (t.buf + BitVec.ofNat 32 p) k))
  At t m' (p + k) q ∧ AtMost (n + 1) m'.hw ∧ Serves m.hw m'.hw ∧ m'.sfc = m.sfc
  := by
  have hfits : p + k ≤ t.len := by omega
  have hmem : m.mem = t.mem := by
    funext x
    apply h.frame x
    intro hin
    rw [hdir] at hin
    cases hin
  obtain ⟨m₀, hm₀⟩ : ∃ m₀,
    m₀ = { m with touched := m.touched ++ addresses (t.buf + BitVec.ofNat 32 p) k } := ⟨_, rfl⟩
  have hat : At t (tick m₀) p q := by
    rw [hm₀]
    exact (h.touch (by rw [hdir]; decide) fun a ha => mem_addresses hfits ha).ticked
  have hroom₀ : AtMost n (tick m₀).hw := by
    apply tick_of_step (fun _ _ hstep hmost => hmost.step hstep)
    rw [hm₀]
    exact hroom
  have hserves : Serves m.hw (tick m₀).hw := by
    have htick := serves_tick m₀
    rw [hm₀] at htick ⊢
    exact htick
  have hsfc : (tick m₀).sfc = m.sfc := by rw [tick_sfc, hm₀]
  have hword : load m.mem (t.buf + BitVec.ofNat 32 p) k = slice t.bytes p k := by
    rw [hmem, load_offset t.mem hfits]
    rfl
  simp only
  rw [← hm₀, hword, writeDr]
  simp only
  rw [if_pos (Nat.lt_of_le_of_lt hroom₀.2 hn)]
  refine ⟨?_, ⟨hroom₀.1, ?_⟩, hserves.tail (.push _ _ _), hsfc⟩
  · refine ⟨hat.dir, hat.len, Flow.push hat.flow hroom₀ hn _, hat.touched, hat.frame,
      ⟨hfits, ?_, fun hnot => absurd hdir hnot⟩, ?_, hat.rx, hat.popped, hat.read⟩
    · omega
    · rw [words_take_add hp ⟨by omega, by omega⟩ (by rwa [t.length_bytes]), ← hat.pushed]
  · rw [List.length_append, List.length_singleton]
    exact Nat.succ_le_succ hroom₀.2

/-- The words of a part of the buffer are pushed, one after the other. -/
theorem writeWords_at {n len : ℕ} (h : At t m p q) (hdir : t.dir = .dataOut)
    (hp : 0 < n → 4 ∣ p) (hlen : p + len ≤ t.len) (hwhole : 4 ∣ len ∨ p + len = t.len)
    (hn : n = (len + 3) / 4) (hle : n ≤ maxFifoWords) (hroom : AtMost (maxFifoWords - n) m.hw) :
  let m' := writeWords n m (t.buf + BitVec.ofNat 32 p) len
  At t m' (p + len) q ∧ Serves m.hw m'.hw ∧ m'.sfc = m.sfc
  := by
  induction n generalizing m p len with
  | zero =>
      obtain rfl : len = 0 := by omega
      exact ⟨h, .refl, rfl⟩
  | succ n ih =>
      obtain ⟨k, hk⟩ : ∃ k, k = min 4 len := ⟨_, rfl⟩
      have hdvd := hp (Nat.succ_pos n)
      have hkAll : k = min 4 (t.len - p) := by omega
      obtain ⟨hat, hroom', hserves, hsfc⟩ :=
        h.push hdir hroom (Nat.sub_lt (Nat.lt_of_lt_of_le (Nat.succ_pos n) hle) (Nat.succ_pos n))
          hdvd
          hkAll (by omega)
      have hrest : maxFifoWords - (n + 1) + 1 = maxFifoWords - n := by omega
      rw [hrest] at hroom'
      obtain ⟨hat', hserves', hsfc'⟩ := @ih _ (p + k) (len - k) hat (by omega) (by omega) (by omega)
        (by omega) (by omega) hroom'
      have hsum : p + k + (len - k) = p + len := by omega
      have haddr : t.buf + BitVec.ofNat 32 p + BitVec.ofNat 32 k =
          t.buf + BitVec.ofNat 32 (p + k) := by
        rw [BitVec.add_assoc, ← BitVec.ofNat_add]
      rw [writeWords, ← hk]
      simp only
      rw [haddr]
      rw [hsum] at hat'
      exact ⟨hat', hserves.trans hserves', hsfc'.trans hsfc⟩

/-- A word is popped that is in the FIFO. -/
theorem Flow.pop {data : List Word} {c : Controller} (h : Flow data c) (hread : c.dir = .read)
    {w : Word} {fifo : List Word} (hfifo : c.fifo = w :: fifo) :
  Flow data { c with fifo, popped := c.popped ++ [w] }
  := by
  have hlevel := h.level
  have hplaced := h.read hread
  rw [hfifo] at hlevel hplaced
  constructor
  · exact Nat.le_of_succ_le hlevel
  · intro hwrite
    rw [hread] at hwrite
    cases hwrite
  · intro _
    rwa [List.append_cons] at hplaced
  · exact h.intact
  · exact h.ends

/-- A word is popped into the buffer. -/
theorem At.pop (h : At t m p q) (hdir : t.dir = .dataIn) {n k : ℕ} (hlevel : AtLeast (n + 1) m.hw)
    (hq : 4 ∣ q) (hk : k = min 4 (t.len - q)) (hmore : q < t.len) :
  let (m₁, val) := readDr m
  let m' := { m₁ with
    mem := store m₁.mem (t.buf + BitVec.ofNat 32 q) (bytesOf k val)
    touched := m₁.touched ++ addresses (t.buf + BitVec.ofNat 32 q) k }
  At t m' p (q + k) ∧ AtLeast n m'.hw ∧ Serves m.hw m'.hw ∧ m'.sfc = m.sfc
  := by
  have hfits : q + k ≤ t.len := by omega
  have hlt := t.len_lt
  have hat := h.ticked
  have hlevel' : AtLeast (n + 1) (tick m).hw :=
    tick_of_step (fun _ _ hstep hleast => hleast.step hstep) hlevel
  obtain ⟨hread, hcount⟩ := hlevel'
  obtain ⟨w, fifo, hfifo⟩ :=
    List.exists_cons_of_length_pos (Nat.lt_of_lt_of_le (Nat.succ_pos n) hcount)
  rw [hfifo, List.length_cons] at hcount
  have hserves := (serves_tick m).tail (.pop _ fifo ((tick m).hw.popped ++ [w]))
  have hlen : (bytesOf k w).length = k := length_bytesOf k w
  have hbytes : (bytesOfWords (tick m).hw.popped).length = q := by
    rw [length_bytesOfWords, hat.popped]
    omega
  simp only [readDr]
  rw [hfifo]
  simp only
  refine ⟨⟨hat.dir, hat.len, Flow.pop hat.flow hread hfifo, ?_, ?_, hat.tx, hat.pushed,
    ⟨hfits, ?_, fun hnot => absurd hdir hnot⟩, ?_, ?_⟩, ⟨hread, Nat.le_of_succ_le_succ hcount⟩,
    hserves, tick_sfc m⟩
  · exact (hat.touch (by rw [hdir]; decide) fun a ha => mem_addresses hfits ha).touched
  · intro x hx
    have hbound : q + (bytesOf k w).length ≤ t.len := by rwa [hlen]
    exact (store_outside_region _ hlt hbound (hx hdir)).trans (hat.frame x hx)
  · omega
  · rw [List.length_append, List.length_singleton, hat.popped]
    omega
  · have hbound : q + (bytesOf k w).length < 2 ^ 32 := by omega
    have hstored := @load_store_behind 32 t.buf q (bytesOf k w) (tick m).mem hbound
    have hall : (bytesOfWords (tick m).hw.popped).take q = bytesOfWords (tick m).hw.popped :=
      List.take_of_length_le (Nat.le_of_eq hbytes)
    rw [hlen] at hstored
    have hlast : bytesOfWords [w] = bytesOf 4 w := by
      rw [bytesOfWords, List.flatMap_cons, List.flatMap_nil, List.append_nil]
    rw [hstored, hat.read, hall, bytesOfWords_append, hlast, List.take_append, hbytes,
      Nat.add_sub_cancel_left, take_bytesOf (by omega), List.take_of_length_le (by omega)]

/-- Words that are in the FIFO are popped into a part of the buffer, one after the other. -/
theorem readWords_at {n len : ℕ} (h : At t m p q) (hdir : t.dir = .dataIn)
    (hq : 0 < n → 4 ∣ q) (hlen : q + len ≤ t.len) (hwhole : 4 ∣ len ∨ q + len = t.len)
    (hn : n = (len + 3) / 4) (hlevel : AtLeast n m.hw) :
  let m' := readWords n m (t.buf + BitVec.ofNat 32 q) len
  At t m' p (q + len) ∧ Serves m.hw m'.hw ∧ m'.sfc = m.sfc
  := by
  induction n generalizing m q len with
  | zero =>
      obtain rfl : len = 0 := by omega
      exact ⟨h, .refl, rfl⟩
  | succ n ih =>
      obtain ⟨k, hk⟩ : ∃ k, k = min 4 len := ⟨_, rfl⟩
      have hkAll : k = min 4 (t.len - q) := by omega
      obtain ⟨hat, hlevel', hserves, hsfc⟩ :=
        h.pop hdir hlevel (hq (Nat.succ_pos n)) hkAll (by omega)
      obtain ⟨hat', hserves', hsfc'⟩ := @ih _ (q + k) (len - k) hat (by omega) (by omega) (by omega)
        (by omega) hlevel'
      have hsum : q + k + (len - k) = q + len := by omega
      have haddr : t.buf + BitVec.ofNat 32 q + BitVec.ofNat 32 k =
          t.buf + BitVec.ofNat 32 (q + k) := by
        rw [BitVec.add_assoc, ← BitVec.ofNat_add]
      rw [readWords, ← hk]
      simp only
      rw [haddr]
      rw [hsum] at hat'
      exact ⟨hat', hserves.trans hserves', hsfc'.trans hsfc⟩

end

/-! ### The parts of the handler -/

/-- The fields of the driver say how far the transfer has come, unless they are cleared. -/
structure Fields (t : Transfer) (sfc : Sfc) (p q : ℕ) : Prop where
  tx : ∀ buf, sfc.txBuf = some buf →
    t.dir = .dataOut ∧ buf = t.buf ∧ sfc.txLen = t.len ∧ sfc.txPos = p
  rx : ∀ buf, sfc.rxBuf = some buf →
    t.dir = .dataIn ∧ buf = t.buf ∧ sfc.rxLen = t.len ∧ sfc.rxPos = q

/-- Only positions change. -/
structure Moves (sfc sfc' : Sfc) : Prop where
  lastError : sfc'.lastError = sfc.lastError
  active : sfc'.active = sfc.active
  completed : sfc'.completed = sfc.completed
  txBuf : sfc'.txBuf = sfc.txBuf
  rxBuf : sfc'.rxBuf = sfc.rxBuf

/-- Nothing has moved. -/
theorem Moves.refl (sfc : Sfc) : Moves sfc sfc := ⟨rfl, rfl, rfl, rfl, rfl⟩

/-- Moves add up. -/
theorem Moves.trans {sfc₀ sfc₁ sfc₂ : Sfc} (h : Moves sfc₀ sfc₁) (h' : Moves sfc₁ sfc₂) :
  Moves sfc₀ sfc₂
  := by
  constructor
  · exact h'.lastError.trans h.lastError
  · exact h'.active.trans h.active
  · exact h'.completed.trans h.completed
  · exact h'.txBuf.trans h.txBuf
  · exact h'.rxBuf.trans h.rxBuf

section

variable {t : Transfer} {m : Machine} {p q : ℕ}

/-- What the steps of the controller and a change of the mask preserve. -/
theorem updateIntc_preserves {P : Controller → Prop} (hstep : ∀ c c', Step c c' → P c → P c')
    (hmask : ∀ c intc, P c → P { c with intc }) (h : P m.hw) (f : Status → Status) :
  P (updateIntc m f).hw
  := hmask _ _ (tick_of_step hstep (tick_of_step hstep h))

/-- Which interrupts are masked has nothing to do with how far the transfer has come. -/
theorem updateIntc_at (h : At t m p q) (f : Status → Status) :
  At t (updateIntc m f) p q ∧ Serves m.hw (updateIntc m f).hw ∧ (updateIntc m f).sfc = m.sfc
  := by
  have hat := h.ticked.ticked
  refine ⟨⟨hat.dir, hat.len, ?_, hat.touched, hat.frame, hat.tx, hat.pushed, hat.rx, hat.popped,
    hat.read⟩, ?_, ?_⟩
  · exact ⟨hat.flow.level, hat.flow.write, hat.flow.read, hat.flow.intact, hat.flow.ends⟩
  · exact ((serves_tick m).trans (serves_tick _)).tail (.mask _ _)
  · exact (tick_sfc _).trans (tick_sfc m)

/-- All but one word fit when words are requested. -/
theorem pushRequested_ok (h : At t m p q) (hfields : Fields t m.sfc p q)
    (hroom : t.dir = .dataOut → AtMost 1 m.hw) :
  ∃ p', At t (pushRequested m) p' q ∧ Fields t (pushRequested m).sfc p' q ∧
    Serves m.hw (pushRequested m).hw ∧ Moves m.sfc (pushRequested m).sfc ∧
    (t.dir = .dataIn → pushRequested m = m)
  := by
  have hwords : maxFifoWords = 64 := rfl
  rw [pushRequested]
  split
  · exact ⟨p, h, hfields, .refl, .refl _, fun _ => rfl⟩
  · next buf hbuf =>
    obtain ⟨hdir, rfl, hlen, hpos⟩ := hfields.tx buf hbuf
    rw [hlen, hpos]
    split
    · next hmore =>
      obtain ⟨k, hk⟩ : ∃ k, k = min (t.len - p) ((maxFifoWords - 1) * 4) := ⟨_, rfl⟩
      obtain ⟨hle, hwhole, _⟩ := h.tx
      have hn : wordsFor k = (k + 3) / 4 := by
        rw [wordsFor, Nat.mod_eq_of_lt (by omega)]
      have hroom' : AtMost (maxFifoWords - wordsFor k) m.hw :=
        ⟨(hroom hdir).1, Nat.le_trans (hroom hdir).2 (by omega)⟩
      obtain ⟨hat, hserves, hsfc⟩ := writeWords_at h hdir (fun _ => by omega) (by omega) (by omega)
        hn (by omega) hroom'
      rw [← writeTxfifo] at hat hserves hsfc
      simp only
      rw [← hk, hsfc]
      refine ⟨p + k, ?_, ⟨fun b hb => ⟨hdir, ?_, hlen, congrArg (· + k) hpos⟩, fun b hb => ?_⟩,
        hserves, ⟨rfl, rfl, rfl, rfl, rfl⟩, fun hin => ?_⟩
      · exact ⟨hat.dir, hat.len, hat.flow, hat.touched, hat.frame, hat.tx, hat.pushed, hat.rx,
          hat.popped, hat.read⟩
      · exact Option.some.inj (hb.symm.trans hbuf)
      · have hin := (hfields.rx b hb).1
        rw [hdir] at hin
        cases hin
      · rw [hdir] at hin
        cases hin
    · exact ⟨p, h, hfields, .refl, .refl _, fun _ => rfl⟩

/-- The half of the handler that pushes leaves the transfer whole, whatever the status says. -/
theorem serveTx_ok (h : At t m p q) (hfields : Fields t m.sfc p q)
    (hroom : t.dir = .dataOut → AtMost 1 m.hw) :
  ∃ p', At t (serveTx m) p' q ∧ Fields t (serveTx m).sfc p' q ∧
    Serves m.hw (serveTx m).hw ∧ Moves m.sfc (serveTx m).sfc ∧
    ∀ n, t.dir = .dataIn → AtLeast n m.hw → AtLeast n (serveTx m).hw
  := by
  obtain ⟨p', hat, hf, hserves, hmoves, hsame⟩ := pushRequested_ok h hfields hroom
  rw [serveTx]
  split
  · obtain ⟨hat', hserves', hsfc'⟩ := updateIntc_at hat fun intc => { intc with tranReq := true }
    refine ⟨p', hat', hsfc' ▸ hf, hserves.trans hserves', hsfc' ▸ hmoves, fun n hin hn => ?_⟩
    rw [hsame hin]
    exact updateIntc_preserves (fun _ _ hstep => AtLeast.step hstep) (fun _ _ hc => hc) hn _
  · refine ⟨p', hat, hf, hserves, hmoves, fun n hin hn => ?_⟩
    rw [hsame hin]
    exact hn

/-- As many words as were in the FIFO are there to be popped. -/
theorem popReceived_ok (h : At t m p q) (hfields : Fields t m.sfc p q) {fifoWords : ℕ}
    (hlevel : t.dir = .dataIn → AtLeast fifoWords m.hw) :
  ∃ q', At t (popReceived m fifoWords) p q' ∧ Fields t (popReceived m fifoWords).sfc p q' ∧
    Serves m.hw (popReceived m fifoWords).hw ∧ Moves m.sfc (popReceived m fifoWords).sfc ∧
    (t.dir ≠ .dataIn → popReceived m fifoWords = m)
  := by
  have hlt := t.len_lt
  have hsame : ∃ q', At t m p q' ∧ Fields t m.sfc p q' ∧ Serves m.hw m.hw ∧ Moves m.sfc m.sfc ∧
      (t.dir ≠ .dataIn → m = m) := ⟨q, h, hfields, .refl, .refl _, fun _ => rfl⟩
  rw [popReceived]
  split
  · exact hsame
  · next buf hbuf =>
    obtain ⟨hdir, rfl, hlen, hpos⟩ := hfields.rx buf hbuf
    rw [hlen, hpos]
    split
    · next hmore =>
      obtain ⟨k, hk⟩ : ∃ k, k = min (t.len - q) (fifoWords * 4) := ⟨_, rfl⟩
      simp only
      rw [← hk]
      split
      · obtain ⟨hle, hwhole, _⟩ := h.rx
        have hfits : fifoWords ≤ 64 := Nat.le_trans (hlevel hdir).2 h.flow.level
        have hn : wordsFor k = (k + 3) / 4 := by
          rw [wordsFor, Nat.mod_eq_of_lt (by omega)]
        have hlevel' : AtLeast (wordsFor k) m.hw :=
          ⟨(hlevel hdir).1, Nat.le_trans (by omega) (hlevel hdir).2⟩
        obtain ⟨hat, hserves, hsfc⟩ := readWords_at h hdir (fun _ => by omega) (by omega)
          (by omega) hn hlevel'
        rw [← readRxfifo] at hat hserves hsfc
        rw [hsfc]
        refine ⟨q + k, ?_, ⟨fun b hb => ?_, fun b hb => ⟨hdir, ?_, hlen, congrArg (· + k) hpos⟩⟩,
          hserves, ⟨rfl, rfl, rfl, rfl, rfl⟩, fun hnot => absurd hdir hnot⟩
        · exact ⟨hat.dir, hat.len, hat.flow, hat.touched, hat.frame, hat.tx, hat.pushed, hat.rx,
            hat.popped, hat.read⟩
        · have hout := (hfields.tx b hb).1
          rw [hdir] at hout
          cases hout
        · exact Option.some.inj (hb.symm.trans hbuf)
      · exact hsame
    · exact hsame

/-- The half of the handler that pops does too, if no more words are popped than there are. -/
theorem serveRx_ok (h : At t m p q) (hfields : Fields t m.sfc p q) {fifoWords : ℕ}
    (hlevel : t.dir = .dataIn → AtLeast fifoWords m.hw) :
  ∃ q', At t (serveRx m fifoWords) p q' ∧ Fields t (serveRx m fifoWords).sfc p q' ∧
    Serves m.hw (serveRx m fifoWords).hw ∧ Moves m.sfc (serveRx m fifoWords).sfc ∧
    (Room m.hw → Room (serveRx m fifoWords).hw)
  := by
  obtain ⟨q', hat, hf, hserves, hmoves, hsame⟩ := popReceived_ok h hfields hlevel
  have hroom (hm : Room m.hw) : Room (popReceived m fifoWords).hw := by
    by_cases hdir : t.dir = .dataIn
    · intro hwrite
      rw [hat.dir, hdir] at hwrite
      cases hwrite
    · rwa [hsame hdir]
  rw [serveRx]
  split
  · obtain ⟨hat', hserves', hsfc'⟩ := updateIntc_at hat fun intc => { intc with receReq := true }
    refine ⟨q', hat', hsfc' ▸ hf, hserves.trans hserves', hsfc' ▸ hmoves, fun hm => ?_⟩
    exact updateIntc_preserves (fun _ _ hstep => Room.step hstep) (fun _ _ hc => hc) (hroom hm) _
  · exact ⟨q', hat, hf, hserves, hmoves, hroom⟩

/-- Behind the end of a transfer, what is left of it is in the FIFO. -/
theorem popRest_ok (h : At t m p q) (hfields : Fields t m.sfc p q) (hclean : Clean m.hw) :
  ∃ q', At t (popRest m) p q' ∧ Fields t (popRest m).sfc p q' ∧ Serves m.hw (popRest m).hw ∧
    Moves m.sfc (popRest m).sfc ∧ (Room m.hw → Room (popRest m).hw) ∧
    (m.sfc.rxBuf ≠ none → q' = t.len)
  := by
  have hlt := t.len_lt
  rw [popRest]
  split
  · next hbuf => exact ⟨q, h, hfields, .refl, .refl _, id, fun hsome => absurd hbuf hsome⟩
  · next buf hbuf =>
    obtain ⟨hdir, rfl, hlen, hpos⟩ := hfields.rx buf hbuf
    obtain ⟨hle, hwhole, _⟩ := h.rx
    rw [hlen, hpos]
    split
    · next hmore =>
      have hread : m.hw.dir = .read := by rw [h.dir, hdir]; rfl
      have hplaced : m.hw.placed.length = (t.len + 3) / 4 := by
        have hmoved := hclean.2.1
        rw [moved, hread] at hmoved
        rw [eq_of_beq hmoved, wordCount, h.len]
      have hcount := congrArg List.length (h.flow.read hread)
      rw [List.length_append, hplaced, h.popped] at hcount
      have hfits : m.hw.fifo.length ≤ 64 := h.flow.level
      have hn : wordsFor (t.len - q) = (t.len - q + 3) / 4 := by
        rw [wordsFor, Nat.mod_eq_of_lt (by omega)]
      have hlevel : AtLeast (wordsFor (t.len - q)) m.hw := by
        refine ⟨hread, ?_⟩
        omega
      obtain ⟨hat, hserves, hsfc⟩ := readWords_at h hdir (fun _ => by omega) (by omega)
        (by omega) hn hlevel
      rw [← readRxfifo] at hat hserves hsfc
      rw [Nat.add_sub_cancel' hle] at hat
      simp only
      rw [hsfc]
      refine ⟨t.len, ?_, ⟨fun b hb => ?_, fun b hb => ⟨hdir, ?_, hlen, hlen⟩⟩,
        hserves, ⟨rfl, rfl, rfl, rfl, rfl⟩, fun _ hwrite => ?_, fun _ => rfl⟩
      · exact ⟨hat.dir, hat.len, hat.flow, hat.touched, hat.frame, hat.tx, hat.pushed, hat.rx,
          hat.popped, hat.read⟩
      · have hout := (hfields.tx b hb).1
        rw [hdir] at hout
        cases hout
      · exact Option.some.inj (hb.symm.trans hbuf)
      · rw [hat.dir, hdir] at hwrite
        cases hwrite
    · exact ⟨q, h, hfields, .refl, .refl _, id, fun _ => by omega⟩

theorem writeIntc_at (h : At t m p q) (intc : Status) : At t (writeIntc m intc) p q := by
  have hat := h.ticked
  refine ⟨hat.dir, hat.len, ?_, hat.touched, hat.frame, hat.tx, hat.pushed, hat.rx, hat.popped,
    hat.read⟩
  exact ⟨hat.flow.level, hat.flow.write, hat.flow.read, hat.flow.intact, hat.flow.ends⟩

/-- A bit of the status that is cleared has nothing to do with how far the transfer has come. -/
theorem writeScr_at (h : At t m p q) (bits : Status) : At t (writeScr m bits) p q := by
  have hat := h.ticked
  refine ⟨hat.dir, hat.len, ?_, hat.touched, hat.frame, hat.tx, hat.pushed, hat.rx, hat.popped,
    hat.read⟩
  refine ⟨hat.flow.level, hat.flow.write, hat.flow.read, hat.flow.intact, fun hends => ?_⟩
  exact hat.flow.ends (Bool.and_eq_true_iff.mp hends).1

/-- Only the fields of the driver differ. -/
theorem At.withSfc (h : At t m p q) (sfc : Sfc) : At t { m with sfc } p q :=
  ⟨h.dir, h.len, h.flow, h.touched, h.frame, h.tx, h.pushed, h.rx, h.popped, h.read⟩

theorem At.withBatches (h : At t m p q) (batches : List (List Event)) :
  At t { m with batches } p q
  := ⟨h.dir, h.len, h.flow, h.touched, h.frame, h.tx, h.pushed, h.rx, h.popped, h.read⟩

/-- The registers at the end of the handler. -/
theorem finish_hw (m : Machine) (sr : Status) (terminal : Bool) :
  (finish m sr terminal).hw =
    (tick (tick (writeScr (if terminal then tick (writeIntc m .all) else m) sr))).hw
  := by
  cases terminal <;> rfl

theorem finish_sfc (m : Machine) (sr : Status) (terminal : Bool) :
  (finish m sr terminal).sfc =
    if terminal then { m.sfc with active := false, completed := true } else m.sfc
  := by
  have hwritten (m : Machine) : (tick (tick (writeScr m sr))).sfc = m.sfc := by
    rw [tick_sfc, tick_sfc]
    exact tick_sfc m
  cases terminal with
  | true =>
      have hmasked : (tick (writeIntc m .all)).sfc = m.sfc := by
        rw [tick_sfc]
        exact tick_sfc m
      have hboth := hwritten (tick (writeIntc m .all))
      rw [hmasked] at hboth
      exact congrArg (fun sfc : Sfc => { sfc with active := false, completed := true }) hboth
  | false => exact hwritten m

/-- The end of the handler leaves the transfer where it is. -/
theorem finish_at (h : At t m p q) (sr : Status) (terminal : Bool) :
  At t (finish m sr terminal) p q
  := by
  cases terminal with
  | true => exact (writeScr_at (writeIntc_at h _).ticked sr).ticked.ticked.withSfc _
  | false => exact (writeScr_at h sr).ticked.ticked

/-- What is preserved by the steps of the controller, a change of the mask and the clearing of the
served bits, the end of the handler preserves. -/
theorem finish_preserves {P : Controller → Prop} (hstep : ∀ c c', Step c c' → P c → P c')
    (hmask : ∀ c intc, P c → P { c with intc }) {sr : Status}
    (hclear : ∀ c, P c → P { c with sr := c.sr.without sr }) (h : P m.hw) (terminal : Bool) :
  P (finish m sr terminal).hw
  := by
  have hmasked : P (if terminal then tick (writeIntc m .all) else m).hw := by
    split
    · exact tick_of_step hstep (hmask _ _ (tick_of_step hstep h))
    · exact h
  rw [finish_hw]
  exact tick_of_step hstep (tick_of_step hstep (hclear _ (tick_of_step hstep hmasked)))

/-- A request for words that has been served is cleared. -/
theorem finish_room {sr : Status} (h : sr.tranReq = true ∨ Room m.hw) (terminal : Bool) :
  Room (finish m sr terminal).hw
  := by
  rcases h with hserved | hroom
  · rw [finish_hw]
    apply tick_of_step fun _ _ hstep => Room.step hstep
    apply tick_of_step fun _ _ hstep => Room.step hstep
    intro _ hagain
    rw [writeScr, Status.without] at hagain
    simp only at hagain
    rw [hserved, Bool.not_true, Bool.and_false] at hagain
    cases hagain
  · apply finish_preserves (fun _ _ hstep => Room.step hstep) (fun _ _ hc => hc) ?_ hroom
    intro c hc hwrite hagain
    exact hc hwrite (Bool.and_eq_true_iff.mp hagain).1

/-- No fault is cleared that has not been served. -/
theorem finish_alert {sr : Status} (h : Alert m.hw) (hover : sr.overrun = false)
    (hunder : sr.underrun = false) (terminal : Bool) :
  Alert (finish m sr terminal).hw
  := by
  apply finish_preserves (fun _ _ hstep => Alert.step hstep) (fun _ _ hc => hc) ?_ h
  intro c hc hfaulted
  rcases hc hfaulted with hbit | hbit
  · exact .inl (by rw [Status.without, hbit, hover]; rfl)
  · exact .inr (by rw [Status.without, hbit, hunder]; rfl)

/-- A transfer that has ended without a fault stays so at the end of the handler. -/
theorem finish_clean (h : Clean m.hw) (sr : Status) (terminal : Bool) :
  Clean (finish m sr terminal).hw
  := finish_preserves (fun _ _ hstep => Clean.step hstep) (fun _ _ hc => hc) (fun _ hc => hc) h
    terminal

/-! ### The handler -/

/-- What holds between interrupts. -/
structure Between (t : Transfer) (m : Machine) (p q : ℕ) : Prop where
  place : At t m p q
  fields : Fields t m.sfc p q
  room : Room m.hw
  alert : m.sfc.active = true → Alert m.hw

/-- What an interrupt tells the thread: nothing, when no transfer is active or when it goes on, or
that the transfer has ended, and whether without a fault. -/
inductive Outcome (t : Transfer) (m m' : Machine) (q q' : ℕ) : Prop where
  | inactive (hactive : m.sfc.active = false) (hsfc : m'.sfc = m.sfc) (hpos : q' = q)
      (hclean : Clean m.hw → Clean m'.hw)
  | goesOn (hbefore : m.sfc.active = true) (hactive : m'.sfc.active = true)
      (hcompleted : m'.sfc.completed = m.sfc.completed)
      (htx : m'.sfc.txBuf = m.sfc.txBuf) (hrx : m'.sfc.rxBuf = m.sfc.rxBuf)
  | terminal (hbefore : m.sfc.active = true) (hactive : m'.sfc.active = false)
      (hcompleted : m'.sfc.completed = true)
      (htx : m'.sfc.txBuf = m.sfc.txBuf) (hrx : m'.sfc.rxBuf = m.sfc.rxBuf)
      (hok : m'.sfc.lastError = 0 → Clean m'.hw ∧ (m.sfc.rxBuf ≠ none → q' = t.len))

/-- A tick takes nothing of what holds between two interrupts. -/
theorem Between.ticked (h : Between t m p q) : Between t (tick m) p q := by
  refine ⟨h.place.ticked, ?_, tick_of_step (fun _ _ hstep => Room.step hstep) h.room, ?_⟩
  · rw [tick_sfc]
    exact h.fields
  · rw [tick_sfc]
    intro hactive
    exact tick_of_step (fun _ _ hstep => Alert.step hstep) (h.alert hactive)

/-- An interrupt while no transfer is active. -/
theorem clear_ok (h : Between t m p q) (hactive : m.sfc.active = false) (sr : Status) :
  Between t (tick (tick (writeScr m sr))) p q ∧
    Outcome t m (tick (tick (writeScr m sr))) q q
  := by
  have hsfc : (tick (tick (writeScr m sr))).sfc = m.sfc := by
    rw [tick_sfc, tick_sfc]
    exact tick_sfc m
  have hhw : (tick (tick (writeScr m sr))).hw = (finish m sr false).hw := rfl
  refine ⟨⟨(writeScr_at h.place sr).ticked.ticked, ?_, finish_room (.inr h.room) false, ?_⟩,
    .inactive hactive hsfc rfl fun hclean => ?_⟩
  · rw [hsfc]
    exact h.fields
  · rw [hsfc, hactive]
    intro hfalse
    cases hfalse
  · rw [hhw]
    exact finish_clean hclean sr false

/-- The handler with a status that it has read. -/
theorem serve_ok (h : Between t m p q) {sr : Status} (hsr : sr = m.hw.sr) {fifoWords : ℕ}
    (hfifo : fifoWords = m.hw.fifo.length) :
  let m₁ := if sr.tranReq then serveTx m else m
  let m₂ := if sr.receReq then serveRx m₁ fifoWords else m₁
  ∃ p' q', At t m₂ p' q' ∧ Fields t m₂.sfc p' q' ∧ (sr.tranReq = true ∨ Room m₂.hw) ∧
    Serves m.hw m₂.hw ∧ Moves m.sfc m₂.sfc
  := by
  obtain ⟨hat, hfields, hroom, _⟩ := h
  simp only
  have hlevel (hin : t.dir = .dataIn) : AtLeast fifoWords m.hw := by
    refine ⟨?_, Nat.le_of_eq hfifo⟩
    rw [hat.dir, hin]
    rfl
  have htx : ∃ p', At t (if sr.tranReq then serveTx m else m) p' q ∧
      Fields t (if sr.tranReq then serveTx m else m).sfc p' q ∧
      Serves m.hw (if sr.tranReq then serveTx m else m).hw ∧
      Moves m.sfc (if sr.tranReq then serveTx m else m).sfc ∧
      (sr.tranReq = true ∨ Room (if sr.tranReq then serveTx m else m).hw) ∧
      (t.dir = .dataIn → AtLeast fifoWords (if sr.tranReq then serveTx m else m).hw) := by
    cases hreq : sr.tranReq with
    | false => exact ⟨p, hat, hfields, .refl, .refl _, .inr hroom, hlevel⟩
    | true =>
        have hmost (hout : t.dir = .dataOut) : AtMost 1 m.hw := by
          have hwrite : m.hw.dir = .write := by rw [hat.dir, hout]; rfl
          exact ⟨hwrite, hroom hwrite (hsr ▸ hreq)⟩
        obtain ⟨p', hat', hfields', hserves, hmoves, hleast⟩ := serveTx_ok hat hfields hmost
        exact ⟨p', hat', hfields', hserves, hmoves, .inl rfl,
          fun hin => hleast fifoWords hin (hlevel hin)⟩
  obtain ⟨p', hat₁, hfields₁, hserves₁, hmoves₁, hroom₁, hlevel₁⟩ := htx
  generalize (if sr.tranReq then serveTx m else m) = m₁ at *
  cases sr.receReq with
  | false => exact ⟨p', q, hat₁, hfields₁, hroom₁, hserves₁, hmoves₁⟩
  | true =>
      obtain ⟨q', hat₂, hfields₂, hserves₂, hmoves₂, hroom₂⟩ := serveRx_ok hat₁ hfields₁ hlevel₁
      exact ⟨p', q', hat₂, hfields₂, hroom₁.imp id hroom₂, hserves₁.trans hserves₂,
        hmoves₁.trans hmoves₂⟩

/-- The end is read between interrupts. -/
theorem Between.noted (h : Between t m p q) : Between t (noteEnd m) p q := by
  obtain ⟨hat, hfields, hroom, halert⟩ := h
  refine ⟨⟨hat.dir, hat.len, ?_, hat.touched, hat.frame, hat.tx, hat.pushed, hat.rx, hat.popped,
    hat.read⟩, hfields, hroom, halert⟩
  exact ⟨hat.flow.level, hat.flow.write, hat.flow.read, hat.flow.intact, hat.flow.ends⟩

theorem noteEnd_clean (h : Clean m.hw) : Clean (noteEnd m).hw := by
  obtain ⟨hread, hmoved, hfaulted⟩ := h
  refine ⟨?_, hmoved, hfaulted⟩
  rw [noteEnd, hread]
  rfl

/-- The handler may note the end before it serves the words. -/
theorem Outcome.of_noted {m' : Machine} {q' : ℕ} (h : Outcome t (noteEnd (tick m)) m' q q') :
  Outcome t m m' q q'
  := by
  have hsfc : (noteEnd (tick m)).sfc = m.sfc := tick_sfc m
  cases h with
  | inactive hactive hsame hpos hclean =>
      rw [hsfc] at hactive hsame
      refine .inactive hactive hsame hpos fun hm => hclean (noteEnd_clean ?_)
      exact tick_of_step (fun _ _ hstep => Clean.step hstep) hm
  | goesOn hbefore hactive hcompleted htx hrx =>
      rw [hsfc] at hbefore hcompleted htx hrx
      exact .goesOn hbefore hactive hcompleted htx hrx
  | terminal hbefore hactive hcompleted htx hrx hok =>
      rw [hsfc] at hbefore htx hrx hok
      exact .terminal hbefore hactive hcompleted htx hrx hok

/-- A transfer without a fault whose end has been read is done. -/
theorem Between.clean (h : Between t m p q) (hactive : m.sfc.active = true)
    (hread : m.hw.endRead = true) (hends : m.hw.sr.ends = true) (hover : m.hw.sr.overrun = false)
    (hunder : m.hw.sr.underrun = false) :
  Clean m.hw
  := by
  refine ⟨hread, h.place.flow.ends hends, ?_⟩
  rw [← Bool.not_eq_true]
  intro hfaulted
  rcases h.alert hactive hfaulted with hbit | hbit
  · rw [hover] at hbit
    cases hbit
  · rw [hunder] at hbit
    cases hbit

/-- The end of a transfer, with or without a fault. -/
theorem finish_terminal (hat : At t m p q) (hfields : Fields t m.sfc p q) (sr : Status)
    (hroom : sr.tranReq = true ∨ Room m.hw) :
  Between t (finish m sr true) p q ∧
    (finish m sr true).sfc = { m.sfc with active := false, completed := true }
  := by
  have hsfc := finish_sfc m sr true
  refine ⟨⟨finish_at hat sr true, ?_, finish_room hroom true, fun hactive => ?_⟩, hsfc⟩
  · rw [hsfc]
    exact ⟨hfields.tx, hfields.rx⟩
  · rw [hsfc] at hactive
    cases hactive

/-- One interrupt, whatever the status it reads: what holds before it holds behind it. -/
theorem irqHandler_ok (h : Between t m p q) :
  ∃ p' q', Between t (irqHandler m) p' q' ∧ Outcome t m (irqHandler m) q q'
  := by
  suffices hsampled : ∃ p' q', Between t (irqHandler m) p' q' ∧
      Outcome t (noteEnd (tick m)) (irqHandler m) q q' by
    obtain ⟨p', q', hbetween, houtcome⟩ := hsampled
    exact ⟨p', q', hbetween, houtcome.of_noted⟩
  have h₁ := h.ticked.noted
  have hread (hends : (noteEnd (tick m)).hw.sr.ends = true) :
      (noteEnd (tick m)).hw.endRead = true := Bool.or_eq_true_iff.mpr (.inr hends)
  rw [irqHandler, readSr]
  simp only
  generalize noteEnd (tick m) = m₁ at *
  have hlevel : m₁.hw.fifo.length % 128 = m₁.hw.fifo.length := by
    have hle : m₁.hw.fifo.length ≤ 64 := h₁.place.flow.level
    exact Nat.mod_eq_of_lt (by omega)
  rw [hlevel]
  split
  · -- No bit of the status is set.
    refine ⟨p, q, h₁, ?_⟩
    cases hactive : m₁.sfc.active with
    | false => exact .inactive hactive rfl rfl id
    | true => exact .goesOn hactive hactive rfl rfl rfl
  · split
    · next hnot =>
      rw [Bool.not_eq_true'] at hnot
      exact ⟨p, q, clear_ok h₁ hnot _⟩
    · next hnot =>
      have hactive : m₁.sfc.active = true := by
        rw [Bool.not_eq_true', Bool.not_eq_false] at hnot
        exact hnot
      split
      · -- An overrun or an underrun ends the transfer.
        obtain ⟨hbetween, hsfc⟩ := @finish_terminal t { m₁ with sfc := { m₁.sfc with lastError := eio } }
          p q (h₁.place.withSfc _) ⟨h₁.fields.tx, h₁.fields.rx⟩ m₁.hw.sr (.inr h₁.room)
        refine ⟨p, q, hbetween, .terminal hactive ?_ ?_ ?_ ?_ ?_⟩ <;> rw [hsfc]
        intro hzero
        cases hzero
      · next hfault =>
        obtain ⟨hover, hunder⟩ := Bool.or_eq_false_iff.mp (Bool.not_eq_true _ ▸ hfault)
        obtain ⟨p', q', hat, hfields, hroom, hserves, hmoves⟩ := serve_ok h₁ rfl rfl
        split
        · next hends =>
          -- The end of the transfer, at which the rest is popped.
          have hclean := hserves.clean (h₁.clean hactive (hread hends) hends hover hunder)
          obtain ⟨q₂, hat₂, hfields₂, hserves₂, hmoves₂, hroom₂, hrest⟩ :=
            popRest_ok hat hfields hclean
          generalize (if m₁.hw.sr.receReq then _ else _) = m₂ at *
          obtain ⟨hbetween, hsfc⟩ := @finish_terminal t (serveEnd m₂)
            p' q₂ (hat₂.withSfc _) ⟨hfields₂.tx, hfields₂.rx⟩ m₁.hw.sr (hroom.imp id hroom₂)
          refine ⟨p', q₂, hbetween, .terminal hactive ?_ ?_ ?_ ?_ fun _ => ⟨?_, ?_⟩⟩
          · rw [hsfc]
          · rw [hsfc]
          · rw [hsfc]
            exact hmoves₂.txBuf.trans hmoves.txBuf
          · rw [hsfc]
            exact hmoves₂.rxBuf.trans hmoves.rxBuf
          · exact @finish_clean (serveEnd m₂) (hserves₂.clean hclean) m₁.hw.sr true
          · rw [← hmoves.rxBuf]
            exact hrest
        · generalize (if m₁.hw.sr.receReq then _ else _) = m₂ at *
          have hsfc := finish_sfc m₂ m₁.hw.sr false
          have halert := finish_alert (hserves.alert (h₁.alert hactive)) hover hunder false
          refine ⟨p', q', ⟨finish_at hat _ _, ?_, finish_room hroom _, fun _ => halert⟩,
            .goesOn hactive ?_ ?_ ?_ ?_⟩
          · rw [hsfc]
            exact hfields
          · rw [hsfc]
            exact hmoves.active.trans hactive
          · rw [hsfc]
            exact hmoves.completed
          · rw [hsfc]
            exact hmoves.txBuf
          · rw [hsfc]
            exact hmoves.rxBuf

end

/-! ### Positions -/

/-- A position does not move past its length. -/
structure NotPast (sfc sfc' : Sfc) : Prop where
  txLen : sfc'.txLen = sfc.txLen
  rxLen : sfc'.rxLen = sfc.rxLen
  txPos : sfc'.txPos = sfc.txPos ∨ sfc'.txPos ≤ sfc.txLen
  rxPos : sfc'.rxPos = sfc.rxPos ∨ sfc'.rxPos ≤ sfc.rxLen

/-- Nothing has gone past its length. -/
theorem NotPast.refl (sfc : Sfc) : NotPast sfc sfc := ⟨rfl, rfl, .inl rfl, .inl rfl⟩

theorem NotPast.trans {sfc₀ sfc₁ sfc₂ : Sfc} (h : NotPast sfc₀ sfc₁) (h' : NotPast sfc₁ sfc₂) :
  NotPast sfc₀ sfc₂
  := by
  refine ⟨h'.txLen.trans h.txLen, h'.rxLen.trans h.rxLen, ?_, ?_⟩
  · rcases h'.txPos with hsame | hle
    · rw [hsame]
      exact h.txPos
    · exact .inr (h.txLen ▸ hle)
  · rcases h'.rxPos with hsame | hle
    · rw [hsame]
      exact h.rxPos
    · exact .inr (h.rxLen ▸ hle)

@[simp] theorem readDr_sfc (m : Machine) : (readDr m).1.sfc = m.sfc := by
  rw [readDr]
  split
  · exact tick_sfc m
  · exact tick_sfc m

@[simp] theorem writeWords_sfc (n : ℕ) (m : Machine) (src : BitVec 32) (len : ℕ) :
  (writeWords n m src len).sfc = m.sfc
  := by
  induction n generalizing m src len with
  | zero => rfl
  | succ n ih =>
      rw [writeWords]
      simp only
      rw [ih]
      exact tick_sfc _

@[simp] theorem readWords_sfc (n : ℕ) (m : Machine) (dst : BitVec 32) (len : ℕ) :
  (readWords n m dst len).sfc = m.sfc
  := by
  induction n generalizing m dst len with
  | zero => rfl
  | succ n ih =>
      rw [readWords]
      simp only
      rw [ih]
      exact readDr_sfc m

/-- No more is pushed than there is, since every round is cut to what is left. -/
theorem pushRequested_notPast (m : Machine) : NotPast m.sfc (pushRequested m).sfc := by
  rw [pushRequested]
  split
  · exact .refl _
  · split
    · next hmore =>
      simp only
      rw [writeTxfifo, writeWords_sfc]
      refine ⟨rfl, rfl, .inr ?_, .inl rfl⟩
      exact Nat.le_trans (Nat.add_le_add_left (Nat.min_le_left _ _) _) (by omega)
    · exact .refl _

/-- No more is popped than there is. -/
theorem popReceived_notPast (m : Machine) (fifoWords : ℕ) :
  NotPast m.sfc (popReceived m fifoWords).sfc
  := by
  rw [popReceived]
  split
  · exact .refl _
  · split
    · next hmore =>
      simp only
      split
      · rw [readRxfifo, readWords_sfc]
        refine ⟨rfl, rfl, .inl rfl, .inr ?_⟩
        exact Nat.le_trans (Nat.add_le_add_left (Nat.min_le_left _ _) _) (by omega)
      · exact .refl _
    · exact .refl _

/-- The rest is popped up to the end. -/
theorem popRest_notPast (m : Machine) : NotPast m.sfc (popRest m).sfc := by
  rw [popRest]
  split
  · exact .refl _
  · split
    · simp only
      rw [readRxfifo, readWords_sfc]
      exact ⟨rfl, rfl, .inl rfl, .inr (Nat.le_refl _)⟩
    · exact .refl _

theorem updateIntc_sfc (m : Machine) (f : Status → Status) : (updateIntc m f).sfc = m.sfc :=
  (tick_sfc _).trans (tick_sfc m)

theorem serveTx_notPast (m : Machine) : NotPast m.sfc (serveTx m).sfc := by
  rw [serveTx]
  split
  · rw [updateIntc_sfc]
    exact pushRequested_notPast m
  · exact pushRequested_notPast m

theorem serveRx_notPast (m : Machine) (fifoWords : ℕ) :
  NotPast m.sfc (serveRx m fifoWords).sfc
  := by
  rw [serveRx]
  split
  · rw [updateIntc_sfc]
    exact popReceived_notPast m fifoWords
  · exact popReceived_notPast m fifoWords

/-- The end of the handler moves no position. -/
theorem finish_notPast (m : Machine) (sr : Status) (terminal : Bool) :
  NotPast m.sfc (finish m sr terminal).sfc
  := by
  rw [finish_sfc]
  split
  · exact ⟨rfl, rfl, .inl rfl, .inl rfl⟩
  · exact .refl _

/-- Whatever the fields, the handler does not move a position past its length. -/
theorem irqHandler_notPast (m : Machine) : NotPast m.sfc (irqHandler m).sfc := by
  have htick : NotPast m.sfc (noteEnd (tick m)).sfc := by
    rw [noteEnd, tick_sfc]
    exact .refl _
  rw [irqHandler, readSr]
  simp only
  refine htick.trans ?_
  generalize noteEnd (tick m) = m₁ at *
  split
  · exact .refl _
  · split
    · rw [tick_sfc, tick_sfc, writeScr]
      simp only
      rw [tick_sfc]
      exact .refl _
    · split
      · refine NotPast.trans ?_ (finish_notPast _ _ _)
        exact ⟨rfl, rfl, .inl rfl, .inl rfl⟩
      · have htx : NotPast m₁.sfc (if m₁.hw.sr.tranReq then serveTx m₁ else m₁).sfc := by
          split
          · exact serveTx_notPast m₁
          · exact .refl _
        generalize (if m₁.hw.sr.tranReq then serveTx m₁ else m₁) = m₂ at *
        generalize m₁.hw.fifo.length % 128 = n
        have hrx : NotPast m₁.sfc (if m₁.hw.sr.receReq then serveRx m₂ n else m₂).sfc := by
          split
          · exact htx.trans (serveRx_notPast m₂ n)
          · exact htx
        generalize (if m₁.hw.sr.receReq then serveRx m₂ n else m₂) = m₃ at *
        have hend : NotPast m₁.sfc (serveEnd m₃).sfc :=
          hrx.trans ((popRest_notPast m₃).trans ⟨rfl, rfl, .inl rfl, .inl rfl⟩)
        split
        · exact hend.trans (finish_notPast _ _ _)
        · exact hrx.trans (finish_notPast _ _ _)

end IngenicSfc

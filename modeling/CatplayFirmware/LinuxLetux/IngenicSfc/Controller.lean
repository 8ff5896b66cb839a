import CatplayFirmware.Support.Runs
import Mathlib.Tactic.Common

/-!
# The flash controller

The controller moves words between the flash and a FIFO: when it writes, it takes them from the
FIFO in order, and when it reads, it places those that come from the flash in it. It raises the
bits of its status at any time, but the end of a transfer only when all words are moved, and the
request for words only when all but one fit.
-/

namespace IngenicSfc

abbrev Word := BitVec 32

/-- `max_fifo_words`, of every chip. -/
def maxFifoWords : ℕ := 64

/-- Bits of `SFC_REG_SR`, and those of `SFC_REG_SCR` and `SFC_REG_INTC` for them. -/
structure Status where
  ends : Bool
  tranReq : Bool
  receReq : Bool
  overrun : Bool
  underrun : Bool
  deriving DecidableEq

namespace Status

/-- No bit. -/
def none : Status := ⟨false, false, false, false, false⟩

def all : Status := ⟨true, true, true, true, true⟩

def any (s : Status) : Bool := s.ends || s.tranReq || s.receReq || s.overrun || s.underrun

/-- The bits of one that are not in the other. -/
def without (s t : Status) : Status where
  ends := s.ends && !t.ends
  tranReq := s.tranReq && !t.tranReq
  receReq := s.receReq && !t.receReq
  overrun := s.overrun && !t.overrun
  underrun := s.underrun && !t.underrun

end Status

/-- `GLB_TRAN_DIR_MASK`. -/
inductive TranDir where
  | read
  | write
  deriving DecidableEq

/-- The controller in a transfer of a number of bytes, with the words that are still to come from
the flash, those that are placed in the FIFO or taken from it, and those that the processor has
pushed or popped. -/
structure Controller where
  dir : TranDir
  len : ℕ
  fifo : List Word
  sr : Status
  intc : Status
  line : List Word
  placed : List Word
  taken : List Word
  pushed : List Word
  popped : List Word
  /-- The handler has read the end of the transfer from the status. -/
  endRead : Bool
  /-- An overrun or an underrun has been raised before that. -/
  faulted : Bool
  /-- What is read from an empty FIFO. -/
  stale : Word
  deriving DecidableEq

namespace Controller

/-- A word for every four bytes, and one for what is left. -/
def wordCount (c : Controller) : ℕ := (c.len + 3) / 4

/-- All words of the transfer are placed in the FIFO or taken from it. -/
def moved (c : Controller) : Bool :=
  match c.dir with
  | .read => c.placed.length == c.wordCount
  | .write => c.taken.length == c.wordCount

/-- What the controller does on its own. -/
inductive Event where
  | take
  | place
  | tranReq
  | receReq
  | ends
  | overrun
  | underrun
  deriving DecidableEq

/-- What the controller does on its own, when it can. A word that comes while the FIFO is full is
lost. -/
def apply (c : Controller) : Event → Controller
  | .take =>
    match c.dir, c.fifo with
    | .write, w :: fifo => if c.moved then c else { c with fifo, taken := c.taken ++ [w] }
    | _, _ => c
  | .place =>
    match c.dir, c.line with
    | .read, w :: line =>
      if c.moved then c
      else if c.fifo.length < maxFifoWords then
        { c with line, fifo := c.fifo ++ [w], placed := c.placed ++ [w] }
      else { c with line, sr := { c.sr with overrun := true }, faulted := true }
    | _, _ => c
  | .tranReq =>
    if c.fifo.length + (maxFifoWords - 1) ≤ maxFifoWords then
      { c with sr := { c.sr with tranReq := true } }
    else c
  | .receReq => { c with sr := { c.sr with receReq := true } }
  | .ends =>
    if c.moved then { c with sr := { c.sr with ends := true } } else c
  | .overrun => { c with sr := { c.sr with overrun := true }, faulted := c.faulted || !c.endRead }
  | .underrun => { c with sr := { c.sr with underrun := true }, faulted := c.faulted || !c.endRead }

/-- The controller runs on its own. -/
def run (c : Controller) (events : List Event) : Controller := events.foldl apply c

/-! ### Steps -/

/-- A step that the controller can take on its own. -/
inductive Step (c : Controller) : Controller → Prop where
  | idle : Step c c
  | take {w : Word} {fifo : List Word} (hdir : c.dir = .write) (hmoved : c.moved = false)
      (hfifo : c.fifo = w :: fifo) : Step c { c with fifo, taken := c.taken ++ [w] }
  | place {w : Word} {line : List Word} (hdir : c.dir = .read) (hmoved : c.moved = false)
      (hline : c.line = w :: line) (hroom : c.fifo.length < maxFifoWords) :
      Step c { c with line, fifo := c.fifo ++ [w], placed := c.placed ++ [w] }
  | lose {w : Word} {line : List Word} (hdir : c.dir = .read) (hmoved : c.moved = false)
      (hline : c.line = w :: line) :
      Step c { c with line, sr := { c.sr with overrun := true }, faulted := true }
  | tranReq (hfits : c.fifo.length ≤ 1) : Step c { c with sr := { c.sr with tranReq := true } }
  | receReq : Step c { c with sr := { c.sr with receReq := true } }
  | ends (hmoved : c.moved = true) : Step c { c with sr := { c.sr with ends := true } }
  | overrun :
      Step c { c with sr := { c.sr with overrun := true }, faulted := c.faulted || !c.endRead }
  | underrun :
      Step c { c with sr := { c.sr with underrun := true }, faulted := c.faulted || !c.endRead }

/-- Every event is a step, or nothing. -/
theorem step_apply (c : Controller) (e : Event) : Step c (c.apply e) := by
  cases e with
  | take =>
      rw [apply]
      split
      · next hdir hfifo =>
        split
        · exact .idle
        · next hmoved => exact .take hdir (Bool.not_eq_true _ ▸ hmoved) hfifo
      · exact .idle
  | place =>
      rw [apply]
      split
      · next hdir hline =>
        split
        · exact .idle
        · next hmoved =>
          split
          · next hroom => exact .place hdir (Bool.not_eq_true _ ▸ hmoved) hline hroom
          · exact .lose hdir (Bool.not_eq_true _ ▸ hmoved) hline
      · exact .idle
  | tranReq =>
      have hwords : maxFifoWords = 64 := rfl
      rw [apply]
      split
      · exact .tranReq (by omega)
      · exact .idle
  | receReq => exact .receReq
  | ends =>
      rw [apply]
      split
      · next hmoved => exact .ends hmoved
      · exact .idle
  | overrun => exact .overrun
  | underrun => exact .underrun

/-- What every step preserves holds however the controller runs. -/
theorem run_of_step {P : Controller → Prop} (hstep : ∀ c c', Step c c' → P c → P c')
    {c : Controller} (h : P c) (events : List Event) :
  P (c.run events)
  := Runs.invariant_foldl (fun c e => hstep c (c.apply e) (step_apply c e)) h events

/-! ### What holds of every run -/

/-- The words are in order, and none is lost but by an overrun. Those of `data` are the ones that
come from the flash. -/
structure Flow (data : List Word) (c : Controller) : Prop where
  level : c.fifo.length ≤ maxFifoWords
  write : c.dir = .write → c.pushed = c.taken ++ c.fifo
  read : c.dir = .read → c.placed = c.popped ++ c.fifo
  intact : c.dir = .read → c.faulted = false → c.placed ++ c.line = data
  ends : c.sr.ends = true → c.moved = true

/-- No step takes the words out of order. -/
theorem Flow.step {data : List Word} {c c' : Controller} (hstep : Step c c') (h : Flow data c) :
  Flow data c'
  := by
  have hnotEnds (hmoved : c.moved = false) : ¬ c.sr.ends = true := by
    intro hends
    rw [h.ends hends] at hmoved
    cases hmoved
  cases hstep with
  | idle => exact h
  | take hdir hmoved hfifo =>
      constructor
      · have hlevel := h.level
        rw [hfifo, List.length_cons] at hlevel
        exact Nat.le_of_succ_le hlevel
      · intro _
        have hwrite := h.write hdir
        rwa [hfifo, List.append_cons] at hwrite
      · intro hread
        rw [hdir] at hread
        cases hread
      · exact h.intact
      · intro hends
        exact absurd hends (hnotEnds hmoved)
  | place hdir hmoved hline hroom =>
      constructor
      · rw [List.length_append, List.length_singleton]
        exact hroom
      · intro hwrite
        rw [hdir] at hwrite
        cases hwrite
      · intro _
        simp only
        rw [h.read hdir, List.append_assoc]
      · intro _ hfaulted
        have hintact := h.intact hdir hfaulted
        rwa [hline, List.append_cons] at hintact
      · intro hends
        exact absurd hends (hnotEnds hmoved)
  | lose hdir hmoved hline =>
      constructor
      · exact h.level
      · exact h.write
      · exact h.read
      · intro _ hfaulted
        cases hfaulted
      · exact h.ends
  | tranReq hfits => exact ⟨h.level, h.write, h.read, h.intact, h.ends⟩
  | receReq => exact ⟨h.level, h.write, h.read, h.intact, h.ends⟩
  | ends hmoved => exact ⟨h.level, h.write, h.read, h.intact, fun _ => hmoved⟩
  | overrun =>
      refine ⟨h.level, h.write, h.read, fun hread hfaulted => ?_, h.ends⟩
      exact h.intact hread (Bool.or_eq_false_iff.mp hfaulted).1
  | underrun =>
      refine ⟨h.level, h.write, h.read, fun hread hfaulted => ?_, h.ends⟩
      exact h.intact hread (Bool.or_eq_false_iff.mp hfaulted).1

/-- What the controller does not change on its own. -/
structure SameTransfer (c c' : Controller) : Prop where
  dir : c'.dir = c.dir
  len : c'.len = c.len
  intc : c'.intc = c.intc
  pushed : c'.pushed = c.pushed
  popped : c'.popped = c.popped

/-- What the processor has set is left alone. -/
theorem sameTransfer_run (c : Controller) (events : List Event) :
  SameTransfer c (c.run events)
  := by
  refine run_of_step (P := SameTransfer c) (fun c₁ c₂ hstep h => ?_) ⟨rfl, rfl, rfl, rfl, rfl⟩
    events
  cases hstep <;> exact ⟨h.dir, h.len, h.intc, h.pushed, h.popped⟩

/-- A fault is in the status until it is cleared. -/
def Alert (c : Controller) : Prop := c.faulted = true → c.sr.overrun = true ∨ c.sr.underrun = true

/-- A fault is put into the status with it. -/
theorem Alert.step {c c' : Controller} (hstep : Step c c') (h : Alert c) : Alert c' := by
  cases hstep with
  | idle => exact h
  | take hdir hmoved hfifo => exact h
  | place hdir hmoved hline hroom => exact h
  | lose hdir hmoved hline => exact fun _ => .inl rfl
  | tranReq hfits => exact h
  | receReq => exact h
  | ends hmoved => exact h
  | overrun => exact fun _ => .inl rfl
  | underrun => exact fun _ => .inr rfl

/-- While words are requested, all but one fit. -/
def Room (c : Controller) : Prop :=
  c.dir = .write → c.sr.tranReq = true → c.fifo.length ≤ 1

theorem Room.step {c c' : Controller} (hstep : Step c c') (h : Room c) : Room c' := by
  cases hstep with
  | idle => exact h
  | take hdir hmoved hfifo =>
      intro _ htranReq
      have hlevel := h hdir htranReq
      rw [hfifo, List.length_cons] at hlevel
      exact Nat.le_of_succ_le hlevel
  | place hdir hmoved hline hroom =>
      intro hwrite
      rw [hdir] at hwrite
      cases hwrite
  | lose hdir hmoved hline => exact h
  | tranReq hfits => exact fun _ _ => hfits
  | receReq => exact h
  | ends hmoved => exact h
  | overrun => exact h
  | underrun => exact h

/-- The end of the transfer has been read without a fault. -/
def Clean (c : Controller) : Prop := c.endRead = true ∧ c.moved = true ∧ c.faulted = false

/-- What the controller raises behind the end is not a fault before it. -/
theorem Clean.step {c c' : Controller} (hstep : Step c c') (h : Clean c) : Clean c' := by
  obtain ⟨hread, hmoved, hfaulted⟩ := h
  cases hstep with
  | idle => exact ⟨hread, hmoved, hfaulted⟩
  | take hdir hnot hfifo =>
      rw [hmoved] at hnot
      cases hnot
  | place hdir hnot hline hroom =>
      rw [hmoved] at hnot
      cases hnot
  | lose hdir hnot hline =>
      rw [hmoved] at hnot
      cases hnot
  | tranReq hfits => exact ⟨hread, hmoved, hfaulted⟩
  | receReq => exact ⟨hread, hmoved, hfaulted⟩
  | ends hmoved => exact ⟨hread, hmoved, hfaulted⟩
  | overrun => exact ⟨hread, hmoved, by rw [hread, hfaulted]; rfl⟩
  | underrun => exact ⟨hread, hmoved, by rw [hread, hfaulted]; rfl⟩

/-- A FIFO that is written to does not fill up, and one that is read does not get empty, by what
the controller does. -/
def AtMost (n : ℕ) (c : Controller) : Prop := c.dir = .write ∧ c.fifo.length ≤ n

/-- The words that the processor may pop. -/
def AtLeast (n : ℕ) (c : Controller) : Prop := c.dir = .read ∧ n ≤ c.fifo.length

/-- The controller only takes words out of the FIFO while it writes. -/
theorem AtMost.step {n : ℕ} {c c' : Controller} (hstep : Step c c') (h : AtMost n c) :
  AtMost n c'
  := by
  obtain ⟨hwrite, hlevel⟩ := h
  cases hstep with
  | take hdir hmoved hfifo =>
      rw [hfifo, List.length_cons] at hlevel
      exact ⟨hwrite, Nat.le_of_succ_le hlevel⟩
  | place hdir hmoved hline hroom =>
      rw [hdir] at hwrite
      cases hwrite
  | _ => exact ⟨hwrite, hlevel⟩

/-- The controller only puts words into the FIFO while it reads. -/
theorem AtLeast.step {n : ℕ} {c c' : Controller} (hstep : Step c c') (h : AtLeast n c) :
  AtLeast n c'
  := by
  obtain ⟨hread, hlevel⟩ := h
  cases hstep with
  | take hdir hmoved hfifo =>
      rw [hdir] at hread
      cases hread
  | place hdir hmoved hline hroom =>
      refine ⟨hread, ?_⟩
      rw [List.length_append]
      exact Nat.le_add_right_of_le hlevel
  | _ => exact ⟨hread, hlevel⟩

end Controller

end IngenicSfc

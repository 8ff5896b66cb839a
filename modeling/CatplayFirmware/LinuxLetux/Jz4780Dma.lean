import CatplayFirmware.Support.Processes
import CatplayFirmware.Support.Runs
import Mathlib.Tactic.Common

/-!
# The clock of the DMA controller

Every channel with a transfer holds a reference to the clock of the controller. The reference is
released at the end of the interrupt handler, or by a worker after a termination. A section under
the lock of a channel is one step. What the registers hold is left out: a log keeps the count of
the clock at the accesses to the registers of the controller and of the channels.
-/

namespace Jz4780Dma

/-- Where the work `clk_disable_work` of a channel is. -/
inductive Work where
  | idle
  | synchronize
  | lock
  deriving DecidableEq

/-- A channel with descriptors `δ`. The calls of `jz4780_dma_terminate_all` that still have to
schedule the work are counted. -/
structure Chan (δ : Type*) where
  desc : Option δ
  submitted : List δ
  issued : List δ
  clkEnabled : Bool
  terminating : ℕ
  workPending : Bool
  work : Work

/-- Where the interrupt handler is. From the first loop on it keeps the channels that are idle. -/
inductive Handler (ι : Type*) where
  | idle
  | entered
  | scanning (pending idle : List ι)
  | clearing (idle : List ι)
  | acking (idle : List ι)
  | releasing (idle : List ι)

/-- The channels, how often the clock is enabled, the handler, and what has been accessed so far. -/
structure Dma (ι δ : Type*) where
  chans : ι → Chan δ
  enableCount : ℤ
  handler : Handler ι
  accesses : List ℤ

/-- What a section under the lock of a channel works on. -/
structure Section (δ : Type*) where
  chan : Chan δ
  enableCount : ℤ
  accesses : List ℤ

/-! ### The sections -/

namespace Section

variable {δ : Type*}

/-- Registers are read or written. -/
def access (s : Section δ) : Section δ := { s with accesses := s.accesses ++ [s.enableCount] }

/-- `jz4780_dma_chan_enable` and `jz4780_dma_chan_disable`, which write only on controllers with
clocks for the channels. -/
def chanGate (perChanPm : Bool) (s : Section δ) : Section δ := if perChanPm then s.access else s

/-- `jz4780_dma_clk_enable`, where `clk_enable` returns `ret`. -/
def clkEnable (ret : ℤ) (s : Section δ) : Section δ × ℤ :=
  if s.chan.clkEnabled then (s, 0)
  else if ret = 0 then
    ({ s with chan := { s.chan with clkEnabled := true }, enableCount := s.enableCount + 1 }, 0)
  else (s, ret)

/-- `jz4780_dma_clk_disable`. -/
def clkDisable (s : Section δ) : Section δ :=
  if !s.chan.clkEnabled then s
  else
    let s := s.access
    { s with chan := { s.chan with clkEnabled := false }, enableCount := s.enableCount - 1 }

/-- `jz4780_dma_begin` on a channel without a transfer, which takes the next descriptor that has
been issued. -/
def begin (perChanPm : Bool) (s : Section δ) : Section δ :=
  match s.chan.issued with
  | [] => s
  | d :: issued =>
    (chanGate perChanPm { s with chan := { s.chan with desc := some d, issued } }).access

/-- `vchan_issue_pending`, which says whether there are descriptors that have been issued. -/
def vchanIssuePending (s : Section δ) : Section δ × Bool :=
  let issued := s.chan.issued ++ s.chan.submitted
  ({ s with chan := { s.chan with issued, submitted := [] } }, !issued.isEmpty)

/-- `jz4780_dma_issue_pending`. -/
def issuePending (perChanPm : Bool) (ret : ℤ) (s : Section δ) : Section δ :=
  let (s, issued) := s.vchanIssuePending
  if issued && s.chan.desc.isNone then
    let (s, ret) := s.clkEnable ret
    if ret ≠ 0 then s else s.begin perChanPm
  else s

/-- The section of `jz4780_dma_terminate_all`. -/
def terminateAll (perChanPm : Bool) (s : Section δ) : Section δ :=
  let clockEnabled := s.chan.clkEnabled
  let s := if clockEnabled then s.access.chanGate perChanPm else s
  { s with chan := { s.chan with
      desc := none
      submitted := []
      issued := []
      terminating := s.chan.terminating + clockEnabled.toNat } }

/-- The section of `jz4780_dma_clk_disable_work`. -/
def clkDisableWork (s : Section δ) : Section δ :=
  let s := if s.chan.desc.isNone then s.clkDisable else s
  { s with chan := { s.chan with work := .idle } }

/-- `jz4780_dma_chan_irq`, where the transfer may be completed, and `idle`. -/
def chanIrq (perChanPm completed : Bool) (s : Section δ) : Section δ × Bool :=
  let s := s.access
  let s :=
    if s.chan.desc.isSome && completed then
      begin perChanPm { s with chan := { s.chan with desc := none } }
    else s
  (s, s.chan.desc.isNone)

/-- The section at the end of `jz4780_dma_irq_handler`. -/
def release (perChanPm : Bool) (s : Section δ) : Section δ :=
  if s.chan.desc.isNone then (s.chanGate perChanPm).clkDisable else s

end Section

/-! ### The system -/

/-- A step of a client, of a worker or of the handler. The clock may fail to be enabled, any
channels may be pending, and a transfer may be completed or not when its channel is. -/
inductive Event (ι δ : Type*) where
  | submit (i : ι) (d : δ)
  | issuePending (i : ι) (ret : ℤ)
  | terminateAll (i : ι)
  | scheduleWork (i : ι)
  | work (i : ι)
  | irq
  | handler (pending : List ι) (completed : Bool)

section

variable {ι δ : Type*} [DecidableEq ι]

/-- The state after a section under the lock of a channel. -/
def Dma.locked (s : Dma ι δ) (i : ι) (l : Section δ) : Dma ι δ :=
  { s with
    chans := Function.update s.chans i l.chan
    enableCount := l.enableCount
    accesses := l.accesses }

/-- What a section under the lock of a channel finds. -/
def Dma.lock (s : Dma ι δ) (i : ι) : Section δ := ⟨s.chans i, s.enableCount, s.accesses⟩

/-- A channel is replaced. -/
def Dma.setChan (s : Dma ι δ) (i : ι) (chan : Chan δ) : Dma ι δ :=
  { s with chans := Function.update s.chans i chan }

/-- The handler reads or writes registers outside of the locks. -/
def Dma.access (s : Dma ι δ) : Dma ι δ := { s with accesses := s.accesses ++ [s.enableCount] }

/-- The next step of the worker of a channel. -/
def clkDisableWork (s : Dma ι δ) (i : ι) : Dma ι δ :=
  let chan := s.chans i
  match chan.work with
  | .idle =>
    if chan.workPending then s.setChan i { chan with workPending := false, work := .synchronize }
    else s
  | .synchronize =>
    match s.handler with
    | .idle => s.setChan i { chan with work := .lock }
    | _ => s
  | .lock => s.locked i (s.lock i).clkDisableWork

/-- The next step of `jz4780_dma_irq_handler`. -/
def irqHandler (perChanPm : Bool) (s : Dma ι δ) (pending : List ι) (completed : Bool) : Dma ι δ :=
  match s.handler with
  | .idle => s
  | .entered => { s.access with handler := .scanning pending [] }
  | .scanning (i :: todo) idle =>
    let (l, chanIdle) := (s.lock i).chanIrq perChanPm completed
    { s.locked i l with handler := .scanning todo (if chanIdle then idle ++ [i] else idle) }
  | .scanning [] idle => { s.access with handler := .clearing idle }
  | .clearing idle => { s.access with handler := .acking idle }
  | .acking idle => { s.access with handler := .releasing idle }
  | .releasing (i :: idle) =>
    { s.locked i ((s.lock i).release perChanPm) with handler := .releasing idle }
  | .releasing [] => { s with handler := .idle }

/-- What an event does to the controller. -/
def step (perChanPm : Bool) (s : Dma ι δ) : Event ι δ → Dma ι δ
  | .submit i d =>
    let chan := s.chans i
    s.setChan i { chan with submitted := chan.submitted ++ [d] }
  | .issuePending i ret => s.locked i ((s.lock i).issuePending perChanPm ret)
  | .terminateAll i => s.locked i ((s.lock i).terminateAll perChanPm)
  | .scheduleWork i =>
    let chan := s.chans i
    match chan.terminating with
    | 0 => s
    | terminating + 1 => s.setChan i { chan with terminating, workPending := true }
  | .work i => clkDisableWork s i
  | .irq =>
    match s.handler with
    | .idle => { s with handler := .entered }
    | _ => s
  | .handler pending completed => irqHandler perChanPm s pending completed

end

/-- The controller after `jz4780_dma_probe`. -/
def start (ι δ : Type*) : Dma ι δ where
  chans _ :=
    { desc := none
      submitted := []
      issued := []
      clkEnabled := false
      terminating := 0
      workPending := false
      work := .idle }
  enableCount := 0
  handler := .idle
  accesses := []

/-! ### What a section does -/

/-- The channel's work is scheduled or running, or is about to be scheduled. -/
def Chan.Due {δ : Type*} (c : Chan δ) : Prop :=
  0 < c.terminating ∨ c.workPending = true ∨ c.work ≠ .idle

namespace Section

variable {δ : Type*} {s s' s'' : Section δ}

/-- The references that the other channels hold. -/
def others (s : Section δ) : ℤ := s.enableCount - s.chan.clkEnabled.toInt

/-- All registers were accessed with the clock enabled. -/
def Clocked (s : Section δ) : Prop := ∀ count ∈ s.accesses, 0 < count

/-- The clock, the flag and the work are the same. -/
structure Same (s s' : Section δ) : Prop where
  enableCount : s'.enableCount = s.enableCount
  clkEnabled : s'.chan.clkEnabled = s.chan.clkEnabled
  due : s'.chan.Due ↔ s.chan.Due

theorem Same.trans (h : Same s s') (h' : Same s' s'') : Same s s'' := by
  constructor
  · rw [h'.enableCount, h.enableCount]
  · rw [h'.clkEnabled, h.clkEnabled]
  · rw [h'.due, h.due]

/-- The other channels are left alone. -/
theorem Same.others (h : Same s s') : s'.others = s.others := by
  rw [Section.others, h.enableCount, h.clkEnabled, Section.others]

theorem same_access (s : Section δ) : Same s s.access := ⟨rfl, rfl, Iff.rfl⟩

theorem same_chanGate (perChanPm : Bool) (s : Section δ) : Same s (s.chanGate perChanPm) := by
  rw [chanGate]
  split <;> exact ⟨rfl, rfl, Iff.rfl⟩

theorem chan_chanGate (perChanPm : Bool) (s : Section δ) :
  (s.chanGate perChanPm).chan = s.chan
  := by
  rw [chanGate]
  split <;> rfl

/-- Beginning a transfer leaves the clock, the flag and the work as they are. -/
theorem same_begin (perChanPm : Bool) (s : Section δ) : Same s (s.begin perChanPm) := by
  rw [begin]
  split
  · exact ⟨rfl, rfl, Iff.rfl⟩
  · apply Same.trans _ (same_access _)
    apply Same.trans _ (same_chanGate _ _)
    exact ⟨rfl, rfl, Iff.rfl⟩

/-- An access with the clock on. -/
theorem Clocked.access (h : s.Clocked) (hcount : 0 < s.enableCount) : s.access.Clocked := by
  intro count hmem
  rcases List.mem_append.mp hmem with hbefore | hnow
  · apply h count hbefore
  · rwa [List.mem_singleton.mp hnow]

/-- The gate of a channel is a register too. -/
theorem Clocked.chanGate (h : s.Clocked) (perChanPm : Bool)
    (hcount : perChanPm = true → 0 < s.enableCount) :
  (s.chanGate perChanPm).Clocked
  := by
  rw [Section.chanGate]
  split
  · next hgate => apply h.access (hcount hgate)
  · exact h

/-- A transfer begins with the clock on. -/
theorem Clocked.begin (h : s.Clocked) (perChanPm : Bool) (hcount : 0 < s.enableCount) :
  (s.begin perChanPm).Clocked
  := by
  rw [Section.begin]
  split
  · exact h
  · next d issued _ =>
    have htaken : Clocked { s with chan := { s.chan with desc := some d, issued } } := h
    apply Clocked.access
    · apply htaken.chanGate
      intro _
      exact hcount
    · rw [(same_chanGate _ _).enableCount]
      exact hcount

/-- A channel that holds its clock keeps the controller's clock enabled. -/
theorem enableCount_pos (hothers : 0 ≤ s.others) (hclk : s.chan.clkEnabled = true) :
  0 < s.enableCount
  := by
  rw [others, hclk, Bool.toInt_true] at hothers
  apply Int.lt_of_lt_of_le Int.one_pos
  apply Int.sub_nonneg.mp hothers

/-- With something issued there is a transfer. -/
theorem desc_begin {perChanPm : Bool} (h : s.chan.issued ≠ []) :
  (s.begin perChanPm).chan.desc.isSome = true
  := by
  rw [begin]
  cases hissued : s.chan.issued with
  | nil => exact absurd hissued h
  | cons d issued =>
      change (chanGate _ _).chan.desc.isSome = true
      rw [chan_chanGate]
      rfl

/-- What a transfer that is started leaves. -/
structure Starts (s s' : Section δ) : Prop where
  others : s'.others = s.others
  enableCount : s.enableCount ≤ s'.enableCount
  clkEnabled : s'.chan.clkEnabled = true
  desc : s'.chan.desc.isSome = true
  clocked : 0 ≤ s.others → s.Clocked → s'.Clocked

/-- What a section leaves that neither starts nor ends a transfer. -/
structure Stays (s s' : Section δ) : Prop extends Same s s' where
  desc : s'.chan.desc = s.chan.desc
  accesses : s'.accesses = s.accesses

/-- The channel has the clock, or an error is reported and nothing has changed. -/
theorem clkEnable_cases (ret : ℤ) (s : Section δ) :
  (s.clkEnable ret).2 ≠ 0 ∧ (s.clkEnable ret).1 = s ∨
    (s.clkEnable ret).2 = 0 ∧ (s.clkEnable ret).1.chan = { s.chan with clkEnabled := true } ∧
      (s.clkEnable ret).1.others = s.others ∧
      s.enableCount ≤ (s.clkEnable ret).1.enableCount ∧
      (s.clkEnable ret).1.accesses = s.accesses
  := by
  rw [clkEnable]
  split
  · next hclk =>
    right
    refine ⟨rfl, ?_, rfl, le_rfl, rfl⟩
    rw [← hclk]
  · next hclk =>
    rw [Bool.not_eq_true] at hclk
    split
    · next hret =>
      right
      refine ⟨rfl, rfl, ?_, Int.le_add_one le_rfl, rfl⟩
      rw [others, others, hclk]
      exact (Int.add_sub_cancel ..).trans (Int.sub_zero _).symm
    · next hret =>
      left
      exact ⟨hret, rfl⟩

/-- A channel starts or stays as it is. -/
theorem issuePending_cases (perChanPm : Bool) (ret : ℤ) (s : Section δ) :
  Stays s (s.issuePending perChanPm ret) ∨ Starts s (s.issuePending perChanPm ret)
  := by
  rw [issuePending]
  simp only
  have hissue : Stays s s.vchanIssuePending.1 := ⟨⟨rfl, rfl, Iff.rfl⟩, rfl, rfl⟩
  split
  · next hboth =>
    rw [Bool.and_eq_true] at hboth
    have hissued : s.vchanIssuePending.1.chan.issued ≠ [] := by
      intro hnil
      have hsome : !s.vchanIssuePending.1.chan.issued.isEmpty := hboth.1
      rw [hnil] at hsome
      cases hsome
    rcases clkEnable_cases ret s.vchanIssuePending.1 with
      ⟨hret, hsame⟩ | ⟨hret, hchan, hothers, hcount, haccesses⟩
    · left
      rw [if_pos hret, hsame]
      exact hissue
    · right
      rw [if_neg (not_not.mpr hret)]
      have hbegin := same_begin perChanPm (s.vchanIssuePending.1.clkEnable ret).1
      have hclk : (s.vchanIssuePending.1.clkEnable ret).1.chan.clkEnabled = true := by rw [hchan]
      constructor
      · rw [hbegin.others, hothers, hissue.others]
      · rw [hbegin.enableCount]
        exact hcount
      · rw [hbegin.clkEnabled, hclk]
      · apply desc_begin
        rw [hchan]
        exact hissued
      · intro hpos hclocked
        apply Clocked.begin
        · rw [Clocked, haccesses]
          exact hclocked
        · apply enableCount_pos _ hclk
          rw [hothers, hissue.others]
          exact hpos
  · left
    exact hissue

/-- What a section leaves that may release the clock. -/
structure Releases (s s' : Section δ) : Prop where
  others : s'.others = s.others
  desc : s'.chan.desc = s.chan.desc
  enableCount : s.chan.desc.isSome = true ∨ s.chan.clkEnabled = false →
    s'.enableCount = s.enableCount
  clkEnabled : s'.chan.clkEnabled = (s.chan.clkEnabled && s.chan.desc.isSome)

theorem clkDisable_of_not (h : s.chan.clkEnabled = false) : s.clkDisable = s := by
  rw [clkDisable, h]
  rfl

/-- A channel that has no transfer gives the clock back. -/
theorem releases_clkDisable (h : s.chan.desc.isNone = true) : Releases s s.clkDisable := by
  have hdesc : s.chan.desc.isSome = false := by
    rw [← Option.not_isNone, h]
    rfl
  rw [clkDisable]
  cases hclk : s.chan.clkEnabled with
  | true =>
      constructor
      · rw [others, others, hclk]
        exact Int.sub_zero _
      · rfl
      · rw [hdesc, hclk]
        rintro (hno | hno) <;> cases hno
      · rw [hdesc, hclk]
        rfl
  | false =>
      constructor
      · rfl
      · rfl
      · intro _
        rfl
      · rw [hclk]
        exact hclk

/-- What is accessed before the clock is given back is accessed with the clock on. -/
theorem Clocked.clkDisable (h : s.Clocked) (hothers : 0 ≤ s.others) : s.clkDisable.Clocked := by
  cases hclk : s.chan.clkEnabled with
  | true =>
      rw [Section.clkDisable, hclk]
      exact h.access (enableCount_pos hothers hclk)
  | false =>
      rw [clkDisable_of_not hclk]
      exact h

theorem releases_of_desc (h : s.chan.desc.isNone = false) : Releases s s := by
  constructor
  · rfl
  · rfl
  · intro _
    rfl
  · rw [← Option.not_isNone, h, Bool.not_false, Bool.and_true]

theorem releases_clkDisableWork (s : Section δ) : Releases s s.clkDisableWork := by
  rw [clkDisableWork]
  cases hdesc : s.chan.desc.isNone with
  | true =>
      have hreleases := releases_clkDisable hdesc
      exact ⟨hreleases.others, hreleases.desc, hreleases.enableCount, hreleases.clkEnabled⟩
  | false =>
      have hreleases := releases_of_desc hdesc
      exact ⟨hreleases.others, hreleases.desc, hreleases.enableCount, hreleases.clkEnabled⟩

/-- A channel at the end of a transfer. -/
theorem releases_release (perChanPm : Bool) (s : Section δ) :
  Releases s (s.release perChanPm)
  := by
  have hgate := same_chanGate perChanPm s
  have hchan := chan_chanGate perChanPm s
  rw [release]
  split
  · next hdesc =>
    have hreleases : Releases (s.chanGate perChanPm) (s.chanGate perChanPm).clkDisable := by
      apply releases_clkDisable
      rw [hchan, hdesc]
    constructor
    · rw [hreleases.others, hgate.others]
    · rw [hreleases.desc, hchan]
    · rw [← hgate.enableCount, ← hchan]
      exact hreleases.enableCount
    · rw [hreleases.clkEnabled, hchan]
  · next hdesc =>
    rw [Bool.not_eq_true] at hdesc
    apply releases_of_desc hdesc

theorem Clocked.clkDisableWork (h : s.Clocked) (hothers : 0 ≤ s.others) :
  s.clkDisableWork.Clocked
  := by
  rw [Section.clkDisableWork]
  simp only
  split
  · exact h.clkDisable hothers
  · exact h

theorem Clocked.release (h : s.Clocked) (perChanPm : Bool) (hothers : 0 ≤ s.others)
    (hcount : perChanPm = true → s.chan.desc.isNone = true → 0 < s.enableCount) :
  (s.release perChanPm).Clocked
  := by
  rw [Section.release]
  split
  · next hdesc =>
    apply Clocked.clkDisable
    · apply h.chanGate
      intro hgate
      apply hcount hgate hdesc
    · rwa [(same_chanGate _ _).others]
  · exact h

/-- What the section of `jz4780_dma_terminate_all` leaves. -/
structure Terminates (s s' : Section δ) : Prop where
  enableCount : s'.enableCount = s.enableCount
  clkEnabled : s'.chan.clkEnabled = s.chan.clkEnabled
  desc : s'.chan.desc = none
  due : s.chan.clkEnabled = true → s'.chan.Due
  clocked : 0 ≤ s.others → s.Clocked → s'.Clocked

/-- Terminating leaves no transfer. -/
theorem terminates_terminateAll (perChanPm : Bool) (s : Section δ) :
  Terminates s (s.terminateAll perChanPm)
  := by
  rw [terminateAll]
  cases hclk : s.chan.clkEnabled with
  | true =>
      have hgate := (same_access s).trans (same_chanGate perChanPm s.access)
      simp only [if_true]
      constructor
      · exact hgate.enableCount
      · rw [hgate.clkEnabled]
      · rfl
      · intro _
        left
        apply Nat.succ_pos
      · intro hothers hclocked
        have hcount := enableCount_pos hothers hclk
        apply (hclocked.access hcount).chanGate
        intro _
        exact hcount
  | false =>
      simp only [Bool.false_eq_true, if_false]
      constructor
      · rfl
      · rfl
      · rfl
      · intro hno
        exact nomatch hclk.symm.trans hno
      · intro _ hclocked
        exact hclocked

/-- What `jz4780_dma_chan_irq` leaves. -/
structure Handles (s s' : Section δ) : Prop extends Same s s' where
  desc : s'.chan.desc.isSome = true → s.chan.desc.isSome = true
  clocked : 0 < s.enableCount → s.Clocked → s'.Clocked

/-- What the handler does to one channel. -/
theorem handles_chanIrq (perChanPm completed : Bool) (s : Section δ) :
  Handles s (s.chanIrq perChanPm completed).1
  := by
  have haccess : ∀ h : 0 < s.enableCount, s.Clocked → s.access.Clocked :=
    fun hcount hclocked => hclocked.access hcount
  rw [chanIrq]
  simp only
  split
  · next hboth =>
    rw [Bool.and_eq_true] at hboth
    have hended : Same s { s.access with chan := { s.chan with desc := none } } :=
      ⟨rfl, rfl, Iff.rfl⟩
    constructor
    · apply hended.trans (same_begin ..)
    · intro _
      exact hboth.1
    · intro hcount hclocked
      have hended' : Clocked { s.access with chan := { s.chan with desc := none } } :=
        haccess hcount hclocked
      apply hended'.begin
      exact hcount
  · constructor
    · apply same_access
    · exact id
    · exact haccess

end Section

/-! ### What every step preserves -/

/-- The channels that the handler still has to release. -/
def Handler.idleChans {ι : Type*} : Handler ι → List ι
  | .idle | .entered => []
  | .scanning _ chans | .clearing chans | .acking chans | .releasing chans => chans

/-- The handler has been entered, and has not acknowledged the interrupt yet. -/
def Handler.Running {ι : Type*} : Handler ι → Prop
  | .entered | .scanning _ _ | .clearing _ | .acking _ => True
  | .idle | .releasing _ => False

section

variable {ι δ : Type*}

/-- The count of the clock is that of the channels that hold it, every channel with a transfer
holds it, and a channel that holds it without a transfer will release it. -/
structure Kept (s : Dma ι δ) : Prop where
  counts : Processes.Counts s.chans (Chan.clkEnabled · = true) s.enableCount
  active : ∀ i, (s.chans i).desc.isSome = true → (s.chans i).clkEnabled = true
  released : ∀ i, (s.chans i).clkEnabled = true → (s.chans i).desc.isSome = false →
    (s.chans i).Due ∨ i ∈ s.handler.idleChans

/-- The clock was enabled at all accesses, and is enabled as long as the handler runs. -/
structure Powered (s : Dma ι δ) : Prop where
  accesses : ∀ count ∈ s.accesses, 0 < count
  handler : s.handler.Running → 0 < s.enableCount

/-- All channels are off at first. -/
theorem kept_start : Kept (start ι δ) := by
  constructor
  · apply Processes.counts_none
    intro _
    exact Bool.false_ne_true
  · intro _ hdesc
    cases hdesc
  · intro _ hclk
    cases hclk

theorem powered_start : Powered (start ι δ) := by
  constructor
  · intro _ hmem
    cases hmem
  · exact False.elim

/-- The other channels hold references, or none. -/
theorem Kept.others_nonneg {s : Dma ι δ} (h : Kept s) (i : ι) : 0 ≤ (s.lock i).others := by
  rw [Section.others]
  apply Int.sub_nonneg_of_le
  cases hclk : (s.chans i).clkEnabled with
  | true =>
      rw [Dma.lock, hclk]
      apply h.counts.pos hclk
  | false =>
      rw [Dma.lock, hclk]
      apply h.counts.nonneg

variable [DecidableEq ι] {s : Dma ι δ} {i : ι} {l : Section δ}

/-- A section keeps the invariant if it counts for its own channel only. -/
theorem Kept.locked (h : Kept s) (handler : Handler ι)
    (hothers : l.others = (s.lock i).others)
    (hactive : l.chan.desc.isSome = true → l.chan.clkEnabled = true)
    (hreleased : l.chan.clkEnabled = true → l.chan.desc.isSome = false →
      l.chan.Due ∨ i ∈ handler.idleChans)
    (hhandler : ∀ j, j ≠ i → j ∈ s.handler.idleChans → j ∈ handler.idleChans) :
  Kept { s.locked i l with handler }
  := by
  have hcount : l.enableCount = s.enableCount + l.chan.clkEnabled.toInt -
      (s.chans i).clkEnabled.toInt := by
    rw [Section.others, Section.others, Dma.lock] at hothers
    simp only at hothers
    omega
  constructor
  · simp only [Dma.locked, hcount]
    apply h.counts.change
  · intro j
    simp only [Dma.locked, Function.update_apply]
    split
    · exact hactive
    · exact h.active j
  · intro j
    simp only [Dma.locked, Function.update_apply]
    split
    · next hj =>
      rw [hj]
      exact hreleased
    · next hj =>
      intro hclk hdesc
      apply (h.released j hclk hdesc).imp_right (hhandler j hj)

/-- A change of what is submitted and of the work. -/
theorem Kept.setChan (h : Kept s) {c : Chan δ} (hclk : c.clkEnabled = (s.chans i).clkEnabled)
    (hdesc : c.desc = (s.chans i).desc) (hdue : (s.chans i).Due → c.Due) :
  Kept (s.setChan i c)
  := by
  apply @Kept.locked _ _ _ s i ⟨c, s.enableCount, s.accesses⟩ h s.handler
  · rw [Section.others, Section.others, Dma.lock, hclk]
  · rw [hclk, hdesc]
    apply h.active i
  · rw [hclk, hdesc]
    intro hclk' hdesc'
    apply (h.released i hclk' hdesc').imp_left hdue
  · intro _ _ hmem
    exact hmem

omit [DecidableEq ι] in
/-- A step of the handler outside of the locks. -/
theorem Kept.moves (h : Kept s) (accesses : List ℤ) {handler : Handler ι}
    (hhandler : handler.idleChans = s.handler.idleChans) :
  Kept { s with accesses, handler }
  := by
  use h.counts, h.active
  rw [hhandler]
  exact h.released

/-- A section that releases the clock when there is no transfer settles its channel. -/
theorem Kept.releases (h : Kept s) (handler : Handler ι)
    (hl : (s.lock i).Releases l)
    (hhandler : ∀ j, j ≠ i → j ∈ s.handler.idleChans → j ∈ handler.idleChans) :
  Kept { s.locked i l with handler }
  := by
  apply h.locked handler hl.others _ _ hhandler
  · rw [hl.desc, hl.clkEnabled]
    intro hdesc
    rw [hdesc, Bool.and_true]
    apply h.active i hdesc
  · rw [hl.desc, hl.clkEnabled]
    intro hboth hdesc
    rw [hdesc, Bool.and_false] at hboth
    cases hboth

theorem kept_issuePending (h : Kept s) (perChanPm : Bool) (ret : ℤ) :
  Kept (s.locked i ((s.lock i).issuePending perChanPm ret))
  := by
  rcases (s.lock i).issuePending_cases perChanPm ret with hstays | hstarts
  · apply h.locked s.handler hstays.others
    · rw [hstays.desc, hstays.clkEnabled]
      apply h.active i
    · rw [hstays.desc, hstays.clkEnabled, hstays.due]
      apply h.released i
    · intro _ _ hmem
      exact hmem
  · apply h.locked s.handler hstarts.others
    · intro _
      exact hstarts.clkEnabled
    · intro _ hdesc
      exact nomatch hdesc.symm.trans hstarts.desc
    · intro _ _ hmem
      exact hmem

theorem kept_terminateAll (h : Kept s) (perChanPm : Bool) :
  Kept (s.locked i ((s.lock i).terminateAll perChanPm))
  := by
  have hl := (s.lock i).terminates_terminateAll perChanPm
  apply h.locked s.handler
  · rw [Section.others, hl.enableCount, hl.clkEnabled, Section.others]
  · rw [hl.desc]
    nofun
  · intro hclk _
    left
    apply hl.due
    rwa [← hl.clkEnabled]
  · intro _ _ hmem
    exact hmem

theorem kept_clkDisableWork (h : Kept s) (i : ι) : Kept (clkDisableWork s i) := by
  rw [clkDisableWork.eq_def]
  simp only
  split
  · split
    · apply h.setChan
      · rfl
      · rfl
      · intro _
        right
        right
        nofun
    · exact h
  · split
    · apply h.setChan
      · rfl
      · rfl
      · intro _
        right
        right
        nofun
    · exact h
  · apply h.releases s.handler (Section.releases_clkDisableWork _)
    intro _ _ hmem
    exact hmem

/-- A channel without a transfer behind its section is one that the handler will release. -/
theorem kept_chanIrq (h : Kept s) (perChanPm completed : Bool) {todo idle : List ι}
    (hidle : s.handler.idleChans = idle) :
  Kept { s.locked i ((s.lock i).chanIrq perChanPm completed).1 with
    handler := .scanning todo
      (if ((s.lock i).chanIrq perChanPm completed).2 then idle ++ [i] else idle) }
  := by
  have hl := (s.lock i).handles_chanIrq perChanPm completed
  apply h.locked _ hl.others
  · intro hdesc
    rw [hl.clkEnabled]
    apply h.active i (hl.desc hdesc)
  · intro _ hdesc
    right
    have hchanIdle : ((s.lock i).chanIrq perChanPm completed).2 = true := by
      change ((s.lock i).chanIrq perChanPm completed).1.chan.desc.isNone = true
      rw [← Option.not_isSome, hdesc]
      rfl
    rw [hchanIdle, if_pos rfl]
    apply List.mem_append_right
    apply List.mem_singleton_self
  · intro j _ hmem
    rw [hidle] at hmem
    rw [Handler.idleChans]
    split
    · apply List.mem_append_left _ hmem
    · exact hmem

theorem kept_irqHandler (h : Kept s) (perChanPm : Bool) (pending : List ι) (completed : Bool) :
  Kept (irqHandler perChanPm s pending completed)
  := by
  rw [irqHandler.eq_def]
  split
  · exact h
  · next hhandler =>
    apply h.moves
    rw [hhandler]
    rfl
  · next i todo idle hhandler =>
    apply kept_chanIrq h
    rw [hhandler]
    rfl
  · next idle hhandler =>
    apply h.moves
    rw [hhandler]
    rfl
  · next idle hhandler =>
    apply h.moves
    rw [hhandler]
    rfl
  · next idle hhandler =>
    apply h.moves
    rw [hhandler]
    rfl
  · next i idle hhandler =>
    apply h.releases _ (Section.releases_release ..)
    intro j hj hmem
    rw [hhandler] at hmem
    apply List.mem_of_ne_of_mem hj hmem
  · next hhandler =>
    apply h.moves s.accesses
    rw [hhandler]
    rfl

/-- The count of the clock is kept by every event. -/
theorem kept_step (h : Kept s) (perChanPm : Bool) (e : Event ι δ) :
  Kept (step perChanPm s e)
  := by
  rw [step.eq_def]
  cases e with
  | submit i d =>
      apply h.setChan
      · rfl
      · rfl
      · exact id
  | issuePending i ret => apply kept_issuePending h
  | terminateAll i => apply kept_terminateAll h
  | scheduleWork i =>
      simp only
      split
      · exact h
      · apply h.setChan
        · rfl
        · rfl
        · intro _
          right
          left
          rfl
  | work i => apply kept_clkDisableWork h
  | irq =>
      simp only
      split
      · next hidle =>
        apply h.moves s.accesses
        rw [hidle]
        rfl
      · exact h
  | handler pending completed => apply kept_irqHandler h

/-! ### The clock at the accesses -/

/-- An interrupt is taken only while some channel holds the clock, a worker does not release the
last reference while the handler runs, and the handler writes the gate of an idle channel only
while some channel holds the clock. -/
def Allowed (perChanPm : Bool) (s : Dma ι δ) : Event ι δ → Prop
  | .irq => s.handler = .idle → ∃ j, (s.chans j).clkEnabled = true
  | .work i =>
    (s.chans i).work = .lock → (s.chans i).desc.isNone = true →
      (s.chans i).clkEnabled = true → s.handler.Running →
        ∃ j, j ≠ i ∧ (s.chans j).clkEnabled = true
  | .handler _ _ =>
    ∀ i idle, s.handler = .releasing (i :: idle) → perChanPm = true →
      (s.chans i).desc.isNone = true → ∃ j, (s.chans j).clkEnabled = true
  | _ => True

omit [DecidableEq ι] in
/-- The clock is on while a channel has enabled it. -/
theorem Kept.enableCount_pos (h : Kept s) (hsome : ∃ j, (s.chans j).clkEnabled = true) :
  0 < s.enableCount
  := by
  obtain ⟨j, hj⟩ := hsome
  apply h.counts.pos hj

theorem powered_issuePending (h : Kept s) (hp : Powered s) (perChanPm : Bool) (ret : ℤ) :
  Powered (s.locked i ((s.lock i).issuePending perChanPm ret))
  := by
  rcases (s.lock i).issuePending_cases perChanPm ret with hstays | hstarts
  · constructor
    · simp only [Dma.locked, hstays.accesses]
      exact hp.accesses
    · simp only [Dma.locked, hstays.enableCount]
      exact hp.handler
  · constructor
    · apply hstarts.clocked (h.others_nonneg i) hp.accesses
    · intro hrunning
      apply Int.lt_of_lt_of_le (hp.handler hrunning) hstarts.enableCount

theorem powered_terminateAll (h : Kept s) (hp : Powered s) (perChanPm : Bool) :
  Powered (s.locked i ((s.lock i).terminateAll perChanPm))
  := by
  have hl := (s.lock i).terminates_terminateAll perChanPm
  constructor
  · apply hl.clocked (h.others_nonneg i) hp.accesses
  · simp only [Dma.locked, hl.enableCount]
    exact hp.handler

theorem powered_clkDisableWork (h : Kept s) (hp : Powered s) {perChanPm : Bool}
    (hallowed : Allowed perChanPm s (.work i)) :
  Powered (clkDisableWork s i)
  := by
  have hkept := kept_clkDisableWork h i
  rw [clkDisableWork.eq_def] at hkept ⊢
  simp only at hkept ⊢
  split
  · split <;> exact ⟨hp.accesses, hp.handler⟩
  · split <;> exact ⟨hp.accesses, hp.handler⟩
  · next hwork =>
    rw [hwork] at hkept
    have hl := (s.lock i).releases_clkDisableWork
    have hclocked : (s.lock i).Clocked := hp.accesses
    constructor
    · apply hclocked.clkDisableWork (h.others_nonneg i)
    · intro hrunning
      by_cases hsame : (s.lock i).chan.desc.isSome = true ∨ (s.lock i).chan.clkEnabled = false
      · simp only [Dma.locked, hl.enableCount hsame]
        apply hp.handler hrunning
      · rw [not_or, Bool.not_eq_true, Bool.not_eq_false] at hsame
        have hdesc : (s.chans i).desc.isNone = true := by
          rw [← Option.not_isSome]
          exact (Bool.not_eq_true' _).mpr hsame.1
        obtain ⟨j, hj, hclk⟩ := hallowed hwork hdesc hsame.2 hrunning
        apply hkept.enableCount_pos
        use j
        simp only [Dma.locked, Function.update_of_ne hj]
        exact hclk

theorem powered_irqHandler (h : Kept s) (hp : Powered s) {perChanPm : Bool}
    {pending : List ι} {completed : Bool}
    (hallowed : Allowed perChanPm s (.handler pending completed)) :
  Powered (irqHandler perChanPm s pending completed)
  := by
  have hclocked : ∀ i, (s.lock i).Clocked := fun _ => hp.accesses
  -- Outside of the locks the handler accesses registers only while it runs.
  have haccess : s.handler.Running → ∀ handler, Powered { s.access with handler } := by
    intro hrunning handler
    have hcount := hp.handler hrunning
    constructor
    · intro count hmem
      rcases List.mem_append.mp hmem with hbefore | hnow
      · apply hp.accesses count hbefore
      · rwa [List.mem_singleton.mp hnow]
    · intro _
      exact hcount
  rw [irqHandler.eq_def]
  split
  · exact hp
  · next hhandler =>
    apply haccess
    rw [hhandler]
    trivial
  · next i todo idle hhandler =>
    have hrunning : s.handler.Running := by
      rw [hhandler]
      trivial
    have hl := (s.lock i).handles_chanIrq perChanPm completed
    constructor
    · apply hl.clocked (hp.handler hrunning) (hclocked i)
    · intro _
      apply lt_of_lt_of_eq (hp.handler hrunning) hl.enableCount.symm
  · next idle hhandler =>
    apply haccess
    rw [hhandler]
    trivial
  · next idle hhandler =>
    apply haccess
    rw [hhandler]
    trivial
  · next idle hhandler =>
    apply haccess
    rw [hhandler]
    trivial
  · next i idle hhandler =>
    constructor
    · apply (hclocked i).release _ (h.others_nonneg i)
      intro hgate hdesc
      apply h.enableCount_pos (hallowed i idle hhandler hgate hdesc)
    · exact False.elim
  · exact ⟨hp.accesses, False.elim⟩

/-- No register is accessed with the clock off, as long as what happens is allowed. -/
theorem powered_step (h : Kept s) (hp : Powered s) {perChanPm : Bool} {e : Event ι δ}
    (hallowed : Allowed perChanPm s e) :
  Powered (step perChanPm s e)
  := by
  rw [step.eq_def]
  cases e with
  | submit i d => exact ⟨hp.accesses, hp.handler⟩
  | issuePending i ret => apply powered_issuePending h hp
  | terminateAll i => apply powered_terminateAll h hp
  | scheduleWork i =>
      simp only
      split <;> exact ⟨hp.accesses, hp.handler⟩
  | work i => apply powered_clkDisableWork h hp hallowed
  | irq =>
      simp only
      split
      · next hidle =>
        use hp.accesses
        intro _
        apply h.enableCount_pos (hallowed hidle)
      · exact hp
  | handler pending completed => apply powered_irqHandler h hp hallowed

/-- The count of the clock is that of the channels that hold it, every channel with a transfer
holds it, it is enabled at every access, and it is not held when nothing is going on. -/
structure Gated (s : Dma ι δ) : Prop where
  counts : Processes.Counts s.chans (Chan.clkEnabled · = true) s.enableCount
  active : ∀ i, (s.chans i).desc.isSome = true → (s.chans i).clkEnabled = true
  accesses : ∀ count ∈ s.accesses, 0 < count
  quiet : (∀ i, (s.chans i).desc.isSome = false ∧ ¬ (s.chans i).Due) → s.handler = .idle →
    s.enableCount = 0

omit [DecidableEq ι] in
/-- When nothing is going on, no channel holds the clock. -/
theorem Kept.quiet (h : Kept s) (hchans : ∀ i, (s.chans i).desc.isSome = false ∧ ¬ (s.chans i).Due)
    (hhandler : s.handler = .idle) :
  s.enableCount = 0
  := by
  by_contra hcount
  obtain ⟨i, hclk⟩ := h.counts.exists_of_ne_zero hcount
  obtain ⟨hdesc, hdue⟩ := hchans i
  have hreleased := (h.released i hclk hdesc).resolve_left hdue
  rw [hhandler] at hreleased
  cases hreleased

/-- In every run in which interrupts are taken only while some channel holds the clock, no worker
releases the last reference while the handler runs, and the handler writes the gate of an idle
channel only while some channel holds the clock, no reference is lost or leaked. -/
theorem gated_of_reaches {perChanPm : Bool}
    (h : Runs.Reaches (step perChanPm) (Allowed perChanPm) (start ι δ) s) :
  Gated s
  := by
  obtain ⟨hkept, hpowered⟩ : Kept s ∧ Powered s := by
    apply h.invariant
    · intro s e hs hallowed
      constructor
      · apply kept_step hs.1
      · apply powered_step hs.1 hs.2 hallowed
    · exact ⟨kept_start, powered_start⟩
  constructor
  · exact hkept.counts
  · exact hkept.active
  · exact hpowered.accesses
  · exact hkept.quiet

end

/-- A transfer is issued, completed and handled. -/
def transfer : List (Event ℕ Unit) :=
  [.submit 0 (), .issuePending 0 0, .irq, .handler [0] true, .handler [] true, .handler [] true,
    .handler [] true, .handler [] true, .handler [] true, .handler [] true]

theorem gated_transfer : Gated (transfer.foldl (step true) (start ℕ Unit)) := by
  apply @gated_of_reaches ℕ Unit _ _ true
  apply Runs.reaches_foldl (Runs.Reaches.refl _)
  refine ⟨trivial, trivial, fun _ => ⟨0, rfl⟩, nofun, nofun, nofun, nofun, nofun, ?_, nofun,
    trivial⟩
  intro _ _ _ _ _
  use 0
  rfl

/-- A worker waits for the handler, the transfer is issued again and completed, and the handler runs
while the worker releases the clock. -/
def overtaken : List (Event ℕ Unit) :=
  [.submit 0 (), .issuePending 0 0, .terminateAll 0, .scheduleWork 0, .work 0, .work 0,
    .submit 0 (), .issuePending 0 0, .irq, .handler [0] true, .handler [] true, .work 0,
    .handler [] true]

/-- The handler accesses a register with the clock disabled. -/
theorem not_gated :
  ¬ ∀ (perChanPm : Bool) (events : List (Event ℕ Unit)),
    Gated (events.foldl (step perChanPm) (start ℕ Unit))
  := by
  intro h
  have hcount := (h true overtaken).accesses 0 (by decide)
  exact lt_irrefl 0 hcount

end Jz4780Dma

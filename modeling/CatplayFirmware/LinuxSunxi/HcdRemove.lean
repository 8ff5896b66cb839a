import CatplayFirmware.Support.Processes
import CatplayFirmware.Support.Runs
import Mathlib.Tactic.Common

/-!
# The removal of a host controller

The removal closes a gate and waits for the calls that have come through it. A call counts itself
before it looks at the gate, and the removal looks at the count after it has closed the gate, so
either the call finds the gate closed or the removal finds the call. The texts of EHCI and OHCI are
the same.
-/

namespace HcdRemove

def eshutdown : ℤ := -108

/-- What the calls and the removal share: the flag `HCD_FLAG_HW_ACCESSIBLE`, the counter, whether
the removal is in the wait queue, and whether the pools of the descriptors exist. -/
structure Hcd where
  hwAccessible : Bool
  enqueuesInProgress : ℤ
  enqueueWait : Bool
  pools : Bool

/-- Where a call of `ehci_urb_enqueue` or `ohci_urb_enqueue` is: behind `atomic_inc`, in
`__ehci_urb_enqueue` or `__ohci_urb_enqueue`, before `atomic_dec_and_test`, or before `wake_up`. -/
inductive UrbEnqueue where
  | idle
  | admitted
  | inside
  | leaving (ret : ℤ)
  | waking (ret : ℤ)
  | returned (ret : ℤ)

/-- The statement of `ehci_platform_remove` or `ohci_platform_remove` that comes next. The four from
`waitEvent` to `schedule` are those of `wait_event`. -/
inductive PlatformRemove where
  | entry
  | clearBit
  | waitEvent
  | prepareToWait
  | test
  | schedule
  | shutdown
  | removeHcd
  | removed

/-- Any number of calls, and the removal. -/
structure System (ι : Type*) where
  hcd : Hcd
  calls : ι → UrbEnqueue
  remove : PlatformRemove

/-- One step of a call or of the removal. What a call does inside may take any time, and before the
removal the power management may suspend and resume the controller. -/
inductive Event (ι : Type*) where
  | enqueue (i : ι)
  | finish (i : ι) (ret : ℤ)
  | remove
  | power (accessible : Bool)

/-- The next step of a call. A call that has returned may be made again. -/
def urbEnqueue (h : Hcd) : UrbEnqueue → Hcd × UrbEnqueue
  | .idle | .returned _ =>
    ({ h with enqueuesInProgress := h.enqueuesInProgress + 1 }, .admitted)
  | .admitted => (h, if !h.hwAccessible then .leaving eshutdown else .inside)
  | .inside => (h, .inside)
  | .leaving ret =>
    let h := { h with enqueuesInProgress := h.enqueuesInProgress - 1 }
    (h, if h.enqueuesInProgress = 0 then .waking ret else .returned ret)
  | .waking ret => ({ h with enqueueWait := false }, .returned ret)

/-- The next step of the removal. It sleeps in `schedule` for as long as it is in the wait queue,
from which `wake_up` takes it. -/
def platformRemove (h : Hcd) : PlatformRemove → Hcd × PlatformRemove
  | .entry => (h, .clearBit)
  | .clearBit => ({ h with hwAccessible := false }, .waitEvent)
  | .waitEvent => (h, if h.enqueuesInProgress = 0 then .shutdown else .prepareToWait)
  | .prepareToWait => ({ h with enqueueWait := true }, .test)
  | .test =>
    if h.enqueuesInProgress = 0 then ({ h with enqueueWait := false }, .shutdown)
    else (h, .schedule)
  | .schedule => (h, if h.enqueueWait then .schedule else .prepareToWait)
  | .shutdown => (h, .removeHcd)
  | .removeHcd => ({ h with pools := false }, .removed)
  | .removed => (h, .removed)

/-- `wait_event` has not been called yet. -/
def PlatformRemove.Open : PlatformRemove → Prop
  | .entry | .clearBit => True
  | _ => False

/-- `wait_event` has returned. -/
def PlatformRemove.Waited : PlatformRemove → Prop
  | .shutdown | .removeHcd | .removed => True
  | _ => False

/-- The call is counted. -/
def UrbEnqueue.Counted : UrbEnqueue → Prop
  | .admitted | .inside | .leaving _ => True
  | .idle | .waking _ | .returned _ => False

section

variable {ι : Type*} [DecidableEq ι]

def step (s : System ι) : Event ι → System ι
  | .enqueue i =>
    let (hcd, call) := urbEnqueue s.hcd (s.calls i)
    { s with hcd, calls := Function.update s.calls i call }
  | .finish i ret =>
    match s.calls i with
    | .inside => { s with calls := Function.update s.calls i (.leaving ret) }
    | _ => s
  | .remove =>
    let (hcd, remove) := platformRemove s.hcd s.remove
    { s with hcd, remove }
  | .power accessible =>
    match s.remove with
    | .entry => { s with hcd := { s.hcd with hwAccessible := accessible } }
    | _ => s

end

/-- The controller before its removal. -/
def start (ι : Type*) (accessible : Bool) : System ι where
  hcd :=
    { hwAccessible := accessible
      enqueuesInProgress := 0
      enqueueWait := false
      pools := true }
  calls _ := .idle
  remove := .entry

/-- The removal sleeps in `wait_event`. -/
def Sleeps {ι : Type*} (s : System ι) : Prop := s.remove = .schedule ∧ s.hcd.enqueueWait = true

/-- What every step preserves. -/
structure Invariant {ι : Type*} (s : System ι) : Prop where
  counts : Processes.Counts s.calls UrbEnqueue.Counted s.hcd.enqueuesInProgress
  gate : ¬ s.remove.Open → s.hcd.hwAccessible = false
  closed : s.remove.Waited → ∀ i, s.calls i ≠ .inside
  pools : s.hcd.pools = false → s.remove.Waited
  wakes : Sleeps s → s.hcd.enqueuesInProgress ≠ 0 ∨ ∃ i ret, s.calls i = .waking ret

section

variable {ι : Type*} {s : System ι}

theorem PlatformRemove.Waited.not_open {r : PlatformRemove} (h : r.Waited) : ¬ r.Open := by
  cases r <;> first | exact h.elim | exact id

theorem invariant_start (accessible : Bool) : Invariant (start ι accessible) := by
  constructor
  · apply Processes.counts_none
    intro _
    exact id
  · intro hopen
    exact absurd trivial hopen
  · intro hwaited
    exact hwaited.elim
  · intro hpools
    cases hpools
  · intro hsleeps
    cases hsleeps.1

variable [DecidableEq ι]

/-- A step of a call keeps the invariant if the counter stays true, the call only enters through an
open gate, and a removal that sleeps will still be woken. -/
theorem Invariant.call (h : Invariant s) {i : ι} {c : UrbEnqueue} {hcd : Hcd}
    (hcounts : Processes.Counts (Function.update s.calls i c) UrbEnqueue.Counted
      hcd.enqueuesInProgress)
    (haccessible : hcd.hwAccessible = s.hcd.hwAccessible) (hpools : hcd.pools = s.hcd.pools)
    (hinside : c = .inside → s.hcd.hwAccessible = true)
    (hwakes : s.remove = .schedule → hcd.enqueueWait = true → hcd.enqueuesInProgress ≠ 0 ∨
      ∃ j ret, Function.update s.calls i c j = .waking ret) :
  Invariant { s with hcd, calls := Function.update s.calls i c }
  := by
  constructor
  · exact hcounts
  · intro hopen
    rw [haccessible]
    apply h.gate hopen
  · intro hwaited j
    simp only [Function.update_apply]
    split
    · intro hc
      have hshut := h.gate hwaited.not_open
      exact nomatch hshut.symm.trans (hinside hc)
    · apply h.closed hwaited
  · intro hgone
    apply h.pools
    rwa [← hpools]
  · rintro ⟨hschedule, hwait⟩
    apply hwakes hschedule hwait

theorem Invariant.enqueue (h : Invariant s) (i : ι) : Invariant (step s (.enqueue i)) := by
  have hcounts := h.counts
  rw [step]
  cases hcall : s.calls i with
  | idle =>
      apply h.call
      · apply hcounts.enter
        · rw [hcall]
          exact id
        · trivial
      · rfl
      · rfl
      · nofun
      · intro _ _
        left
        exact (Int.le_iff_lt_add_one.mp hcounts.nonneg).ne'
  | returned ret =>
      apply h.call
      · apply hcounts.enter
        · rw [hcall]
          exact id
        · trivial
      · rfl
      · rfl
      · nofun
      · intro _ _
        left
        exact (Int.le_iff_lt_add_one.mp hcounts.nonneg).ne'
  | admitted =>
      have hcounted : UrbEnqueue.Counted (s.calls i) := by
        rw [hcall]
        trivial
      apply h.call
      · apply hcounts.stay
        apply iff_of_true hcounted
        split <;> trivial
      · rfl
      · rfl
      · intro hinside
        by_contra hshut
        rw [Bool.not_eq_true] at hshut
        simp only [hshut, Bool.not_false, if_true] at hinside
        cases hinside
      · intro _ _
        left
        exact (hcounts.pos hcounted).ne'
  | inside =>
      have hsame : Function.update s.calls i .inside = s.calls := by
        rw [← hcall]
        apply Function.update_eq_self
      simp only [urbEnqueue, hsame]
      exact h
  | leaving ret =>
      apply h.call
      · apply hcounts.leave
        · rw [hcall]
          trivial
        · split <;> exact id
      · rfl
      · rfl
      · intro hinside
        split at hinside <;> cases hinside
      · intro _ _
        by_cases hlast : s.hcd.enqueuesInProgress - 1 = 0
        · right
          use i, ret
          rw [Function.update_self]
          exact if_pos hlast
        · left
          exact hlast
  | waking ret =>
      apply h.call
      · apply hcounts.stay
        rw [hcall]
        rfl
      · rfl
      · rfl
      · nofun
      · nofun

theorem Invariant.finish (h : Invariant s) (i : ι) (ret : ℤ) :
  Invariant (step s (.finish i ret))
  := by
  rw [step]
  split
  · next hinside =>
    have hcounted : UrbEnqueue.Counted (s.calls i) := by
      rw [hinside]
      trivial
    apply h.call
    · apply h.counts.stay
      apply iff_of_true hcounted
      trivial
    · rfl
    · rfl
    · nofun
    · intro _ _
      left
      exact (h.counts.pos hcounted).ne'
  · exact h

omit [DecidableEq ι] in
/-- A step of the removal keeps the invariant if it leaves the count as it is, shuts the gate before
it waits, goes on when no call is counted, and sleeps only when it will be woken. -/
theorem Invariant.removal (h : Invariant s) {r : PlatformRemove} {hcd : Hcd}
    (hcount : hcd.enqueuesInProgress = s.hcd.enqueuesInProgress)
    (hgate : ¬ r.Open → hcd.hwAccessible = false)
    (hclosed : r.Waited → s.remove.Waited ∨ s.hcd.enqueuesInProgress = 0)
    (hpools : hcd.pools = false → r.Waited)
    (hwakes : r = .schedule → hcd.enqueueWait = true → s.hcd.enqueuesInProgress ≠ 0 ∨
      ∃ i ret, s.calls i = .waking ret) :
  Invariant { s with hcd, remove := r }
  := by
  constructor
  · rw [hcount]
    exact h.counts
  · exact hgate
  · intro hwaited i hinside
    rcases hclosed hwaited with hbefore | hzero
    · apply h.closed hbefore i hinside
    · have hcounts := h.counts
      rw [hzero] at hcounts
      apply hcounts.none_of_zero i
      rw [hinside]
      trivial
  · exact hpools
  · rintro ⟨hschedule, hwait⟩
    rw [hcount]
    apply hwakes hschedule hwait

omit [DecidableEq ι] in
/-- A step of the removal that leaves the gate and the pools as they are. -/
theorem Invariant.moves (h : Invariant s) (r : PlatformRemove) (wait : Bool)
    (hopen : s.remove.Open → r.Open) (hwaited : s.remove.Waited → r.Waited)
    (hzero : r.Waited → s.remove.Waited ∨ s.hcd.enqueuesInProgress = 0)
    (hwakes : r = .schedule → wait = true → s.hcd.enqueuesInProgress ≠ 0 ∨
      ∃ i ret, s.calls i = .waking ret) :
  Invariant { s with hcd := { s.hcd with enqueueWait := wait }, remove := r }
  := by
  apply h.removal
  · rfl
  · intro hno
    apply h.gate
    intro hbefore
    apply hno (hopen hbefore)
  · exact hzero
  · intro hgone
    apply hwaited (h.pools hgone)
  · exact hwakes

theorem Invariant.remove (h : Invariant s) : Invariant (step s .remove) := by
  have hmoves := @Invariant.moves ι s h
  have hwakes := h.wakes
  rw [Sleeps] at hwakes
  rw [step]
  cases hremove : s.remove with
  | entry =>
      rw [hremove] at hmoves
      apply hmoves .clearBit s.hcd.enqueueWait
      · exact id
      · exact id
      · exact False.elim
      · nofun
  | clearBit =>
      apply h.removal
      · rfl
      · intro _
        rfl
      · exact False.elim
      · intro hgone
        have hwaited := h.pools hgone
        rw [hremove] at hwaited
        exact hwaited
      · nofun
  | waitEvent =>
      rw [hremove] at hmoves
      by_cases hzero : s.hcd.enqueuesInProgress = 0
      · rw [platformRemove, if_pos hzero]
        apply hmoves .shutdown s.hcd.enqueueWait
        · exact id
        · exact False.elim
        · intro _
          right
          exact hzero
        · nofun
      · rw [platformRemove, if_neg hzero]
        apply hmoves .prepareToWait s.hcd.enqueueWait
        · exact id
        · exact id
        · exact False.elim
        · nofun
  | prepareToWait =>
      rw [hremove] at hmoves
      apply hmoves .test true
      · exact id
      · exact id
      · exact False.elim
      · nofun
  | test =>
      rw [hremove] at hmoves
      by_cases hzero : s.hcd.enqueuesInProgress = 0
      · rw [platformRemove, if_pos hzero]
        apply hmoves .shutdown false
        · exact id
        · exact False.elim
        · intro _
          right
          exact hzero
        · nofun
      · rw [platformRemove, if_neg hzero]
        apply hmoves .schedule s.hcd.enqueueWait
        · exact id
        · exact id
        · exact False.elim
        · intro _ _
          left
          exact hzero
  | schedule =>
      rw [hremove] at hmoves hwakes
      cases hwait : s.hcd.enqueueWait with
      | true =>
          rw [platformRemove, hwait]
          apply hmoves .schedule s.hcd.enqueueWait
          · exact id
          · exact id
          · exact False.elim
          · intro _ _
            apply hwakes ⟨rfl, hwait⟩
      | false =>
          rw [platformRemove, hwait]
          apply hmoves .prepareToWait s.hcd.enqueueWait
          · exact id
          · exact id
          · exact False.elim
          · nofun
  | shutdown =>
      rw [hremove] at hmoves
      apply hmoves .removeHcd s.hcd.enqueueWait
      · exact id
      · exact id
      · exact Or.inl
      · nofun
  | removeHcd =>
      have hgate := h.gate
      rw [hremove] at hgate
      apply h.removal
      · rfl
      · intro _
        apply hgate id
      · intro _
        left
        rw [hremove]
        trivial
      · intro _
        trivial
      · nofun
  | removed =>
      rw [hremove] at hmoves
      apply hmoves .removed s.hcd.enqueueWait
      · exact id
      · exact id
      · exact Or.inl
      · nofun

theorem Invariant.power (h : Invariant s) (accessible : Bool) :
  Invariant (step s (.power accessible))
  := by
  rw [step.eq_def]
  simp only
  split
  · next hentry =>
    constructor
    · exact h.counts
    · intro hopen
      simp only [hentry] at hopen
      exact absurd trivial hopen
    · exact h.closed
    · exact h.pools
    · exact h.wakes
  · exact h

theorem Invariant.step (h : Invariant s) (e : Event ι) : Invariant (step s e) := by
  cases e with
  | enqueue i => apply h.enqueue
  | finish i ret => apply h.finish
  | remove => apply h.remove
  | power accessible => apply h.power

/-- Once `wait_event` has returned, the removal does not go back. -/
theorem waited_step (e : Event ι) (h : s.remove.Waited) : (step s e).remove.Waited := by
  rw [HcdRemove.step.eq_def]
  cases e with
  | enqueue i => exact h
  | finish i ret =>
      simp only
      split <;> exact h
  | remove =>
      simp only
      cases hremove : s.remove <;> rw [hremove] at h <;> first | exact h.elim | trivial
  | power accessible =>
      simp only
      split <;> exact h

/-- After any steps of the calls and of the removal: once `wait_event` has returned no call is
inside, now or later; as long as a call is inside the pools exist; and the removal does not sleep
while no call is counted and none is about to wake it. -/
theorem quiesces (accessible : Bool) (events : List (Event ι)) :
  let s := events.foldl step (start ι accessible)
  (s.remove.Waited → ∀ (later : List (Event ι)) (i : ι), (later.foldl step s).calls i ≠ .inside) ∧
    (∀ i, s.calls i = .inside → s.hcd.pools = true) ∧
    ¬ (Sleeps s ∧ s.hcd.enqueuesInProgress = 0 ∧ ∀ i ret, s.calls i ≠ .waking ret)
  := by
  intro s
  have hs : Invariant s := Runs.invariant_foldl (fun _ e hs => hs.step e)
    (invariant_start accessible) events
  refine ⟨?_, ?_, ?_⟩
  · intro hwaited later
    have hlater : (later.foldl step s).remove.Waited :=
      @Runs.invariant_foldl (System ι) _ _ (fun s => s.remove.Waited) (fun _ e => waited_step e) _
        hwaited later
    apply (Runs.invariant_foldl (fun _ e hs => hs.step e) hs later).closed hlater
  · intro i hinside
    by_contra hgone
    rw [Bool.not_eq_true] at hgone
    apply hs.closed (hs.pools hgone) i hinside
  · rintro ⟨hsleeps, hzero, hnone⟩
    rcases hs.wakes hsleeps with hcount | ⟨i, ret, hwaking⟩
    · exact hcount hzero
    · exact hnone i ret hwaking

end

end HcdRemove

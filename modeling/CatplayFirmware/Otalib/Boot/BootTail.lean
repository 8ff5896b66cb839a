import CatplayFirmware.Support.Runs
import Mathlib.Data.Int.Notation
import Mathlib.Tactic.Common

/-!
# The tail of the boot

PID 1 waits for its children, and shuts the system down on a signal. The handler of the signals
stores the signal in a cell, which the loop swaps with zero before it waits. A handler may be
entered before any instruction, also of another handler, and a call that sleeps is interrupted by
it. A signal that comes between the swap and the wait is not seen before the wait ends.
-/

namespace BootTail

/-- The numbers of the signals, which depend on the architecture. -/
structure Signals where
  sigusr1 : ℤ
  sigusr2 : ℤ
  sigterm : ℤ
  nodup : [0, sigusr1, sigusr2, sigterm].Nodup

/-- The signals that `install_boot_tail_signal_handlers` installs a handler for. -/
inductive Signal where
  | usr1
  | usr2
  | term
  deriving DecidableEq

def Signals.number (n : Signals) : Signal → ℤ
  | .usr1 => n.sigusr1
  | .usr2 => n.sigusr2
  | .term => n.sigterm

/-- The commands of the system call `reboot`. -/
inductive Command where
  | halt
  | powerOff
  | restart
  deriving DecidableEq

/-- What a child has ended with. -/
inductive Status where
  | exited (code : ℕ)
  | signaled (signal : ℕ)
  deriving DecidableEq

/-- The child of `run_shell`. -/
inductive Shell where
  | absent
  | forkFailed
  | running
  | ended (status : Status)
  deriving DecidableEq

/-- Where `boot_tail_shutdown` is. The first five are those of `run_shell`: the check of the
command, `fork`, `waitpid` before and in the kernel, and the result. -/
inductive Shutdown where
  | command
  | fork
  | waitpid
  | blocked
  | returned (result : Except String Unit)
  | sync
  | reboot
  | sleep

/-- Where the loop of `boot_tail` is: before the swap, with the signal it has found, before
`waitpid`, in the kernel, behind `waitpid` with its error, in `sleep`, or in the shutdown. -/
inductive Pc where
  | swap
  | test (signal : ℤ)
  | waitpid
  | blocked
  | waited (result : Except ℤ Unit)
  | sleep
  | shutdown (command : Command) (stage : Shutdown)

/-- PID 1: where it is, the cell `BOOT_TAIL_SIGNAL`, the handlers that have not stored their signal
yet, the children that run and those that have ended, and the child of the shutdown. Three fields
are for the properties only: the signals that were delivered and not handed to
`boot_tail_shutdown`, whether one of them was overwritten in the cell, and the state of the child
at every call of `reboot`. -/
structure Pid1 where
  pc : Pc
  cell : ℤ
  handlers : List ℤ
  children : ℕ
  zombies : ℕ
  shell : Shell
  pending : List ℤ
  overwritten : Bool
  reboots : List (Command × Shell)

def echild : ℤ := 10

def eintr : ℤ := 4

def rcK : String := "/etc/init.d/rcK; swapoff -a; umount -a -r"

/-- A command fits in the `CString<256>` of `run_shell`, with the byte at its end. -/
def fits (command : String) : Bool := decide (command.utf8ByteSize + 1 ≤ 256)

/-- The result of `run_shell` for what its child has ended with. -/
def shellResult : Status → Except String Unit
  | .exited 0 => .ok ()
  | _ => .error "command failed"

/-- The command that `boot_tail_shutdown` chooses for a signal. -/
def command (n : Signals) (signal : ℤ) : Option Command :=
  if signal = n.sigusr1 then some .halt
  else if signal = n.sigusr2 then some .powerOff
  else if signal = n.sigterm then some .restart
  else none

/-- The next instruction of `boot_tail_shutdown`, where `fork` may fail. -/
def shutdown (forks : Bool) (command : Command) (s : Pid1) : Shutdown → Pid1
  | .command =>
    if fits rcK then { s with pc := .shutdown command .fork }
    else { s with pc := .shutdown command (.returned (.error "command too long")) }
  | .fork =>
    if forks then { s with shell := .running, pc := .shutdown command .waitpid }
    else
      { s with
        shell := .forkFailed
        pc := .shutdown command (.returned (.error "fork failed")) }
  | .waitpid | .blocked =>
    match s.shell with
    | .ended status => { s with pc := .shutdown command (.returned (shellResult status)) }
    | _ => { s with pc := .shutdown command .blocked }
  | .returned _ => { s with pc := .shutdown command .sync }
  | .sync => { s with pc := .shutdown command .reboot }
  | .reboot =>
    { s with reboots := s.reboots ++ [(command, s.shell)], pc := .shutdown command .sleep }
  | .sleep => s

/-- A child that has ended is waited for. -/
def reap (s : Pid1) : Pid1 := { s with zombies := s.zombies - 1, pc := .waited (.ok ()) }

/-- The next instruction of PID 1 outside of the handlers. -/
def boot (n : Signals) (forks : Bool) (s : Pid1) : Pid1 :=
  match s.pc with
  | .swap => { s with cell := 0, pc := .test s.cell }
  | .test signal =>
    if signal = 0 then { s with pc := .waitpid }
    else
      let s := { s with pending := s.pending.erase signal }
      match command n signal with
      | some command => { s with pc := .shutdown command .command }
      | none => { s with pc := .waitpid }
  | .waitpid =>
    if 0 < s.zombies then reap s
    else if s.children = 0 then { s with pc := .waited (.error echild) }
    else { s with pc := .blocked }
  | .blocked => if 0 < s.zombies then reap s else s
  | .waited (.ok _) => { s with pc := .swap }
  | .waited (.error errno) => { s with pc := if errno = eintr then .swap else .sleep }
  | .sleep => { s with pc := .swap }
  | .shutdown command stage => shutdown forks command s stage

/-- What a handler that is entered does to a call that sleeps: it is interrupted, unless the child
it waits for has ended. -/
def interrupt (s : Pid1) : Pid1 :=
  match s.pc with
  | .blocked =>
    if 0 < s.zombies then reap s else { s with pc := .waited (.error eintr) }
  | .sleep => { s with pc := .swap }
  | .shutdown command .blocked =>
    match s.shell with
    | .ended status => { s with pc := .shutdown command (.returned (shellResult status)) }
    | _ => { s with pc := .shutdown command (.returned (.error "waitpid failed")) }
  | _ => s

/-- What happens to PID 1: it goes on, a signal is delivered, the innermost handler stores its
signal, a child comes or ends, or the child of the shutdown ends. `SIGCHLD` has no handler. -/
inductive Event where
  | run (forks : Bool)
  | deliver (signal : Signal)
  | store
  | sigchld
  | childComes
  | childEnds
  | shellEnds (status : Status)

def step (n : Signals) (s : Pid1) : Event → Pid1
  | .run forks =>
    match s.handlers with
    | [] => boot n forks s
    | _ :: _ => s
  | .deliver signal =>
    let s := interrupt s
    { s with
      handlers := n.number signal :: s.handlers
      pending := s.pending ++ [n.number signal] }
  | .store =>
    match s.handlers with
    | [] => s
    | signal :: handlers =>
      { s with cell := signal, handlers, overwritten := s.overwritten || decide (s.cell ≠ 0) }
  | .sigchld => s
  | .childComes => { s with children := s.children + 1 }
  | .childEnds =>
    match s.children with
    | 0 => s
    | children + 1 => { s with children, zombies := s.zombies + 1 }
  | .shellEnds status =>
    match s.shell with
    | .running => { s with shell := .ended status }
    | _ => s

/-- PID 1 behind `install_boot_tail_signal_handlers`. -/
def start (children : ℕ) : Pid1 where
  pc := .swap
  cell := 0
  handlers := []
  children
  zombies := 0
  shell := .absent
  pending := []
  overwritten := false
  reboots := []

/-! ### No signal is lost -/

/-- The loop does not wait while a signal has not been handed to `boot_tail_shutdown`, and no signal
is overwritten. -/
structure Responsive (s : Pid1) : Prop where
  awake : s.pc = .blocked → s.pending = []
  overwritten : s.overwritten = false

/-- The loop has found no signal, and has not called `waitpid` yet. -/
def Pc.Window : Pc → Prop
  | .test signal => signal = 0
  | .waitpid => True
  | _ => False

/-- A signal is delivered only when the one before it has been handed to `boot_tail_shutdown`, and
between the swap and `waitpid` only when a child has ended. -/
def Allowed (s : Pid1) : Event → Prop
  | .deliver _ => s.pending = [] ∧ (s.pc.Window → 0 < s.zombies)
  | _ => True

/-- The signal that the loop has found. -/
def Pc.found : Pc → List ℤ
  | .test signal => if signal = 0 then [] else [signal]
  | _ => []

/-- The signals on their way from the handlers to the shutdown. -/
def Pid1.inFlight (s : Pid1) : List ℤ :=
  s.handlers ++ (if s.cell = 0 then [] else [s.cell]) ++ s.pc.found

/-- What every allowed step preserves: at most one signal is on its way, and while it is the loop
does not wait and will not. -/
structure Kept (s : Pid1) : Prop where
  inFlight : s.pending = s.inFlight
  single : s.pending.length ≤ 1
  nonzero : 0 ∉ s.handlers
  awake : s.pending ≠ [] → s.pc ≠ .blocked ∧ (s.pc.Window → 0 < s.zombies)
  overwritten : s.overwritten = false

theorem Signals.number_ne_zero (n : Signals) (signal : Signal) : n.number signal ≠ 0 := by
  have hzero := (List.nodup_cons.mp n.nodup).1
  intro heq
  apply hzero
  rw [← heq]
  cases signal with
  | usr1 => apply List.mem_cons_self
  | usr2 =>
      apply List.mem_cons_of_mem
      apply List.mem_cons_self
  | term =>
      apply List.mem_cons_of_mem
      apply List.mem_cons_of_mem
      apply List.mem_cons_self

section

variable {s s' : Pid1}

theorem kept_start (children : ℕ) : Kept (start children) := by
  constructor
  · rfl
  · apply Nat.zero_le
  · apply List.not_mem_nil
  · intro hno
    exact absurd rfl hno
  · rfl

theorem Kept.responsive (h : Kept s) : Responsive s := by
  constructor
  · intro hblocked
    by_contra hpending
    apply (h.awake hpending).1 hblocked
  · exact h.overwritten

/-- A step that leaves the signals where they are. -/
theorem Kept.moves (h : Kept s) (hpending : s'.pending = s.pending) (hcell : s'.cell = s.cell)
    (hhandlers : s'.handlers = s.handlers) (hoverwritten : s'.overwritten = s.overwritten)
    (hfound : s'.pc.found = s.pc.found)
    (hawake : s.pending ≠ [] → s'.pc ≠ .blocked ∧ (s'.pc.Window → 0 < s'.zombies)) :
  Kept s'
  := by
  constructor
  · rw [hpending, Pid1.inFlight, hcell, hhandlers, hfound]
    exact h.inFlight
  · rw [hpending]
    exact h.single
  · rw [hhandlers]
    exact h.nonzero
  · rw [hpending]
    exact hawake
  · rw [hoverwritten]
    exact h.overwritten

/-- The loop takes the signal out of the cell. -/
theorem kept_swap (h : Kept s) (hpc : s.pc = .swap) (hhandlers : s.handlers = []) :
  Kept { s with cell := 0, pc := .test s.cell }
  := by
  have hfound : s.pc.found = [] := congrArg Pc.found hpc
  have hpending := h.inFlight
  rw [Pid1.inFlight, hhandlers, hfound, List.nil_append, List.append_nil] at hpending
  constructor
  · rw [Pid1.inFlight, hhandlers]
    exact hpending
  · exact h.single
  · exact h.nonzero
  · intro hsome
    use nofun
    intro hwindow
    have hzero : s.cell = 0 := hwindow
    rw [if_pos hzero] at hpending
    exact absurd hpending hsome
  · exact h.overwritten

/-- The loop hands the signal it has found to `boot_tail_shutdown`. -/
theorem kept_handed (h : Kept s) {signal : ℤ} (hpc : s.pc = .test signal) (hsignal : signal ≠ 0)
    (hhandlers : s.handlers = []) {pc : Pc} (hfound : pc.found = []) :
  Kept { s with pending := s.pending.erase signal, pc }
  := by
  have hpending := h.inFlight
  have hsingle := h.single
  rw [Pid1.inFlight, hhandlers, hpc, List.nil_append, Pc.found, if_neg hsignal] at hpending
  have hcell : s.cell = 0 := by
    by_contra hcell
    rw [hpending, if_neg hcell] at hsingle
    exact absurd hsingle (Nat.not_succ_le_self 1)
  rw [if_pos hcell, List.nil_append] at hpending
  have herase : s.pending.erase signal = [] := by
    rw [hpending]
    apply List.erase_cons_head
  constructor
  · rw [Pid1.inFlight, hhandlers, hcell, hfound]
    exact herase
  · rw [herase]
    apply Nat.zero_le
  · exact h.nonzero
  · intro hno
    exact absurd herase hno
  · exact h.overwritten

theorem kept_shutdown (h : Kept s) (forks : Bool) {command : Command} {stage : Shutdown}
    (hpc : s.pc = .shutdown command stage) :
  Kept (shutdown forks command s stage)
  := by
  have hmoves : ∀ shell reboots stage,
      Kept { s with shell, reboots, pc := .shutdown command stage } := by
    intro shell reboots stage
    apply h.moves
    · rfl
    · rfl
    · rfl
    · rfl
    · rw [hpc]
      rfl
    · intro _
      exact ⟨nofun, False.elim⟩
  cases stage with
  | command =>
      rw [shutdown]
      split <;> apply hmoves
  | fork =>
      rw [shutdown]
      split <;> apply hmoves
  | waitpid =>
      rw [shutdown.eq_def]
      simp only
      split <;> apply hmoves
  | blocked =>
      rw [shutdown.eq_def]
      simp only
      split <;> apply hmoves
  | returned result => apply hmoves
  | sync => apply hmoves
  | reboot => apply hmoves
  | sleep => exact h

/-- A step from a place without a signal to one outside of the window. -/
theorem Kept.leaves (h : Kept s) (zombies : ℕ) {pc : Pc} (hbefore : s.pc.found = [])
    (hafter : pc.found = []) (hblocked : pc ≠ .blocked) (hwindow : ¬ pc.Window) :
  Kept { s with zombies, pc }
  := by
  apply h.moves
  · rfl
  · rfl
  · rfl
  · rfl
  · rw [hbefore, hafter]
  · intro _
    use hblocked
    intro hno
    exact absurd hno hwindow

theorem kept_boot (h : Kept s) (n : Signals) (forks : Bool) (hhandlers : s.handlers = []) :
  Kept (boot n forks s)
  := by
  have hawake := h.awake
  rw [boot.eq_def]
  split
  · next hpc => apply kept_swap h hpc hhandlers
  · next signal hpc =>
    split
    · next hzero =>
      rw [hpc] at hawake
      apply h.moves
      · rfl
      · rfl
      · rfl
      · rfl
      · rw [hpc, hzero]
        rfl
      · intro hpending
        use nofun
        intro _
        apply (hawake hpending).2 hzero
    · next hsignal =>
      simp only
      split <;> apply kept_handed h hpc hsignal hhandlers rfl
  · next hpc =>
    split
    · exact h.leaves _ (congrArg Pc.found hpc) rfl nofun id
    · next hnone =>
      split
      · exact h.leaves _ (congrArg Pc.found hpc) rfl nofun id
      · rw [hpc] at hawake
        apply h.moves
        · rfl
        · rfl
        · rfl
        · rfl
        · rw [hpc]
          rfl
        · intro hpending
          exact absurd ((hawake hpending).2 trivial) hnone
  · next hpc =>
    split
    · exact h.leaves _ (congrArg Pc.found hpc) rfl nofun id
    · exact h
  · next hpc => exact h.leaves _ (congrArg Pc.found hpc) rfl nofun id
  · next errno hpc =>
    split <;> exact h.leaves _ (congrArg Pc.found hpc) rfl nofun id
  · next hpc => exact h.leaves _ (congrArg Pc.found hpc) rfl nofun id
  · next command stage hpc => apply kept_shutdown h forks hpc

/-- What a handler that is entered does to a call that sleeps. -/
structure Interrupts (s s' : Pid1) : Prop where
  pending : s'.pending = s.pending
  cell : s'.cell = s.cell
  handlers : s'.handlers = s.handlers
  overwritten : s'.overwritten = s.overwritten
  found : s'.pc.found = s.pc.found
  awake : s'.pc ≠ .blocked
  window : s'.pc.Window → s.pc.Window ∧ s'.zombies = s.zombies

theorem interrupts_interrupt (s : Pid1) : Interrupts s (interrupt s) := by
  rw [interrupt.eq_def]
  split
  · next hpc =>
    split
    · exact ⟨rfl, rfl, rfl, rfl, (congrArg Pc.found hpc).symm, nofun, False.elim⟩
    · exact ⟨rfl, rfl, rfl, rfl, (congrArg Pc.found hpc).symm, nofun, False.elim⟩
  · next hpc =>
    exact ⟨rfl, rfl, rfl, rfl, (congrArg Pc.found hpc).symm, nofun, False.elim⟩
  · next command hpc =>
    split
    · exact ⟨rfl, rfl, rfl, rfl, (congrArg Pc.found hpc).symm, nofun, False.elim⟩
    · exact ⟨rfl, rfl, rfl, rfl, (congrArg Pc.found hpc).symm, nofun, False.elim⟩
  · next hblocked _ _ => exact ⟨rfl, rfl, rfl, rfl, rfl, hblocked, fun hwindow => ⟨hwindow, rfl⟩⟩

theorem kept_deliver (h : Kept s) {n : Signals} {signal : Signal}
    (hallowed : Allowed s (.deliver signal)) :
  Kept (step n s (.deliver signal))
  := by
  obtain ⟨hpending, hwindow⟩ := hallowed
  have hinterrupts := interrupts_interrupt s
  have hempty : (interrupt s).inFlight = [] := by
    rw [Pid1.inFlight, hinterrupts.cell, hinterrupts.handlers, hinterrupts.found]
    exact h.inFlight.symm.trans hpending
  have hpending' : (interrupt s).pending = [] := hinterrupts.pending.trans hpending
  have hhandlers : (interrupt s).handlers = [] := by
    rw [Pid1.inFlight] at hempty
    exact (List.append_eq_nil_iff.mp (List.append_eq_nil_iff.mp hempty).1).1
  constructor
  · have hnext : (step n s (.deliver signal)).inFlight =
        n.number signal :: (interrupt s).inFlight := rfl
    rw [hnext, hempty]
    exact congrArg (· ++ [n.number signal]) hpending'
  · simp only [step, hpending']
    apply Nat.le_refl
  · simp only [step, hhandlers]
    intro hzero
    apply n.number_ne_zero signal (List.mem_singleton.mp hzero).symm
  · intro _
    use hinterrupts.awake
    intro hafter
    obtain ⟨hbefore, hzombies⟩ := hinterrupts.window hafter
    apply Nat.lt_of_lt_of_eq (hwindow hbefore) hzombies.symm
  · exact hinterrupts.overwritten.trans h.overwritten

theorem kept_store (h : Kept s) (n : Signals) : Kept (step n s .store) := by
  rw [step.eq_def]
  simp only
  split
  · exact h
  · next signal handlers hhandlers =>
    have hpending := h.inFlight
    have hsingle := h.single
    have hnonzero := h.nonzero
    rw [hhandlers] at hnonzero
    have hsignal : signal ≠ 0 := fun hzero => hnonzero (hzero ▸ List.mem_cons_self)
    rw [hpending, Pid1.inFlight, hhandlers, List.cons_append, List.cons_append,
      List.length_cons] at hsingle
    -- The signal is the only one on its way.
    have hrest : handlers ++ (if s.cell = 0 then [] else [s.cell]) ++ s.pc.found = [] :=
      List.length_eq_zero_iff.mp (Nat.le_zero.mp (Nat.le_of_succ_le_succ hsingle))
    obtain ⟨hboth, hfound⟩ := List.append_eq_nil_iff.mp hrest
    obtain ⟨hnone, hcell⟩ := List.append_eq_nil_iff.mp hboth
    have hcell' : s.cell = 0 := by
      by_contra hno
      rw [if_neg hno] at hcell
      cases hcell
    rw [Pid1.inFlight, hhandlers, List.cons_append, List.cons_append, hrest] at hpending
    constructor
    · simp only [Pid1.inFlight, hnone, hfound, if_neg hsignal]
      exact hpending
    · exact h.single
    · rw [hnone]
      apply List.not_mem_nil
    · exact h.awake
    · simp only [h.overwritten, hcell', ne_eq, not_true, decide_false, Bool.or_false]

theorem kept_step (h : Kept s) {n : Signals} {e : Event} (hallowed : Allowed s e) :
  Kept (step n s e)
  := by
  cases e with
  | run forks =>
      rw [step.eq_def]
      simp only
      split
      · next hhandlers => apply kept_boot h n forks hhandlers
      · exact h
  | deliver signal => apply kept_deliver h hallowed
  | store => apply kept_store h
  | sigchld => exact h
  | childComes =>
      apply h.moves
      · rfl
      · rfl
      · rfl
      · rfl
      · rfl
      · exact h.awake
  | childEnds =>
      rw [step.eq_def]
      simp only
      split
      · exact h
      · apply h.moves
        · rfl
        · rfl
        · rfl
        · rfl
        · rfl
        · intro hpending
          obtain ⟨hblocked, hwindow⟩ := h.awake hpending
          use hblocked
          intro _
          apply Nat.succ_pos
  | shellEnds status =>
      rw [step.eq_def]
      simp only
      split
      · apply h.moves
        · rfl
        · rfl
        · rfl
        · rfl
        · rfl
        · exact h.awake
      · exact h

/-- In every run in which a signal is delivered only when the one before it has been handed over,
and between the swap and `waitpid` only when a child has ended, the loop does not wait while a
signal has not been handed over, and no signal is overwritten. -/
theorem responsive_of_reaches {n : Signals} {children : ℕ}
    (h : Runs.Reaches (step n) Allowed (start children) s) :
  Responsive s
  := by
  apply Kept.responsive
  apply h.invariant
  · intro s e hs hallowed
    apply kept_step hs hallowed
  · apply kept_start

end

/-- The numbers of the signals on most architectures. -/
def generic : Signals := ⟨10, 12, 15, by decide⟩

/-- The loop waits for a child, and a signal wakes it. -/
theorem responsive_term :
  Responsive ([.run true, .run true, .run true, .deliver .term, .store, .run true, .run true,
    .run true].foldl (step generic) (start 1))
  := by
  apply @responsive_of_reaches _ generic 1
  apply Runs.reaches_foldl (Runs.Reaches.refl _)
  exact ⟨trivial, trivial, trivial, ⟨rfl, nofun⟩, trivial, trivial, trivial, trivial, trivial⟩

/-- A signal that comes behind the swap is not seen while the loop waits for a child. -/
theorem not_responsive :
  ¬ ∀ (n : Signals) (children : ℕ) (events : List Event),
    Responsive (events.foldl (step n) (start children))
  := by
  intro h
  have hpending := (h generic 1 [.run true, .run true, .deliver .term, .store, .run true]).awake rfl
  cases hpending

end BootTail

import CatplayFirmware.Otalib.Boot.BootTail

/-!
# The shutdown

`boot_tail_shutdown` runs a script that stops the system and unmounts its file systems, and calls
`reboot` whatever `run_shell` returns. The child that runs the script has ended by then, as long as
no signal interrupts the call that waits for it.
-/

namespace BootTail

/-- The child has ended, or there is none since `fork` failed. -/
def Shell.Over : Shell → Prop
  | .forkFailed | .ended _ => True
  | .absent | .running => False

/-- `reboot` is called only when the child is over, and `run_shell` returns `Ok` only when it has
exited with the code zero. -/
structure Orderly (s : Pid1) : Prop where
  reboots : ∀ reboot ∈ s.reboots, reboot.2.Over
  returned : ∀ command, s.pc = .shutdown command (.returned (.ok ())) →
    s.shell = .ended (.exited 0)

/-- No signal is delivered while `run_shell` waits for a child that runs. -/
def Uninterrupted (s : Pid1) : Event → Prop
  | .deliver _ => ∀ command, s.pc = .shutdown command .blocked → s.shell ≠ .running
  | _ => True

/-- What is known of the child at each place. -/
def Pc.Knows (shell : Shell) : Pc → Prop
  | .shutdown _ .command | .shutdown _ .fork => shell = .absent
  | .shutdown _ .waitpid | .shutdown _ .blocked => shell = .running ∨ ∃ status, shell = .ended status
  | .shutdown _ (.returned result) =>
    shell.Over ∧ (result = .ok () → shell = .ended (.exited 0))
  | .shutdown _ .sync | .shutdown _ .reboot | .shutdown _ .sleep => shell.Over
  | _ => shell = .absent

/-- A child that runs is one that `run_shell` waits for. -/
theorem Pc.Knows.ends {pc : Pc} (h : pc.Knows .running) (status : Status) :
  pc.Knows (.ended status)
  := by
  cases pc with
  | shutdown command stage =>
      cases stage with
      | waitpid => exact .inr ⟨status, rfl⟩
      | blocked => exact .inr ⟨status, rfl⟩
      | command => cases h
      | fork => cases h
      | returned result => exact h.1.elim
      | sync => exact h.elim
      | reboot => exact h.elim
      | sleep => exact h.elim
  | swap => cases h
  | test signal => cases h
  | waitpid => cases h
  | blocked => cases h
  | waited result => cases h
  | sleep => cases h

/-- What every step preserves. -/
structure Ordered (s : Pid1) : Prop where
  knows : s.pc.Knows s.shell
  reboots : ∀ reboot ∈ s.reboots, reboot.2.Over

/-- Only a script that has ended by itself with 0 is reported as done. -/
theorem shellResult_eq_ok {status : Status} (h : shellResult status = .ok ()) :
  status = .exited 0
  := by
  rw [shellResult.eq_def] at h
  split at h
  · rfl
  · cases h

theorem knows_returned (status : Status) (command : Command) :
  (Pc.shutdown command (.returned (shellResult status))).Knows (.ended status)
  := by
  constructor
  · trivial
  · intro hok
    rw [shellResult_eq_ok hok]

theorem fits_rcK : fits rcK = true := by decide

section

variable {s : Pid1}

/-- What the invariant is for. -/
theorem Ordered.orderly (h : Ordered s) : Orderly s := by
  use h.reboots
  intro command hpc
  have hknows := h.knows
  rw [hpc] at hknows
  apply hknows.2 rfl

/-- A system that starts is in order. -/
theorem ordered_start (children : ℕ) : Ordered (start children) := by
  use rfl
  intro _ hmem
  cases hmem

/-- `waitpid` returns what a child has ended with. -/
theorem Ordered.returns (h : Ordered s) {command : Command} {status : Status}
    (hended : s.shell = .ended status) :
  Ordered { s with pc := .shutdown command (.returned (shellResult status)) }
  := by
  refine ⟨?_, h.reboots⟩
  simp only [hended]
  apply knows_returned

/-- Each stage of the shutdown has waited for the one before. -/
theorem ordered_shutdown (h : Ordered s) (forks : Bool) {command : Command} {stage : Shutdown}
    (hpc : s.pc = .shutdown command stage) :
  Ordered (shutdown forks command s stage)
  := by
  have hknows := h.knows
  have hreboots := h.reboots
  rw [hpc] at hknows
  -- Before and behind the entry into the kernel `waitpid` does the same.
  have hwaits : (s.shell = .running ∨ ∃ status, s.shell = .ended status) →
      Ordered (shutdown forks command s .waitpid) := by
    intro hchild
    rw [shutdown.eq_def]
    simp only
    split
    · next status hended => apply h.returns hended
    · exact ⟨hchild, hreboots⟩
  cases stage with
  | command =>
      rw [shutdown, if_pos fits_rcK]
      exact ⟨hknows, hreboots⟩
  | fork =>
      cases forks with
      | true => exact ⟨.inl rfl, hreboots⟩
      | false =>
          refine ⟨⟨trivial, ?_⟩, hreboots⟩
          intro hforked
          cases hforked
  | waitpid => apply hwaits hknows
  | blocked => apply hwaits hknows
  | returned result => exact ⟨hknows.1, hreboots⟩
  | sync => exact ⟨hknows, hreboots⟩
  | reboot =>
      use hknows
      intro reboot hmem
      rcases List.mem_append.mp hmem with hbefore | hnow
      · apply hreboots reboot hbefore
      · rw [List.mem_singleton.mp hnow]
        exact hknows
  | sleep => exact h

/-- What the process does next, at whatever stage it is. -/
theorem ordered_boot (h : Ordered s) (n : Signals) (forks : Bool) : Ordered (boot n forks s) := by
  have hknows := h.knows
  have hreboots := h.reboots
  rw [boot.eq_def]
  split
  · next hpc =>
    rw [hpc] at hknows
    exact ⟨hknows, hreboots⟩
  · next signal hpc =>
    rw [hpc] at hknows
    split
    · exact ⟨hknows, hreboots⟩
    · simp only
      split <;> exact ⟨hknows, hreboots⟩
  · next hpc =>
    rw [hpc] at hknows
    split
    · exact ⟨hknows, hreboots⟩
    · split <;> exact ⟨hknows, hreboots⟩
  · next hpc =>
    split
    · rw [hpc] at hknows
      exact ⟨hknows, hreboots⟩
    · exact h
  · next hpc =>
    rw [hpc] at hknows
    exact ⟨hknows, hreboots⟩
  · next errno hpc =>
    rw [hpc] at hknows
    split <;> exact ⟨hknows, hreboots⟩
  · next hpc =>
    rw [hpc] at hknows
    exact ⟨hknows, hreboots⟩
  · next command stage hpc => apply ordered_shutdown h forks hpc

/-- A signal that comes while nothing is waited for does no harm. -/
theorem ordered_interrupt (h : Ordered s)
    (huninterrupted : ∀ command, s.pc = .shutdown command .blocked → s.shell ≠ .running) :
  Ordered (interrupt s)
  := by
  have hknows := h.knows
  have hreboots := h.reboots
  rw [interrupt.eq_def]
  split
  · next hpc =>
    rw [hpc] at hknows
    split <;> exact ⟨hknows, hreboots⟩
  · next hpc =>
    rw [hpc] at hknows
    exact ⟨hknows, hreboots⟩
  · next command hpc =>
    rw [hpc] at hknows
    split
    · next status hended => apply h.returns hended
    · next hno =>
      rcases hknows with hrunning | ⟨status, hended⟩
      · exact absurd hrunning (huninterrupted command hpc)
      · exact absurd hended (hno status)
  · exact h

/-- Every event keeps the order, if the script is not interrupted while it is waited for. -/
theorem ordered_step (h : Ordered s) {n : Signals} {e : Event} (hallowed : Uninterrupted s e) :
  Ordered (step n s e)
  := by
  have hknows := h.knows
  have hreboots := h.reboots
  rw [step.eq_def]
  cases e with
  | run forks =>
      simp only
      split
      · apply ordered_boot h
      · exact h
  | deliver signal =>
      have hinterrupt := ordered_interrupt h hallowed
      exact ⟨hinterrupt.knows, hinterrupt.reboots⟩
  | store =>
      simp only
      split
      · exact h
      · exact ⟨hknows, hreboots⟩
  | sigchld => exact h
  | childComes => exact ⟨hknows, hreboots⟩
  | childEnds =>
      simp only
      split
      · exact h
      · exact ⟨hknows, hreboots⟩
  | shellEnds status =>
      simp only
      split
      · next hrunning =>
        rw [hrunning] at hknows
        exact ⟨hknows.ends status, hreboots⟩
      · exact h

/-- In every run in which no signal is delivered while `run_shell` waits for a child that runs,
`reboot` is called only when the child is over, and `run_shell` returns `Ok` only when it has
exited with the code zero. -/
theorem orderly_of_reaches {n : Signals} {children : ℕ}
    (h : Runs.Reaches (step n) Uninterrupted (start children) s) :
  Orderly s
  := by
  apply Ordered.orderly
  apply h.invariant
  · intro s e hs hallowed
    apply ordered_step hs hallowed
  · apply ordered_start

end

/-- A signal shuts the system down, the script ends, and `reboot` is called. -/
def scriptEnds : List Event :=
  [.deliver .term, .store, .run true, .run true, .run true, .run true, .run true,
    .shellEnds (.exited 0), .run true, .run true, .run true, .run true]

theorem orderly_scriptEnds : Orderly (scriptEnds.foldl (step generic) (start 1)) := by
  apply @orderly_of_reaches _ generic 1
  apply Runs.reaches_foldl (Runs.Reaches.refl _)
  exact ⟨nofun, trivial, trivial, trivial, trivial, trivial, trivial, trivial, trivial, trivial,
    trivial, trivial, trivial⟩

/-- A second signal comes while the script runs. -/
def secondSignal : List Event :=
  [.deliver .term, .store, .run true, .run true, .run true, .run true, .run true,
    .deliver .term, .store, .run true, .run true, .run true, .run true]

/-- A second signal makes `run_shell` return, and `reboot` is called while the script runs. -/
theorem not_orderly :
  ¬ ∀ (n : Signals) (children : ℕ) (events : List Event),
    Orderly (events.foldl (step n) (start children))
  := by
  intro h
  have hreboots := (h generic 1 secondSignal).reboots
  exact hreboots (.restart, .running) List.mem_cons_self

end BootTail

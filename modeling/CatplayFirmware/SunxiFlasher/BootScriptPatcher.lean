import CatplayFirmware.Support.Runs
import CatplayFirmware.Support.Text

/-!
# The hook of the boot script

The patched boot script asks the boot ROM for its FEL mode on the first boots after an update, five
times at most. What is left of the five attempts and that they are over is kept in two variables of
the boot environment, and each reading and each writing of a variable can fail. A variable that
cannot be read is taken for one that is absent.

The attempts are bounded in every run in which a stored variable is not missed when an attempt is
made, and in which the counter is cleared only when the end of the attempts is stored.
-/

namespace BootScriptPatcher

open Text

/-- The variables of the boot environment. -/
structure Env where
  attempts : Option Text
  complete : Option Text
  deriving DecidableEq

/-- The calls of one run of the hook that fail. -/
structure Failures where
  printComplete : Bool
  printAttempts : Bool
  setComplete : Bool
  clearAttempts : Bool
  setAttempts : Bool

/-- `$(fw_printenv -n name 2>/dev/null || true)` -/
def fwPrintenv (value : Option Text) (fails : Bool) : Text := if fails then [] else value.getD []

/-- `fw_setenv name value`, where no value deletes the variable. -/
def fwSetenv (old new : Option Text) (fails : Bool) : Option Text := if fails then old else new

/-- The digits of a number to the base eight. -/
def octal? (s : Text) : Option ℕ :=
  if s.all fun c => '0' ≤ c && c < '8' then some (Nat.ofDigitChars 8 s 0) else none

/-- The number that a text of digits stands for in `$(( ))`. -/
def arithmetic? : Text → Option ℕ
  | '0' :: d :: rest => octal? (d :: rest)
  | s => digits? s

/-- The ways in which the hook returns or does not. -/
inductive Result where
  | complete
  | notNumber
  | exhausted
  | unsaved
  /-- The shell ends with an error. -/
  | aborted
  /-- The boot ROM is asked for its FEL mode, and the device is started again. -/
  | payload
  deriving DecidableEq

/-- `catplay_v821_fel_hook` -/
def felHook (env : Env) (fails : Failures) : Env × Result :=
  if fwPrintenv env.complete fails.printComplete = ['1'] then
    ({ env with attempts := fwSetenv env.attempts none fails.clearAttempts }, .complete)
  else
    let printed := fwPrintenv env.attempts fails.printAttempts
    let tries := if printed = [] then ['5'] else printed
    let stopped : Env :=
      { complete := fwSetenv env.complete (some ['1']) fails.setComplete
        attempts := fwSetenv env.attempts none fails.clearAttempts }
    if ¬ tries.all Char.isDigit then (stopped, .notNumber)
    else if digits? tries = some 0 then (stopped, .exhausted)
    else match arithmetic? tries with
      | none => (env, .aborted)
      | some n =>
        if fails.setAttempts then (env, .unsaved)
        else ({ env with attempts := some (ofNat (n - 1)) }, .payload)

/-! ### Runs -/

/-- What happens to a device: a boot, or an update that clears both variables. -/
inductive Event where
  | boot (fails : Failures)
  | rearm

/-- A device, with what has happened since the last update: the boots that have reached the
payload, whether a boot has found the attempts used up, and whether one after that has reached the
payload. -/
structure Device where
  env : Env
  payloads : ℕ
  exhausted : Bool
  late : Bool
  deriving DecidableEq

/-- A device with both variables absent. -/
def Device.armed : Device := ⟨⟨none, none⟩, 0, false, false⟩

def step (device : Device) : Event → Device
  | .rearm => .armed
  | .boot fails =>
    match felHook device.env fails with
    | (env, .payload) =>
      { device with
        env
        payloads := device.payloads + 1
        late := device.late || device.exhausted }
    | (env, .exhausted) => { device with env, exhausted := true }
    | (env, _) => { device with env }

/-- The attempts are bounded: five at most, and none after they are used up. -/
structure Bounded (device : Device) : Prop where
  payloads : device.payloads ≤ 5
  late : device.late = false

/-- A new budget is saved only when no variable is stored, and the counter is not cleared when it
is used up and that is not stored. -/
structure Sound (env : Env) (fails : Failures) : Prop where
  fresh : fwPrintenv env.complete fails.printComplete ≠ ['1'] →
    fwPrintenv env.attempts fails.printAttempts = [] → fails.setAttempts = false →
      env.attempts = none ∧ env.complete = none
  stopped : digits? (fwPrintenv env.attempts fails.printAttempts) = some 0 →
    env.complete = none → fails.setComplete = true → fails.clearAttempts = true

def Allowed (device : Device) : Event → Prop
  | .boot fails => Sound device.env fails
  | .rearm => True

/-! ### What the hook does -/

/-- What the hook stores when it stops. -/
def stopped (env : Env) (fails : Failures) : Env where
  complete := fwSetenv env.complete (some ['1']) fails.setComplete
  attempts := fwSetenv env.attempts none fails.clearAttempts

/-- The attempt that the hook makes with `n` attempts left. -/
def attempt (env : Env) (fails : Failures) (n : ℕ) : Env × Result :=
  if fails.setAttempts then (env, .unsaved)
  else ({ env with attempts := some (ofNat (n - 1)) }, .payload)

theorem felHook_done {env : Env} {fails : Failures}
    (h : fwPrintenv env.complete fails.printComplete = ['1']) :
  felHook env fails =
    ({ env with attempts := fwSetenv env.attempts none fails.clearAttempts }, .complete)
  := by
  rw [felHook, if_pos h]

/-- A counter that is not seen stands for five attempts. -/
theorem felHook_fresh {env : Env} {fails : Failures}
    (h : fwPrintenv env.complete fails.printComplete ≠ ['1'])
    (hprinted : fwPrintenv env.attempts fails.printAttempts = []) :
  felHook env fails = attempt env fails 5
  := by
  have hdigits : digits? ['5'] = some 5 := rfl
  rw [felHook, if_neg h, hprinted]
  simp only [if_true]
  rw [if_neg (by decide), hdigits, if_neg (by decide)]
  rfl

/-- In `$(( ))` the counter stands for its number: the digits are those of a number below ten. -/
theorem arithmetic?_ofNat : ∀ n ≤ 5, arithmetic? (ofNat n) = some n := by decide

/-- The hook counts down, and stops at zero. -/
theorem felHook_count {env : Env} {fails : Failures} {n : ℕ} (hn : n ≤ 5)
    (h : fwPrintenv env.complete fails.printComplete ≠ ['1'])
    (hprinted : fwPrintenv env.attempts fails.printAttempts = ofNat n) :
  felHook env fails = if n = 0 then (stopped env fails, .exhausted) else attempt env fails n
  := by
  have hall : (ofNat n).all Char.isDigit = true := by
    rw [List.all_eq_true]
    intro c hc
    apply isDigit_of_mem_ofNat hc
  rw [felHook, if_neg h, hprinted]
  simp only
  rw [if_neg (ofNat_ne_nil n), if_neg (not_not.mpr hall), digits?_ofNat, arithmetic?_ofNat n hn]
  split
  · next hzero =>
    rw [if_pos (Option.some.inj hzero)]
    rfl
  · next hzero =>
    rw [if_neg]
    · rfl
    · rintro rfl
      exact hzero rfl

/-! ### The invariant -/

/-- Both variables are absent, and nothing has happened. -/
structure Fresh (device : Device) : Prop where
  complete : device.env.complete = none
  attempts : device.env.attempts = none
  payloads : device.payloads = 0
  exhausted : device.exhausted = false

/-- The counter is what is left of five attempts. -/
structure Counting (device : Device) : Prop where
  complete : device.env.complete = none
  attempts : ∃ n, device.env.attempts = some (ofNat n) ∧ device.payloads + n = 5 ∧
    (device.exhausted = true → n = 0)

/-- The end of the attempts is stored. -/
structure Complete (device : Device) : Prop where
  complete : device.env.complete = some ['1']
  attempts : device.env.attempts = none ∨ device.env.attempts = some (ofNat 0)
  payloads : device.payloads ≤ 5

/-- The variables tell how many attempts are left. -/
structure Kept (device : Device) : Prop where
  late : device.late = false
  counted : Fresh device ∨ Counting device ∨ Complete device

theorem Kept.bounded {device : Device} (h : Kept device) : Bounded device := by
  constructor
  · rcases h.counted with h | h | h
    · rw [h.payloads]
      apply Nat.zero_le
    · obtain ⟨n, -, hn, -⟩ := h.attempts
      omega
    · apply h.payloads
  · apply h.late

theorem armed_kept : Kept .armed := ⟨rfl, .inl ⟨rfl, rfl, rfl, rfl⟩⟩

theorem step_exhausted {device : Device} {fails : Failures} {env : Env}
    (h : felHook device.env fails = (env, .exhausted)) :
  step device (.boot fails) = { device with env, exhausted := true }
  := by
  rw [step, h]

theorem step_complete {device : Device} {fails : Failures} {env : Env}
    (h : felHook device.env fails = (env, .complete)) :
  step device (.boot fails) = { device with env }
  := by
  rw [step, h]

theorem step_attempt {device : Device} {fails : Failures} {n : ℕ}
    (h : felHook device.env fails = attempt device.env fails n) :
  step device (.boot fails) =
    if fails.setAttempts then device
    else { device with
      env := { device.env with attempts := some (ofNat (n - 1)) }
      payloads := device.payloads + 1
      late := device.late || device.exhausted }
  := by
  rw [step, h, attempt]
  cases fails.setAttempts with
  | true => rfl
  | false => rfl

/-- A boot with both variables absent makes the first of five attempts. -/
theorem Fresh.step_kept {device : Device} (h : Fresh device) (hlate : device.late = false)
    (fails : Failures) :
  Kept (step device (.boot fails))
  := by
  have hdone : fwPrintenv device.env.complete fails.printComplete ≠ ['1'] := by
    rw [h.complete, fwPrintenv]
    split
    · nofun
    · nofun
  have hprinted : fwPrintenv device.env.attempts fails.printAttempts = [] := by
    rw [h.attempts, fwPrintenv]
    split
    · rfl
    · rfl
  rw [step_attempt (felHook_fresh hdone hprinted)]
  split
  · exact ⟨hlate, .inl h⟩
  · constructor
    · simp only [hlate, h.exhausted, Bool.or_self]
    · right
      left
      constructor
      · apply h.complete
      · use 4, rfl
        constructor
        · simp only [h.payloads]
        · simp only [h.exhausted, Bool.false_eq_true, false_implies]

/-- A boot with some attempts left makes the next one, and a boot with none left stores that. -/
theorem Counting.step_kept {device : Device} (h : Counting device) (hlate : device.late = false)
    {fails : Failures} (hsound : Sound device.env fails) :
  Kept (step device (.boot fails))
  := by
  obtain ⟨n, hattempts, hleft, hexhausted⟩ := h.attempts
  have hdone : fwPrintenv device.env.complete fails.printComplete ≠ ['1'] := by
    rw [h.complete, fwPrintenv]
    split
    · nofun
    · nofun
  cases hprint : fails.printAttempts with
  | true =>
      have hprinted : fwPrintenv device.env.attempts fails.printAttempts = [] := by
        rw [hprint]
        rfl
      rw [step_attempt (felHook_fresh hdone hprinted)]
      split
      · exact ⟨hlate, .inr (.inl h)⟩
      · next hset =>
        have hnone := (hsound.fresh hdone hprinted (eq_false_of_ne_true hset)).1
        rw [hattempts] at hnone
        cases hnone
  | false =>
      have hprinted : fwPrintenv device.env.attempts fails.printAttempts = ofNat n := by
        rw [hprint, hattempts]
        rfl
      have hhook := felHook_count (by omega) hdone hprinted
      by_cases hzero : n = 0
      · rw [if_pos hzero] at hhook
        rw [step_exhausted hhook]
        use hlate
        right
        cases hset : fails.setComplete with
        | false =>
            right
            constructor
            · simp only [stopped, fwSetenv, hset, Bool.false_eq_true, if_false]
            · simp only [stopped, fwSetenv, hattempts, hzero]
              cases fails.clearAttempts with
              | true => exact .inr rfl
              | false => exact .inl rfl
            · simp only
              omega
        | true =>
            -- the counter is not cleared, since the end is not stored
            have hzero' :
                digits? (fwPrintenv device.env.attempts fails.printAttempts) = some 0 := by
              rw [hprinted, hzero, digits?_ofNat]
            have hclear := hsound.stopped hzero' h.complete hset
            left
            constructor
            · simp only [stopped, fwSetenv, hset, if_true, h.complete]
            · use 0
              simp only [stopped, fwSetenv, hclear, if_true, hattempts, hzero, true_and]
              exact ⟨by omega, fun _ => trivial⟩
      · rw [if_neg hzero] at hhook
        rw [step_attempt hhook]
        split
        · exact ⟨hlate, .inr (.inl h)⟩
        · have hfalse : device.exhausted = false := by
            apply eq_false_of_ne_true
            intro htrue
            exact hzero (hexhausted htrue)
          constructor
          · simp only [hlate, hfalse, Bool.or_self]
          · right
            left
            constructor
            · apply h.complete
            · use n - 1, rfl
              constructor
              · simp only
                omega
              · simp only [hfalse, Bool.false_eq_true, false_implies]

/-- A boot after the end of the attempts is stored does not reach the payload. -/
theorem Complete.step_kept {device : Device} (h : Complete device) (hlate : device.late = false)
    {fails : Failures} (hsound : Sound device.env fails) :
  Kept (step device (.boot fails))
  := by
  have hcleared : fwSetenv device.env.attempts none fails.clearAttempts = none ∨
      fwSetenv device.env.attempts none fails.clearAttempts = some (ofNat 0) := by
    rw [fwSetenv]
    split
    · exact h.attempts
    · exact .inl rfl
  by_cases hdone : fwPrintenv device.env.complete fails.printComplete = ['1']
  · rw [step_complete (felHook_done hdone)]
    exact ⟨hlate, .inr (.inr ⟨h.complete, hcleared, h.payloads⟩)⟩
  by_cases hprinted : fwPrintenv device.env.attempts fails.printAttempts = []
  · rw [step_attempt (felHook_fresh hdone hprinted)]
    split
    · exact ⟨hlate, .inr (.inr h)⟩
    · next hset =>
      have hnone := (hsound.fresh hdone hprinted (eq_false_of_ne_true hset)).2
      rw [h.complete] at hnone
      cases hnone
  · have hzero : fwPrintenv device.env.attempts fails.printAttempts = ofNat 0 := by
      rw [fwPrintenv] at hprinted ⊢
      split at hprinted
      · exact absurd rfl hprinted
      · next hprint =>
        rw [if_neg hprint]
        rcases h.attempts with hattempts | hattempts
        · rw [hattempts] at hprinted
          exact absurd rfl hprinted
        · rw [hattempts]
          rfl
    have hhook := felHook_count (Nat.zero_le 5) hdone hzero
    rw [if_pos rfl] at hhook
    rw [step_exhausted hhook]
    refine ⟨hlate, .inr (.inr ⟨?_, hcleared, h.payloads⟩)⟩
    simp only [stopped, fwSetenv, h.complete, ite_self]

theorem step_kept {device : Device} {event : Event} (h : Kept device)
    (hallowed : Allowed device event) :
  Kept (step device event)
  := by
  cases event with
  | rearm => exact armed_kept
  | boot fails =>
      rcases h.counted with hcase | hcase | hcase
      · apply hcase.step_kept h.late
      · apply hcase.step_kept h.late hallowed
      · apply hcase.step_kept h.late hallowed

/-- In every run in which no stored variable is missed when an attempt is made, and the counter is
cleared only when the end of the attempts is stored, the attempts are bounded. -/
theorem bounded_of_reaches {device : Device}
    (h : Runs.Reaches step Allowed .armed device) :
  Bounded device
  := by
  have hkept : Kept device := h.invariant (fun _ _ hs he => step_kept hs he) armed_kept
  exact hkept.bounded

/-- A boot on which all calls work. -/
def works : Failures := ⟨false, false, false, false, false⟩

/-- When all calls work, no stored variable is missed. -/
theorem Kept.sound_works {device : Device} (h : Kept device) : Sound device.env works := by
  constructor
  · intro hdone hprinted _
    rcases h.counted with h | h | h
    · exact ⟨h.attempts, h.complete⟩
    · obtain ⟨n, hattempts, -⟩ := h.attempts
      rw [hattempts] at hprinted
      exact absurd hprinted (ofNat_ne_nil n)
    · rw [h.complete] at hdone
      exact absurd rfl hdone
  · intro _ _ hset
    cases hset

/-- Seven boots on which all calls work reach the payload five times. -/
theorem bounded_works :
  Bounded ((fun device => step device (.boot works))^[7] .armed) ∧
    ((fun device => step device (.boot works))^[7] Device.armed).payloads = 5
  := by
  have hstep : ∀ device, Kept device →
      Allowed device (.boot works) ∧ Kept (step device (.boot works)) := by
    intro device hkept
    have hallowed : Allowed device (.boot works) := hkept.sound_works
    exact ⟨hallowed, step_kept hkept hallowed⟩
  have hrun := (Runs.reaches_iterate hstep armed_kept 7).1
  constructor
  · apply bounded_of_reaches hrun
  · decide

/-- A boot on which the counter cannot be read. -/
def unread : Failures := ⟨false, true, false, false, false⟩

/-- Six boots on which the counter cannot be read reach the payload six times. -/
theorem not_bounded_unread :
  ∃ device, Runs.Reaches step (fun _ _ => True) .armed device ∧ ¬ Bounded device
  := by
  use (fun device => step device (.boot unread))^[6] .armed
  constructor
  · exact (Runs.reaches_iterate (P := fun _ => True) (fun _ _ => ⟨trivial, trivial⟩) trivial 6).1
  · intro h
    have hpayloads :
        ((fun device => step device (.boot unread))^[6] Device.armed).payloads = 6 := by
      decide
    have hbound := h.payloads
    omega

end BootScriptPatcher

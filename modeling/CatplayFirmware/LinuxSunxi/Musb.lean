import CatplayFirmware.Support.Runs
import Mathlib.Data.Int.Notation
import Mathlib.Tactic.Common

/-!
# The USB role switch

One USB port is driven by the gadget controller or by a pair of host controllers. The role switch
releases the PHY and the reset of the port before it adds the host controllers, and removes them
before it acquires the PHY and the reset again. Every call into the kernel may fail, and a worker
may turn the PHY on and off between two changes of the role.
-/

namespace Musb

inductive UsbRole
  | none
  | host
  | device
  deriving DecidableEq

inductive PhyMode
  | usbHost
  | usbDevice
  | usbOtg
  deriving DecidableEq

/-- The calls to the PHY and to the reset of the port. -/
inductive Call
  | setMode (mode : PhyMode)
  | init
  | exit
  | powerOn
  | powerOff
  | assert
  | deassert
  deriving DecidableEq

/-- `struct sunxi_glue`, the flags of the nodes of the host controllers, and the calls made so far
with what they returned. -/
structure Glue where
  rstUsb : Bool
  role : UsbRole
  ehciPdev : Bool
  ohciPdev : Bool
  ehciPopulated : Bool
  ohciPopulated : Bool
  phyInitialized : Bool
  usbResetDeasserted : Bool
  phyOn : Bool
  vbusOn : Bool
  phyMode : PhyMode
  calls : List (Call × ℤ)
  deriving DecidableEq

/-- What the calls of `sunxi_musb_release_device_resources` return. -/
structure ReleaseResults where
  setMode : ℤ
  powerOff : ℤ
  exit : ℤ
  powerOn : ℤ
  assert : ℤ
  reinit : ℤ
  repowerOn : ℤ

/-- What the calls of `sunxi_musb_acquire_device_resources` return. -/
structure AcquireResults where
  deassert : ℤ
  init : ℤ
  setMode : ℤ
  exit : ℤ
  assert : ℤ

/-- What `sunxi_musb_alloc_host_controller` finds. -/
structure AllocResults where
  found : Bool
  available : Bool
  allocated : Bool

/-- What the calls of `sunxi_musb_add_host_controllers` return. -/
structure AddResults where
  ehci : AllocResults
  ohci : AllocResults
  ehciAdd : ℤ
  linked : Bool
  ohciAdd : ℤ

/-- What the calls of one change of the role return. -/
structure Results where
  release : ReleaseResults
  add : AddResults
  acquire : AcquireResults

def enodev : ℤ := -19

def ebusy : ℤ := -16

def enomem : ℤ := -12

/-- The state after a call. -/
def Glue.call (g : Glue) (c : Call) (ret : ℤ) : Glue := { g with calls := g.calls ++ [(c, ret)] }

def removeHostControllers (g : Glue) : Glue :=
  let g := if g.ohciPdev then { g with ohciPopulated := false, ohciPdev := false } else g
  if g.ehciPdev then { g with ehciPopulated := false, ehciPdev := false } else g

/-- `sunxi_musb_alloc_host_controller`: the flag of the node after the call, and the error. -/
def allocHostController (r : AllocResults) (populated : Bool) : Bool × ℤ :=
  if !r.found then (populated, enodev)
  else if !r.available || populated then (populated, ebusy)
  else if !r.allocated then (false, enomem)
  else (true, 0)

def addHostControllers (r : AddResults) (g : Glue) : Glue × ℤ :=
  let (populated, ret) := allocHostController r.ehci g.ehciPopulated
  let g := { g with ehciPopulated := populated }
  if ret ≠ 0 then (g, ret)
  else
    let (populated, ret) := allocHostController r.ohci g.ohciPopulated
    let g := { g with ohciPopulated := populated }
    if ret ≠ 0 then ({ g with ehciPopulated := false }, ret)
    else
      let none := { g with ehciPopulated := false, ohciPopulated := false }
      if r.ehciAdd ≠ 0 then (none, r.ehciAdd)
      else if !r.linked then (none, enomem)
      else if r.ohciAdd ≠ 0 then (none, r.ohciAdd)
      else ({ g with ehciPdev := true, ohciPdev := true }, 0)

/-- Turning the PHY on again when `sunxi_musb_release_device_resources` fails. -/
def powerOnAgain (phyWasOn : Bool) (ret : ℤ) (g : Glue) : Glue :=
  if phyWasOn then { g.call .powerOn ret with phyOn := ret == 0 } else g

/-- The end of `sunxi_musb_release_device_resources`, from the call of `phy_exit` on. -/
def exitPhy (r : ReleaseResults) (phyWasOn : Bool) (g : Glue) : Glue × ℤ :=
  let g := g.call .exit r.exit
  if r.exit ≠ 0 then
    ({ powerOnAgain phyWasOn r.powerOn g with phyInitialized := true }, r.exit)
  else if g.rstUsb && g.usbResetDeasserted then
    let g := g.call .assert r.assert
    if r.assert ≠ 0 then
      let g := g.call .init r.reinit
      if r.reinit = 0 then
        ({ powerOnAgain phyWasOn r.repowerOn g with phyInitialized := true }, r.assert)
      else (g, r.assert)
    else ({ g with usbResetDeasserted := false }, 0)
  else (g, 0)

def releaseDeviceResources (r : ReleaseResults) (g : Glue) : Glue × ℤ :=
  if !g.phyInitialized then (g, 0)
  else
    let g := g.call (.setMode .usbHost) r.setMode
    if r.setMode ≠ 0 then (g, r.setMode)
    else
      let phyWasOn := g.phyOn
      let g := { g with phyInitialized := false, vbusOn := false, phyOn := false }
      if phyWasOn then
        let g := g.call .powerOff r.powerOff
        if r.powerOff ≠ 0 then ({ g with phyOn := true, phyInitialized := true }, r.powerOff)
        else exitPhy r phyWasOn g
      else exitPhy r phyWasOn g

/-- The last step of the unwinding of `sunxi_musb_acquire_device_resources`. -/
def assertUsbReset (r : AcquireResults) (g : Glue) : Glue :=
  if g.rstUsb && g.usbResetDeasserted then
    { g.call .assert r.assert with usbResetDeasserted := false }
  else g

/-- The end of `sunxi_musb_acquire_device_resources`, from the call of `phy_set_mode` on. -/
def enterMode (r : AcquireResults) (mode : PhyMode) (g : Glue) : Glue × ℤ :=
  let g := g.call (.setMode mode) r.setMode
  if r.setMode ≠ 0 then
    (assertUsbReset r ({ g with phyInitialized := false }.call .exit r.exit), r.setMode)
  else ({ g with phyMode := mode, vbusOn := mode == .usbDevice }, 0)

/-- The part of `sunxi_musb_acquire_device_resources` behind the reset. -/
def initPhy (r : AcquireResults) (mode : PhyMode) (g : Glue) : Glue × ℤ :=
  if !g.phyInitialized then
    let g := g.call .init r.init
    if r.init ≠ 0 then (assertUsbReset r g, r.init)
    else enterMode r mode { g with phyInitialized := true }
  else enterMode r mode g

def acquireDeviceResources (r : AcquireResults) (mode : PhyMode) (g : Glue) : Glue × ℤ :=
  if g.rstUsb && !g.usbResetDeasserted then
    let g := g.call .deassert r.deassert
    if r.deassert ≠ 0 then (g, r.deassert)
    else initPhy r mode { g with usbResetDeasserted := true }
  else initPhy r mode g

/-- The end of `sunxi_musb_role_switch_set` behind `restore_device`. -/
def restoreDevice (r : Results) (ret : ℤ) (g : Glue) : Glue × ℤ :=
  ((acquireDeviceResources r.acquire .usbDevice g).1, ret)

/-- The change to the role of a host. -/
def setHost (r : Results) (g : Glue) : Glue × ℤ :=
  let (g, ret) := releaseDeviceResources r.release g
  if ret ≠ 0 then restoreDevice r ret g
  else
    let (g, ret) := addHostControllers r.add g
    if ret ≠ 0 then restoreDevice r ret g
    else ({ g with role := .host }, 0)

/-- The change to another role, behind `remove_host`. -/
def leaveHost (r : Results) (role : UsbRole) (mode : PhyMode) (g : Glue) : Glue × ℤ :=
  let g := removeHostControllers g
  let (g, ret) := acquireDeviceResources r.acquire mode g
  if ret ≠ 0 then (g, ret)
  else ({ g with role }, 0)

/-- `sunxi_musb_role_switch_set`, with the state after the call. -/
def roleSwitchSet (r : Results) (g : Glue) (role : UsbRole) : Glue × ℤ :=
  if role = g.role then (g, 0)
  else
    match role with
    | .host => setHost r g
    | .device => leaveHost r .device .usbDevice g
    | .none => leaveHost r .none .usbOtg g

/-- The state in which `sunxi_musb_init` registers the role switch. -/
def initial (rstUsb phyOn vbusOn : Bool) (phyMode : PhyMode) : Glue where
  rstUsb
  role := .none
  ehciPdev := false
  ohciPdev := false
  ehciPopulated := false
  ohciPopulated := false
  phyInitialized := true
  usbResetDeasserted := rstUsb
  phyOn
  vbusOn
  phyMode
  calls := []

/-- `sunxi_musb_role_switch_register`, which sets the role of a device. -/
def roleSwitchRegister (r : Results) (rstUsb phyOn vbusOn : Bool) (phyMode : PhyMode) :
    Glue × ℤ :=
  roleSwitchSet r (initial rstUsb phyOn vbusOn phyMode) .device

/-! ### The device side -/

/-- The calls that acquire the PHY succeed, as far as they are made. -/
def Acquires (r : AcquireResults) (deasserts inits : Prop) : Prop :=
  (deasserts → r.deassert = 0) ∧ (inits → r.init = 0) ∧ r.setMode = 0

/-- The role, the host controllers and their nodes are the same. -/
structure SameHosts (g g' : Glue) : Prop where
  rstUsb : g'.rstUsb = g.rstUsb
  role : g'.role = g.role
  ehciPdev : g'.ehciPdev = g.ehciPdev
  ohciPdev : g'.ohciPdev = g.ohciPdev
  ehciPopulated : g'.ehciPopulated = g.ehciPopulated
  ohciPopulated : g'.ohciPopulated = g.ohciPopulated

theorem SameHosts.trans {g g' g'' : Glue} (h : SameHosts g g') (h' : SameHosts g' g'') :
  SameHosts g g''
  := by
  constructor
  · rw [h'.rstUsb, h.rstUsb]
  · rw [h'.role, h.role]
  · rw [h'.ehciPdev, h.ehciPdev]
  · rw [h'.ohciPdev, h.ohciPdev]
  · rw [h'.ehciPopulated, h.ehciPopulated]
  · rw [h'.ohciPopulated, h.ohciPopulated]

theorem sameHosts_assertUsbReset (r : AcquireResults) (g : Glue) :
  SameHosts g (assertUsbReset r g)
  := by
  rw [assertUsbReset]
  split
  · constructor <;> rfl
  · constructor <;> rfl

theorem phyInitialized_assertUsbReset (r : AcquireResults) (g : Glue) :
  (assertUsbReset r g).phyInitialized = g.phyInitialized
  := by
  rw [assertUsbReset]
  split <;> rfl

theorem sameHosts_enterMode (r : AcquireResults) (mode : PhyMode) (g : Glue) :
  SameHosts g (enterMode r mode g).1
  := by
  rw [enterMode]
  split
  · apply SameHosts.trans _ (sameHosts_assertUsbReset r _)
    constructor <;> rfl
  · constructor <;> rfl

theorem sameHosts_initPhy (r : AcquireResults) (mode : PhyMode) (g : Glue) :
  SameHosts g (initPhy r mode g).1
  := by
  rw [initPhy]
  split
  · simp only
    split
    · apply SameHosts.trans _ (sameHosts_assertUsbReset r _)
      constructor <;> rfl
    · apply SameHosts.trans _ (sameHosts_enterMode r mode _)
      constructor <;> rfl
  · apply sameHosts_enterMode

/-- Acquiring the PHY does not touch the host controllers. -/
theorem sameHosts_acquire (r : AcquireResults) (mode : PhyMode) (g : Glue) :
  SameHosts g (acquireDeviceResources r mode g).1
  := by
  rw [acquireDeviceResources]
  split
  · simp only
    split
    · constructor <;> rfl
    · apply SameHosts.trans _ (sameHosts_initPhy r mode _)
      constructor <;> rfl
  · apply sameHosts_initPhy

/-- What comes of acquiring the PHY: it is initialized, or the call fails and it is not. -/
structure Acquired (r : AcquireResults) (g : Glue) (out : Glue × ℤ) (inits : Prop) : Prop where
  ok : (inits → r.init = 0) ∧ r.setMode = 0 →
    out.2 = 0 ∧ out.1.phyInitialized = true ∧ out.1.usbResetDeasserted = g.usbResetDeasserted
  error : ¬ ((inits → r.init = 0) ∧ r.setMode = 0) → out.2 ≠ 0 ∧ out.1.phyInitialized = false

theorem acquired_enterMode (r : AcquireResults) (mode : PhyMode) {g : Glue}
    (h : g.phyInitialized = true) :
  Acquired r g (enterMode r mode g) False
  := by
  rw [enterMode]
  constructor
  · rintro ⟨-, hmode⟩
    rw [if_neg (not_not.mpr hmode)]
    exact ⟨rfl, h, rfl⟩
  · intro hmode
    have hne : r.setMode ≠ 0 := fun heq => hmode ⟨False.elim, heq⟩
    rw [if_pos hne]
    refine ⟨hne, ?_⟩
    rw [phyInitialized_assertUsbReset]
    rfl

theorem acquired_initPhy (r : AcquireResults) (mode : PhyMode) (g : Glue) :
  Acquired r g (initPhy r mode g) (g.phyInitialized = false)
  := by
  rw [initPhy]
  cases hphy : g.phyInitialized with
  | true =>
      have hmode := acquired_enterMode r mode hphy
      constructor
      · rintro ⟨-, hset⟩
        apply hmode.ok ⟨False.elim, hset⟩
      · intro hset
        apply hmode.error
        rintro ⟨-, heq⟩
        exact hset ⟨Bool.noConfusion, heq⟩
  | false =>
      obtain ⟨hok, herror⟩ := @acquired_enterMode r mode
        { g.call .init r.init with phyInitialized := true } rfl
      simp only [Bool.not_false, if_true]
      by_cases hinit : r.init = 0
      · rw [if_neg (not_not.mpr hinit)]
        constructor
        · rintro ⟨-, hset⟩
          apply hok ⟨False.elim, hset⟩
        · intro hset
          apply herror
          rintro ⟨-, heq⟩
          exact hset ⟨fun _ => hinit, heq⟩
      · rw [if_pos hinit]
        constructor
        · rintro ⟨hzero, -⟩
          exact absurd (hzero trivial) hinit
        · intro _
          refine ⟨hinit, ?_⟩
          rw [phyInitialized_assertUsbReset]
          exact hphy

/-- Acquiring the PHY succeeds when its calls do. -/
theorem acquire_ok {r : AcquireResults} {g : Glue} {inits : Prop}
    (hinits : inits ↔ g.phyInitialized = false)
    (h : Acquires r (g.rstUsb = true ∧ g.usbResetDeasserted = false) inits) (mode : PhyMode) :
  (acquireDeviceResources r mode g).2 = 0 ∧
    (acquireDeviceResources r mode g).1.phyInitialized = true ∧
    (acquireDeviceResources r mode g).1.usbResetDeasserted = (g.usbResetDeasserted || g.rstUsb)
  := by
  obtain ⟨hdeassert, hinit, hset⟩ := h
  rw [hinits] at hinit
  rw [acquireDeviceResources]
  cases hrst : g.rstUsb with
  | false =>
      rw [Bool.or_false]
      apply (acquired_initPhy r mode g).ok ⟨hinit, hset⟩
  | true =>
      cases hreset : g.usbResetDeasserted with
      | true =>
          have hout := (acquired_initPhy r mode g).ok ⟨hinit, hset⟩
          rwa [hreset] at hout
      | false =>
          simp only [Bool.not_false, Bool.and_self, if_true]
          rw [if_neg (not_not.mpr (hdeassert ⟨hrst, hreset⟩))]
          apply (acquired_initPhy r mode { g.call .deassert r.deassert with
            usbResetDeasserted := true }).ok ⟨hinit, hset⟩

/-- When a call that acquires the PHY fails, the PHY is left released. -/
theorem acquire_error {r : AcquireResults} {g : Glue} {inits : Prop}
    (hinits : inits ↔ g.phyInitialized = false)
    (hreset : g.rstUsb = true → g.usbResetDeasserted = false → g.phyInitialized = false)
    (h : ¬ Acquires r (g.rstUsb = true ∧ g.usbResetDeasserted = false) inits) (mode : PhyMode) :
  (acquireDeviceResources r mode g).2 ≠ 0 ∧
    (acquireDeviceResources r mode g).1.phyInitialized = false
  := by
  rw [acquireDeviceResources]
  by_cases hdeasserts : g.rstUsb = true ∧ g.usbResetDeasserted = false
  · obtain ⟨hrst, hlow⟩ := hdeasserts
    rw [hrst, hlow]
    simp only [Bool.not_false, Bool.and_self, if_true]
    by_cases hdeassert : r.deassert = 0
    · rw [if_neg (not_not.mpr hdeassert)]
      apply (acquired_initPhy r mode _).error
      rintro ⟨hinit, hset⟩
      exact h ⟨fun _ => hdeassert, fun hi => hinit (hinits.mp hi), hset⟩
    · rw [if_pos hdeassert]
      exact ⟨hdeassert, hreset hrst hlow⟩
  · have hcond : ¬ (g.rstUsb && !g.usbResetDeasserted) = true := by
      rw [Bool.and_eq_true, Bool.not_eq_true']
      exact hdeasserts
    rw [if_neg hcond]
    apply (acquired_initPhy r mode g).error
    rintro ⟨hinit, hset⟩
    exact h ⟨fun hi => absurd hi hdeasserts, fun hi => hinit (hinits.mp hi), hset⟩

/-! ### Releasing the device side -/

/-- The calls that release the PHY succeed. -/
def Releases (r : ReleaseResults) (g : Glue) : Prop :=
  r.setMode = 0 ∧ (g.phyOn = true → r.powerOff = 0) ∧ r.exit = 0 ∧ (g.rstUsb = true → r.assert = 0)

/-- The PHY is left and its reset is not asserted, and it is not initialized again. -/
def LeavesPhy (r : ReleaseResults) (g : Glue) : Prop :=
  r.setMode = 0 ∧ (g.phyOn = true → r.powerOff = 0) ∧ r.exit = 0 ∧ r.reinit ≠ 0

theorem sameHosts_powerOnAgain (phyWasOn : Bool) (ret : ℤ) (g : Glue) :
  SameHosts g (powerOnAgain phyWasOn ret g)
  := by
  cases phyWasOn <;> constructor <;> rfl

theorem usbResetDeasserted_powerOnAgain (phyWasOn : Bool) (ret : ℤ) (g : Glue) :
  (powerOnAgain phyWasOn ret g).usbResetDeasserted = g.usbResetDeasserted
  := by
  cases phyWasOn <;> rfl

/-- What comes of releasing the PHY from the call of `phy_exit` on. -/
structure Exited (r : ReleaseResults) (g : Glue) (out : Glue × ℤ) : Prop where
  hosts : SameHosts g out.1
  ok : r.exit = 0 ∧ (g.rstUsb = true → r.assert = 0) →
    out.2 = 0 ∧ out.1.phyInitialized = false ∧ out.1.usbResetDeasserted = false
  error : ¬ (r.exit = 0 ∧ (g.rstUsb = true → r.assert = 0)) →
    out.2 ≠ 0 ∧ out.1.usbResetDeasserted = g.usbResetDeasserted ∧
    (out.1.phyInitialized = false ↔ r.exit = 0 ∧ r.reinit ≠ 0)

/-- A failed release that initializes the PHY again. -/
theorem exited_restored {r : ReleaseResults} {phyWasOn : Bool} {g g' : Glue} {ret powerOn : ℤ}
    (hhosts : SameHosts g g') (hreset : g'.usbResetDeasserted = g.usbResetDeasserted)
    (hret : ret ≠ 0) (hfails : ¬ (r.exit = 0 ∧ (g.rstUsb = true → r.assert = 0)))
    (hback : ¬ (r.exit = 0 ∧ r.reinit ≠ 0)) :
  Exited r g ({ powerOnAgain phyWasOn powerOn g' with phyInitialized := true }, ret)
  := by
  constructor
  · apply hhosts.trans ((sameHosts_powerOnAgain phyWasOn powerOn g').trans _)
    constructor <;> rfl
  · intro h
    exact absurd h hfails
  · intro _
    refine ⟨hret, ?_, ?_⟩
    · exact (usbResetDeasserted_powerOnAgain phyWasOn powerOn g').trans hreset
    · constructor
      · intro h
        cases h
      · intro h
        exact absurd h hback

theorem exited_exitPhy (r : ReleaseResults) (phyWasOn : Bool) {g : Glue}
    (hphy : g.phyInitialized = false) (hreset : g.usbResetDeasserted = g.rstUsb) :
  Exited r g (exitPhy r phyWasOn g)
  := by
  have hcond : ((g.call .exit r.exit).rstUsb && (g.call .exit r.exit).usbResetDeasserted) =
      g.rstUsb := by
    change (g.rstUsb && g.usbResetDeasserted) = g.rstUsb
    rw [hreset, Bool.and_self]
  rw [exitPhy]
  simp only
  rw [hcond]
  by_cases hexit : r.exit = 0
  · rw [if_neg (not_not.mpr hexit)]
    by_cases hrst : g.rstUsb = true
    · rw [if_pos hrst]
      by_cases hassert : r.assert = 0
      · rw [if_neg (not_not.mpr hassert)]
        constructor
        · constructor <;> rfl
        · intro _
          exact ⟨rfl, hphy, rfl⟩
        · intro h
          exact absurd ⟨hexit, fun _ => hassert⟩ h
      · rw [if_pos hassert]
        have hfails : ¬ (r.exit = 0 ∧ (g.rstUsb = true → r.assert = 0)) :=
          fun h => hassert (h.2 hrst)
        by_cases hreinit : r.reinit = 0
        · rw [if_pos hreinit]
          apply exited_restored _ _ hassert hfails (fun h => h.2 hreinit)
          · constructor <;> rfl
          · rfl
        · rw [if_neg hreinit]
          constructor
          · constructor <;> rfl
          · intro h
            exact absurd h hfails
          · intro _
            exact ⟨hassert, rfl, fun _ => ⟨hexit, hreinit⟩, fun _ => hphy⟩
    · rw [if_neg hrst]
      constructor
      · constructor <;> rfl
      · intro _
        exact ⟨rfl, hphy, hreset.trans (Bool.eq_false_iff.mpr hrst)⟩
      · intro h
        exact absurd ⟨hexit, fun hno => absurd hno hrst⟩ h
  · rw [if_pos hexit]
    apply exited_restored _ _ hexit (fun h => hexit h.1) (fun h => hexit h.1)
    · constructor <;> rfl
    · rfl

/-- What comes of releasing the PHY: it is released, or the call fails and the reset is as
before. -/
structure Released (r : ReleaseResults) (g : Glue) (out : Glue × ℤ) : Prop where
  hosts : SameHosts g out.1
  ok : Releases r g → out.2 = 0 ∧ out.1.phyInitialized = false ∧ out.1.usbResetDeasserted = false
  error : ¬ Releases r g → out.2 ≠ 0 ∧ out.1.usbResetDeasserted = g.usbResetDeasserted ∧
    (out.1.phyInitialized = false ↔ LeavesPhy r g)

/-- A release that comes to the call of `phy_exit`. -/
theorem Exited.released {r : ReleaseResults} {g g' : Glue} {out : Glue × ℤ}
    (h : Exited r g' out) (hhosts : SameHosts g g')
    (hreset : g'.usbResetDeasserted = g.usbResetDeasserted) (hmode : r.setMode = 0)
    (hoff : g.phyOn = true → r.powerOff = 0) :
  Released r g out
  := by
  constructor
  · apply hhosts.trans h.hosts
  · rintro ⟨-, -, hexit, hassert⟩
    apply h.ok ⟨hexit, fun hrst => hassert (hhosts.rstUsb ▸ hrst)⟩
  · intro hfails
    obtain ⟨hret, hsame, hphy⟩ := h.error fun hok =>
      hfails ⟨hmode, hoff, hok.1, fun hrst => hok.2 (hhosts.rstUsb.trans hrst)⟩
    refine ⟨hret, hsame.trans hreset, hphy.trans ?_⟩
    constructor
    · rintro ⟨hexit, hreinit⟩
      exact ⟨hmode, hoff, hexit, hreinit⟩
    · rintro ⟨-, -, hexit, hreinit⟩
      exact ⟨hexit, hreinit⟩

theorem released_release (r : ReleaseResults) {g : Glue} (hphy : g.phyInitialized = true)
    (hreset : g.usbResetDeasserted = g.rstUsb) :
  Released r g (releaseDeviceResources r g)
  := by
  rw [releaseDeviceResources, hphy]
  simp only [Bool.not_true, Bool.false_eq_true, if_false]
  by_cases hmode : r.setMode = 0
  · rw [if_neg (not_not.mpr hmode)]
    cases hon : g.phyOn with
    | true =>
        have hcond : (g.call (.setMode .usbHost) r.setMode).phyOn = true := hon
        rw [if_pos hcond]
        by_cases hoff : r.powerOff = 0
        · rw [if_neg (not_not.mpr hoff)]
          refine (exited_exitPhy r _ ?_ ?_).released ?_ ?_ hmode (fun _ => hoff)
          · rfl
          · exact hreset
          · constructor <;> rfl
          · rfl
        · rw [if_pos hoff]
          constructor
          · constructor <;> rfl
          · rintro ⟨-, hok, -⟩
            exact absurd (hok hon) hoff
          · intro _
            refine ⟨hoff, rfl, ?_⟩
            constructor
            · intro h
              cases h
            · rintro ⟨-, hok, -⟩
              exact absurd (hok hon) hoff
    | false =>
        have hcond : ¬ (g.call (.setMode .usbHost) r.setMode).phyOn = true := by
          change ¬ g.phyOn = true
          rw [hon]
          exact Bool.false_ne_true
        rw [if_neg hcond]
        refine (exited_exitPhy r _ ?_ ?_).released ?_ ?_ hmode
          (fun h => absurd (hon.symm.trans h) ?_)
        · rfl
        · exact hreset
        · constructor <;> rfl
        · rfl
        · exact Bool.false_ne_true
  · rw [if_pos hmode]
    constructor
    · constructor <;> rfl
    · rintro ⟨hok, -⟩
      exact absurd hok hmode
    · intro _
      refine ⟨hmode, rfl, ?_⟩
      constructor
      · intro h
        exact nomatch hphy.symm.trans h
      · rintro ⟨hok, -⟩
        exact absurd hok hmode

/-! ### The host controllers -/

/-- A host controller is allocated. -/
def Allocates (r : AllocResults) : Prop :=
  r.found = true ∧ r.available = true ∧ r.allocated = true

/-- Both host controllers are added. -/
def Adds (r : AddResults) : Prop :=
  Allocates r.ehci ∧ Allocates r.ohci ∧ r.ehciAdd = 0 ∧ r.linked = true ∧ r.ohciAdd = 0

theorem alloc_ok {r : AllocResults} (h : Allocates r) :
  allocHostController r false = (true, 0)
  := by
  obtain ⟨hfound, havailable, hallocated⟩ := h
  rw [allocHostController, hfound, havailable, hallocated]
  rfl

theorem alloc_error {r : AllocResults} (h : ¬ Allocates r) :
  ∃ ret, ret ≠ 0 ∧ allocHostController r false = (false, ret)
  := by
  rw [allocHostController]
  cases hfound : r.found with
  | false => exact ⟨enodev, by decide, rfl⟩
  | true =>
      cases havailable : r.available with
      | false => exact ⟨ebusy, by decide, rfl⟩
      | true =>
          cases hallocated : r.allocated with
          | false => exact ⟨enomem, by decide, rfl⟩
          | true => exact absurd ⟨hfound, havailable, hallocated⟩ h

theorem add_ok {r : AddResults} {g : Glue} (hehci : g.ehciPopulated = false)
    (hohci : g.ohciPopulated = false) (h : Adds r) :
  addHostControllers r g = ({ g with
    ehciPopulated := true, ohciPopulated := true, ehciPdev := true, ohciPdev := true }, 0)
  := by
  obtain ⟨halloc, halloc', hadd, hlink, hadd'⟩ := h
  rw [addHostControllers, hehci, alloc_ok halloc]
  simp only [ne_eq, not_true_eq_false, if_false]
  rw [hohci, alloc_ok halloc', hadd, hlink, hadd']
  rfl

/-- When a host controller is not added, both are taken away again. -/
theorem add_error {r : AddResults} {g : Glue} (hehci : g.ehciPopulated = false)
    (hohci : g.ohciPopulated = false) (h : ¬ Adds r) :
  (addHostControllers r g).2 ≠ 0 ∧ (addHostControllers r g).1 = g
  := by
  have hsame : { g with ehciPopulated := false } = g := by
    rw [← hehci]
  have hsame' : { g with ehciPopulated := false, ohciPopulated := false } = g := by
    cases g
    simp only at hehci hohci
    rw [hehci, hohci]
  have hmemory : enomem ≠ 0 := by decide
  rw [addHostControllers, hehci]
  by_cases halloc : Allocates r.ehci
  · rw [alloc_ok halloc]
    simp only [ne_eq, not_true_eq_false, if_false]
    rw [hohci]
    by_cases halloc' : Allocates r.ohci
    · rw [alloc_ok halloc']
      simp only [not_true_eq_false, if_false]
      split
      · next hadd => exact ⟨hadd, hsame'⟩
      · next hadd =>
        split
        · exact ⟨hmemory, hsame'⟩
        · next hlink =>
          split
          · next hadd' => exact ⟨hadd', hsame'⟩
          · next hadd' =>
            rw [Bool.not_eq_true, Bool.not_eq_false'] at hlink
            exact absurd ⟨halloc, halloc', not_not.mp hadd, hlink, not_not.mp hadd'⟩ h
    · obtain ⟨ret, hret, hfails⟩ := alloc_error halloc'
      rw [hfails]
      simp only
      rw [if_pos hret]
      exact ⟨hret, hsame'⟩
  · obtain ⟨ret, hret, hfails⟩ := alloc_error halloc
    rw [hfails]
    simp only
    rw [if_pos hret]
    exact ⟨hret, hsame⟩

end Musb

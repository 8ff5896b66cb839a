import CatplayFirmware.LinuxSunxi.Musb

/-!
# The PHY and the reset of the role switch

The glue driver initializes and exits the PHY, powers it on and off, and deasserts and asserts the
reset of the port. What it has done is kept in two booleans and a flag. These stay true to the calls
that have succeeded as long as no call fails while an error or the end of the driver is unwound, the
mode of a PHY is set without an error while it is powered on, and the PHY is off at the end.
-/

namespace Musb

/-! ### Calls in pairs -/

/-- A resource that is taken by the call `up` and given back by the call `down`, after another
call. It is none once two calls of the pair that succeed do not alternate. -/
def observe (up down : Call) (state : Option Bool) (c : Call × ℤ) : Option Bool :=
  if c.2 ≠ 0 then state
  else if c.1 = up then (if state = some false then some true else none)
  else if c.1 = down then (if state = some true then some false else none)
  else state

/-- A resource after some calls: whether it is taken, or none if the calls did not alternate. -/
def status (up down : Call) (calls : List (Call × ℤ)) : Option Bool :=
  calls.foldl (observe up down) (some false)

/-- The PHY is never exited while it is powered on. -/
def ExitsOff (calls : List (Call × ℤ)) : Prop :=
  ∀ before ret after, calls = before ++ (.exit, ret) :: after →
    status .powerOn .powerOff before = some false

/-- The calls that have succeeded alternate, and have left the resources in a given state. -/
structure Tracks (calls : List (Call × ℤ)) (inited powered deasserted : Bool) : Prop where
  init : status .init .exit calls = some inited
  power : status .powerOn .powerOff calls = some powered
  reset : status .deassert .assert calls = some deasserted
  exitsOff : ExitsOff calls

theorem status_concat (up down : Call) (calls : List (Call × ℤ)) (c : Call × ℤ) :
  status up down (calls ++ [c]) = observe up down (status up down calls) c
  := by
  rw [status, List.foldl_append]
  rfl

theorem exitsOff_concat {calls : List (Call × ℤ)} (h : ExitsOff calls) {c : Call} {ret : ℤ}
    (hc : c = .exit → status .powerOn .powerOff calls = some false) :
  ExitsOff (calls ++ [(c, ret)])
  := by
  intro before ret' after heq
  rcases List.eq_nil_or_concat after with rfl | ⟨after', last, rfl⟩
  · obtain ⟨rfl, hlast⟩ := List.append_inj' heq rfl
    cases hlast
    apply hc rfl
  · rw [List.concat_eq_append, ← List.cons_append, ← List.append_assoc] at heq
    obtain ⟨hcalls, -⟩ := List.append_inj' heq rfl
    apply h before ret' after' hcalls

section

variable {calls : List (Call × ℤ)} {i p d i' p' d' : Bool}

theorem Tracks.call {c : Call} {ret : ℤ} (h : Tracks calls i p d)
    (hinit : observe .init .exit (some i) (c, ret) = some i')
    (hpower : observe .powerOn .powerOff (some p) (c, ret) = some p')
    (hreset : observe .deassert .assert (some d) (c, ret) = some d')
    (hoff : c = .exit → p = false) :
  Tracks (calls ++ [(c, ret)]) i' p' d'
  := by
  constructor
  · rw [status_concat, h.init, hinit]
  · rw [status_concat, h.power, hpower]
  · rw [status_concat, h.reset, hreset]
  · apply exitsOff_concat h.exitsOff
    intro hc
    rw [h.power, hoff hc]

/-- A call that fails leaves the resources as they are. -/
theorem Tracks.fails (h : Tracks calls i p d) {c : Call} {ret : ℤ} (hret : ret ≠ 0)
    (hoff : c = .exit → p = false) :
  Tracks (calls ++ [(c, ret)]) i p d
  := h.call (if_pos hret) (if_pos hret) (if_pos hret) hoff

theorem Tracks.setMode (h : Tracks calls i p d) (mode : PhyMode) (ret : ℤ) :
  Tracks (calls ++ [(.setMode mode, ret)]) i p d
  := by
  by_cases hret : ret = 0
  · subst hret
    exact h.call rfl rfl rfl nofun
  · exact h.fails hret nofun

theorem Tracks.init_ok (h : Tracks calls false p d) : Tracks (calls ++ [(.init, 0)]) true p d :=
  h.call rfl rfl rfl nofun

theorem Tracks.exit_ok (h : Tracks calls true false d) :
  Tracks (calls ++ [(.exit, 0)]) false false d
  := h.call rfl rfl rfl fun _ => rfl

theorem Tracks.powerOn_ok (h : Tracks calls i false d) :
  Tracks (calls ++ [(.powerOn, 0)]) i true d
  := h.call rfl rfl rfl nofun

theorem Tracks.powerOff_ok (h : Tracks calls i true d) :
  Tracks (calls ++ [(.powerOff, 0)]) i false d
  := h.call rfl rfl rfl nofun

theorem Tracks.deassert_ok (h : Tracks calls i p false) :
  Tracks (calls ++ [(.deassert, 0)]) i p true
  := h.call rfl rfl rfl nofun

theorem Tracks.assert_ok (h : Tracks calls i p true) :
  Tracks (calls ++ [(.assert, 0)]) i p false
  := h.call rfl rfl rfl nofun

end

/-! ### Init, the worker and exit -/

/-- What the calls of `sunxi_musb_init` return. The clocks and the other resets come before the
calls that are modelled. -/
structure InitResults where
  before : ℤ
  deassert : ℤ
  extcon : ℤ
  init : ℤ
  /-- The property `usb-role-switch` is there. -/
  roleSwitch : Bool
  register : ℤ
  set : Results
  exit : ℤ
  assert : ℤ

/-- What the calls of `sunxi_musb_exit` return. -/
structure ExitResults where
  powerOff : ℤ
  exit : ℤ
  assert : ℤ

/-- The label `error_usb_reset_assert` of `sunxi_musb_init`. -/
def dropReset (ret : ℤ) (g : Glue) : Glue :=
  if g.usbResetDeasserted then { g.call .assert ret with usbResetDeasserted := false } else g

/-- The PHY is exited, if it is initialized. -/
def dropPhy (ret : ℤ) (g : Glue) : Glue :=
  if g.phyInitialized then { g.call .exit ret with phyInitialized := false } else g

/-- The label `error_phy_exit` of `sunxi_musb_init`. -/
def unwindInit (r : InitResults) (g : Glue) : Glue := dropReset r.assert (dropPhy r.exit g)

/-- `sunxi_musb_init` from the call of `phy_init` on. -/
def musbInitPhy (r : InitResults) (g : Glue) : Glue × ℤ :=
  let g := g.call .init r.init
  if r.init ≠ 0 then (dropReset r.assert g, r.init)
  else
    let g := { g with phyInitialized := true }
    if !r.roleSwitch then (g, 0)
    else
      let g := { g with role := .none }
      if r.register ≠ 0 then (unwindInit r g, r.register)
      else
        let (g, ret) := roleSwitchSet r.set g .device
        if ret ≠ 0 then (unwindInit r g, ret) else (g, 0)

/-- `sunxi_musb_init` behind the reset of the port. -/
def musbInitExtcon (r : InitResults) (g : Glue) : Glue × ℤ :=
  if r.extcon ≠ 0 then (dropReset r.assert g, r.extcon) else musbInitPhy r g

def musbInit (r : InitResults) (g : Glue) : Glue × ℤ :=
  if r.before ≠ 0 then (g, r.before)
  else if g.rstUsb then
    let g := g.call .deassert r.deassert
    if r.deassert ≠ 0 then (g, r.deassert)
    else musbInitExtcon r { g with usbResetDeasserted := true }
  else musbInitExtcon r g

def musbExit (r : ExitResults) (g : Glue) : Glue :=
  let g := removeHostControllers g
  let g := if g.phyInitialized && g.phyOn then g.call .powerOff r.powerOff else g
  dropReset r.assert (dropPhy r.exit g)

def powerCall (on : Bool) : Call := if on then .powerOn else .powerOff

/-- `sunxi_musb_work`, which returns at once when the PHY is not initialized. -/
def musbWork (call : Option (Bool × ℤ)) (phyOn : Bool) (g : Glue) : Glue :=
  if !g.phyInitialized then g
  else
    match call with
    | none => { g with phyOn }
    | some (on, ret) => { g.call (powerCall on) ret with phyOn }

/-- `struct sunxi_glue` before `sunxi_musb_init`. -/
def fresh (rstUsb : Bool) : Glue where
  rstUsb
  role := .none
  ehciPdev := false
  ohciPdev := false
  ehciPopulated := false
  ohciPopulated := false
  phyInitialized := false
  usbResetDeasserted := false
  phyOn := false
  vbusOn := false
  phyMode := .usbOtg
  calls := []

/-! ### The state that is kept -/

/-- The booleans and the flag are true to the calls. -/
structure Synced (g : Glue) : Prop where
  tracks : Tracks g.calls g.phyInitialized g.phyOn g.usbResetDeasserted
  phyOn : g.phyOn = true → g.phyInitialized = true
  phyInitialized : g.phyInitialized = true → g.usbResetDeasserted = g.rstUsb
  rstUsb : g.rstUsb = false → g.usbResetDeasserted = false

/-- An error in `sunxi_musb_acquire_device_resources` is unwound: the PHY is off when its mode
cannot be set, and the calls that give back what was taken succeed. -/
def Unwinds (r : AcquireResults) (rstUsb deasserted inited on : Prop) : Prop :=
  (rstUsb ∧ ¬ deasserted → r.deassert = 0) →
    (¬ inited ∧ r.init ≠ 0 → rstUsb → r.assert = 0) ∧
    ((¬ inited → r.init = 0) ∧ r.setMode ≠ 0 → ¬ on ∧ r.exit = 0 ∧ (rstUsb → r.assert = 0))

/-- The PHY is given back, and then the reset. -/
theorem synced_assertUsbReset {r : AcquireResults} {g : Glue}
    (htracks : Tracks g.calls false false g.usbResetDeasserted) (hphy : g.phyInitialized = false)
    (hon : g.phyOn = false) (hrst : g.rstUsb = false → g.usbResetDeasserted = false)
    (hassert : g.rstUsb = true → r.assert = 0) :
  Synced (assertUsbReset r g)
  := by
  rw [assertUsbReset]
  split
  · next hboth =>
    rw [Bool.and_eq_true] at hboth
    obtain ⟨hrst', hlow⟩ := hboth
    rw [hlow] at htracks
    constructor
    · simp only [Glue.call, hphy, hon, hassert hrst']
      apply htracks.assert_ok
    · intro h
      exact absurd h (ne_true_of_eq_false hon)
    · intro h
      exact absurd h (ne_true_of_eq_false hphy)
    · intro _
      rfl
  · constructor
    · rw [hphy, hon]
      exact htracks
    · intro h
      exact absurd h (ne_true_of_eq_false hon)
    · intro h
      exact absurd h (ne_true_of_eq_false hphy)
    · exact hrst

theorem synced_enterMode {r : AcquireResults} {mode : PhyMode} {g : Glue} (h : Synced g)
    (hphy : g.phyInitialized = true)
    (hunwinds : r.setMode ≠ 0 → g.phyOn = false ∧ r.exit = 0 ∧ (g.rstUsb = true → r.assert = 0)) :
  Synced (enterMode r mode g).1
  := by
  have htracks := h.tracks.setMode mode r.setMode
  rw [enterMode]
  split
  · next hmode =>
    obtain ⟨hon, hexit, hassert⟩ := hunwinds hmode
    apply synced_assertUsbReset
    · simp only [Glue.call, hexit]
      rw [hphy, hon] at htracks
      apply htracks.exit_ok
    · rfl
    · exact hon
    · exact h.rstUsb
    · exact hassert
  · constructor
    · exact htracks
    · exact h.phyOn
    · exact h.phyInitialized
    · exact h.rstUsb

theorem synced_initPhy {r : AcquireResults} {mode : PhyMode} {g : Glue} (h : Synced g)
    (hreset : g.usbResetDeasserted = g.rstUsb)
    (hinit : g.phyInitialized = false ∧ r.init ≠ 0 → g.rstUsb = true → r.assert = 0)
    (hmode : (g.phyInitialized = false → r.init = 0) ∧ r.setMode ≠ 0 →
      g.phyOn = false ∧ r.exit = 0 ∧ (g.rstUsb = true → r.assert = 0)) :
  Synced (initPhy r mode g).1
  := by
  rw [initPhy]
  cases hphy : g.phyInitialized with
  | true =>
      apply synced_enterMode h hphy
      intro hset
      apply hmode ⟨fun hno => absurd hphy (ne_true_of_eq_false hno), hset⟩
  | false =>
      have hon : g.phyOn = false := by
        apply Bool.eq_false_iff.mpr
        intro hon
        exact absurd (h.phyOn hon) (ne_true_of_eq_false hphy)
      have htracks := h.tracks
      rw [hphy, hon] at htracks
      simp only [Bool.not_false, if_true]
      split
      · next hfails =>
        apply synced_assertUsbReset
        · exact htracks.fails hfails fun _ => rfl
        · exact hphy
        · exact hon
        · exact h.rstUsb
        · exact hinit ⟨hphy, hfails⟩
      · next hok =>
        apply synced_enterMode
        · constructor
          · simp only [Glue.call, not_not.mp hok, hon]
            apply htracks.init_ok
          · intro _
            rfl
          · intro _
            exact hreset
          · exact h.rstUsb
        · rfl
        · intro hset
          apply hmode ⟨fun _ => not_not.mp hok, hset⟩

/-- Acquiring the PHY keeps the booleans and the flag true, if its errors are unwound. -/
theorem synced_acquire {r : AcquireResults} {mode : PhyMode} {g : Glue} (h : Synced g)
    (hunwinds : Unwinds r (g.rstUsb = true) (g.usbResetDeasserted = true)
      (g.phyInitialized = true) (g.phyOn = true)) :
  Synced (acquireDeviceResources r mode g).1
  := by
  rw [Unwinds, Bool.not_eq_true, Bool.not_eq_true, Bool.not_eq_true] at hunwinds
  rw [acquireDeviceResources]
  split
  · next hboth =>
    rw [Bool.and_eq_true, Bool.not_eq_true'] at hboth
    obtain ⟨hrst, hlow⟩ := hboth
    have htracks := h.tracks
    rw [hlow] at htracks
    simp only
    split
    · next hfails =>
      constructor
      · simp only [Glue.call, hlow]
        exact htracks.fails hfails fun hexit => Call.noConfusion hexit
      · exact h.phyOn
      · exact h.phyInitialized
      · exact h.rstUsb
    · next hok =>
      obtain ⟨hinit, hmode⟩ := hunwinds fun _ => not_not.mp hok
      apply synced_initPhy
      · constructor
        · simp only [Glue.call, not_not.mp hok]
          apply htracks.deassert_ok
        · exact h.phyOn
        · intro _
          exact hrst.symm
        · intro hno
          exact absurd hrst (ne_true_of_eq_false hno)
      · exact hrst.symm
      · exact hinit
      · exact hmode
  · next hboth =>
    rw [Bool.and_eq_true, Bool.not_eq_true'] at hboth
    obtain ⟨hinit, hmode⟩ := hunwinds fun hdeassert => absurd hdeassert hboth
    have hreset : g.usbResetDeasserted = g.rstUsb := by
      cases hrst : g.rstUsb with
      | true => exact eq_true_of_ne_false fun hlow => hboth ⟨hrst, hlow⟩
      | false => exact h.rstUsb hrst
    apply synced_initPhy h hreset hinit hmode

/-! ### Releasing the device side -/

/-- The PHY is powered on when `sunxi_musb_release_device_resources` fails. -/
def StaysOn (r : ReleaseResults) (g : Glue) : Prop :=
  g.phyOn = true ∧ (r.setMode ≠ 0 ∨ r.powerOff ≠ 0 ∨ r.exit ≠ 0 ∧ r.powerOn = 0 ∨
    r.exit = 0 ∧ r.reinit = 0 ∧ r.repowerOn = 0)

/-- The PHY is turned on again, or it stays off. -/
theorem tracks_powerOnAgain {phyWasOn : Bool} {ret : ℤ} {g : Glue} {i d : Bool}
    (h : Tracks g.calls i false d) (hon : g.phyOn = false) :
  Tracks (powerOnAgain phyWasOn ret g).calls i (powerOnAgain phyWasOn ret g).phyOn d ∧
    ((powerOnAgain phyWasOn ret g).phyOn = true ↔ phyWasOn = true ∧ ret = 0)
  := by
  rw [powerOnAgain]
  cases phyWasOn with
  | false =>
      simp only [Bool.false_eq_true, if_false, hon, false_and, and_true]
      exact h
  | true =>
      by_cases hret : ret = 0
      · subst hret
        exact ⟨h.powerOn_ok, by simp⟩
      · simp only [if_true, beq_eq_false_iff_ne.mpr hret]
        exact ⟨h.fails hret nofun, by simp [hret]⟩

/-- A PHY that is initialized again, and turned on again if that works. -/
theorem synced_restored {phyWasOn : Bool} {ret : ℤ} {g : Glue}
    (htracks : Tracks g.calls true false g.usbResetDeasserted) (hon : g.phyOn = false)
    (hreset : g.usbResetDeasserted = g.rstUsb) :
  Synced { powerOnAgain phyWasOn ret g with phyInitialized := true } ∧
    ((powerOnAgain phyWasOn ret g).phyOn = true ↔ phyWasOn = true ∧ ret = 0)
  := by
  obtain ⟨htracks', hon'⟩ := @tracks_powerOnAgain phyWasOn ret g true _ htracks hon
  have hreset' := usbResetDeasserted_powerOnAgain phyWasOn ret g
  have hrst' := (sameHosts_powerOnAgain phyWasOn ret g).rstUsb
  constructor
  · constructor
    · simp only [hreset']
      exact htracks'
    · intro _
      rfl
    · intro _
      simp only [hreset', hrst', hreset]
    · intro hrst
      simp only [hrst'] at hrst
      simp only [hreset', hreset, hrst]
  · exact hon'

/-- What the end of a release leaves: the booleans and the flag are true to the calls, and the PHY
is on only if it was turned on again. -/
theorem synced_exitPhy {r : ReleaseResults} {phyWasOn : Bool} {g : Glue}
    (htracks : Tracks g.calls true false g.usbResetDeasserted) (hphy : g.phyInitialized = false)
    (hon : g.phyOn = false) (hreset : g.usbResetDeasserted = g.rstUsb) :
  Synced (exitPhy r phyWasOn g).1 ∧
    ((exitPhy r phyWasOn g).1.phyOn = true → phyWasOn = true ∧
      (r.exit ≠ 0 ∧ r.powerOn = 0 ∨ r.exit = 0 ∧ r.reinit = 0 ∧ r.repowerOn = 0))
  := by
  rw [exitPhy]
  simp only
  split
  · next hexit =>
    have htracks' : Tracks (g.call .exit r.exit).calls true false g.usbResetDeasserted :=
      htracks.fails hexit fun _ => rfl
    obtain ⟨hsynced, hon'⟩ := @synced_restored phyWasOn r.powerOn _ htracks' hon hreset
    use hsynced
    intro honAgain
    obtain ⟨hwas, hret⟩ := hon'.mp honAgain
    exact ⟨hwas, .inl ⟨hexit, hret⟩⟩
  · next hexit =>
    rw [not_not] at hexit
    have htracks' : Tracks (g.call .exit r.exit).calls false false g.usbResetDeasserted := by
      simp only [Glue.call, hexit]
      apply htracks.exit_ok
    split
    · next hboth =>
      rw [Bool.and_eq_true] at hboth
      have hlow : g.usbResetDeasserted = true := hboth.2
      rw [hlow] at htracks'
      split
      · next hassert =>
        have htracks'' := htracks'.fails (c := .assert) hassert fun _ => rfl
        split
        · next hreinit =>
          have hinited : Tracks (((g.call .exit r.exit).call .assert r.assert).call .init
              r.reinit).calls true false g.usbResetDeasserted := by
            simp only [Glue.call, hreinit, hlow]
            apply htracks''.init_ok
          obtain ⟨hsynced, hon'⟩ := @synced_restored phyWasOn r.repowerOn _ hinited hon hreset
          use hsynced
          intro honAgain
          obtain ⟨hwas, hret⟩ := hon'.mp honAgain
          exact ⟨hwas, .inr ⟨hexit, hreinit, hret⟩⟩
        · next hreinit =>
          constructor
          · constructor
            · simp only [Glue.call, hphy, hon, hlow]
              exact htracks''.fails hreinit fun _ => rfl
            · intro h
              exact absurd h (ne_true_of_eq_false hon)
            · intro h
              exact absurd h (ne_true_of_eq_false hphy)
            · intro hrst
              exact hreset.trans hrst
          · intro h
            exact absurd h (ne_true_of_eq_false hon)
      · next hassert =>
        rw [not_not] at hassert
        constructor
        · constructor
          · simp only [Glue.call, hphy, hon, hassert]
            apply htracks'.assert_ok
          · intro h
            exact absurd h (ne_true_of_eq_false hon)
          · intro h
            exact absurd h (ne_true_of_eq_false hphy)
          · intro _
            rfl
        · intro h
          exact absurd h (ne_true_of_eq_false hon)
    · constructor
      · constructor
        · simp only [Glue.call, hphy, hon]
          exact htracks'
        · intro h
          exact absurd h (ne_true_of_eq_false hon)
        · intro h
          exact absurd h (ne_true_of_eq_false hphy)
        · intro hrst
          exact hreset.trans hrst
      · intro h
        exact absurd h (ne_true_of_eq_false hon)

/-- Releasing the PHY keeps the booleans and the flag true, whatever fails. -/
theorem synced_release {r : ReleaseResults} {g : Glue} (h : Synced g)
    (hphy : g.phyInitialized = true) :
  Synced (releaseDeviceResources r g).1 ∧
    ((releaseDeviceResources r g).1.phyOn = true → StaysOn r g)
  := by
  have hreset := h.phyInitialized hphy
  have htracks := h.tracks.setMode .usbHost r.setMode
  rw [releaseDeviceResources, hphy]
  simp only [Bool.not_true, Bool.false_eq_true, if_false]
  split
  · next hmode =>
    constructor
    · constructor
      · exact htracks
      · exact h.phyOn
      · exact h.phyInitialized
      · exact h.rstUsb
    · intro hon
      exact ⟨hon, .inl hmode⟩
  · split
    · next hon =>
      have hon' : g.phyOn = true := hon
      rw [hphy, hon'] at htracks
      split
      · next hoff =>
        constructor
        · constructor
          · exact htracks.fails hoff fun hexit => Call.noConfusion hexit
          · intro _
            rfl
          · intro _
            exact hreset
          · exact h.rstUsb
        · intro _
          exact ⟨hon', .inr (.inl hoff)⟩
      · next hoff =>
        rw [not_not] at hoff
        have hoffTracks : Tracks ({ g.call (.setMode .usbHost) r.setMode with
            phyInitialized := false, vbusOn := false, phyOn := false }.call .powerOff
              r.powerOff).calls true false g.usbResetDeasserted := by
          simp only [Glue.call, hoff]
          apply htracks.powerOff_ok
        obtain ⟨hsynced, hback⟩ := @synced_exitPhy r g.phyOn _ hoffTracks rfl rfl hreset
        use hsynced
        intro hlast
        obtain ⟨-, hagain | hagain⟩ := hback hlast
        · exact ⟨hon', .inr (.inr (.inl hagain))⟩
        · exact ⟨hon', .inr (.inr (.inr hagain))⟩
    · next hon =>
      have hon' : g.phyOn = false := Bool.eq_false_iff.mpr hon
      rw [hphy, hon'] at htracks
      obtain ⟨hsynced, hback⟩ := @synced_exitPhy r g.phyOn
        { g.call (.setMode .usbHost) r.setMode with
          phyInitialized := false, vbusOn := false, phyOn := false } htracks rfl rfl hreset
      use hsynced
      intro hlast
      exact absurd (hback hlast).1 (ne_true_of_eq_false hon')

/-! ### Changes of the role -/

/-- A host controller is there exactly when its node is populated, and only in the role of a
host. -/
structure HostsKept (g : Glue) : Prop where
  ehci : g.ehciPopulated = g.ehciPdev
  ohci : g.ohciPopulated = g.ohciPdev
  role : g.role ≠ .host → g.ehciPdev = false ∧ g.ohciPdev = false

/-- The errors of a change of the role are unwound. -/
def SetUnwinds (r : Results) (g : Glue) : UsbRole → Prop
  | .host =>
    (g.phyInitialized = true → ¬ Releases r.release g →
      Unwinds r.acquire (g.rstUsb = true) (g.rstUsb = true) (¬ LeavesPhy r.release g)
        (StaysOn r.release g)) ∧
    (g.phyInitialized = true → Releases r.release g → ¬ Adds r.add →
      Unwinds r.acquire (g.rstUsb = true) False False False) ∧
    (g.phyInitialized = false → ¬ Adds r.add →
      Unwinds r.acquire (g.rstUsb = true) (g.usbResetDeasserted = true) False False)
  | .device | .none =>
    Unwinds r.acquire (g.rstUsb = true) (g.usbResetDeasserted = true) (g.phyInitialized = true)
      (g.phyOn = true)

theorem hostsKept_of_same {g g' : Glue} (h : HostsKept g) (hsame : SameHosts g g') :
  HostsKept g'
  := by
  constructor
  · rw [hsame.ehciPopulated, hsame.ehciPdev, h.ehci]
  · rw [hsame.ohciPopulated, hsame.ohciPdev, h.ohci]
  · intro hrole
    rw [hsame.ehciPdev, hsame.ohciPdev]
    apply h.role
    rwa [← hsame.role]

/-- What a PHY that is off can be powered on as: less is asked for. -/
theorem Unwinds.mono {r : AcquireResults} {rstUsb deasserted inited on deasserted' inited' on' :
    Prop} (h : Unwinds r rstUsb deasserted inited on) (hdeasserted : deasserted' ↔ deasserted)
    (hinited : inited' ↔ inited) (hon : on' → on) :
  Unwinds r rstUsb deasserted' inited' on'
  := by
  rw [Unwinds, hdeasserted, hinited]
  intro hdeassert
  obtain ⟨hinit, hmode⟩ := h hdeassert
  use hinit
  intro hfails
  obtain ⟨hoff, hexit, hassert⟩ := hmode hfails
  exact ⟨fun h => hoff (hon h), hexit, hassert⟩

/-- Removing the host controllers does not touch the PHY. -/
theorem removeHostControllers_eq (g : Glue) :
  removeHostControllers g = { g with
    ehciPopulated := if g.ehciPdev then false else g.ehciPopulated
    ohciPopulated := if g.ohciPdev then false else g.ohciPopulated
    ehciPdev := false
    ohciPdev := false }
  := by
  obtain ⟨_, _, ehciPdev, ohciPdev, _, _, _, _, _, _, _, _⟩ := g
  cases ehciPdev <;> cases ohciPdev <;> rfl

theorem synced_removeHostControllers {g : Glue} (h : Synced g) :
  Synced (removeHostControllers g)
  := by
  rw [removeHostControllers_eq]
  exact ⟨h.tracks, h.phyOn, h.phyInitialized, h.rstUsb⟩

theorem hostsKept_removeHostControllers {g : Glue} (h : HostsKept g) :
  HostsKept (removeHostControllers g)
  := by
  rw [removeHostControllers_eq]
  constructor
  · simp [h.ehci]
  · simp [h.ohci]
  · intro _
    exact ⟨rfl, rfl⟩

/-- The driver's state after a change of the role. -/
structure Kept (g : Glue) : Prop where
  synced : Synced g
  hosts : HostsKept g

theorem kept_leaveHost {r : Results} {role : UsbRole} {mode : PhyMode} {g : Glue} (h : Kept g)
    (hunwinds : Unwinds r.acquire (g.rstUsb = true) (g.usbResetDeasserted = true)
      (g.phyInitialized = true) (g.phyOn = true)) :
  Kept (leaveHost r role mode g).1
  := by
  have hremoved := synced_removeHostControllers h.synced
  have hsynced : Synced (acquireDeviceResources r.acquire mode (removeHostControllers g)).1 := by
    apply synced_acquire hremoved
    rw [removeHostControllers_eq]
    exact hunwinds
  have hsame := sameHosts_acquire r.acquire mode (removeHostControllers g)
  have hhosts := hostsKept_of_same (hostsKept_removeHostControllers h.hosts) hsame
  rw [leaveHost]
  simp only
  split
  · exact ⟨hsynced, hhosts⟩
  · constructor
    · exact ⟨hsynced.tracks, hsynced.phyOn, hsynced.phyInitialized, hsynced.rstUsb⟩
    · use hhosts.ehci, hhosts.ohci
      intro _
      rw [hsame.ehciPdev, hsame.ohciPdev, removeHostControllers_eq]
      exact ⟨rfl, rfl⟩

/-- Acquiring the device side again keeps the state, whatever error it is for. -/
theorem kept_restoreDevice {r : Results} {ret : ℤ} {g : Glue} (h : Kept g)
    (hunwinds : Unwinds r.acquire (g.rstUsb = true) (g.usbResetDeasserted = true)
      (g.phyInitialized = true) (g.phyOn = true)) :
  Kept (restoreDevice r ret g).1
  := ⟨synced_acquire h.synced hunwinds, hostsKept_of_same h.hosts (sameHosts_acquire ..)⟩

/-- The end of a change to the role of a host, behind the release of the PHY. -/
theorem kept_addHosts {r : Results} {g : Glue} (h : Kept g) (hrole : g.role ≠ .host)
    (hphy : g.phyInitialized = false)
    (hunwinds : ¬ Adds r.add → Unwinds r.acquire (g.rstUsb = true)
      (g.usbResetDeasserted = true) False False) :
  Kept (if (addHostControllers r.add g).2 ≠ 0 then
      restoreDevice r (addHostControllers r.add g).2 (addHostControllers r.add g).1
    else ({ (addHostControllers r.add g).1 with role := .host }, 0)).1
  := by
  obtain ⟨hehci, hohci⟩ := h.hosts.role hrole
  have hehci' : g.ehciPopulated = false := h.hosts.ehci.trans hehci
  have hohci' : g.ohciPopulated = false := h.hosts.ohci.trans hohci
  by_cases hadds : Adds r.add
  · rw [add_ok hehci' hohci' hadds, if_neg (not_not.mpr rfl)]
    constructor
    · exact ⟨h.synced.tracks, h.synced.phyOn, h.synced.phyInitialized, h.synced.rstUsb⟩
    · exact ⟨rfl, rfl, fun hno => absurd rfl hno⟩
  · obtain ⟨hret, hsame⟩ := add_error hehci' hohci' hadds
    rw [if_pos hret, hsame]
    apply kept_restoreDevice h
    apply (hunwinds hadds).mono Iff.rfl
    · rw [hphy]
      exact iff_of_false Bool.false_ne_true id
    · intro hon
      exact nomatch hphy.symm.trans (h.synced.phyOn hon)

theorem kept_setHost {r : Results} {g : Glue} (h : Kept g) (hrole : g.role ≠ .host)
    (hunwinds : SetUnwinds r g .host) :
  Kept (setHost r g).1
  := by
  obtain ⟨hfails, hadds, hadds'⟩ := hunwinds
  rw [setHost]
  simp only
  cases hphy : g.phyInitialized with
  | true =>
      have hreset := h.synced.phyInitialized hphy
      obtain ⟨hsame, hok, herror⟩ := released_release r.release hphy hreset
      obtain ⟨hsynced, hon⟩ := @synced_release r.release g h.synced hphy
      have hkept : Kept (releaseDeviceResources r.release g).1 :=
        ⟨hsynced, hostsKept_of_same h.hosts hsame⟩
      by_cases hreleases : Releases r.release g
      · obtain ⟨hret, hexited, hlow⟩ := hok hreleases
        rw [if_neg (not_not.mpr hret)]
        apply kept_addHosts hkept
        · rwa [hsame.role]
        · exact hexited
        · intro hno
          rw [hsame.rstUsb, hlow]
          apply (hadds hphy hreleases hno).mono
          · exact iff_of_false Bool.false_ne_true id
          · exact Iff.rfl
          · exact id
      · obtain ⟨hret, hlow, hleaves⟩ := herror hreleases
        rw [if_pos hret]
        apply kept_restoreDevice hkept
        rw [hsame.rstUsb, hlow, hreset]
        apply (hfails hphy hreleases).mono Iff.rfl _ hon
        rw [← hleaves, Bool.not_eq_false]
  | false =>
      have hnothing : releaseDeviceResources r.release g = (g, 0) := by
        rw [releaseDeviceResources, hphy]
        rfl
      rw [hnothing, if_neg (not_not.mpr rfl)]
      apply kept_addHosts h hrole hphy (hadds' hphy)

/-- A change of the role whose errors are unwound keeps the state. -/
theorem kept_roleSwitchSet {r : Results} {g : Glue} {role : UsbRole} (h : Kept g)
    (hunwinds : role = g.role ∨ SetUnwinds r g role) :
  Kept (roleSwitchSet r g role).1
  := by
  rw [roleSwitchSet.eq_def]
  split
  · exact h
  · next hother =>
    have hunwinds' := hunwinds.resolve_left hother
    cases role with
    | host => apply kept_setHost h (fun heq => hother heq.symm) hunwinds'
    | device => apply kept_leaveHost h hunwinds'
    | none => apply kept_leaveHost h hunwinds'

/-! ### The start and the end of the driver -/

/-- A PHY that is not initialized and a reset that is asserted have been given back. -/
structure Down (g : Glue) : Prop where
  phyInitialized : g.phyInitialized = false
  usbResetDeasserted : g.usbResetDeasserted = false

theorem Synced.phyOn_eq_false {g : Glue} (h : Synced g) (hphy : g.phyInitialized = false) :
  g.phyOn = false
  := by
  apply Bool.eq_false_iff.mpr
  intro hon
  exact nomatch hphy.symm.trans (h.phyOn hon)

theorem Synced.tracks_of_down {g : Glue} (h : Synced g) (hdown : Down g) :
  Tracks g.calls false false false
  := by
  have htracks := h.tracks
  rwa [hdown.phyInitialized, hdown.usbResetDeasserted, h.phyOn_eq_false hdown.phyInitialized]
    at htracks

theorem sameHosts_dropReset (ret : ℤ) (g : Glue) : SameHosts g (dropReset ret g) := by
  rw [dropReset]
  split <;> constructor <;> rfl

theorem sameHosts_dropPhy (ret : ℤ) (g : Glue) : SameHosts g (dropPhy ret g) := by
  rw [dropPhy]
  split <;> constructor <;> rfl

/-- Asserting the reset of a PHY that is not initialized gives everything back. -/
theorem kept_dropReset {ret : ℤ} {g : Glue} (h : Kept g) (hphy : g.phyInitialized = false)
    (hret : g.usbResetDeasserted = true → ret = 0) :
  Kept (dropReset ret g) ∧ Down (dropReset ret g)
  := by
  have hhosts := hostsKept_of_same h.hosts (sameHosts_dropReset ret g)
  have hon := h.synced.phyOn_eq_false hphy
  have htracks := h.synced.tracks
  rw [hphy, hon] at htracks
  rw [dropReset] at hhosts ⊢
  split
  · next hlow =>
    rw [if_pos hlow] at hhosts
    rw [hlow] at htracks
    constructor
    · constructor
      · constructor
        · simp only [Glue.call, hphy, hon, hret hlow]
          apply htracks.assert_ok
        · exact h.synced.phyOn
        · intro hno
          exact nomatch hphy.symm.trans hno
        · intro _
          rfl
      · exact hhosts
    · exact ⟨hphy, rfl⟩
  · next hlow => exact ⟨h, hphy, Bool.eq_false_iff.mpr hlow⟩

/-- Exiting a PHY that is off keeps the state. -/
theorem kept_dropPhy {ret : ℤ} {g : Glue} (h : Kept g) (hon : g.phyOn = false)
    (hret : g.phyInitialized = true → ret = 0) :
  Kept (dropPhy ret g) ∧ (dropPhy ret g).phyInitialized = false ∧
    (dropPhy ret g).usbResetDeasserted = g.usbResetDeasserted
  := by
  have hhosts := hostsKept_of_same h.hosts (sameHosts_dropPhy ret g)
  rw [dropPhy] at hhosts ⊢
  split
  · next hphy =>
    rw [if_pos hphy] at hhosts
    have htracks := h.synced.tracks
    rw [hphy, hon] at htracks
    refine ⟨⟨?_, hhosts⟩, rfl, rfl⟩
    constructor
    · simp only [Glue.call, hon, hret hphy]
      apply htracks.exit_ok
    · intro hno
      exact nomatch hon.symm.trans hno
    · intro hno
      cases hno
    · exact h.synced.rstUsb
  · next hphy => exact ⟨h, Bool.eq_false_iff.mpr hphy, rfl⟩

/-- The errors of `sunxi_musb_init` are unwound. -/
structure InitUnwinds (r : InitResults) (rstUsb : Prop) : Prop where
  extcon : r.extcon ≠ 0 ∨ r.init ≠ 0 → rstUsb → r.assert = 0
  register : r.extcon = 0 → r.init = 0 → r.roleSwitch = true → r.register ≠ 0 →
    r.exit = 0 ∧ (rstUsb → r.assert = 0)
  set : r.extcon = 0 → r.init = 0 → r.roleSwitch = true → r.register = 0 →
    Unwinds r.set.acquire rstUsb rstUsb True False

/-- Acquiring a PHY that is initialized only sets its mode. -/
theorem acquire_of_initialized {r : AcquireResults} {mode : PhyMode} {g : Glue}
    (hphy : g.phyInitialized = true) (hreset : g.usbResetDeasserted = g.rstUsb) :
  acquireDeviceResources r mode g = enterMode r mode g
  := by
  rw [acquireDeviceResources, hreset, Bool.and_not_self, if_neg Bool.false_ne_true, initPhy, hphy]
  rfl

/-- A mode that cannot be set leaves the device side released. -/
theorem down_enterMode {r : AcquireResults} {mode : PhyMode} {g : Glue}
    (hrst : g.rstUsb = false → g.usbResetDeasserted = false) (hret : (enterMode r mode g).2 ≠ 0) :
  Down (enterMode r mode g).1
  := by
  rw [enterMode] at hret ⊢
  split
  · constructor
    · rw [phyInitialized_assertUsbReset]
      rfl
    · rw [assertUsbReset]
      split
      · rfl
      · next hboth =>
        rw [Bool.and_eq_true, not_and_or, Bool.not_eq_true, Bool.not_eq_true] at hboth
        exact hboth.elim hrst id
  · next hmode =>
    rw [if_neg hmode] at hret
    exact absurd rfl hret

theorem down_leaveHost {r : Results} {role : UsbRole} {mode : PhyMode} {g : Glue}
    (hphy : g.phyInitialized = true) (hreset : g.usbResetDeasserted = g.rstUsb)
    (hret : (leaveHost r role mode g).2 ≠ 0) :
  Down (leaveHost r role mode g).1
  := by
  have hphy' : (removeHostControllers g).phyInitialized = true := by
    rw [removeHostControllers_eq]
    exact hphy
  have hreset' : (removeHostControllers g).usbResetDeasserted =
      (removeHostControllers g).rstUsb := by
    rw [removeHostControllers_eq]
    exact hreset
  rw [leaveHost, acquire_of_initialized hphy' hreset'] at hret ⊢
  simp only at hret ⊢
  split
  · next hfails =>
    apply down_enterMode _ hfails
    intro hrst
    exact hreset'.trans hrst
  · next hok =>
    rw [if_neg hok] at hret
    exact absurd rfl hret

theorem unwindInit_of_down {r : InitResults} {g : Glue} (h : Down g) : unwindInit r g = g := by
  rw [unwindInit, dropPhy, h.phyInitialized, if_neg Bool.false_ne_true, dropReset,
    h.usbResetDeasserted, if_neg Bool.false_ne_true]

/-- `sunxi_musb_init` from the call of `phy_init` on, with the reset deasserted. -/
theorem kept_initPhy {r : InitResults} {g : Glue} (h : Kept g) (hphy : g.phyInitialized = false)
    (hreset : g.usbResetDeasserted = g.rstUsb) (hrole : g.role = .none) (hextcon : r.extcon = 0)
    (hunwinds : InitUnwinds r (g.rstUsb = true)) :
  Kept (musbInitPhy r g).1 ∧ ((musbInitPhy r g).2 ≠ 0 → Down (musbInitPhy r g).1)
  := by
  have hon := h.synced.phyOn_eq_false hphy
  have htracks := h.synced.tracks
  rw [hphy, hon] at htracks
  rw [musbInitPhy]
  simp only
  split
  · next hinit =>
    have hkept : Kept (g.call .init r.init) := by
      constructor
      · constructor
        · simp only [Glue.call, hphy, hon]
          exact htracks.fails hinit nofun
        · exact h.synced.phyOn
        · exact h.synced.phyInitialized
        · exact h.synced.rstUsb
      · exact ⟨h.hosts.ehci, h.hosts.ohci, h.hosts.role⟩
    obtain ⟨hkept', hdown⟩ := @kept_dropReset r.assert _ hkept hphy
      (fun hlow => hunwinds.extcon (.inr hinit) (hreset.symm.trans hlow))
    exact ⟨hkept', fun _ => hdown⟩
  · next hinit =>
    rw [not_not] at hinit
    have hinited : Kept { g.call .init r.init with phyInitialized := true } := by
      constructor
      · constructor
        · simp only [Glue.call, hon, hinit]
          apply htracks.init_ok
        · intro _
          rfl
        · intro _
          exact hreset
        · exact h.synced.rstUsb
      · exact ⟨h.hosts.ehci, h.hosts.ohci, h.hosts.role⟩
    cases hswitch : r.roleSwitch with
    | false => exact ⟨hinited, fun hno => absurd rfl hno⟩
    | true =>
        have hsame : { g.call .init r.init with phyInitialized := true, role := .none } =
            { g.call .init r.init with phyInitialized := true } := by
          rw [← hrole]
          rfl
        simp only [Bool.not_true, Bool.false_eq_true, if_false, hsame]
        split
        · next hregister =>
          obtain ⟨hexit, hassert⟩ := hunwinds.register hextcon hinit hswitch hregister
          obtain ⟨hkept, hphy', hreset'⟩ := @kept_dropPhy r.exit _ hinited hon fun _ => hexit
          obtain ⟨hkept', hdown⟩ := @kept_dropReset r.assert _ hkept hphy' fun hlow =>
            hassert (hreset.symm.trans (hreset'.symm.trans hlow))
          exact ⟨hkept', fun _ => hdown⟩
        · next hregister =>
          rw [not_not] at hregister
          have hset : roleSwitchSet r.set { g.call .init r.init with phyInitialized := true }
              .device = leaveHost r.set .device .usbDevice
                { g.call .init r.init with phyInitialized := true } := by
            rw [roleSwitchSet.eq_def, if_neg]
            change ¬ UsbRole.device = g.role
            rw [hrole]
            exact UsbRole.noConfusion
          have hacquire := hunwinds.set hextcon hinit hswitch hregister
          have hkept := @kept_leaveHost r.set .device .usbDevice _ hinited
            (hacquire.mono (iff_of_eq (congrArg (· = true) hreset)) (iff_of_true rfl trivial)
              fun hno => (nomatch hon.symm.trans hno))
          rw [hset]
          split
          · next hret =>
            have hdown := @down_leaveHost r.set .device .usbDevice
              { g.call .init r.init with phyInitialized := true } rfl hreset hret
            rw [unwindInit_of_down hdown]
            exact ⟨hkept, fun _ => hdown⟩
          · exact ⟨hkept, fun hno => absurd rfl hno⟩

theorem kept_fresh (rstUsb : Bool) : Kept (fresh rstUsb) := by
  constructor
  · constructor
    · constructor
      · rfl
      · rfl
      · rfl
      · intro before ret after heq
        cases before <;> cases heq
    · intro hno
      cases hno
    · intro hno
      cases hno
    · intro _
      rfl
  · exact ⟨rfl, rfl, fun _ => ⟨rfl, rfl⟩⟩

/-- When the start of the driver fails, everything is given back. -/
theorem kept_musbInit {r : InitResults} {rstUsb : Bool}
    (hunwinds : InitUnwinds r (rstUsb = true)) :
  Kept (musbInit r (fresh rstUsb)).1 ∧
    ((musbInit r (fresh rstUsb)).2 ≠ 0 → Down (musbInit r (fresh rstUsb)).1)
  := by
  have hfresh := kept_fresh rstUsb
  have hextcon : ∀ g, Kept g → g.phyInitialized = false → g.usbResetDeasserted = g.rstUsb →
      g.role = .none → g.rstUsb = rstUsb → Kept (musbInitExtcon r g).1 ∧
        ((musbInitExtcon r g).2 ≠ 0 → Down (musbInitExtcon r g).1) := by
    intro g hg hphy hreset hrole hrst
    rw [musbInitExtcon]
    split
    · next hfails =>
      obtain ⟨hkept, hdown⟩ := @kept_dropReset r.assert _ hg hphy fun hlow =>
        hunwinds.extcon (.inl hfails) (hrst.symm.trans (hreset.symm.trans hlow))
      exact ⟨hkept, fun _ => hdown⟩
    · next hok =>
      apply kept_initPhy hg hphy hreset hrole (not_not.mp hok)
      rwa [hrst]
  rw [musbInit]
  split
  · exact ⟨hfresh, fun _ => ⟨rfl, rfl⟩⟩
  · split
    · next hrst =>
      have hrst' : rstUsb = true := hrst
      have htracks : Tracks [] false false false := hfresh.synced.tracks
      simp only
      split
      · next hfails =>
        constructor
        · constructor
          · constructor
            · exact htracks.fails hfails nofun
            · exact hfresh.synced.phyOn
            · exact hfresh.synced.phyInitialized
            · exact hfresh.synced.rstUsb
          · exact ⟨rfl, rfl, fun _ => ⟨rfl, rfl⟩⟩
        · intro _
          exact ⟨rfl, rfl⟩
      · next hok =>
        apply hextcon
        · constructor
          · constructor
            · simp only [Glue.call, not_not.mp hok]
              exact htracks.deassert_ok
            · exact hfresh.synced.phyOn
            · intro _
              exact hrst.symm
            · intro hno
              exact nomatch hrst.symm.trans hno
          · exact ⟨rfl, rfl, fun _ => ⟨rfl, rfl⟩⟩
        · rfl
        · exact hrst.symm
        · rfl
        · rfl
    · next hrst =>
      apply hextcon
      · exact hfresh
      · rfl
      · exact (Bool.eq_false_iff.mpr hrst).symm
      · rfl
      · rfl

/-- The worker turns the PHY on or off, and leaves the flag true to it. -/
def WorkFine (call : Option (Bool × ℤ)) (phyOn : Bool) (g : Glue) : Prop :=
  g.phyInitialized = true →
    match call with
    | none => phyOn = g.phyOn
    | some (on, ret) => on ≠ g.phyOn ∧ phyOn = if ret = 0 then on else g.phyOn

theorem kept_musbWork {call : Option (Bool × ℤ)} {phyOn : Bool} {g : Glue} (h : Kept g)
    (hfine : WorkFine call phyOn g) :
  Kept (musbWork call phyOn g)
  := by
  have hhosts : HostsKept g := h.hosts
  rw [musbWork.eq_def]
  split
  · exact h
  · next hphy =>
    rw [Bool.not_eq_true', Bool.not_eq_false] at hphy
    have hwork := hfine hphy
    have htracks := h.synced.tracks
    cases call with
    | none =>
        simp only at hwork
        rw [hwork]
        exact h
    | some call =>
        obtain ⟨on, ret⟩ := call
        obtain ⟨hother, hflag⟩ := hwork
        refine ⟨⟨?_, fun _ => hphy, h.synced.phyInitialized, h.synced.rstUsb⟩,
          hhosts.ehci, hhosts.ohci, hhosts.role⟩
        simp only [Glue.call, hflag]
        split
        · next hret =>
          subst hret
          cases on with
          | true =>
              rw [Bool.eq_false_iff.mpr hother.symm] at htracks
              apply htracks.powerOn_ok
          | false =>
              rw [eq_true_of_ne_false hother.symm] at htracks
              apply htracks.powerOff_ok
        · next hret =>
          apply htracks.fails hret
          intro hno
          cases on <;> cases hno

/-- Everything is given back at the end. -/
structure ExitUnwinds (r : ExitResults) (g : Glue) : Prop where
  phyOn : g.phyOn = false
  exit : g.phyInitialized = true → r.exit = 0
  assert : g.usbResetDeasserted = true → r.assert = 0

theorem kept_musbExit {r : ExitResults} {g : Glue} (h : Kept g) (hunwinds : ExitUnwinds r g) :
  Kept (musbExit r g) ∧ Down (musbExit r g)
  := by
  have hremoved : Kept (removeHostControllers g) :=
    ⟨synced_removeHostControllers h.synced, hostsKept_removeHostControllers h.hosts⟩
  rw [musbExit]
  rw [removeHostControllers_eq] at hremoved ⊢
  simp only [hunwinds.phyOn, Bool.and_false, Bool.false_eq_true, if_false] at hremoved ⊢
  obtain ⟨hkept, hphy, hreset⟩ := @kept_dropPhy r.exit _ hremoved rfl hunwinds.exit
  apply kept_dropReset hkept hphy
  intro hlow
  apply hunwinds.assert (hreset.symm.trans hlow)

/-! ### Runs -/

/-- Where the driver is between its start and its end. -/
inductive Phase where
  | down
  | running
  | ended
  deriving DecidableEq

structure Driver where
  glue : Glue
  phase : Phase
  deriving DecidableEq

namespace Driver

/-- What happens to the driver. The worker, as far as it is called for the power of the PHY, may
make a call to turn it on or off, and leaves the flag in some state. -/
inductive Event where
  | init (r : InitResults)
  | work (call : Option (Bool × ℤ)) (phyOn : Bool)
  | set (r : Results) (role : UsbRole)
  | exit (r : ExitResults)

def step (s : Driver) : Event → Driver
  | .init r =>
    if s.phase = .down then
      let (glue, ret) := musbInit r s.glue
      { glue, phase := if ret = 0 then .running else .ended }
    else s
  | .work call phyOn =>
    if s.phase = .running then { s with glue := musbWork call phyOn s.glue } else s
  | .set r role =>
    if s.phase = .running then { s with glue := (roleSwitchSet r s.glue role).1 } else s
  | .exit r =>
    if s.phase = .running then { glue := musbExit r s.glue, phase := .ended } else s

/-- The driver before its start. -/
def start (rstUsb : Bool) : Driver := ⟨fresh rstUsb, .down⟩

/-- Calls that succeed alternate, the PHY is off when it is exited, the flag is set only while the
PHY is initialized, and at the end everything is given back. -/
structure Balanced (s : Driver) : Prop where
  init : status .init .exit s.glue.calls ≠ none
  power : status .powerOn .powerOff s.glue.calls ≠ none
  reset : status .deassert .assert s.glue.calls ≠ none
  exitsOff : ExitsOff s.glue.calls
  phyOn : s.glue.phyOn = true → s.glue.phyInitialized = true
  ended : s.phase = .ended → Tracks s.glue.calls false false false

/-- The errors of every step are unwound, and the worker leaves the flag true to the PHY. -/
def Allowed (s : Driver) : Event → Prop
  | .init r => s.phase = .down → InitUnwinds r (s.glue.rstUsb = true)
  | .work call phyOn => s.phase = .running → WorkFine call phyOn s.glue
  | .set r role => s.phase = .running → role = s.glue.role ∨ SetUnwinds r s.glue role
  | .exit r => s.phase = .running → ExitUnwinds r s.glue

/-- What every allowed step preserves. -/
structure Invariant (s : Driver) : Prop where
  kept : Kept s.glue
  down : s.phase = .down → s.glue = fresh s.glue.rstUsb
  ended : s.phase = .ended → Down s.glue

theorem Invariant.balanced {s : Driver} (h : Invariant s) : Balanced s := by
  have htracks := h.kept.synced.tracks
  constructor
  · rw [htracks.init]
    apply Option.some_ne_none
  · rw [htracks.power]
    apply Option.some_ne_none
  · rw [htracks.reset]
    apply Option.some_ne_none
  · exact htracks.exitsOff
  · exact h.kept.synced.phyOn
  · intro hended
    apply h.kept.synced.tracks_of_down (h.ended hended)

theorem invariant_start (rstUsb : Bool) : Invariant (start rstUsb) := by
  constructor
  · apply kept_fresh
  · intro _
    rfl
  · intro hended
    cases hended

theorem invariant_init {s : Driver} {r : InitResults} (h : Invariant s)
    (hallowed : Allowed s (.init r)) :
  Invariant (step s (.init r))
  := by
  rw [step]
  split
  · next hdown =>
    have hinit := @kept_musbInit r s.glue.rstUsb (hallowed hdown)
    rw [← h.down hdown] at hinit
    obtain ⟨hkept, hfails⟩ := hinit
    constructor
    · exact hkept
    · intro hphase
      simp only at hphase
      split at hphase <;> cases hphase
    · intro hphase
      apply hfails
      intro hret
      simp only [if_pos hret] at hphase
      cases hphase
  · exact h

/-- A driver that goes on running. -/
theorem invariant_running {s : Driver} {g : Glue} (hrunning : s.phase = .running) (h : Kept g) :
  Invariant { s with glue := g }
  := by
  constructor
  · exact h
  · intro hphase
    exact nomatch hrunning.symm.trans hphase
  · intro hphase
    exact nomatch hrunning.symm.trans hphase

theorem invariant_step {s : Driver} {e : Event} (h : Invariant s) (hallowed : Allowed s e) :
  Invariant (step s e)
  := by
  cases e with
  | init r => apply invariant_init h hallowed
  | work call phyOn =>
      rw [step]
      split
      · next hrunning =>
        apply invariant_running hrunning
        apply kept_musbWork h.kept (hallowed hrunning)
      · exact h
  | set r role =>
      rw [step]
      split
      · next hrunning =>
        apply invariant_running hrunning
        apply kept_roleSwitchSet h.kept (hallowed hrunning)
      · exact h
  | exit r =>
      rw [step]
      split
      · next hrunning =>
        obtain ⟨hkept, hdown⟩ := kept_musbExit h.kept (hallowed hrunning)
        constructor
        · exact hkept
        · intro hphase
          cases hphase
        · intro _
          exact hdown
      · exact h

/-- In every run in which the errors are unwound, the mode of the PHY is set without an error while
it is powered on, the worker leaves the flag true to the PHY and the PHY is off at the end, the
calls to the PHY and to the reset stay balanced. -/
theorem balanced_of_reaches {rstUsb : Bool} {s : Driver}
    (h : Runs.Reaches step Allowed (start rstUsb) s) :
  Balanced s
  := by
  apply Invariant.balanced
  apply h.invariant
  · intro s e hs he
    apply invariant_step hs he
  · apply invariant_start

/-- All calls of a change of the role succeed. -/
def setFine : Results where
  release := ⟨0, 0, 0, 0, 0, 0, 0⟩
  add := ⟨⟨true, true, true⟩, ⟨true, true, true⟩, 0, true, 0⟩
  acquire := ⟨0, 0, 0, 0, 0⟩

/-- All calls of the start of the driver succeed. -/
def initFine : InitResults where
  before := 0
  deassert := 0
  extcon := 0
  init := 0
  roleSwitch := true
  register := 0
  set := setFine
  exit := 0
  assert := 0

theorem unwinds_setFine (rstUsb deasserted inited on : Prop) :
  Unwinds setFine.acquire rstUsb deasserted inited on
  := by
  intro _
  constructor
  · intro _ _
    rfl
  · intro hmode
    exact absurd rfl hmode.2

theorem initUnwinds_initFine (rstUsb : Prop) : InitUnwinds initFine rstUsb := by
  constructor
  · intro _ _
    rfl
  · intro _ _ _ _
    exact ⟨rfl, fun _ => rfl⟩
  · intro _ _ _ _
    apply unwinds_setFine

/-- The worker turns the PHY on, the port goes to the host controllers, and the driver
ends. -/
theorem balanced_host :
  Balanced ([.init initFine, .work (some (true, 0)) true, .set setFine .host,
    .exit ⟨0, 0, 0⟩].foldl step (start true))
  := by
  apply @balanced_of_reaches true
  simp only [List.foldl]
  apply Runs.Reaches.tail
  · apply Runs.Reaches.tail
    · apply Runs.Reaches.tail
      · apply (Runs.Reaches.refl _).tail
        intro _
        apply initUnwinds_initFine
      · intro _ _
        exact ⟨nofun, rfl⟩
    · intro _
      right
      constructor
      · intro _ _
        apply unwinds_setFine
      · constructor
        · intro _ _ _
          apply unwinds_setFine
        · intro _ _
          apply unwinds_setFine
  · intro _
    constructor
    · rfl
    · intro _
      rfl
    · intro _
      rfl

/-- The mode of the PHY cannot be set when the role is left. -/
def setFails : Results := { setFine with acquire := ⟨0, 0, -110, 0, 0⟩ }

/-- A PHY that is powered on is exited when its mode cannot be set, and the flag stays. -/
theorem not_balanced :
  ¬ ∀ (rstUsb : Bool) (events : List Event), Balanced (events.foldl step (start rstUsb))
  := by
  intro h
  have hbalanced := h true [.init initFine, .work (some (true, 0)) true, .set setFails .none]
  exact nomatch hbalanced.phyOn rfl

end Driver

end Musb

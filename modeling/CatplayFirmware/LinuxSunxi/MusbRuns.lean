import CatplayFirmware.LinuxSunxi.Musb

/-!
# Runs of the role switch

A run is a sequence of changes of the role, between which the worker may turn the PHY on and off.
As long as the device side is acquired again whenever it has to be, the role, the host controllers
and the PHY belong together in every state of a run. The first time it is not, they do not.
-/

namespace Musb

/-- What happens to the role switch: the worker runs, or the role is set. -/
inductive Event
  | work (phyOn : Bool)
  | set (r : Results) (role : UsbRole)

def step (g : Glue) : Event → Glue
  | .work phyOn => if g.phyInitialized then { g with phyOn } else g
  | .set r role => (roleSwitchSet r g role).1

/-- The device side is acquired again, if the change to a role does that. -/
def Recovers (r : Results) (g : Glue) : UsbRole → Prop
  | .host => (Releases r.release g ∧ Adds r.add) ∨
      Acquires r.acquire (Releases r.release g ∧ g.rstUsb = true)
        (Releases r.release g ∨ LeavesPhy r.release g)
  | .device | .none =>
    Acquires r.acquire (g.rstUsb = true ∧ g.usbResetDeasserted = false) (g.phyInitialized = false)

/-- Every change of the role acquires the device side again, if it has to. -/
def Allowed (g : Glue) : Event → Prop
  | .work _ => True
  | .set r role => role = g.role ∨ Recovers r g role

/-- The role, the host controllers and the PHY belong together. -/
structure Consistent (g : Glue) : Prop where
  host_iff : g.role = .host ↔
    g.ehciPdev = true ∧ g.ohciPdev = true ∧ g.phyInitialized = false
  none : g.role ≠ .host → g.ehciPdev = false ∧ g.ohciPdev = false

/-- The role, the host controllers and the state of the PHY are the same. -/
structure Unchanged (g g' : Glue) : Prop where
  role : g'.role = g.role
  ehciPdev : g'.ehciPdev = g.ehciPdev
  ohciPdev : g'.ohciPdev = g.ohciPdev
  phyInitialized : g'.phyInitialized = g.phyInitialized
  usbResetDeasserted : g'.usbResetDeasserted = g.usbResetDeasserted

/-- A change of the role leaves a consistent state, and the state before if it fails. -/
def SetFine (r : Results) (g : Glue) (role : UsbRole) : Prop :=
  Consistent (roleSwitchSet r g role).1 ∧
    ((roleSwitchSet r g role).2 ≠ 0 → Unchanged g (roleSwitchSet r g role).1)

/-! ### The two sides -/

/-- The port belongs to the device side. -/
structure AsDevice (g : Glue) : Prop where
  role : g.role ≠ .host
  ehciPdev : g.ehciPdev = false
  ohciPdev : g.ohciPdev = false
  ehciPopulated : g.ehciPopulated = false
  ohciPopulated : g.ohciPopulated = false
  phyInitialized : g.phyInitialized = true
  usbResetDeasserted : g.usbResetDeasserted = g.rstUsb

/-- The port belongs to the host controllers. -/
structure AsHost (g : Glue) : Prop where
  role : g.role = .host
  ehciPdev : g.ehciPdev = true
  ohciPdev : g.ohciPdev = true
  ehciPopulated : g.ehciPopulated = true
  ohciPopulated : g.ohciPopulated = true
  phyInitialized : g.phyInitialized = false
  usbResetDeasserted : g.usbResetDeasserted = false

/-- The port belongs to one of its two sides. -/
def Settled (g : Glue) : Prop := AsDevice g ∨ AsHost g

theorem Settled.consistent {g : Glue} (h : Settled g) : Consistent g := by
  rcases h with h | h
  · constructor
    · constructor
      · intro hrole
        exact absurd hrole h.role
      · rintro ⟨hehci, -, -⟩
        exact nomatch h.ehciPdev.symm.trans hehci
    · intro _
      exact ⟨h.ehciPdev, h.ohciPdev⟩
  · constructor
    · constructor
      · intro _
        exact ⟨h.ehciPdev, h.ohciPdev, h.phyInitialized⟩
      · intro _
        exact h.role
    · intro hrole
      exact absurd h.role hrole

theorem AsDevice.unchanged {g g' : Glue} (h : AsDevice g) (h' : AsDevice g')
    (hosts : SameHosts g g') :
  Unchanged g g'
  := by
  constructor
  · apply hosts.role
  · apply hosts.ehciPdev
  · apply hosts.ohciPdev
  · rw [h.phyInitialized, h'.phyInitialized]
  · rw [h.usbResetDeasserted, h'.usbResetDeasserted, hosts.rstUsb]

/-! ### To the host controllers -/

/-- When the change to the role of a host fails, the device side is what acquiring it makes of
it. -/
theorem restoreDevice_fine {r : Results} {g g' : Glue} {ret : ℤ} {deasserts inits : Prop}
    (hg : AsDevice g) (hosts : SameHosts g g') (hret : ret ≠ 0)
    (hinits : inits ↔ g'.phyInitialized = false)
    (hdeasserts : deasserts ↔ g'.rstUsb = true ∧ g'.usbResetDeasserted = false)
    (hreset : g'.rstUsb = true → g'.usbResetDeasserted = false → g'.phyInitialized = false)
    (hlow : g'.rstUsb = false → g'.usbResetDeasserted = false) :
  (restoreDevice r ret g').2 ≠ 0 ∧
    (Acquires r.acquire deasserts inits → AsDevice (restoreDevice r ret g').1 ∧
      SameHosts g (restoreDevice r ret g').1) ∧
    (¬ Acquires r.acquire deasserts inits → (restoreDevice r ret g').1.phyInitialized = false)
  := by
  have hacquires : Acquires r.acquire deasserts inits ↔
      Acquires r.acquire (g'.rstUsb = true ∧ g'.usbResetDeasserted = false) inits := by
    rw [Acquires, Acquires, hdeasserts]
  have hsame := hosts.trans (sameHosts_acquire r.acquire .usbDevice g')
  refine ⟨hret, ?_, ?_⟩
  · intro h
    obtain ⟨-, hphy, hdeasserted⟩ := acquire_ok hinits (hacquires.mp h) .usbDevice
    refine ⟨?_, hsame⟩
    constructor
    · exact fun hrole => hg.role (hsame.role.symm.trans hrole)
    · exact hsame.ehciPdev.trans hg.ehciPdev
    · exact hsame.ohciPdev.trans hg.ohciPdev
    · exact hsame.ehciPopulated.trans hg.ehciPopulated
    · exact hsame.ohciPopulated.trans hg.ohciPopulated
    · exact hphy
    · refine hdeasserted.trans ?_
      refine Eq.trans ?_ (hsame.rstUsb.trans hosts.rstUsb.symm).symm
      cases hrst : g'.rstUsb with
      | true => rw [Bool.or_true]
      | false => rw [hlow hrst, Bool.or_false]
  · intro h
    exact (acquire_error hinits hreset (fun h' => h (hacquires.mpr h')) .usbDevice).2

theorem setHost_ok {r : Results} {g : Glue} (hg : AsDevice g) (hrel : Releases r.release g)
    (hadd : Adds r.add) :
  (setHost r g).2 = 0 ∧ AsHost (setHost r g).1
  := by
  have hreleased := released_release r.release hg.phyInitialized hg.usbResetDeasserted
  obtain ⟨hret, hphy, hreset⟩ := hreleased.ok hrel
  have hhosts := hreleased.hosts
  rw [setHost]
  simp only
  rw [if_neg (not_not.mpr hret), add_ok (hhosts.ehciPopulated.trans hg.ehciPopulated)
    (hhosts.ohciPopulated.trans hg.ohciPopulated) hadd]
  simp only [ne_eq, not_true_eq_false, if_false]
  refine ⟨trivial, ?_⟩
  constructor
  · rfl
  · rfl
  · rfl
  · rfl
  · rfl
  · exact hphy
  · exact hreset

theorem setHost_error {r : Results} {g : Glue} (hg : AsDevice g)
    (h : ¬ (Releases r.release g ∧ Adds r.add)) :
  (setHost r g).2 ≠ 0 ∧
    (Acquires r.acquire (Releases r.release g ∧ g.rstUsb = true)
        (Releases r.release g ∨ LeavesPhy r.release g) →
      AsDevice (setHost r g).1 ∧ SameHosts g (setHost r g).1) ∧
    (¬ Acquires r.acquire (Releases r.release g ∧ g.rstUsb = true)
        (Releases r.release g ∨ LeavesPhy r.release g) →
      (setHost r g).1.phyInitialized = false)
  := by
  have hreleased := released_release r.release hg.phyInitialized hg.usbResetDeasserted
  have hhosts := hreleased.hosts
  rw [setHost]
  simp only
  by_cases hrel : Releases r.release g
  · obtain ⟨hret, hphy, hreset⟩ := hreleased.ok hrel
    obtain ⟨haddRet, haddSame⟩ := add_error (hhosts.ehciPopulated.trans hg.ehciPopulated)
      (hhosts.ohciPopulated.trans hg.ohciPopulated) fun hadd => h ⟨hrel, hadd⟩
    rw [if_neg (not_not.mpr hret), if_pos haddRet, haddSame]
    apply restoreDevice_fine hg hhosts haddRet
    · constructor
      · intro _
        exact hphy
      · intro _
        exact .inl hrel
    · constructor
      · rintro ⟨-, hrst⟩
        exact ⟨hhosts.rstUsb.trans hrst, hreset⟩
      · rintro ⟨hrst, -⟩
        exact ⟨hrel, hhosts.rstUsb.symm.trans hrst⟩
    · intro _ _
      exact hphy
    · intro _
      exact hreset
  · obtain ⟨hret, hreset, hphy⟩ := hreleased.error hrel
    have hsame : (releaseDeviceResources r.release g).1.usbResetDeasserted =
        (releaseDeviceResources r.release g).1.rstUsb := by
      rw [hreset, hg.usbResetDeasserted, hhosts.rstUsb]
    rw [if_pos hret]
    apply restoreDevice_fine hg hhosts hret
    · rw [hphy]
      exact or_iff_right hrel
    · constructor
      · rintro ⟨hno, -⟩
        exact absurd hno hrel
      · rintro ⟨hrst, hlow⟩
        exact nomatch (hrst.symm.trans hsame.symm).trans hlow
    · intro hrst hlow
      exact nomatch (hrst.symm.trans hsame.symm).trans hlow
    · intro hrst
      exact hsame.trans hrst

/-! ### To the device side -/

/-- Removing the host controllers leaves no device and touches nothing else. -/
structure Removed (g g' : Glue) : Prop where
  rstUsb : g'.rstUsb = g.rstUsb
  role : g'.role = g.role
  ehciPdev : g'.ehciPdev = false
  ohciPdev : g'.ohciPdev = false
  ehciPopulated : g'.ehciPopulated = false
  ohciPopulated : g'.ohciPopulated = false
  phyInitialized : g'.phyInitialized = g.phyInitialized
  usbResetDeasserted : g'.usbResetDeasserted = g.usbResetDeasserted

theorem removed_removeHostControllers {g : Glue} (h : Settled g) :
  Removed g (removeHostControllers g)
  := by
  rw [removeHostControllers]
  rcases h with h | h
  · simp only [h.ohciPdev, Bool.false_eq_true, if_false, h.ehciPdev]
    constructor
    · rfl
    · rfl
    · exact h.ehciPdev
    · exact h.ohciPdev
    · exact h.ehciPopulated
    · exact h.ohciPopulated
    · rfl
    · rfl
  · simp only [h.ohciPdev, if_true, h.ehciPdev]
    constructor <;> rfl

theorem Settled.reset {g : Glue} (h : Settled g) (hrst : g.rstUsb = true)
    (hlow : g.usbResetDeasserted = false) :
  g.phyInitialized = false
  := by
  rcases h with h | h
  · exact nomatch (hrst.symm.trans h.usbResetDeasserted.symm).trans hlow
  · exact h.phyInitialized

theorem Settled.or_rstUsb {g : Glue} (h : Settled g) :
  (g.usbResetDeasserted || g.rstUsb) = g.rstUsb
  := by
  rcases h with h | h
  · rw [h.usbResetDeasserted, Bool.or_self]
  · rw [h.usbResetDeasserted, Bool.false_or]

/-- What is left of a change to another role than that of a host. -/
theorem leaveHost_ok {r : Results} {g : Glue} {role : UsbRole} (hg : Settled g)
    (hrole : role ≠ .host)
    (h : Acquires r.acquire (g.rstUsb = true ∧ g.usbResetDeasserted = false)
      (g.phyInitialized = false)) (mode : PhyMode) :
  (leaveHost r role mode g).2 = 0 ∧ AsDevice (leaveHost r role mode g).1
  := by
  have hremoved := removed_removeHostControllers hg
  rw [← hremoved.rstUsb, ← hremoved.usbResetDeasserted, ← hremoved.phyInitialized] at h
  obtain ⟨hret, hphy, hreset⟩ := acquire_ok Iff.rfl h mode
  have hsame := sameHosts_acquire r.acquire mode (removeHostControllers g)
  rw [leaveHost]
  simp only
  rw [if_neg (not_not.mpr hret)]
  refine ⟨rfl, ?_⟩
  constructor
  · exact hrole
  · exact hsame.ehciPdev.trans hremoved.ehciPdev
  · exact hsame.ohciPdev.trans hremoved.ohciPdev
  · exact hsame.ehciPopulated.trans hremoved.ehciPopulated
  · exact hsame.ohciPopulated.trans hremoved.ohciPopulated
  · exact hphy
  · refine hreset.trans ?_
    rw [hremoved.usbResetDeasserted, hremoved.rstUsb, hg.or_rstUsb]
    exact (hsame.rstUsb.trans hremoved.rstUsb).symm

theorem leaveHost_error {r : Results} {g : Glue} {role : UsbRole} (hg : Settled g)
    (h : ¬ Acquires r.acquire (g.rstUsb = true ∧ g.usbResetDeasserted = false)
      (g.phyInitialized = false)) (mode : PhyMode) :
  (leaveHost r role mode g).2 ≠ 0 ∧ (leaveHost r role mode g).1.role = g.role ∧
    (leaveHost r role mode g).1.ehciPdev = false ∧
    (leaveHost r role mode g).1.phyInitialized = false
  := by
  have hremoved := removed_removeHostControllers hg
  rw [← hremoved.rstUsb, ← hremoved.usbResetDeasserted, ← hremoved.phyInitialized] at h
  have hlow : (removeHostControllers g).rstUsb = true →
      (removeHostControllers g).usbResetDeasserted = false →
      (removeHostControllers g).phyInitialized = false := by
    rw [hremoved.rstUsb, hremoved.usbResetDeasserted, hremoved.phyInitialized]
    exact hg.reset
  obtain ⟨hret, hphy⟩ := acquire_error Iff.rfl hlow h mode
  have hsame := sameHosts_acquire r.acquire mode (removeHostControllers g)
  rw [leaveHost]
  simp only
  rw [if_pos hret]
  exact ⟨hret, hsame.role.trans hremoved.role, hsame.ehciPdev.trans hremoved.ehciPdev, hphy⟩

/-! ### One change of the role -/

theorem roleSwitchSet_same (r : Results) (g : Glue) : roleSwitchSet r g g.role = (g, 0) :=
  if_pos rfl

/-- A change to another role than that of a host is a change of the device side. -/
theorem roleSwitchSet_leaveHost (r : Results) {g : Glue} {role : UsbRole} (hne : role ≠ g.role)
    (hrole : role ≠ .host) :
  ∃ mode, roleSwitchSet r g role = leaveHost r role mode g
  := by
  cases role with
  | host => exact absurd rfl hrole
  | device => exact ⟨.usbDevice, if_neg hne⟩
  | none => exact ⟨.usbOtg, if_neg hne⟩

theorem recovers_leaveHost (r : Results) (g : Glue) {role : UsbRole} (hrole : role ≠ .host) :
  Recovers r g role ↔ Acquires r.acquire (g.rstUsb = true ∧ g.usbResetDeasserted = false)
    (g.phyInitialized = false)
  := by
  cases role with
  | host => exact absurd rfl hrole
  | device => exact Iff.rfl
  | none => exact Iff.rfl

theorem roleSwitchSet_setHost (r : Results) {g : Glue} (h : g.role ≠ .host) :
  roleSwitchSet r g .host = setHost r g
  := by
  rw [roleSwitchSet, if_neg (Ne.symm h)]

/-- A change of the role that acquires the device side again leaves the port to one side, and the
state before if it fails. -/
theorem roleSwitchSet_recovers {r : Results} {g : Glue} {role : UsbRole} (hg : Settled g)
    (h : role = g.role ∨ Recovers r g role) :
  Settled (roleSwitchSet r g role).1 ∧
    ((roleSwitchSet r g role).2 ≠ 0 → Unchanged g (roleSwitchSet r g role).1)
  := by
  by_cases hsame : role = g.role
  · rw [hsame, roleSwitchSet_same]
    exact ⟨hg, fun hne => absurd rfl hne⟩
  · have hrec := h.resolve_left hsame
    by_cases hrole : role = .host
    · subst hrole
      have hdevice : AsDevice g := hg.resolve_right fun hhost => hsame hhost.role.symm
      rw [roleSwitchSet_setHost r (Ne.symm hsame)]
      by_cases hok : Releases r.release g ∧ Adds r.add
      · obtain ⟨hret, hhost⟩ := setHost_ok hdevice hok.1 hok.2
        exact ⟨.inr hhost, fun hne => absurd hret hne⟩
      · obtain ⟨-, hback, -⟩ := setHost_error hdevice hok
        obtain ⟨hdevice', hhosts⟩ := hback (hrec.resolve_left hok)
        exact ⟨.inl hdevice', fun _ => hdevice.unchanged hdevice' hhosts⟩
    · obtain ⟨mode, hset⟩ := roleSwitchSet_leaveHost r hsame hrole
      obtain ⟨hret, hdevice⟩ := leaveHost_ok hg hrole ((recovers_leaveHost r g hrole).mp hrec) mode
      rw [hset]
      exact ⟨.inl hdevice, fun hne => absurd hret hne⟩

/-- A change of the role that does not acquire the device side again fails, and leaves a state in
which the PHY is released and the port belongs to neither side. -/
theorem not_setFine {r : Results} {g : Glue} {role : UsbRole} (hg : Settled g)
    (h : ¬ (role = g.role ∨ Recovers r g role)) :
  ¬ SetFine r g role
  := by
  obtain ⟨hsame, hrec⟩ := not_or.mp h
  by_cases hrole : role = .host
  · subst hrole
    have hdevice : AsDevice g := hg.resolve_right fun hhost => hsame hhost.role.symm
    obtain ⟨hok, hacq⟩ := not_or.mp hrec
    obtain ⟨hret, -, hlost⟩ := setHost_error hdevice hok
    rw [SetFine, roleSwitchSet_setHost r (Ne.symm hsame)]
    rintro ⟨-, hunchanged⟩
    have hphy := (hunchanged hret).phyInitialized
    rw [hlost hacq, hdevice.phyInitialized] at hphy
    cases hphy
  · obtain ⟨mode, hset⟩ := roleSwitchSet_leaveHost r hsame hrole
    obtain ⟨hret, hrole', hehci, hphy⟩ :=
      @leaveHost_error r g role hg (fun hacq => hrec ((recovers_leaveHost r g hrole).mpr hacq)) mode
    rw [SetFine, hset]
    rintro ⟨hconsistent, hunchanged⟩
    rcases hg with hdevice | hhost
    · have hsamePhy := (hunchanged hret).phyInitialized
      rw [hphy, hdevice.phyInitialized] at hsamePhy
      cases hsamePhy
    · have hboth := hconsistent.host_iff.mp (hrole'.trans hhost.role)
      exact nomatch hehci.symm.trans hboth.1

/-! ### Runs -/

theorem settled_step {g : Glue} {e : Event} (hg : Settled g) (h : Allowed g e) :
  Settled (step g e)
  := by
  cases e with
  | work phyOn =>
      rw [step]
      split
      · rcases hg with hg | hg
        · exact .inl ⟨hg.role, hg.ehciPdev, hg.ohciPdev, hg.ehciPopulated, hg.ohciPopulated,
            hg.phyInitialized, hg.usbResetDeasserted⟩
        · exact .inr ⟨hg.role, hg.ehciPdev, hg.ohciPdev, hg.ehciPopulated, hg.ohciPopulated,
            hg.phyInitialized, hg.usbResetDeasserted⟩
      · exact hg
  | set r role => exact (roleSwitchSet_recovers hg h).1

theorem asDevice_initial (rstUsb phyOn vbusOn : Bool) (phyMode : PhyMode) :
  AsDevice (initial rstUsb phyOn vbusOn phyMode)
  := ⟨nofun, rfl, rfl, rfl, rfl, rfl, rfl⟩

/-- After a successful registration the port belongs to the device side. -/
theorem settled_register {r : Results} {rstUsb phyOn vbusOn : Bool} {phyMode : PhyMode}
    (h : (roleSwitchRegister r rstUsb phyOn vbusOn phyMode).2 = 0) :
  Settled (roleSwitchRegister r rstUsb phyOn vbusOn phyMode).1
  := by
  have hinitial := asDevice_initial rstUsb phyOn vbusOn phyMode
  obtain ⟨mode, hset⟩ := @roleSwitchSet_leaveHost r (initial rstUsb phyOn vbusOn phyMode) .device
    nofun nofun
  rw [roleSwitchRegister, hset] at h ⊢
  by_cases hacq : Acquires r.acquire ((initial rstUsb phyOn vbusOn phyMode).rstUsb = true ∧
      (initial rstUsb phyOn vbusOn phyMode).usbResetDeasserted = false)
      ((initial rstUsb phyOn vbusOn phyMode).phyInitialized = false)
  · exact .inl (@leaveHost_ok r _ .device (.inl hinitial) nofun hacq mode).2
  · exact absurd h (leaveHost_error (.inl hinitial) hacq mode).1

/-- In every run from a registration in which every change of the role acquires the device side
again if it has to, the role, the host controllers and the PHY belong together. In every state of
such a run a change of the role keeps this, and the state before if it fails, exactly when it
acquires the device side again. -/
theorem roleSwitch_fine {r : Results} {rstUsb phyOn vbusOn : Bool} {phyMode : PhyMode}
    (h : (roleSwitchRegister r rstUsb phyOn vbusOn phyMode).2 = 0) {g : Glue}
    (hrun : Runs.Reaches step Allowed (roleSwitchRegister r rstUsb phyOn vbusOn phyMode).1 g) :
  Consistent g ∧ ∀ r role, SetFine r g role ↔ role = g.role ∨ Recovers r g role
  := by
  have hg : Settled g := hrun.invariant (fun _ _ => settled_step) (settled_register h)
  refine ⟨hg.consistent, fun r role => ?_⟩
  constructor
  · intro hfine
    by_contra hno
    exact not_setFine hg hno hfine
  · intro hallowed
    obtain ⟨hsettled, hunchanged⟩ := roleSwitchSet_recovers hg hallowed
    exact ⟨hsettled.consistent, hunchanged⟩

/-- All calls succeed. -/
def allFine : Results where
  release := ⟨0, 0, 0, 0, 0, 0, 0⟩
  add := ⟨⟨true, true, true⟩, ⟨true, true, true⟩, 0, true, 0⟩
  acquire := ⟨0, 0, 0, 0, 0⟩

/-- The mode of the PHY cannot be set. -/
def noMode : Results := { allFine with acquire := ⟨0, 0, -110, 0, 0⟩ }

/-- A run to the role of a host. -/
theorem roleSwitch_fine_host :
  Consistent (step (roleSwitchRegister allFine true true true .usbOtg).1 (.set allFine .host)) ∧
    ∀ r role, SetFine r
        (step (roleSwitchRegister allFine true true true .usbOtg).1 (.set allFine .host)) role ↔
      role = (step (roleSwitchRegister allFine true true true .usbOtg).1
        (.set allFine .host)).role ∨
      Recovers r (step (roleSwitchRegister allFine true true true .usbOtg).1
        (.set allFine .host)) role
  := by
  apply @roleSwitch_fine allFine true true true .usbOtg rfl
  apply (Runs.Reaches.refl _).tail
  exact .inr (.inl ⟨⟨rfl, fun _ => rfl, rfl, fun _ => rfl⟩,
    ⟨rfl, rfl, rfl⟩, ⟨rfl, rfl, rfl⟩, rfl, rfl, rfl⟩)

/-- When the host controllers are removed and the PHY cannot be acquired again, the role stays that
of a host. -/
theorem not_roleSwitch_consistent :
  ¬ ∀ (r : Results) (rstUsb phyOn vbusOn : Bool) (phyMode : PhyMode),
    (roleSwitchRegister r rstUsb phyOn vbusOn phyMode).2 = 0 → ∀ events : List Event,
      Consistent (events.foldl step (roleSwitchRegister r rstUsb phyOn vbusOn phyMode).1)
  := by
  intro h
  have hstuck := h allFine true true true .usbOtg rfl [.set allFine .host, .set noMode .device]
  have hboth := hstuck.host_iff.mp rfl
  exact nomatch hboth.1

end Musb

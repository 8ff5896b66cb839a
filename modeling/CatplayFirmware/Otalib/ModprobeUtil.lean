import CatplayFirmware.Otalib.ModulesInfo
import CatplayFirmware.Support.Except
import CatplayFirmware.Support.HString

/-!
# Loading a module and its dependencies

`forEachDependencyModule` calls a function on a module and everything it depends on, in load
order, after `validateDependencyPaths` has walked the dependencies to see that each has a
path. The walk, the order and the calls each can fail. A run records the calls that were
made, and whether an error came from the code itself or from the function called.

The calls are always in dependency order, each module at most once. An error of the code
itself after a call was made comes from one source only: a module other than the first that
is compressed, or whose path is too long to join.
-/

namespace ModprobeUtil

open ModulesInfo

inductive ModprobeError where
  | pushStrFailed
  | moduleNotFound (name : Text)
  | moduleCompressed (name : Text)
  | dependencyNotFound (dependency forModule : Text)
  | moduleLoadFailed (module error : Text)
  deriving DecidableEq

/-! ### Names and paths -/

def normalizeModuleName (module : Text) : Except ModprobeError (HString 128) :=
  let rawName := (module.splitOn '/').getLastD module
  let name := (Text.splitStr ".ko".toList rawName).headD []
  if name = [] then .error (.moduleNotFound [])
  else
    match HString.new.pushStr name with
    | none => .error .pushStrFailed
    | some out => .ok out

def joinPath (cap : ℕ) (base name : Text) : Except ModprobeError (HString cap) :=
  let joined := do
    let out ← HString.new.pushStr base
    let out ← if base.endsWith '/' then some out else out.pushStr ['/']
    out.pushStr name
  match joined with
  | none => .error .pushStrFailed
  | some out => .ok out

/-- What the operating system tells: the kernel release (an error text when `uname` fails,
nothing when the release is not UTF-8), which paths exist, and the module tables under a
modules directory. -/
structure System where
  uname : Except Text (Option Text)
  access : Text → Bool
  loadModulesInfo : Text → Except ModprobeError ModulesInfo

/-- `path_exists`: the path and its NUL have to fit 256 bytes. -/
def pathExists (sys : System) (path : Text) : Except ModprobeError Bool :=
  if path.byteLen + 1 ≤ 256 then .ok (sys.access path) else .error .pushStrFailed

/-- The path of the modules of a release under a directory. -/
def modulesDir (dir release : Text) : Except ModprobeError (HString 256) :=
  match HString.new.pushStr dir >>= fun out => out.pushStr release with
  | none => .error .pushStrFailed
  | some out => .ok out

def modulesRootDir (sys : System) : Except ModprobeError (HString 256) := do
  let release ←
    match sys.uname with
    | .error error => .error (.moduleLoadFailed "uname".toList error)
    | .ok none => .error .pushStrFailed
    | .ok (some release) => .ok release
  let libModules ← modulesDir "/lib/modules/".toList release
  if ← pathExists sys libModules.text then
    return libModules
  let usrLibModules ← modulesDir "/usr/lib/modules/".toList release
  if ← pathExists sys usrLibModules.text then
    return usrLibModules
  throw (.moduleNotFound release)

/-! ### The walk over the dependencies -/

/-- The stack and the list of what was seen, each of at most `walkCap` names. -/
structure WalkState where
  stack : List (HString 128)
  visited : List (HString 128)

/-- The number of names the stack and the list of what was seen can hold. -/
def walkCap : ℕ := 512

/-- The `for` loop over the dependencies of `owner`. -/
def pushDeps (info : ModulesInfo) (owner : Text) :
    List Text → List (HString 128) → Except ModprobeError (List (HString 128))
  | [], stack => .ok stack
  | dep :: deps, stack =>
    if info.isBuiltin dep then pushDeps info owner deps stack
    else
      match info.resolvePath dep with
      | none => .error (.dependencyNotFound dep owner)
      | some _ =>
        match HString.new.pushStr dep with
        | none => .error .pushStrFailed
        | some depHs =>
          if walkCap ≤ stack.length then .error .pushStrFailed
          else pushDeps info owner deps (depHs :: stack)

/-- One round of the `while let` loop of `validate_dependency_paths`. -/
def validateRound (info : ModulesInfo) (st : WalkState) :
    WalkState ⊕ Except ModprobeError Unit :=
  match st.stack with
  | [] => .inr (.ok ())
  | owner :: below =>
    if owner ∈ st.visited then .inl { st with stack := below }
    else if walkCap ≤ st.visited.length then .inr (.error .pushStrFailed)
    else
      let visited := st.visited ++ [owner]
      if info.isBuiltin owner.text then .inl ⟨below, visited⟩
      else
        match info.resolvePath owner.text with
        | none => .inr (.error (.moduleNotFound owner.text))
        | some _ =>
          match info.depsOf owner.text with
          | none => .inl ⟨below, visited⟩
          | some deps =>
            match pushDeps info owner.text deps below with
            | .error e => .inr (.error e)
            | .ok stack => .inl ⟨stack, visited⟩

/-- A number of rounds that is enough for the walk. -/
def walkRounds : ℕ := walkCap * (walkCap + 1) + walkCap + 1

def validateDependencyPaths (info : ModulesInfo) (root : Text) :
    Option (Except ModprobeError Unit) :=
  match HString.new.pushStr root with
  | none => some (.error .pushStrFailed)
  | some rootHs => Loop.iterate (validateRound info) walkRounds ⟨[rootHs], []⟩

/-! ### The calls -/

/-- Why a run stops early: an error of the code itself, an error of the function it calls, or
a loop that does not end. -/
inductive Stop where
  | own (e : ModprobeError)
  | callback (e : ModprobeError)
  | diverges
  deriving DecidableEq

/-- The function called on each module: what it answers may depend on the calls before. -/
abbrev Callback := List (Text × Text) → Text → Text → Except ModprobeError Unit

/-- What a run did: the calls it made, with the name and the path of each, and its result. -/
structure Outcome where
  calls : List (Text × Text)
  result : Except Stop Unit

/-- What the load loop does before it calls the function on a module: the path to load. -/
def modulePath (info : ModulesInfo) (modulesRoot depName : Text) :
    Except ModprobeError (HString 512) :=
  match info.resolvePath depName with
  | none => .error (.moduleNotFound depName)
  | some relPath =>
    if relPath.contains ".ko.".toList then .error (.moduleCompressed depName)
    else joinPath 512 modulesRoot relPath

/-- The load loop over the modules of the order, after the calls made so far. -/
def loadEach (info : ModulesInfo) (modulesRoot : Text) (f : Callback) :
    List Text → List (Text × Text) → Outcome
  | [], calls => ⟨calls, .ok ()⟩
  | depName :: order, calls =>
    if info.isBuiltin depName then loadEach info modulesRoot f order calls
    else
      match modulePath info modulesRoot depName with
      | .error e => ⟨calls, .error (.own e)⟩
      | .ok absPath =>
        match f calls depName absPath.text with
        | .error e => ⟨calls ++ [(depName, absPath.text)], .error (.callback e)⟩
        | .ok () => loadEach info modulesRoot f order (calls ++ [(depName, absPath.text)])

/-- An error of the code itself. -/
def own {α : Type} : Except ModprobeError α → Except Stop α
  | .error e => .error (.own e)
  | .ok a => .ok a

/-- The order in which the module and what it depends on are to be loaded, after the checks.
A module that is built in has nothing to load. -/
def loadOrder (info : ModulesInfo) (moduleName : Text) : Except Stop (List Text) :=
  if info.isBuiltin moduleName then .ok []
  else if (info.resolvePath moduleName).isNone then .error (.own (.moduleNotFound moduleName))
  else
    match validateDependencyPaths info moduleName with
    | none => .error .diverges
    | some (.error e) => .error (.own e)
    | some (.ok ()) =>
      match info.resolveLoadOrder moduleName with
      | none => .error .diverges
      | some (.error _) =>
        .error (.own (.moduleLoadFailed moduleName "dependency cycle detected".toList))
      | some (.ok order) => .ok order

/-- Everything `for_each_dependency_module` does before the load loop: the tables, the
modules directory and the order to load in. -/
def prepare (sys : System) (module : Text) :
    Except Stop (ModulesInfo × Text × List Text) := do
  let moduleName ← own (normalizeModuleName module)
  let modulesRoot ← own (modulesRootDir sys)
  let info ← own (sys.loadModulesInfo modulesRoot.text)
  let order ← loadOrder info moduleName.text
  return (info, modulesRoot.text, order)

def forEachDependencyModule (sys : System) (module : Text) (f : Callback) : Outcome :=
  match prepare sys module with
  | .error stop => ⟨[], .error stop⟩
  | .ok (info, modulesRoot, order) => loadEach info modulesRoot f order []

/-! ### What the walk makes sure of -/

variable {info : ModulesInfo} {root : Text}

/-- What a finished loop over dependencies has done: each that is not built in has a path and
is on the stack, on top of what was there, and the stack has not outgrown its room. -/
theorem pushDeps_ok {owner : Text} {deps : List Text} {stack stack' : List (HString 128)}
    (h : pushDeps info owner deps stack = .ok stack') :
  (∀ dep ∈ deps, info.isBuiltin dep = false →
      (info.resolvePath dep).isSome ∧ ∃ hs ∈ stack', hs.text = dep)
    ∧ stack ⊆ stack' ∧ (stack.length ≤ walkCap → stack'.length ≤ walkCap)
  := by
  induction deps generalizing stack with
  | nil =>
      cases h
      simp
  | cons dep deps ih =>
      rw [pushDeps] at h
      split at h
      · next hb =>
          obtain ⟨hdeps, hsub, hlen⟩ := ih h
          refine ⟨?_, hsub, hlen⟩
          intro d hd hdb
          rcases List.mem_cons.mp hd with rfl | hd
          · rw [hb] at hdb
            cases hdb
          · apply hdeps d hd hdb
      · split at h
        · cases h
        · next path hpath =>
            split at h
            · cases h
            · next depHs hpush =>
                split at h
                · cases h
                · next hroom =>
                    obtain ⟨hdeps, hsub, hlen⟩ := ih h
                    refine ⟨?_, ?_, ?_⟩
                    · intro d hd hdb
                      rcases List.mem_cons.mp hd with rfl | hd
                      · refine ⟨by simp [hpath], depHs, hsub List.mem_cons_self, ?_⟩
                        rw [HString.pushStr_text hpush]
                        rfl
                      · apply hdeps d hd hdb
                    · apply List.Subset.trans (List.subset_cons_self _ _) hsub
                    · intro _
                      apply hlen
                      simp only [List.length_cons]
                      omega

/-- The invariant of the walk from `root`: whatever was seen and is not built in has a path,
and what it needs was seen or is still on the stack. -/
structure WalkInv (info : ModulesInfo) (root : Text) (st : WalkState) : Prop where
  root_mem : ∃ hs ∈ st.visited ++ st.stack, hs.text = root
  path : ∀ hs ∈ st.visited, info.isBuiltin hs.text = false →
    (info.resolvePath hs.text).isSome
  closed : ∀ hs ∈ st.visited, ∀ y, info.Needs hs.text y →
    ∃ hs' ∈ st.visited ++ st.stack, hs'.text = y
  stack_le : st.stack.length ≤ walkCap
  visited_le : st.visited.length ≤ walkCap

/-- What is left to do in the walk. -/
def WalkState.left (st : WalkState) : ℕ :=
  (walkCap - st.visited.length) * (walkCap + 1) + st.stack.length

/-- Seeing one more module leaves less to do, whatever is pushed in its place. -/
theorem left_lt {st : WalkState} {stack : List (HString 128)} {owner : HString 128}
    (hroom : st.visited.length < walkCap) (hstack : stack.length ≤ walkCap) :
  WalkState.left ⟨stack, st.visited ++ [owner]⟩ < st.left
  := by
  have hlen : walkCap - (st.visited ++ [owner]).length + 1 = walkCap - st.visited.length := by
    simp only [List.length_append, List.length_singleton]
    omega
  simp only [WalkState.left, ← hlen, Nat.add_mul, Nat.one_mul]
  omega

/-- The walk goes on from the state in which `owner` was seen, when it is built in or has a
path, and everything it needs is on the stack. -/
theorem WalkInv.visit {st : WalkState} (h : WalkInv info root st) {owner : HString 128}
    {below stack : List (HString 128)} (hs : st.stack = owner :: below)
    (hroom : st.visited.length < walkCap) (hsub : below ⊆ stack)
    (hlen : stack.length ≤ walkCap)
    (hpath : info.isBuiltin owner.text = false → (info.resolvePath owner.text).isSome)
    (hneeds : ∀ y, info.Needs owner.text y → ∃ hs ∈ stack, hs.text = y) :
  WalkInv info root ⟨stack, st.visited ++ [owner]⟩
  := by
  have hmem : ∀ y, (∃ hs ∈ st.visited ++ st.stack, hs.text = y) →
      ∃ hs ∈ (st.visited ++ [owner]) ++ stack, hs.text = y := by
    rintro y ⟨hs', hmem, rfl⟩
    refine ⟨hs', ?_, rfl⟩
    rw [hs] at hmem
    rcases List.mem_append.mp hmem with hv | hv
    · simp [hv]
    · rcases List.mem_cons.mp hv with rfl | hv
      · simp
      · simp [hsub hv]
  constructor
  case root_mem => apply hmem root h.root_mem
  case path =>
    intro v hv
    rcases List.mem_append.mp hv with hv | hv
    · apply h.path v hv
    · obtain rfl := List.mem_singleton.mp hv
      apply hpath
  case closed =>
    intro v hv y hy
    rcases List.mem_append.mp hv with hv | hv
    · apply hmem y (h.closed v hv y hy)
    · obtain rfl := List.mem_singleton.mp hv
      obtain ⟨hs', hmem', rfl⟩ := hneeds y hy
      exact ⟨hs', List.mem_append_right _ hmem', rfl⟩
  case stack_le => apply hlen
  case visited_le =>
    simp only [List.length_append, List.length_singleton]
    omega

/-- Every round of the walk keeps its invariant and leaves less to do. -/
theorem WalkInv.round {st st' : WalkState} (h : WalkInv info root st)
    (hr : validateRound info st = .inl st') :
  WalkInv info root st' ∧ st'.left < st.left
  := by
  cases hs : st.stack with
  | nil => simp [validateRound, hs] at hr
  | cons owner below =>
      have hstack := h.stack_le
      rw [hs, List.length_cons] at hstack
      simp only [validateRound, hs] at hr
      split at hr
      · next hseen =>
          cases hr
          constructor
          · constructor
            case root_mem =>
              obtain ⟨hs', hmem, rfl⟩ := h.root_mem
              rw [hs] at hmem
              refine ⟨hs', ?_, rfl⟩
              grind
            case path => apply h.path
            case closed =>
              intro v hv y hy
              obtain ⟨hs', hmem, rfl⟩ := h.closed v hv y hy
              rw [hs] at hmem
              refine ⟨hs', ?_, rfl⟩
              grind
            case stack_le =>
              simp only
              omega
            case visited_le => apply h.visited_le
          · simp [WalkState.left, hs]
      · split at hr
        · cases hr
        · next hroom =>
            have hlt : st.visited.length < walkCap := by omega
            split at hr
            · next hb =>
                cases hr
                constructor
                · apply h.visit hs hlt (List.Subset.refl _) (by omega)
                  · simp [hb]
                  · rintro y ⟨hb', -⟩
                    rw [hb] at hb'
                    cases hb'
                · apply left_lt hlt (by omega)
            · split at hr
              · cases hr
              · next path hpath =>
                  split at hr
                  · next hdeps =>
                      cases hr
                      constructor
                      · apply h.visit hs hlt (List.Subset.refl _) (by omega)
                        · simp [hpath]
                        · rintro y ⟨-, -, hy⟩
                          simp [needsOf, hdeps] at hy
                      · apply left_lt hlt (by omega)
                  · next deps hdeps =>
                      split at hr
                      · cases hr
                      · next stack hpush =>
                          cases hr
                          obtain ⟨hall, hsub, hlen⟩ := pushDeps_ok hpush
                          constructor
                          · apply h.visit hs hlt hsub (hlen (by omega))
                            · simp [hpath]
                            · rintro y ⟨-, hyb, hy⟩
                              apply (hall y _ hyb).2
                              simpa [needsOf, hdeps] using hy
                          · apply left_lt hlt (hlen (by omega))

/-- The walk leaves without an error only when its stack is empty. -/
theorem validateRound_ok {st : WalkState} (hr : validateRound info st = .inr (.ok ())) :
  st.stack = []
  := by
  cases hs : st.stack with
  | nil => rfl
  | cons owner below =>
      simp only [validateRound, hs] at hr
      split at hr
      · cases hr
      · split at hr
        · cases hr
        · split at hr
          · cases hr
          · split at hr
            · cases hr
            · split at hr
              · cases hr
              · split at hr
                · cases hr
                · cases hr

theorem WalkInv.initial {rootHs : HString 128} (h : rootHs.text = root) :
  WalkInv info root ⟨[rootHs], []⟩
  := by
  constructor
  case root_mem => exact ⟨rootHs, by simp, h⟩
  case path => simp
  case closed => simp
  case stack_le => simp [walkCap]
  case visited_le => simp

/-- When the walk is done, everything reachable was seen. -/
theorem WalkInv.mem_visited {st : WalkState} (h : WalkInv info root st) (hs : st.stack = [])
    {x : Text} (hx : info.Reachable root x) :
  ∃ v ∈ st.visited, v.text = x
  := by
  obtain ⟨-, hx⟩ := hx
  induction hx with
  | refl => simpa [hs] using h.root_mem
  | tail _ hyz ih =>
      obtain ⟨v, hv, rfl⟩ := ih
      simpa [hs] using h.closed v hv _ hyz

/-- When the walk finds nothing wrong, everything reachable has a path. -/
theorem validateDependencyPaths_ok (h : validateDependencyPaths info root = some (.ok ()))
    {x : Text} (hx : info.Reachable root x) :
  (info.resolvePath x).isSome
  := by
  rw [validateDependencyPaths] at h
  split at h
  · cases h
  · next rootHs hpush =>
      have hroot : rootHs.text = root := HString.pushStr_text hpush
      refine Loop.Returns.post (WalkInv info root) (fun r => r = .ok () → _)
        (fun st st' hst hr => (hst.round hr).1) ?_ (WalkInv.initial hroot) ⟨_, h⟩ rfl
      rintro st _ hst hr rfl
      have hs := validateRound_ok hr
      obtain ⟨v, hv, rfl⟩ := hst.mem_visited hs hx
      apply hst.path v hv hx.not_builtin

/-- The walk ends, within the rounds it is given. -/
theorem validateDependencyPaths_isSome (info : ModulesInfo) (root : Text) :
  ∃ r, validateDependencyPaths info root = some r
  := by
  rw [validateDependencyPaths]
  split
  · exact ⟨_, rfl⟩
  · next rootHs hpush =>
      apply Loop.iterate_of_measure (WalkInv info root) WalkState.left
        (fun st st' hst hr => hst.round hr) (WalkInv.initial (HString.pushStr_text hpush))
      simp only [WalkState.left, walkRounds, List.length_nil, List.length_singleton, walkCap]
      omega

/-! ### What the calls do -/

/-- The load loop can call the function on the module. -/
def Usable (info : ModulesInfo) (modulesRoot x : Text) : Prop :=
  ∃ absPath, modulePath info modulesRoot x = .ok absPath

variable {modulesRoot : Text} {f : Callback} {order : List Text} {calls : List (Text × Text)}

/-- The calls of the load loop are made on the modules of a front of the order. -/
theorem loadEach_calls (hb : ∀ x ∈ order, info.isBuiltin x = false) :
  ∃ front, front <+: order
    ∧ (loadEach info modulesRoot f order calls).calls.map Prod.fst = calls.map Prod.fst ++ front
  := by
  induction order generalizing calls with
  | nil => exact ⟨[], List.prefix_refl _, by simp [loadEach]⟩
  | cons x order ih =>
      have hx : info.isBuiltin x = false := hb x List.mem_cons_self
      rw [loadEach, hx, if_neg Bool.false_ne_true]
      split
      · exact ⟨[], List.nil_prefix, by simp⟩
      · next absPath hpath =>
          split
          · exact ⟨[x], ⟨order, rfl⟩, by simp⟩
          · obtain ⟨front, hfront, hcalls⟩ : ∃ front, front <+: order
                ∧ (loadEach info modulesRoot f order (calls ++ [(x, absPath.text)])).calls.map
                    Prod.fst = (calls ++ [(x, absPath.text)]).map Prod.fst ++ front :=
              ih fun y hy => hb y (List.mem_cons_of_mem _ hy)
            refine ⟨x :: front, ?_, ?_⟩
            · apply List.cons_prefix_cons.mpr ⟨rfl, hfront⟩
            · rw [hcalls]
              simp

/-- An error of the code itself in the load loop comes from a module that is not usable; the
calls before it were made on the modules before it, all of them usable. -/
theorem loadEach_own (hb : ∀ x ∈ order, info.isBuiltin x = false) {e : ModprobeError}
    (h : (loadEach info modulesRoot f order calls).result = .error (.own e)) :
  ∃ front x back, order = front ++ x :: back ∧ ¬ Usable info modulesRoot x
    ∧ (∀ y ∈ front, Usable info modulesRoot y)
    ∧ (loadEach info modulesRoot f order calls).calls.length = calls.length + front.length
  := by
  induction order generalizing calls with
  | nil => cases h
  | cons x order ih =>
      have hx : info.isBuiltin x = false := hb x List.mem_cons_self
      rw [loadEach, hx, if_neg Bool.false_ne_true] at h ⊢
      split at h
      · next e' hpath =>
          refine ⟨[], x, order, rfl, ?_, by simp, by simp⟩
          rintro ⟨absPath, hok⟩
          rw [hpath] at hok
          cases hok
      · next absPath hpath =>
          split at h
          · cases h
          · next hf =>
              obtain ⟨front, y, back, rfl, hy, hfront, hcalls⟩ :=
                ih (fun y hy => hb y (List.mem_cons_of_mem _ hy)) h
              refine ⟨x :: front, y, back, rfl, hy, ?_, ?_⟩
              · intro z hz
                rcases List.mem_cons.mp hz with rfl | hz
                · exact ⟨absPath, hpath⟩
                · apply hfront z hz
              · simp only [hcalls, List.length_append, List.length_cons, List.length_nil]
                omega

/-- The load loop ends without an error of the code itself, or of the function it calls, only
when every module is usable. -/
theorem loadEach_ok (hb : ∀ x ∈ order, info.isBuiltin x = false)
    (h : (loadEach info modulesRoot f order calls).result = .ok ()) :
  ∀ x ∈ order, Usable info modulesRoot x
  := by
  induction order generalizing calls with
  | nil => simp
  | cons x order ih =>
      have hx : info.isBuiltin x = false := hb x List.mem_cons_self
      rw [loadEach, hx, if_neg Bool.false_ne_true] at h
      split at h
      · cases h
      · next absPath hpath =>
          split at h
          · cases h
          · intro y hy
            rcases List.mem_cons.mp hy with rfl | hy
            · exact ⟨absPath, hpath⟩
            · apply ih (fun y hy => hb y (List.mem_cons_of_mem _ hy)) h y hy

/-- The load loop ends. -/
theorem loadEach_ends :
  (loadEach info modulesRoot f order calls).result ≠ .error .diverges
  := by
  induction order generalizing calls with
  | nil => simp [loadEach]
  | cons x order ih =>
      rw [loadEach]
      split
      · apply ih
      · split
        · simp
        · split
          · simp
          · apply ih

/-- A load loop whose function accepts everything ends in an error of the code itself, if it
ends in an error. -/
theorem loadEach_accepting {stop : Stop}
    (h : (loadEach info modulesRoot (fun _ _ _ => .ok ()) order calls).result = .error stop) :
  ∃ e, stop = .own e
  := by
  induction order generalizing calls with
  | nil => cases h
  | cons x order ih =>
      rw [loadEach] at h
      split at h
      · apply ih h
      · split at h
        · next e _ =>
            cases h
            exact ⟨e, rfl⟩
        · apply ih h

/-! ### What is done before the calls -/

variable {sys : System} {module : Text}

/-- The names and tables a run works with. -/
structure Loaded (sys : System) (module : Text) (name : HString 128)
    (modulesRoot : HString 256) (info : ModulesInfo) : Prop where
  name_eq : normalizeModuleName module = .ok name
  modulesRoot_eq : modulesRootDir sys = .ok modulesRoot
  info_eq : sys.loadModulesInfo modulesRoot.text = .ok info

/-- There is one set of names and tables for a run. -/
theorem Loaded.unique {name name' : HString 128} {modulesRoot modulesRoot' : HString 256}
    {info info' : ModulesInfo} (h : Loaded sys module name modulesRoot info)
    (h' : Loaded sys module name' modulesRoot' info') :
  name = name' ∧ modulesRoot = modulesRoot' ∧ info = info'
  := by
  obtain ⟨hname, hroot, hinfo⟩ := h
  obtain ⟨hname', hroot', hinfo'⟩ := h'
  rw [hname] at hname'
  rw [hroot] at hroot'
  cases hname'
  cases hroot'
  rw [hinfo] at hinfo'
  cases hinfo'
  exact ⟨rfl, rfl, rfl⟩

theorem own_eq_ok {α : Type} {x : Except ModprobeError α} {a : α} :
  own x = .ok a ↔ x = .ok a
  := by
  cases x with
  | error e => simp [own]
  | ok b => simp [own]

/-- What is found to be loaded: nothing for a module that is built in, else a load order of a
module whose dependencies all have paths. -/
theorem loadOrder_ok {name : Text} (h : loadOrder info name = .ok order) :
  order = [] ∨ info.isBuiltin name = false
    ∧ validateDependencyPaths info name = some (.ok ()) ∧ info.IsLoadOrder name order
  := by
  rw [loadOrder] at h
  split at h
  · cases h
    left
    rfl
  · next hb =>
      split at h
      · cases h
      · split at h
        · cases h
        · cases h
        · next hvalid =>
            split at h
            · cases h
            · cases h
            · next order' hr =>
                cases h
                right
                rcases resolveLoadOrder_spec hr with ⟨⟨⟩, -⟩ | ⟨_, ⟨⟩, horder⟩
                exact ⟨by simpa using hb, hvalid, horder⟩

/-- A load order is found when the walk finds nothing wrong and no cycle is reachable. -/
theorem exists_loadOrder {name : Text} (hb : info.isBuiltin name = false)
    (hvalid : validateDependencyPaths info name = some (.ok ()))
    (hcycle : ¬ info.CycleReachable name) :
  ∃ order, loadOrder info name = .ok order ∧ info.IsLoadOrder name order
  := by
  have hpath : (info.resolvePath name).isNone = false := by
    have := validateDependencyPaths_ok hvalid ⟨hb, .refl⟩
    simpa using this
  obtain ⟨r, hr⟩ := resolveLoadOrder_isSome info name
  rcases resolveLoadOrder_spec hr with ⟨rfl, hc⟩ | ⟨order, rfl, horder⟩
  · contradiction
  · use order
    refine ⟨?_, horder⟩
    rw [loadOrder, hb, if_neg Bool.false_ne_true, hpath, if_neg Bool.false_ne_true, hvalid, hr]

/-- A run gets to the load loop with its names and tables, and what is to be loaded. -/
theorem prepare_ok_iff {root : Text} :
  prepare sys module = .ok (info, root, order)
    ↔ ∃ name modulesRoot, Loaded sys module name modulesRoot info
        ∧ modulesRoot.text = root ∧ loadOrder info name.text = .ok order
  := by
  simp only [prepare, Except.bind_eq_ok_iff, own_eq_ok]
  constructor
  · rintro ⟨name, hname, modulesRoot, hroot, info', hinfo, order', horder, ⟨⟩⟩
    exact ⟨name, modulesRoot, ⟨hname, hroot, hinfo⟩, rfl, horder⟩
  · rintro ⟨name, modulesRoot, ⟨hname, hroot, hinfo⟩, rfl, horder⟩
    exact ⟨name, hname, modulesRoot, hroot, info, hinfo, order, horder, rfl⟩

/-- The checks before the load loop end. -/
theorem loadOrder_ends (info : ModulesInfo) (name : Text) :
  loadOrder info name ≠ .error .diverges
  := by
  rw [loadOrder]
  split
  · simp
  · split
    · simp
    · split
      · next hnone =>
          obtain ⟨r, hr⟩ := validateDependencyPaths_isSome info name
          rw [hr] at hnone
          cases hnone
      · simp
      · split
        · next hnone =>
            obtain ⟨r, hr⟩ := resolveLoadOrder_isSome info name
            rw [hr] at hnone
            cases hnone
        · simp
        · simp

theorem own_ends {α : Type} (x : Except ModprobeError α) : own x ≠ .error .diverges := by
  cases x with
  | error e => simp [own]
  | ok a => simp [own]

/-- Every run ends, whatever the tables and the function. -/
theorem forEachDependencyModule_ends (sys : System) (module : Text) (f : Callback) :
  (forEachDependencyModule sys module f).result ≠ .error .diverges
  := by
  rw [forEachDependencyModule]
  split
  · next stop hprep =>
      rintro ⟨⟩
      simp only [prepare, Except.bind_eq_error_iff] at hprep
      rcases hprep with h | ⟨_, -, h | ⟨_, -, h | ⟨_, -, h | ⟨_, -, ⟨⟩⟩⟩⟩⟩
      · apply own_ends _ h
      · apply own_ends _ h
      · apply own_ends _ h
      · apply loadOrder_ends _ _ h
  · apply loadEach_ends

/-! ### Loads all, or reports before loading anything -/

/-- The calls of the run are in dependency order, each module at most once, and none is made
when the run ends in an error of the code itself. -/
def LoadsAllOrReports (sys : System) (module : Text) (f : Callback) : Prop :=
  (∀ name modulesRoot info, Loaded sys module name modulesRoot info →
    (((forEachDependencyModule sys module f).calls.map Prod.fst).Nodup
      ∧ Dependency.Ordered info.Needs ((forEachDependencyModule sys module f).calls.map Prod.fst)))
  ∧ ∀ e, (forEachDependencyModule sys module f).result = .error (.own e) →
      (forEachDependencyModule sys module f).calls = []

/-- No module that is not usable is met after the first one: if nothing is wrong with the
dependencies of the module, then every module to load is usable, or the first is not. -/
def UnusableOnlyFirst (sys : System) (module : Text) : Prop :=
  ∀ name modulesRoot info, Loaded sys module name modulesRoot info →
    info.isBuiltin name.text = false →
    validateDependencyPaths info name.text = some (.ok ()) →
    ¬ info.CycleReachable name.text →
    (∀ x, info.Reachable name.text x → Usable info modulesRoot.text x)
      ∨ ∀ x, info.FirstLoaded name.text x → ¬ Usable info modulesRoot.text x

/-- The calls of every run are in dependency order, each module at most once. -/
theorem forEachDependencyModule_ordered (f : Callback) {name : HString 128}
    {modulesRoot : HString 256} (h : Loaded sys module name modulesRoot info) :
  ((forEachDependencyModule sys module f).calls.map Prod.fst).Nodup
    ∧ Dependency.Ordered info.Needs ((forEachDependencyModule sys module f).calls.map Prod.fst)
  := by
  rw [forEachDependencyModule]
  split
  · exact ⟨List.nodup_nil, Dependency.Ordered.nil⟩
  · next info' root order hprep =>
      obtain ⟨name', modulesRoot', h', rfl, horder⟩ := prepare_ok_iff.mp hprep
      obtain ⟨rfl, rfl, rfl⟩ := h.unique h'
      rcases loadOrder_ok horder with rfl | ⟨-, -, hload⟩
      · exact ⟨List.nodup_nil, Dependency.Ordered.nil⟩
      · obtain ⟨front, hfront, hcalls⟩ : ∃ front, front <+: order
            ∧ (loadEach info modulesRoot.text f order []).calls.map Prod.fst =
              [].map Prod.fst ++ front := loadEach_calls hload.not_builtin
        rw [hcalls, List.map_nil, List.nil_append]
        exact ⟨hload.nodup.sublist hfront.sublist, hload.ordered.of_prefix hfront⟩

/-- Modules are loaded all, or an error is reported before any is, whatever function is
called, exactly when no module after the first is compressed or has too long a path. -/
theorem loadsAllOrReports_iff (sys : System) (module : Text) :
  (∀ f, LoadsAllOrReports sys module f) ↔ UnusableOnlyFirst sys module
  := by
  constructor
  · intro h name modulesRoot info hloaded hb hvalid hcycle
    obtain ⟨order, horder, hload⟩ := exists_loadOrder hb hvalid hcycle
    have hprep : prepare sys module = .ok (info, modulesRoot.text, order) :=
      prepare_ok_iff.mpr ⟨name, modulesRoot, hloaded, rfl, horder⟩
    obtain ⟨y, rest, rfl⟩ := List.exists_cons_of_ne_nil (List.ne_nil_of_mem (hload.root_mem hb))
    have hfirst : info.FirstLoaded name.text y := hload.first y rfl
    by_contra hnot
    obtain ⟨hall, hy⟩ := not_or.mp hnot
    -- the function that accepts every module lets the loop run into the unusable one
    obtain ⟨-, hown⟩ := h fun _ _ _ => .ok ()
    simp only [forEachDependencyModule, hprep] at hown
    cases hr : (loadEach info modulesRoot.text (fun _ _ _ => .ok ()) (y :: rest) []).result with
    | ok u =>
        apply hall
        intro x hx
        apply loadEach_ok hload.not_builtin hr x ((hload.mem_iff x).mpr hx)
    | error stop =>
        obtain ⟨e, rfl⟩ := loadEach_accepting hr
        obtain ⟨front, x, back, heq, hx, hfront, hlen⟩ := loadEach_own hload.not_builtin hr
        rw [hown e hr] at hlen
        obtain rfl : front = [] := List.length_eq_zero_iff.mp (by simpa using hlen.symm)
        obtain ⟨rfl, -⟩ := List.cons.inj heq
        apply hy
        intro z hz
        rw [hz.unique hfirst]
        apply hx
  · intro h f
    constructor
    · intro name modulesRoot info hloaded
      apply forEachDependencyModule_ordered f hloaded
    · intro e
      rw [forEachDependencyModule]
      split
      · intro _
        rfl
      · next info root order hprep =>
          intro hown
          obtain ⟨name, modulesRoot, hloaded, rfl, horder⟩ := prepare_ok_iff.mp hprep
          rcases loadOrder_ok horder with rfl | ⟨hb, hvalid, hload⟩
          · cases hown
          · obtain ⟨front, x, back, rfl, hx, hfront, hlen⟩ := loadEach_own hload.not_builtin hown
            have hreach := (hload.mem_iff x).mp (by simp)
            rcases h name modulesRoot info hloaded hb hvalid hload.not_cycleReachable with
              hall | hfirst
            · apply absurd (hall x hreach) hx
            · cases front with
              | nil => apply List.eq_nil_of_length_eq_zero hlen
              | cons y front =>
                  apply absurd (hfront y List.mem_cons_self)
                  apply hfirst y (hload.first y rfl)

/-- The tables of two modules: `b` depends on `a`, and only `b` is compressed. -/
def compressedDependent : System where
  uname := .ok (some "6.1".toList)
  access _ := true
  loadModulesInfo _ := .ok {
    deps := (∅ : AList fun _ : Text => List Text).insert "b".toList ["a".toList]
    builtin := ∅
    paths := ((∅ : AList fun _ : Text => Text).insert "a".toList "a.ko".toList).insert
      "b".toList "b.ko.xz".toList }

/-- The module `a` is loaded before `b` is refused. -/
theorem not_loadsAllOrReports :
  ¬ LoadsAllOrReports compressedDependent "b".toList fun _ _ _ => .ok ()
  := by
  rintro ⟨-, hown⟩
  have hresult : (forEachDependencyModule compressedDependent "b".toList
      fun _ _ _ => .ok ()).result = .error (.own (.moduleCompressed "b".toList)) := by
    decide +kernel
  have hcalls : (forEachDependencyModule compressedDependent "b".toList
      fun _ _ _ => .ok ()).calls = [("a".toList, "/lib/modules/6.1/a.ko".toList)] := by
    decide +kernel
  rw [hown _ hresult] at hcalls
  cases hcalls

end ModprobeUtil

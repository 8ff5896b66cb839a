import CatplayFirmware.Support.Dependency
import CatplayFirmware.Support.Loop
import CatplayFirmware.Support.Text
import Mathlib.Data.List.AList
import Mathlib.Data.Finset.Basic
import Mathlib.Algebra.Order.BigOperators.Group.Finset

/-!
# Kernel modules and their load order

`ModulesInfo` is what `modules.dep` and `modules.builtin` say: the dependencies and the path
of each module, and the modules built into the kernel. `resolveLoadOrder` is the depth-first
search with an explicit stack that lists a module after everything it depends on.

The search is right for every `ModulesInfo`: it ends, it fails exactly when a cycle of
modules that are not built in can be reached, and what it lists is exactly what has to be
loaded, each module once and after its dependencies.
-/

/-- What `modules.dep` and `modules.builtin` say about the modules. -/
structure ModulesInfo where
  deps : AList fun _ : Text => List Text
  builtin : Finset Text
  paths : AList fun _ : Text => Text

namespace ModulesInfo

open Relation

def isBuiltin (info : ModulesInfo) (name : Text) : Bool := decide (name ∈ info.builtin)

def depsOf (info : ModulesInfo) (name : Text) : Option (List Text) := info.deps.lookup name

def resolvePath (info : ModulesInfo) (name : Text) : Option Text := info.paths.lookup name

/-! ### The search -/

/-- The mark of a module; one that was never marked counts as unvisited. -/
inductive Mark where
  | unvisited
  | visiting
  | done
  deriving DecidableEq

/-- The variables of the search. The top of the stack is the head of the list; with each
module on it goes the index of its next dependency. -/
structure LoadOrderState where
  marks : Text → Mark
  outOrder : List Text
  stack : List (Text × ℕ)

/-- The search before its first round. -/
def LoadOrderState.initial (root : Text) : LoadOrderState where
  marks := fun _ => .unvisited
  outOrder := []
  stack := [(root, 0)]

/-- Marks `cur` done, adds it to the order unless it is there, and pops it. -/
def LoadOrderState.finish (marks : Text → Mark) (outOrder : List Text) (cur : Text)
    (below : List (Text × ℕ)) : LoadOrderState where
  marks := Function.update marks cur .done
  outOrder := if cur ∈ outOrder then outOrder else outOrder ++ [cur]
  stack := below

/-- One round of the `while let` loop of `resolve_load_order`. -/
def resolveRound (info : ModulesInfo) (st : LoadOrderState) :
    LoadOrderState ⊕ Except String (List Text) :=
  match st.stack with
  | [] => .inr (.ok st.outOrder)
  | (cur, idx) :: below =>
    if info.isBuiltin cur then
      .inl { st with marks := Function.update st.marks cur .done, stack := below }
    else
      let marks :=
        if st.marks cur = .unvisited then Function.update st.marks cur .visiting else st.marks
      match info.depsOf cur with
      -- no entry: the module is a leaf
      | none => .inl (.finish marks st.outOrder cur below)
      | some deps =>
        match deps[idx]? with
        | none => .inl (.finish marks st.outOrder cur below)
        | some dep =>
          match marks dep with
          | .unvisited =>
            .inl ⟨Function.update marks dep .unvisited, st.outOrder,
              (dep, 0) :: (cur, idx + 1) :: below⟩
          | .visiting => .inr (.error "dependency cycle detected")
          | .done => .inl ⟨marks, st.outOrder, (cur, idx + 1) :: below⟩

/-- The dependencies of a module; one without an entry has none. -/
def needsOf (info : ModulesInfo) (name : Text) : List Text := (info.depsOf name).getD []

/-- The modules the search from `root` can meet. -/
def domain (info : ModulesInfo) (root : Text) : Finset Text :=
  insert root (info.deps.keys.flatMap info.needsOf).toFinset

/-- A number of rounds that is enough for the search from `root`. -/
def rounds (info : ModulesInfo) (root : Text) : ℕ :=
  (∑ x ∈ info.domain root, (1 + (info.needsOf x).length)) + 1

/-- The order in which `root` and what it depends on have to be loaded. -/
def resolveLoadOrder (info : ModulesInfo) (root : Text) :
    Option (Except String (List Text)) :=
  Loop.iterate info.resolveRound (info.rounds root) (.initial root)

/-! ### What has to be loaded -/

/-- The module `a` depends directly on `b`, and neither is built in. -/
def Needs (info : ModulesInfo) (a b : Text) : Prop :=
  info.isBuiltin a = false ∧ info.isBuiltin b = false ∧ b ∈ info.needsOf a

/-- The module `x` is not built in and is reached from `root` through modules that are not
built in. -/
def Reachable (info : ModulesInfo) (root x : Text) : Prop :=
  info.isBuiltin root = false ∧ ReflTransGen info.Needs root x

/-- Some cycle of modules that are not built in is reached from `root`. -/
def CycleReachable (info : ModulesInfo) (root : Text) : Prop :=
  ∃ x, info.Reachable root x ∧ TransGen info.Needs x x

/-- The module that is reached from `x` by going to the first dependency that is not built in
for as long as there is one. -/
inductive FirstLoaded (info : ModulesInfo) : Text → Text → Prop
  | leaf {x : Text} (h : ∀ d ∈ info.needsOf x, info.isBuiltin d = true) : FirstLoaded info x x
  | step {x d y : Text} (front back : List Text) (hx : info.needsOf x = front ++ d :: back)
      (hfront : ∀ b ∈ front, info.isBuiltin b = true) (hd : info.isBuiltin d = false)
      (h : FirstLoaded info d y) : FirstLoaded info x y

variable {info : ModulesInfo} {root : Text}

/-- Two first dependencies that are not built in are the same. -/
theorem first_unique {front front' back back' : List Text} {d d' : Text}
    (h : front ++ d :: back = front' ++ d' :: back')
    (hfront : ∀ b ∈ front, info.isBuiltin b = true) (hd : info.isBuiltin d = false)
    (hfront' : ∀ b ∈ front', info.isBuiltin b = true) (hd' : info.isBuiltin d' = false) :
  d = d'
  := by
  induction front generalizing front' with
  | nil =>
      cases front' with
      | nil => apply (List.cons.inj h).1
      | cons b front' =>
          obtain ⟨rfl, -⟩ := List.cons.inj h
          simp [hfront' d] at hd
  | cons b front ih =>
      cases front' with
      | nil =>
          obtain ⟨rfl, -⟩ := List.cons.inj h
          simp [hfront b] at hd'
      | cons b' front' =>
          apply ih (List.cons.inj h).2
          · intro c hc
            apply hfront c (List.mem_cons_of_mem _ hc)
          · intro c hc
            apply hfront' c (List.mem_cons_of_mem _ hc)

/-- There is at most one first module. -/
theorem FirstLoaded.unique {x y y' : Text} (h : info.FirstLoaded x y)
    (h' : info.FirstLoaded x y') :
  y = y'
  := by
  induction h with
  | leaf hleaf =>
      cases h' with
      | leaf => rfl
      | step front back hx _ hd _ =>
          rw [hleaf _ (by simp [hx])] at hd
          cases hd
  | step front back hx hfront hd _ ih =>
      cases h' with
      | leaf hleaf =>
          rw [hleaf _ (by simp [hx])] at hd
          cases hd
      | step front' back' hx' hfront' hd' h' =>
          rw [hx] at hx'
          obtain rfl := first_unique hx' hfront hd hfront' hd'
          apply ih h'

theorem Reachable.not_builtin {x : Text} (h : info.Reachable root x) :
  info.isBuiltin x = false
  := by
  obtain ⟨hroot, h⟩ := h
  cases h with
  | refl => apply hroot
  | tail _ hx => apply hx.2.1

theorem Reachable.step {x y : Text} (h : info.Reachable root x) (hy : info.Needs x y) :
  info.Reachable root y
  := ⟨h.1, h.2.tail hy⟩

/-! ### The rounds -/

section Rounds

variable {st : LoadOrderState} {cur : Text} {idx : ℕ} {below : List (Text × ℕ)}

/-- The marks once the top of the stack is marked. -/
def LoadOrderState.marked (st : LoadOrderState) (cur : Text) : Text → Mark :=
  if st.marks cur = .unvisited then Function.update st.marks cur .visiting else st.marks

theorem round_nil (h : st.stack = []) : info.resolveRound st = .inr (.ok st.outOrder) := by
  simp only [resolveRound, h]

theorem round_builtin (h : st.stack = (cur, idx) :: below) (hb : info.isBuiltin cur = true) :
  info.resolveRound st
    = .inl ⟨Function.update st.marks cur .done, st.outOrder, below⟩
  := by
  simp only [resolveRound, h, hb, if_true]

/-- A module without an entry goes the same way as one whose dependencies are exhausted. -/
theorem round_module (h : st.stack = (cur, idx) :: below)
    (hb : info.isBuiltin cur = false) :
  info.resolveRound st =
    match (info.needsOf cur)[idx]? with
    | none => .inl (.finish (st.marked cur) st.outOrder cur below)
    | some dep =>
      match st.marked cur dep with
      | .unvisited =>
        .inl ⟨Function.update (st.marked cur) dep .unvisited, st.outOrder,
          (dep, 0) :: (cur, idx + 1) :: below⟩
      | .visiting => .inr (.error "dependency cycle detected")
      | .done => .inl ⟨st.marked cur, st.outOrder, (cur, idx + 1) :: below⟩
  := by
  simp only [resolveRound, h, hb, needsOf, LoadOrderState.marked]
  cases info.depsOf cur with
  | none => simp
  | some deps => simp

end Rounds

/-! ### The invariant -/

/-- The part of the stack below the module `child`: each module there is being visited, has
the one above it as a dependency, and has had its earlier dependencies done. -/
def Frames (info : ModulesInfo) (marks : Text → Mark) (root : Text) :
    Text → List (Text × ℕ) → Prop
  | child, [] => child = root
  | child, (p, i) :: below =>
    marks p = .visiting ∧ info.isBuiltin p = false ∧ i ≤ (info.needsOf p).length
      ∧ child ∈ (info.needsOf p).take i
      ∧ (∀ dep ∈ (info.needsOf p).take i, marks dep = .done ∨ dep = child)
      ∧ Frames info marks root p below

/-- The list holds exactly what is reachable, each module once and after everything it needs,
and begins with the first module. -/
structure IsLoadOrder (info : ModulesInfo) (root : Text) (order : List Text) : Prop where
  nodup : order.Nodup
  mem_iff : ∀ x, x ∈ order ↔ info.Reachable root x
  ordered : Dependency.Ordered info.Needs order
  first : ∀ x, order.head? = some x → info.FirstLoaded root x

/-- The invariant of the search from `root`. -/
structure Inv (info : ModulesInfo) (root : Text) (st : LoadOrderState) : Prop where
  visiting_mem : ∀ x, st.marks x = .visiting →
    x ∈ st.stack.map Prod.fst ∧ info.isBuiltin x = false
  nodup_stack : (st.stack.map Prod.fst).Nodup
  frames : ∀ cur idx below, st.stack = (cur, idx) :: below →
    Frames info st.marks root cur below
  top : ∀ cur idx below, st.stack = (cur, idx) :: below →
    st.marks cur ≠ .done ∧ idx ≤ (info.needsOf cur).length
      ∧ (st.marks cur = .unvisited → idx = 0)
      ∧ ∀ dep ∈ (info.needsOf cur).take idx, st.marks dep = .done
  root_done : st.stack = [] → st.marks root = .done
  mem_outOrder : ∀ x, x ∈ st.outOrder ↔ st.marks x = .done ∧ info.isBuiltin x = false
  ordered : Dependency.Ordered info.Needs st.outOrder
  nodup_outOrder : st.outOrder.Nodup
  reachable : ∀ x ∈ st.outOrder, info.Reachable root x
  first : ∀ x, st.outOrder.head? = some x → info.FirstLoaded root x

theorem Inv.initial : Inv info root (.initial root) where
  visiting_mem x h := by cases h
  nodup_stack := by simp [LoadOrderState.initial]
  frames cur idx below h := by
    cases h
    rfl
  top cur idx below h := by
    cases h
    simp [LoadOrderState.initial]
  root_done h := by cases h
  mem_outOrder x := by simp [LoadOrderState.initial]
  ordered := Dependency.Ordered.nil
  nodup_outOrder := List.nodup_nil
  reachable x h := by cases h
  first x h := by cases h

/-- The frames stay as they are when the marks of their modules do, and nothing that is done
is undone. -/
theorem Frames.congr {marks marks' : Text → Mark} {child : Text} {below : List (Text × ℕ)}
    (h : Frames info marks root child below)
    (hsame : ∀ x ∈ below.map Prod.fst, marks' x = marks x)
    (hdone : ∀ x, marks x = .done → marks' x = .done) :
  Frames info marks' root child below
  := by
  induction below generalizing child with
  | nil => apply h
  | cons frame below ih =>
      obtain ⟨p, i⟩ := frame
      obtain ⟨hp, hb, hi, hchild, hdeps, hbelow⟩ := h
      have hp' : marks' p = .visiting := by
        rw [hsame p (by simp), hp]
      refine ⟨hp', hb, hi, hchild, ?_, ?_⟩
      · intro dep hdep
        rcases hdeps dep hdep with hd | hd
        · left
          apply hdone dep hd
        · right
          apply hd
      · apply ih hbelow
        intro x hx
        apply hsame x (List.mem_cons_of_mem _ hx)

/-- Every module below the top of the stack is being visited. -/
theorem Frames.visiting {marks : Text → Mark} {child : Text} {below : List (Text × ℕ)}
    (h : Frames info marks root child below) :
  ∀ x ∈ below.map Prod.fst, marks x = .visiting
  := by
  induction below generalizing child with
  | nil => simp
  | cons frame below ih =>
      obtain ⟨p, i⟩ := frame
      obtain ⟨hp, -, -, -, -, hbelow⟩ := h
      intro x hx
      rcases List.mem_cons.mp hx with rfl | hx
      · apply hp
      · apply ih hbelow x hx

/-- A module at the top of the stack that is not built in is reachable. -/
theorem Frames.reachable {marks : Text → Mark} {child : Text} {below : List (Text × ℕ)}
    (h : Frames info marks root child below) (hb : info.isBuiltin child = false) :
  info.Reachable root child
  := by
  induction below generalizing child with
  | nil =>
      obtain rfl : child = root := h
      exact ⟨hb, .refl⟩
  | cons frame below ih =>
      obtain ⟨p, i⟩ := frame
      obtain ⟨-, hp, -, hchild, -, hbelow⟩ := h
      apply (ih hbelow hp).step ⟨hp, hb, List.mem_of_mem_take hchild⟩

/-- Every module in the stack needs, directly or through others, the one at the top. -/
theorem Frames.transGen {marks : Text → Mark} {child : Text} {below : List (Text × ℕ)}
    (h : Frames info marks root child below) (hb : info.isBuiltin child = false) :
  ∀ x ∈ below.map Prod.fst, info.isBuiltin x = false ∧ TransGen info.Needs x child
  := by
  induction below generalizing child with
  | nil => simp
  | cons frame below ih =>
      obtain ⟨p, i⟩ := frame
      obtain ⟨-, hp, -, hchild, -, hbelow⟩ := h
      intro x hx
      rcases List.mem_cons.mp hx with rfl | hx
      · exact ⟨hp, .single ⟨hp, hb, List.mem_of_mem_take hchild⟩⟩
      · obtain ⟨hxb, hx⟩ := ih hbelow hp x hx
        exact ⟨hxb, hx.tail ⟨hp, hb, List.mem_of_mem_take hchild⟩⟩

/-- While only built-in modules are done, what is loaded first from the top of the stack is
what is loaded first from the root. -/
theorem Frames.firstLoaded {marks : Text → Mark} {child y : Text} {below : List (Text × ℕ)}
    (h : Frames info marks root child below)
    (hdone : ∀ x, marks x = .done → info.isBuiltin x = true)
    (hb : info.isBuiltin child = false) (hy : info.FirstLoaded child y) :
  info.FirstLoaded root y
  := by
  induction below generalizing child with
  | nil =>
      obtain rfl : child = root := h
      apply hy
  | cons frame below ih =>
      obtain ⟨p, i⟩ := frame
      obtain ⟨-, hp, -, hchild, hdeps, hbelow⟩ := h
      obtain ⟨front, back, htake, hfront⟩ := List.eq_append_cons_of_mem hchild
      apply ih hbelow hp
      apply FirstLoaded.step front (back ++ (info.needsOf p).drop i)
      · rw [← List.cons_append, ← List.append_assoc, ← htake, List.take_append_drop]
      · intro b hbf
        rcases hdeps b (by rw [htake]; apply List.mem_append_left _ hbf) with hd | rfl
        · apply hdone b hd
        · contradiction
      · apply hb
      · apply hy

/-! ### What the rounds keep -/

section Rounds

variable {st st' : LoadOrderState} {cur dep : Text} {idx : ℕ} {below : List (Text × ℕ)}

/-- Marking the top of the stack changes no other mark. -/
theorem marked_of_ne {x : Text} (hx : x ≠ cur) : st.marked cur x = st.marks x := by
  rw [LoadOrderState.marked]
  split
  · rw [Function.update_of_ne hx]
  · rfl

/-- A module that is not done is being visited once it is marked. -/
theorem marked_self (h : st.marks cur ≠ .done) : st.marked cur cur = .visiting := by
  rw [LoadOrderState.marked]
  split
  · rw [Function.update_self]
  · cases hm : st.marks cur with
    | unvisited => contradiction
    | visiting => rfl
    | done => contradiction

/-- Marking keeps what is done. -/
theorem marked_done (h : st.marks cur ≠ .done) (x : Text) :
  st.marked cur x = .done ↔ st.marks x = .done
  := by
  by_cases hx : x = cur
  · subst hx
    rw [marked_self h]
    simp [h]
  · rw [marked_of_ne hx]

theorem Inv.not_mem_below (h : Inv info root st) (hs : st.stack = (cur, idx) :: below) :
  cur ∉ below.map Prod.fst
  := by
  have hnodup := h.nodup_stack
  rw [hs, List.map_cons, List.nodup_cons] at hnodup
  apply hnodup.1

/-- The invariant is kept when the top of the stack is done and popped. -/
theorem Inv.pop (h : Inv info root st) (hs : st.stack = (cur, idx) :: below)
    {outOrder : List Text}
    (hmem : ∀ x, x ∈ outOrder ↔ x ∈ st.outOrder ∨ x = cur ∧ info.isBuiltin cur = false)
    (hordered : Dependency.Ordered info.Needs outOrder) (hnodup : outOrder.Nodup)
    (hfirst : ∀ x, outOrder.head? = some x → info.FirstLoaded root x) :
  Inv info root ⟨Function.update st.marks cur .done, outOrder, below⟩
  := by
  have hbelow := h.not_mem_below hs
  have hframes := h.frames cur idx below hs
  have hdone : ∀ x, st.marks x = .done → Function.update st.marks cur .done x = .done := by
    intro x hx
    by_cases hxc : x = cur
    · rw [hxc, Function.update_self]
    · rw [Function.update_of_ne hxc, hx]
  have hsame : ∀ x ∈ below.map Prod.fst, Function.update st.marks cur .done x = st.marks x := by
    intro x hx
    apply Function.update_of_ne
    rintro rfl
    apply hbelow hx
  have hframes' := hframes.congr hsame hdone
  constructor
  case visiting_mem =>
    intro x hx
    have hxc : x ≠ cur := by
      rintro rfl
      simp at hx
    simp only [Function.update_of_ne hxc] at hx
    obtain ⟨hmem, hb⟩ := h.visiting_mem x hx
    rw [hs, List.map_cons, List.mem_cons] at hmem
    exact ⟨hmem.resolve_left hxc, hb⟩
  case nodup_stack =>
    have hnodup := h.nodup_stack
    rw [hs, List.map_cons, List.nodup_cons] at hnodup
    apply hnodup.2
  case frames =>
    rintro p i below' rfl
    apply hframes'.2.2.2.2.2
  case top =>
    rintro p i below' rfl
    obtain ⟨hp, -, hi, -, hdeps, -⟩ := hframes'
    refine ⟨by simp [hp], hi, by simp [hp], ?_⟩
    intro dep hdep
    rcases hdeps dep hdep with hd | rfl
    · apply hd
    · apply Function.update_self
  case root_done =>
    rintro rfl
    obtain rfl : cur = root := hframes
    apply Function.update_self
  case mem_outOrder =>
    intro x
    rw [hmem, h.mem_outOrder]
    by_cases hxc : x = cur
    · subst hxc
      simp [(h.top x idx below hs).1]
    · simp [hxc]
  case ordered => apply hordered
  case nodup_outOrder => apply hnodup
  case reachable =>
    intro x hx
    rcases (hmem x).mp hx with hx | ⟨rfl, hb⟩
    · apply h.reachable x hx
    · apply hframes.reachable hb
  case first => apply hfirst

/-- The invariant is kept when the top of the stack is marked. -/
theorem Inv.mark (h : Inv info root st) (hs : st.stack = (cur, idx) :: below)
    (hb : info.isBuiltin cur = false) :
  Inv info root ⟨st.marked cur, st.outOrder, st.stack⟩
  := by
  have hbelow := h.not_mem_below hs
  obtain ⟨hnot, hidx, -, hdeps⟩ := h.top cur idx below hs
  have hsame : ∀ x ∈ below.map Prod.fst, st.marked cur x = st.marks x := by
    intro x hx
    apply marked_of_ne
    rintro rfl
    apply hbelow hx
  constructor
  case visiting_mem =>
    intro x hx
    by_cases hxc : x = cur
    · subst hxc
      exact ⟨by simp [hs], hb⟩
    · simp only [marked_of_ne hxc] at hx
      apply h.visiting_mem x hx
  case nodup_stack => apply h.nodup_stack
  case frames =>
    intro p i below' hs'
    obtain ⟨⟨rfl, rfl⟩, rfl⟩ : (cur = p ∧ idx = i) ∧ below = below' := by
      simpa [hs] using hs'
    apply (h.frames cur idx below hs).congr hsame fun x => (marked_done hnot x).mpr
  case top =>
    intro p i below' hs'
    obtain ⟨⟨rfl, rfl⟩, rfl⟩ : (cur = p ∧ idx = i) ∧ below = below' := by
      simpa [hs] using hs'
    refine ⟨by simp [marked_self hnot], hidx, by simp [marked_self hnot], ?_⟩
    intro d hd
    apply (marked_done hnot d).mpr (hdeps d hd)
  case root_done =>
    intro hnil
    rw [hs] at hnil
    cases hnil
  case mem_outOrder =>
    intro x
    rw [marked_done hnot x]
    apply h.mem_outOrder
  case ordered => apply h.ordered
  case nodup_outOrder => apply h.nodup_outOrder
  case reachable => apply h.reachable
  case first => apply h.first

/-- The dependencies before the next index are those before this one and this one. -/
theorem mem_take_succ (hdep : (info.needsOf cur)[idx]? = some dep) {d : Text}
    (hd : d ∈ (info.needsOf cur).take (idx + 1)) :
  d ∈ (info.needsOf cur).take idx ∨ d = dep
  := by
  rw [List.take_add_one, hdep, List.mem_append] at hd
  simpa using hd

theorem mem_take_succ_self (hdep : (info.needsOf cur)[idx]? = some dep) :
  dep ∈ (info.needsOf cur).take (idx + 1)
  := by
  rw [List.take_add_one, hdep]
  simp

/-- The invariant is kept when the index at the top is moved past a dependency that is
done. -/
theorem Inv.skip (h : Inv info root st) (hs : st.stack = (cur, idx) :: below)
    (hcur : st.marks cur = .visiting) (hdep : (info.needsOf cur)[idx]? = some dep)
    (hdone : st.marks dep = .done) :
  Inv info root ⟨st.marks, st.outOrder, (cur, idx + 1) :: below⟩
  := by
  obtain ⟨hnot, -, -, hdeps⟩ := h.top cur idx below hs
  constructor
  case visiting_mem =>
    intro x hx
    have hmem := h.visiting_mem x hx
    rw [hs] at hmem
    apply hmem
  case nodup_stack =>
    have hnodup := h.nodup_stack
    rw [hs] at hnodup
    apply hnodup
  case frames =>
    rintro _ _ _ ⟨⟩
    apply h.frames cur idx below hs
  case top =>
    rintro _ _ _ ⟨⟩
    refine ⟨hnot, (List.getElem?_eq_some_iff.mp hdep).1, by simp [hcur], ?_⟩
    intro d hd
    rcases mem_take_succ hdep hd with hd | rfl
    · apply hdeps d hd
    · apply hdone
  case root_done => rintro ⟨⟩
  case mem_outOrder => apply h.mem_outOrder
  case ordered => apply h.ordered
  case nodup_outOrder => apply h.nodup_outOrder
  case reachable => apply h.reachable
  case first => apply h.first

/-- Once the top of the stack is being visited, so is everything on the stack. -/
theorem Inv.not_mem_stack (h : Inv info root st) (hs : st.stack = (cur, idx) :: below)
    (hcur : st.marks cur = .visiting) (hnew : st.marks dep = .unvisited) :
  dep ∉ st.stack.map Prod.fst
  := by
  rw [hs]
  intro hmem
  rcases List.mem_cons.mp hmem with rfl | hmem
  · rw [hcur] at hnew
    cases hnew
  · rw [(h.frames cur idx below hs).visiting dep hmem] at hnew
    cases hnew

/-- The invariant is kept when an unvisited dependency of the top is pushed. -/
theorem Inv.push (h : Inv info root st) (hs : st.stack = (cur, idx) :: below)
    (hcur : st.marks cur = .visiting) (hdep : (info.needsOf cur)[idx]? = some dep)
    (hnew : st.marks dep = .unvisited) :
  Inv info root ⟨st.marks, st.outOrder, (dep, 0) :: (cur, idx + 1) :: below⟩
  := by
  obtain ⟨-, -, -, hdeps⟩ := h.top cur idx below hs
  have hframes := h.frames cur idx below hs
  constructor
  case visiting_mem =>
    intro x hx
    obtain ⟨hmem, hxb⟩ := h.visiting_mem x hx
    rw [hs] at hmem
    exact ⟨List.mem_cons_of_mem _ hmem, hxb⟩
  case nodup_stack =>
    have hnot := h.not_mem_stack hs hcur hnew
    have hnodup := h.nodup_stack
    rw [hs] at hnot hnodup
    apply List.nodup_cons.mpr ⟨hnot, hnodup⟩
  case frames =>
    rintro _ _ _ ⟨⟩
    refine ⟨hcur, (h.visiting_mem cur hcur).2, (List.getElem?_eq_some_iff.mp hdep).1,
      mem_take_succ_self hdep, ?_, hframes⟩
    intro d hd
    rcases mem_take_succ hdep hd with hd | rfl
    · left
      apply hdeps d hd
    · right
      rfl
  case top =>
    rintro _ _ _ ⟨⟩
    simp [hnew]
  case root_done => rintro ⟨⟩
  case mem_outOrder => apply h.mem_outOrder
  case ordered => apply h.ordered
  case nodup_outOrder => apply h.nodup_outOrder
  case reachable => apply h.reachable
  case first => apply h.first

/-- What is done and pushed out of the search keeps the order. -/
theorem Inv.finish (h : Inv info root st) (hs : st.stack = (cur, idx) :: below)
    (hb : info.isBuiltin cur = false) (hdeps : (info.needsOf cur)[idx]? = none) :
  Inv info root (.finish (st.marked cur) st.outOrder cur below)
  := by
  obtain ⟨hnot, hidx, -, hdone⟩ := h.top cur idx below hs
  have hnew : cur ∉ st.outOrder := by
    intro hcur
    apply hnot ((h.mem_outOrder cur).mp hcur).1
  have hmarks : Function.update (st.marked cur) cur .done = Function.update st.marks cur .done := by
    rw [LoadOrderState.marked]
    split
    · apply Function.update_idem
    · rfl
  have hall : ∀ d ∈ info.needsOf cur, st.marks d = .done := by
    intro d hd
    apply hdone
    rwa [List.take_of_length_le (List.getElem?_eq_none_iff.mp hdeps)]
  rw [LoadOrderState.finish, if_neg hnew, hmarks]
  apply h.pop hs
  · intro x
    simp [hb]
  · apply h.ordered.concat
    rintro y ⟨-, hyb, hy⟩
    apply (h.mem_outOrder y).mpr ⟨hall y hy, hyb⟩
  · apply h.nodup_outOrder.append (List.nodup_singleton cur)
    simpa using hnew
  · intro x hx
    cases hout : st.outOrder with
    | nil =>
        rw [hout] at hx
        obtain rfl : cur = x := by simpa using hx
        apply (h.frames cur idx below hs).firstLoaded
        · intro y hy
          by_contra hyb
          have hmem := (h.mem_outOrder y).mpr ⟨hy, by simpa using hyb⟩
          rw [hout] at hmem
          cases hmem
        · apply hb
        · apply FirstLoaded.leaf
          intro d hd
          by_contra hdb
          have hmem := (h.mem_outOrder d).mpr ⟨hall d hd, by simpa using hdb⟩
          rw [hout] at hmem
          cases hmem
    | cons y ys =>
        apply h.first
        rw [hout] at hx ⊢
        apply hx

/-- Every round keeps the invariant. -/
theorem Inv.round (h : Inv info root st) (hr : info.resolveRound st = .inl st') :
  Inv info root st'
  := by
  cases hs : st.stack with
  | nil =>
      rw [round_nil hs] at hr
      cases hr
  | cons frame below =>
      obtain ⟨cur, idx⟩ := frame
      cases hb : info.isBuiltin cur with
      | true =>
          rw [round_builtin hs hb] at hr
          cases hr
          apply h.pop hs _ h.ordered h.nodup_outOrder h.first
          simp [hb]
      | false =>
          have hmark := h.mark hs hb
          have hcur := marked_self (h.top cur idx below hs).1
          rw [round_module hs hb] at hr
          split at hr
          · next hdeps =>
              cases hr
              apply h.finish hs hb hdeps
          · next dep hdep =>
              split at hr
              · next hnew =>
                  cases hr
                  rw [← hnew, Function.update_eq_self]
                  apply hmark.push hs hcur hdep hnew
              · cases hr
              · next hdone =>
                  cases hr
                  apply hmark.skip hs hcur hdep hdone

/-- The search leaves when the stack is empty, or at a dependency that is being visited. -/
theorem round_inr {r : Except String (List Text)} (hr : info.resolveRound st = .inr r) :
  st.stack = [] ∧ r = .ok st.outOrder
    ∨ r = .error "dependency cycle detected" ∧ ∃ cur idx below dep,
        st.stack = (cur, idx) :: below ∧ info.isBuiltin cur = false
          ∧ dep ∈ info.needsOf cur ∧ st.marked cur dep = .visiting
  := by
  cases hs : st.stack with
  | nil =>
      rw [round_nil hs] at hr
      cases hr
      left
      exact ⟨rfl, rfl⟩
  | cons frame below =>
      obtain ⟨cur, idx⟩ := frame
      cases hb : info.isBuiltin cur with
      | true =>
          rw [round_builtin hs hb] at hr
          cases hr
      | false =>
          rw [round_module hs hb] at hr
          split at hr
          · cases hr
          · next dep hdep =>
              split at hr
              · cases hr
              · next hvisiting =>
                  cases hr
                  right
                  exact ⟨rfl, cur, idx, below, dep, rfl, hb, List.mem_of_getElem? hdep, hvisiting⟩
              · cases hr

/-- The order the search returns lists what is reachable, once and after its needs. -/
theorem Inv.result_ok (h : Inv info root st) (hs : st.stack = []) :
  info.IsLoadOrder root st.outOrder
  := by
  refine ⟨h.nodup_outOrder, ?_, h.ordered, h.first⟩
  intro x
  constructor
  · apply h.reachable x
  · rintro ⟨hb, hx⟩
    have hroot : root ∈ st.outOrder := (h.mem_outOrder root).mpr ⟨h.root_done hs, hb⟩
    apply h.ordered.mem_of_reflTransGen hroot hx

/-- A dependency that is being visited closes a cycle. -/
theorem Inv.result_error (h : Inv info root st) (hs : st.stack = (cur, idx) :: below)
    (hb : info.isBuiltin cur = false) (hdep : dep ∈ info.needsOf cur)
    (hvisiting : st.marked cur dep = .visiting) :
  info.CycleReachable root
  := by
  have hframes := h.frames cur idx below hs
  have hreach : info.Reachable root cur := hframes.reachable hb
  by_cases hself : dep = cur
  · subst hself
    exact ⟨dep, hreach, .single ⟨hb, hb, hdep⟩⟩
  · rw [marked_of_ne hself] at hvisiting
    obtain ⟨hmem, hdepb⟩ := h.visiting_mem dep hvisiting
    rw [hs, List.map_cons] at hmem
    obtain ⟨-, hpath⟩ := hframes.transGen hb dep ((List.mem_cons.mp hmem).resolve_left hself)
    have hneed : info.Needs cur dep := ⟨hb, hdepb, hdep⟩
    exact ⟨dep, hreach.step hneed, hpath.tail hneed⟩

/-! ### Termination -/

/-- What is left to do for the module `x`: nothing when it is done, else to look at its
remaining dependencies and to be done. -/
def pending (info : ModulesInfo) (st : LoadOrderState) (x : Text) : ℕ :=
  if st.marks x = .done then 0
  else 1 + (info.needsOf x).length - (st.stack.lookup x).getD 0

/-- What is left to do for all modules. -/
def work (info : ModulesInfo) (root : Text) (st : LoadOrderState) : ℕ :=
  ∑ x ∈ info.domain root, info.pending st x

theorem mem_domain_of_needs {x : Text} (h : dep ∈ info.needsOf x) : dep ∈ info.domain root := by
  rw [domain, Finset.mem_insert, List.mem_toFinset]
  right
  apply List.mem_flatMap.mpr
  use x
  constructor
  · rw [needsOf, depsOf] at h
    cases hl : info.deps.lookup x with
    | none =>
        rw [hl] at h
        cases h
    | some deps =>
        apply AList.mem_keys.mp
        apply AList.lookup_isSome.mp
        rw [hl]
        rfl
  · apply h

/-- Everything on the stack is among the modules the search can meet. -/
theorem Frames.mem_domain {marks : Text → Mark} {child : Text}
    (h : Frames info marks root child below) :
  child ∈ info.domain root
  := by
  cases below with
  | nil =>
      obtain rfl : child = root := h
      apply Finset.mem_insert_self
  | cons frame below =>
      obtain ⟨p, i⟩ := frame
      apply mem_domain_of_needs (List.mem_of_mem_take h.2.2.2.1)

/-- Work gets less when it gets less for one module and does not grow for the others. -/
theorem work_lt {st st' : LoadOrderState} (hcur : cur ∈ info.domain root)
    (hlt : info.pending st' cur < info.pending st cur)
    (hle : ∀ x, x ≠ cur → info.pending st' x ≤ info.pending st x) :
  info.work root st' < info.work root st
  := by
  apply Finset.sum_lt_sum
  · intro x _
    by_cases hx : x = cur
    · subst hx
      omega
    · apply hle x hx
  · use cur

/-- Work gets less when the top of the stack is done and popped. -/
theorem Inv.work_pop (h : Inv info root st) (hs : st.stack = (cur, idx) :: below)
    {marks : Text → Mark} {outOrder : List Text}
    (hmarks : ∀ x, x ≠ cur → marks x = st.marks x) (hcur : marks cur = .done) :
  info.work root ⟨marks, outOrder, below⟩ < info.work root st
  := by
  obtain ⟨hnot, hidx, -, -⟩ := h.top cur idx below hs
  apply work_lt (h.frames cur idx below hs).mem_domain
  · simp only [pending, hcur, if_true, hnot, if_false, hs, List.lookup_cons_self,
      Option.getD_some]
    omega
  · intro x hx
    simp only [pending, hmarks x hx, hs, List.lookup_cons, beq_false_of_ne hx]
    exact le_rfl

/-- Work gets less when the top of the stack stays and its index moves, whatever is pushed on
it with the index zero. -/
theorem Inv.work_advance (h : Inv info root st) (hs : st.stack = (cur, idx) :: below)
    (hdep : (info.needsOf cur)[idx]? = some dep) {stack : List (Text × ℕ)}
    {outOrder : List Text}
    (hstack : ∀ x, (stack.lookup x).getD 0
      = if x = cur then idx + 1 else (st.stack.lookup x).getD 0) :
  info.work root ⟨st.marked cur, outOrder, stack⟩ < info.work root st
  := by
  obtain ⟨hnot, -, -, -⟩ := h.top cur idx below hs
  have hlt : idx < (info.needsOf cur).length := (List.getElem?_eq_some_iff.mp hdep).1
  apply work_lt (h.frames cur idx below hs).mem_domain
  · have hself : (st.stack.lookup cur).getD 0 = idx := by simp [hs]
    simp only [pending, marked_self hnot, hnot, reduceCtorEq, if_false, hstack, if_true, hself]
    omega
  · intro x hx
    simp only [pending, marked_of_ne hx, hstack, hx, if_false]
    exact le_rfl

/-- Moving the index at the top of the stack changes the index of no other module. -/
theorem lookup_advance (hs : st.stack = (cur, idx) :: below) (x : Text) :
  (((cur, idx + 1) :: below).lookup x).getD 0
    = if x = cur then idx + 1 else (st.stack.lookup x).getD 0
  := by
  by_cases hx : x = cur
  · simp [hx]
  · simp [hs, hx, List.lookup_cons, beq_false_of_ne hx]

/-- Nor does pushing a module that is not on the stack. -/
theorem lookup_push (hs : st.stack = (cur, idx) :: below)
    (hnot : dep ∉ st.stack.map Prod.fst) (x : Text) :
  (((dep, 0) :: (cur, idx + 1) :: below).lookup x).getD 0
    = if x = cur then idx + 1 else (st.stack.lookup x).getD 0
  := by
  rw [← lookup_advance hs]
  by_cases hx : x = dep
  · subst hx
    rw [hs, List.map_cons, List.mem_cons, not_or] at hnot
    have hbelow : below.lookup x = none := by
      apply List.lookup_eq_none_iff.mpr
      intro p hp
      apply bne_iff_ne.mpr
      rintro rfl
      apply hnot.2 (List.mem_map_of_mem hp)
    simp [List.lookup_cons, beq_false_of_ne hnot.1, hbelow]
  · simp [List.lookup_cons, beq_false_of_ne hx]

/-- Every round leaves less to do. -/
theorem Inv.work_round (h : Inv info root st) (hr : info.resolveRound st = .inl st') :
  info.work root st' < info.work root st
  := by
  cases hs : st.stack with
  | nil =>
      rw [round_nil hs] at hr
      cases hr
  | cons frame below =>
      obtain ⟨cur, idx⟩ := frame
      have hnot := (h.top cur idx below hs).1
      cases hb : info.isBuiltin cur with
      | true =>
          rw [round_builtin hs hb] at hr
          cases hr
          apply h.work_pop hs
          · intro x hx
            apply Function.update_of_ne hx
          · apply Function.update_self
      | false =>
          rw [round_module hs hb] at hr
          split at hr
          · cases hr
            apply h.work_pop hs
            · intro x hx
              rw [Function.update_of_ne hx, marked_of_ne hx]
            · apply Function.update_self
          · next dep hdep =>
              split at hr
              · next hnew =>
                  cases hr
                  rw [← hnew, Function.update_eq_self]
                  apply h.work_advance hs hdep
                  have hnot := (h.mark hs hb).not_mem_stack hs (marked_self hnot) hnew
                  apply lookup_push hs hnot
              · cases hr
              · cases hr
                apply h.work_advance hs hdep
                apply lookup_advance hs

/-- The search ends, within the rounds it is given. -/
theorem resolveLoadOrder_isSome (info : ModulesInfo) (root : Text) :
  ∃ r, info.resolveLoadOrder root = some r
  := by
  apply Loop.iterate_of_measure (Inv info root) (info.work root)
  · intro st st' h hr
    exact ⟨h.round hr, h.work_round hr⟩
  · apply Inv.initial
  · apply Nat.lt_succ_of_le
    apply Finset.sum_le_sum
    intro x _
    rw [pending]
    split
    · omega
    · omega

end Rounds

/-! ### The order is right -/

/-- What the search returns: an error when a cycle is reachable, else an order. -/
theorem resolveLoadOrder_spec {r : Except String (List Text)}
    (hr : info.resolveLoadOrder root = some r) :
  r = .error "dependency cycle detected" ∧ info.CycleReachable root
    ∨ ∃ order, r = .ok order ∧ info.IsLoadOrder root order
  := by
  apply Loop.Returns.post (Inv info root) (fun r =>
    r = .error "dependency cycle detected" ∧ info.CycleReachable root
      ∨ ∃ order, r = .ok order ∧ info.IsLoadOrder root order) _ _ Inv.initial ⟨_, hr⟩
  · intro st st' h
    apply h.round
  intro st r h hr
  rcases round_inr hr with ⟨hs, rfl⟩ | ⟨rfl, cur, idx, below, dep, hs, hb, hdep, hvisiting⟩
  · right
    exact ⟨st.outOrder, rfl, h.result_ok hs⟩
  · left
    exact ⟨rfl, h.result_error hs hb hdep hvisiting⟩

theorem IsLoadOrder.not_builtin {order : List Text} (h : info.IsLoadOrder root order) :
  ∀ x ∈ order, info.isBuiltin x = false
  := by
  intro x hx
  apply ((h.mem_iff x).mp hx).not_builtin

/-- A root that is not built in is in its load order. -/
theorem IsLoadOrder.root_mem {order : List Text} (h : info.IsLoadOrder root order)
    (hb : info.isBuiltin root = false) :
  root ∈ order
  := (h.mem_iff root).mpr ⟨hb, .refl⟩

/-- An order that lists everything reachable after its needs leaves no cycle reachable. -/
theorem IsLoadOrder.not_cycleReachable {order : List Text} (h : info.IsLoadOrder root order) :
  ¬ info.CycleReachable root
  := by
  rintro ⟨x, hx, hcycle⟩
  apply h.ordered.acyclic ((h.mem_iff x).mpr hx) hcycle

/-- For every `ModulesInfo` and every root the search ends; it fails exactly when a cycle of
modules that are not built in is reachable; and what it lists otherwise is exactly what is
reachable, each module once and after everything it needs. -/
theorem resolveLoadOrder_correct (info : ModulesInfo) (root : Text) :
  ∃ r, info.resolveLoadOrder root = some r
    ∧ ((∃ e, r = .error e) ↔ info.CycleReachable root)
    ∧ ∀ order, r = .ok order →
        order.Nodup ∧ (∀ x, x ∈ order ↔ info.Reachable root x)
          ∧ Dependency.Ordered info.Needs order
  := by
  obtain ⟨r, hr⟩ := resolveLoadOrder_isSome info root
  use r, hr
  rcases resolveLoadOrder_spec hr with ⟨rfl, hcycle⟩ | ⟨order, rfl, horder⟩
  · constructor
    · exact ⟨fun _ => hcycle, fun _ => ⟨_, rfl⟩⟩
    · rintro order ⟨⟩
  · constructor
    · constructor
      · rintro ⟨e, ⟨⟩⟩
      · intro hcycle
        apply absurd hcycle horder.not_cycleReachable
    · rintro _ ⟨⟩
      exact ⟨horder.nodup, horder.mem_iff, horder.ordered⟩

end ModulesInfo

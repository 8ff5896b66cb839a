import CatplayFirmware.Support.Endian
import CatplayFirmware.Support.FlatMemory
import Mathlib.Data.Nat.Bitwise

/-!
# MIPS32

The instructions of MIPS32 that a small piece of straight code needs, little endian. A jump takes
effect behind the instruction that follows it, so that a state has, besides the address of the
next instruction, that of the one behind. `Code` says that words stand in memory from an address
on, and `Code.step` executes the first of them.
-/

namespace Mips32

abbrev Word := BitVec 32

abbrev Reg := BitVec 5

/-- The instructions that are needed. `sll 0 0 0` is the one that does nothing. -/
inductive Instr where
  | lui (rt : Reg) (imm : BitVec 16)
  | ori (rt rs : Reg) (imm : BitVec 16)
  | jr (rs : Reg)
  | sll (rd rt sa : Reg)
  deriving DecidableEq

/-- The instruction that a word stands for. The lowest bits of a jump are a hint. -/
def decode (w : Word) : Option Instr :=
  let op := w.extractLsb' 26 6
  let rs := w.extractLsb' 21 5
  let rt := w.extractLsb' 16 5
  let rd := w.extractLsb' 11 5
  let sa := w.extractLsb' 6 5
  let funct := w.extractLsb' 0 6
  let imm := w.extractLsb' 0 16
  if op = 0x0F ∧ rs = 0 then some (.lui rt imm)
  else if op = 0x0D then some (.ori rt rs imm)
  else if op = 0 ∧ funct = 0x08 ∧ rt = 0 ∧ rd = 0 then some (.jr rs)
  else if op = 0 ∧ funct = 0 ∧ rs = 0 then some (.sll rd rt sa)
  else none

/-- The next two addresses are both state, since the instruction behind a jump is executed. -/
structure State where
  pc : Word
  nextPc : Word
  regs : Reg → Word
  memory : FlatMemory 32

/-- The first register is zero, and nothing is written to it. -/
def State.reg (s : State) (r : Reg) : Word := if r = 0 then 0 else s.regs r

/-- Register 0 stays what it is. -/
def State.setReg (s : State) (r : Reg) (v : Word) : State :=
  if r = 0 then s else { s with regs := Function.update s.regs r v }

/-- The state behind an instruction that does not jump, before what it computes is written. -/
def State.advance (s : State) : State := { s with pc := s.nextPc, nextPc := s.nextPc + 4 }

/-- What an instruction does. A jump changes the address after the next one. -/
def exec (s : State) : Instr → State
  | .lui rt imm => s.advance.setReg rt (imm ++ (0 : BitVec 16))
  | .ori rt rs imm => s.advance.setReg rt (s.reg rs ||| imm.zeroExtend 32)
  | .jr rs => { s.advance with nextPc := s.reg rs }
  | .sll rd rt sa => s.advance.setReg rd (s.reg rt <<< sa.toNat)

/-- The word at an address. -/
def word (m : FlatMemory 32) (a : Word) : Word := BitVec.ofNat 32 (Bytes.leNat (m.load a 4))

/-- The addresses at which an instruction may stand. -/
def Aligned (a : Word) : Prop := a.toNat % 4 = 0

instance (a : Word) : Decidable (Aligned a) := inferInstanceAs (Decidable (_ = _))

/-- One instruction. -/
def step (s : State) : Option State :=
  if Aligned s.pc then (decode (word s.memory s.pc)).map (exec s) else none

/-- The state after `n` instructions. -/
def run : (n : ℕ) → State → Option State
  | 0, s => some s
  | n + 1, s => (step s).bind (run n)

/-- A run is a run after a run. -/
theorem run_add (m n : ℕ) (s : State) : run (m + n) s = (run m s).bind (run n) := by
  induction m generalizing s with
  | zero => rw [Nat.zero_add, run, Option.bind_some]
  | succ m ih =>
      rw [Nat.succ_add, run, run]
      cases step s with
      | none => rfl
      | some s' => exact ih s'

/-! ### Registers -/

section Registers

variable (s : State) {r : Reg} (v : Word)

/-- A register is not in memory. -/
theorem setReg_memory : (s.setReg r v).memory = s.memory := by
  rw [State.setReg]
  split <;> rfl

theorem reg_setReg_self (h : r ≠ 0) : (s.setReg r v).reg r = v := by
  rw [State.reg, if_neg h, State.setReg, if_neg h]
  apply Function.update_self

/-- The other registers keep their values. -/
theorem reg_setReg_of_ne {x : Reg} (h : x ≠ r) : (s.setReg r v).reg x = s.reg x := by
  rw [State.setReg]
  split
  · rfl
  · rw [State.reg, State.reg]
    dsimp only
    rw [Function.update_of_ne h]

end Registers

/-! ### Code in memory -/

/-- Words stand in memory from an address on. -/
def Code (m : FlatMemory 32) : Word → List Word → Prop
  | _, [] => True
  | a, w :: ws => word m a = w ∧ Code m (a + 4) ws

/-- Where words stand, the first of them and the others stand. -/
theorem code_append {m : FlatMemory 32} {a : Word} {ws ws' : List Word} (h : Code m a (ws ++ ws')) :
  Code m a ws ∧ Code m (a + BitVec.ofNat 32 (4 * ws.length)) ws'
  := by
  induction ws generalizing a with
  | nil => exact ⟨trivial, by simpa using h⟩
  | cons w ws ih =>
      obtain ⟨hword, hrest⟩ := h
      obtain ⟨hfront, hback⟩ := ih hrest
      have hoff : a + 4 + BitVec.ofNat 32 (4 * ws.length) =
          a + BitVec.ofNat 32 (4 * (w :: ws).length) := by
        rw [BitVec.add_assoc, List.length_cons, Nat.mul_succ, Nat.add_comm, BitVec.ofNat_add]
        rfl
      rw [hoff] at hback
      exact ⟨⟨hword, hfront⟩, hback⟩

/-- The words that bytes in memory are. -/
theorem code_of_load {m : FlatMemory 32} {a : Word} {ws : List Word}
    (h : m.load a (4 * ws.length) = ws.flatMap fun w => Bytes.leBytes 4 w.toNat) :
  Code m a ws
  := by
  induction ws generalizing a with
  | nil => trivial
  | cons w ws ih =>
      rw [List.length_cons, Nat.mul_succ, Nat.add_comm, FlatMemory.load_add,
        List.flatMap_cons] at h
      obtain ⟨hword, hrest⟩ := List.append_inj h (by
        rw [FlatMemory.length_load, Bytes.length_leBytes])
      refine ⟨?_, ih hrest⟩
      rw [word, hword, Bytes.leNat_leBytes w.isLt, BitVec.ofNat_toNat, BitVec.setWidth_eq]

/-! ### Instructions -/

/-- A field of a word as division and remainder. -/
theorem field_eq {w : Word} {k len : ℕ} {v : BitVec len}
    (h : w.toNat / 2 ^ k % 2 ^ len = v.toNat) :
  w.extractLsb' k len = v
  := by
  apply BitVec.eq_of_toNat_eq
  rw [BitVec.extractLsb'_toNat, Nat.shiftRight_eq_div_pow, h]

/-- The word of `lui`, whose fields do not meet. -/
theorem decode_lui {w : Word} {rt : Reg} {imm : BitVec 16}
    (h : w.toNat = 0x0F * 2 ^ 26 + rt.toNat * 2 ^ 16 + imm.toNat) :
  decode w = some (.lui rt imm)
  := by
  have hrt := rt.isLt
  have himm := imm.isLt
  have hop : w.extractLsb' 26 6 = 0x0F := field_eq (by simp; omega)
  have hrs : w.extractLsb' 21 5 = 0 := field_eq (by simp; omega)
  have hrt : w.extractLsb' 16 5 = rt := field_eq (by omega)
  have himm : w.extractLsb' 0 16 = imm := field_eq (by omega)
  rw [decode]
  simp only [hop, hrs, hrt, himm, and_self, if_true]

/-- The word of `ori`. -/
theorem decode_ori {w : Word} {rt rs : Reg} {imm : BitVec 16}
    (h : w.toNat = 0x0D * 2 ^ 26 + rs.toNat * 2 ^ 21 + rt.toNat * 2 ^ 16 + imm.toNat) :
  decode w = some (.ori rt rs imm)
  := by
  have hrs := rs.isLt
  have hrt := rt.isLt
  have himm := imm.isLt
  have hop : w.extractLsb' 26 6 = 0x0D := field_eq (by simp; omega)
  have hrs : w.extractLsb' 21 5 = rs := field_eq (by omega)
  have hrt : w.extractLsb' 16 5 = rt := field_eq (by omega)
  have himm : w.extractLsb' 0 16 = imm := field_eq (by omega)
  rw [decode]
  simp only [hop, hrs, hrt, himm, if_true]
  rfl

/-- The word of `jr`. -/
theorem decode_jr {w : Word} {rs : Reg} (h : w.toNat = rs.toNat * 2 ^ 21 + 0x08) :
  decode w = some (.jr rs)
  := by
  have hrs := rs.isLt
  have hop : w.extractLsb' 26 6 = 0 := field_eq (by simp; omega)
  have hrs : w.extractLsb' 21 5 = rs := field_eq (by omega)
  have hrt : w.extractLsb' 16 5 = 0 := field_eq (by simp; omega)
  have hrd : w.extractLsb' 11 5 = 0 := field_eq (by simp; omega)
  have hfunct : w.extractLsb' 0 6 = 0x08 := field_eq (by simp; omega)
  rw [decode]
  simp only [hop, hrs, hrt, hrd, hfunct]
  rfl

/-- The instruction that does nothing. -/
theorem decode_zero : decode 0 = some (.sll 0 0 0) := by decide

/-! ### Straight code -/

/-- The address of the next word is that of a word. -/
theorem Aligned.add_four {a : Word} (h : Aligned a) : Aligned (a + 4) := by
  rw [Aligned] at h ⊢
  have hfour : (4 : Word).toNat = 4 := rfl
  rw [BitVec.toNat_add, hfour]
  omega

theorem add_four_add_four (a : Word) : a + 4 + 4 = a + 8 := BitVec.add_assoc a 4 4

/-- The state that goes on at an address. -/
def State.goTo (s : State) (a : Word) : State := { s with pc := a, nextPc := a + 4 }

/-- Setting a register and going to an address may change places. -/
theorem setReg_goTo (s : State) (a : Word) (r : Reg) (v : Word) :
  (s.goTo a).setReg r v = (s.setReg r v).goTo a
  := by
  rw [State.setReg, State.setReg]
  split <;> rfl

/-- A step executes the word at the address. -/
theorem step_eq {s : State} {w : Word} {i : Instr} (hpc : Aligned s.pc)
    (hword : word s.memory s.pc = w) (hdecode : decode w = some i) :
  step s = some (exec s i)
  := by
  rw [step, if_pos hpc, hword, hdecode, Option.map_some]

/-- The upper half of a register, and the next address. -/
theorem exec_lui (s : State) (a : Word) (rt : Reg) (imm : BitVec 16) :
  exec (s.goTo a) (.lui rt imm) = (s.setReg rt (imm ++ (0 : BitVec 16))).goTo (a + 4)
  := setReg_goTo s (a + 4) rt _

/-- The lower half of a register, and the next address. -/
theorem exec_ori (s : State) (a : Word) (rt rs : Reg) (imm : BitVec 16) :
  exec (s.goTo a) (.ori rt rs imm) =
    (s.setReg rt (s.reg rs ||| imm.zeroExtend 32)).goTo (a + 4)
  := setReg_goTo s (a + 4) rt _

/-- The halves of a word. -/
theorem append_zero_or (hi lo : BitVec 16) :
  hi ++ (0 : BitVec 16) ||| lo.zeroExtend 32 = hi ++ lo
  := by
  have hlo := lo.isLt
  have hsmall : lo.toNat % 2 ^ 32 = lo.toNat := Nat.mod_eq_of_lt (by omega)
  apply BitVec.eq_of_toNat_eq
  rw [BitVec.toNat_or, BitVec.toNat_append, BitVec.toNat_append, BitVec.toNat_setWidth, hsmall]
  exact congrArg (· ||| lo.toNat) (Nat.or_zero _)

/-- The last value of a register counts. -/
theorem setReg_setReg (s : State) (r : Reg) (v v' : Word) :
  (s.setReg r v).setReg r v' = s.setReg r v'
  := by
  rw [State.setReg, State.setReg, State.setReg]
  split
  · rfl
  · rw [Function.update_idem]

/-- The upper half of a register is written and then the lower half. -/
theorem run_lui_ori {s : State} {a w₁ w₂ : Word} {r : Reg} {hi lo : BitVec 16} (hr : r ≠ 0)
    (ha : Aligned a) (hcode : Code s.memory a [w₁, w₂]) (hlui : decode w₁ = some (.lui r hi))
    (hori : decode w₂ = some (.ori r r lo)) :
  run 2 (s.goTo a) = some ((s.setReg r (hi ++ lo)).goTo (a + 8))
  := by
  obtain ⟨hfirst, hsecond, -⟩ := hcode
  have hstep : step (s.goTo a) = some ((s.setReg r (hi ++ (0 : BitVec 16))).goTo (a + 4)) := by
    rw [step_eq (s := s.goTo a) ha hfirst hlui, exec_lui]
  rw [← setReg_memory s (v := hi ++ (0 : BitVec 16)) (r := r)] at hsecond
  rw [run, hstep, Option.bind_some, run, step_eq (s := State.goTo _ _) ha.add_four hsecond hori,
    exec_ori, reg_setReg_self _ _ hr, append_zero_or, setReg_setReg, add_four_add_four]
  rfl

/-- What is executed behind a jump may do nothing, and then the jump has been taken. -/
theorem exec_nop (s : State) (a t : Word) :
  exec { s with pc := a, nextPc := t } (.sll 0 0 0) = s.goTo t
  := by
  rw [exec, State.setReg, if_pos rfl]
  rfl

/-- A jump, with an instruction behind it that does nothing. -/
theorem run_jr {s : State} {a w : Word} {r : Reg} (ha : Aligned a)
    (hcode : Code s.memory a [w, 0]) (hjr : decode w = some (.jr r)) :
  run 2 (s.goTo a) = some (s.goTo (s.reg r))
  := by
  obtain ⟨hfirst, hsecond, -⟩ := hcode
  have hstep : step (s.goTo a) = some { s with pc := a + 4, nextPc := s.reg r } := by
    rw [step_eq (s := s.goTo a) ha hfirst hjr]
    rfl
  have hslot : step { s with pc := a + 4, nextPc := s.reg r } = some (s.goTo (s.reg r)) := by
    rw [step_eq (s := { s with pc := a + 4, nextPc := s.reg r }) ha.add_four hsecond decode_zero,
      exec_nop]
  rw [run, hstep, Option.bind_some, run, hslot]
  rfl

end Mips32

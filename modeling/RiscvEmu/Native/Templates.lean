import RiscvEmu.Jit.Emit
import RiscvEmu.Native.Values

/-!
# Code templates

What the code of one instruction does to the hart.  Inside a block `r15` and `r14` hold the
addresses of the register file and of the hart (`Inside`), and the stack holds the frame of the
block.  A template either goes on (`Falls`) or returns (`Leaves`), and each pattern of the
emitter has a rule that reduces it to the operation in its middle (`Computes`).
-/

namespace RiscvEmu.Jit

open X86 (Reaches Returns State)

/-! ## The hart in memory -/

section

variable (h : Host) (k : Reg) (c : Cpu)

theorem regOff_signExtend : ∀ k : Reg, (regOff k).signExtend 64 = BitVec.ofNat 64 (8 * k.val) := by
  decide

theorem slot_reg : h.slot (h.regs + (regOff k).signExtend 64) = some k := by
  have hk := k.isLt
  have hoff : (h.regs + BitVec.ofNat 64 (8 * k.val) - h.regs).toNat = 8 * k.val := by
    rw [BitVec.add_comm, BitVec.add_sub_cancel, BitVec.toNat_ofNat]
    omega
  rw [regOff_signExtend, Host.slot, hoff]
  simp [show 8 * k.val / 8 = k.val by omega, hk]

/-- A register is the word at its address. -/
@[simp] theorem load_reg : h.env.load (h.regs + (regOff k).signExtend 64) c = some (c.regs k) := by
  change h.load _ c = _
  rw [Host.load, slot_reg, Option.map_some]

@[simp] theorem store_reg (v : U64) : h.env.store (h.regs + (regOff k).signExtend 64) v c =
    some { c with regs := Function.update c.regs k v } := by
  change h.store _ v c = _
  rw [Host.store, slot_reg]

/-- The program counter is the word at its address. -/
@[simp] theorem store_pc (v : U64) :
    h.env.store (h.cpu + h.pcOffset.signExtend 64) v c = some { c with pc := v } := by
  have hslot : h.slot (h.cpu + h.pcOffset.signExtend 64) = none := by
    have hapart := h.pc_apart
    rw [Host.slot, dif_neg (by omega)]
  change h.store _ v c = _
  rw [Host.store, hslot]
  exact if_pos rfl

end

/-! ## Templates -/

/-- A state inside a block. -/
@[mk_iff]
structure Inside (h : Host) (c : Cpu) (s : State Cpu) : Prop where
  r14 : s.regs.r14 = h.cpu
  r15 : s.regs.r15 = h.regs
  mem : s.mem = c

/-- The code turns one hart into another and goes on. -/
def Falls (h : Host) (code : Code) (c c' : Cpu) : Prop :=
  ∀ s, Inside h c s → Reaches h.env code s fun s' => Inside h c' s' ∧ s'.stack = s.stack

/-- The code turns one hart into another and leaves the block with a value, to its caller. -/
def Leaves (h : Host) (code : Code) (c c' : Cpu) (v : U64) : Prop :=
  ∀ s pad r14 r15 ret rest, Inside h c s → s.stack = pad :: r14 :: r15 :: ret :: rest →
    Returns h.env code s fun addr s' => addr = ret ∧ s'.regs.rax = v ∧ s'.regs.r14 = r14 ∧
      s'.regs.r15 = r15 ∧ s'.stack = rest ∧ s'.mem = c'

variable {h : Host} {c c' c'' : Cpu} {code code' : Code} {v : U64}

theorem Falls.nil : Falls h [] c c := fun _ hs => .nil ⟨hs, rfl⟩

theorem Falls.append (hcode : Falls h code c c') (hcode' : Falls h code' c' c'') :
    Falls h (code ++ code') c c'' := by
  intro s hs
  refine (hcode s hs).append fun s' ⟨hs', hstack⟩ => ?_
  exact (hcode' s' hs').mono fun s'' hs'' => ⟨hs''.1, hs''.2.trans hstack⟩

theorem Falls.append_leaves (hcode : Falls h code c c') (hcode' : Leaves h code' c' c'' v) :
    Leaves h (code ++ code') c c'' v := by
  intro s pad r14 r15 ret rest hs hstack
  refine (hcode s hs).append_returns fun s' ⟨hs', hstack'⟩ => ?_
  exact hcode' s' pad r14 r15 ret rest hs' (hstack'.trans hstack)

theorem Leaves.append (hcode : Leaves h code c c' v) : Leaves h (code ++ code') c c' v :=
  fun s pad r14 r15 ret rest hs hstack => (hcode s pad r14 r15 ret rest hs hstack).append

/-! ## Blocks -/

theorem emitReturn_leaves (nextPc : U64) : Leaves h (emitReturn nextPc) c c nextPc := by
  rintro s pad r14 r15 ret rest ⟨-, -, hm⟩ hstack
  simp [Returns, emitReturn, restore, hstack, hm]

/-- The slow path puts the address of the instruction in the hart. -/
theorem emitFaultReturn_leaves (faultPc : U64) :
    Leaves h (emitFaultReturn h faultPc) c { c with pc := faultPc } u64Max := by
  rintro s pad r14 r15 ret rest ⟨h14, -, hm⟩ hstack
  simp [Returns, emitFaultReturn, restore, hstack, hm, h14]

/-! ## Results -/

/-- A register of a hart whose register 0 holds zero. -/
theorem reg_of_zero (hzero : c.regs 0 = 0) (k : Reg) : c.reg k = c.regs k := by
  rw [Cpu.reg]
  split
  · rename_i hk
    rw [hk, hzero]
  · rfl

/-- The result of a template goes to its register. -/
theorem writeBack_falls (rd : Reg) {s : State Cpu} (hs : Inside h c s) :
    Reaches h.env (writeBack rd) s fun s' =>
      Inside h (c.setReg rd s.regs.rax) s' ∧ s'.stack = s.stack := by
  rw [writeBack, Cpu.setReg]
  split
  · obtain ⟨h14, h15, hm⟩ := hs
    simp only [Reaches, X86.run_cons, X86.run_nil, X86.over_here, X86.step, X86.Regs.get, h15,
      hm, store_reg, X86.Cursor.ofOption]
    exact ⟨⟨h14, h15, rfl⟩, trivial⟩
  · exact .nil ⟨hs, rfl⟩

/-- The code computes the result from `rax` and `rcx`, and leaves the hart alone. -/
def Computes (h : Host) (code : Code) (f : U64 → U64 → U64) : Prop :=
  ∀ c s, Inside h c s → Reaches h.env code s fun s' =>
    Inside h c s' ∧ s'.stack = s.stack ∧ s'.regs.rax = f s.regs.rax s.regs.rcx

/-- Code that puts a value in `rax`, followed by the write of the result. -/
theorem writeBack_append {rd : Reg} {code : Code} {v : U64}
    (hcode : ∀ s, Inside h c s → Reaches h.env code s fun s' =>
      Inside h c s' ∧ s'.stack = s.stack ∧ s'.regs.rax = v) :
    Falls h (code ++ writeBack rd) c (c.setReg rd v) := by
  intro s hs
  refine (hcode s hs).append fun s' ⟨hs', hstack, hrax⟩ => ?_
  rw [← hrax, ← hstack]
  exact writeBack_falls rd hs'

theorem emitROp_falls {rd rs1 rs2 : Reg} {op : Code} {f : U64 → U64 → U64}
    (hop : Computes h op f) :
    Falls h (emitROp rd rs1 rs2 op) c (c.setReg rd (f (c.regs rs1) (c.regs rs2))) := by
  refine writeBack_append fun s hs => ?_
  have hload : Reaches h.env
      ([.mov .qword .rax (regMem rs1), .mov .qword .rcx (regMem rs2)] : Code) s
      fun s' => Inside h c s' ∧ s'.stack = s.stack ∧ s'.regs.rax = c.regs rs1 ∧
        s'.regs.rcx = c.regs rs2 := by
    obtain ⟨h14, h15, hm⟩ := hs
    simp [Reaches, regMem, h14, h15, hm, inside_iff]
  refine hload.append fun s' hloaded => ?_
  obtain ⟨hs', hstack, hrax, hrcx⟩ := hloaded
  refine (hop c s' hs').mono fun s'' hdone => ?_
  obtain ⟨hs'', hstack', hv⟩ := hdone
  exact ⟨hs'', hstack'.trans hstack, by rw [hv, hrax, hrcx]⟩

/-- The code computes the low half of the result from the low halves of `rax` and `rcx`. -/
def ComputesW (h : Host) (code : Code) (f : U32 → U32 → U32) : Prop :=
  ∀ c s, Inside h c s → Reaches h.env code s fun s' =>
    Inside h c s' ∧ s'.stack = s.stack ∧ lo32 s'.regs.rax = f (lo32 s.regs.rax) (lo32 s.regs.rcx)

theorem emitWOp_falls {rd rs1 rs2 : Reg} {op : Code} {f : U32 → U32 → U32}
    (hop : ComputesW h op f) :
    Falls h (emitWOp rd rs1 rs2 op) c
      (c.setReg rd ((f (lo32 (c.regs rs1)) (lo32 (c.regs rs2))).signExtend 64)) := by
  refine writeBack_append fun s hs => ?_
  have hload : Reaches h.env
      ([.mov .dword .rax (regMem rs1), .mov .dword .rcx (regMem rs2)] : Code) s fun s' =>
        Inside h c s' ∧ s'.stack = s.stack ∧ lo32 s'.regs.rax = lo32 (c.regs rs1) ∧
          lo32 s'.regs.rcx = lo32 (c.regs rs2) := by
    obtain ⟨h14, h15, hm⟩ := hs
    simp [Reaches, regMem, h14, h15, hm, inside_iff, lo32]
  have hmid : Reaches h.env
      (([.mov .dword .rax (regMem rs1), .mov .dword .rcx (regMem rs2)] : Code) ++ op) s fun s' =>
        Inside h c s' ∧ s'.stack = s.stack ∧
          lo32 s'.regs.rax = f (lo32 (c.regs rs1)) (lo32 (c.regs rs2)) := by
    refine hload.append fun s' hloaded => ?_
    obtain ⟨hs', hstack, hrax, hrcx⟩ := hloaded
    refine (hop c s' hs').mono fun s'' hdone => ?_
    obtain ⟨hs'', hstack', hv⟩ := hdone
    exact ⟨hs'', hstack'.trans hstack, by rw [hv, hrax, hrcx]⟩
  refine hmid.append fun s' hdone => ?_
  obtain ⟨⟨h14, h15, hm⟩, hstack, hv⟩ := hdone
  rw [← hv]
  simp [Reaches, h14, h15, hm, hstack, inside_iff, lo32]

/-- A comparison with an operand of known value. -/
theorem emitSet_falls {rd rs1 : Reg} {src : X86.Operand} {cond : X86.Cond} {b : U64}
    (hsrc : ∀ s, Inside h c s → s.read h.env 64 src = some b) :
    Falls h (emitSet rd rs1 src cond) c
      (c.setReg rd (boolToU64 (cond.holds (.sub (c.regs rs1) b)))) := by
  refine writeBack_append fun s hs => ?_
  have hload : Reaches h.env ([.mov .qword .rax (regMem rs1)] : Code) s fun s' =>
      Inside h c s' ∧ s'.stack = s.stack ∧ s'.regs.rax = c.regs rs1 := by
    obtain ⟨h14, h15, hm⟩ := hs
    simp [Reaches, regMem, h14, h15, hm, inside_iff]
  refine hload.append fun s' hloaded => ?_
  obtain ⟨hs', hstack, hrax⟩ := hloaded
  have hread := hsrc s' hs'
  obtain ⟨h14, h15, hm⟩ := hs'
  simp only [Reaches, X86.run_cons, X86.run_nil, X86.over_here, X86.step, hread, X86.Regs.get,
    X86.Cursor.ofOption, X86.Size.bits, X86.State.put, X86.Regs.set, X86.State.reg,
    BitVec.setWidth_eq, hrax]
  refine ⟨⟨h14, h15, hm⟩, hstack, ?_⟩
  cases cond.holds (.sub (c.regs rs1) b)
  · simp [boolToU64]
  · simp [boolToU64]

theorem read_regMem (k : Reg) (s : State Cpu) (hs : Inside h c s) :
    s.read h.env 64 (regMem k) = some (c.regs k) := by
  obtain ⟨h14, h15, hm⟩ := hs
  simp [regMem, h15, hm]

theorem read_imm {imm : U64} (hfit : Fits imm) (s : State Cpu) :
    s.read h.env 64 (.imm (imm.setWidth 32)) = some imm :=
  congrArg some hfit

/-- An operation with an immediate. -/
theorem emitIOp_falls {rd rs1 : Reg} {imm : U64} {op : X86.Alu} (hfit : Fits imm) :
    Falls h (emitIOp rd rs1 imm fun imm32 => [.alu op .qword .rax (.imm imm32)]) c
      (c.setReg rd (op.eval (c.regs rs1) imm)) := by
  refine writeBack_append fun s ⟨h14, h15, hm⟩ => ?_
  rw [Fits, lo32] at hfit
  simp [Reaches, regMem, h14, h15, hm, inside_iff, hfit]

/-! ## Shifts -/

theorem emitShift_falls {rd rs1 rs2 : Reg} {op : X86.Shift} :
    Falls h (emitShift rd rs1 rs2 op) c
      (c.setReg rd (op.eval (c.regs rs1) (((c.regs rs2 &&& 63).setWidth 8).toNat % 64))) := by
  refine emitROp_falls (f := fun a b => op.eval a (((b &&& 63).setWidth 8).toNat % 64)) ?_
  intro c s ⟨h14, h15, hm⟩
  simp [Reaches, h14, h15, hm, inside_iff, X86.Count.value, X86.Alu.eval]

theorem emitShiftW_falls {rd rs1 rs2 : Reg} {op : X86.Shift} :
    Falls h (emitShiftW rd rs1 rs2 op) c (c.setReg rd ((op.eval (lo32 (c.regs rs1))
      (((lo32 (c.regs rs2) &&& 31).setWidth 8).toNat % 32)).signExtend 64)) := by
  refine emitWOp_falls (f := fun a b => op.eval a (((b &&& 31).setWidth 8).toNat % 32)) ?_
  intro c s ⟨h14, h15, hm⟩
  simp [Reaches, h14, h15, hm, inside_iff, X86.Count.value, X86.Alu.eval, lo32]

theorem emitShiftImm_falls {rd rs1 : Reg} {shamt : U32} {op : X86.Shift}
    (hlt : shamt.toNat < 64) :
    Falls h (emitShiftImm rd rs1 shamt op) c
      (c.setReg rd (op.eval (c.regs rs1) shamt.toNat)) := by
  have hcount : (shamt.setWidth 8).toNat % 64 = shamt.toNat := by
    rw [BitVec.toNat_setWidth]
    omega
  refine writeBack_append fun s ⟨h14, h15, hm⟩ => ?_
  rw [← hcount]
  simp [Reaches, regMem, h14, h15, hm, inside_iff, X86.Count.value]

theorem emitShiftImmW_falls {rd rs1 : Reg} {shamt : U32} {op : X86.Shift}
    (hlt : shamt.toNat < 32) :
    Falls h (emitShiftImmW rd rs1 shamt op) c
      (c.setReg rd ((op.eval (lo32 (c.regs rs1)) shamt.toNat).signExtend 64)) := by
  have hcount : (shamt.setWidth 8).toNat % 32 = shamt.toNat := by
    rw [BitVec.toNat_setWidth]
    omega
  refine writeBack_append fun s ⟨h14, h15, hm⟩ => ?_
  rw [← hcount]
  simp [Reaches, regMem, h14, h15, hm, inside_iff, X86.Count.value, lo32]

/-! ## Constants and jumps -/

theorem emitConst_falls (rd : Reg) (v : U64) : Falls h (emitConst rd v) c (c.setReg rd v) := by
  rw [emitConst, Cpu.setReg]
  split
  · intro s ⟨h14, h15, hm⟩
    simp [Reaches, h14, h15, hm, inside_iff]
  · exact .nil

/-- Code that leaves at one of two addresses after a comparison. -/
theorem emitChoice_leaves {cond : X86.Cond} {f : X86.Flags} {fallPc takenPc : U64} {s : State Cpu}
    {pad r14 r15 ret : U64} {rest : List U64} (hs : Inside h c s) (hflags : s.flags = some f)
    (hstack : s.stack = pad :: r14 :: r15 :: ret :: rest) :
    Returns h.env (emitChoice cond fallPc takenPc) s fun addr s' => addr = ret ∧
      s'.regs.rax = (if cond.holds f then takenPc else fallPc) ∧ s'.regs.r14 = r14 ∧
        s'.regs.r15 = r15 ∧ s'.stack = rest ∧ s'.mem = c := by
  obtain ⟨-, -, hm⟩ := hs
  cases hcond : cond.holds f with
  | true =>
      simp [Returns, emitChoice, emitReturn, restore, hflags, hcond, hstack, hm]
  | false => simp [Returns, emitChoice, emitReturn, restore, hflags, hcond, hstack, hm]

/-- The condition of a branch after a comparison of its operands. -/
theorem branchCond_holds (op : BranchOp) (a b : U64) :
    (branchCond op).holds (.sub a b) = op.taken a b := by
  cases op <;> simp [branchCond, BranchOp.taken]

theorem emitBranch_leaves {rs1 rs2 : Reg} {imm guestPc nextSeq : U64} {op : BranchOp} :
    Leaves h (emitBranch rs1 rs2 imm guestPc nextSeq op) c c
      (if op.taken (c.regs rs1) (c.regs rs2) then guestPc + imm else nextSeq) := by
  intro s pad r14 r15 ret rest hs hstack
  have hcmp : Reaches h.env
      ([.mov .qword .rax (regMem rs1), .cmp .qword .rax (regMem rs2)] : Code) s fun s' =>
        Inside h c s' ∧ s'.stack = s.stack ∧
          s'.flags = some (.sub (c.regs rs1) (c.regs rs2)) := by
    obtain ⟨h14, h15, hm⟩ := hs
    simp [Reaches, regMem, h14, h15, hm, inside_iff]
  refine hcmp.append_returns fun s' hcompared => ?_
  obtain ⟨hs', hstack', hflags⟩ := hcompared
  rw [← branchCond_holds]
  exact emitChoice_leaves hs' hflags (hstack'.trans hstack)

theorem emitJal_leaves {rd : Reg} {imm guestPc nextSeq : U64} :
    Leaves h (emitJal rd imm guestPc nextSeq) c (c.setReg rd nextSeq) (guestPc + imm) :=
  (emitConst_falls rd nextSeq).append_leaves (emitReturn_leaves _)

theorem emitReturnRcx_leaves {s : State Cpu} {pad r14 r15 ret : U64} {rest : List U64}
    (hs : Inside h c s) (hstack : s.stack = pad :: r14 :: r15 :: ret :: rest) :
    Returns h.env emitReturnRcx s fun addr s' => addr = ret ∧
      s'.regs.rax = s.regs.rcx &&& ~~~(1 : U64) ∧ s'.regs.r14 = r14 ∧ s'.regs.r15 = r15 ∧
        s'.stack = rest ∧ s'.mem = c := by
  obtain ⟨-, -, hm⟩ := hs
  simp [Returns, emitReturnRcx, restore, hstack, hm, X86.Alu.eval]

/-- The jump reads its base before the link goes to a register. -/
theorem emitJalr_leaves {rd rs1 : Reg} {imm nextSeq : U64} (hfit : Fits imm) :
    Leaves h (emitJalr rd rs1 imm nextSeq) c (c.setReg rd nextSeq)
      ((c.regs rs1 + imm) &&& ~~~(1 : U64)) := by
  intro s pad r14 r15 ret rest hs hstack
  rw [Fits, lo32] at hfit
  have hbase : Reaches h.env ([.mov .qword .rcx (regMem rs1)] ++ emitConst rd nextSeq : Code) s
      fun s' => Inside h (c.setReg rd nextSeq) s' ∧ s'.stack = s.stack ∧
        s'.regs.rcx = c.regs rs1 := by
    obtain ⟨h14, h15, hm⟩ := hs
    rw [emitConst, Cpu.setReg]
    split
    · simp [Reaches, regMem, h14, h15, hm, inside_iff]
    · simp [Reaches, regMem, h14, h15, hm, inside_iff]
  have hadd : Reaches h.env
      ([.mov .qword .rcx (regMem rs1)] ++ emitConst rd nextSeq
        ++ [.alu .add .qword .rcx (.imm (imm.setWidth 32))] : Code) s
      fun s' => Inside h (c.setReg rd nextSeq) s' ∧ s'.stack = s.stack ∧
        s'.regs.rcx = c.regs rs1 + imm := by
    refine hbase.append fun s' hloaded => ?_
    obtain ⟨⟨h14, h15, hm⟩, hstack', hrcx⟩ := hloaded
    simp [Reaches, h14, h15, hm, inside_iff, hstack', hrcx, hfit, X86.Alu.eval]
  refine hadd.append_returns fun s' hadded => ?_
  obtain ⟨hs', hstack', hrcx⟩ := hadded
  rw [← hrcx]
  exact emitReturnRcx_leaves hs' (hstack'.trans hstack)

end RiscvEmu.Jit

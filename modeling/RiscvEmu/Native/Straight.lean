import RiscvEmu.Native.Division
import RiscvEmu.Native.Outcome

/-!
# Code without calls

The code of an instruction that does not access memory.  Each family of the emitter is matched
with the interpreter's table for it, and then the code of any such instruction with `execute`:
both leave the same registers and go on at the same address.
-/

namespace RiscvEmu.Jit

open X86 (Reaches)

variable {h : Host} {c : Cpu} {code : Code} {rd rs1 rs2 : Reg}

/-! ## Register-register operations -/

theorem alu_computes (op : X86.Alu) :
    Computes h [.alu op .qword .rax (.reg .rcx)] fun a b => op.eval a b := by
  intro c s ⟨h14, h15, hm⟩
  simp [Reaches, h14, h15, hm, inside_iff]

theorem imul_computes : Computes h [.imul .qword .rax (.reg .rcx)] fun a b => a * b := by
  intro c s ⟨h14, h15, hm⟩
  simp [Reaches, h14, h15, hm, inside_iff]

theorem mulh_computes : Computes h [.imulWide .rcx, .mov .qword .rax (.reg .rdx)]
    fun a b => mulHigh (a.signExtend 128) (b.signExtend 128) := by
  intro c s ⟨h14, h15, hm⟩
  simp [Reaches, h14, h15, hm, inside_iff, mulHigh]

theorem mulhu_computes : Computes h [.mulWide .rcx, .mov .qword .rax (.reg .rdx)]
    fun a b => mulHigh (a.setWidth 128) (b.setWidth 128) := by
  intro c s ⟨h14, h15, hm⟩
  simp [Reaches, h14, h15, hm, inside_iff, mulHigh]

theorem alu_computesW (op : X86.Alu) :
    ComputesW h [.alu op .dword .rax (.reg .rcx)] fun a b => op.eval a b := by
  intro c s ⟨h14, h15, hm⟩
  simp [Reaches, h14, h15, hm, inside_iff, lo32]

theorem emitMulw_falls :
    Falls h ([.mov .dword .rax (regMem rs1), .imul .dword .rax (regMem rs2),
      .movsx 32 .rax (.reg .rax)] ++ writeBack rd) c
      (c.setReg rd ((lo32 (c.regs rs1) * lo32 (c.regs rs2)).signExtend 64)) := by
  refine writeBack_append fun s ⟨h14, h15, hm⟩ => ?_
  simp [Reaches, regMem, h14, h15, hm, inside_iff, lo32]

theorem emitAddiw_falls {imm : U64} :
    Falls h (emitOpImm rd rs1 imm .addiw) c
      (c.setReg rd ((lo32 (c.regs rs1) + lo32 imm).signExtend 64)) := by
  refine writeBack_append fun s ⟨h14, h15, hm⟩ => ?_
  simp [Reaches, regMem, h14, h15, hm, inside_iff, lo32, X86.Alu.eval]

/-! ## Values of the interpreter's tables -/

section

variable (a b : U64)

theorem mul_eval : ROp.mul.eval a b = a * b := by
  rw [ROp.eval, BitVec.setWidth_mul _ _ (by decide), setWidth_signExtend (by decide),
    setWidth_signExtend (by decide)]

theorem sll_eval :
    ROp.sll.eval a b = X86.Shift.shl.eval a (((b &&& 63).setWidth 8).toNat % 64) := by
  rw [shiftCount]
  rfl

theorem srl_eval :
    ROp.srl.eval a b = X86.Shift.shr.eval a (((b &&& 63).setWidth 8).toNat % 64) := by
  rw [shiftCount]
  rfl

theorem sra_eval :
    ROp.sra.eval a b = X86.Shift.sar.eval a (((b &&& 63).setWidth 8).toNat % 64) := by
  rw [shiftCount]
  rfl

theorem addw_eval : ROp.addw.eval a b = (lo32 a + lo32 b).signExtend 64 := by
  rw [ROp.eval, sext_31, lo32_add]

theorem subw_eval : ROp.subw.eval a b = (lo32 a - lo32 b).signExtend 64 := by
  rw [ROp.eval, sext_31, lo32_sub]

theorem sllw_eval : ROp.sllw.eval a b =
    (X86.Shift.shl.eval (lo32 a) (((lo32 b &&& 31).setWidth 8).toNat % 32)).signExtend 64 := by
  rw [ROp.eval, sext_31, BitVec.shiftLeft_eq', lo32_shiftLeft, shiftCountW]
  rfl

theorem srlw_eval : ROp.srlw.eval a b =
    (X86.Shift.shr.eval (lo32 a) (((lo32 b &&& 31).setWidth 8).toNat % 32)).signExtend 64 := by
  rw [ROp.eval, unsigned32_eq, shiftCountW]
  rfl

theorem sraw_eval : ROp.sraw.eval a b =
    (X86.Shift.sar.eval (lo32 a) (((lo32 b &&& 31).setWidth 8).toNat % 32)).signExtend 64 := by
  rw [ROp.eval, signed32_eq, shiftCountW]
  rfl

theorem addiw_eval : IOp.addiw.eval a b = (lo32 a + lo32 b).signExtend 64 := by
  rw [IOp.eval, sext_31, lo32_add]

theorem slliw_eval (shamt : U32) : ShiftOp.slliw.eval a shamt =
    (X86.Shift.shl.eval (lo32 a) shamt.toNat).signExtend 64 := by
  rw [ShiftOp.eval, sext_31, BitVec.shiftLeft_eq', lo32_shiftLeft]
  rfl

theorem srliw_eval (shamt : U32) : ShiftOp.srliw.eval a shamt =
    (X86.Shift.shr.eval (lo32 a) shamt.toNat).signExtend 64 := by
  rw [ShiftOp.eval, unsigned32_eq]
  rfl

theorem sraiw_eval (shamt : U32) : ShiftOp.sraiw.eval a shamt =
    (X86.Shift.sar.eval (lo32 a) shamt.toNat).signExtend 64 := by
  rw [ShiftOp.eval, signed32_eq]
  rfl

end

/-! ## Families -/

/-- The code of a register-register operation. -/
theorem emitOp_falls {op : ROp} (hzero : c.regs 0 = 0) (hcode : emitOp rd rs1 rs2 op = some code) :
    Falls h code c (c.setReg rd (op.eval (c.reg rs1) (c.reg rs2))) := by
  rw [reg_of_zero hzero, reg_of_zero hzero]
  cases op with
  | mulhsu => cases hcode
  | add =>
      cases hcode
      exact emitROp_falls (alu_computes .add)
  | sub =>
      cases hcode
      exact emitROp_falls (alu_computes .sub)
  | and =>
      cases hcode
      exact emitROp_falls (alu_computes .and)
  | or =>
      cases hcode
      exact emitROp_falls (alu_computes .or)
  | xor =>
      cases hcode
      exact emitROp_falls (alu_computes .xor)
  | sll =>
      cases hcode
      rw [sll_eval]
      exact emitShift_falls
  | srl =>
      cases hcode
      rw [srl_eval]
      exact emitShift_falls
  | sra =>
      cases hcode
      rw [sra_eval]
      exact emitShift_falls
  | slt =>
      cases hcode
      rw [ROp.eval, ← X86.holds_l_sub]
      exact emitSet_falls (read_regMem rs2)
  | sltu =>
      cases hcode
      rw [ROp.eval, ← X86.holds_b_sub]
      exact emitSet_falls (read_regMem rs2)
  | addw =>
      cases hcode
      rw [addw_eval]
      exact emitWOp_falls (alu_computesW .add)
  | subw =>
      cases hcode
      rw [subw_eval]
      exact emitWOp_falls (alu_computesW .sub)
  | sllw =>
      cases hcode
      rw [sllw_eval]
      exact emitShiftW_falls
  | srlw =>
      cases hcode
      rw [srlw_eval]
      exact emitShiftW_falls
  | sraw =>
      cases hcode
      rw [sraw_eval]
      exact emitShiftW_falls
  | mul =>
      cases hcode
      rw [mul_eval]
      exact emitROp_falls imul_computes
  | mulh =>
      cases hcode
      exact emitROp_falls mulh_computes
  | mulhu =>
      cases hcode
      exact emitROp_falls mulhu_computes
  | mulw =>
      cases hcode
      rw [ROp.eval, signed32_eq]
      exact emitMulw_falls
  | div =>
      cases hcode
      exact emitDiv_falls
  | divu =>
      cases hcode
      exact emitDivu_falls
  | rem =>
      cases hcode
      exact emitRem_falls
  | remu =>
      cases hcode
      exact emitRemu_falls
  | divw =>
      cases hcode
      rw [ROp.eval, signed32_eq]
      exact emitDivw_falls
  | divuw =>
      cases hcode
      rw [ROp.eval, unsigned32_eq]
      exact emitDivuw_falls
  | remw =>
      cases hcode
      rw [ROp.eval, signed32_eq]
      exact emitRemw_falls
  | remuw =>
      cases hcode
      rw [ROp.eval, unsigned32_eq]
      exact emitRemuw_falls

/-- The code of a register-immediate operation. -/
theorem emitOpImm_falls {op : IOp} {imm : U64} (hzero : c.regs 0 = 0) (hfit : Fits imm) :
    Falls h (emitOpImm rd rs1 imm op) c (c.setReg rd (op.eval (c.reg rs1) imm)) := by
  rw [reg_of_zero hzero]
  cases op with
  | addi => exact emitIOp_falls hfit
  | andi => exact emitIOp_falls hfit
  | ori => exact emitIOp_falls hfit
  | xori => exact emitIOp_falls hfit
  | slti =>
      rw [IOp.eval, ← X86.holds_l_sub]
      exact emitSet_falls fun s _ => read_imm hfit s
  | sltiu =>
      rw [IOp.eval, ← X86.holds_b_sub]
      exact emitSet_falls fun s _ => read_imm hfit s
  | addiw =>
      rw [addiw_eval]
      exact emitAddiw_falls

/-- The code of a shift by a constant. -/
theorem emitOpShift_falls {op : ShiftOp} {shamt : U32} (hzero : c.regs 0 = 0)
    (hlt : shamt.toNat < op.width) :
    Falls h (emitOpShift rd rs1 shamt op) c (c.setReg rd (op.eval (c.reg rs1) shamt)) := by
  rw [reg_of_zero hzero]
  cases op with
  | slli => exact emitShiftImm_falls hlt
  | srli => exact emitShiftImm_falls hlt
  | srai => exact emitShiftImm_falls hlt
  | slliw =>
      rw [slliw_eval]
      exact emitShiftImmW_falls hlt
  | srliw =>
      rw [srliw_eval]
      exact emitShiftImmW_falls hlt
  | sraiw =>
      rw [sraiw_eval]
      exact emitShiftImmW_falls hlt

/-! ## Instructions -/

/-- Memory instructions, which are compiled to a call. -/
def callsOut : Instruction → Bool
  | .load .. | .store .. => true
  | _ => false

/-- The instructions that are compiled without a call. -/
def inlined : Instruction → Bool
  | .op op .. => decide (op ≠ .mulhsu)
  | .opImm .. | .shift .. | .lui .. | .auipc .. | .branch .. | .jal .. | .jalr .. | .fence => true
  | _ => false

theorem emitOp_exists (rd rs1 rs2 : Reg) {op : ROp} (hop : op ≠ .mulhsu) :
    ∃ code, emitOp rd rs1 rs2 op = some code := by
  cases op with
  | mulhsu => exact absurd rfl hop
  | _ => exact ⟨_, rfl⟩

theorem emitInst_op {guestPc nextSeq : U64} {op : ROp} (hcode : emitOp rd rs1 rs2 op = some code) :
    emitInst h guestPc nextSeq (.op op rd rs1 rs2) = (code, .seq) := by
  unfold emitInst
  simp only [hcode]

/-- The instructions that are compiled. -/
theorem handled_iff (h : Host) (guestPc nextSeq : U64) (inst : Instruction) :
    (emitInst h guestPc nextSeq inst).2 ≠ .unhandled ↔
      inlined inst = true ∨ callsOut inst = true := by
  cases inst with
  | op op rd rs1 rs2 =>
      by_cases hop : op = .mulhsu
      · subst hop
        exact iff_of_false (fun hne => hne rfl) (fun hor => hor.elim nofun nofun)
      · obtain ⟨code, hcode⟩ := emitOp_exists rd rs1 rs2 hop
        rw [emitInst_op hcode]
        exact iff_of_true nofun (Or.inl (decide_eq_true hop))
  | opImm | shift | lui | auipc | branch | jal | jalr | fence =>
      exact iff_of_true nofun (Or.inl rfl)
  | load | store => exact iff_of_true nofun (Or.inr rfl)
  | _ => exact iff_of_false (fun hne => hne rfl) (fun hor => hor.elim nofun nofun)

/-- The outcome of an instruction that is compiled. -/
def native (inst : Instruction) (guestPc nextSeq : U64) (c : Cpu) : Outcome :=
  match inst with
  | .op op rd rs1 rs2 => .next (c.setReg rd (op.eval (c.reg rs1) (c.reg rs2)))
  | .opImm op rd rs1 imm => .next (c.setReg rd (op.eval (c.reg rs1) imm))
  | .shift op rd rs1 shamt => .next (c.setReg rd (op.eval (c.reg rs1) shamt))
  | .lui rd imm => .next (c.setReg rd imm)
  | .auipc rd imm => .next (c.setReg rd (guestPc + imm))
  | .load op rd rs1 imm =>
      answered guestPc (fun v c' => c'.setReg rd (op.extend v))
        (c.jitLoad op.width (c.reg rs1 + imm))
  | .store op rs1 rs2 imm =>
      answered guestPc (fun _ c' => c') (c.jitStore op.width (c.reg rs1 + imm) (c.reg rs2))
  | .branch op rs1 rs2 imm =>
      .leave c (if op.taken (c.reg rs1) (c.reg rs2) then guestPc + imm else nextSeq)
  | .jal rd imm => .leave (c.setReg rd nextSeq) (guestPc + imm)
  | .jalr rd rs1 imm => .leave (c.setReg rd nextSeq) ((c.reg rs1 + imm) &&& ~~~(1 : U64))
  | .fence => .next c
  -- the others have no code
  | _ => .abort

/-- Whether the code of an instruction goes on or leaves the block. -/
def effectOf : Instruction → Effect
  | .branch .. | .jal .. | .jalr .. => .terminal
  | _ => .seq

/-- The code of an instruction has its outcome. -/
theorem emitInst_does {guestPc nextSeq : U64} {inst : Instruction} (hrange : inst.InRange)
    (hhandled : (emitInst h guestPc nextSeq inst).2 ≠ .unhandled) (hzero : c.regs 0 = 0) :
    (emitInst h guestPc nextSeq inst).2 = effectOf inst ∧
      Does h (emitInst h guestPc nextSeq inst).1 c (native inst guestPc nextSeq c) := by
  cases inst with
  | op op rd rs1 rs2 =>
      have hop : op ≠ .mulhsu := by
        rintro rfl
        exact hhandled rfl
      obtain ⟨code, hcode⟩ := emitOp_exists rd rs1 rs2 hop
      rw [emitInst_op hcode]
      exact ⟨rfl, emitOp_falls hzero hcode⟩
  | opImm op rd rs1 imm => exact ⟨rfl, emitOpImm_falls hzero hrange⟩
  | shift op rd rs1 shamt => exact ⟨rfl, emitOpShift_falls hzero hrange⟩
  | lui rd imm => exact ⟨rfl, emitConst_falls rd imm⟩
  | auipc rd imm => exact ⟨rfl, emitConst_falls rd _⟩
  | load op rd rs1 imm => exact ⟨rfl, emitOpLoad_does hzero hrange⟩
  | store op rs1 rs2 imm => exact ⟨rfl, emitOpStore_does hzero hrange⟩
  | fence => exact ⟨rfl, Falls.nil⟩
  | branch op rs1 rs2 imm =>
      refine ⟨rfl, ?_⟩
      change Leaves h _ c c (if op.taken (c.reg rs1) (c.reg rs2) then guestPc + imm else nextSeq)
      rw [reg_of_zero hzero, reg_of_zero hzero]
      exact emitBranch_leaves
  | jal rd imm => exact ⟨rfl, emitJal_leaves⟩
  | jalr rd rs1 imm =>
      refine ⟨rfl, ?_⟩
      change Leaves h _ c (c.setReg rd nextSeq) ((c.reg rs1 + imm) &&& ~~~(1 : U64))
      rw [reg_of_zero hzero]
      exact emitJalr_leaves hrange
  | _ => exact absurd rfl hhandled

/-- Emitted code does to the registers what the interpreter does, and goes on where it does: behind
its last instruction, at `nextSeq`, or at the address it returns. -/
def Agrees (h : Host) (emitted : Code × Effect) (c : Cpu) (nextSeq : U64) (r : Retired) : Prop :=
  r.trap = none ∧
    match emitted.2 with
    | .seq => Falls h emitted.1 c { c with regs := r.cpu.regs } ∧ r.cpu.pc = nextSeq
    | .terminal => Leaves h emitted.1 c { c with regs := r.cpu.regs } r.cpu.pc
    | .unhandled => False

section

variable {fpu : Fpu} {guestPc size v target : U64} {inst : Instruction}

/-- The hart the interpreter has at an instruction of a block. -/
def atInst (c : Cpu) (guestPc size : U64) : Cpu := { c with pc := guestPc, instSize := size }

theorem setReg_regs (c c' : Cpu) (hregs : c'.regs = c.regs) :
    { c with regs := (c'.setReg rd v).regs } = c.setReg rd v := by
  rw [Cpu.setReg, Cpu.setReg]
  split
  · rw [hregs]
  · rw [hregs]

/-- An instruction that writes a register and goes on. -/
theorem execWrite_agrees {emitted : Code × Effect} (heff : emitted.2 = .seq)
    (hcode : Falls h emitted.1 c (c.setReg rd v)) :
    ∃ r, (atInst c guestPc size).execWrite rd v = some r ∧
      Agrees h emitted c (guestPc + size) r := by
  refine ⟨_, rfl, rfl, ?_⟩
  rw [heff]
  refine ⟨?_, rfl⟩
  rw [← setReg_regs c (atInst c guestPc size) rfl] at hcode
  exact hcode

/-- An instruction that goes to an even target and may link. -/
theorem execJump_agrees {emitted : Code × Effect} {link : Cpu → Cpu} (heff : emitted.2 = .terminal)
    (heven : IsEven target) (hcode : Leaves h emitted.1 c
      { c with regs := (link (atInst c guestPc size)).regs } target) :
    ∃ r, (atInst c guestPc size).execJump target link = some r ∧
      Agrees h emitted c (guestPc + size) r := by
  have hrun : (atInst c guestPc size).execJump target link =
      some ((link (atInst c guestPc size)).retire target) := if_neg (not_not.mpr heven)
  rw [hrun]
  refine ⟨_, rfl, rfl, ?_⟩
  rw [heff]
  exact hcode

/-- An instruction that goes to an even target or on. -/
theorem execBranch_agrees {emitted : Code × Effect} {op : BranchOp} {imm : U64}
    (heff : emitted.2 = .terminal) (heven : IsEven (guestPc + imm))
    (hcode : Leaves h emitted.1 c c
      (if op.taken (c.reg rs1) (c.reg rs2) then guestPc + imm else guestPc + size)) :
    ∃ r, (atInst c guestPc size).execBranch op rs1 rs2 imm = some r ∧
      Agrees h emitted c (guestPc + size) r := by
  by_cases htaken : op.taken (c.reg rs1) (c.reg rs2) = true
  · rw [if_pos htaken] at hcode
    have hrun : (atInst c guestPc size).execBranch op rs1 rs2 imm =
        (atInst c guestPc size).execJump (guestPc + imm) id := if_pos htaken
    rw [hrun]
    exact execJump_agrees heff heven hcode
  · rw [if_neg htaken] at hcode
    have hrun : (atInst c guestPc size).execBranch op rs1 rs2 imm =
        some ((atInst c guestPc size).retire (guestPc + size)) := if_neg htaken
    refine ⟨_, hrun, rfl, ?_⟩
    rw [heff]
    exact hcode

/-- Code with the outcome of an instruction agrees with the interpreter. -/
theorem agrees_of_does {emitted : Code × Effect} (hrange : inst.InRange)
    (hinline : inlined inst = true) (heven : IsEven guestPc) (heff : emitted.2 = effectOf inst)
    (hdoes : Does h emitted.1 c (native inst guestPc (guestPc + size) c)) :
    ∃ r, execute fpu inst (atInst c guestPc size) = some r ∧
      Agrees h emitted c (guestPc + size) r := by
  cases inst with
  | op | opImm | shift | lui | auipc => exact execWrite_agrees heff hdoes
  | fence =>
      refine ⟨_, rfl, rfl, ?_⟩
      rw [heff]
      exact ⟨hdoes, rfl⟩
  | branch op rs1 rs2 imm => exact execBranch_agrees heff (heven.add hrange) hdoes
  | jal rd imm =>
      change Leaves h _ c (c.setReg rd (guestPc + size)) (guestPc + imm) at hdoes
      rw [← setReg_regs c (atInst c guestPc size) rfl] at hdoes
      exact execJump_agrees heff (heven.add hrange) hdoes
  | jalr rd rs1 imm =>
      change Leaves h _ c (c.setReg rd (guestPc + size))
        ((c.reg rs1 + imm) &&& ~~~(1 : U64)) at hdoes
      rw [← setReg_regs c (atInst c guestPc size) rfl] at hdoes
      exact execJump_agrees heff (isEven_clear _) hdoes
  | _ => cases hinline

theorem emitInst_agrees (hrange : inst.InRange) (hinline : inlined inst = true)
    (hzero : c.regs 0 = 0) (heven : IsEven guestPc) :
    ∃ r, execute fpu inst (atInst c guestPc size) = some r ∧
      Agrees h (emitInst h guestPc (guestPc + size) inst) c (guestPc + size) r := by
  have hhandled := (handled_iff h guestPc (guestPc + size) inst).mpr (Or.inl hinline)
  obtain ⟨heff, hdoes⟩ := emitInst_does hrange hhandled hzero
  exact agrees_of_does hrange hinline heven heff hdoes

/-- A full encoding of an inlined instruction is compiled, and its code agrees with the
interpreter. -/
theorem full_agrees (raw : U32) (hdec : decode raw = .ok inst) (hinline : inlined inst = true)
    (hzero : c.regs 0 = 0) (heven : IsEven guestPc) :
    (emitInst h guestPc (guestPc + 4) inst).2 ≠ .unhandled ∧
      ∃ r, execute fpu inst (atInst c guestPc 4) = some r ∧
        Agrees h (emitInst h guestPc (guestPc + 4) inst) c (guestPc + 4) r :=
  ⟨(handled_iff h guestPc (guestPc + 4) inst).mpr (Or.inl hinline),
    emitInst_agrees (decode_inRange hdec) hinline hzero heven⟩

end

/-- A layout with the registers first in the hart. -/
def layoutHost : Host where
  regs := 0x10000
  cpu := 0x10000
  pcOffset := 0x200
  loadHelper := fun w => 0x400000 + BitVec.ofNat 64 w.bytes
  storeHelper := fun w => 0x500000 + BitVec.ofNat 64 w.bytes
  scratch := fun _ => 0
  fresh := 0
  pc_apart := by decide
  load_inj := by intro w w' h; cases w <;> cases w' <;> first | rfl | exact absurd h (by decide)
  store_inj := by intro w w' h; cases w <;> cases w' <;> first | rfl | exact absurd h (by decide)
  apart := by intro w w'; cases w <;> cases w' <;> decide

/-- A hart in M-mode at the start of RAM. -/
def startHart : Cpu := Cpu.new (Bus.new 0x1000 0x8000_0000) 0x8000_0000

/-- `ADDI` of a register to itself. -/
theorem layoutHost_addi :
    (emitInst layoutHost 0x8000_0000 (0x8000_0000 + 4) (.opImm .addi 1 1 1)).2 ≠ .unhandled ∧
      ∃ r, execute default (.opImm .addi 1 1 1) (atInst startHart 0x8000_0000 4) = some r ∧
        Agrees layoutHost (emitInst layoutHost 0x8000_0000 (0x8000_0000 + 4) (.opImm .addi 1 1 1))
          startHart (0x8000_0000 + 4) r :=
  full_agrees 0x0010_8093 (by decide) rfl rfl (by decide)

end RiscvEmu.Jit

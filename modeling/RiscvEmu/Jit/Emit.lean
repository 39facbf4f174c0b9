import RiscvEmu.Jit.Host
import RiscvEmu.Cpu.DecodeRvc

/-!
# Code emission

The machine code of a block and of the instructions in it.  Inside a block `r15` is the address
of the register file and `r14` that of the hart.  Code for an instruction goes on with the code of
the next one, or leaves the block with the next program counter in `rax`, all ones for the slow
path.

The emitter picks a fresh label for every jump.  All jumps go forward to a label of the same
template, so a name for each place in a template is enough.
-/

namespace RiscvEmu.Jit

open X86 (Operand Cond)

/-- The places code jumps to. -/
inductive Label where
  | fault | skipFault | taken | notZero | noOverflow | done
  deriving DecidableEq, Repr

abbrev Code := List (X86.Instr Label)

/-- What became of an instruction: its code goes on, its code leaves the block, or there is no
code for it. -/
inductive Effect where
  | seq
  | terminal
  | unhandled
  deriving DecidableEq, Repr

/-- The displacement of a register in the register file. -/
def regOff (r : Reg) : U32 := BitVec.ofNat 32 (r.val * 8)

/-- The memory operand of a register. -/
def regMem (r : Reg) : Operand := .mem .r15 (regOff r)

/-! ## Blocks -/

def emitPrologue : Code :=
  [.push .r15, .push .r14, .subRsp, .mov .qword .r15 (.reg .rdi), .mov .qword .r14 (.reg .rsi)]

/-- Give the stack frame back. -/
def restore : Code := [.addRsp, .pop .r14, .pop .r15]

def emitReturn (nextPc : U64) : Code := restore ++ [.movAbs .rax nextPc, .ret]

def emitSlowPath : Code := restore ++ [.movAbs .rax u64Max, .ret]

/-- The slow path at an instruction in the middle of a block. -/
def emitFaultReturn (h : Host) (faultPc : U64) : Code :=
  [.movAbs .rax faultPc, .store .r14 h.pcOffset .rax] ++ restore ++ [.movAbs .rax u64Max, .ret]

/-! ## Instruction patterns -/

/-- Write the result to a register. -/
def writeBack (rd : Reg) : Code := if rd ≠ 0 then [.store .r15 (regOff rd) .rax] else []

def emitLoad (h : Host) (rd rs1 : Reg) (imm helper guestPc : U64) : Code :=
  [.mov .qword .rsi (regMem rs1), .alu .add .qword .rsi (.imm (imm.setWidth 32)),
    .mov .qword .rdi (.reg .r14), .movAbs .rax helper, .call .rax,
    .cmp .qword .rax (.imm (-1)), .jcc .e .fault]
  ++ writeBack rd ++ [.jmp .skipFault, .label .fault] ++ emitFaultReturn h guestPc
  ++ [.label .skipFault]

def emitStore (h : Host) (rs1 rs2 : Reg) (imm helper guestPc : U64) : Code :=
  [.mov .qword .rsi (regMem rs1), .alu .add .qword .rsi (.imm (imm.setWidth 32)),
    .mov .qword .rdx (regMem rs2), .mov .qword .rdi (.reg .r14), .movAbs .rax helper, .call .rax,
    .cmp .qword .rax (.imm (-1)), .jcc .e .fault]
  ++ [.jmp .skipFault, .label .fault] ++ emitFaultReturn h guestPc ++ [.label .skipFault]

def emitROp (rd rs1 rs2 : Reg) (op : Code) : Code :=
  [.mov .qword .rax (regMem rs1), .mov .qword .rcx (regMem rs2)] ++ op ++ writeBack rd

def emitIOp (rd rs1 : Reg) (imm : U64) (op : U32 → Code) : Code :=
  [.mov .qword .rax (regMem rs1)] ++ op (imm.setWidth 32) ++ writeBack rd

def emitWOp (rd rs1 rs2 : Reg) (op : Code) : Code :=
  [.mov .dword .rax (regMem rs1), .mov .dword .rcx (regMem rs2)] ++ op
  ++ [.movsx 32 .rax (.reg .rax)] ++ writeBack rd

/-- A 64-bit shift by a register. -/
def emitShift (rd rs1 rs2 : Reg) (op : X86.Shift) : Code :=
  emitROp rd rs1 rs2 [.alu .and .qword .rcx (.imm 63), .shift op .qword .rax .cl]

/-- A 32-bit shift by a register. -/
def emitShiftW (rd rs1 rs2 : Reg) (op : X86.Shift) : Code :=
  emitWOp rd rs1 rs2 [.alu .and .dword .rcx (.imm 31), .shift op .dword .rax .cl]

/-- A comparison whose outcome is the result. -/
def emitSet (rd rs1 : Reg) (src : Operand) (cond : Cond) : Code :=
  [.mov .qword .rax (regMem rs1), .cmp .qword .rax src, .setcc cond .rax, .movzx8 .rax .rax]
  ++ writeBack rd

/-- A 64-bit shift by a constant. -/
def emitShiftImm (rd rs1 : Reg) (shamt : U32) (op : X86.Shift) : Code :=
  [.mov .qword .rax (regMem rs1), .shift op .qword .rax (.imm (shamt.setWidth 8))] ++ writeBack rd

/-- A 32-bit shift by a constant. -/
def emitShiftImmW (rd rs1 : Reg) (shamt : U32) (op : X86.Shift) : Code :=
  [.mov .dword .rax (regMem rs1), .shift op .dword .rax (.imm (shamt.setWidth 8)),
    .movsx 32 .rax (.reg .rax)] ++ writeBack rd

/-! ## Division -/

/-- Jump over the code for a zero divisor, and then run it. -/
def onZero (sz : X86.Size) (code : Code) : Code :=
  [.test sz .rcx .rcx, .jcc .ne .notZero] ++ code ++ [.jmp .done, .label .notZero]

/-- The code for the quotient that overflows, jumped over by every other division. -/
def onOverflow (min : U64) (code : Code) : Code :=
  [.movAbs .rdx min, .cmp .qword .rax (.reg .rdx), .jcc .ne .noOverflow,
    .cmp .qword .rcx (.imm (-1)), .jcc .ne .noOverflow] ++ code
  ++ [.jmp .done, .label .noOverflow]

/-- The value `i64::MIN`. -/
def i64Min : U64 := 0x8000_0000_0000_0000

/-- The value `i32::MIN`, sign-extended. -/
def i32Min : U64 := 0xFFFF_FFFF_8000_0000

def emitDiv (rd rs1 rs2 : Reg) : Code :=
  [.mov .qword .rax (regMem rs1), .mov .qword .rcx (regMem rs2)]
  ++ onZero .qword [.movAbs .rax u64Max] ++ onOverflow i64Min []
  ++ [.cqo, .idiv .rcx, .label .done] ++ writeBack rd

def emitDivu (rd rs1 rs2 : Reg) : Code :=
  [.mov .qword .rax (regMem rs1), .mov .qword .rcx (regMem rs2)]
  ++ onZero .qword [.movAbs .rax u64Max]
  ++ [.alu .xor .qword .rdx (.reg .rdx), .div .qword .rcx, .label .done] ++ writeBack rd

def emitRem (rd rs1 rs2 : Reg) : Code :=
  [.mov .qword .rax (regMem rs1), .mov .qword .rcx (regMem rs2)]
  ++ onZero .qword [] ++ onOverflow i64Min [.alu .xor .dword .rax (.reg .rax)]
  ++ [.cqo, .idiv .rcx, .mov .qword .rax (.reg .rdx), .label .done] ++ writeBack rd

def emitRemu (rd rs1 rs2 : Reg) : Code :=
  [.mov .qword .rax (regMem rs1), .mov .qword .rcx (regMem rs2)]
  ++ onZero .qword []
  ++ [.alu .xor .qword .rdx (.reg .rdx), .div .qword .rcx, .mov .qword .rax (.reg .rdx),
    .label .done] ++ writeBack rd

def emitDivw (rd rs1 rs2 : Reg) : Code :=
  [.movsx 32 .rax (regMem rs1), .movsx 32 .rcx (regMem rs2)]
  ++ onZero .qword [.movAbs .rax u64Max] ++ onOverflow i32Min []
  ++ [.cqo, .idiv .rcx, .movsx 32 .rax (.reg .rax), .label .done] ++ writeBack rd

def emitDivuw (rd rs1 rs2 : Reg) : Code :=
  [.mov .dword .rax (regMem rs1), .mov .dword .rcx (regMem rs2)]
  ++ onZero .dword [.movAbs .rax u64Max]
  ++ [.alu .xor .dword .rdx (.reg .rdx), .div .dword .rcx, .movsx 32 .rax (.reg .rax),
    .label .done] ++ writeBack rd

def emitRemw (rd rs1 rs2 : Reg) : Code :=
  [.movsx 32 .rax (regMem rs1), .movsx 32 .rcx (regMem rs2)]
  ++ onZero .qword [.movsx 32 .rax (.reg .rax)]
  ++ onOverflow i32Min [.alu .xor .dword .rax (.reg .rax)]
  ++ [.cqo, .idiv .rcx, .movsx 32 .rax (.reg .rdx), .label .done] ++ writeBack rd

def emitRemuw (rd rs1 rs2 : Reg) : Code :=
  [.mov .dword .rax (regMem rs1), .mov .dword .rcx (regMem rs2)]
  ++ onZero .dword [.movsx 32 .rax (.reg .rax)]
  ++ [.alu .xor .dword .rdx (.reg .rdx), .div .dword .rcx, .movsx 32 .rax (.reg .rdx),
    .label .done] ++ writeBack rd

/-! ## Instruction families -/

/-- Register-register operations.  `MULHSU` has no code. -/
def emitOp (rd rs1 rs2 : Reg) : ROp → Option Code
  | .add => some (emitROp rd rs1 rs2 [.alu .add .qword .rax (.reg .rcx)])
  | .sub => some (emitROp rd rs1 rs2 [.alu .sub .qword .rax (.reg .rcx)])
  | .and => some (emitROp rd rs1 rs2 [.alu .and .qword .rax (.reg .rcx)])
  | .or => some (emitROp rd rs1 rs2 [.alu .or .qword .rax (.reg .rcx)])
  | .xor => some (emitROp rd rs1 rs2 [.alu .xor .qword .rax (.reg .rcx)])
  | .sll => some (emitShift rd rs1 rs2 .shl)
  | .srl => some (emitShift rd rs1 rs2 .shr)
  | .sra => some (emitShift rd rs1 rs2 .sar)
  | .slt => some (emitSet rd rs1 (regMem rs2) .l)
  | .sltu => some (emitSet rd rs1 (regMem rs2) .b)
  | .addw => some (emitWOp rd rs1 rs2 [.alu .add .dword .rax (.reg .rcx)])
  | .subw => some (emitWOp rd rs1 rs2 [.alu .sub .dword .rax (.reg .rcx)])
  | .sllw => some (emitShiftW rd rs1 rs2 .shl)
  | .srlw => some (emitShiftW rd rs1 rs2 .shr)
  | .sraw => some (emitShiftW rd rs1 rs2 .sar)
  | .mul => some (emitROp rd rs1 rs2 [.imul .qword .rax (.reg .rcx)])
  | .mulh => some (emitROp rd rs1 rs2 [.imulWide .rcx, .mov .qword .rax (.reg .rdx)])
  | .mulhu => some (emitROp rd rs1 rs2 [.mulWide .rcx, .mov .qword .rax (.reg .rdx)])
  | .mulhsu => none
  | .mulw =>
      some ([.mov .dword .rax (regMem rs1), .imul .dword .rax (regMem rs2),
        .movsx 32 .rax (.reg .rax)] ++ writeBack rd)
  | .div => some (emitDiv rd rs1 rs2)
  | .divu => some (emitDivu rd rs1 rs2)
  | .rem => some (emitRem rd rs1 rs2)
  | .remu => some (emitRemu rd rs1 rs2)
  | .divw => some (emitDivw rd rs1 rs2)
  | .divuw => some (emitDivuw rd rs1 rs2)
  | .remw => some (emitRemw rd rs1 rs2)
  | .remuw => some (emitRemuw rd rs1 rs2)

/-- Register-immediate operations. -/
def emitOpImm (rd rs1 : Reg) (imm : U64) : IOp → Code
  | .addi => emitIOp rd rs1 imm fun imm32 => [.alu .add .qword .rax (.imm imm32)]
  | .andi => emitIOp rd rs1 imm fun imm32 => [.alu .and .qword .rax (.imm imm32)]
  | .ori => emitIOp rd rs1 imm fun imm32 => [.alu .or .qword .rax (.imm imm32)]
  | .xori => emitIOp rd rs1 imm fun imm32 => [.alu .xor .qword .rax (.imm imm32)]
  | .slti => emitSet rd rs1 (.imm (imm.setWidth 32)) .l
  | .sltiu => emitSet rd rs1 (.imm (imm.setWidth 32)) .b
  | .addiw =>
      [.mov .dword .rax (regMem rs1), .alu .add .dword .rax (.imm (imm.setWidth 32)),
        .movsx 32 .rax (.reg .rax)] ++ writeBack rd

/-- Shifts by a constant. -/
def emitOpShift (rd rs1 : Reg) (shamt : U32) : ShiftOp → Code
  | .slli => emitShiftImm rd rs1 shamt .shl
  | .srli => emitShiftImm rd rs1 shamt .shr
  | .srai => emitShiftImm rd rs1 shamt .sar
  | .slliw => emitShiftImmW rd rs1 shamt .shl
  | .srliw => emitShiftImmW rd rs1 shamt .shr
  | .sraiw => emitShiftImmW rd rs1 shamt .sar

/-- Put a constant in a register. -/
def emitConst (rd : Reg) (v : U64) : Code :=
  if rd ≠ 0 then [.movAbs .rax v, .store .r15 (regOff rd) .rax] else []

/-- Extend the sign of a loaded value, in the register it was loaded into. -/
def extendLoaded (rd : Reg) (n : Nat) : Code :=
  if rd ≠ 0 then [.movsx n .rax (regMem rd), .store .r15 (regOff rd) .rax] else []

def emitOpLoad (h : Host) (rd rs1 : Reg) (imm guestPc : U64) : LoadOp → Code
  | .lb => emitLoad h rd rs1 imm (h.loadHelper .b1) guestPc ++ extendLoaded rd 8
  | .lh => emitLoad h rd rs1 imm (h.loadHelper .b2) guestPc ++ extendLoaded rd 16
  | .lw => emitLoad h rd rs1 imm (h.loadHelper .b4) guestPc ++ extendLoaded rd 32
  | .ld => emitLoad h rd rs1 imm (h.loadHelper .b8) guestPc
  | .lbu => emitLoad h rd rs1 imm (h.loadHelper .b1) guestPc
  | .lhu => emitLoad h rd rs1 imm (h.loadHelper .b2) guestPc
  | .lwu => emitLoad h rd rs1 imm (h.loadHelper .b4) guestPc

def emitOpStore (h : Host) (rs1 rs2 : Reg) (imm guestPc : U64) : StoreOp → Code
  | .sb => emitStore h rs1 rs2 imm (h.storeHelper .b1) guestPc
  | .sh => emitStore h rs1 rs2 imm (h.storeHelper .b2) guestPc
  | .sw => emitStore h rs1 rs2 imm (h.storeHelper .b4) guestPc
  | .sd => emitStore h rs1 rs2 imm (h.storeHelper .b8) guestPc

/-- The condition of a branch. -/
def branchCond : BranchOp → Cond
  | .beq => .e
  | .bne => .ne
  | .blt => .l
  | .bge => .ge
  | .bltu => .b
  | .bgeu => .ae

/-- Leave the block at one of two addresses. -/
def emitChoice (cond : Cond) (fallPc takenPc : U64) : Code :=
  [.jcc cond .taken] ++ emitReturn fallPc ++ [.label .taken] ++ emitReturn takenPc

def emitBranch (rs1 rs2 : Reg) (imm guestPc nextSeq : U64) (op : BranchOp) : Code :=
  [.mov .qword .rax (regMem rs1), .cmp .qword .rax (regMem rs2)]
  ++ emitChoice (branchCond op) nextSeq (guestPc + imm)

def emitJal (rd : Reg) (imm guestPc nextSeq : U64) : Code :=
  emitConst rd nextSeq ++ emitReturn (guestPc + imm)

/-- Leave the block at the address in `rcx`, with its lowest bit cleared. -/
def emitReturnRcx : Code :=
  [.alu .and .qword .rcx (.imm (-2))] ++ restore ++ [.mov .qword .rax (.reg .rcx), .ret]

def emitJalr (rd rs1 : Reg) (imm nextSeq : U64) : Code :=
  [.mov .qword .rcx (regMem rs1)] ++ emitConst rd nextSeq
  ++ [.alu .add .qword .rcx (.imm (imm.setWidth 32))] ++ emitReturnRcx

/-- The code of a decoded full instruction at an address. -/
def emitInst (h : Host) (guestPc nextSeq : U64) (inst : Instruction) : Code × Effect :=
  match inst with
  | .op op rd rs1 rs2 =>
      match emitOp rd rs1 rs2 op with
      | some code => (code, .seq)
      | none => ([], .unhandled)
  | .opImm op rd rs1 imm => (emitOpImm rd rs1 imm op, .seq)
  | .shift op rd rs1 shamt => (emitOpShift rd rs1 shamt op, .seq)
  | .lui rd imm => (emitConst rd imm, .seq)
  | .auipc rd imm => (emitConst rd (guestPc + imm), .seq)
  | .load op rd rs1 imm => (emitOpLoad h rd rs1 imm guestPc op, .seq)
  | .store op rs1 rs2 imm => (emitOpStore h rs1 rs2 imm guestPc op, .seq)
  | .branch op rs1 rs2 imm => (emitBranch rs1 rs2 imm guestPc nextSeq op, .terminal)
  | .jal rd imm => (emitJal rd imm guestPc nextSeq, .terminal)
  | .jalr rd rs1 imm => (emitJalr rd rs1 imm nextSeq, .terminal)
  | .fence => ([], .seq)
  | _ => ([], .unhandled)

end RiscvEmu.Jit

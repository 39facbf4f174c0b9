import RiscvEmu.Cpu.Fpu

/-!
# Instruction execution

`execute` runs one decoded instruction.  The result is the hart afterwards together with the
exception the instruction delivered, if it did.  An instruction that delivers one is not done
with its arm: what the arm wrote before, and what follows after the match, both stay.

Families of instructions have one definition each, over tables from the operation to the
function on words it computes.
-/

namespace RiscvEmu

/-- Sign-extend a value from the given bit. -/
def sext (val : U64) (bit : Nat) : U64 := (val <<< (63 - bit)).sshiftRight (63 - bit)

/-- The low half of a value. -/
def lo32 (v : U64) : U32 := v.setWidth 32

/-! ## Integer operations -/

/-- Signed division, with the results for a zero divisor and for overflow. -/
def sdiv {w : Nat} (a b : BitVec w) : BitVec w :=
  if b = 0 then -1
  else if a = BitVec.intMin w ∧ b = -1 then BitVec.intMin w
  else a.sdiv b

/-- Signed remainder, with the results for a zero divisor and for overflow. -/
def srem {w : Nat} (a b : BitVec w) : BitVec w :=
  if b = 0 then a
  else if a = BitVec.intMin w ∧ b = -1 then 0
  else a.srem b

/-- Unsigned division, with the result for a zero divisor. -/
def udiv {w : Nat} (a b : BitVec w) : BitVec w := if b = 0 then -1 else a / b

/-- Unsigned remainder, with the result for a zero divisor. -/
def urem {w : Nat} (a b : BitVec w) : BitVec w := if b = 0 then a else a % b

/-- The high half of a 128-bit product. -/
def mulHigh (a b : BitVec 128) : U64 := (a * b).extractLsb' 64 64

/-- A 32-bit result as a register value. -/
def signed32 (v : U32) : U64 := sext (v.signExtend 64) 31

/-- A 32-bit result that the source zero-extends before it extends the sign. -/
def unsigned32 (v : U32) : U64 := sext (v.setWidth 64) 31

/-- The value of a register-register operation. -/
def ROp.eval : ROp → U64 → U64 → U64
  | add, a, b => a + b
  | sub, a, b => a - b
  | sll, a, b => a <<< (b &&& 0x3f)
  | slt, a, b => boolToU64 (a.slt b)
  | sltu, a, b => boolToU64 (a.ult b)
  | xor, a, b => a ^^^ b
  | srl, a, b => a >>> (b &&& 0x3f)
  | sra, a, b => a.sshiftRight' (b &&& 0x3f)
  | or, a, b => a ||| b
  | and, a, b => a &&& b
  | mul, a, b => ((a.signExtend 128) * (b.signExtend 128)).setWidth 64
  | mulh, a, b => mulHigh (a.signExtend 128) (b.signExtend 128)
  | mulhsu, a, b => mulHigh (a.signExtend 128) (b.setWidth 128)
  | mulhu, a, b => mulHigh (a.setWidth 128) (b.setWidth 128)
  | div, a, b => sdiv a b
  | divu, a, b => udiv a b
  | rem, a, b => srem a b
  | remu, a, b => urem a b
  | addw, a, b => sext (a + b) 31
  | subw, a, b => sext (a - b) 31
  | sllw, a, b => sext (a <<< (b &&& 0x1f)) 31
  | srlw, a, b => unsigned32 (lo32 a >>> (b &&& 0x1f))
  | sraw, a, b => signed32 ((lo32 a).sshiftRight' (b &&& 0x1f))
  | mulw, a, b => signed32 (lo32 a * lo32 b)
  | divw, a, b => signed32 (sdiv (lo32 a) (lo32 b))
  | divuw, a, b => unsigned32 (udiv (lo32 a) (lo32 b))
  | remw, a, b => signed32 (srem (lo32 a) (lo32 b))
  | remuw, a, b => unsigned32 (urem (lo32 a) (lo32 b))

/-- The value of a register-immediate operation. -/
def IOp.eval : IOp → U64 → U64 → U64
  | addi, a, imm => a + imm
  | slti, a, imm => boolToU64 (a.slt imm)
  | sltiu, a, imm => boolToU64 (a.ult imm)
  | xori, a, imm => a ^^^ imm
  | ori, a, imm => a ||| imm
  | andi, a, imm => a &&& imm
  | addiw, a, imm => sext (a + imm) 31

/-- The value of a shift by a constant. -/
def ShiftOp.eval : ShiftOp → U64 → U32 → U64
  | slli, a, shamt => a <<< shamt
  | srli, a, shamt => a >>> shamt
  | srai, a, shamt => a.sshiftRight' shamt
  | slliw, a, shamt => sext (a <<< shamt) 31
  | srliw, a, shamt => unsigned32 (lo32 a >>> shamt)
  | sraiw, a, shamt => signed32 ((lo32 a).sshiftRight' shamt)

/-- Whether a branch is taken. -/
def BranchOp.taken : BranchOp → U64 → U64 → Bool
  | beq, a, b => decide (a = b)
  | bne, a, b => decide (a ≠ b)
  | blt, a, b => a.slt b
  | bge, a, b => !a.slt b
  | bltu, a, b => a.ult b
  | bgeu, a, b => !a.ult b

/-! ## Memory operations -/

def LoadOp.width : LoadOp → Width
  | lb | lbu => .b1
  | lh | lhu => .b2
  | lw | lwu => .b4
  | ld => .b8

/-- The register value of a loaded word. -/
def LoadOp.extend : LoadOp → U64 → U64
  | lb, v => sext v 7
  | lh, v => sext v 15
  | lw, v => sext v 31
  | ld, v | lbu, v | lhu, v | lwu, v => v

def StoreOp.width : StoreOp → Width
  | sb => .b1
  | sh => .b2
  | sw => .b4
  | sd => .b8

def AmoWidth.width : AmoWidth → Width
  | w => .b4
  | d => .b8

/-- The register value of an atomically loaded word. -/
def AmoWidth.extend : AmoWidth → U64 → U64
  | w, v => sext v 31
  | d, v => v

/-- The value an atomic stores, from the extended old value and the second operand. -/
def AmoOp.eval : AmoOp → AmoWidth → U64 → U64 → U64
  | amoswap, _, _, b => b
  | amoadd, _, old, b => old + b
  | amoxor, _, old, b => old ^^^ b
  | amoand, _, old, b => old &&& b
  | amoor, _, old, b => old ||| b
  | amomin, .d, old, b => if old.slt b then old else b
  | amomin, .w, old, b => if (lo32 old).slt (lo32 b) then old else sext b 31
  | amomax, .d, old, b => if b.slt old then old else b
  | amomax, .w, old, b => if (lo32 b).slt (lo32 old) then old else sext b 31
  | amominu, .d, old, b => if old ≤ b then old else b
  | amominu, .w, old, b => if (lo32 old).ult (lo32 b) then old else (lo32 b).setWidth 64
  | amomaxu, .d, old, b => if b < old then old else b
  | amomaxu, .w, old, b => if (lo32 b).ult (lo32 old) then old else (lo32 b).setWidth 64

/-! ## Retirement -/

/-- The hart after an instruction, and the exception the instruction delivered. -/
structure Retired where
  cpu : Cpu
  trap : Option Trap

namespace Cpu

/-- The instruction is done, and the next one is at the given address. -/
def retire (c : Cpu) (nextPc : U64) : Retired := ⟨{ c with pc := nextPc }, none⟩

/-- The instruction delivers an exception.  The hart goes on at the handler. -/
def raise (c : Cpu) (t : Trap) : Retired := ⟨c.deliverTrap t.cause t.tval, some t⟩

/-- The address of the following instruction. -/
def nextPc (c : Cpu) : U64 := c.pc + c.instSize

/-- Run a memory operation, deliver the trap it ends with, or go on with its result. -/
def orRaise {α : Type} (m : Run Cpu Trap α) (k : α → Cpu → Option Retired) (c : Cpu) :
    Option Retired :=
  match m c with
  | none => none
  | some (.error t, c') => some (c'.raise t)
  | some (.ok a, c') => k a c'

/-! ## Instruction families -/

/-- Write a register and go on. -/
def execWrite (c : Cpu) (rd : Reg) (val : U64) : Option Retired :=
  some ((c.setReg rd val).retire c.nextPc)

/-- Go to a target, which must be even. -/
def execJump (c : Cpu) (target : U64) (link : Cpu → Cpu) : Option Retired :=
  if target &&& 0x1 ≠ 0 then some (c.raise ⟨0, target⟩) else some ((link c).retire target)

def execBranch (c : Cpu) (op : BranchOp) (rs1 rs2 : Reg) (imm : U64) : Option Retired :=
  if op.taken (c.reg rs1) (c.reg rs2) then c.execJump (c.pc + imm) id
  else some (c.retire c.nextPc)

def execJal (c : Cpu) (rd : Reg) (imm : U64) : Option Retired :=
  c.execJump (c.pc + imm) fun c' => c'.setReg rd c.nextPc

def execJalr (c : Cpu) (rd rs1 : Reg) (imm : U64) : Option Retired :=
  c.execJump ((c.reg rs1 + imm) &&& ~~~(1 : U64)) fun c' => c'.setReg rd c.nextPc

/-- Load and give the value to a destination. -/
def execLoad (c : Cpu) (rs1 : Reg) (imm : U64) (width : Width) (dest : U64 → Cpu → Cpu) :
    Option Retired :=
  orRaise (mmuLoad c.lsMode (c.reg rs1 + imm) width)
    (fun v c' => some ((dest v c').retire c.nextPc)) c

def execStore (c : Cpu) (rs1 : Reg) (imm : U64) (width : Width) (val : U64) : Option Retired :=
  orRaise (mmuStore c.lsMode (c.reg rs1 + imm) width val)
    (fun _ c' => some (c'.retire c.nextPc)) c

/-- The value of a single that is loaded into a floating-point register. -/
def flwValue (v : U64) : U64 := 0xFFFF_FFFF_0000_0000 ||| (v &&& 0xFFFF_FFFF)

/-- Apply the result of a floating-point operation.  The code after the match marks the state
dirty, also after an exception that does not return at once. -/
def execFp (c : Cpu) (rd : Reg) : FpResult → Option Retired
  | .freg val => some ((c.setFreg rd val).markFsDirty.retire c.nextPc)
  | .ireg val => some ((c.setReg rd val).markFsDirty.retire c.nextPc)
  | .illegalReturn => some (c.raise ⟨2, 0⟩)
  | .illegalFallthrough =>
      let r := c.raise ⟨2, 0⟩
      some { r with cpu := r.cpu.markFsDirty }

/-- The exception cause of an environment call. -/
def ecallCause : PrivMode → U64
  | .u => 8
  | .s => 9
  | .m => 11

/-- The mode an `MPP` field names. -/
def modeOfMpp (mpp : U64) : PrivMode :=
  match mpp with
  | 0#64 => .u
  | 1#64 => .s
  | _ => .m

def execMret (c : Cpu) : Option Retired :=
  let mpp := (c.csr.mstatus >>> 11) &&& 3
  let csr := c.csr.mret
  let csr :=
    if mpp ≠ 3 then { csr with mstatus := csr.mstatus &&& ~~~(1 <<< 17 : U64) } else csr
  some ({ c with mode := modeOfMpp mpp, csr := csr }.retire csr.mepc)

/-- Return from an S-mode trap, which `TSR` forbids in S-mode. -/
def execSret (c : Cpu) : Option Retired :=
  if c.mode = .s ∧ (c.csr.mstatus >>> 22) &&& 1 ≠ 0 then some (c.raise ⟨2, 0x1020_0073⟩)
  else
    let spp := (c.csr.mstatus >>> 8) &&& 1
    let csr := { c.csr with mstatus := c.csr.mstatus &&& ~~~(1 <<< 17 : U64) }.sRet
    some ({ c with mode := if spp = 1 then .s else .u, csr := csr }.retire csr.sepc)

/-- Whether `TVM` forbids the hart to touch the translation. -/
def tvmTraps (c : Cpu) : Bool :=
  decide (c.mode = .s) && decide ((c.csr.mstatus >>> 20) &&& 1 ≠ 0)

def execSfenceVma (c : Cpu) : Option Retired :=
  if c.tvmTraps then some (c.raise ⟨2, 0⟩)
  else some ({ c with mmu := c.mmu.flush }.retire c.nextPc)

/-- The operand of a CSR instruction. -/
def csrOperand (c : Cpu) : CsrSrc → U64
  | .reg rs1 => c.reg rs1
  | .imm uimm => uimm.setWidth 64

/-- The root field of `satp`. -/
def satpPpn (c : Cpu) : U64 := c.csr.satp &&& 0x0FFF_FFFF_FFFF

/-- A CSR instruction.  A read into register 0 is suppressed for the write form, and a write
from a zero operand field for the others. -/
def execCsr (c : Cpu) (op : CsrOp) (rd : Reg) (src : CsrSrc) (csr : CsrAddr) : Option Retired :=
  if csr = 0x180 ∧ c.tvmTraps then some (c.raise ⟨2, 0⟩)
  else
    let operand := c.csrOperand src
    let old := if op = .csrrw ∧ rd = 0 then 0 else c.csrRead csr
    let writes := op = .csrrw ∨ (src ≠ .reg 0 ∧ src ≠ .imm 0)
    let new :=
      match op with
      | .csrrw => operand
      | .csrrs => old ||| operand
      | .csrrc => old &&& ~~~operand
    let c' := (if writes then c.csrWrite csr new else c).setReg rd old
    let c' :=
      if csr = 0x180 ∧ writes ∧ c'.satpPpn ≠ c.satpPpn then { c' with jitInvalidate := true }
      else c'
    some (c'.retire c.nextPc)

/-- Load-reserved.  Only the first byte of the access is translated. -/
def execLr (c : Cpu) (width : AmoWidth) (rd rs1 : Reg) : Option Retired :=
  let va := c.reg rs1
  orRaise (translateOrTrap c.lsMode va .load) (fun pa =>
    orRaise (busLoad pa width.width ⟨5, va⟩) fun v c' =>
      some ({ c'.setReg rd (width.extend v) with reservation := some pa }.retire c.nextPc)) c

/-- Store-conditional.  A store the bus rejects still counts as done. -/
def execSc (c : Cpu) (width : AmoWidth) (rd rs1 rs2 : Reg) : Option Retired :=
  let va := c.reg rs1
  orRaise (translateOrTrap c.lsMode va .store) (fun pa c' =>
    if c'.reservation = some pa then
      match busStore pa width.width (c'.reg rs2) ⟨7, va⟩ c' with
      | none => none
      | some (_, c') => some ({ c'.setReg rd 0 with reservation := none }.retire c.nextPc)
    else some ({ c'.setReg rd 1 with reservation := none }.retire c.nextPc)) c

/-- Atomic read-modify-write.  A load the bus rejects reads as zero, and a rejected store is
ignored. -/
def execAmo (c : Cpu) (op : AmoOp) (width : AmoWidth) (rd rs1 rs2 : Reg) : Option Retired :=
  let va := c.reg rs1
  orRaise (translateOrTrap c.lsMode va .store) (fun pa c' =>
    match busLoad pa width.width ⟨5, va⟩ c' with
    | none => none
    | some (r, c') =>
        let old := width.extend (match r with | .ok v => v | .error _ => 0)
        match busStore pa width.width (op.eval width old (c'.reg rs2)) ⟨7, va⟩ c' with
        | none => none
        | some (_, c') => some ((c'.setReg rd old).retire c.nextPc)) c

end Cpu

open Cpu

/-- Execute a decoded instruction. -/
def execute (fpu : Fpu) (inst : Instruction) (c : Cpu) : Option Retired :=
  match inst with
  | .op op rd rs1 rs2 => c.execWrite rd (op.eval (c.reg rs1) (c.reg rs2))
  | .opImm op rd rs1 imm => c.execWrite rd (op.eval (c.reg rs1) imm)
  | .shift op rd rs1 shamt => c.execWrite rd (op.eval (c.reg rs1) shamt)
  | .load op rd rs1 imm => c.execLoad rs1 imm op.width fun v c' => c'.setReg rd (op.extend v)
  | .store op rs1 rs2 imm => c.execStore rs1 imm op.width (c.reg rs2)
  | .branch op rs1 rs2 imm => c.execBranch op rs1 rs2 imm
  | .jal rd imm => c.execJal rd imm
  | .jalr rd rs1 imm => c.execJalr rd rs1 imm
  | .lui rd imm => c.execWrite rd imm
  | .auipc rd imm => c.execWrite rd (c.pc + imm)
  | .fence => some (c.retire c.nextPc)
  | .wfi => some (c.retire c.nextPc)
  | .ecall => some (c.raise ⟨ecallCause c.mode, 0⟩)
  | .ebreak => some (c.raise ⟨3, c.pc⟩)
  | .mret => c.execMret
  | .sret => c.execSret
  | .sfenceVma => c.execSfenceVma
  | .csr op rd src csr => c.execCsr op rd src csr
  | .lr width rd rs1 => c.execLr width rd rs1
  | .sc width rd rs1 rs2 => c.execSc width rd rs1 rs2
  | .amo op width rd rs1 rs2 => c.execAmo op width rd rs1 rs2
  | .flw fd rs1 imm => c.execLoad rs1 imm .b4 fun v c' => (c'.setFreg fd (flwValue v)).markFsDirty
  | .fld fd rs1 imm => c.execLoad rs1 imm .b8 fun v c' => (c'.setFreg fd v).markFsDirty
  | .fsw rs1 fs2 imm => c.execStore rs1 imm .b4 (c.fregs fs2)
  | .fsd rs1 fs2 imm => c.execStore rs1 imm .b8 (c.fregs fs2)
  | .opFp funct7 rs2 rs1 rm rd => c.execFp rd (opFpResult fpu c funct7 rs2 rs1 rm)
  | .fma opcode fmt rs3 rs2 rs1 rd => c.execFp rd (fmaFpResult fpu c opcode fmt rs3 rs2 rs1)

end RiscvEmu

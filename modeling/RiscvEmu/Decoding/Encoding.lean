import RiscvEmu.Decoding.Ranges

/-!
# The encoding of instructions

The formats of the unprivileged and privileged specifications.  An encoding is laid out from six
fields, and every format distributes its operands over these fields.  `Inst` lists the
instructions with their operands in the ranges the formats give them, `encode` is their
encoding, and `decoded` is the instruction a decoder is to return for it.
-/

namespace RiscvEmu

/-! ## Fields of a word -/

/-- A shift and a mask take a field out of a word. -/
theorem shift_and_mask {m : Nat} (v : BitVec m) (lo n : Nat) (mask : BitVec m)
    (hmask : mask = (BitVec.allOnes n).setWidth m) :
    (v >>> lo) &&& mask = (v.extractLsb' lo n).setWidth m := by
  subst hmask
  apply BitVec.eq_of_getLsbD_eq
  intro i hi
  simp only [BitVec.getLsbD_and, BitVec.getLsbD_ushiftRight, BitVec.getLsbD_setWidth, hi,
    BitVec.getLsbD_allOnes, BitVec.getLsbD_extractLsb', decide_true, Bool.true_and]
  exact Bool.and_comm _ _

/-- A field of a field. -/
theorem extractLsb'_field {m : Nat} (v : BitVec m) (lo n lo' n' : Nat) (h : lo' + n' ≤ n) :
    (v.extractLsb' lo n).extractLsb' lo' n' = v.extractLsb' (lo + lo') n' := by
  apply BitVec.eq_of_getLsbD_eq
  intro i hi
  simp only [BitVec.getLsbD_extractLsb', hi, show lo' + i < n by omega, decide_true, Bool.true_and,
    Nat.add_assoc]

/-- Two halves of a value. -/
theorem halves {m : Nat} (v : BitVec m) (lo n n' : Nat) :
    v.extractLsb' (lo + n') n ++ v.extractLsb' lo n' = v.extractLsb' lo (n + n') :=
  BitVec.extractLsb'_append_extractLsb'_eq_extractLsb' rfl

namespace Isa

/-! ## Fields of an encoding -/

section

variable (w : U32)

def opcode : BitVec 7 := w.extractLsb' 0 7
def rd : BitVec 5 := w.extractLsb' 7 5
def funct3 : BitVec 3 := w.extractLsb' 12 3
def rs1 : BitVec 5 := w.extractLsb' 15 5
def rs2 : BitVec 5 := w.extractLsb' 20 5
def funct7 : BitVec 7 := w.extractLsb' 25 7

end

/-- The common layout of an encoding. -/
def layout (funct7 : BitVec 7) (rs2 rs1 : BitVec 5) (funct3 : BitVec 3) (rd : BitVec 5)
    (opcode : BitVec 7) : U32 :=
  funct7 ++ rs2 ++ rs1 ++ funct3 ++ rd ++ opcode

section

variable (f7 : BitVec 7) (r2 r1 : BitVec 5) (f3 : BitVec 3) (r : BitVec 5) (op : BitVec 7)

@[simp] theorem opcode_layout : opcode (layout f7 r2 r1 f3 r op) = op :=
  BitVec.extractLsb'_append_eq_right

@[simp] theorem rd_layout : rd (layout f7 r2 r1 f3 r op) = r := by
  rw [rd, layout, BitVec.extractLsb'_append_eq_of_le (by decide)]
  exact BitVec.extractLsb'_append_eq_right

@[simp] theorem funct3_layout : funct3 (layout f7 r2 r1 f3 r op) = f3 := by
  rw [funct3, layout, BitVec.extractLsb'_append_eq_of_le (by decide),
    BitVec.extractLsb'_append_eq_of_le (by decide)]
  exact BitVec.extractLsb'_append_eq_right

@[simp] theorem rs1_layout : rs1 (layout f7 r2 r1 f3 r op) = r1 := by
  rw [rs1, layout, BitVec.extractLsb'_append_eq_of_le (by decide),
    BitVec.extractLsb'_append_eq_of_le (by decide), BitVec.extractLsb'_append_eq_of_le (by decide)]
  exact BitVec.extractLsb'_append_eq_right

@[simp] theorem rs2_layout : rs2 (layout f7 r2 r1 f3 r op) = r2 := by
  rw [rs2, layout, BitVec.extractLsb'_append_eq_of_le (by decide),
    BitVec.extractLsb'_append_eq_of_le (by decide), BitVec.extractLsb'_append_eq_of_le (by decide),
    BitVec.extractLsb'_append_eq_of_le (by decide)]
  exact BitVec.extractLsb'_append_eq_right

@[simp] theorem funct7_layout : funct7 (layout f7 r2 r1 f3 r op) = f7 := by
  rw [funct7, layout, BitVec.extractLsb'_append_eq_of_le (by decide),
    BitVec.extractLsb'_append_eq_of_le (by decide), BitVec.extractLsb'_append_eq_of_le (by decide),
    BitVec.extractLsb'_append_eq_of_le (by decide)]
  exact BitVec.extractLsb'_append_eq_left

end

/-- A word is laid out from its fields. -/
theorem layout_fields (w : U32) :
    layout (funct7 w) (rs2 w) (rs1 w) (funct3 w) (rd w) (opcode w) = w := by
  have h1 : funct7 w ++ rs2 w = w.extractLsb' 20 12 :=
    BitVec.extractLsb'_append_extractLsb'_eq_extractLsb' rfl
  have h2 : w.extractLsb' 20 12 ++ rs1 w = w.extractLsb' 15 17 :=
    BitVec.extractLsb'_append_extractLsb'_eq_extractLsb' rfl
  have h3 : w.extractLsb' 15 17 ++ funct3 w = w.extractLsb' 12 20 :=
    BitVec.extractLsb'_append_extractLsb'_eq_extractLsb' rfl
  have h4 : w.extractLsb' 12 20 ++ rd w = w.extractLsb' 7 25 :=
    BitVec.extractLsb'_append_extractLsb'_eq_extractLsb' rfl
  have h5 : w.extractLsb' 7 25 ++ opcode w = w.extractLsb' 0 32 :=
    BitVec.extractLsb'_append_extractLsb'_eq_extractLsb' rfl
  rw [layout, h1, h2, h3, h4, h5]
  exact BitVec.extractLsb'_eq_self

/-! ## Formats -/

/-- The bits of a register index. -/
def bits (r : Reg) : BitVec 5 := .ofFin r

def rFormat (f7 : BitVec 7) (rs2 rs1 : Reg) (f3 : BitVec 3) (rd : Reg) (op : BitVec 7) : U32 :=
  layout f7 (bits rs2) (bits rs1) f3 (bits rd) op

def iFormat (imm : BitVec 12) (rs1 : Reg) (f3 : BitVec 3) (rd : Reg) (op : BitVec 7) : U32 :=
  layout (imm.extractLsb' 5 7) (imm.extractLsb' 0 5) (bits rs1) f3 (bits rd) op

def sFormat (imm : BitVec 12) (rs2 rs1 : Reg) (f3 : BitVec 3) (op : BitVec 7) : U32 :=
  layout (imm.extractLsb' 5 7) (bits rs2) (bits rs1) f3 (imm.extractLsb' 0 5) op

/-- The offset of a branch is even, and its lowest bit is not encoded. -/
def bFormat (half : BitVec 12) (rs2 rs1 : Reg) (f3 : BitVec 3) (op : BitVec 7) : U32 :=
  layout (half.extractLsb' 11 1 ++ half.extractLsb' 4 6) (bits rs2) (bits rs1) f3
    (half.extractLsb' 0 4 ++ half.extractLsb' 10 1) op

def uFormat (imm : BitVec 20) (rd : Reg) (op : BitVec 7) : U32 :=
  layout (imm.extractLsb' 13 7) (imm.extractLsb' 8 5) (imm.extractLsb' 3 5) (imm.extractLsb' 0 3)
    (bits rd) op

/-- The offset of a jump is even, and its lowest bit is not encoded. -/
def jFormat (half : BitVec 20) (rd : Reg) (op : BitVec 7) : U32 :=
  uFormat (half.extractLsb' 19 1 ++ half.extractLsb' 0 10 ++ half.extractLsb' 10 1
    ++ half.extractLsb' 11 8) rd op

/-! ## Instructions -/

/-- The fused multiply-add instructions. -/
inductive FmaOp where
  | fmadd | fmsub | fnmsub | fnmadd
  deriving DecidableEq, Repr

/-- Instructions, with operands in the ranges of their formats. -/
inductive Inst where
  | op (op : ROp) (rd rs1 rs2 : Reg)
  | opImm (op : IOp) (rd rs1 : Reg) (imm : BitVec 12)
  | shift (op : ShiftOp) (rd rs1 : Reg) (shamt : Fin op.width)
  | load (op : LoadOp) (rd rs1 : Reg) (imm : BitVec 12)
  | store (op : StoreOp) (rs1 rs2 : Reg) (imm : BitVec 12)
  | branch (op : BranchOp) (rs1 rs2 : Reg) (half : BitVec 12)
  | jal (rd : Reg) (half : BitVec 20)
  | jalr (rd rs1 : Reg) (imm : BitVec 12)
  | lui (rd : Reg) (imm : BitVec 20)
  | auipc (rd : Reg) (imm : BitVec 20)
  | fence (sets : BitVec 12) (rd rs1 : Reg)
  | fenceI (imm : BitVec 12) (rd rs1 : Reg)
  | ecall
  | ebreak
  | mret
  | sret
  | wfi
  | sfenceVma (rs1 rs2 : Reg)
  | csr (op : CsrOp) (rd rs1 : Reg) (csr : CsrAddr)
  | csrImm (op : CsrOp) (rd : Reg) (uimm : BitVec 5) (csr : CsrAddr)
  | lr (width : AmoWidth) (aqrl : BitVec 2) (rd rs1 : Reg)
  | sc (width : AmoWidth) (aqrl : BitVec 2) (rd rs1 rs2 : Reg)
  | amo (op : AmoOp) (width : AmoWidth) (aqrl : BitVec 2) (rd rs1 rs2 : Reg)
  | flw (fd rs1 : Reg) (imm : BitVec 12)
  | fld (fd rs1 : Reg) (imm : BitVec 12)
  | fsw (rs1 fs2 : Reg) (imm : BitVec 12)
  | fsd (rs1 fs2 : Reg) (imm : BitVec 12)
  | opFp (f7 : BitVec 7) (rs2 rs1 : Reg) (rm : BitVec 3) (rd : Reg)
  | fma (op : FmaOp) (fmt : BitVec 2) (rs3 rs2 rs1 : Reg) (rm : BitVec 3) (rd : Reg)

/-! ## Function fields -/

/-- The opcode, `funct3` and `funct7` of a register-register operation. -/
def ropCode : ROp → BitVec 7 × BitVec 3 × BitVec 7
  | .add => (0x33, 0, 0x00)
  | .sub => (0x33, 0, 0x20)
  | .sll => (0x33, 1, 0x00)
  | .slt => (0x33, 2, 0x00)
  | .sltu => (0x33, 3, 0x00)
  | .xor => (0x33, 4, 0x00)
  | .srl => (0x33, 5, 0x00)
  | .sra => (0x33, 5, 0x20)
  | .or => (0x33, 6, 0x00)
  | .and => (0x33, 7, 0x00)
  | .mul => (0x33, 0, 0x01)
  | .mulh => (0x33, 1, 0x01)
  | .mulhsu => (0x33, 2, 0x01)
  | .mulhu => (0x33, 3, 0x01)
  | .div => (0x33, 4, 0x01)
  | .divu => (0x33, 5, 0x01)
  | .rem => (0x33, 6, 0x01)
  | .remu => (0x33, 7, 0x01)
  | .addw => (0x3B, 0, 0x00)
  | .subw => (0x3B, 0, 0x20)
  | .sllw => (0x3B, 1, 0x00)
  | .srlw => (0x3B, 5, 0x00)
  | .sraw => (0x3B, 5, 0x20)
  | .mulw => (0x3B, 0, 0x01)
  | .divw => (0x3B, 4, 0x01)
  | .divuw => (0x3B, 5, 0x01)
  | .remw => (0x3B, 6, 0x01)
  | .remuw => (0x3B, 7, 0x01)

/-- The opcode and `funct3` of a register-immediate operation. -/
def iopCode : IOp → BitVec 7 × BitVec 3
  | .addi => (0x13, 0)
  | .slti => (0x13, 2)
  | .sltiu => (0x13, 3)
  | .xori => (0x13, 4)
  | .ori => (0x13, 6)
  | .andi => (0x13, 7)
  | .addiw => (0x1B, 0)

/-- The `funct3` of a load. -/
def loadCode : LoadOp → BitVec 3
  | .lb => 0
  | .lh => 1
  | .lw => 2
  | .ld => 3
  | .lbu => 4
  | .lhu => 5
  | .lwu => 6

/-- The `funct3` of a store. -/
def storeCode : StoreOp → BitVec 3
  | .sb => 0
  | .sh => 1
  | .sw => 2
  | .sd => 3

/-- The `funct3` of a branch. -/
def branchCode : BranchOp → BitVec 3
  | .beq => 0
  | .bne => 1
  | .blt => 4
  | .bge => 5
  | .bltu => 6
  | .bgeu => 7

/-- The `funct3` of a CSR instruction. -/
def csrCode : CsrOp → BitVec 3
  | .csrrw => 1
  | .csrrs => 2
  | .csrrc => 3

/-- The `funct3` of an atomic. -/
def widthCode : AmoWidth → BitVec 3
  | .w => 2
  | .d => 3

/-- The `funct5` of an atomic. -/
def amoCode : AmoOp → BitVec 5
  | .amoswap => 0x01
  | .amoadd => 0x00
  | .amoxor => 0x04
  | .amoand => 0x0C
  | .amoor => 0x08
  | .amomin => 0x10
  | .amomax => 0x14
  | .amominu => 0x18
  | .amomaxu => 0x1C

/-- The opcode of a fused multiply-add. -/
def fmaCode : FmaOp → BitVec 7
  | .fmadd => 0x43
  | .fmsub => 0x47
  | .fnmsub => 0x4B
  | .fnmadd => 0x4F

/-- The encoding of a shift by a constant.  The amount has six bits in the 64-bit forms and five
in the 32-bit forms. -/
def encodeShift (rd rs1 : Reg) : (op : ShiftOp) → Fin op.width → U32
  | .slli, n => iFormat (0x00#6 ++ BitVec.ofNat 6 n.val) rs1 1 rd 0x13
  | .srli, n => iFormat (0x00#6 ++ BitVec.ofNat 6 n.val) rs1 5 rd 0x13
  | .srai, n => iFormat (0x10#6 ++ BitVec.ofNat 6 n.val) rs1 5 rd 0x13
  | .slliw, n => iFormat (0x00#7 ++ BitVec.ofNat 5 n.val) rs1 1 rd 0x1B
  | .srliw, n => iFormat (0x00#7 ++ BitVec.ofNat 5 n.val) rs1 5 rd 0x1B
  | .sraiw, n => iFormat (0x20#7 ++ BitVec.ofNat 5 n.val) rs1 5 rd 0x1B

/-- The encoding of an instruction. -/
def encode : Inst → U32
  | .op op rd rs1 rs2 => rFormat (ropCode op).2.2 rs2 rs1 (ropCode op).2.1 rd (ropCode op).1
  | .opImm op rd rs1 imm => iFormat imm rs1 (iopCode op).2 rd (iopCode op).1
  | .shift op rd rs1 shamt => encodeShift rd rs1 op shamt
  | .load op rd rs1 imm => iFormat imm rs1 (loadCode op) rd 0x03
  | .store op rs1 rs2 imm => sFormat imm rs2 rs1 (storeCode op) 0x23
  | .branch op rs1 rs2 half => bFormat half rs2 rs1 (branchCode op) 0x63
  | .jal rd half => jFormat half rd 0x6F
  | .jalr rd rs1 imm => iFormat imm rs1 0 rd 0x67
  | .lui rd imm => uFormat imm rd 0x37
  | .auipc rd imm => uFormat imm rd 0x17
  | .fence sets rd rs1 => iFormat sets rs1 0 rd 0x0F
  | .fenceI imm rd rs1 => iFormat imm rs1 1 rd 0x0F
  | .ecall => iFormat 0x000 0 0 0 0x73
  | .ebreak => iFormat 0x001 0 0 0 0x73
  | .sret => iFormat 0x102 0 0 0 0x73
  | .wfi => iFormat 0x105 0 0 0 0x73
  | .mret => iFormat 0x302 0 0 0 0x73
  | .sfenceVma rs1 rs2 => rFormat 0x09 rs2 rs1 0 0 0x73
  | .csr op rd rs1 csr => iFormat csr rs1 (csrCode op) rd 0x73
  | .csrImm op rd uimm csr => iFormat csr uimm.toFin (csrCode op ||| 4) rd 0x73
  | .lr width aqrl rd rs1 => rFormat (0x02#5 ++ aqrl) 0 rs1 (widthCode width) rd 0x2F
  | .sc width aqrl rd rs1 rs2 => rFormat (0x03#5 ++ aqrl) rs2 rs1 (widthCode width) rd 0x2F
  | .amo op width aqrl rd rs1 rs2 =>
      rFormat (amoCode op ++ aqrl) rs2 rs1 (widthCode width) rd 0x2F
  | .flw fd rs1 imm => iFormat imm rs1 2 fd 0x07
  | .fld fd rs1 imm => iFormat imm rs1 3 fd 0x07
  | .fsw rs1 fs2 imm => sFormat imm fs2 rs1 2 0x27
  | .fsd rs1 fs2 imm => sFormat imm fs2 rs1 3 0x27
  | .opFp f7 rs2 rs1 rm rd => rFormat f7 rs2 rs1 rm rd 0x53
  | .fma op fmt rs3 rs2 rs1 rm rd => rFormat (bits rs3 ++ fmt) rs2 rs1 rm rd (fmaCode op)

/-- The instruction the decoder is to return. -/
def Inst.decoded : Inst → Instruction
  | .op o rd rs1 rs2 => .op o rd rs1 rs2
  | .opImm o rd rs1 imm => .opImm o rd rs1 (imm.signExtend 64)
  | .shift sh rd rs1 shamt => .shift sh rd rs1 (BitVec.ofNat 32 shamt.val)
  | .load l rd rs1 imm => .load l rd rs1 (imm.signExtend 64)
  | .store st rs1 rs2 imm => .store st rs1 rs2 (imm.signExtend 64)
  | .branch br rs1 rs2 half => .branch br rs1 rs2 ((half ++ 0#1).signExtend 64)
  | .jal rd half => .jal rd ((half ++ 0#1).signExtend 64)
  | .jalr rd rs1 imm => .jalr rd rs1 (imm.signExtend 64)
  | .lui rd imm => .lui rd ((imm ++ 0#12).signExtend 64)
  | .auipc rd imm => .auipc rd ((imm ++ 0#12).signExtend 64)
  | .fence .. | .fenceI .. => .fence
  | .ecall => .ecall
  | .ebreak => .ebreak
  | .mret => .mret
  | .sret => .sret
  | .wfi => .wfi
  | .sfenceVma .. => .sfenceVma
  | .csr o rd rs1 n => .csr o rd (.reg rs1) n
  | .csrImm o rd uimm n => .csr o rd (.imm (uimm.setWidth 32)) n
  | .lr width _ rd rs1 => .lr width rd rs1
  | .sc width _ rd rs1 rs2 => .sc width rd rs1 rs2
  | .amo o width _ rd rs1 rs2 => .amo o width rd rs1 rs2
  | .flw fd rs1 imm => .flw fd rs1 (imm.signExtend 64)
  | .fld fd rs1 imm => .fld fd rs1 (imm.signExtend 64)
  | .fsw rs1 fs2 imm => .fsw rs1 fs2 (imm.signExtend 64)
  | .fsd rs1 fs2 imm => .fsd rs1 fs2 (imm.signExtend 64)
  | .opFp f7 rs2 rs1 rm rd => .opFp (f7.setWidth 8) rs2 rs1 (rm.setWidth 8) rd
  | .fma o fmt rs3 rs2 rs1 _ rd =>
      .fma ((fmaCode o).setWidth 8) (fmt.setWidth 8) rs3 rs2 rs1 rd

/-! ## Loose words -/

/-- The function field of the atomics. -/
def funct5 (w : U32) : BitVec 5 := (funct7 w).extractLsb' 2 5

/-- The words that are decoded although a fixed field of their format has another value. -/
inductive Loose (w : U32) : Prop where
  | slli (hop : opcode w = 0x13) (hf3 : funct3 w = 1) (htop : (funct7 w).extractLsb' 1 6 ≠ 0)
  | srli (hop : opcode w = 0x13) (hf3 : funct3 w = 5) (htop : (funct7 w).extractLsb' 1 6 ≠ 0)
      (htop' : (funct7 w).extractLsb' 1 6 ≠ 0x10)
  | slliw (hop : opcode w = 0x1B) (hf3 : funct3 w = 1) (htop : funct7 w ≠ 0)
  | srliw (hop : opcode w = 0x1B) (hf3 : funct3 w = 5) (htop : funct7 w ≠ 0)
      (htop' : funct7 w ≠ 0x20)
  | lrSource (hop : opcode w = 0x2F) (hf5 : funct5 w = 0x02) (hrs2 : rs2 w ≠ 0)
  | amoWidth (hop : opcode w = 0x2F)
      (hf5 : funct5 w = 0x02 ∨ funct5 w = 0x03 ∨ ∃ o, amoCode o = funct5 w)
      (hf3 : funct3 w ≠ 2) (hf3' : funct3 w ≠ 3)
  | jalr (hop : opcode w = 0x67) (hf3 : funct3 w ≠ 0)
  | miscMem (hop : opcode w = 0x0F) (hf3 : funct3 w ≠ 0) (hf3' : funct3 w ≠ 1)

end Isa

end RiscvEmu

import RiscvEmu.Cpu.Csr

/-!
# Instruction decoding

The instruction type and the decoders of full and compressed encodings.  Families of
instructions that differ only in an operation share a constructor, which carries the operation
under the source's name.  Immediates are sign-extended to 64 bits when they are decoded.

Each family has a table from the function fields of the encoding to its operation.  `decode`
and `decodeRvc` choose the table by opcode, and a missing entry is an illegal instruction.
-/

namespace RiscvEmu

/-- A register index. -/
abbrev Reg := Fin 32

/-- The error of an encoding that is not an instruction. -/
structure IllegalInstruction where
  raw : U32
  deriving DecidableEq

/-- Register-register operations of the base, `W` and `M` groups. -/
inductive ROp where
  | add | sub | sll | slt | sltu | xor | srl | sra | or | and
  | mul | mulh | mulhsu | mulhu | div | divu | rem | remu
  | addw | subw | sllw | srlw | sraw | mulw | divw | divuw | remw | remuw
  deriving DecidableEq, Repr

/-- Register-immediate operations. -/
inductive IOp where
  | addi | slti | sltiu | xori | ori | andi | addiw
  deriving DecidableEq, Repr

/-- Shifts by a constant. -/
inductive ShiftOp where
  | slli | srli | srai | slliw | srliw | sraiw
  deriving DecidableEq, Repr

/-- Integer loads. -/
inductive LoadOp where
  | lb | lh | lw | ld | lbu | lhu | lwu
  deriving DecidableEq, Repr

/-- Integer stores. -/
inductive StoreOp where
  | sb | sh | sw | sd
  deriving DecidableEq, Repr

/-- Branches. -/
inductive BranchOp where
  | beq | bne | blt | bge | bltu | bgeu
  deriving DecidableEq, Repr

/-- The operations of the atomics, without the width. -/
inductive AmoOp where
  | amoswap | amoadd | amoxor | amoand | amoor | amomin | amomax | amominu | amomaxu
  deriving DecidableEq, Repr

/-- The width suffix of an atomic. -/
inductive AmoWidth where
  | w
  | d
  deriving DecidableEq, Repr

/-- The CSR operations: write, set bits, clear bits. -/
inductive CsrOp where
  | csrrw | csrrs | csrrc
  deriving DecidableEq, Repr

/-- The operand of a CSR operation: a register, or the immediate of the `i` forms. -/
inductive CsrSrc where
  | reg (rs1 : Reg)
  | imm (uimm : U32)
  deriving DecidableEq, Repr

/-- Decoded instructions. -/
inductive Instruction where
  | op (op : ROp) (rd rs1 rs2 : Reg)
  | opImm (op : IOp) (rd rs1 : Reg) (imm : U64)
  | shift (op : ShiftOp) (rd rs1 : Reg) (shamt : U32)
  | load (op : LoadOp) (rd rs1 : Reg) (imm : U64)
  | store (op : StoreOp) (rs1 rs2 : Reg) (imm : U64)
  | branch (op : BranchOp) (rs1 rs2 : Reg) (imm : U64)
  | jal (rd : Reg) (imm : U64)
  | jalr (rd rs1 : Reg) (imm : U64)
  | lui (rd : Reg) (imm : U64)
  | auipc (rd : Reg) (imm : U64)
  | fence
  | ecall
  | ebreak
  | mret
  | sret
  | wfi
  | sfenceVma
  | csr (op : CsrOp) (rd : Reg) (src : CsrSrc) (csr : CsrAddr)
  | lr (width : AmoWidth) (rd rs1 : Reg)
  | sc (width : AmoWidth) (rd rs1 rs2 : Reg)
  | amo (op : AmoOp) (width : AmoWidth) (rd rs1 rs2 : Reg)
  | flw (fd rs1 : Reg) (imm : U64)
  | fld (fd rs1 : Reg) (imm : U64)
  | fsw (rs1 fs2 : Reg) (imm : U64)
  | fsd (rs1 fs2 : Reg) (imm : U64)
  | opFp (funct7 : U8) (rs2 rs1 : Reg) (rm : U8) (rd : Reg)
  | fma (opcode fmt : U8) (rs3 rs2 rs1 rd : Reg)
  deriving DecidableEq, Repr

/-! ## Fields of a full encoding -/

/-- The register index at a bit position. -/
def reg (inst : U32) (lo : Nat) : Reg := Fin.ofNat 32 ((inst >>> lo) &&& 0x1f).toNat

def iImm (inst : U32) : U64 := (inst.sshiftRight 20).signExtend 64

def sImm (inst : U32) : U64 :=
  let raw := ((inst >>> 25) <<< 5) ||| ((inst >>> 7) &&& 0x1f)
  ((raw <<< 20).sshiftRight 20).signExtend 64

def bImm (inst : U32) : U64 :=
  let raw := ((inst >>> 31) <<< 12)
    ||| (((inst >>> 7) &&& 0x1) <<< 11)
    ||| (((inst >>> 25) &&& 0x3f) <<< 5)
    ||| (((inst >>> 8) &&& 0xf) <<< 1)
  ((raw <<< 19).sshiftRight 19).signExtend 64

def uImm (inst : U32) : U64 := (inst &&& 0xFFFF_F000).signExtend 64

def jImm (inst : U32) : U64 :=
  let raw := ((inst >>> 31) <<< 20)
    ||| (inst &&& 0x000F_F000)
    ||| (((inst >>> 20) &&& 0x1) <<< 11)
    ||| (((inst >>> 21) &&& 0x3ff) <<< 1)
  ((raw <<< 11).sshiftRight 11).signExtend 64

/-! ## Operation tables -/

/-- Opcode `0x33`. -/
def opTable (funct3 funct7 : U32) : Option ROp :=
  match funct3, funct7 with
  | 0x0#32, 0x00#32 => some .add
  | 0x0#32, 0x20#32 => some .sub
  | 0x1#32, 0x00#32 => some .sll
  | 0x2#32, 0x00#32 => some .slt
  | 0x3#32, 0x00#32 => some .sltu
  | 0x4#32, 0x00#32 => some .xor
  | 0x5#32, 0x00#32 => some .srl
  | 0x5#32, 0x20#32 => some .sra
  | 0x6#32, 0x00#32 => some .or
  | 0x7#32, 0x00#32 => some .and
  | 0x0#32, 0x01#32 => some .mul
  | 0x1#32, 0x01#32 => some .mulh
  | 0x2#32, 0x01#32 => some .mulhsu
  | 0x3#32, 0x01#32 => some .mulhu
  | 0x4#32, 0x01#32 => some .div
  | 0x5#32, 0x01#32 => some .divu
  | 0x6#32, 0x01#32 => some .rem
  | 0x7#32, 0x01#32 => some .remu
  | _, _ => none

/-- Opcode `0x3B`. -/
def op32Table (funct3 funct7 : U32) : Option ROp :=
  match funct3, funct7 with
  | 0x0#32, 0x00#32 => some .addw
  | 0x0#32, 0x20#32 => some .subw
  | 0x1#32, 0x00#32 => some .sllw
  | 0x5#32, 0x00#32 => some .srlw
  | 0x5#32, 0x20#32 => some .sraw
  | 0x0#32, 0x01#32 => some .mulw
  | 0x4#32, 0x01#32 => some .divw
  | 0x5#32, 0x01#32 => some .divuw
  | 0x6#32, 0x01#32 => some .remw
  | 0x7#32, 0x01#32 => some .remuw
  | _, _ => none

/-- Opcode `0x03`. -/
def loadTable (funct3 : U32) : Option LoadOp :=
  match funct3 with
  | 0x0#32 => some .lb
  | 0x1#32 => some .lh
  | 0x2#32 => some .lw
  | 0x3#32 => some .ld
  | 0x4#32 => some .lbu
  | 0x5#32 => some .lhu
  | 0x6#32 => some .lwu
  | _ => none

/-- Opcode `0x23`. -/
def storeTable (funct3 : U32) : Option StoreOp :=
  match funct3 with
  | 0x0#32 => some .sb
  | 0x1#32 => some .sh
  | 0x2#32 => some .sw
  | 0x3#32 => some .sd
  | _ => none

/-- Opcode `0x63`. -/
def branchTable (funct3 : U32) : Option BranchOp :=
  match funct3 with
  | 0x0#32 => some .beq
  | 0x1#32 => some .bne
  | 0x4#32 => some .blt
  | 0x5#32 => some .bge
  | 0x6#32 => some .bltu
  | 0x7#32 => some .bgeu
  | _ => none

/-- Opcode `0x13`. -/
def decodeOpImm (inst funct3 : U32) (rd rs1 : Reg) : Instruction :=
  let shamt := (inst >>> 20) &&& 0x3f
  match funct3 with
  | 0x0#32 => .opImm .addi rd rs1 (iImm inst)
  | 0x2#32 => .opImm .slti rd rs1 (iImm inst)
  | 0x3#32 => .opImm .sltiu rd rs1 (iImm inst)
  | 0x4#32 => .opImm .xori rd rs1 (iImm inst)
  | 0x6#32 => .opImm .ori rd rs1 (iImm inst)
  | 0x1#32 => .shift .slli rd rs1 shamt
  | 0x5#32 =>
      if (inst >>> 30) &&& 1 = 0 then .shift .srli rd rs1 shamt else .shift .srai rd rs1 shamt
  -- the field has three bits, so this is 7
  | _ => .opImm .andi rd rs1 (iImm inst)

/-- Opcode `0x1B`. -/
def decodeOpImm32 (inst funct3 : U32) (rd rs1 : Reg) : Option Instruction :=
  let shamt := (inst >>> 20) &&& 0x1f
  match funct3 with
  | 0x0#32 => some (.opImm .addiw rd rs1 (iImm inst))
  | 0x1#32 => some (.shift .slliw rd rs1 shamt)
  | 0x5#32 =>
      if (inst >>> 30) &&& 1 = 0 then some (.shift .srliw rd rs1 shamt)
      else some (.shift .sraiw rd rs1 shamt)
  | _ => none

/-- Opcode `0x2F`. -/
def decodeAmo (inst funct3 : U32) (rd rs1 rs2 : Reg) : Option Instruction :=
  let width : AmoWidth := if funct3 &&& 0x1 = 1 then .d else .w
  match (inst >>> 27) &&& 0x1f with
  | 0x02#32 => some (.lr width rd rs1)
  | 0x03#32 => some (.sc width rd rs1 rs2)
  | 0x01#32 => some (.amo .amoswap width rd rs1 rs2)
  | 0x00#32 => some (.amo .amoadd width rd rs1 rs2)
  | 0x04#32 => some (.amo .amoxor width rd rs1 rs2)
  | 0x0C#32 => some (.amo .amoand width rd rs1 rs2)
  | 0x08#32 => some (.amo .amoor width rd rs1 rs2)
  | 0x10#32 => some (.amo .amomin width rd rs1 rs2)
  | 0x14#32 => some (.amo .amomax width rd rs1 rs2)
  | 0x18#32 => some (.amo .amominu width rd rs1 rs2)
  | 0x1C#32 => some (.amo .amomaxu width rd rs1 rs2)
  | _ => none

/-- The privileged instructions of opcode `0x73`, which have no CSR operand. -/
def decodePriv (csr : CsrAddr) (rd rs1 : Reg) : Option Instruction :=
  if csr = 0x000 ∧ rs1 = 0 ∧ rd = 0 then some .ecall
  else if csr = 0x001 ∧ rs1 = 0 ∧ rd = 0 then some .ebreak
  else if csr = 0x102 ∧ rs1 = 0 ∧ rd = 0 then some .sret
  else if csr = 0x302 ∧ rs1 = 0 ∧ rd = 0 then some .mret
  else if csr = 0x105 ∧ rs1 = 0 ∧ rd = 0 then some .wfi
  else if rd = 0 ∧ csr >>> 5 = 0x09 then some .sfenceVma
  else none

/-- Opcode `0x73`. -/
def decodeSystem (inst funct3 : U32) (rd rs1 : Reg) : Option Instruction :=
  let csr : CsrAddr := ((inst >>> 20) &&& 0xfff).setWidth 12
  let uimm := BitVec.ofNat 32 rs1.val
  match funct3 with
  | 0x0#32 => decodePriv csr rd rs1
  | 0x1#32 => some (.csr .csrrw rd (.reg rs1) csr)
  | 0x2#32 => some (.csr .csrrs rd (.reg rs1) csr)
  | 0x3#32 => some (.csr .csrrc rd (.reg rs1) csr)
  | 0x5#32 => some (.csr .csrrw rd (.imm uimm) csr)
  | 0x6#32 => some (.csr .csrrs rd (.imm uimm) csr)
  | 0x7#32 => some (.csr .csrrc rd (.imm uimm) csr)
  | _ => none

/-- The instruction of a full encoding, if there is one. -/
def decode? (inst : U32) : Option Instruction :=
  let opcode := inst &&& 0x7f
  let funct3 := (inst >>> 12) &&& 0x7
  let funct7 := (inst >>> 25) &&& 0x7f
  let rd := reg inst 7
  let rs1 := reg inst 15
  let rs2 := reg inst 20
  match opcode with
  | 0x33#32 => (opTable funct3 funct7).map (.op · rd rs1 rs2)
  | 0x3B#32 => (op32Table funct3 funct7).map (.op · rd rs1 rs2)
  | 0x13#32 => some (decodeOpImm inst funct3 rd rs1)
  | 0x1B#32 => decodeOpImm32 inst funct3 rd rs1
  | 0x03#32 => (loadTable funct3).map (.load · rd rs1 (iImm inst))
  | 0x07#32 =>
      match funct3 with
      | 0x2#32 => some (.flw rd rs1 (iImm inst))
      | 0x3#32 => some (.fld rd rs1 (iImm inst))
      | _ => none
  | 0x27#32 =>
      match funct3 with
      | 0x2#32 => some (.fsw rs1 rs2 (sImm inst))
      | 0x3#32 => some (.fsd rs1 rs2 (sImm inst))
      | _ => none
  | 0x53#32 => some (.opFp (funct7.setWidth 8) rs2 rs1 (funct3.setWidth 8) rd)
  | 0x43#32 | 0x47#32 | 0x4B#32 | 0x4F#32 =>
      let fmt := ((inst >>> 25) &&& 0x3).setWidth 8
      some (.fma (opcode.setWidth 8) fmt (reg inst 27) rs2 rs1 rd)
  | 0x23#32 => (storeTable funct3).map (.store · rs1 rs2 (sImm inst))
  | 0x63#32 => (branchTable funct3).map (.branch · rs1 rs2 (bImm inst))
  | 0x6F#32 => some (.jal rd (jImm inst))
  | 0x67#32 => some (.jalr rd rs1 (iImm inst))
  | 0x37#32 => some (.lui rd (uImm inst))
  | 0x17#32 => some (.auipc rd (uImm inst))
  | 0x2F#32 => decodeAmo inst funct3 rd rs1 rs2
  | 0x0F#32 => some .fence
  | 0x73#32 => decodeSystem inst funct3 rd rs1
  | _ => none

/-- Decode a full encoding. -/
def decode (inst : U32) : Except IllegalInstruction Instruction :=
  match decode? inst with
  | some i => .ok i
  | none => .error ⟨inst⟩

end RiscvEmu

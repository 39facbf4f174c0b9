import RiscvEmu.Cpu.Decode

/-!
# Compressed instruction decoding

A compressed encoding stands for a full instruction.  Its immediate is scattered over the
sixteen bits, each format in its own way.  The functions below are the formats, on the encoding
zero-extended to 32 bits, and `decodeRvc?` is the table over the three quadrants.
-/

namespace RiscvEmu

namespace Rvc

/-! ## Fields -/

/-- A three-bit register field, which names `x8` to `x15`. -/
def rp (w : U32) (shift : Nat) : Reg := Fin.ofNat 32 (8 + ((w >>> shift) &&& 0x7)).toNat

/-- A five-bit register field. -/
def r5 (w : U32) (shift : Nat) : Reg := Fin.ofNat 32 ((w >>> shift) &&& 0x1f).toNat

/-- `C.ADDI4SPN`. -/
def addi4spnImm (w : U32) : U32 :=
  (((w >>> 6) &&& 1) <<< 2) ||| (((w >>> 5) &&& 1) <<< 3) ||| (((w >>> 11) &&& 3) <<< 4)
    ||| (((w >>> 7) &&& 0xf) <<< 6)

/-- `C.LD`, `C.SD` and their floating-point forms. -/
def ldImm (w : U32) : U32 := (((w >>> 10) &&& 7) <<< 3) ||| (((w >>> 5) &&& 3) <<< 6)

/-- `C.LW` and `C.SW`. -/
def lwImm (w : U32) : U32 :=
  (((w >>> 6) &&& 1) <<< 2) ||| (((w >>> 10) &&& 7) <<< 3) ||| (((w >>> 5) &&& 1) <<< 6)

/-- The six-bit field of shifts and small immediates. -/
def shamt (w : U32) : U32 := (((w >>> 12) &&& 1) <<< 5) ||| ((w >>> 2) &&& 0x1f)

/-- A raw immediate, with the bits from `ones` set when the sign bit is. -/
def signed (raw : U32) (signBit : Nat) (ones : U64) : U64 :=
  if (raw >>> signBit) &&& 1 = 1 then raw.setWidth 64 ||| ones else raw.setWidth 64

/-- The six-bit field as a signed immediate. -/
def imm6 (w : U32) : U64 := signed (shamt w) 5 0xFFFF_FFFF_FFFF_FFC0

/-- `C.ADDI16SP`. -/
def addi16spImm (w : U32) : U64 :=
  let raw := (((w >>> 12) &&& 1) <<< 9) ||| (((w >>> 3) &&& 3) <<< 7)
    ||| (((w >>> 5) &&& 1) <<< 6) ||| (((w >>> 2) &&& 1) <<< 5) ||| (((w >>> 6) &&& 1) <<< 4)
  signed raw 9 (~~~0x3ff)

/-- `C.LUI`. -/
def luiImm (w : U32) : U64 :=
  let raw := (((w >>> 12) &&& 1) <<< 17) ||| (((w >>> 2) &&& 0x1f) <<< 12)
  signed raw 17 (~~~0x3ffff)

/-- `C.J`. -/
def jImm (w : U32) : U64 :=
  let raw := (((w >>> 12) &&& 1) <<< 11) ||| (((w >>> 11) &&& 1) <<< 4)
    ||| (((w >>> 9) &&& 3) <<< 8) ||| (((w >>> 8) &&& 1) <<< 10) ||| (((w >>> 7) &&& 1) <<< 6)
    ||| (((w >>> 6) &&& 1) <<< 7) ||| (((w >>> 3) &&& 7) <<< 1) ||| (((w >>> 2) &&& 1) <<< 5)
  signed raw 11 (~~~0x7ff)

/-- `C.BEQZ` and `C.BNEZ`. -/
def bImm (w : U32) : U64 :=
  let raw := (((w >>> 12) &&& 1) <<< 8) ||| (((w >>> 10) &&& 3) <<< 3)
    ||| (((w >>> 5) &&& 3) <<< 6) ||| (((w >>> 3) &&& 3) <<< 1) ||| (((w >>> 2) &&& 1) <<< 5)
  signed raw 8 (~~~0xff)

/-- `C.LDSP` and `C.FLDSP`. -/
def ldspImm (w : U32) : U32 :=
  (((w >>> 12) &&& 1) <<< 5) ||| (((w >>> 5) &&& 3) <<< 3) ||| (((w >>> 2) &&& 7) <<< 6)

/-- `C.LWSP`. -/
def lwspImm (w : U32) : U32 :=
  (((w >>> 12) &&& 1) <<< 5) ||| (((w >>> 4) &&& 7) <<< 2) ||| (((w >>> 2) &&& 3) <<< 6)

/-- `C.SDSP` and `C.FSDSP`. -/
def sdspImm (w : U32) : U32 := (((w >>> 10) &&& 7) <<< 3) ||| (((w >>> 7) &&& 7) <<< 6)

/-- `C.SWSP`. -/
def swspImm (w : U32) : U32 := (((w >>> 9) &&& 0xf) <<< 2) ||| (((w >>> 7) &&& 3) <<< 6)

/-! ## The quadrants -/

/-- Quadrant 0: loads and stores through a register, and the stack address. -/
def quadrant0 (w funct3 : U32) : Option Instruction :=
  let rdP := rp w 2
  let rs1P := rp w 7
  match funct3 with
  | 0b000#32 =>
      if addi4spnImm w = 0 then none
      else some (.opImm .addi rdP 2 ((addi4spnImm w).setWidth 64))
  | 0b001#32 => some (.fld rdP rs1P ((ldImm w).setWidth 64))
  | 0b010#32 => some (.load .lw rdP rs1P ((lwImm w).setWidth 64))
  | 0b011#32 => some (.load .ld rdP rs1P ((ldImm w).setWidth 64))
  | 0b101#32 => some (.fsd rs1P rdP ((ldImm w).setWidth 64))
  | 0b110#32 => some (.store .sw rs1P rdP ((lwImm w).setWidth 64))
  | 0b111#32 => some (.store .sd rs1P rdP ((ldImm w).setWidth 64))
  | _ => none

/-- The register-register group of quadrant 1. -/
def arith (w : U32) : Option Instruction :=
  let rdP := rp w 7
  let rs2P := rp w 2
  match (w >>> 12) &&& 1, (w >>> 5) &&& 0x3 with
  | 0#32, 0b00#32 => some (.op .sub rdP rdP rs2P)
  | 0#32, 0b01#32 => some (.op .xor rdP rdP rs2P)
  | 0#32, 0b10#32 => some (.op .or rdP rdP rs2P)
  | 0#32, 0b11#32 => some (.op .and rdP rdP rs2P)
  | 1#32, 0b00#32 => some (.op .subw rdP rdP rs2P)
  | 1#32, 0b01#32 => some (.op .addw rdP rdP rs2P)
  | _, _ => none

/-- Quadrant 1: arithmetic, jumps and branches. -/
def quadrant1 (w funct3 : U32) : Option Instruction :=
  let rdRs1 := r5 w 7
  match funct3 with
  | 0b000#32 => some (.opImm .addi rdRs1 rdRs1 (imm6 w))
  | 0b001#32 => if rdRs1 = 0 then none else some (.opImm .addiw rdRs1 rdRs1 (imm6 w))
  | 0b010#32 => some (.opImm .addi rdRs1 0 (imm6 w))
  | 0b011#32 =>
      if rdRs1 = 2 then
        if addi16spImm w = 0 then none else some (.opImm .addi 2 2 (addi16spImm w))
      else if rdRs1 ≠ 0 then
        if luiImm w = 0 then none else some (.lui rdRs1 (luiImm w))
      else none
  | 0b100#32 =>
      let rdP := rp w 7
      match (w >>> 10) &&& 0x3 with
      | 0b00#32 => some (.shift .srli rdP rdP (shamt w))
      | 0b01#32 => some (.shift .srai rdP rdP (shamt w))
      | 0b10#32 => some (.opImm .andi rdP rdP (imm6 w))
      -- the field has two bits, so this is 3
      | _ => arith w
  | 0b101#32 => some (.jal 0 (jImm w))
  | 0b110#32 => some (.branch .beq (rp w 7) 0 (bImm w))
  | 0b111#32 => some (.branch .bne (rp w 7) 0 (bImm w))
  | _ => none

/-- The register jumps, moves and `C.EBREAK` of quadrant 2. -/
def jumpOrMove (w : U32) : Option Instruction :=
  let rdRs1 := r5 w 7
  let rs2 := r5 w 2
  if (w >>> 12) &&& 1 = 0 ∧ rdRs1 ≠ 0 ∧ rs2 = 0 then some (.jalr 0 rdRs1 0)
  else if (w >>> 12) &&& 1 = 0 ∧ rs2 ≠ 0 then some (.op .add rdRs1 0 rs2)
  else if (w >>> 12) &&& 1 = 1 ∧ rdRs1 = 0 ∧ rs2 = 0 then some .ebreak
  else if (w >>> 12) &&& 1 = 1 ∧ rdRs1 ≠ 0 ∧ rs2 = 0 then some (.jalr 1 rdRs1 0)
  else if (w >>> 12) &&& 1 = 1 ∧ rdRs1 ≠ 0 ∧ rs2 ≠ 0 then some (.op .add rdRs1 rdRs1 rs2)
  else none

/-- Quadrant 2: stack-relative loads and stores, and register jumps. -/
def quadrant2 (w funct3 : U32) : Option Instruction :=
  let rdRs1 := r5 w 7
  let rs2 := r5 w 2
  match funct3 with
  | 0b000#32 => some (.shift .slli rdRs1 rdRs1 (shamt w))
  | 0b001#32 => some (.fld rdRs1 2 ((ldspImm w).setWidth 64))
  | 0b010#32 =>
      if rdRs1 = 0 then none else some (.load .lw rdRs1 2 ((lwspImm w).setWidth 64))
  | 0b011#32 =>
      if rdRs1 = 0 then none else some (.load .ld rdRs1 2 ((ldspImm w).setWidth 64))
  | 0b100#32 => jumpOrMove w
  | 0b101#32 => some (.fsd 2 rs2 ((sdspImm w).setWidth 64))
  | 0b110#32 => some (.store .sw 2 rs2 ((swspImm w).setWidth 64))
  | 0b111#32 => some (.store .sd 2 rs2 ((sdspImm w).setWidth 64))
  | _ => none

end Rvc

/-- The instruction of a compressed encoding, if there is one.  Quadrant 3 is not compressed and
never reaches this function. -/
def decodeRvc? (w : U32) : Option Instruction :=
  let funct3 := (w >>> 13) &&& 0x7
  match w &&& 0x3 with
  | 0b00#32 => Rvc.quadrant0 w funct3
  | 0b01#32 => Rvc.quadrant1 w funct3
  | 0b10#32 => Rvc.quadrant2 w funct3
  | _ => none

/-- Decode a compressed encoding. -/
def decodeRvc (inst : U16) : Except IllegalInstruction Instruction :=
  match decodeRvc? (inst.setWidth 32) with
  | some i => .ok i
  | none => .error ⟨inst.setWidth 32⟩

end RiscvEmu

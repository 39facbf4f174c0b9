import RiscvEmu.Jit.Emit

/-!
# Code emission for compressed encodings

The emitter takes a compressed encoding apart by itself, with its own tables for the immediates,
and has its own code for most of the instructions.  An encoding that it leaves to the interpreter
has no code.
-/

namespace RiscvEmu.Jit

namespace Rvc

/-! ## Fields -/

/-- Sign-extend the low bits of a value. -/
def signExt (val : U64) (bits : Nat) : U64 := (val <<< (64 - bits)).sshiftRight (64 - bits)

/-- A field of an encoding, as a 64-bit value. -/
def field (raw : U16) (lo : Nat) (mask : U16) : U64 := ((raw >>> lo) &&& mask).setWidth 64

/-- A three-bit register field, which names `x8` to `x15`. -/
def rp (raw : U16) (lo : Nat) : Reg := Fin.ofNat 32 (((raw >>> lo) &&& 0x7).toNat + 8)

/-- A five-bit register field. -/
def r5 (raw : U16) (lo : Nat) : Reg := Fin.ofNat 32 ((raw >>> lo) &&& 0x1f).toNat

def jImm (raw : U16) : U64 :=
  let r : U64 := raw.setWidth 64
  let imm := (((r >>> 12) &&& 1) <<< 11) ||| (((r >>> 11) &&& 1) <<< 4)
    ||| (((r >>> 9) &&& 3) <<< 8) ||| (((r >>> 8) &&& 1) <<< 10) ||| (((r >>> 7) &&& 1) <<< 6)
    ||| (((r >>> 6) &&& 1) <<< 7) ||| (((r >>> 3) &&& 7) <<< 1) ||| (((r >>> 2) &&& 1) <<< 5)
  signExt imm 12

def bImm (raw : U16) : U64 :=
  let r : U64 := raw.setWidth 64
  let imm := (((r >>> 12) &&& 1) <<< 8) ||| (((r >>> 10) &&& 3) <<< 3)
    ||| (((r >>> 5) &&& 3) <<< 6) ||| (((r >>> 3) &&& 3) <<< 1) ||| (((r >>> 2) &&& 1) <<< 5)
  signExt imm 9

/-- `C.ADDI4SPN`. -/
def addi4spnImm (raw : U16) : U64 :=
  (field raw 11 0x3 <<< 4) ||| (field raw 7 0xf <<< 6) ||| (field raw 6 0x1 <<< 2)
    ||| (field raw 5 0x1 <<< 3)

/-- `C.LD` and `C.SD`. -/
def ldImm (raw : U16) : U64 := (field raw 10 0x7 <<< 3) ||| (field raw 5 0x3 <<< 6)

/-- The six-bit field of small immediates, before its sign is extended. -/
def immU (raw : U16) : U64 :=
  (field raw 12 0x1 <<< 5) ||| ((raw >>> 2).setWidth 64 &&& 0x1f)

/-- The six-bit field of small immediates. -/
def imm6 (raw : U16) : U64 := signExt (immU raw) 6

/-- `C.ADDI16SP`. -/
def addi16spImm (raw : U16) : U64 :=
  signExt ((field raw 12 0x1 <<< 9) ||| (field raw 3 0x3 <<< 7) ||| (field raw 5 0x1 <<< 6)
    ||| (field raw 2 0x1 <<< 5) ||| (field raw 6 0x1 <<< 4)) 10

/-- The six-bit field of shifts, as the byte in the shift instruction. -/
def shamt (raw : U16) : U8 :=
  ((((raw >>> 12) &&& 0x1) <<< 5) ||| ((raw >>> 2) &&& 0x1f)).setWidth 8

/-- `C.LDSP`. -/
def ldspImm (raw : U16) : U64 :=
  (field raw 12 0x1 <<< 5) ||| (field raw 5 0x3 <<< 3) ||| (field raw 2 0x7 <<< 6)

/-- `C.SDSP`. -/
def sdspImm (raw : U16) : U64 := (field raw 10 0x7 <<< 3) ||| (field raw 7 0x7 <<< 6)

/-! ## Instruction patterns -/

/-- Store the result. -/
def result (rd : Reg) : Code := [.store .r15 (regOff rd) .rax]

/-- An operation with an immediate. -/
def emitImm (rd rs1 : Reg) (op : X86.Alu) (imm : U64) : Code :=
  [.mov .qword .rax (regMem rs1), .alu op .qword .rax (.imm (imm.setWidth 32))] ++ result rd

/-- A shift of a register in place. -/
def emitShift (rd : Reg) (op : X86.Shift) (shamt : U8) : Code :=
  [.mov .qword .rax (regMem rd), .shift op .qword .rax (.imm shamt)] ++ result rd

/-- An operation on a register in place. -/
def emitAlu (rd rs2 : Reg) (op : X86.Alu) : Code :=
  [.mov .qword .rax (regMem rd), .alu op .qword .rax (regMem rs2)] ++ result rd

/-- A 32-bit operation on a register in place. -/
def emitAluW (rd : Reg) (op : X86.Alu) (src : X86.Operand) : Code :=
  [.mov .dword .rax (regMem rd), .alu op .dword .rax src, .movsx 32 .rax (.reg .rax)] ++ result rd

/-- A comparison of a register with zero. -/
def emitBranch (rs1 : Reg) (cond : X86.Cond) (fallPc takenPc : U64) : Code :=
  [.mov .qword .rax (regMem rs1), .test .qword .rax .rax] ++ emitChoice cond fallPc takenPc

/-! ## The quadrants -/

def emitQuadrant0 (h : Host) (raw : U16) (guestPc : U64) (funct3 : U16) : Code × Effect :=
  match funct3 with
  | 0b000#16 =>
      if addi4spnImm raw = 0 then ([], .unhandled)
      else (emitImm (rp raw 2) 2 .add (addi4spnImm raw), .seq)
  | 0b011#16 =>
      (emitLoad h (rp raw 2) (rp raw 7) (ldImm raw) (h.loadHelper .b8) guestPc, .seq)
  | 0b111#16 =>
      (emitStore h (rp raw 7) (rp raw 2) (ldImm raw) (h.storeHelper .b8) guestPc, .seq)
  | _ => ([], .unhandled)

/-- The register-register group. -/
def emitArith (raw : U16) : Code × Effect :=
  let rd := rp raw 7
  let rs2 := rp raw 2
  if (raw >>> 12) &&& 0x1 = 0 then
    match (raw >>> 5) &&& 0x3 with
    | 0b00#16 => (emitAlu rd rs2 .sub, .seq)
    | 0b01#16 => (emitAlu rd rs2 .xor, .seq)
    | 0b10#16 => (emitAlu rd rs2 .or, .seq)
    -- the field has two bits, so this is 3
    | _ => (emitAlu rd rs2 .and, .seq)
  else
    match (raw >>> 5) &&& 0x3 with
    | 0b00#16 => (emitAluW rd .sub (regMem rs2), .seq)
    | 0b01#16 => (emitAluW rd .add (regMem rs2), .seq)
    | _ => ([], .unhandled)

def emitQuadrant1 (raw : U16) (guestPc : U64) (funct3 : U16) : Code × Effect :=
  let rd := r5 raw 7
  let nextPc := guestPc + 2
  match funct3 with
  | 0b000#16 => if rd = 0 then ([], .seq) else (emitImm rd rd .add (imm6 raw), .seq)
  | 0b001#16 =>
      if rd = 0 then ([], .unhandled)
      else (emitAluW rd .add (.imm ((imm6 raw).setWidth 32)), .seq)
  | 0b010#16 =>
      if rd = 0 then ([], .seq)
      else ([.mov .qword .rax (.imm ((imm6 raw).setWidth 32))] ++ result rd, .seq)
  | 0b011#16 =>
      if rd = 2 then
        if (addi16spImm raw).setWidth 32 = 0#32 then ([], .unhandled)
        else (emitImm 2 2 .add (addi16spImm raw), .seq)
      else if rd ≠ 0 then
        if imm6 raw = 0 then ([], .unhandled)
        else ([.movAbs .rax (imm6 raw <<< 12)] ++ result rd, .seq)
      else ([], .unhandled)
  | 0b100#16 =>
      match (raw >>> 10) &&& 0x3 with
      | 0b00#16 => (emitShift (rp raw 7) .shr (shamt raw), .seq)
      | 0b01#16 => (emitShift (rp raw 7) .sar (shamt raw), .seq)
      | 0b10#16 => (emitImm (rp raw 7) (rp raw 7) .and (imm6 raw), .seq)
      -- the field has two bits, so this is 3
      | _ => emitArith raw
  | 0b101#16 => (emitReturn (guestPc + jImm raw), .terminal)
  | 0b110#16 => (emitBranch (rp raw 7) .e nextPc (guestPc + bImm raw), .terminal)
  | 0b111#16 => (emitBranch (rp raw 7) .ne nextPc (guestPc + bImm raw), .terminal)
  | _ => ([], .unhandled)

/-- The register jumps and moves. -/
def emitJumpOrMove (raw : U16) (guestPc : U64) : Code × Effect :=
  let rs1 := r5 raw 7
  let rs2 := r5 raw 2
  if (raw >>> 12) &&& 0x1 = 0 ∧ rs2 = 0 then
    if rs1 = 0 then ([], .unhandled)
    else ([.mov .qword .rcx (regMem rs1)] ++ emitReturnRcx, .terminal)
  else if (raw >>> 12) &&& 0x1 = 0 then
    if rs1 = 0 then ([], .seq)
    else ([.mov .qword .rax (regMem rs2)] ++ result rs1, .seq)
  else if rs2 = 0 then
    if rs1 = 0 then ([], .unhandled)
    else
      ([.mov .qword .rcx (regMem rs1), .movAbs .rax (guestPc + 2)] ++ result 1 ++ emitReturnRcx,
        .terminal)
  else if rs1 = 0 then ([], .seq)
  else (emitAlu rs1 rs2 .add, .seq)

def emitQuadrant2 (h : Host) (raw : U16) (guestPc : U64) (funct3 : U16) : Code × Effect :=
  let rd := r5 raw 7
  match funct3 with
  | 0b000#16 => if rd = 0 then ([], .seq) else (emitShift rd .shl (shamt raw), .seq)
  | 0b011#16 =>
      if rd = 0 then ([], .unhandled)
      else (emitLoad h rd 2 (ldspImm raw) (h.loadHelper .b8) guestPc, .seq)
  | 0b100#16 => emitJumpOrMove raw guestPc
  | 0b111#16 => (emitStore h 2 (r5 raw 2) (sdspImm raw) (h.storeHelper .b8) guestPc, .seq)
  | _ => ([], .unhandled)

end Rvc

/-- The code of a compressed encoding at an address. -/
def emitRvc (h : Host) (raw : U16) (guestPc : U64) : Code × Effect :=
  let funct3 := raw >>> 13
  match raw &&& 0x3 with
  | 0b00#16 => Rvc.emitQuadrant0 h raw guestPc funct3
  | 0b01#16 => Rvc.emitQuadrant1 raw guestPc funct3
  | 0b10#16 => Rvc.emitQuadrant2 h raw guestPc funct3
  | _ => ([], .unhandled)

end RiscvEmu.Jit

import RiscvEmu.Cpu.State

/-!
# Floating point

Values are bit patterns.  The arithmetic of the host is a parameter: one record of operations
for each of the two formats, and the two conversions between them.  What the emulator itself
decides on the bits is defined here: the boxing of singles, the special cases of minimum and
maximum, and the classification.
-/

namespace RiscvEmu

/-- The host operations on a floating-point format of the given width. -/
structure FloatOps (w : Nat) where
  add : BitVec w → BitVec w → BitVec w
  sub : BitVec w → BitVec w → BitVec w
  mul : BitVec w → BitVec w → BitVec w
  div : BitVec w → BitVec w → BitVec w
  sqrt : BitVec w → BitVec w
  mulAdd : BitVec w → BitVec w → BitVec w → BitVec w
  min : BitVec w → BitVec w → BitVec w
  max : BitVec w → BitVec w → BitVec w
  le : BitVec w → BitVec w → Bool
  lt : BitVec w → BitVec w → Bool
  eq : BitVec w → BitVec w → Bool
  toI32 : BitVec w → U32
  toU32 : BitVec w → U32
  toI64 : BitVec w → U64
  toU64 : BitVec w → U64
  ofI32 : U32 → BitVec w
  ofU32 : U32 → BitVec w
  ofI64 : U64 → BitVec w
  ofU64 : U64 → BitVec w
  deriving Inhabited

/-- The host floating-point unit. -/
structure Fpu where
  s : FloatOps 32
  d : FloatOps 64
  /-- Round a double to a single. -/
  narrow : U64 → U32
  /-- Widen a single to a double. -/
  widen : U32 → U64
  deriving Inhabited

/-! ## Bit patterns -/

/-- The layout of a format: its sign position, and its exponent and fraction masks. -/
structure FloatFormat (w : Nat) where
  signBit : Nat
  expMask : BitVec w
  fracMask : BitVec w
  /-- The bit that tells a quiet NaN from a signaling one. -/
  quiet : BitVec w

def binary32 : FloatFormat 32 where
  signBit := 31
  expMask := 0x7F80_0000
  fracMask := 0x007F_FFFF
  quiet := 0x0040_0000

def binary64 : FloatFormat 64 where
  signBit := 63
  expMask := 0x7FF0_0000_0000_0000
  fracMask := 0x000F_FFFF_FFFF_FFFF
  quiet := 0x0008_0000_0000_0000

namespace FloatFormat

variable {w : Nat} (f : FloatFormat w) (v a b : BitVec w)

def isNan : Bool := decide (v &&& f.expMask = f.expMask) && decide (v &&& f.fracMask ≠ 0)

def isInfinite : Bool := decide (v &&& f.expMask = f.expMask) && decide (v &&& f.fracMask = 0)

def isZero : Bool := decide (v &&& f.expMask = 0) && decide (v &&& f.fracMask = 0)

def isSubnormal : Bool := decide (v &&& f.expMask = 0) && decide (v &&& f.fracMask ≠ 0)

def isNormal : Bool := decide (v &&& f.expMask ≠ 0) && decide (v &&& f.expMask ≠ f.expMask)

def isSignNegative : Bool := v.getLsbD f.signBit

/-- The negated value. -/
def neg : BitVec w := v ^^^ (1 <<< f.signBit)

/-- The minimum: a NaN gives the other operand, and negative zero is below positive zero. -/
def fmin (ops : FloatOps w) : BitVec w :=
  if f.isNan a then b
  else if f.isNan b then a
  else if f.isZero a ∧ f.isZero b ∧ f.isSignNegative a then a
  else ops.min a b

/-- The maximum: a NaN gives the other operand, and negative zero is below positive zero. -/
def fmax (ops : FloatOps w) : BitVec w :=
  if f.isNan a then b
  else if f.isNan b then a
  else if f.isZero a ∧ f.isZero b ∧ f.isSignNegative b then a
  else ops.max a b

/-- The class mask. -/
def fclass : U64 :=
  if f.isNan v then if v &&& f.quiet ≠ 0 then 1 <<< 9 else 1 <<< 8
  else if f.isInfinite v ∧ f.isSignNegative v then 1 <<< 0
  else if f.isSignNegative v ∧ f.isNormal v then 1 <<< 1
  else if f.isSignNegative v ∧ f.isSubnormal v then 1 <<< 2
  else if f.isSignNegative v then 1 <<< 3
  else if f.isSubnormal v then 1 <<< 5
  else if f.isNormal v then 1 <<< 6
  else if f.isInfinite v then 1 <<< 7
  else 1 <<< 4

end FloatFormat

/-- The single in a register, which is a NaN unless it is boxed. -/
def unboxSingle (v : U64) : U32 := if v >>> 32 = 0xFFFF_FFFF then v.setWidth 32 else 0x7FC0_0000

/-- A single as a register value. -/
def boxSingle (v : U32) : U64 := 0xFFFF_FFFF_0000_0000 ||| v.setWidth 64

/-! ## Register operations -/

/-- The effect of a floating-point operation. -/
inductive FpResult where
  | freg (val : U64)
  | ireg (val : U64)
  /-- Illegal, on a path that returns at once. -/
  | illegalReturn
  /-- Illegal, on a path that falls through to the code after the match. -/
  | illegalFallthrough
  deriving DecidableEq

def boolToU64 (b : Bool) : U64 := if b then 1 else 0

/-- The sign bits a sign injection inserts. -/
def injectedSign (rm : U8) (a b signMask : U64) : Option U64 :=
  match rm with
  | 0#8 => some (b &&& signMask)
  | 1#8 => some (~~~b &&& signMask)
  | 2#8 => some ((a ^^^ b) &&& signMask)
  | _ => none

/-- The comparison selected by the rounding-mode field. -/
def fcompare {w : Nat} (ops : FloatOps w) (rm : U8) (a b : BitVec w) : FpResult :=
  match rm with
  | 0#8 => .ireg (boolToU64 (ops.le a b))
  | 1#8 => .ireg (boolToU64 (ops.lt a b))
  | 2#8 => .ireg (boolToU64 (ops.eq a b))
  | _ => .illegalReturn

/-- The conversion to an integer selected by the second register field. -/
def fcvtToInt {w : Nat} (ops : FloatOps w) (rs2 : Reg) (a : BitVec w) : FpResult :=
  match rs2 with
  | 0 => .ireg ((ops.toI32 a).signExtend 64)
  | 1 => .ireg ((ops.toU32 a).setWidth 64)
  | 2 => .ireg (ops.toI64 a)
  | 3 => .ireg (ops.toU64 a)
  | _ => .illegalReturn

/-- The conversion from an integer selected by the second register field. -/
def fcvtFromInt {w : Nat} (ops : FloatOps w) (box : BitVec w → U64) (rs2 : Reg) (a : U64) :
    FpResult :=
  match rs2 with
  | 0 => .freg (box (ops.ofI32 (a.setWidth 32)))
  | 1 => .freg (box (ops.ofU32 (a.setWidth 32)))
  | 2 => .freg (box (ops.ofI64 a))
  | 3 => .freg (box (ops.ofU64 a))
  | _ => .illegalReturn

/-- The minimum or maximum selected by the rounding-mode field. -/
def fminMax {w : Nat} (f : FloatFormat w) (ops : FloatOps w) (box : BitVec w → U64) (rm : U8)
    (a b : BitVec w) : FpResult :=
  match rm with
  | 0#8 => .freg (box (f.fmin a b ops))
  | 1#8 => .freg (box (f.fmax a b ops))
  | _ => .illegalFallthrough

/-- The result of an `OP-FP` instruction on the register file. -/
def opFpResult (fpu : Fpu) (c : Cpu) (funct7 : U8) (rs2 rs1 : Reg) (rm : U8) : FpResult :=
  let x := c.fregs rs1
  let y := c.fregs rs2
  let xs := unboxSingle x
  let ys := unboxSingle y
  match funct7 with
  | 0x00#8 => .freg (boxSingle (fpu.s.add xs ys))
  | 0x01#8 => .freg (fpu.d.add x y)
  | 0x04#8 => .freg (boxSingle (fpu.s.sub xs ys))
  | 0x05#8 => .freg (fpu.d.sub x y)
  | 0x08#8 => .freg (boxSingle (fpu.s.mul xs ys))
  | 0x09#8 => .freg (fpu.d.mul x y)
  | 0x0C#8 => .freg (boxSingle (fpu.s.div xs ys))
  | 0x0D#8 => .freg (fpu.d.div x y)
  | 0x2C#8 => .freg (boxSingle (fpu.s.sqrt xs))
  | 0x2D#8 => .freg (fpu.d.sqrt x)
  | 0x10#8 =>
      match injectedSign rm x y 0x8000_0000 with
      | some sign => .freg (0xFFFF_FFFF_0000_0000 ||| (x &&& 0x7FFF_FFFF) ||| sign)
      | none => .illegalReturn
  | 0x11#8 =>
      match injectedSign rm x y 0x8000_0000_0000_0000 with
      | some sign => .freg ((x &&& 0x7FFF_FFFF_FFFF_FFFF) ||| sign)
      | none => .illegalReturn
  | 0x14#8 => fminMax binary32 fpu.s boxSingle rm xs ys
  | 0x15#8 => fminMax binary64 fpu.d id rm x y
  | 0x20#8 => .freg (boxSingle (fpu.narrow x))
  | 0x21#8 => .freg (fpu.widen xs)
  | 0x50#8 => fcompare fpu.s rm xs ys
  | 0x51#8 => fcompare fpu.d rm x y
  | 0x60#8 => fcvtToInt fpu.s rs2 xs
  | 0x61#8 => fcvtToInt fpu.d rs2 x
  | 0x68#8 => fcvtFromInt fpu.s boxSingle rs2 (c.regs rs1)
  | 0x69#8 => fcvtFromInt fpu.d id rs2 (c.regs rs1)
  | 0x70#8 =>
      match rm with
      | 0#8 => .ireg ((x.setWidth 32).signExtend 64)
      | 1#8 => .ireg (binary32.fclass xs)
      | _ => .illegalFallthrough
  | 0x71#8 =>
      match rm with
      | 0#8 => .ireg x
      | 1#8 => .ireg (binary64.fclass x)
      | _ => .illegalFallthrough
  | 0x78#8 => .freg (0xFFFF_FFFF_0000_0000 ||| (c.regs rs1 &&& 0xFFFF_FFFF))
  | 0x79#8 => .freg (c.regs rs1)
  | _ => .illegalFallthrough

/-- The signs a fused multiply-add gives its first factor and its addend. -/
def fmaResult {w : Nat} (f : FloatFormat w) (ops : FloatOps w) (opcode : U8) (a b c : BitVec w) :
    Option (BitVec w) :=
  match opcode with
  | 0x43#8 => some (ops.mulAdd a b c)
  | 0x47#8 => some (ops.mulAdd a b (f.neg c))
  | 0x4B#8 => some (ops.mulAdd (f.neg a) b c)
  | 0x4F#8 => some (ops.mulAdd (f.neg a) b (f.neg c))
  | _ => none

/-- The value of a fused multiply-add on the register file. -/
def fmaValue (fpu : Fpu) (c : Cpu) (opcode fmt : U8) (rs3 rs2 rs1 : Reg) : Option U64 :=
  match fmt with
  | 0#8 =>
      (fmaResult binary32 fpu.s opcode (unboxSingle (c.fregs rs1)) (unboxSingle (c.fregs rs2))
        (unboxSingle (c.fregs rs3))).map boxSingle
  | 1#8 => fmaResult binary64 fpu.d opcode (c.fregs rs1) (c.fregs rs2) (c.fregs rs3)
  | _ => none

/-- The result of a fused multiply-add on the register file. -/
def fmaFpResult (fpu : Fpu) (c : Cpu) (opcode fmt : U8) (rs3 rs2 rs1 : Reg) : FpResult :=
  match fmaValue fpu c opcode fmt rs3 rs2 rs1 with
  | some v => .freg v
  | none => .illegalFallthrough

end RiscvEmu

import RiscvEmu.Cpu.DecodeRvc
import RiscvEmu.Cpu.Execute

/-!
# One step of the hart

A step takes a pending interrupt if there is one, and otherwise fetches, decodes and executes
one instruction.  Every failure on the way is a trap, so a step is a retired instruction or a
delivered trap.
-/

namespace RiscvEmu

namespace Cpu

/-- The cause of an interrupt. -/
def interruptTrap (code : Nat) : Trap := ⟨(1 <<< 63) ||| BitVec.ofNat 64 code, 0⟩

/-- Fetch an encoding: the low half, and the high half unless the low one is compressed.  A high
half on the next page is translated on its own. -/
def fetch (mode : PrivMode) (pc : U64) : Run Cpu Trap U32 := do
  let pa ← translateOrTrap mode pc .fetch
  let lo ← busLoad pa .b2 ⟨1, pc⟩
  let lo16 : U16 := lo.setWidth 16
  if lo16 &&& 0x3 ≠ 0x3 then pure (lo16.setWidth 32)
  else do
    let paHi ←
      if pc &&& 0xfff = 0xffe then translateOrTrap mode (pc + 2) .fetch else pure (pa + 2)
    let hi ← busLoad paHi .b2 ⟨1, pc + 2⟩
    let hi16 : U16 := hi.setWidth 16
    pure (lo16.setWidth 32 ||| (hi16.setWidth 32 <<< 16))

/-- Decode a fetched encoding: the size of the instruction, and the instruction or the value its
illegal-instruction trap reports. -/
def decodeFetched (raw : U32) : U64 × Except U64 Instruction :=
  if raw &&& 0x3 ≠ 0x3 then
    (2, (decodeRvc (raw.setWidth 16)).mapError fun _ => (raw &&& 0xffff).setWidth 64)
  else (4, (decode raw).mapError fun _ => raw.setWidth 64)

/-- Decode and execute a fetched encoding. -/
def executeFetched (fpu : Fpu) (raw : U32) (c : Cpu) : Option Retired :=
  let c := { c with instSize := (decodeFetched raw).1 }
  match (decodeFetched raw).2 with
  | .error tval => some (c.raise ⟨2, tval⟩)
  | .ok inst => execute fpu inst c

/-- Run one step. -/
def step (fpu : Fpu) (c : Cpu) : Option Retired :=
  match c.nextInterrupt with
  | some code => some (c.raise (interruptTrap code))
  | none =>
      if c.pc &&& 0x1 ≠ 0 then some (c.raise ⟨0, c.pc⟩)
      else orRaise (fetch c.mode c.pc) (executeFetched fpu) c

end Cpu

end RiscvEmu

import RiscvEmu.Cpu.State

/-!
# Memory callouts of compiled blocks

Compiled code reaches memory through one function for each width and direction.  They report a
fault with the all-ones word instead of a trap, and the block then leaves without the result.

The callouts translate once and in the mode of the hart, whatever `MPRV` says and wherever the
access ends.
-/

namespace RiscvEmu.Cpu

/-- Load `width` bytes, zero-extended, or all ones on a fault. -/
def jitLoad (width : Width) (addr : U64) (c : Cpu) : Option (U64 × Cpu) :=
  match translate c.mode addr .load c with
  | none => none
  | some (.error _, c) => some (u64Max, c)
  | some (.ok pa, c) =>
      match c.bus.load pa width with
      | none => none
      | some (.error _, bus) => some (u64Max, { c with bus := bus })
      | some (.ok v, bus) => some (v, { c with bus := bus })

/-- Store `width` bytes.  The result is zero, or all ones on a fault. -/
def jitStore (width : Width) (addr val : U64) (c : Cpu) : Option (U64 × Cpu) :=
  match translate c.mode addr .store c with
  | none => none
  | some (.error _, c) => some (u64Max, c)
  | some (.ok pa, c) =>
      match c.bus.store pa width val with
      | none => none
      | some (.error _, bus) => some (u64Max, { c with bus := bus })
      | some (.ok (), bus) => some (0, { c with bus := bus })

def jitLoad8 : U64 → Cpu → Option (U64 × Cpu) := jitLoad .b1
def jitLoad16 : U64 → Cpu → Option (U64 × Cpu) := jitLoad .b2
def jitLoad32 : U64 → Cpu → Option (U64 × Cpu) := jitLoad .b4
def jitLoad64 : U64 → Cpu → Option (U64 × Cpu) := jitLoad .b8

def jitStore8 : U64 → U64 → Cpu → Option (U64 × Cpu) := jitStore .b1
def jitStore16 : U64 → U64 → Cpu → Option (U64 × Cpu) := jitStore .b2
def jitStore32 : U64 → U64 → Cpu → Option (U64 × Cpu) := jitStore .b4
def jitStore64 : U64 → U64 → Cpu → Option (U64 × Cpu) := jitStore .b8

end RiscvEmu.Cpu

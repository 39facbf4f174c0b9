import RiscvEmu.Jit.Rvc

/-!
# Blocks

A block is the code of the instructions from an address on, up to one that leaves it, one that
has no code, or one that cannot be fetched.  Fetching goes through the translation and the bus of
the hart, and leaves its traces there.  A block is kept when it has at least one instruction, under
its address alone.
-/

namespace RiscvEmu.Jit

/-! ## Compilation -/

/-- The compiled blocks, by address. -/
abbrev JitCache := U64 → Option Code

namespace JitCache

def new : JitCache := fun _ => none

def get (jit : JitCache) (pc : U64) : Option Code := jit pc

def insert (jit : JitCache) (pc : U64) (code : Code) : JitCache :=
  Function.update jit pc (some code)

/-- Forget every block. -/
def invalidate (_ : JitCache) : JitCache := new

end JitCache

/-- Fetch four bytes for the compiler, in the mode of the hart.  The trap of a failure is not
delivered. -/
def fetchRaw (pc : U64) : Run Cpu Trap U32 := fun c =>
  (do
    let pa ← Cpu.translateOrTrap c.mode pc .fetch
    let v ← Cpu.busLoad pa .b4 ⟨1, pc⟩
    pure (v.setWidth 32)) c

/-- Leave the block before an instruction.  A block without instructions takes the slow path. -/
def blockExit (guestPc : U64) (instCount : Nat) : Code :=
  if instCount > 0 then emitReturn guestPc else emitSlowPath

/-- The code of fetched bytes, and the size of their instruction. -/
def emitRaw (h : Host) (raw4 : U32) (guestPc : U64) : (Code × Effect) × U64 :=
  if raw4 &&& 0x3 ≠ 0x3 then (emitRvc h (raw4.setWidth 16) guestPc, 2)
  else
    match decode raw4 with
    | .ok inst => (emitInst h guestPc (guestPc + 4) inst, 4)
    | .error _ => (([], .unhandled), 4)

/-- The most instructions of a block. -/
def maxInsts : Nat := 128

/-- The code of a block from an address on, for at most the given number of further instructions,
and the number of its instructions. -/
def emitBlock (h : Host) : Nat → U64 → Nat → Cpu → Option ((Code × Nat) × Cpu)
  | 0, guestPc, instCount, c => some ((emitReturn guestPc, instCount), c)
  | left + 1, guestPc, instCount, c =>
      match fetchRaw guestPc c with
      | none => none
      | some (.error _, c) => some ((blockExit guestPc instCount, instCount), c)
      | some (.ok raw4, c) =>
          let ((code, effect), instSize) := emitRaw h raw4 guestPc
          match effect with
          | .seq =>
              (emitBlock h left (guestPc + instSize) (instCount + 1) c).map
                fun ((rest, instCount), c) => ((code ++ rest, instCount), c)
          | .terminal => some ((code, instCount + 1), c)
          | .unhandled => some ((code ++ blockExit guestPc instCount, instCount), c)

/-- Compile the block at an address, unless there is one or its first bytes cannot be fetched. -/
def compile (h : Host) (jit : JitCache) (startPc : U64) (c : Cpu) : Option (JitCache × Cpu) :=
  if (jit.get startPc).isSome then some (jit, c)
  else
    match fetchRaw startPc c with
    | none => none
    | some (.error _, c) => some (jit, c)
    | some (.ok _, c) =>
        match emitBlock h maxInsts startPc 0 c with
        | none => none
        | some ((body, instCount), c) =>
            some (if instCount > 0 then jit.insert startPc (emitPrologue ++ body) else jit, c)

/-! ## Running a block -/

/-- The state in which a block is called, with the register file and the hart as arguments. -/
def entryState (h : Host) (c : Cpu) : X86.State Cpu where
  regs :=
    { rax := h.scratch .rax, rcx := h.scratch .rcx, rdx := h.scratch .rdx, rsi := h.cpu
      rdi := h.regs, r14 := h.scratch .r14, r15 := h.scratch .r15 }
  flags := none
  stack := [h.fresh]
  mem := c

/-- Call a block.  The result is the value it returns. -/
def runBlock (h : Host) (code : Code) (c : Cpu) : Option (U64 × Cpu) :=
  match X86.run h.env code (.here (entryState h c)) with
  | .returned _ s => some (s.regs.rax, s.mem)
  | _ => none

end RiscvEmu.Jit

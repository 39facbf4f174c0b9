import RiscvEmu.Jit.Callouts
import RiscvEmu.Lib.X86

/-!
# The machine under a compiled block

Compiled code addresses the hart through two pointers, to its register file and to the hart
itself, and calls the memory callouts by address.  A `Host` is a choice of these addresses, and
the memory of the x86 machine is the hart they lead to: a word at a register's address is the
register, and a word at the address of `pc` is the program counter.  Nothing else of the hart is
reached by address.
-/

namespace RiscvEmu

/-- The addresses compiled code contains or is given. -/
structure Host where
  /-- The address of `cpu.regs[0]`. -/
  regs : U64
  /-- The address of the hart. -/
  cpu : U64
  /-- The offset of `pc` in the hart. -/
  pcOffset : U32
  loadHelper : Width → U64
  storeHelper : Width → U64
  /-- What a call leaves in the registers its caller has to save. -/
  scratch : X86.Reg → U64
  /-- The word in the padding of a stack frame. -/
  fresh : U64
  /-- `pc` is not a word of the register file. -/
  pc_apart : 256 ≤ (cpu + pcOffset.signExtend 64 - regs).toNat
  load_inj : Function.Injective loadHelper
  store_inj : Function.Injective storeHelper
  apart : ∀ w w', loadHelper w ≠ storeHelper w'

namespace Host

variable (h : Host)

/-- The address of the program counter. -/
def pcAddr : U64 := h.cpu + h.pcOffset.signExtend 64

/-- The register at an address. -/
def slot (addr : U64) : Option Reg :=
  let off := (addr - h.regs).toNat
  if hlt : off / 8 < 32 then if off % 8 = 0 then some ⟨off / 8, hlt⟩ else none else none

/-- Load a word of the hart. -/
def load (addr : U64) (c : Cpu) : Option U64 := (h.slot addr).map c.regs

/-- Store a word of the hart. -/
def store (addr val : U64) (c : Cpu) : Option Cpu :=
  match h.slot addr with
  | some r => some { c with regs := Function.update c.regs r val }
  | none => if addr = h.pcAddr then some { c with pc := val } else none

/-- The widths of the callouts. -/
def widths : List Width := [.b1, .b2, .b4, .b8]

/-- Call a function at an address, with the hart as its first argument. -/
def call (target rdi rsi rdx : U64) (c : Cpu) : Option (U64 × Cpu) :=
  if rdi ≠ h.cpu then none
  else
    match widths.find? fun w => decide (h.loadHelper w = target) with
    | some w => Cpu.jitLoad w rsi c
    | none =>
        match widths.find? fun w => decide (h.storeHelper w = target) with
        | some w => Cpu.jitStore w rsi rdx c
        | none => none

/-- The machine that runs compiled code. -/
def env : X86.Env Cpu where
  load := h.load
  store := h.store
  call := h.call
  scratch := h.scratch
  fresh := h.fresh

end Host

end RiscvEmu

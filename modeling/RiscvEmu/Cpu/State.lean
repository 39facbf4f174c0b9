import RiscvEmu.Cpu.Mmu
import RiscvEmu.Cpu.Decode

/-!
# The processor

The state of the hart, the trap mechanism, and memory access through the translation.

An access that crosses a page boundary is split: both pages are translated first, and then the
bytes are moved one at a time.  A fault on the way leaves what was done before it.
-/

namespace RiscvEmu

/-- What a trap reports. -/
structure Trap where
  cause : U64
  tval : U64
  deriving DecidableEq

/-- The hart. -/
structure Cpu where
  regs : Reg → U64
  fregs : Reg → U64
  pc : U64
  bus : Bus
  csr : Csr
  /-- The physical address a load-reserved left. -/
  reservation : Option U64
  mode : PrivMode
  mmu : Mmu
  /-- The bytes of the current instruction, 2 or 4. -/
  instSize : U64
  /-- Set when a CSR instruction changed the root of the page tables. -/
  jitInvalidate : Bool
  /-- Set when a fetched instruction stream may have changed. -/
  fenceIPending : Bool

/-- The address a trap enters at: vectored for interrupts when the low bits ask for it. -/
def trapPc (tvec cause : U64) : U64 :=
  let base := tvec &&& ~~~(0x3 : U64)
  let mode := tvec &&& 0x3
  if cause >>> 63 ≠ 0 ∧ mode = 1 then base + (cause &&& ~~~(1 <<< 63 : U64)) * 4 else base

namespace Cpu

def new (bus : Bus) (entry : U64) : Cpu where
  regs := fun _ => 0
  fregs := fun _ => 0
  pc := entry
  bus := bus
  csr := .new
  reservation := none
  mode := .m
  mmu := .new
  instSize := 4
  jitInvalidate := false
  fenceIPending := false

/-! ## Registers -/

/-- Read a CSR.  The `time` register is the timer of the bus. -/
def csrRead (c : Cpu) (addr : CsrAddr) : U64 :=
  if addr = 0xC01 then c.bus.clint.mtime else c.csr.read addr

def csrWrite (c : Cpu) (addr : CsrAddr) (val : U64) : Cpu := { c with csr := c.csr.write addr val }

/-- Read an integer register.  Register 0 reads as zero. -/
def reg (c : Cpu) (n : Reg) : U64 := if n = 0 then 0 else c.regs n

/-- Write an integer register.  A write of register 0 is ignored. -/
def setReg (c : Cpu) (n : Reg) (val : U64) : Cpu :=
  if n ≠ 0 then { c with regs := Function.update c.regs n val } else c

/-- Write a floating-point register. -/
def setFreg (c : Cpu) (n : Reg) (val : U64) : Cpu :=
  { c with fregs := Function.update c.fregs n val }

/-- Mark the floating-point state dirty. -/
def markFsDirty (c : Cpu) : Cpu :=
  { c with csr := { c.csr with mstatus := c.csr.mstatus ||| 0x6000 } }

/-! ## Traps -/

/-- Whether a trap of the given cause goes to S-mode. -/
def delegated (c : Cpu) (cause : U64) : Bool :=
  let causeCode := cause &&& ~~~(1 <<< 63 : U64)
  let delegReg := if cause >>> 63 ≠ 0 then c.csr.mideleg else c.csr.medeleg
  decide (causeCode.toNat < 64) && decide ((delegReg >>> causeCode.toNat) &&& 1 = 1)
    && decide (c.mode ≠ .m)

/-- Enter the trap handler of the destination mode. -/
def deliverTrap (c : Cpu) (cause tval : U64) : Cpu :=
  if c.delegated cause then
    { c with
      csr := { c.csr.sTrapEntry (decide (c.mode = .s)) with
        sepc := c.pc, scause := cause, stval := tval }
      pc := trapPc c.csr.stvec cause
      mode := .s }
  else
    { c with
      csr := { c.csr.trapEntry c.mode.code with mepc := c.pc, mcause := cause, mtval := tval }
      pc := trapPc c.csr.mtvec cause
      mode := .m }

/-- Whether an interrupt that is pending and enabled may be taken now. -/
def canFire (c : Cpu) (causeCode : Nat) : Bool :=
  let delegated := decide ((c.csr.mideleg >>> causeCode) &&& 1 = 1)
  match c.mode with
  | .m => !delegated && decide (c.csr.mieBit = 1)
  | .s | .u => if delegated then decide ((c.csr.mstatus >>> 1) &&& 1 = 1) else true

/-- The interrupt codes, highest priority first. -/
def interruptOrder : List Nat := [11, 3, 7, 9, 1, 5]

/-- The interrupt that would be taken now. -/
def nextInterrupt (c : Cpu) : Option Nat :=
  let pending := c.csr.mip &&& c.csr.mie
  interruptOrder.find? fun code => decide ((pending >>> code) &&& 1 ≠ 0) && c.canFire code

/-- Deliver the next interrupt, if there is one.  The flag says whether there was. -/
def checkInterrupts (c : Cpu) : Bool × Cpu :=
  match c.nextInterrupt with
  | some code => (true, c.deliverTrap ((1 <<< 63) ||| BitVec.ofNat 64 code) 0)
  | none => (false, c)

/-! ## Memory -/

/-- The mode loads and stores are made in. -/
def lsMode (c : Cpu) : PrivMode :=
  if (c.csr.mstatus >>> 17) &&& 1 = 1 then
    match (c.csr.mstatus >>> 11) &&& 3 with
    | 0#64 => .u
    | 1#64 => .s
    | _ => .m
  else c.mode

/-- Translate with the control state of the hart. -/
def translate (mode : PrivMode) (va : U64) (access : AccessType) : Run Cpu MmuFault U64 := fun c =>
  Run.zoom (fun c => (c.mmu, c.bus)) (fun s c => { c with mmu := s.1, bus := s.2 }) id
    (Mmu.translate c.csr.satp mode c.csr.mstatus va access) c

/-- Translate, with a fault as the trap it causes. -/
def translateOrTrap (mode : PrivMode) (va : U64) (access : AccessType) : Run Cpu Trap U64 :=
  Run.zoom id (fun c _ => c) (fun f => ⟨f.cause, f.tval⟩) (translate mode va access)

/-- Load from the bus, with a bus fault as the given trap. -/
def busLoad (pa : U64) (width : Width) (trap : Trap) : Run Cpu Trap U64 :=
  Run.zoom Cpu.bus (fun b c => { c with bus := b }) (fun _ => trap) (Bus.load pa width)

/-- Store to the bus, with a bus fault as the given trap. -/
def busStore (pa : U64) (width : Width) (value : U64) (trap : Trap) : Run Cpu Trap Unit :=
  Run.zoom Cpu.bus (fun b c => { c with bus := b }) (fun _ => trap) (Bus.store pa width value)

/-- The offset of an address in its page. -/
def pageOff (va : U64) : Nat := (va &&& 0xFFF).toNat

/-- The base of the page after an address. -/
def nextPage (va : U64) : U64 := (va &&& ~~~(0xFFF : U64)) + 0x1000

/-- Load bytes `i` up to `i + n` of the part of an access at `pa`, into byte `k + i` up of `v`. -/
def loadBytes (pa va : U64) (k : Nat) : (n i : Nat) → U64 → Run Cpu Trap U64
  | 0, _, v => pure v
  | n + 1, i, v => do
      let b ← busLoad (pa + BitVec.ofNat 64 i) .b1 ⟨5, va + BitVec.ofNat 64 i⟩
      loadBytes pa va k n (i + 1) (v ||| ((b &&& 0xff) <<< ((k + i) * 8)))

/-- Store bytes `k + i` up of `val` as bytes `i` up to `i + n` of the part of an access at `pa`. -/
def storeBytes (pa va : U64) (k : Nat) (val : U64) : (n i : Nat) → Run Cpu Trap Unit
  | 0, _ => pure ()
  | n + 1, i => do
      busStore (pa + BitVec.ofNat 64 i) .b1 ((val >>> ((k + i) * 8)) &&& 0xff)
        ⟨7, va + BitVec.ofNat 64 i⟩
      storeBytes pa va k val n (i + 1)

/-- Load through the translation.  A failing access gives the trap to deliver. -/
def mmuLoad (lsMode : PrivMode) (va : U64) (width : Width) : Run Cpu Trap U64 :=
  if pageOff va + width.bytes ≤ 0x1000 then do
    let pa ← translateOrTrap lsMode va .load
    busLoad pa width ⟨5, va⟩
  else do
    let first := 0x1000 - pageOff va
    let pa1 ← translateOrTrap lsMode va .load
    let pa2 ← translateOrTrap lsMode (nextPage va) .load
    let v ← loadBytes pa1 va 0 first 0 0
    loadBytes pa2 (nextPage va) first (width.bytes - first) 0 v

/-- Store through the translation.  A failing access gives the trap to deliver. -/
def mmuStore (lsMode : PrivMode) (va : U64) (width : Width) (val : U64) : Run Cpu Trap Unit :=
  if pageOff va + width.bytes ≤ 0x1000 then do
    let pa ← translateOrTrap lsMode va .store
    busStore pa width val ⟨7, va⟩
  else do
    let first := 0x1000 - pageOff va
    let pa1 ← translateOrTrap lsMode va .store
    let pa2 ← translateOrTrap lsMode (nextPage va) .store
    storeBytes pa1 va 0 val first 0
    storeBytes pa2 (nextPage va) first val (width.bytes - first) 0

end Cpu

end RiscvEmu

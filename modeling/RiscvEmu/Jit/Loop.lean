import RiscvEmu.Cpu.Step
import RiscvEmu.Jit.Compile

/-!
# The run loop

The loop runs the block at the program counter if there is one.  Otherwise it steps, and then
compiles the address it stepped from.  A block that returns all ones is followed by a step.  Then
come the flushes, and every 1024 ticks the devices, the interrupt lines they drive, and the
interrupts.

The bytes from the host terminal and the time that has passed are inputs of a round.
-/

namespace RiscvEmu.Jit

/-- The state of the loop. -/
structure Machine where
  cpu : Cpu
  jit : JitCache
  tick : U64
  /-- The tick of the last flush a `FENCE.I` caused. -/
  lastFenceIFlush : U64

/-- The state before the first round. -/
def Machine.start (cpu : Cpu) : Machine where
  cpu := cpu
  jit := .new
  tick := 0
  lastFenceIFlush := 0

/-- What the host hands to a round. -/
structure Input where
  stdin : List U8
  elapsed : U64

/-- The instructions of a round: a block, or a step.  The last part is the number of ticks. -/
def advance (h : Host) (fpu : Fpu) (jit : JitCache) (c : Cpu) : Option (Cpu × JitCache × U64) :=
  match jit.get c.pc with
  | some code =>
      match runBlock h code c with
      | none => none
      | some (next, c') =>
          if next = u64Max then (Cpu.step fpu c').map fun r => (r.cpu, jit, 1)
          else some ({ c' with pc := next }, jit, if c.mode = .m then 64 else 8)
  | none =>
      match Cpu.step fpu c with
      | none => none
      | some r =>
          if r.cpu.jitInvalidate = false ∧ r.cpu.fenceIPending = false then
            (compile h jit c.pc r.cpu).map fun (jit, c) => (c, jit, 1)
          else some (r.cpu, jit, 1)

/-- Flush the blocks when the root of the page tables changed. -/
def flushSatp (m : Machine) : Machine :=
  if m.cpu.jitInvalidate then
    { m with cpu := { m.cpu with jitInvalidate := false }, jit := m.jit.invalidate }
  else m

/-- Flush the blocks when a `FENCE.I` is pending, at most once in 65536 ticks. -/
def flushFenceI (m : Machine) : Machine :=
  if m.cpu.fenceIPending then
    let m := { m with cpu := { m.cpu with fenceIPending := false } }
    if 65536#64 ≤ m.tick - m.lastFenceIFlush then
      { m with jit := m.jit.invalidate, lastFenceIFlush := m.tick }
    else m
  else m

/-- Set or clear a bit of `mip`. -/
def setMip (c : Cpu) (bit : Nat) (active : Bool) : Cpu :=
  let mip := if active then c.csr.mip ||| (1 <<< bit : U64) else c.csr.mip &&& ~~~(1 <<< bit : U64)
  { c with csr := { c.csr with mip := mip } }

/-- The devices, the interrupt lines, and the interrupts.  The line of the supervisor timer is left
alone until its compare register was written. -/
def poll (input : Input) (c : Cpu) : Cpu :=
  let c :=
    if c.bus.uart.stdinReady then
      { c with bus := { c.bus with uart := input.stdin.foldl .pushRx c.bus.uart } }
    else c
  let clint : Clint := { c.bus.clint with mtime := c.bus.clint.mtime + input.elapsed }
  let c := { c with bus := { c.bus with clint := clint } }
  let c := setMip c 7 (decide (clint.mtimecmp ≤ clint.mtime))
  let c :=
    if c.csr.stimecmp ≠ u64Max then setMip c 5 (decide (c.csr.stimecmp ≤ clint.mtime)) else c
  let plic := (c.bus.plic.setPending 10 c.bus.uart.irqPending).setPending 1
    (decide (c.bus.virtioBlk.irqStatus ≠ 0))
  let c := { c with bus := { c.bus with plic := plic } }
  let c := setMip c 9 plic.hasInterrupt
  c.checkInterrupts.2

/-- One round. -/
def round (h : Host) (fpu : Fpu) (input : Input) (m : Machine) : Option Machine :=
  match advance h fpu m.jit m.cpu with
  | none => none
  | some (cpu, jit, tickInc) =>
      let m := flushFenceI (flushSatp { m with cpu := cpu, jit := jit })
      let m := { m with tick := m.tick + tickInc }
      some (if m.tick &&& 1023 = 0 then { m with cpu := poll input m.cpu } else m)

end RiscvEmu.Jit

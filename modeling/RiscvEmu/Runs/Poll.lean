import RiscvEmu.Runs.Clock

/-!
# The parts of a service

A service takes bytes from the terminal, advances the timer, drives the interrupt lines from the
devices, and then takes an interrupt if it can.  `poll_eq` names the parts.  Only two of them change
the bus, each of them in one device, or in two lines of the interrupt controller.
-/

namespace RiscvEmu.Jit

/-- The serial port takes bytes once the guest has asked for them. -/
def receive (input : Input) (c : Cpu) : Cpu :=
  if c.bus.uart.stdinReady then
    { c with bus := { c.bus with uart := input.stdin.foldl .pushRx c.bus.uart } }
  else c

/-- The timer advances. -/
def advanceClock (input : Input) (c : Cpu) : Cpu :=
  { c with bus := { c.bus with clint :=
    { c.bus.clint with mtime := c.bus.clint.mtime + input.elapsed } } }

/-- The lines of the two timers. -/
def timerLines (c : Cpu) : Cpu :=
  let c := setMip c 7 (decide (c.bus.clint.mtimecmp ≤ c.bus.clint.mtime))
  if c.csr.stimecmp ≠ u64Max then setMip c 5 (decide (c.csr.stimecmp ≤ c.bus.clint.mtime)) else c

/-- The interrupt controller with the lines of the serial port and of the block device. -/
def deviceLines (b : Bus) : Plic :=
  (b.plic.setPending 10 b.uart.irqPending).setPending 1 (decide (b.virtioBlk.irqStatus ≠ 0))

/-- The lines of the devices, and the one of the interrupt controller. -/
def externalLines (c : Cpu) : Cpu :=
  setMip { c with bus := { c.bus with plic := deviceLines c.bus } } 9
    (deviceLines c.bus).hasInterrupt

/-- The hart of a service before it takes an interrupt. -/
def serviced (input : Input) (c : Cpu) : Cpu :=
  externalLines (timerLines (advanceClock input (receive input c)))

variable {input : Input} {c : Cpu}

/-- A service and its parts. -/
theorem poll_eq (input : Input) (c : Cpu) :
    poll input c = (serviced input c).checkInterrupts.2 := rfl

@[simp] theorem setMip_bus (bit : Nat) (active : Bool) : (setMip c bit active).bus = c.bus := rfl

@[simp] theorem timerLines_bus : (timerLines c).bus = c.bus := by
  unfold timerLines
  dsimp only
  split <;> rfl

/-- The bus after a service. -/
theorem poll_bus (input : Input) (c : Cpu) : (poll input c).bus =
    { (advanceClock input (receive input c)).bus with
      plic := deviceLines (advanceClock input (receive input c)).bus } := by
  rw [poll_eq, checkInterrupts_bus, serviced, externalLines]
  rw [setMip_bus, timerLines_bus]

theorem receive_uart (input : Input) (c : Cpu) : (receive input c).bus = { c.bus with
    uart := if c.bus.uart.stdinReady then input.stdin.foldl .pushRx c.bus.uart
      else c.bus.uart } := by
  rw [receive]
  split <;> rfl

end RiscvEmu.Jit

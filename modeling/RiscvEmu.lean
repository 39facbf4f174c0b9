import RiscvEmu.Lib.Run
import RiscvEmu.Lib.Bytes
import RiscvEmu.Lib.Windows
import RiscvEmu.Lib.Scan
import RiscvEmu.Lib.Responder
import RiscvEmu.Lib.Matcher
import RiscvEmu.Word
import RiscvEmu.Device.Clint
import RiscvEmu.Device.Plic
import RiscvEmu.Interrupts.Arbitration
import RiscvEmu.Device.Uart
import RiscvEmu.Serial.Stream
import RiscvEmu.Serial.Output
import RiscvEmu.Device.Ram
import RiscvEmu.Device.VirtioBlk
import RiscvEmu.Bus
import RiscvEmu.Cpu.Csr
import RiscvEmu.Csrs.Aliases
import RiscvEmu.Cpu.Mmu
import RiscvEmu.Cpu.Decode
import RiscvEmu.Cpu.DecodeRvc
import RiscvEmu.Cpu.State
import RiscvEmu.Cpu.Fpu
import RiscvEmu.Cpu.Execute
import RiscvEmu.Cpu.Step
import RiscvEmu.Lib.Radix
import RiscvEmu.Translation.Pte
import RiscvEmu.Lib.System
import RiscvEmu.Interrupts.Gating
import RiscvEmu.Virtio.Checked
import RiscvEmu.Virtio.Reset
import RiscvEmu.Virtio.Requests
import RiscvEmu.Virtio.Queue
import RiscvEmu.Virtio.Completion
import RiscvEmu.Virtio.Notify
import RiscvEmu.Lib.PollLoop
import RiscvEmu.Virtio.Termination
import RiscvEmu.Virtio.Placed
import RiscvEmu.Virtio.RingSize
import RiscvEmu.Virtio.Chains
import RiscvEmu.Lib.Splice
import RiscvEmu.Virtio.RoundTrip
import RiscvEmu.Virtio.Capacity
import RiscvEmu.RamAccess
import RiscvEmu.Device.Widths
import RiscvEmu.Translation.Cases
import RiscvEmu.Translation.Tables
import RiscvEmu.Translation.Reference
import RiscvEmu.Translation.Transparency
import RiscvEmu.Translation.WriteBack
import RiscvEmu.Translation.Permission
import RiscvEmu.Translation.Marking
import RiscvEmu.Translation.Pages
import RiscvEmu.Execution.Endings
import RiscvEmu.Execution.Privilege
import RiscvEmu.Execution.Accesses
import RiscvEmu.Execution.Causes
import RiscvEmu.Execution.Precise
import RiscvEmu.Execution.Isolation
import RiscvEmu.Execution.Stable
import RiscvEmu.Decoding.Ranges
import RiscvEmu.Lib.Words
import RiscvEmu.Execution.Extension
import RiscvEmu.Execution.Arithmetic
import RiscvEmu.Execution.Atomics
import RiscvEmu.Execution.Widths
import RiscvEmu.Execution.WordResults
import RiscvEmu.Decoding.Encoding
import RiscvEmu.Decoding.Fidelity
import RiscvEmu.Decoding.Expansion
import RiscvEmu.Jit.Callouts
import RiscvEmu.Native.Callouts
import RiscvEmu.Lib.X86
import RiscvEmu.Jit.Host
import RiscvEmu.Jit.Emit
import RiscvEmu.Jit.Rvc
import RiscvEmu.Jit.Compile
import RiscvEmu.Jit.Loop
import RiscvEmu.Csrs.Satp
import RiscvEmu.Native.Outcome
import RiscvEmu.Native.Division
import RiscvEmu.Native.Straight
import RiscvEmu.Native.Fields
import RiscvEmu.Native.Compressed
import RiscvEmu.Native.Blocks
import RiscvEmu.Native.Fetch
import RiscvEmu.Native.Restart
import RiscvEmu.Execution.Bytewise
import RiscvEmu.Execution.Reservation
import RiscvEmu.Runs.Interleaving
import RiscvEmu.Runs.Registers
import RiscvEmu.Runs.Parity
import RiscvEmu.Runs.Summary
import RiscvEmu.Runs.Service
import RiscvEmu.Runs.Clock
import RiscvEmu.Runs.Pending
import RiscvEmu.Execution.Traps
import RiscvEmu.Interrupts.Repeated
import RiscvEmu.Decoding.Reserved
import RiscvEmu.Lib.Overlay
import RiscvEmu.Boot.Loader
import RiscvEmu.Boot.Loading
import RiscvEmu.Boot.Setup
import RiscvEmu.Boot.Images
import RiscvEmu.Lib.Simulation
import RiscvEmu.Runs.Poll
import RiscvEmu.Refinement.Sizes
import RiscvEmu.Refinement.Fetching
import RiscvEmu.Refinement.Blocks
import RiscvEmu.Refinement.Loop
import RiscvEmu.Execution.Frames
import RiscvEmu.Execution.Aborts
import RiscvEmu.Lib.Scatter
import RiscvEmu.Native.Places
import RiscvEmu.Runs.Frames
import RiscvEmu.Runs.Aborts
import RiscvEmu.Runs.Flushes
import RiscvEmu.Refinement.Interpreter
import RiscvEmu.Refinement.Tame
import RiscvEmu.Refinement.Hosts
import RiscvEmu.Confinement.Tables
import RiscvEmu.Confinement.Accesses
import RiscvEmu.Confinement.Steps
import RiscvEmu.Confinement.Program
import RiscvEmu.Confinement.Hidden
import RiscvEmu.Confinement.Blindness

import RiscvEmu.Boot.Loader
import RiscvEmu.Cpu.State

/-!
# Setting up the machine

The machine starts with an ELF file loaded, and may get a kernel image, an initial RAM disk, a disk
and a device tree, in this order.  The images go to fixed addresses, one after the other.

The device tree is a sequence of calls to a library that writes flattened trees.  What it makes of
the calls is a parameter, and so are the parser of ELF files, the files themselves and whether the
standard input is a terminal.  An abort of the emulator is `none`.
-/

namespace RiscvEmu

/-! ## The device tree -/

/-- A call to the writer of a device tree. -/
inductive FdtCall where
  | beginNode (name : String)
  | endNode
  | propertyNull (name : String)
  | propertyString (name val : String)
  | propertyU32 (name : String) (val : U32)
  | propertyU64 (name : String) (val : U64)
  | propertyArrayU32 (name : String) (val : List U32)
  | propertyPhandle (val : U32)
  deriving DecidableEq

namespace Dtb

def initrdBase : U64 := 0x8600_0000

def diskBootargs : String :=
  "console=ttyS0 earlycon=uart8250,mmio,0x10000000 TERM=dumb root=/dev/vda rw rootwait " ++
    "rootflags=noatime,data=writeback ima=off nokaslr " ++
    "lsm=lockdown,capability,landlock,yama,apparmor,tomoyo,ipe,ima,evm"

def initrdBootargs : String :=
  "console=ttyS0 earlycon=uart8250,mmio,0x10000000 TERM=dumb rdinit=/init ima=off nokaslr"

/-- The range of the initial RAM disk, when there is one. -/
def initrdCalls (initrdSize : U64) : Option (List FdtCall) :=
  if 0 < initrdSize then do
    let initrdEnd ← Loader.checkedAdd initrdBase initrdSize
    return [.propertyU64 "linux,initrd-start" initrdBase, .propertyU64 "linux,initrd-end" initrdEnd]
  else some []

def chosenCalls (hasDisk : Bool) (initrd : List FdtCall) : List FdtCall :=
  [.beginNode "chosen", .propertyString "stdout-path" "/soc/serial@10000000",
    .propertyString "bootargs" (if hasDisk then diskBootargs else initrdBootargs)] ++
  initrd ++ [.endNode]

def rootCalls : List FdtCall :=
  [.beginNode "", .propertyU32 "#address-cells" 2, .propertyU32 "#size-cells" 2,
    .propertyString "compatible" "riscv-virtio", .propertyString "model" "riscv-virtio,qemu"]

def cpusCalls : List FdtCall :=
  [.beginNode "cpus", .propertyU32 "#address-cells" 1, .propertyU32 "#size-cells" 0,
    .propertyU32 "timebase-frequency" 10000000,
    .beginNode "cpu@0", .propertyString "device_type" "cpu", .propertyU32 "reg" 0,
    .propertyString "status" "okay", .propertyString "compatible" "riscv",
    .propertyString "riscv,isa" "rv64imafdcsu", .propertyString "mmu-type" "riscv,sv39",
    .beginNode "interrupt-controller", .propertyPhandle 1, .propertyU32 "#interrupt-cells" 1,
    .propertyString "compatible" "riscv,cpu-intc", .propertyNull "interrupt-controller", .endNode,
    .endNode, .endNode]

def memoryCalls : List FdtCall :=
  [.beginNode "memory@80000000", .propertyString "device_type" "memory",
    .propertyArrayU32 "reg" [0, 0x8000_0000, 0, 0x1000_0000], .endNode]

def virtioCalls : List FdtCall :=
  [.beginNode "virtio_mmio@10001000", .propertyString "compatible" "virtio,mmio",
    .propertyArrayU32 "reg" [0, 0x1000_1000, 0, 0x1000], .propertyU32 "interrupts" 1,
    .propertyU32 "interrupt-parent" 2, .endNode]

def socCalls (hasDisk : Bool) : List FdtCall :=
  [.beginNode "soc", .propertyU32 "#address-cells" 2, .propertyU32 "#size-cells" 2,
    .propertyString "compatible" "simple-bus", .propertyNull "ranges",
    .beginNode "clint@2000000", .propertyString "compatible" "riscv,clint0",
    .propertyArrayU32 "interrupts-extended" [1, 3, 1, 7],
    .propertyArrayU32 "reg" [0, 0x0200_0000, 0, 0x0001_0000], .endNode,
    .beginNode "plic@c000000", .propertyString "compatible" "sifive,plic-1.0.0",
    .propertyPhandle 2, .propertyU32 "#interrupt-cells" 1, .propertyNull "interrupt-controller",
    .propertyArrayU32 "interrupts-extended" [1, 11, 1, 9],
    .propertyArrayU32 "reg" [0, 0x0C00_0000, 0, 0x0400_0000], .propertyU32 "riscv,ndev" 31,
    .endNode] ++
  (if hasDisk then virtioCalls else []) ++
  [.beginNode "serial@10000000", .propertyString "compatible" "ns16550a",
    .propertyArrayU32 "reg" [0, 0x1000_0000, 0, 0x100], .propertyU32 "clock-frequency" 3686400,
    .propertyU32 "interrupts" 10, .propertyU32 "interrupt-parent" 2, .endNode,
    .endNode]

/-- The calls that describe the machine. -/
def calls (initrdSize : U64) (hasDisk : Bool) : Option (List FdtCall) :=
  (initrdCalls initrdSize).map fun initrd =>
    rootCalls ++ chosenCalls hasDisk initrd ++ cpusCalls ++ memoryCalls ++ socCalls hasDisk ++
      [.endNode]

/-- The flattened tree, unless the writer fails. -/
def buildDtb (write : List FdtCall → Option (List U8)) (initrdSize : U64) (hasDisk : Bool) :
    Option (Option (List U8)) :=
  (calls initrdSize hasDisk).map write

end Dtb

/-! ## The images -/

namespace Setup

open Loader (ramBase LoadError)
open Dtb (initrdBase)

def dtbBase : U64 := 0x8220_0000
def kernelBase : U64 := 0x8020_0000

/-- The arguments of the emulator that matter here, with paths for files. -/
structure Args where
  binary : String
  dtb : Bool
  kernel : Option String
  initrd : Option String
  disk : Option String

/-- Why the machine was not set up. -/
inductive SetupError where
  | read (path : String)
  | load (e : LoadError)
  | kernelWithoutDtb
  | diskWithoutDtb
  | overflow (physAddr : U64) (size : Nat)
  | tooLarge (path : String) (physAddr : U64) (size : Nat)
  | openDisk (path : String)
  | dtb
  deriving DecidableEq

def SetupError.text : SetupError → String
  | .read path => "failed to read " ++ path
  | .load e => e.text
  | .kernelWithoutDtb => "--kernel requires --dtb"
  | .diskWithoutDtb => "--disk requires --dtb"
  | .overflow physAddr size =>
      "load overflows address space: " ++ Loader.hex physAddr ++ " + " ++ toString size ++ " bytes"
  | .tooLarge path physAddr size =>
      path ++ ": file too large — " ++ Loader.hex physAddr ++ " + " ++ toString size ++
        " bytes exceeds RAM"
  | .openDisk path => "failed to open disk image " ++ path
  | .dtb => "failed to build device tree"

/-- Copy a file to an address.  The result is its size. -/
def loadRaw (files : String → Option (List U8)) (bus : Bus) (path : String) (physAddr : U64) :
    Except SetupError (Bus × Nat) :=
  match files path with
  | none => .error (.read path)
  | some bytes =>
      let off := (physAddr - ramBase).toNat
      if 2 ^ 64 ≤ off + bytes.length then .error (.overflow physAddr bytes.length)
      else if bus.ram.len.toNat < off + bytes.length then
        .error (.tooLarge path physAddr bytes.length)
      else .ok ({ bus with ram := bus.ram.fill off bytes }, bytes.length)

/-- Copy a file that may not be given. -/
def loadGiven (files : String → Option (List U8)) (bus : Bus) (path : Option String)
    (physAddr : U64) : Except SetupError (Bus × Nat) :=
  match path with
  | none => .ok (bus, 0)
  | some path => loadRaw files bus path physAddr

def attachDisk (files : String → Option (List U8)) (bus : Bus) (path : Option String) :
    Except SetupError Bus :=
  match path with
  | none => .ok bus
  | some path =>
      match files path with
      | none => .error (.openDisk path)
      | some content => .ok { bus with virtioBlk := .new (some ⟨content, 0⟩) }

/-- The kernel, the initial RAM disk and the disk.  The size is that of the second. -/
def loadImages (files : String → Option (List U8)) (args : Args) (bus : Bus) :
    Except SetupError (Bus × U64) := do
  let (bus, _) ← loadGiven files bus args.kernel kernelBase
  let (bus, initrdSize) ← loadGiven files bus args.initrd initrdBase
  let bus ← attachDisk files bus args.disk
  return (bus, BitVec.ofNat 64 initrdSize)

/-- Put the device tree into RAM and tell the firmware where it is. -/
def installDtb (write : List FdtCall → Option (List U8)) (initrdSize : U64) (hasDisk : Bool)
    (cpu : Cpu) : Option (Except SetupError Cpu) :=
  match Dtb.buildDtb write initrdSize hasDisk with
  | none => none
  | some none => some (.error .dtb)
  | some (some dtbBytes) =>
      let off := (dtbBase - ramBase).toNat
      if cpu.bus.ram.len.toNat < off + dtbBytes.length then none
      else
        let cpu := { cpu with bus := { cpu.bus with ram := cpu.bus.ram.fill off dtbBytes } }
        some (.ok ((cpu.setReg 10 0).setReg 11 dtbBase))

/-- What `main` does up to the run loop. -/
def setup (parse : List U8 → Option Elf) (write : List FdtCall → Option (List U8))
    (files : String → Option (List U8)) (isTerminal : Bool) (args : Args) :
    Option (Except SetupError Cpu) :=
  match files args.binary with
  | none => some (.error (.read args.binary))
  | some bytes =>
    match Loader.loadElf parse bytes with
    | none => none
    | some (.error e) => some (.error (.load e))
    | some (.ok loaded) =>
      if args.kernel.isSome ∧ args.dtb = false then some (.error .kernelWithoutDtb)
      else if args.disk.isSome ∧ args.dtb = false then some (.error .diskWithoutDtb)
      else
        match loadImages files args loaded.bus with
        | .error e => some (.error e)
        | .ok (bus, initrdSize) =>
            let cpu := Cpu.new bus loaded.entry
            let ready (cpu : Cpu) : Cpu :=
              if isTerminal then cpu
              else
                { cpu with
                  bus := { cpu.bus with uart := { cpu.bus.uart with stdinReady := true } } }
            if args.dtb then
              (installDtb write initrdSize args.disk.isSome cpu).map fun r => r.map ready
            else some (.ok (ready cpu))

end Setup

end RiscvEmu

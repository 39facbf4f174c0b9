import RiscvEmu.Lib.Run
import RiscvEmu.Device.Clint
import RiscvEmu.Device.Plic
import RiscvEmu.Device.Uart
import RiscvEmu.Device.VirtioBlk

/-!
# The bus

Physical addresses.  The device windows are matched first, and every other address is RAM or a
bus fault.  Reading a device may change it, so both directions are computations on the bus.  A
store to the notify register of the block device runs its queue, which is the only way an access
can fail to return.
-/

namespace RiscvEmu

/-- What answers at a physical address. -/
inductive Region where
  | clint
  | plic
  | uart
  | virtioBlk
  | ram
  deriving DecidableEq

/-- The address match of the bus. -/
def region (addr : U64) : Region :=
  if 0x0200_0000#64 ≤ addr ∧ addr ≤ 0x0200_FFFF#64 then .clint
  else if 0x0C00_0000#64 ≤ addr ∧ addr ≤ 0x0FFF_FFFF#64 then .plic
  else if 0x1000_0000#64 ≤ addr ∧ addr ≤ 0x1000_00FF#64 then .uart
  else if 0x1000_1000#64 ≤ addr ∧ addr ≤ 0x1000_11FF#64 then .virtioBlk
  else .ram

/-- The error of an access outside RAM: the address and the width it names. -/
structure BusFault where
  addr : U64
  width : Width
  deriving DecidableEq

/-- The machine below the processor. -/
structure Bus where
  ram : Ram
  ramBase : U64
  clint : Clint
  uart : Uart16550
  plic : Plic
  virtioBlk : VirtioBlk

namespace Bus

/-- A bus with zeroed RAM of the given size. -/
def new (size ramBase : U64) : Bus where
  ram := { byte := fun _ => 0, len := size }
  ramBase := ramBase
  clint := .new
  uart := .new
  plic := .new
  virtioBlk := .new none

/-- The RAM offset of an access, when it lies in RAM as a whole. -/
def offset (b : Bus) (addr : U64) (width : Width) : Except BusFault Nat :=
  if addr.toNat + width.bytes < 2 ^ 64 then
    let ramEnd := b.ramBase + b.ram.len
    if addr < b.ramBase ∨ ramEnd.toNat < addr.toNat + width.bytes then .error ⟨addr, width⟩
    else .ok (addr - b.ramBase).toNat
  else .error ⟨addr, width⟩

/-- Load `width` bytes from `addr`, zero-extended. -/
def load (addr : U64) (width : Width) : Run Bus BusFault U64 := fun b =>
  match region addr with
  | .clint => some (.ok (b.clint.load addr), b)
  | .plic => some (.ok (b.plic.load addr).1, { b with plic := (b.plic.load addr).2 })
  | .uart => some (.ok (b.uart.load addr).1, { b with uart := (b.uart.load addr).2 })
  | .virtioBlk => some (.ok (b.virtioBlk.load (addr - 0x1000_1000#64)), b)
  | .ram =>
      match b.offset addr width with
      | .error e => some (.error e, b)
      | .ok off => (b.ram.read off width.bytes).map fun v => (.ok v, b)

/-- Store the low `width` bytes of `value` to `addr`. -/
def store (addr : U64) (width : Width) (value : U64) : Run Bus BusFault Unit := fun b =>
  match region addr with
  | .clint => some (.ok (), { b with clint := b.clint.store addr value })
  | .plic => some (.ok (), { b with plic := b.plic.store addr value })
  | .uart => some (.ok (), { b with uart := b.uart.store addr value })
  | .virtioBlk =>
      match b.virtioBlk.store (addr - 0x1000_1000#64) value with
      | (false, v) => some (.ok (), { b with virtioBlk := v })
      | (true, v) =>
          (v.processQueue b.ram b.ramBase).map fun (v, ram) =>
            (.ok (), { b with virtioBlk := v, ram := ram })
  | .ram =>
      match b.offset addr width with
      | .error e => some (.error e, b)
      | .ok off =>
          (b.ram.write off width.bytes value).map fun ram => (.ok (), { b with ram := ram })

end Bus

end RiscvEmu

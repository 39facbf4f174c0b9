import RiscvEmu.Device.Ram

/-!
# The block device

A virtio block device with one queue.  A write to the notify register drains the available
ring: each request is a chain of descriptors, the first of which points to a header, the last
to a status byte, and the ones between to data.  Processing reads and writes guest RAM at
addresses the guest chose.  An access outside the RAM vector aborts the emulator, which is
`none` here, as is a loop that never ends.

*The disk.*  The backing file is a byte list with a cursor.  A seek fails from `2 ^ 63` on, a
read past the end fills what there is and fails, and a write extends the file.

Diagnostic output on stderr is left out.
-/

namespace RiscvEmu

/-! ## The backing file -/

/-- The backing file and its cursor. -/
structure Disk where
  content : List U8
  cursor : Nat
  deriving DecidableEq

namespace Disk

/-- Move the cursor, if the offset fits a signed file offset. -/
def seek (d : Disk) (off : U64) : Option Disk :=
  if off.toNat < 2 ^ 63 then some { d with cursor := off.toNat } else none

/-- Read up to `n` bytes at the cursor, and say whether all of them were there. -/
def readExact (d : Disk) (n : Nat) : Bool × List U8 × Disk :=
  let bs := (d.content.drop d.cursor).take n
  (bs.length == n, bs, { d with cursor := d.cursor + bs.length })

/-- Write bytes at the cursor.  A gap before the cursor is filled with zeros. -/
def writeAll (d : Disk) (bs : List U8) : Option Disk :=
  if bs = [] then some d
  else if d.cursor + bs.length < 2 ^ 63 then
    let head := (d.content ++ List.replicate (d.cursor - d.content.length) 0).take d.cursor
    some
      { content := head ++ bs ++ d.content.drop (d.cursor + bs.length)
        cursor := d.cursor + bs.length }
  else none

end Disk

/-! ## Registers -/

/-- The device: its disk and the shadows of its registers. -/
structure VirtioBlk where
  disk : Option Disk
  /-- Total sectors of 512 bytes. -/
  capacity : U64
  deviceFeaturesSel : U32
  driverFeatures : Fin 2 → U32
  driverFeaturesSel : U32
  deviceStatus : U32
  queueNum : U32
  queueReady : U32
  descAddr : U64
  availAddr : U64
  usedAddr : U64
  irqStatus : U32
  lastAvailIdx : U16

namespace VirtioBlk

def virtioMagic : U64 := 0x7472_6976
def virtioVersion : U64 := 2
def virtioDeviceBlk : U64 := 2
def virtioVendor : U64 := 0x554D_4551
def queueSize : Nat := 256
def sectorSize : U64 := 512

/-- The feature words of the device.  Any selector from 1 up reads the second. -/
def deviceFeatures (sel : U32) : U64 := if sel = 0 then 0 else 1

def descFNext : U16 := 1
def descFWrite : U16 := 2

def tIn : U32 := 0
def tOut : U32 := 1
def tFlush : U32 := 4

def sOk : U8 := 0
def sIoErr : U8 := 1

def new (disk : Option Disk) : VirtioBlk where
  disk := disk
  capacity := match disk with
    | some d => BitVec.ofNat 64 (d.content.length / 512)
    | none => 0
  deviceFeaturesSel := 0
  driverFeatures := fun _ => 0
  driverFeaturesSel := 0
  deviceStatus := 0
  queueNum := BitVec.ofNat 32 queueSize
  queueReady := 0
  descAddr := 0
  availAddr := 0
  usedAddr := 0
  irqStatus := 0
  lastAvailIdx := 0

def load (v : VirtioBlk) (off : U64) : U64 :=
  match off with
  | 0x000#64 => virtioMagic
  | 0x004#64 => virtioVersion
  | 0x008#64 => virtioDeviceBlk
  | 0x00C#64 => virtioVendor
  | 0x010#64 => deviceFeatures v.deviceFeaturesSel
  | 0x034#64 => BitVec.ofNat 64 queueSize
  | 0x038#64 => v.queueNum.setWidth 64
  | 0x044#64 => v.queueReady.setWidth 64
  | 0x060#64 => v.irqStatus.setWidth 64
  | 0x070#64 => v.deviceStatus.setWidth 64
  | 0x100#64 => (v.capacity.setWidth 32).setWidth 64
  | 0x104#64 => v.capacity >>> 32
  | _ => 0

/-- The reset a zero status write causes. -/
def reset (v : VirtioBlk) : VirtioBlk :=
  { v with
    queueReady := 0
    descAddr := 0
    availAddr := 0
    usedAddr := 0
    irqStatus := 0
    lastAvailIdx := 0 }

/-- Replace the low half of an address register. -/
def setLow (reg val : U64) : U64 := (reg &&& 0xFFFF_FFFF_0000_0000) ||| (val &&& 0xFFFF_FFFF)

/-- Replace the high half of an address register. -/
def setHigh (reg val : U64) : U64 := (reg &&& 0x0000_0000_FFFF_FFFF) ||| (val <<< 32)

/-- A register write.  The flag says that the queue was notified. -/
def store (v : VirtioBlk) (off val : U64) : Bool × VirtioBlk :=
  let val32 : U32 := val.setWidth 32
  match off with
  | 0x014#64 => (false, { v with deviceFeaturesSel := val32 })
  | 0x020#64 =>
      if h : v.driverFeaturesSel.toNat < 2 then
        (false, { v with
          driverFeatures := Function.update v.driverFeatures ⟨_, h⟩ val32 })
      else (false, v)
  | 0x024#64 => (false, { v with driverFeaturesSel := val32 })
  | 0x038#64 =>
      (false, { v with queueNum := if val32.toNat ≤ queueSize then val32 else 256#32 })
  | 0x044#64 => (false, { v with queueReady := val32 })
  | 0x050#64 => (true, v)
  | 0x064#64 => (false, { v with irqStatus := v.irqStatus &&& ~~~val32 })
  | 0x070#64 =>
      let v := { v with deviceStatus := val32 }
      (false, if val = 0 then v.reset else v)
  | 0x080#64 => (false, { v with descAddr := setLow v.descAddr val })
  | 0x084#64 => (false, { v with descAddr := setHigh v.descAddr val })
  | 0x090#64 => (false, { v with availAddr := setLow v.availAddr val })
  | 0x094#64 => (false, { v with availAddr := setHigh v.availAddr val })
  | 0x0a0#64 => (false, { v with usedAddr := setLow v.usedAddr val })
  | 0x0a4#64 => (false, { v with usedAddr := setHigh v.usedAddr val })
  | _ => (false, v)

/-! ## Guest RAM helpers -/

def r16 (ram : Ram) (base addr : U64) : Option U16 :=
  (ram.read (addr - base).toNat 2).map (·.setWidth 16)

def r32 (ram : Ram) (base addr : U64) : Option U32 :=
  (ram.read (addr - base).toNat 4).map (·.setWidth 32)

def r64 (ram : Ram) (base addr : U64) : Option U64 := ram.read (addr - base).toNat 8

def w8 (ram : Ram) (base addr : U64) (val : U8) : Option Ram :=
  ram.write (addr - base).toNat 1 (val.setWidth 64)

def w16 (ram : Ram) (base addr : U64) (val : U16) : Option Ram :=
  ram.write (addr - base).toNat 2 (val.setWidth 64)

def w32 (ram : Ram) (base addr : U64) (val : U32) : Option Ram :=
  ram.write (addr - base).toNat 4 (val.setWidth 64)

/-! ## Requests -/

/-- A descriptor of a chain. -/
structure Desc where
  addr : U64
  len : U32
  flags : U16
  deriving DecidableEq

/-- Follow a descriptor chain for at most the given number of links. -/
def collect (v : VirtioBlk) (ram : Ram) (base : U64) : Nat → U16 → Option (List Desc)
  | 0, _ => some []
  | n + 1, idx => do
      let entry := v.descAddr + idx.setWidth 64 * 16
      let addr ← r64 ram base entry
      let len ← r32 ram base (entry + 8)
      let flags ← r16 ram base (entry + 12)
      let next ← r16 ram base (entry + 14)
      let rest ← if flags &&& descFNext = 0 then some [] else v.collect ram base n next
      return ⟨addr, len, flags⟩ :: rest

/-- The range check of a data descriptor.  The subtraction of the length wraps. -/
def outOfRam (ram : Ram) (base : U64) (d : Desc) : Bool :=
  decide (d.addr < base) || decide (ram.len - d.len.setWidth 64 < d.addr - base)

/-- Fill the device-writable descriptors from the disk.  The flag says whether all succeeded. -/
def readData (base : U64) : List Desc → Disk → Ram → Option (Bool × Disk × Ram)
  | [], disk, ram => some (true, disk, ram)
  | d :: ds, disk, ram =>
      if d.flags &&& descFWrite = 0 then readData base ds disk ram
      else if outOfRam ram base d then some (false, disk, ram)
      else do
        let off := (d.addr - base).toNat
        let _ ← ram.slice off d.len.toNat
        match disk.readExact d.len.toNat with
        | (true, bs, disk) => readData base ds disk (ram.fill off bs)
        | (false, bs, disk) => some (false, disk, ram.fill off bs)

/-- Write the device-readable descriptors to the disk. -/
def writeData (base : U64) (ram : Ram) : List Desc → Disk → Option (Bool × Disk)
  | [], disk => some (true, disk)
  | d :: ds, disk =>
      if d.flags &&& descFWrite ≠ 0 then writeData base ram ds disk
      else if outOfRam ram base d then some (false, disk)
      else do
        let bs ← ram.slice (d.addr - base).toNat d.len.toNat
        match disk.writeAll bs with
        | some disk => writeData base ram ds disk
        | none => some (false, disk)

/-- Serve the data descriptors of a request of the given type and starting byte. -/
def transfer (reqType : U32) (byteOff base : U64) (data : List Desc) (disk : Disk) (ram : Ram) :
    Option (Bool × Disk × Ram) :=
  if reqType = tIn then
    match disk.seek byteOff with
    | none => some (false, disk, ram)
    | some disk => readData base data disk ram
  else if reqType = tOut then
    match disk.seek byteOff with
    | none => some (false, disk, ram)
    | some disk => do
        let (ok, disk) ← writeData base ram data disk
        return (ok, disk, ram)
  else some (decide (reqType = tFlush), disk, ram)

/-- Serve one request, given the head of its descriptor chain.  A chain is cut after sixteen
descriptors. -/
def doRequest (v : VirtioBlk) (ram : Ram) (base : U64) (head : U16) : Option (VirtioBlk × Ram) := do
  let descs ← v.collect ram base 16 head
  match descs with
  | [] => return (v, ram)
  | [_] => return (v, ram)
  | first :: second :: rest =>
      let reqType ← r32 ram base first.addr
      let sector ← r64 ram base (first.addr + 8)
      let tail := second :: rest
      let statusAddr := (tail.getLast (List.cons_ne_nil _ _)).addr
      match v.disk with
      | none => do
          let ram ← w8 ram base statusAddr sIoErr
          return (v, ram)
      | some disk => do
          let (ok, disk, ram) ←
            transfer reqType (sector * sectorSize) base tail.dropLast disk ram
          let ram ← w8 ram base statusAddr (if ok then sOk else sIoErr)
          return ({ v with disk := some disk }, ram)

/-! ## The queue -/

/-- Serve the next available entry and append its completion to the used ring. -/
def serveNext (v : VirtioBlk) (ram : Ram) (base : U64) : Option (VirtioBlk × Ram) := do
  let slot := BitVec.ofNat 64 (v.lastAvailIdx.toNat % queueSize)
  let head ← r16 ram base (v.availAddr + 4 + slot * 2)
  let (v, ram) ← v.doRequest ram base head
  let usedIdx ← r16 ram base (v.usedAddr + 2)
  let elem := v.usedAddr + 4 + BitVec.ofNat 64 (usedIdx.toNat % queueSize) * 8
  let ram ← w32 ram base elem (head.setWidth 32)
  let ram ← w32 ram base (elem + 4) 0
  let ram ← w16 ram base (v.usedAddr + 2) (usedIdx + 1)
  return ({ v with lastAvailIdx := v.lastAvailIdx + 1, irqStatus := 1 }, ram)

/-- Serve entries until the available ring is drained. -/
def drain (base : U64) (v : VirtioBlk) (ram : Ram) : Option (VirtioBlk × Ram) := do
  let availIdx ← r16 ram base (v.availAddr + 2)
  if v.lastAvailIdx = availIdx then return (v, ram)
  else
    let (v, ram) ← v.serveNext ram base
    -- the next round of the loop
    by apply drain; exacts [base, v, ram]
partial_fixpoint

/-- The work a queue notification causes.  A queue that is not ready is left alone. -/
def processQueue (v : VirtioBlk) (ram : Ram) (base : U64) : Option (VirtioBlk × Ram) :=
  if v.queueReady = 0 ∨ v.availAddr = 0 ∨ v.descAddr = 0 then some (v, ram)
  else drain base v ram

end VirtioBlk

end RiscvEmu

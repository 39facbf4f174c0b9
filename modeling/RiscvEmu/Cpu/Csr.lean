import RiscvEmu.Word

/-!
# Control and status registers

The CSR file, the accessors by address, and the status-stack updates of trap entry and return.
Addresses have twelve bits, the top ones of which name the lowest privilege that may use the
register.  The file itself makes no check: an address it does not know reads as zero and
ignores writes.
-/

namespace RiscvEmu

/-- The privilege modes. -/
inductive PrivMode where
  | u
  | s
  | m
  deriving DecidableEq, Repr

/-- The encoding of a mode, as it is stored in `MPP`. -/
def PrivMode.code : PrivMode → U64
  | u => 0
  | s => 1
  | m => 3

/-- A CSR address. -/
abbrev CsrAddr := BitVec 12

/-- The CSR file. -/
structure Csr where
  mstatus : U64
  misa : U64
  mie : U64
  mtvec : U64
  mscratch : U64
  mepc : U64
  mcause : U64
  mtval : U64
  mip : U64
  medeleg : U64
  mideleg : U64
  stvec : U64
  sscratch : U64
  sepc : U64
  scause : U64
  stval : U64
  satp : U64
  pmpcfg0 : U64
  pmpcfg2 : U64
  pmpaddr : Fin 16 → U64
  stimecmp : U64

namespace Csr

def new : Csr where
  mstatus := 0
  misa := 0x8000_0000_0004_1101
  mie := 0
  mtvec := 0
  mscratch := 0
  mepc := 0
  mcause := 0
  mtval := 0
  mip := 0
  medeleg := 0
  mideleg := 0
  stvec := 0
  sscratch := 0
  sepc := 0
  scause := 0
  stval := 0
  satp := 0
  pmpcfg0 := 0
  pmpcfg2 := 0
  pmpaddr := fun _ => 0
  stimecmp := u64Max

/-- The index of a `pmpaddr` register. -/
def pmpIndex (addr : CsrAddr) : Option (Fin 16) :=
  if 0x3B0#12 ≤ addr ∧ addr ≤ 0x3BF#12 then some (Fin.ofNat 16 (addr.toNat - 0x3B0)) else none

def read (c : Csr) (addr : CsrAddr) : U64 :=
  match addr with
  | 0x300#12 => c.mstatus ||| 0x0000_000A_0000_0000
  | 0x301#12 => c.misa
  | 0x304#12 => c.mie
  | 0x305#12 => c.mtvec
  | 0x340#12 => c.mscratch
  | 0x341#12 => c.mepc
  | 0x342#12 => c.mcause
  | 0x343#12 => c.mtval
  | 0x344#12 => c.mip
  | 0x105#12 => c.stvec
  | 0x140#12 => c.sscratch
  | 0x141#12 => c.sepc
  | 0x142#12 => c.scause
  | 0x143#12 => c.stval
  | 0x180#12 => c.satp
  | 0x3A0#12 => c.pmpcfg0
  | 0x3A2#12 => c.pmpcfg2
  | 0x100#12 => (c.mstatus ||| 0x0000_0002_0000_0000) &&& 0x8000_0003_000D_E162
  | 0x104#12 => c.mie &&& 0x222
  | 0x144#12 => c.mip &&& 0x222
  | 0x302#12 => c.medeleg
  | 0x303#12 => c.mideleg
  | 0x14D#12 => c.stimecmp
  | addr =>
      match pmpIndex addr with
      | some i => c.pmpaddr i
      | none => 0

def mieBit (c : Csr) : U64 := (c.mstatus >>> 3) &&& 1

/-- M-mode trap entry: `MPIE` takes `MIE`, `MIE` is cleared, `MPP` takes the previous mode. -/
def trapEntry (c : Csr) (prevMode : U64) : Csr :=
  { c with mstatus := (c.mstatus &&& ~~~(0x1888 : U64)) ||| (c.mieBit <<< 7) ||| (prevMode <<< 11) }

/-- The status update of `MRET`.  `MPRV` is cleared when the return leaves M-mode. -/
def mret (c : Csr) : Csr :=
  let mpie := (c.mstatus >>> 7) &&& 1
  let mpp := (c.mstatus >>> 11) &&& 3
  let clearMask : U64 := if mpp ≠ 3 then 0x0002_1888 else 0x1888
  { c with mstatus := (c.mstatus &&& ~~~clearMask) ||| (mpie <<< 3) ||| (1 <<< 7) }

/-- S-mode trap entry: `SPIE` takes `SIE`, `SIE` is cleared, `SPP` takes the previous mode. -/
def sTrapEntry (c : Csr) (fromSmode : Bool) : Csr :=
  let sie := (c.mstatus >>> 1) &&& 1
  let spp : U64 := if fromSmode then 1 else 0
  { c with mstatus := (c.mstatus &&& ~~~(0x122 : U64)) ||| (sie <<< 5) ||| (spp <<< 8) }

/-- The status update of `SRET`. -/
def sRet (c : Csr) : Csr :=
  let spie := (c.mstatus >>> 5) &&& 1
  { c with mstatus := (c.mstatus &&& ~~~(0x122 : U64)) ||| (spie <<< 1) ||| (1 <<< 5) }

def write (c : Csr) (addr : CsrAddr) (val : U64) : Csr :=
  match addr with
  | 0x300#12 => { c with mstatus := val &&& ~~~(0x0000_000F_0000_0000 : U64) }
  | 0x304#12 => { c with mie := val }
  | 0x305#12 => { c with mtvec := val }
  | 0x340#12 => { c with mscratch := val }
  | 0x341#12 => { c with mepc := val &&& ~~~(0x1 : U64) }
  | 0x342#12 => { c with mcause := val }
  | 0x343#12 => { c with mtval := val }
  | 0x344#12 => { c with mip := val }
  | 0x105#12 => { c with stvec := val }
  | 0x140#12 => { c with sscratch := val }
  | 0x141#12 => { c with sepc := val &&& ~~~(0x1 : U64) }
  | 0x142#12 => { c with scause := val }
  | 0x143#12 => { c with stval := val }
  | 0x180#12 =>
      -- a write of an unsupported mode is ignored
      let mode := val >>> 60
      if mode = 0 ∨ mode = 8 then { c with satp := val } else c
  | 0x3A0#12 => { c with pmpcfg0 := val }
  | 0x3A2#12 => { c with pmpcfg2 := val }
  | 0x100#12 =>
      { c with
        mstatus := (c.mstatus &&& ~~~(0x0000_0000_000D_E162 : U64))
          ||| (val &&& 0x0000_0000_000D_E162) }
  | 0x104#12 => { c with mie := (c.mie &&& ~~~(0x222 : U64)) ||| (val &&& 0x222) }
  | 0x144#12 => { c with mip := (c.mip &&& ~~~(0x002 : U64)) ||| (val &&& 0x002) }
  | 0x302#12 => { c with medeleg := val }
  | 0x303#12 => { c with mideleg := val }
  | 0x14D#12 => { c with stimecmp := val }
  | addr =>
      match pmpIndex addr with
      | some i => { c with pmpaddr := Function.update c.pmpaddr i val }
      | none => c

end Csr

end RiscvEmu

import RiscvEmu.Bus
import RiscvEmu.Cpu.Csr

/-!
# Address translation

Sv39 and Sv57 page walks over the bus, behind a direct-mapped cache of 64 entries for 4 KiB
leaves.  A walk checks the permissions of the leaf, sets its accessed and dirty bits in memory
and fills the cache slot of the page.  A hit checks the cached permissions.  When it has to set
a bit it rebuilds the page-table entry from the cached page number and permissions.

Reading a page-table entry is a bus load, so the bus is part of the state.
-/

namespace RiscvEmu

/-- What a translation is for. -/
inductive AccessType where
  | fetch
  | load
  | store
  deriving DecidableEq, Repr

/-- A translation fault: the trap cause and its value. -/
structure MmuFault where
  cause : U64
  tval : U64
  deriving DecidableEq

def pteV : U64 := 0x01
def pteR : U64 := 0x02
def pteW : U64 := 0x04
def pteX : U64 := 0x08
def pteU : U64 := 0x10
def pteG : U64 := 0x20
def pteA : U64 := 0x40
def pteD : U64 := 0x80

/-- An entry of the translation cache. -/
structure TlbEntry where
  valid : Bool
  vpn : U64
  ppn : U64
  perm : U64
  asid : U16
  pteAddr : U64
  deriving DecidableEq

/-- The empty entry. -/
def TlbEntry.empty : TlbEntry where
  valid := false
  vpn := 0
  ppn := 0
  perm := 0
  asid := 0
  pteAddr := 0

/-- The translation cache. -/
structure Mmu where
  tlb : Fin 64 → TlbEntry

/-- The cause of a page fault. -/
def pfCause : AccessType → U64
  | .fetch => 12
  | .load => 13
  | .store => 15

/-- The cause of an access fault. -/
def afCause : AccessType → U64
  | .fetch => 1
  | .load => 5
  | .store => 7

/-- The mode rejects the page: U-mode a supervisor page, S-mode a user page without `SUM`. -/
def modeRejects (perm mstatus : U64) : PrivMode → Bool
  | .u => decide (perm &&& pteU = 0)
  | .s => decide (perm &&& pteU ≠ 0) && decide ((mstatus >>> 18) &&& 1 = 0)
  | .m => false

/-- The page lacks the permission for the access.  With `MXR` an executable page can be read. -/
def accessRejects (perm mstatus : U64) : AccessType → Bool
  | .fetch => decide (perm &&& pteX = 0)
  | .load =>
      let mxr := (mstatus >>> 19) &&& 1
      decide (perm &&& pteR = 0) && !(decide (mxr ≠ 0) && decide (perm &&& pteX ≠ 0))
  | .store => decide (perm &&& pteW = 0)

/-- The permission check on the low bits of a leaf. -/
def checkPerms (perm mstatus : U64) (mode : PrivMode) (access : AccessType) (tval : U64) :
    Except MmuFault Unit :=
  if modeRejects perm mstatus mode then .error ⟨pfCause access, tval⟩
  else if accessRejects perm mstatus access then .error ⟨pfCause access, tval⟩
  else .ok ()

namespace Mmu

def new : Mmu where
  tlb := fun _ => .empty

def flush (m : Mmu) : Mmu where
  tlb := fun i => { m.tlb i with valid := false }

/-- The depth of the page tables, when the mode of `satp` translates. -/
def levels (satp : U64) : Option Nat :=
  match satp >>> 60 with
  | 8#64 => some 3
  | 10#64 => some 5
  | _ => none

/-- The address-space identifier of `satp`. -/
def asidOf (satp : U64) : U16 := (satp >>> 44).setWidth 16

/-- The address of the root page table. -/
def rootOf (satp : U64) : U64 := (satp &&& 0x0FFF_FFFF_FFFF) <<< 12

/-- The bits above the highest translated bit repeat it. -/
def canonical (levels : Nat) (addr : U64) : Bool :=
  let top := addr.sshiftRight (12 + levels * 9 - 1)
  decide (top = 0 ∨ top = u64Max)

/-- The cache slot of a page: the cache has `TLB_SIZE` slots, which is 64. -/
def tlbIndex (vpn : U64) : Fin 64 := Fin.ofNat 64 (vpn &&& 63).toNat

/-- Whether an entry answers for a page in an address space. -/
def hits (e : TlbEntry) (vpn : U64) (asid : U16) : Bool :=
  e.valid && decide (e.vpn = vpn) && decide (e.asid = asid ∨ e.perm &&& pteG ≠ 0)

/-- The index into the page table above `rem` further levels. -/
def vpnPart (addr : U64) (rem : Nat) : U64 := (addr >>> (12 + rem * 9)) &&& 0x1FF

/-- The physical page number of an entry. -/
def pteNumber (pte : U64) : U64 := (pte >>> 10) &&& 0x0FFF_FFFF_FFFF

/-- The accessed bit, and for a store the dirty bit, set. -/
def markUsed (bits : U64) (access : AccessType) : U64 :=
  if access = .store then (bits ||| pteA) ||| pteD else bits ||| pteA

/-- Use a cached entry. -/
def hit (i : Fin 64) (mode : PrivMode) (mstatus addr : U64) (access : AccessType) :
    Run (Mmu × Bus) MmuFault U64 := fun s =>
  let e := s.1.tlb i
  match checkPerms e.perm mstatus mode access addr with
  | .error f => some (.error f, s)
  | .ok () =>
      let pa := (e.ppn <<< 12) ||| (addr &&& 0xFFF)
      let newPerm := markUsed e.perm access
      if newPerm ≠ e.perm then
        let newPte := (e.ppn <<< 10) ||| newPerm
        -- a rejected write-back is ignored
        match Bus.store e.pteAddr .b8 newPte s.2 with
        | none => none
        | some (_, bus) =>
            some (.ok pa, ({ tlb := Function.update s.1.tlb i { e with perm := newPerm } }, bus))
      else some (.ok pa, s)

/-- A leaf of the page tables: the levels below it, where its entry is stored, and the entry. -/
structure Leaf where
  rem : Nat
  pteAddr : U64
  pte : U64
  deriving DecidableEq

/-- Whether the low fields of a superpage number are zero. -/
def aligned (rem : Nat) (ppn : U64) : Bool :=
  decide (0 < rem → ppn &&& ((1 <<< (rem * 9)) - 1) = 0)

/-- The address a leaf maps a virtual address to. -/
def leafAddress (rem : Nat) (ppn addr : U64) : U64 :=
  let pageBits := 12 + rem * 9
  ((ppn >>> (rem * 9)) <<< pageBits) ||| (addr &&& ((1 <<< pageBits) - 1))

/-- The cache entry of a 4 KiB leaf. -/
def leafEntry (leaf : Leaf) (asid : U16) (addr newPte : U64) : TlbEntry where
  valid := true
  vpn := addr >>> 12
  ppn := pteNumber leaf.pte
  perm := newPte &&& 0xFF
  asid := asid
  pteAddr := leaf.pteAddr

/-- Put a leaf in the cache.  Superpages are not cached. -/
def fill (m : Mmu) (leaf : Leaf) (asid : U16) (addr newPte : U64) : Mmu :=
  if leaf.rem = 0 then
    { tlb := Function.update m.tlb (tlbIndex (addr >>> 12))
        (leafEntry leaf asid addr newPte) }
  else m

/-- Use the leaf a walk found. -/
def useLeaf (leaf : Leaf) (asid : U16) (mode : PrivMode) (mstatus addr : U64)
    (access : AccessType) : Run (Mmu × Bus) MmuFault U64 := fun s =>
  let ppn := pteNumber leaf.pte
  if ¬ aligned leaf.rem ppn then some (.error ⟨pfCause access, addr⟩, s)
  else
    match checkPerms (leaf.pte &&& 0xFF) mstatus mode access addr with
    | .error f => some (.error f, s)
    | .ok () =>
        let newPte := markUsed leaf.pte access
        let pa := leafAddress leaf.rem ppn addr
        if newPte ≠ leaf.pte then
          match Bus.store leaf.pteAddr .b8 newPte s.2 with
          | none => none
          | some (.error _, bus) => some (.error ⟨afCause access, addr⟩, (s.1, bus))
          | some (.ok (), bus) => some (.ok pa, (s.1.fill leaf asid addr newPte, bus))
        else some (.ok pa, (s.1.fill leaf asid addr newPte, s.2))

/-- An entry that is not valid, or has the reserved combination of bits. -/
def badPte (pte : U64) : Bool :=
  decide (pte &&& pteV = 0) || (decide (pte &&& pteW ≠ 0) && decide (pte &&& pteR = 0))

/-- An entry that maps a page. -/
def leafPte (pte : U64) : Bool := decide (pte &&& (pteR ||| pteX) ≠ 0)

/-- Descend the given number of levels from a table to a leaf. -/
def findLeaf (addr : U64) (access : AccessType) : Nat → U64 → Run Bus MmuFault Leaf
  | 0, _ => Run.throw ⟨pfCause access, addr⟩
  | rem + 1, tablePa => fun bus =>
      let pteAddr := tablePa + vpnPart addr rem * 8
      match Bus.load pteAddr .b8 bus with
      | none => none
      | some (.error _, bus) => some (.error ⟨afCause access, addr⟩, bus)
      | some (.ok pte, bus) =>
          if badPte pte then some (.error ⟨pfCause access, addr⟩, bus)
          else if leafPte pte then some (.ok ⟨rem, pteAddr, pte⟩, bus)
          else findLeaf addr access rem (pteNumber pte <<< 12) bus

/-- Walk the page tables, and use the leaf found. -/
def walk (asid : U16) (mode : PrivMode) (mstatus addr : U64) (access : AccessType) (levels : Nat)
    (tablePa : U64) : Run (Mmu × Bus) MmuFault U64 := fun s =>
  match findLeaf addr access levels tablePa s.2 with
  | none => none
  | some (.error f, bus) => some (.error f, (s.1, bus))
  | some (.ok leaf, bus) => useLeaf leaf asid mode mstatus addr access (s.1, bus)

/-- Translate a virtual address. -/
def translate (satp : U64) (mode : PrivMode) (mstatus addr : U64) (access : AccessType) :
    Run (Mmu × Bus) MmuFault U64 := fun s =>
  match levels satp with
  | none => some (.ok addr, s)
  | some n =>
      if mode = .m then some (.ok addr, s)
      else if ¬ canonical n addr then some (.error ⟨pfCause access, addr⟩, s)
      else
        let vpn := addr >>> 12
        let i := tlbIndex vpn
        if hits (s.1.tlb i) vpn (asidOf satp) then hit i mode mstatus addr access s
        else walk (asidOf satp) mode mstatus addr access n (rootOf satp) s

end Mmu

end RiscvEmu

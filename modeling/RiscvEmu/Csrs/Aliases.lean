import RiscvEmu.Lib.Windows
import RiscvEmu.Cpu.Csr

/-!
# CSR addresses and the state behind them

The CSR file is a set of fields, and an address shows one of them through a view: what a read
shows of the field, and what a write puts into it.  The S-mode addresses of `mstatus`, `mie` and
`mip` are further views of the same fields.  So a write is seen at the addresses of its field only,
and there through their masks.
-/

namespace RiscvEmu

namespace Csr

/-! ## Fields -/

/-- The fields of the file. -/
inductive Field where
  | mstatus | misa | mie | mtvec | mscratch | mepc | mcause | mtval | mip | medeleg | mideleg
  | stvec | sscratch | sepc | scause | stval | satp | pmpcfg0 | pmpcfg2 | stimecmp
  | pmpaddr (i : Fin 16)
  deriving DecidableEq

def get (c : Csr) : Field → U64
  | .mstatus => c.mstatus
  | .misa => c.misa
  | .mie => c.mie
  | .mtvec => c.mtvec
  | .mscratch => c.mscratch
  | .mepc => c.mepc
  | .mcause => c.mcause
  | .mtval => c.mtval
  | .mip => c.mip
  | .medeleg => c.medeleg
  | .mideleg => c.mideleg
  | .stvec => c.stvec
  | .sscratch => c.sscratch
  | .sepc => c.sepc
  | .scause => c.scause
  | .stval => c.stval
  | .satp => c.satp
  | .pmpcfg0 => c.pmpcfg0
  | .pmpcfg2 => c.pmpcfg2
  | .stimecmp => c.stimecmp
  | .pmpaddr i => c.pmpaddr i

def set (c : Csr) (f : Field) (v : U64) : Csr :=
  match f with
  | .mstatus => { c with mstatus := v }
  | .misa => { c with misa := v }
  | .mie => { c with mie := v }
  | .mtvec => { c with mtvec := v }
  | .mscratch => { c with mscratch := v }
  | .mepc => { c with mepc := v }
  | .mcause => { c with mcause := v }
  | .mtval => { c with mtval := v }
  | .mip => { c with mip := v }
  | .medeleg => { c with medeleg := v }
  | .mideleg => { c with mideleg := v }
  | .stvec => { c with stvec := v }
  | .sscratch => { c with sscratch := v }
  | .sepc => { c with sepc := v }
  | .scause => { c with scause := v }
  | .stval => { c with stval := v }
  | .satp => { c with satp := v }
  | .pmpcfg0 => { c with pmpcfg0 := v }
  | .pmpcfg2 => { c with pmpcfg2 := v }
  | .stimecmp => { c with stimecmp := v }
  | .pmpaddr i => { c with pmpaddr := Function.update c.pmpaddr i v }

theorem get_set_self (c : Csr) (f : Field) (v : U64) : (c.set f v).get f = v := by
  cases f with
  | pmpaddr i =>
      show Function.update c.pmpaddr i v i = v
      simp
  | _ => rfl

theorem get_set_of_ne (c : Csr) {f g : Field} (v : U64) (hne : g ≠ f) :
    (c.set f v).get g = c.get g := by
  cases f with
  | pmpaddr i =>
      cases g with
      | pmpaddr j =>
          have hj : j ≠ i := fun h => hne (congrArg Field.pmpaddr h)
          show Function.update c.pmpaddr i v j = c.pmpaddr j
          simp [hj]
      | _ => rfl
  | _ => cases g <;> first | rfl | exact absurd rfl hne

/-- Storing what is there changes nothing. -/
theorem set_get (c : Csr) (f : Field) : c.set f (c.get f) = c := by
  cases f with
  | pmpaddr i =>
      show { c with pmpaddr := Function.update c.pmpaddr i (c.pmpaddr i) } = c
      rw [Function.update_eq_self]
  | _ => rfl

/-! ## Addresses -/

/-- A register that is read and written as it is. -/
def plain : Window 64 where
  readable := BitVec.allOnes 64
  writable := BitVec.allOnes 64
  kept := 0
  fixed := 0
  shown := rfl

/-- A register whose writes are ignored. -/
def readOnly : Window 64 where
  readable := BitVec.allOnes 64
  writable := 0
  kept := BitVec.allOnes 64
  fixed := 0
  shown := rfl

/-- `mstatus` shows the two fixed register widths, which it does not store. -/
def mstatusWindow : Window 64 where
  readable := BitVec.allOnes 64
  writable := ~~~0x0000_000F_0000_0000
  kept := 0
  fixed := 0x0000_000A_0000_0000
  shown := by decide

/-- The exception program counters have a zero lowest bit. -/
def epcWindow : Window 64 where
  readable := BitVec.allOnes 64
  writable := ~~~0x1
  kept := 0
  fixed := 0
  shown := by decide

def sstatusWindow : Window 64 where
  readable := 0x8000_0003_000D_E162
  writable := 0x0000_0000_000D_E162
  kept := ~~~0x0000_0000_000D_E162
  fixed := 0x0000_0002_0000_0000
  shown := by decide

def sieWindow : Window 64 where
  readable := 0x222
  writable := 0x222
  kept := ~~~0x222
  fixed := 0
  shown := by decide

/-- `sip` shows the three S-mode bits, of which a write sets the software one. -/
def sipWindow : Window 64 where
  readable := 0x222
  writable := 0x002
  kept := ~~~0x002
  fixed := 0
  shown := by decide

/-- The field and the window of an address, none for an address the file does not know. -/
def place (addr : CsrAddr) : Option (Field × Window 64) :=
  match addr with
  | 0x300#12 => some (.mstatus, mstatusWindow)
  | 0x301#12 => some (.misa, readOnly)
  | 0x304#12 => some (.mie, plain)
  | 0x305#12 => some (.mtvec, plain)
  | 0x340#12 => some (.mscratch, plain)
  | 0x341#12 => some (.mepc, epcWindow)
  | 0x342#12 => some (.mcause, plain)
  | 0x343#12 => some (.mtval, plain)
  | 0x344#12 => some (.mip, plain)
  | 0x105#12 => some (.stvec, plain)
  | 0x140#12 => some (.sscratch, plain)
  | 0x141#12 => some (.sepc, epcWindow)
  | 0x142#12 => some (.scause, plain)
  | 0x143#12 => some (.stval, plain)
  | 0x180#12 => some (.satp, plain)
  | 0x3A0#12 => some (.pmpcfg0, plain)
  | 0x3A2#12 => some (.pmpcfg2, plain)
  | 0x100#12 => some (.mstatus, sstatusWindow)
  | 0x104#12 => some (.mie, sieWindow)
  | 0x144#12 => some (.mip, sipWindow)
  | 0x302#12 => some (.medeleg, plain)
  | 0x303#12 => some (.mideleg, plain)
  | 0x14D#12 => some (.stimecmp, plain)
  | addr => (pmpIndex addr).map fun i => (.pmpaddr i, plain)

/-- Whether a write of the value is taken: the file ignores an unsupported mode in `satp`. -/
def takes (addr : CsrAddr) (val : U64) : Bool :=
  addr ≠ 0x180#12 ∨ val >>> 60 = 0 ∨ val >>> 60 = 8

@[simp] theorem and_u64Max (x : U64) : x &&& 18446744073709551615#64 = x :=
  BitVec.and_allOnes

@[simp] theorem view_plain (x : U64) : plain.view x = x := by
  simp [Window.view, plain]

@[simp] theorem put_plain (old v : U64) : plain.put old v = v := by
  simp [Window.put, plain]

@[simp] theorem put_readOnly (old v : U64) : readOnly.put old v = old := by
  simp [Window.put, readOnly]

/-- The file of the CSR fields. -/
def file : WordFile Csr Field 64 where
  get := get
  set := set
  get_set_self := get_set_self
  get_set_of_ne := fun c v {_ _} hne => get_set_of_ne c v hne

/-- A read is a load through the window of the address. -/
theorem read_eq_load (c : Csr) (addr : CsrAddr) : c.read addr = file.load place c addr := by
  unfold read WordFile.load place
  split
  case h_24 =>
    rcases Option.eq_none_or_eq_some (pmpIndex addr) with hi | ⟨i, hi⟩ <;> simp [hi, file, get]
  all_goals simp [file, get, Window.view, plain, readOnly, mstatusWindow, epcWindow, sstatusWindow,
    sieWindow, sipWindow]

/-- A write is a store through the window of the address, where the file takes it. -/
theorem write_eq_store (c : Csr) (addr : CsrAddr) (val : U64) :
    c.write addr val = if takes addr val then file.store place c addr val else c := by
  unfold write
  split
  case h_23 =>
    by_cases hm : addr = 0x301#12
    · subst hm
      simp [WordFile.store, place, takes, file, set_get, pmpIndex]
    · cases hi : pmpIndex addr <;> simp_all [WordFile.store, place, file, set, takes]
  all_goals simp [WordFile.store, place, file, get, set, takes, Window.put, plain,
    mstatusWindow, epcWindow, sstatusWindow, sieWindow, sipWindow]

/-! ## Alias classes -/

/-- The addresses of the state behind an address. -/
def aliases (addr : CsrAddr) : List CsrAddr :=
  match addr with
  | 0x300#12 => [0x300#12, 0x100#12]
  | 0x100#12 => [0x300#12, 0x100#12]
  | 0x304#12 => [0x304#12, 0x104#12]
  | 0x104#12 => [0x304#12, 0x104#12]
  | 0x344#12 => [0x344#12, 0x144#12]
  | 0x144#12 => [0x344#12, 0x144#12]
  | addr => [addr]

theorem pmpIndex_eq_some {addr : CsrAddr} {i : Fin 16} (h : pmpIndex addr = some i) :
    addr = BitVec.ofNat 12 (0x3B0 + i) := by
  unfold pmpIndex at h
  split at h
  · rename_i hrange
    have hi : i = Fin.ofNat 16 (addr.toNat - 0x3B0) := (Option.some.inj h).symm
    have hlow := BitVec.le_def.mp hrange.1
    have hhigh := BitVec.le_def.mp hrange.2
    apply BitVec.eq_of_toNat_eq
    simp [hi, Fin.ofNat] at hlow hhigh ⊢
    omega
  · cases h

/-- The addresses of a field. -/
def addresses (f : Field) : List CsrAddr :=
  match f with
  | .mstatus => [0x300#12, 0x100#12]
  | .misa => [0x301#12]
  | .mie => [0x304#12, 0x104#12]
  | .mtvec => [0x305#12]
  | .mscratch => [0x340#12]
  | .mepc => [0x341#12]
  | .mcause => [0x342#12]
  | .mtval => [0x343#12]
  | .mip => [0x344#12, 0x144#12]
  | .medeleg => [0x302#12]
  | .mideleg => [0x303#12]
  | .stvec => [0x105#12]
  | .sscratch => [0x140#12]
  | .sepc => [0x141#12]
  | .scause => [0x142#12]
  | .stval => [0x143#12]
  | .satp => [0x180#12]
  | .pmpcfg0 => [0x3A0#12]
  | .pmpcfg2 => [0x3A2#12]
  | .stimecmp => [0x14D#12]
  | .pmpaddr i => [BitVec.ofNat 12 (0x3B0 + i)]

theorem mem_addresses {addr : CsrAddr} {f : Field}
    (h : (place addr).map Prod.fst = some f) : addr ∈ addresses f := by
  unfold place at h
  split at h
  case h_24 =>
    cases hi : pmpIndex addr with
    | none => simp [hi] at h
    | some i =>
        simp only [hi, Option.map_some, Option.some.injEq] at h
        subst h
        simp [addresses, ← pmpIndex_eq_some hi]
  all_goals
    cases h
    simp [addresses]

/-- The addresses of the field behind an address are its aliases. -/
theorem addresses_eq_aliases {addr : CsrAddr} {f : Field}
    (h : (place addr).map Prod.fst = some f) : addresses f = aliases addr := by
  unfold place at h
  split at h
  case h_24 =>
    cases hi : pmpIndex addr with
    | none => simp [hi] at h
    | some i =>
        simp only [hi, Option.map_some, Option.some.injEq] at h
        subst h
        simp_all [addresses, aliases, ← pmpIndex_eq_some hi]
  all_goals
    cases h
    rfl

/-- Read-only by the top bits of the address, by the file, or not known to it. -/
def Ignored (addr : CsrAddr) : Prop :=
  0xC00#12 ≤ addr ∨ addr = 0x301#12 ∨ place addr = none

theorem place_of_high {addr : CsrAddr} (h : 0xC00#12 ≤ addr) : place addr = none := by
  unfold place
  split
  case h_24 =>
    have hnone : pmpIndex addr = none := by
      unfold pmpIndex
      rw [if_neg]
      rintro ⟨-, hle⟩
      have hlow := BitVec.le_def.mp h
      have hhigh := BitVec.le_def.mp hle
      simp at hlow hhigh
      omega
    simp [hnone]
  all_goals exact absurd h (by decide)

theorem write_ignored (c : Csr) {addr : CsrAddr} (val : U64) (h : Ignored addr) :
    c.write addr val = c := by
  rw [write_eq_store]
  have hstore : file.store place c addr val = c := by
    rcases h with h | h | h
    · simp [WordFile.store, place_of_high h]
    · subst h
      show c.set .misa (readOnly.put c.misa val) = c
      rw [put_readOnly]
      exact c.set_get .misa
    · simp [WordFile.store, h]
  simp [hstore]

/-- A write changes the field of its address only. -/
theorem get_write_of_ne (c : Csr) {addr : CsrAddr} (val : U64) {f : Field}
    (hne : (place addr).map Prod.fst ≠ some f) : (c.write addr val).get f = c.get f := by
  rw [write_eq_store]
  split
  · exact file.get_store_of_ne c val hne
  · rfl

/-- A write is seen at the aliases of its address only. -/
theorem read_write_of_not_mem (c : Csr) {addr other : CsrAddr} (val : U64)
    (hnot : other ∉ aliases addr) : (c.write addr val).read other = c.read other := by
  rw [write_eq_store]
  split
  · rw [read_eq_load, read_eq_load]
    apply file.load_store_of_ne
    intro f haddr hother
    rw [← addresses_eq_aliases haddr] at hnot
    exact hnot (mem_addresses hother)
  · rfl

/-- A write through a window that keeps the rest of the word changes no bit outside it. -/
theorem get_write_outside (c : Csr) {addr : CsrAddr} (val : U64) {f : Field} {w : Window 64}
    (hplace : place addr = some (f, w)) (hall : w.kept ||| w.writable = BitVec.allOnes 64) :
    (c.write addr val).get f &&& ~~~w.writable = c.get f &&& ~~~w.writable := by
  rw [write_eq_store]
  split
  · have hput : (file.store place c addr val).get f = w.put (c.get f) val :=
      file.get_store val hplace
    rw [hput, w.put_outside _ _ hall]
  · rfl

/-- A read after a write that is taken. -/
theorem read_write_self (c : Csr) {addr : CsrAddr} {val : U64} {f : Field} {w : Window 64}
    (hplace : place addr = some (f, w)) (htakes : takes addr val = true) :
    (c.write addr val).read addr =
      (val &&& w.writable) ||| (w.fixed &&& w.readable) ||| (c.read addr &&& w.retained) := by
  rw [write_eq_store, if_pos htakes, read_eq_load, read_eq_load]
  exact file.load_store_self c val hplace

/-- The laws of one write of the file. -/
structure WriteLaw (c : Csr) (addr : CsrAddr) (val : U64) : Prop where
  /-- the state behind the address is all that changes -/
  state : ∀ f, addr ∉ addresses f → (c.write addr val).get f = c.get f
  /-- and so what is read outside its aliases stays -/
  reads : ∀ other, other ∉ aliases addr → (c.write addr val).read other = c.read other
  sstatus : addr = 0x100#12 →
    (c.write addr val).mstatus &&& ~~~0xDE162 = c.mstatus &&& ~~~0xDE162
  sie : addr = 0x104#12 → (c.write addr val).mie &&& ~~~0x222 = c.mie &&& ~~~0x222
  sip : addr = 0x144#12 → (c.write addr val).mip &&& ~~~0x002 = c.mip &&& ~~~0x002
  ignored : Ignored addr → c.write addr val = c
  /-- the bits written, the fixed ones, and the retained ones of the read before -/
  readBack : ∀ f w, place addr = some (f, w) → takes addr val = true →
    (c.write addr val).read addr =
      (val &&& w.writable) ||| (w.fixed &&& w.readable) ||| (c.read addr &&& w.retained)
  satp : addr = 0x180#12 → val >>> 60 ≠ 0 → val >>> 60 ≠ 8 → c.write addr val = c

theorem write_law (c : Csr) (addr : CsrAddr) (val : U64) : WriteLaw c addr val where
  state f hnot := get_write_of_ne c val fun h => hnot (mem_addresses h)
  reads other hnot := read_write_of_not_mem c val hnot
  sstatus haddr := by
    subst haddr
    exact get_write_outside c val (w := sstatusWindow) (f := .mstatus) rfl (by decide)
  sie haddr := by
    subst haddr
    exact get_write_outside c val (w := sieWindow) (f := .mie) rfl (by decide)
  sip haddr := by
    subst haddr
    exact get_write_outside c val (w := sipWindow) (f := .mip) rfl (by decide)
  ignored h := write_ignored c val h
  readBack f w hplace htakes := read_write_self c hplace htakes
  satp haddr h0 h8 := by
    subst haddr
    have htakes : takes 0x180#12 val = false := by simpa [takes] using ⟨h0, h8⟩
    rw [write_eq_store, htakes]
    rfl

end Csr

end RiscvEmu

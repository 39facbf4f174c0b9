import RiscvEmu.Confinement.Tables
import RiscvEmu.Execution.Traps

/-!
# A program in U-mode

A program runs in U-mode in one of the address spaces of a memory (`Sandbox`).  What it can reach is
what the tables at the start map for it.  That is RAM, no device, and what it can write holds no
word of the tables.

While it runs, the tables keep their meaning and RAM changes only where the program can write, and
in words of the tables (`Runs`).  Every access in U-mode keeps it so, and gives it bytes it may
reach (`Run.Ensures`).
-/

namespace RiscvEmu

open Mmu

/-! ## What the tables map -/

/-- In U-mode the tables map an address for an access. -/
def UserMaps {b₀ : Bus} (S : Spaces b₀) (csr : Csr) (access : AccessType) (va pa : U64) : Prop :=
  reference b₀ (S.root (asidOf csr.satp)) .u csr.mstatus va access = .ok pa

/-- A program in U-mode: the memory it starts in, the address spaces in it, and its registers of
control. -/
structure Sandbox where
  bus : Bus
  spaces : Spaces bus
  csr : Csr
  sv39 : csr.satp >>> 60 = 8
  used : spaces.used (asidOf csr.satp)
  root : csr.satp &&& 0x0FFF_FFFF_FFFF = spaces.root (asidOf csr.satp)
  mprv : csr.mstatus.getLsbD 17 = false
  /-- The program reaches no device. -/
  noDevice : ∀ access va pa, UserMaps spaces csr access va pa → region pa = .ram
  /-- The program does not write the tables. -/
  apart : ∀ va pa, UserMaps spaces csr .store va pa → ¬ spaces.InTables pa

/-- Between the buses the services of the loop were the only ones to use the devices.  They move the
timer, pass on received bytes, and drive the lines of the interrupt controller. -/
structure Attended (b b' : Bus) : Prop where
  clint : b'.clint = { b.clint with mtime := b'.clint.mtime }
  uart : b'.uart = { b.uart with rxBuf := b'.uart.rxBuf, rxBytes := b'.uart.rxBytes }
  plic : b'.plic = { b.plic with pending := b'.plic.pending }
  virtioBlk : b'.virtioBlk = b.virtioBlk

theorem Attended.trans {b b' b'' : Bus} (h : Attended b b') (h' : Attended b' b'') :
    Attended b b'' where
  clint := by rw [h'.clint, h.clint]
  uart := by rw [h'.uart, h.uart]
  plic := by rw [h'.plic, h.plic]
  virtioBlk := h'.virtioBlk.trans h.virtioBlk

/-- A change of RAM uses no device. -/
theorem Attended.ram {b b' : Bus} (h : b' = { b with ram := b'.ram }) : Attended b b' := by
  have hclint := congrArg Bus.clint h
  have huart := congrArg Bus.uart h
  have hplic := congrArg Bus.plic h
  have hblk := congrArg Bus.virtioBlk h
  dsimp only at hclint huart hplic hblk
  exact ⟨by rw [hclint], by rw [huart], by rw [hplic], hblk⟩

namespace Sandbox

variable (B : Sandbox)

/-- The tables map an address of the program. -/
abbrev Maps (access : AccessType) (va pa : U64) : Prop := UserMaps B.spaces B.csr access va pa

/-- The program can write a byte of memory. -/
def Writable (pa : U64) : Prop := ∃ va, B.Maps .store va pa

/-- The bytes of memory that may change while the program runs. -/
def Reach (pa : U64) : Prop := B.spaces.InTables pa ∨ B.Writable pa

/-- The program runs on the hart, and it has kept to its sandbox. -/
structure Runs (c : Cpu) : Prop where
  mode : c.mode = .u
  csr : c.csr = { B.csr with mstatus := c.csr.mstatus, mip := c.csr.mip }
  /-- The program marks the floating-point state dirty, and changes no other bit of the status. -/
  status : ∀ i, i ≠ 13 → i ≠ 14 → c.csr.mstatus.getLsbD i = B.csr.mstatus.getLsbD i
  held : B.spaces.Held (c.mmu, c.bus)
  wrote : WroteOnly B.Reach B.bus c.bus
  devices : Attended B.bus c.bus

variable {B}

theorem Runs.satp {c : Cpu} (h : B.Runs c) : c.csr.satp = B.csr.satp := by rw [h.csr]

theorem Runs.bit {c : Cpu} (h : B.Runs c) {i : Nat} (hi : i ≠ 13) (hi' : i ≠ 14) :
    (c.csr.mstatus >>> i) &&& 1 = (B.csr.mstatus >>> i) &&& 1 := by
  rw [Csr.bit_of_getLsbD, Csr.bit_of_getLsbD, h.status i hi hi']

/-- The accesses of the program are those of U-mode. -/
theorem Runs.lsMode {c : Cpu} (h : B.Runs c) : c.lsMode = .u := by
  refine Cpu.lsMode_of_user h.mode ?_
  rw [h.bit (by decide) (by decide), Csr.bit_of_getLsbD, B.mprv]
  rfl

/-- The status bits that the program changes do not matter to its translations. -/
theorem Runs.reference_eq {c : Cpu} (h : B.Runs c) (va : U64) (access : AccessType) :
    reference B.bus (B.spaces.root (asidOf B.csr.satp)) .u c.csr.mstatus va access =
      reference B.bus (B.spaces.root (asidOf B.csr.satp)) .u B.csr.mstatus va access := by
  have hcheck : ∀ perm, checkPerms perm c.csr.mstatus .u access va =
      checkPerms perm B.csr.mstatus .u access va := by
    intro perm
    have haccess : accessRejects perm c.csr.mstatus access =
        accessRejects perm B.csr.mstatus access := by
      cases access with
      | load => rw [accessRejects, accessRejects, h.bit (by decide) (by decide)]
      | fetch | store => rfl
    rw [checkPerms, checkPerms, haccess]
    rfl
  rw [reference, reference]
  simp only [verdict, hcheck]

/-- Memory changes where the program may change it. -/
theorem Runs.change {c : Cpu} {m : Mmu} {b : Bus} (h : B.Runs c) (hheld : B.spaces.Held (m, b))
    (hwrote : WroteOnly B.Reach c.bus b) (hdevices : b = { c.bus with ram := b.ram }) :
    B.Runs { c with mmu := m, bus := b } where
  mode := h.mode
  csr := h.csr
  status := h.status
  held := hheld
  wrote := h.wrote.trans hwrote
  devices := h.devices.trans (.ram hdevices)

/-! ## Accesses -/

section

variable {va pa val : U64} {access : AccessType} {width : Width} {trap : Trap}

/-- An address translates to where the tables map it, and so do those behind it in its page. -/
theorem translateOrTrap_ensures (va : U64) (access : AccessType) :
    Run.Ensures B.Runs
      (fun pa => ∀ i, va.toNat % 4096 + i < 4096 →
        B.Maps access (va + BitVec.ofNat 64 i) (pa + BitVec.ofNat 64 i))
      (Cpu.translateOrTrap .u va access) := by
  intro c r c' hc h
  obtain ⟨r₀, s, ht, rfl, rfl⟩ := Cpu.translateOrTrap_eq_some h
  have hanswer : ∀ va', ∃ s', Mmu.translate c.csr.satp .u c.csr.mstatus va' access (c.mmu, c.bus) =
      some (reference B.bus (B.spaces.root (asidOf B.csr.satp)) .u B.csr.mstatus va' access, s') ∧
      B.spaces.Marks (c.mmu, c.bus) s' := by
    intro va'
    have hcall : B.spaces.Allows (.translate B.csr.satp .u c.csr.mstatus va' access) :=
      ⟨B.sv39, B.used, B.root⟩
    rw [hc.satp, ← hc.reference_eq]
    exact hc.held.translate hcall
  obtain ⟨s', hs', hmarks⟩ := hanswer va
  have heq := ht
  rw [hs'] at heq
  cases heq
  refine ⟨hc.change hmarks.held (hmarks.wrote.mono fun _ => .inl) hmarks.devices, ?_⟩
  intro pa hpa i hi
  cases hr : reference B.bus (B.spaces.root (asidOf B.csr.satp)) .u B.csr.mstatus va access with
  | error f =>
      rw [hr] at hpa
      cases hpa
  | ok pa' =>
      rw [hr] at hpa ht
      cases hpa
      obtain ⟨s'', hs'', -⟩ := hanswer (va + BitVec.ofNat 64 i)
      rw [translate_add ht hi] at hs''
      have hfst := congrArg Prod.fst (Option.some.inj hs'')
      exact hfst.symm

theorem busLoad_ensures (hr : region pa = .ram) (width : Width) (trap : Trap) :
    Run.Ensures B.Runs (fun _ => True) (Cpu.busLoad pa width trap) := by
  intro c r c' hc h
  obtain ⟨r₀, b, hl, -, rfl⟩ := Cpu.busLoad_eq_some h
  have hb : b = c.bus := by
    cases ho : c.bus.offset pa width with
    | error e =>
        rw [Bus.load_ram_error hr ho] at hl
        cases hl
        rfl
    | ok off =>
        rw [Bus.load_ram hr ho] at hl
        cases hl
        rfl
  subst hb
  exact ⟨hc, fun _ _ => trivial⟩

/-- A store that the program may make is one to RAM. -/
theorem region_of_writable (hP : ∀ i < width.bytes, B.Writable (pa + BitVec.ofNat 64 i)) :
    region pa = .ram := by
  obtain ⟨va, hva⟩ := hP 0 width.bytes_pos
  have hram := B.noDevice _ _ _ hva
  rwa [show BitVec.ofNat 64 0 = 0#64 from rfl, BitVec.add_zero] at hram

theorem busStore_ensures (hP : ∀ i < width.bytes, B.Writable (pa + BitVec.ofNat 64 i)) (val : U64)
    (trap : Trap) : Run.Ensures B.Runs (fun _ => True) (Cpu.busStore pa width val trap) := by
  intro c r c' hc h
  obtain ⟨r₀, b, hs, -, rfl⟩ := Cpu.busStore_eq_some h
  have hr := region_of_writable hP
  have hwrote : WroteOnly B.Writable c.bus b := .store hr hP hs
  have hheld := hc.held.wroteOnly (fun pa ⟨va, hva⟩ => B.apart va pa hva) hwrote
  refine ⟨hc.change hheld (hwrote.mono fun _ => .inr) ?_, fun _ _ => trivial⟩
  cases ho : c.bus.offset pa width with
  | error e =>
      rw [Bus.store_ram_error val hr ho] at hs
      cases hs
      rfl
  | ok off =>
      rw [Bus.store_ram val hr ho] at hs
      cases hs
      rfl

theorem loadBytes_ensures {k : Nat} :
    ∀ {m i : Nat} {v : U64}, (∀ j < m, region (pa + BitVec.ofNat 64 (i + j)) = .ram) →
      Run.Ensures B.Runs (fun _ => True) (Cpu.loadBytes pa va k m i v)
  | 0, _, _, _ => .pure trivial
  | m + 1, i, v, hram => by
      refine .bind (busLoad_ensures (hram 0 (Nat.succ_pos m)) _ _) fun b _ => ?_
      refine loadBytes_ensures fun j hj => ?_
      have hnext := hram (j + 1) (by omega)
      rwa [show i + (j + 1) = i + 1 + j by omega] at hnext

theorem storeBytes_ensures {k : Nat} :
    ∀ {m i : Nat}, (∀ j < m, B.Writable (pa + BitVec.ofNat 64 (i + j))) →
      Run.Ensures B.Runs (fun _ => True) (Cpu.storeBytes pa va k val m i)
  | 0, _, _ => .pure trivial
  | m + 1, i, hall => by
      have hfirst : ∀ l < Width.b1.bytes,
          B.Writable (pa + BitVec.ofNat 64 i + BitVec.ofNat 64 l) := by
        intro l hl
        cases Nat.lt_one_iff.mp hl
        rw [show BitVec.ofNat 64 0 = 0#64 from rfl, BitVec.add_zero]
        exact hall 0 (Nat.succ_pos m)
      refine .bind (busStore_ensures hfirst _ _) fun _ _ => storeBytes_ensures fun j hj => ?_
      have hnext := hall (j + 1) (by omega)
      rwa [show i + (j + 1) = i + 1 + j by omega] at hnext

/-- The address after a translation, for the first byte of an access. -/
theorem region_of_maps (h : ∀ i, va.toNat % 4096 + i < 4096 →
    B.Maps access (va + BitVec.ofNat 64 i) (pa + BitVec.ofNat 64 i)) {i : Nat}
    (hi : va.toNat % 4096 + i < 4096) : region (pa + BitVec.ofNat 64 i) = .ram :=
  B.noDevice _ _ _ (h i hi)

theorem region_of_maps_zero (h : ∀ i, va.toNat % 4096 + i < 4096 →
    B.Maps access (va + BitVec.ofNat 64 i) (pa + BitVec.ofNat 64 i)) : region pa = .ram := by
  have hr := region_of_maps h (i := 0) (Nat.mod_lt _ (by decide))
  rwa [show BitVec.ofNat 64 0 = 0#64 from rfl, BitVec.add_zero] at hr

/-- A load of the program. -/
theorem mmuLoad_ensures (va : U64) (width : Width) :
    Run.Ensures B.Runs (fun _ => True) (Cpu.mmuLoad .u va width) := by
  have hoff := Cpu.pageOff_eq va
  have hw := width.bytes_le
  have hnext := Cpu.nextPage_toNat va
  rw [Cpu.mmuLoad]
  split
  · exact .bind (translateOrTrap_ensures va .load) fun pa hpa =>
      busLoad_ensures (region_of_maps_zero hpa) _ _
  · refine .bind (translateOrTrap_ensures va .load) fun pa₁ h₁ => ?_
    refine .bind (translateOrTrap_ensures (Cpu.nextPage va) .load) fun pa₂ h₂ => ?_
    refine .bind (loadBytes_ensures fun j hj => region_of_maps h₁ (by omega)) fun v _ => ?_
    exact loadBytes_ensures fun j hj => region_of_maps h₂ (by omega)

/-- A store of the program. -/
theorem mmuStore_ensures (va : U64) (width : Width) (val : U64) :
    Run.Ensures B.Runs (fun _ => True) (Cpu.mmuStore .u va width val) := by
  have hoff := Cpu.pageOff_eq va
  have hw := width.bytes_le
  have hnext := Cpu.nextPage_toNat va
  rw [Cpu.mmuStore]
  split
  · exact .bind (translateOrTrap_ensures va .store) fun pa hpa =>
      busStore_ensures (fun i hi => ⟨_, hpa i (by omega)⟩) _ _
  · refine .bind (translateOrTrap_ensures va .store) fun pa₁ h₁ => ?_
    refine .bind (translateOrTrap_ensures (Cpu.nextPage va) .store) fun pa₂ h₂ => ?_
    refine .bind (storeBytes_ensures fun j hj => ⟨_, h₁ (0 + j) (by omega)⟩) fun _ _ => ?_
    exact storeBytes_ensures fun j hj => ⟨_, h₂ (0 + j) (by omega)⟩

/-- A fetch of the program. -/
theorem fetch_ensures {pc : U64} (heven : pc &&& 0x1 = 0) :
    Run.Ensures B.Runs (fun _ => True) (Cpu.fetch .u pc) := by
  rw [Cpu.fetch]
  refine .bind (translateOrTrap_ensures pc .fetch) fun pa hpa => ?_
  refine .bind (busLoad_ensures (region_of_maps_zero hpa) _ _) fun lo _ => ?_
  dsimp only
  split
  · exact .pure trivial
  · split
    · refine .bind (translateOrTrap_ensures (pc + 2) .fetch) fun paHi hpaHi => ?_
      exact .bind (busLoad_ensures (region_of_maps_zero hpaHi) _ _) fun hi _ => .pure trivial
    · rename_i hlast
      have hroom : pc.toNat % 4096 + 2 < 4096 := by
        have hoff := Cpu.pageOff_eq pc
        have hne : Cpu.pageOff pc ≠ 0xffe := fun heq => hlast (BitVec.eq_of_toNat_eq heq)
        have htwo := (isEven_iff pc).mp heven
        omega
      have hhigh : region (pa + 2) = .ram := region_of_maps hpa hroom
      refine .bind (P := fun paHi => region paHi = .ram) (.pure hhigh) fun paHi hr => ?_
      exact .bind (busLoad_ensures hr _ _) fun hi _ => .pure trivial

end

end Sandbox

end RiscvEmu

import RiscvEmu.Confinement.Program

/-!
# What a program does not see

The bytes of RAM outside what the tables map, and outside the tables themselves, are hidden from a
program in U-mode.  Other bytes there (`Bus.hide`) change nothing in what a translation answers or
caches, nor in what an access reads, and the access leaves them as they are (`Run.IgnoresFrom`).
-/

namespace RiscvEmu

open Mmu

/-! ## Memory with other hidden bytes -/

namespace Bus

open Classical in
/-- The bus with other bytes at the addresses outside a set. -/
noncomputable def hide (V : U64 → Prop) (m : Nat → U8) (b : Bus) : Bus :=
  { b with ram := { b.ram with
      byte := fun o => if V (b.ramBase + BitVec.ofNat 64 o) then b.ram.byte o else m o } }

variable {V : U64 → Prop} {m : Nat → U8} {b : Bus} {pa : U64} {w : Width} {off : Nat}

theorem hide_of_visible {o : Nat} (h : V (b.ramBase + BitVec.ofNat 64 o)) :
    (b.hide V m).ram.byte o = b.ram.byte o := if_pos h

theorem hide_of_hidden {o : Nat} (h : ¬ V (b.ramBase + BitVec.ofNat 64 o)) :
    (b.hide V m).ram.byte o = m o := if_neg h

theorem hide_offset (V : U64 → Prop) (m : Nat → U8) (b : Bus) (pa : U64) (w : Width) :
    (b.hide V m).offset pa w = b.offset pa w := rfl

/-- The bytes of an accepted access that is visible. -/
theorem hide_readLe (ho : b.offset pa w = .ok off)
    (hV : ∀ i < w.bytes, V (pa + BitVec.ofNat 64 i)) :
    Bytes.readLe (b.hide V m).ram.byte off w.bytes = Bytes.readLe b.ram.byte off w.bytes := by
  refine Bytes.readLe_congr fun i hi => hide_of_visible ?_
  rw [address_eq ho]
  exact hV i hi

/-- A load that is visible. -/
theorem load_hide (hr : region pa = .ram) (hV : ∀ i < w.bytes, V (pa + BitVec.ofNat 64 i)) :
    load pa w (b.hide V m) = (load pa w b).map fun p => (p.1, p.2.hide V m) := by
  cases ho : b.offset pa w with
  | error e => rw [load_ram_error hr ho, load_ram_error hr ((hide_offset ..).trans ho)]; rfl
  | ok off =>
      rw [load_ram hr ho, load_ram hr ((hide_offset ..).trans ho), hide_readLe ho hV]
      rfl

/-- A store that is visible. -/
theorem store_hide (val : U64) (hr : region pa = .ram)
    (hV : ∀ i < w.bytes, V (pa + BitVec.ofNat 64 i)) :
    store pa w val (b.hide V m) = (store pa w val b).map fun p => (p.1, p.2.hide V m) := by
  cases ho : b.offset pa w with
  | error e =>
      rw [store_ram_error val hr ho, store_ram_error val hr ((hide_offset ..).trans ho)]
      rfl
  | ok off =>
      rw [store_ram val hr ho, store_ram val hr ((hide_offset ..).trans ho), Option.map_some]
      refine congrArg (fun b : Bus => some (Except.ok (), b)) ?_
      have hbyte : Bytes.writeLe (b.hide V m).ram.byte off w.bytes val =
          ((b.setBytes off w.bytes val).hide V m).ram.byte := by
        funext o
        by_cases hin : off ≤ o ∧ o < off + w.bytes
        · obtain ⟨i, hi, rfl⟩ : ∃ i < w.bytes, o = off + i := ⟨o - off, by omega, by omega⟩
          rw [Bytes.writeLe_inside _ _ hi, hide_of_visible, setBytes_byte,
            Bytes.writeLe_inside _ _ hi]
          change V (b.ramBase + _)
          rw [address_eq ho]
          exact hV i hi
        · rw [Bytes.writeLe_outside _ _ (by omega)]
          by_cases hv : V (b.ramBase + BitVec.ofNat 64 o)
          · rw [hide_of_visible hv, hide_of_visible (b := b.setBytes off w.bytes val) hv,
              setBytes_byte, Bytes.writeLe_outside _ _ (by omega)]
          · rw [hide_of_hidden hv, hide_of_hidden (b := b.setBytes off w.bytes val) hv]
      rw [setBytes, hbyte]
      rfl

end Bus

namespace Mmu.Spaces

variable {b₀ : Bus} {S : Spaces b₀} {V : U64 → Prop} {m : Nat → U8}

/-- The state of a translation with other hidden bytes. -/
noncomputable def hidden (V : U64 → Prop) (m : Nat → U8) (s : Mmu × Bus) : Mmu × Bus :=
  (s.1, s.2.hide V m)

theorem pteWord_hide {b : Bus} {a : U64} (hV : ∀ i < 8, V (a + BitVec.ofNat 64 i)) :
    pteWord (b.hide V m) a = pteWord b a := by
  rw [pteWord, pteWord, Bus.hide_offset]
  split
  · cases ho : b.offset a .b8 with
    | error e => rfl
    | ok off => exact congrArg some (Bus.hide_readLe (w := .b8) ho hV)
  · rfl

section

variable (hV : ∀ pa, S.InTables pa → V pa) {s : Mmu × Bus} {satp addr : U64}

include hV

theorem visible_of_slot {a : U64} (h : S.Slot a) (i : Nat) (hi : i < 8) :
    V (a + BitVec.ofNat 64 i) := hV _ ⟨a, h, i, hi, rfl⟩

/-- A store to a word of the tables. -/
theorem store_hide {a w : U64} (h : S.Slot a) (hw : pteWord b₀ a = some w) (val : U64) (b : Bus) :
    Bus.store a .b8 val (b.hide V m) =
      (Bus.store a .b8 val b).map fun p => (p.1, p.2.hide V m) :=
  Bus.store_hide val (pteWord_eq_some hw).1 (visible_of_slot hV h)

theorem Held.hit_hide (hheld : S.Held s)
    (hh : hits (s.1.tlb (tlbIndex (addr >>> 12))) (addr >>> 12) (asidOf satp) = true)
    (mode : PrivMode) (mstatus : U64) (access : AccessType) :
    Mmu.hit (tlbIndex (addr >>> 12)) mode mstatus addr access (hidden V m s) =
      (Mmu.hit (tlbIndex (addr >>> 12)) mode mstatus addr access s).map
        fun p => (p.1, hidden V m p.2) := by
  have hvalid : (s.1.tlb (tlbIndex (addr >>> 12))).valid = true := by
    rw [hits, Bool.and_eq_true, Bool.and_eq_true] at hh
    exact hh.1.1
  have hc := hheld.cached _ hvalid
  obtain ⟨w, hw, -, -⟩ := hc.leaf
  have hstore := fun val => store_hide (m := m) hV (slot_of_leaf hc.used hw)
    (Radix.Search.find_leaf hw).1 val s.2
  rw [Mmu.hit, Mmu.hit, hidden]
  dsimp only
  cases checkPerms (s.1.tlb (tlbIndex (addr >>> 12))).perm mstatus mode access addr with
  | error f => rfl
  | ok u =>
      dsimp only
      split
      · rw [hstore]
        cases Bus.store (s.1.tlb (tlbIndex (addr >>> 12))).pteAddr .b8 _ s.2 <;> rfl
      · rfl

theorem Held.find_hide (hheld : S.Held s) {asid : U16} (hused : S.used asid) (vpn : U64) :
    (tableSearch vpn).find (pteWord (s.2.hide V m)) 3 (S.root asid) =
      (tableSearch vpn).find (pteWord s.2) 3 (S.root asid) ∧
    (tableSearch vpn).Readable (pteWord (s.2.hide V m)) 3 (S.root asid) := by
  have hread := hheld.tables.readable hused vpn
  have hsame : ∀ a ∈ (tableSearch vpn).visits (pteWord s.2) 3 (S.root asid),
      pteWord s.2 a = pteWord (s.2.hide V m) a := by
    intro a ha
    rw [Radix.Search.visits_rel (fun _ _ => viewPte_eq) (hheld.tables.on hused vpn)] at ha
    exact (pteWord_hide (visible_of_slot hV ⟨asid, vpn, hused, ha⟩)).symm
  exact ⟨(Radix.Search.find_congr hsame).symm, hread.congr hsame⟩

omit hV in
/-- Using a leaf whose word is stored alike. -/
theorem useLeaf_hide {leaf : Leaf} (hstore : ∀ val, Bus.store leaf.pteAddr .b8 val (s.2.hide V m) =
      (Bus.store leaf.pteAddr .b8 val s.2).map fun p => (p.1, p.2.hide V m))
    (asid : U16) (mode : PrivMode) (mstatus addr : U64) (access : AccessType) :
    useLeaf leaf asid mode mstatus addr access (hidden V m s) =
      (useLeaf leaf asid mode mstatus addr access s).map fun p => (p.1, hidden V m p.2) := by
  rw [useLeaf, useLeaf, hidden]
  dsimp only
  split
  · rfl
  · cases checkPerms (leaf.pte &&& 0xFF) mstatus mode access addr with
    | error f => rfl
    | ok u =>
        dsimp only
        split
        · rw [hstore]
          cases Bus.store leaf.pteAddr .b8 (markUsed leaf.pte access) s.2 with
          | none => rfl
          | some p =>
              obtain ⟨r, b⟩ := p
              cases r <;> rfl
        · rfl

theorem Held.walk_hide (hheld : S.Held s) (hused : S.used (asidOf satp))
    (hroot : satp &&& 0x0FFF_FFFF_FFFF = S.root (asidOf satp)) (mode : PrivMode) (mstatus : U64)
    (addr : U64) (access : AccessType) :
    Mmu.walk (asidOf satp) mode mstatus addr access 3 (rootOf satp) (hidden V m s) =
      (Mmu.walk (asidOf satp) mode mstatus addr access 3 (rootOf satp) s).map
        fun p => (p.1, hidden V m p.2) := by
  have hread := hheld.tables.readable hused (addr >>> 12)
  obtain ⟨hfind, hread'⟩ := hheld.find_hide (m := m) hV hused (addr >>> 12)
  have hf := findLeaf_eq_find addr access hread
  have hf' := findLeaf_eq_find addr access hread'
  rw [hfind] at hf'
  rw [← hroot] at hf hf'
  change findLeaf addr access 3 (rootOf satp) s.2 = _ at hf
  change findLeaf addr access 3 (rootOf satp) (s.2.hide V m) = _ at hf'
  rw [Mmu.walk, Mmu.walk, hidden]
  dsimp only
  rw [hf, hf']
  cases ho : (tableSearch (addr >>> 12)).find (pteWord s.2) 3 (satp &&& 0x0FFF_FFFF_FFFF) with
  | unreadable => rfl
  | bad => rfl
  | leaf rem a w =>
      rw [hroot] at ho
      have hrel := hheld.tables.find_rel hused (addr >>> 12)
      rw [ho] at hrel
      generalize ho₀ : (tableSearch (addr >>> 12)).find (pteWord b₀) 3 (S.root (asidOf satp)) = o₀
        at hrel
      cases hrel with
      | leaf hw =>
          have hstore := fun val => store_hide (m := m) hV (slot_of_leaf hused ho₀)
            (Radix.Search.find_leaf ho₀).1 val s.2
          exact useLeaf_hide hstore (asidOf satp) mode mstatus addr access

/-- A translation does not see hidden bytes. -/
theorem Held.translate_hide (hheld : S.Held s) {mode : PrivMode} {mstatus : U64}
    {access : AccessType} (hcall : S.Allows (.translate satp mode mstatus addr access)) :
    Mmu.translate satp mode mstatus addr access (hidden V m s) =
      (Mmu.translate satp mode mstatus addr access s).map fun p => (p.1, hidden V m p.2) := by
  obtain ⟨hsatp, hused, hroot⟩ := hcall
  have hn := levels_of_sv39 hsatp
  by_cases hm : mode = .m
  · rw [translate_bare (Or.inr hm), translate_bare (Or.inr hm)]
    rfl
  · cases hc : canonical 3 addr with
    | false =>
        rw [translate_noncanonical hn hm hc, translate_noncanonical hn hm hc]
        rfl
    | true =>
        have hp : Paged satp mode addr 3 := ⟨hn, hm, hc⟩
        cases hh : hits (s.1.tlb (tlbIndex (addr >>> 12))) (addr >>> 12) (asidOf satp) with
        | true =>
            rw [translate_hit hp hh, translate_hit hp (s := hidden V m s) hh]
            exact hheld.hit_hide hV hh mode mstatus access
        | false =>
            rw [translate_walk hp hh, translate_walk hp (s := hidden V m s) hh]
            exact hheld.walk_hide hV hused hroot mode mstatus addr access

end

end Mmu.Spaces

/-! ## Accesses -/

/-- The hart with other bytes in RAM at the addresses outside a set. -/
noncomputable def Cpu.hide (V : U64 → Prop) (m : Nat → U8) (c : Cpu) : Cpu :=
  { c with bus := c.bus.hide V m }

namespace Sandbox

/-- The addresses that the program can see the bytes of: those of the tables, and those that the
tables map for some access. -/
def Visible (B : Sandbox) (pa : U64) : Prop :=
  B.spaces.InTables pa ∨ ∃ access va, B.Maps access va pa

variable {B : Sandbox} {m : Nat → U8} {va pa val : U64} {access : AccessType} {width : Width}
  {trap : Trap}

theorem Writable.visible (h : B.Writable pa) : B.Visible pa := by
  obtain ⟨va, hva⟩ := h
  exact .inr ⟨_, va, hva⟩

/-- The bytes of an access in one page. -/
theorem visible_of_maps (h : ∀ i, va.toNat % 4096 + i < 4096 →
    B.Maps access (va + BitVec.ofNat 64 i) (pa + BitVec.ofNat 64 i)) {n : Nat}
    (hn : va.toNat % 4096 + n ≤ 4096) : ∀ i < n, B.Visible (pa + BitVec.ofNat 64 i) :=
  fun i hi => .inr ⟨access, _, h i (by omega)⟩

theorem translateOrTrap_hide (va : U64) (access : AccessType) :
    Run.IgnoresFrom B.Runs (Cpu.hide B.Visible m) (Cpu.translateOrTrap .u va access) := by
  have htranslate : Run.IgnoresFrom B.Runs (Cpu.hide B.Visible m) (Cpu.translate .u va access) := by
    intro c hc
    have hcall : B.spaces.Allows (.translate c.csr.satp .u c.csr.mstatus va access) := by
      rw [hc.satp]
      exact ⟨B.sv39, B.used, B.root⟩
    have hunit : Run.IgnoresFrom (fun c : Cpu => B.spaces.Held (c.mmu, c.bus))
        (Cpu.hide B.Visible m)
        (Run.zoom (fun c : Cpu => (c.mmu, c.bus)) (fun s c => { c with mmu := s.1, bus := s.2 }) id
          (Mmu.translate c.csr.satp .u c.csr.mstatus va access)) :=
      .zoom (J := B.spaces.Held) (g := Spaces.hidden B.Visible m)
        (fun s hs => hs.translate_hide (fun _ => .inl) hcall) (fun _ hc => hc) (fun _ => rfl)
        fun _ _ => rfl
    exact hunit c hc.held
  exact .zoom (g := Cpu.hide B.Visible m) htranslate (fun _ hc => hc) (fun _ => rfl) fun _ _ => rfl

theorem busLoad_hide (hr : region pa = .ram)
    (hV : ∀ i < width.bytes, B.Visible (pa + BitVec.ofNat 64 i)) (trap : Trap) :
    Run.IgnoresFrom B.Runs (Cpu.hide B.Visible m) (Cpu.busLoad pa width trap) :=
  .zoom (J := fun _ => True) (g := Bus.hide B.Visible m) (fun _ _ => Bus.load_hide hr hV)
    (fun _ _ => trivial) (fun _ => rfl) fun _ _ => rfl

theorem busStore_hide (hP : ∀ i < width.bytes, B.Writable (pa + BitVec.ofNat 64 i)) (val : U64)
    (trap : Trap) :
    Run.IgnoresFrom B.Runs (Cpu.hide B.Visible m) (Cpu.busStore pa width val trap) := by
  have hr : region pa = .ram := region_of_writable hP
  exact .zoom (J := fun _ => True) (g := Bus.hide B.Visible m)
    (fun _ _ => Bus.store_hide val hr fun i hi => (hP i hi).visible)
    (fun _ _ => trivial) (fun _ => rfl) fun _ _ => rfl

theorem busLoad_byte_hide (hV : B.Visible pa) (hr : region pa = .ram) (trap : Trap) :
    Run.IgnoresFrom B.Runs (Cpu.hide B.Visible m) (Cpu.busLoad pa .b1 trap) := by
  refine busLoad_hide hr (fun i hi => ?_) trap
  cases Nat.lt_one_iff.mp hi
  rwa [show BitVec.ofNat 64 0 = 0#64 from rfl, BitVec.add_zero]

theorem loadBytes_hide {k : Nat} :
    ∀ {n i : Nat} {v : U64}, (∀ j < n, region (pa + BitVec.ofNat 64 (i + j)) = .ram) →
      (∀ j < n, B.Visible (pa + BitVec.ofNat 64 (i + j))) →
      Run.IgnoresFrom B.Runs (Cpu.hide B.Visible m) (Cpu.loadBytes pa va k n i v)
  | 0, _, _, _, _ => .pure _
  | n + 1, i, v, hram, hV => by
      have hnext : ∀ j, i + (j + 1) = i + 1 + j := by omega
      refine .bind (busLoad_byte_hide (hV 0 (Nat.succ_pos n)) (hram 0 (Nat.succ_pos n)) _)
        (busLoad_ensures (hram 0 (Nat.succ_pos n)) _ _) fun b _ => ?_
      refine loadBytes_hide (fun j hj => ?_) fun j hj => ?_
      · have hr := hram (j + 1) (by omega)
        rwa [hnext] at hr
      · have hv := hV (j + 1) (by omega)
        rwa [hnext] at hv

theorem storeBytes_hide {k : Nat} :
    ∀ {n i : Nat}, (∀ j < n, B.Writable (pa + BitVec.ofNat 64 (i + j))) →
      Run.IgnoresFrom B.Runs (Cpu.hide B.Visible m) (Cpu.storeBytes pa va k val n i)
  | 0, _, _ => .pure _
  | n + 1, i, hall => by
      have hfirst : ∀ l < Width.b1.bytes,
          B.Writable (pa + BitVec.ofNat 64 i + BitVec.ofNat 64 l) := by
        intro l hl
        cases Nat.lt_one_iff.mp hl
        rw [show BitVec.ofNat 64 0 = 0#64 from rfl, BitVec.add_zero]
        exact hall 0 (Nat.succ_pos n)
      refine .bind (busStore_hide hfirst _ _) (busStore_ensures hfirst _ _) fun _ _ => ?_
      refine storeBytes_hide fun j hj => ?_
      have hnext := hall (j + 1) (by omega)
      rwa [show i + (j + 1) = i + 1 + j by omega] at hnext

/-- A load of the program. -/
theorem mmuLoad_hide (va : U64) (width : Width) :
    Run.IgnoresFrom B.Runs (Cpu.hide B.Visible m) (Cpu.mmuLoad .u va width) := by
  have hoff := Cpu.pageOff_eq va
  have hw := width.bytes_le
  have hnext := Cpu.nextPage_toNat va
  rw [Cpu.mmuLoad]
  split
  · exact .bind (translateOrTrap_hide va .load) (translateOrTrap_ensures va .load) fun pa hpa =>
      busLoad_hide (region_of_maps_zero hpa) (visible_of_maps hpa (by omega)) _
  · refine .bind (translateOrTrap_hide va .load) (translateOrTrap_ensures va .load) fun pa₁ h₁ => ?_
    refine .bind (translateOrTrap_hide _ .load) (translateOrTrap_ensures _ .load) fun pa₂ h₂ => ?_
    refine .bind (loadBytes_hide (fun j hj => region_of_maps h₁ (by omega))
      fun j hj => ?_) (loadBytes_ensures fun j hj => region_of_maps h₁ (by omega)) fun v _ => ?_
    · exact visible_of_maps h₁ (n := 0x1000 - Cpu.pageOff va) (by omega) _ (by omega)
    · refine loadBytes_hide (fun j hj => region_of_maps h₂ (by omega)) fun j hj => ?_
      exact visible_of_maps h₂ (n := width.bytes - (0x1000 - Cpu.pageOff va)) (by omega) _
        (by omega)

/-- A store of the program. -/
theorem mmuStore_hide (va : U64) (width : Width) (val : U64) :
    Run.IgnoresFrom B.Runs (Cpu.hide B.Visible m) (Cpu.mmuStore .u va width val) := by
  have hoff := Cpu.pageOff_eq va
  have hw := width.bytes_le
  have hnext := Cpu.nextPage_toNat va
  rw [Cpu.mmuStore]
  split
  · exact .bind (translateOrTrap_hide va .store) (translateOrTrap_ensures va .store) fun pa hpa =>
      busStore_hide (fun i hi => ⟨_, hpa i (by omega)⟩) _ _
  · refine .bind (translateOrTrap_hide va .store) (translateOrTrap_ensures va .store)
      fun pa₁ h₁ => ?_
    refine .bind (translateOrTrap_hide _ .store) (translateOrTrap_ensures _ .store) fun pa₂ h₂ => ?_
    have hfirst : ∀ j < 0x1000 - Cpu.pageOff va, B.Writable (pa₁ + BitVec.ofNat 64 (0 + j)) :=
      fun j hj => ⟨_, h₁ (0 + j) (by omega)⟩
    refine .bind (storeBytes_hide hfirst) (storeBytes_ensures hfirst) fun _ _ => ?_
    exact storeBytes_hide fun j hj => ⟨_, h₂ (0 + j) (by omega)⟩

/-- A half of an encoding. -/
theorem busLoad_half_hide (hr : region pa = .ram)
    (hV : ∀ i < 2, B.Visible (pa + BitVec.ofNat 64 i)) (trap : Trap) :
    Run.IgnoresFrom B.Runs (Cpu.hide B.Visible m) (Cpu.busLoad pa .b2 trap) := by
  refine busLoad_hide hr (fun i hi => ?_) trap
  exact hV i hi

/-- A fetch of the program. -/
theorem fetch_hide {pc : U64} (heven : pc &&& 0x1 = 0) :
    Run.IgnoresFrom B.Runs (Cpu.hide B.Visible m) (Cpu.fetch .u pc) := by
  have htwo := (isEven_iff pc).mp heven
  have hoff := Cpu.pageOff_eq pc
  rw [Cpu.fetch]
  refine .bind (translateOrTrap_hide pc .fetch) (translateOrTrap_ensures pc .fetch) fun pa hpa => ?_
  have hlow := region_of_maps_zero hpa
  refine .bind (busLoad_half_hide hlow (visible_of_maps hpa (n := 2) (by omega)) _)
    (busLoad_ensures hlow _ _) fun lo _ => ?_
  dsimp only
  split
  · exact .pure _
  · split
    · refine .bind (translateOrTrap_hide _ .fetch) (translateOrTrap_ensures _ .fetch)
        fun paHi hpaHi => ?_
      have hhigh := region_of_maps_zero hpaHi
      have hnext : (pc + 2).toNat % 4096 + 2 ≤ 4096 := by
        rw [BitVec.toNat_add, show (2 : U64).toNat = 2 from rfl]
        omega
      exact .bind (busLoad_half_hide hhigh (visible_of_maps hpaHi (n := 2) hnext) _)
        (busLoad_ensures hhigh _ _) fun hi _ => .pure _
    · rename_i hlast
      have hroom : pc.toNat % 4096 + 4 ≤ 4096 := by
        have hne : Cpu.pageOff pc ≠ 0xffe := fun heq => hlast (BitVec.eq_of_toNat_eq heq)
        omega
      have hhigh : region (pa + 2) = .ram := region_of_maps hpa (i := 2) (by omega)
      have hbytes : ∀ i < 2, B.Visible (pa + 2 + BitVec.ofNat 64 i) := by
        intro i hi
        have hv := visible_of_maps hpa hroom (2 + i) (by omega)
        rwa [BitVec.ofNat_add, ← BitVec.add_assoc] at hv
      exact .bind (P := fun paHi => paHi = pa + 2) (.pure _) (.pure rfl) fun paHi heq => by
        subst heq
        exact .bind (busLoad_half_hide hhigh hbytes _) (busLoad_ensures hhigh _ _)
          fun hi _ => .pure _

end Sandbox

end RiscvEmu

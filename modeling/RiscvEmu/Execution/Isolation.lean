import RiscvEmu.Execution.Precise
import RiscvEmu.Translation.Pages
import RiscvEmu.Translation.Transparency

/-!
# Memory isolation of U-mode

In U-mode every byte that an instruction writes to RAM should be the translation of its own
virtual address through a user page that can be written, and every byte it reads into a register
the translation of its own address for a load.

Loads and stores translate both pages of an access that crosses a boundary.  Atomics translate
the first byte only and go on into the frame that happens to lie behind, and one that stores reports
success when the bus rejects it, instead of trapping.  Where the bytes of an atomic are in one page,
or the next page is mapped to that frame, and the bus takes them, every instruction is isolated
(`isolated`).
-/

namespace RiscvEmu

open Mmu

/-! ## Writes to RAM -/

/-- The second bus has the RAM of the first but for bytes at the given physical addresses. -/
structure WroteOnly (P : U64 → Prop) (b b' : Bus) : Prop where
  base : b'.ramBase = b.ramBase
  len : b'.ram.len = b.ram.len
  byte : ∀ o, b'.ram.byte o = b.ram.byte o ∨ P (b.ramBase + BitVec.ofNat 64 o)

namespace WroteOnly

variable {P : U64 → Prop} {b b' b'' : Bus}

theorem refl (b : Bus) : WroteOnly P b b := ⟨rfl, rfl, fun _ => Or.inl rfl⟩

theorem trans (h : WroteOnly P b b') (h' : WroteOnly P b' b'') : WroteOnly P b b'' := by
  refine ⟨h'.base.trans h.base, h'.len.trans h.len, fun o => ?_⟩
  rcases h'.byte o with heq | hP
  · rw [heq]
    exact h.byte o
  · rw [h.base] at hP
    exact Or.inr hP

/-- A store to RAM writes the bytes of its access only. -/
theorem store {addr v : U64} {w : Width} {r : Except BusFault Unit} (hr : region addr = .ram)
    (hP : ∀ i < w.bytes, P (addr + BitVec.ofNat 64 i))
    (h : Bus.store addr w v b = some (r, b')) : WroteOnly P b b' := by
  cases ho : b.offset addr w with
  | error e =>
      rw [Bus.store_ram_error v hr ho] at h
      cases h
      exact .refl b
  | ok off =>
      rw [Bus.store_ram v hr ho] at h
      cases h
      refine ⟨rfl, rfl, fun o => ?_⟩
      rw [Bus.setBytes_byte]
      by_cases hin : off ≤ o ∧ o < off + w.bytes
      · obtain ⟨i, rfl⟩ := Nat.exists_eq_add_of_le hin.1
        refine Or.inr ?_
        rw [Bus.address_eq ho]
        exact hP i (by omega)
      · exact Or.inl (Bytes.writeLe_outside _ _ (by omega))

end WroteOnly

namespace Cpu

/-! ## The bytes of an access -/

/-- Byte `i` of a U-mode access at a virtual address is at a physical address.  A byte in the page
of the access is translated in the state before the instruction, and a byte in the next page in
the state that translating the first page leaves. -/
inductive Sees (c : Cpu) (access : AccessType) (va : U64) (i : Nat) (pa : U64) : Prop where
  | first : pageOff va + i < 0x1000 →
      MapsUser c.csr.satp c.csr.mstatus (c.mmu, c.bus) access (va + BitVec.ofNat 64 i) pa →
      Sees c access va i pa
  | next {pa₁ : U64} {s : Mmu × Bus} : 0x1000 ≤ pageOff va + i →
      Mmu.translate c.csr.satp .u c.csr.mstatus va access (c.mmu, c.bus) = some (.ok pa₁, s) →
      MapsUser c.csr.satp c.csr.mstatus s access (va + BitVec.ofNat 64 i) pa →
      Sees c access va i pa

/-- No byte that a U-mode access can reach is one of a device. -/
def NoDevice (c : Cpu) : Prop :=
  ∀ access va i pa, Sees c access va i pa → region pa = .ram

section

variable {c c₁ c' : Cpu} {n : Nat} {va pa : U64} {access : AccessType}

/-- A translation of the hart in U-mode. -/
theorem mapsUser_of_translateOrTrap (hn : levels c.csr.satp = some n)
    (h : translateOrTrap .u va access c = some (.ok pa, c₁)) :
    Mmu.translate c.csr.satp .u c.csr.mstatus va access (c.mmu, c.bus) =
        some (.ok pa, (c₁.mmu, c₁.bus)) ∧
      MapsUser c.csr.satp c.csr.mstatus (c.mmu, c.bus) access va pa := by
  obtain ⟨ht, _⟩ := translateOrTrap_eq_ok h
  exact ⟨ht, mapsUser_of_translate hn ht⟩

/-- The bytes of an access in its first page. -/
theorem sees_first (hn : levels c.csr.satp = some n)
    (h : translateOrTrap .u va access c = some (.ok pa, c₁)) {i : Nat}
    (hi : pageOff va + i < 0x1000) : Sees c access va i (pa + BitVec.ofNat 64 i) := by
  refine .first hi ((mapsUser_of_translateOrTrap hn h).2.add hn ?_)
  rw [pageOff_eq] at hi
  exact hi

/-- The bytes of an access in its second page. -/
theorem sees_next {c₂ : Cpu} {pa₁ : U64} (hn : levels c.csr.satp = some n)
    (h₁ : translateOrTrap .u va access c = some (.ok pa₁, c₁))
    (h₂ : translateOrTrap .u (nextPage va) access c₁ = some (.ok pa, c₂)) {j : Nat}
    (hj : j < 0x1000) :
    Sees c access va (0x1000 - pageOff va + j) (pa + BitVec.ofNat 64 j) := by
  have hkeep := translateOrTrap_keepsHart _ _ _ _ _ _ h₁
  have hlt := pageOff_lt va
  have hmap := (mapsUser_of_translateOrTrap (by rw [hkeep.csr]; exact hn) h₂).2
  rw [hkeep.csr] at hmap
  refine .next (by omega) (mapsUser_of_translateOrTrap hn h₁).1 ?_
  have haddr : va + BitVec.ofNat 64 (0x1000 - pageOff va + j) =
      nextPage va + BitVec.ofNat 64 j := by
    rw [nextPage_eq, BitVec.ofNat_add, BitVec.add_assoc]
  rw [haddr]
  refine hmap.add hn ?_
  have hbase : (nextPage va).toNat % 4096 = 0 := by
    rw [nextPage_toNat]
    omega
  omega

/-! ## StoresValue -/

theorem busStore_wroteOnly {P : U64 → Prop} {val : U64} {w : Width} {trap : Trap}
    {r : Except Trap Unit} (hr : region pa = .ram)
    (hP : ∀ i < w.bytes, P (pa + BitVec.ofNat 64 i))
    (h : busStore pa w val trap c = some (r, c')) : WroteOnly P c.bus c'.bus := by
  obtain ⟨r₀, b, hs, _, rfl⟩ := busStore_eq_some h
  exact .store hr hP hs

theorem storeBytes_wroteOnly {P : U64 → Prop} {pa va' : U64} {k : Nat} {val : U64} :
    ∀ {m i : Nat} {c c' : Cpu} {r : Except Trap Unit},
      (∀ j < m, P (pa + BitVec.ofNat 64 (i + j)) ∧
        region (pa + BitVec.ofNat 64 (i + j)) = .ram) →
      storeBytes pa va' k val m i c = some (r, c') → WroteOnly P c.bus c'.bus
  | 0, _, _, _, _, _, h => by
      cases h
      exact .refl _
  | m + 1, i, c, c', r, hall, h => by
      have hfirst := hall 0 (Nat.succ_pos m)
      rw [Nat.add_zero] at hfirst
      have hone : ∀ l < Width.b1.bytes, P (pa + BitVec.ofNat 64 i + BitVec.ofNat 64 l) := by
        intro l hl
        cases Nat.lt_one_iff.mp hl
        rw [show BitVec.ofNat 64 0 = 0#64 from rfl, BitVec.add_zero]
        exact hfirst.1
      rcases Run.bind_eq_some h with ⟨_, c₁, hs, hrest⟩ | ⟨t, hs, _⟩
      · refine (busStore_wroteOnly hfirst.2 hone hs).trans (storeBytes_wroteOnly ?_ hrest)
        intro j hj
        have hnext := hall (j + 1) (by omega)
        rwa [show i + (j + 1) = i + 1 + j by omega] at hnext
      · exact busStore_wroteOnly hfirst.2 hone hs

/-- A store in U-mode marks leaf entries, and then it writes bytes it sees only. -/
theorem mmuStore_wroteOnly {w : Width} {val : U64} {r : Except Trap Unit}
    (hn : levels c.csr.satp = some n) (hdev : c.NoDevice)
    (hf : c.FaithfulAccess .u .store va w) (h : mmuStore .u va w val c = some (r, c')) :
    ∃ b, SameData c.bus b ∧
      WroteOnly (fun pa => ∃ i < w.bytes, Sees c .store va i pa) b c'.bus := by
  have hw := w.bytes_le
  have hlt := pageOff_lt va
  rw [mmuStore] at h
  split at h
  · rename_i hfit
    rcases Run.bind_eq_some h with ⟨pa, c₁, ht, hs⟩ | ⟨t, ht, _⟩
    · have hsees : ∀ i < w.bytes, Sees c .store va i (pa + BitVec.ofNat 64 i) :=
        fun i hi => sees_first hn ht (by omega)
      have hram := hdev _ _ _ _ (hsees 0 w.bytes_pos)
      rw [show BitVec.ofNat 64 0 = 0#64 from rfl, BitVec.add_zero] at hram
      exact ⟨c₁.bus, translateOrTrap_sameData hf.first ht,
        busStore_wroteOnly hram (fun i hi => ⟨i, hi, hsees i hi⟩) hs⟩
    · exact ⟨c'.bus, translateOrTrap_sameData hf.first ht, .refl _⟩
  · rename_i hfit
    rcases Run.bind_eq_some h with ⟨pa1, c₁, ht1, h⟩ | ⟨t, ht1, _⟩
    · have h1 := translateOrTrap_sameData hf.first ht1
      have hnext := hf.second hfit pa1 c₁ ht1
      rcases Run.bind_eq_some h with ⟨pa2, c₂, ht2, h⟩ | ⟨t, ht2, _⟩
      · refine ⟨c₂.bus, h1.trans (translateOrTrap_sameData hnext ht2), ?_⟩
        have hsees1 : ∀ j < 0x1000 - pageOff va,
            Sees c .store va j (pa1 + BitVec.ofNat 64 j) :=
          fun j hj => sees_first hn ht1 (by omega)
        have hsees2 : ∀ j < w.bytes - (0x1000 - pageOff va),
            Sees c .store va (0x1000 - pageOff va + j) (pa2 + BitVec.ofNat 64 j) :=
          fun j hj => sees_next hn ht1 ht2 (by omega)
        have hbytes1 : ∀ j < 0x1000 - pageOff va,
            (∃ i < w.bytes, Sees c .store va i (pa1 + BitVec.ofNat 64 (0 + j))) ∧
              region (pa1 + BitVec.ofNat 64 (0 + j)) = .ram := by
          intro j hj
          rw [Nat.zero_add]
          exact ⟨⟨j, by omega, hsees1 j hj⟩, hdev _ _ _ _ (hsees1 j hj)⟩
        have hbytes2 : ∀ j < w.bytes - (0x1000 - pageOff va),
            (∃ i < w.bytes, Sees c .store va i (pa2 + BitVec.ofNat 64 (0 + j))) ∧
              region (pa2 + BitVec.ofNat 64 (0 + j)) = .ram := by
          intro j hj
          rw [Nat.zero_add]
          exact ⟨⟨_, by omega, hsees2 j hj⟩, hdev _ _ _ _ (hsees2 j hj)⟩
        rcases Run.bind_eq_some h with ⟨_, c₃, hb1, hb2⟩ | ⟨t, hb1, _⟩
        · exact (storeBytes_wroteOnly hbytes1 hb1).trans (storeBytes_wroteOnly hbytes2 hb2)
        · exact storeBytes_wroteOnly hbytes1 hb1
      · exact ⟨c'.bus, h1.trans (translateOrTrap_sameData hnext ht2), .refl _⟩
    · exact ⟨c'.bus, translateOrTrap_sameData hf.first ht1, .refl _⟩

/-! ## Values in their places -/

/-- The bytes of the value are where the store sees the bytes of its access. -/
def Put (c : Cpu) (va : U64) (w : Width) (val : U64) (b : Bus) : Prop :=
  ∀ i < w.bytes, ∃ o < b.ram.len.toNat, Sees c .store va i (b.ramBase + BitVec.ofNat 64 o) ∧
    b.ram.byte o = Bytes.byteAt val i

/-- What is written at the offsets of the addresses seen is put there. -/
theorem put_of_wrote {w : Width} {val : U64} {b b' : Bus} {off : Nat → Nat} {f : Nat → U64}
    (hwrote : Wrote b b' w val off) (hplace : ∀ i < w.bytes, b.offset (f i) .b1 = .ok (off i))
    (hsees : ∀ i < w.bytes, Sees c .store va i (f i)) : c.Put va w val b' := by
  intro i hi
  have ho := hplace i hi
  have haddr := Bus.address_eq (i := 0) ho
  rw [Nat.add_zero, show BitVec.ofNat 64 0 = 0#64 from rfl, BitVec.add_zero] at haddr
  refine ⟨off i, ?_, ?_, hwrote.bytes i hi⟩
  · rw [hwrote.len]
    exact (Bus.offset_ok ho).2.2.1
  · rw [hwrote.base, haddr]
    exact hsees i hi

/-- A store of a whole word, all of whose bytes are seen. -/
theorem put_of_busStore {w : Width} {val : U64} {trap : Trap} (hr : region pa = .ram)
    (hsees : ∀ i < w.bytes, Sees c .store va i (pa + BitVec.ofNat 64 i))
    (h : busStore pa w val trap c₁ = some (.ok (), c')) : c.Put va w val c'.bus := by
  obtain ⟨off, ho, hbus⟩ := busStore_ram_ok hr h
  have hwrote : Wrote c₁.bus (c₁.bus.setBytes (off + 0) w.bytes val) w val (off + ·) :=
    .of_setBytes c₁.bus fun j _ => by rw [Nat.zero_add, Nat.add_zero]
  rw [hbus]
  exact put_of_wrote hwrote (fun i hi => Bus.offset_byte ho hi) hsees

/-- The stores of both parts of an access, all of whose bytes are seen. -/
theorem put_of_parts {w : Width} {val pa1 pa2 va' va'' : U64} {k : Nat} (hdev : c.NoDevice)
    (hpos : 0 < k) (hfit : k < w.bytes) (hpa1 : pa1.toNat % 4096 + k = 4096)
    (hpa2 : pa2.toNat % 4096 = 0)
    (hsees1 : ∀ j < k, Sees c .store va j (pa1 + BitVec.ofNat 64 j))
    (hsees2 : ∀ j < w.bytes - k, Sees c .store va (k + j) (pa2 + BitVec.ofNat 64 j))
    (h : (storeBytes pa1 va' 0 val k 0 >>= fun _ =>
      storeBytes pa2 va'' k val (w.bytes - k) 0) c₁ = some (.ok (), c')) :
    c.Put va w val c'.bus := by
  have hw := w.bytes_le
  have hlow : ∀ {j}, j < k → byteAddress pa1 pa2 k j = pa1 + BitVec.ofNat 64 j :=
    fun hj => if_pos hj
  have hhigh : ∀ j, byteAddress pa1 pa2 k (k + j) = pa2 + BitVec.ofNat 64 j :=
    fun j => by rw [byteAddress, if_neg (by omega), Nat.add_sub_cancel_left]
  obtain ⟨m, hstops⟩ := storeParts_stops h
  obtain ⟨-, rfl⟩ | ⟨⟨t, ht⟩, -⟩ := hstops.ended
  · -- the bus took every byte, so the parts are runs of bytes in RAM
    obtain ⟨off₁, hrun₁⟩ := runAt_of_taken c₁.bus pa1 hpos (by omega) fun j hj =>
      ⟨hdev _ _ _ _ (hsees1 j hj), hlow hj ▸ hstops.taken j (by omega)⟩
    obtain ⟨off₂, hrun₂⟩ := runAt_of_taken c₁.bus pa2
      (n := w.bytes - k) (by omega) (by omega) fun j hj =>
        ⟨hdev _ _ _ _ (hsees2 j hj), hhigh j ▸ hstops.taken _ (by omega)⟩
    rw [storeParts_ram hrun₁ hrun₂] at h
    cases h
    let off : Nat → Nat := fun i => if i < k then off₁ + i else off₂ + (i - k)
    have hoff0 : off 0 = off₁ := if_pos hpos
    have hoffk : off k = off₂ := by
      simp only [off, Nat.lt_irrefl, if_false, Nat.sub_self, Nat.add_zero]
    have hwrote : Wrote c₁.bus ((c₁.bus.setBytes (off 0) k val).setBytes (off k)
        (w.bytes - k) (val >>> (k * 8))) w val off := by
      refine .of_parts c₁.bus hfit (fun j hj => ?_) (fun j _ => ?_) ?_
      · rw [hoff0, Nat.zero_add]
        exact if_pos hj
      · rw [hoffk]
        simp only [off]
        rw [if_neg (by omega), Nat.add_sub_cancel_left]
      · rw [hoff0, hoffk]
        exact hrun₁.apart hrun₂ hpos (by omega) (by omega) hpa1 hpa2
    rw [hoff0, hoffk] at hwrote
    refine put_of_wrote (f := byteAddress pa1 pa2 k) hwrote (fun i hi => ?_) fun i hi => ?_
    · simp only [off]
      by_cases hin : i < k
      · have hplace := (hrun₁ i hin).2
        rw [Nat.zero_add] at hplace
        rw [hlow hin, if_pos hin, hplace]
      · obtain ⟨j, rfl⟩ := Nat.exists_eq_add_of_le (Nat.le_of_not_lt hin)
        have hplace := (hrun₂ j (by omega)).2
        rw [Nat.zero_add] at hplace
        rw [hhigh, if_neg hin, Nat.add_sub_cancel_left, hplace]
    · by_cases hin : i < k
      · rw [hlow hin]
        exact hsees1 i hin
      · obtain ⟨j, rfl⟩ := Nat.exists_eq_add_of_le (Nat.le_of_not_lt hin)
        rw [hhigh]
        exact hsees2 j (by omega)
  · cases ht

/-- A store in U-mode that succeeds puts the value where it sees the bytes. -/
theorem mmuStore_put {w : Width} {val : U64} (hn : levels c.csr.satp = some n)
    (hdev : c.NoDevice) (h : mmuStore .u va w val c = some (.ok (), c')) :
    c.Put va w val c'.bus := by
  have hw := w.bytes_le
  have hlt := pageOff_lt va
  rw [mmuStore] at h
  split at h
  · rename_i hfit
    obtain ⟨pa, c₁, ht, hs⟩ := Run.bind_eq_ok h
    have hsees : ∀ i < w.bytes, Sees c .store va i (pa + BitVec.ofNat 64 i) :=
      fun i hi => sees_first hn ht (by omega)
    have hram := hdev _ _ _ _ (hsees 0 w.bytes_pos)
    rw [show BitVec.ofNat 64 0 = 0#64 from rfl, BitVec.add_zero] at hram
    exact put_of_busStore hram hsees hs
  · rename_i hfit
    obtain ⟨pa1, c₁, ht1, h⟩ := Run.bind_eq_ok h
    obtain ⟨pa2, c₂, ht2, h⟩ := Run.bind_eq_ok h
    have hpa1 := translate_pageOff (translateOrTrap_eq_ok ht1).1
    have hpa2 := translate_pageOff (translateOrTrap_eq_ok ht2).1
    obtain ⟨hpos, hin, _, _, hbase⟩ := crossing_parts hfit
    have hoff := pageOff_eq va
    exact put_of_parts hdev hpos hin (by omega) (hpa2.trans hbase)
      (fun j hj => sees_first hn ht1 (by omega)) (fun j hj => sees_next hn ht1 ht2 (by omega)) h

/-! ## Loads -/

/-- The value is the word of the bytes the access sees in the RAM of a bus. -/
structure ReadFrom (c : Cpu) (va : U64) (n : Nat) (v : U64) (b : Bus) : Prop where
  byte : ∀ i < n, ∃ o < b.ram.len.toNat, Sees c .load va i (b.ramBase + BitVec.ofNat 64 o) ∧
    Bytes.byteAt v i = b.ram.byte o
  rest : ∀ i, n ≤ i → Bytes.byteAt v i = 0

/-- A load from RAM reads the bytes of its access. -/
theorem busLoad_bytes {w : Width} {trap : Trap} {v : U64} (hr : region pa = .ram)
    (h : busLoad pa w trap c = some (.ok v, c')) :
    c'.bus = c.bus ∧ (∀ i < w.bytes, ∃ o < c.bus.ram.len.toNat,
      c.bus.ramBase + BitVec.ofNat 64 o = pa + BitVec.ofNat 64 i ∧
        Bytes.byteAt v i = c.bus.ram.byte o) ∧
      ∀ i, w.bytes ≤ i → Bytes.byteAt v i = 0 := by
  obtain ⟨r₀, b, hl, hr₀, rfl⟩ := busLoad_eq_some h
  cases ho : c.bus.offset pa w with
  | error e =>
      rw [Bus.load_ram_error hr ho] at hl
      cases hl
      cases hr₀
  | ok off =>
      rw [Bus.load_ram hr ho] at hl
      cases hl
      cases hr₀
      refine ⟨rfl, fun i hi => ⟨off + i, ?_, Bus.address_eq ho, ?_⟩, fun i hi => ?_⟩
      · have := (Bus.offset_ok ho).2.2.1
        omega
      · rw [Bytes.byteAt_readLe _ _ _ _ w.bytes_le, if_pos hi]
      · rw [Bytes.byteAt_readLe _ _ _ _ w.bytes_le, if_neg (by omega)]

/-- Byte loads from RAM put the bytes of their part of the access in their places. -/
theorem loadBytes_bytes {pa va' : U64} {k : Nat} :
    ∀ {m i : Nat} {v v' : U64} {c c' : Cpu}, k + i + m ≤ 8 →
      (∀ j < m, region (pa + BitVec.ofNat 64 (i + j)) = .ram) →
      (∀ l, k + i ≤ l → Bytes.byteAt v l = 0) →
      loadBytes pa va' k m i v c = some (.ok v', c') →
      c'.bus = c.bus ∧ (∀ l < k + i, Bytes.byteAt v' l = Bytes.byteAt v l) ∧
        (∀ j < m, ∃ o < c.bus.ram.len.toNat,
          c.bus.ramBase + BitVec.ofNat 64 o = pa + BitVec.ofNat 64 (i + j) ∧
            Bytes.byteAt v' (k + i + j) = c.bus.ram.byte o) ∧
        ∀ l, k + i + m ≤ l → Bytes.byteAt v' l = 0
  | 0, i, v, v', c, c', _, _, hv, h => by
      cases h
      exact ⟨rfl, fun _ _ => rfl, fun j hj => absurd hj (Nat.not_lt_zero j), hv⟩
  | m + 1, i, v, v', c, c', hfit, hram, hv, h => by
      have hfirst := hram 0 (Nat.succ_pos m)
      rw [Nat.add_zero] at hfirst
      obtain ⟨b, c₁, hl, hrest⟩ := Run.bind_eq_ok h
      obtain ⟨hbus, hbyte, _⟩ := busLoad_bytes hfirst hl
      have hput : ∀ l, Bytes.byteAt (v ||| ((b &&& 0xff) <<< ((k + i) * 8))) l =
          Bytes.byteAt v l ||| if l = k + i then Bytes.byteAt b 0 else 0 := by
        intro l
        rw [Bytes.byteAt_or, Bytes.byteAt_shiftLeft_byte b (by omega)]
      have hv' : ∀ l, k + (i + 1) ≤ l →
          Bytes.byteAt (v ||| ((b &&& 0xff) <<< ((k + i) * 8))) l = 0 := by
        intro l hl
        rw [hput, hv l (by omega), if_neg (by omega)]
        rfl
      obtain ⟨hbus', hlow, hmid, hhigh⟩ := loadBytes_bytes (by omega)
        (fun j hj => by
          have hnext := hram (j + 1) (by omega)
          rwa [show i + (j + 1) = i + 1 + j by omega] at hnext) hv' hrest
      rw [hbus] at hbus' hmid
      refine ⟨hbus', fun l hl => ?_, fun j hj => ?_, fun l hl => hhigh l (by omega)⟩
      · rw [hlow l (by omega), hput, if_neg (by omega)]
        exact BitVec.or_zero
      · cases j with
        | zero =>
            obtain ⟨o, ho, haddr, hval⟩ := hbyte 0 (by decide)
            refine ⟨o, ho, ?_, ?_⟩
            · rw [haddr, show BitVec.ofNat 64 0 = 0#64 from rfl, BitVec.add_zero, Nat.add_zero]
            · rw [Nat.add_zero, hlow _ (by omega), hput, if_pos rfl, hv _ (Nat.le_refl _), hval]
              exact BitVec.zero_or
        | succ j =>
            obtain ⟨o, ho, haddr, hval⟩ := hmid j (by omega)
            rw [show i + 1 + j = i + (j + 1) by omega] at haddr
            rw [show k + (i + 1) + j = k + i + (j + 1) by omega] at hval
            exact ⟨o, ho, haddr, hval⟩

/-- A load in U-mode that succeeds reads the bytes it sees. -/
theorem mmuLoad_readFrom {w : Width} {v : U64} (hn : levels c.csr.satp = some n)
    (hdev : c.NoDevice) (h : mmuLoad .u va w c = some (.ok v, c')) :
    ReadFrom c va w.bytes v c'.bus := by
  have hw := w.bytes_le
  have hlt := pageOff_lt va
  rw [mmuLoad] at h
  split at h
  · rename_i hfit
    obtain ⟨pa, c₁, ht, hl⟩ := Run.bind_eq_ok h
    have hsees : ∀ i < w.bytes, Sees c .load va i (pa + BitVec.ofNat 64 i) :=
      fun i hi => sees_first hn ht (by omega)
    have hram := hdev _ _ _ _ (hsees 0 w.bytes_pos)
    rw [show BitVec.ofNat 64 0 = 0#64 from rfl, BitVec.add_zero] at hram
    obtain ⟨hbus, hbyte, hrest⟩ := busLoad_bytes hram hl
    rw [hbus]
    refine ⟨fun i hi => ?_, hrest⟩
    obtain ⟨o, ho, haddr, hval⟩ := hbyte i hi
    exact ⟨o, ho, by rw [haddr]; exact hsees i hi, hval⟩
  · rename_i hfit
    obtain ⟨pa1, c₁, ht1, h⟩ := Run.bind_eq_ok h
    obtain ⟨pa2, c₂, ht2, h⟩ := Run.bind_eq_ok h
    obtain ⟨v₁, c₃, hb1, hb2⟩ := Run.bind_eq_ok h
    have hsees1 : ∀ j < 0x1000 - pageOff va, Sees c .load va j (pa1 + BitVec.ofNat 64 j) :=
      fun j hj => sees_first hn ht1 (by omega)
    have hsees2 : ∀ j < w.bytes - (0x1000 - pageOff va),
        Sees c .load va (0x1000 - pageOff va + j) (pa2 + BitVec.ofNat 64 j) :=
      fun j hj => sees_next hn ht1 ht2 (by omega)
    obtain ⟨hbus1, _, hmid1, hhigh1⟩ := loadBytes_bytes (by omega)
      (fun j hj => by rw [Nat.zero_add]; exact hdev _ _ _ _ (hsees1 j hj))
      (fun l _ => by
        apply BitVec.eq_of_getLsbD_eq
        intro j hj
        simp [Bytes.byteAt_getElem _ _ hj]) hb1
    obtain ⟨hbus2, hlow2, hmid2, hhigh2⟩ := loadBytes_bytes (by omega)
      (fun j hj => by rw [Nat.zero_add]; exact hdev _ _ _ _ (hsees2 j hj))
      (fun l hl => hhigh1 l (by omega)) hb2
    rw [hbus2, hbus1]
    rw [hbus1] at hmid2
    refine ⟨fun i hi => ?_, fun i hi => hhigh2 i (by omega)⟩
    by_cases hfirst : i < 0x1000 - pageOff va
    · obtain ⟨o, ho, haddr, hval⟩ := hmid1 i hfirst
      rw [Nat.zero_add] at haddr
      rw [show 0 + 0 + i = i by omega] at hval
      refine ⟨o, ho, by rw [haddr]; exact hsees1 i hfirst, ?_⟩
      rw [hlow2 i (by omega), hval]
    · obtain ⟨j, rfl⟩ := Nat.exists_eq_add_of_le (Nat.le_of_not_lt hfirst)
      obtain ⟨o, ho, haddr, hval⟩ := hmid2 j (by omega)
      rw [Nat.zero_add] at haddr
      rw [Nat.add_zero] at hval
      exact ⟨o, ho, by rw [haddr]; exact hsees2 j (by omega), hval⟩

end

/-! ## The law -/

/-- The access of an instruction that writes memory. -/
def stored (c : Cpu) : Instruction → Option (U64 × Width)
  | .store op rs1 _ imm => some (c.reg rs1 + imm, op.width)
  | .fsw rs1 _ imm => some (c.reg rs1 + imm, .b4)
  | .fsd rs1 _ imm => some (c.reg rs1 + imm, .b8)
  | .sc width _ rs1 _ | .amo _ width _ rs1 _ => some (c.reg rs1, width.width)
  | _ => none

/-- The access of an instruction that reads memory into a register, and where the value goes. -/
def loaded (c : Cpu) : Instruction → Option (U64 × Width × (U64 → Cpu → Cpu))
  | .load op rd rs1 imm =>
      some (c.reg rs1 + imm, op.width, fun v c' => c'.setReg rd (op.extend v))
  | .flw fd rs1 imm => some (c.reg rs1 + imm, .b4, fun v c' => c'.setFreg fd (flwValue v))
  | .fld fd rs1 imm => some (c.reg rs1 + imm, .b8, fun v c' => c'.setFreg fd v)
  | .lr width rd rs1 | .amo _ width rd rs1 _ =>
      some (c.reg rs1, width.width, fun v c' => c'.setReg rd (width.extend v))
  | _ => none

/-- The value that an instruction stores. -/
def StoresValue (c : Cpu) (val : U64) : Instruction → Prop
  | .store _ _ rs2 _ | .sc _ _ _ rs2 => val = c.reg rs2
  | .fsw _ fs2 _ | .fsd _ fs2 _ => val = c.fregs fs2
  | .amo op width _ rs1 rs2 => ∃ v b, SameData c.bus b ∧
      ReadFrom c (c.reg rs1) width.width.bytes v b ∧
        val = op.eval width (width.extend v) (c.reg rs2)
  | _ => False

/-- The instruction is a store-conditional without a reservation for its place that reported that
it stored nothing. -/
def GivenUp (c : Cpu) (regs : Reg → U64) : Instruction → Prop
  | .sc _ rd rs1 _ => (∃ pa c₁, translateOrTrap .u (c.reg rs1) .store c = some (.ok pa, c₁) ∧
      c.reservation ≠ some pa) ∧ regs = (c.setReg rd 1).regs
  | _ => False

/-- What an instruction in U-mode may do to memory and learn from it. -/
structure Isolated (c : Cpu) (inst : Instruction) (r : Retired) : Prop where
  /-- A byte of RAM that changed, other than in an accessed or dirty bit of a leaf entry, is a byte
  the store sees. -/
  write : ∀ o, r.cpu.bus.ram.byte o = c.bus.ram.byte o ∨
    (LeafAt c.bus o ∧ r.cpu.bus.ram.byte o ||| 0xC0 = c.bus.ram.byte o ||| 0xC0) ∨
    ∃ va w, c.stored inst = some (va, w) ∧
      ∃ i < w.bytes, Sees c .store va i (c.bus.ramBase + BitVec.ofNat 64 o)
  /-- Without a trap, a value that was read is the word of the bytes the load sees. -/
  read : r.trap = none → ∀ va w dest, c.loaded inst = some (va, w, dest) →
    ∃ v b, SameData c.bus b ∧ ReadFrom c va w.bytes v b ∧
      r.cpu.regs = (dest v c).regs ∧ r.cpu.fregs = (dest v c).fregs
  /-- Without a trap, every byte of a value that was stored is where the store sees it. -/
  put : r.trap = none → ∀ va w, c.stored inst = some (va, w) →
    (∃ val, c.StoresValue val inst ∧ c.Put va w val r.cpu.bus) ∨
      (c.GivenUp r.cpu.regs inst ∧ SameData c.bus r.cpu.bus)

/-- The bytes of an access that reach into the next page are in the frame behind: the next page is
mapped there. -/
def Follows (c₁ : Cpu) (access : AccessType) (va pa : U64) (w : Width) : Prop :=
  Crosses va w → ∃ c₂, translateOrTrap .u (nextPage va) access c₁ =
    some (.ok (pa + BitVec.ofNat 64 (0x1000 - pageOff va)), c₂)

/-- The access lies in RAM. -/
def Backed (c : Cpu) (pa : U64) (w : Width) : Prop := ∃ off, c.bus.offset pa w = .ok off

/-- An atomic whose first byte is translated, and that goes on to memory, finds all its bytes there:
the bus takes it, and its bytes in the next page are in the frame behind.  The cache entry for a
read-modify-write can be read if it can be written, as every entry can that a walk fills. -/
def AtomicPlaced (c : Cpu) : Instruction → Prop
  | .lr width _ rs1 => ∀ pa c₁, translateOrTrap .u (c.reg rs1) .load c = some (.ok pa, c₁) →
      c.Backed pa width.width → c₁.Follows .load (c.reg rs1) pa width.width
  | .sc width _ rs1 _ => ∀ pa c₁, translateOrTrap .u (c.reg rs1) .store c = some (.ok pa, c₁) →
      c.reservation = some pa →
        c.Backed pa width.width ∧ c₁.Follows .store (c.reg rs1) pa width.width
  | .amo _ width _ rs1 _ => ∀ pa c₁,
      translateOrTrap .u (c.reg rs1) .store c = some (.ok pa, c₁) →
        c.Backed pa width.width ∧ c₁.Follows .store (c.reg rs1) pa width.width ∧
        (c.mmu.slotHits c.csr.satp (c.reg rs1) = true →
          (c.mmu.tlb (tlbIndex (c.reg rs1 >>> 12))).perm &&& pteW ≠ 0 →
            (c.mmu.tlb (tlbIndex (c.reg rs1 >>> 12))).perm &&& pteR ≠ 0) ∧
        ∀ c₂, translateOrTrap .u (c.reg rs1) .load c = some (.ok pa, c₂) →
          c₂.Follows .load (c.reg rs1) pa width.width
  | _ => True

section

variable {fpu : Fpu} {c : Cpu} {inst : Instruction} {r : Retired} {n : Nat}

theorem lsMode_of_user (hu : c.mode = .u) (hmprv : (c.csr.mstatus >>> 17) &&& 1 = 0) :
    c.lsMode = .u := by
  rw [lsMode, hmprv, hu]
  rfl

/-- The writes of an instruction, from what its translations and its stores did. -/
theorem write_of_wroteOnly {va : U64} {w : Width} (hstored : c.stored inst = some (va, w))
    (h : ∃ b, SameData c.bus b ∧
      WroteOnly (fun pa => ∃ i < w.bytes, Sees c .store va i pa) b r.cpu.bus) (o : Nat) :
    r.cpu.bus.ram.byte o = c.bus.ram.byte o ∨
      (LeafAt c.bus o ∧ r.cpu.bus.ram.byte o ||| 0xC0 = c.bus.ram.byte o ||| 0xC0) ∨
      ∃ va w, c.stored inst = some (va, w) ∧
        ∃ i < w.bytes, Sees c .store va i (c.bus.ramBase + BitVec.ofNat 64 o) := by
  obtain ⟨b, hdata, hwrote⟩ := h
  rcases hwrote.byte o with heq | hsees
  · rw [heq]
    exact (hdata.byte o).imp id Or.inl
  · rw [hdata.base] at hsees
    exact Or.inr (Or.inr ⟨va, w, hstored, hsees⟩)

/-- An instruction that keeps the data of RAM and reads nothing is isolated. -/
theorem Isolated.ofSameData (hdata : SameData c.bus r.cpu.bus)
    (hread : r.trap = none → c.loaded inst = none)
    (hput : r.trap = none → c.stored inst = none ∨ c.GivenUp r.cpu.regs inst) :
    Isolated c inst r := by
  refine ⟨fun o => (hdata.byte o).imp id Or.inl, fun ht va w dest hl => ?_, fun ht va w hs => ?_⟩
  · rw [hread ht] at hl
    cases hl
  · rcases hput ht with hnone | href
    · rw [hnone] at hs
      cases hs
    · exact Or.inr ⟨href, hdata⟩

theorem setReg_regs_congr {c c' : Cpu} (h : c'.regs = c.regs) (rd : Reg) (v : U64) :
    (c'.setReg rd v).regs = (c.setReg rd v).regs := by
  rw [setReg, setReg]
  split
  · rw [h]
  · exact h

@[simp] theorem setReg_fregs (c : Cpu) (rd : Reg) (v : U64) :
    (c.setReg rd v).fregs = c.fregs := by
  rw [setReg]
  split <;> rfl

/-! ## The arms -/

/-- A load of any kind, whose destination takes registers from the hart before. -/
theorem execLoad_isolated {rs1 : Reg} {imm : U64} {w : Width} {dest dest' : U64 → Cpu → Cpu}
    (hn : levels c.csr.satp = some n) (hls : c.lsMode = .u) (hdev : c.NoDevice)
    (hf : c.FaithfulAccess .u .load (c.reg rs1 + imm) w)
    (hloaded : c.loaded inst = some (c.reg rs1 + imm, w, dest')) (hstored : c.stored inst = none)
    (hbus : ∀ v c', (dest v c').bus = c'.bus)
    (hdest : ∀ v c', OnlyMemory c c' → (dest v c').regs = (dest' v c).regs ∧
      (dest v c').fregs = (dest' v c).fregs)
    (h : c.execLoad rs1 imm w dest = some r) : Isolated c inst r := by
  rw [execLoad, hls] at h
  rcases orRaise_eq_some h with ⟨t, c', hm, rfl⟩ | ⟨v, c', hm, hk⟩
  · refine .ofSameData ?_ nofun nofun
    rw [raise_bus]
    exact mmuLoad_sameData hf hm
  · have hdata := mmuLoad_sameData hf hm
    have hkeep := mmuLoad_keepsHart _ _ _ _ _ _ hm
    cases hk
    refine ⟨fun o => ?_, fun _ va w' dest'' hl => ?_, fun _ va w' hs => ?_⟩
    · simp only [retire, hbus]
      exact (hdata.byte o).imp id Or.inl
    · rw [hloaded] at hl
      cases hl
      exact ⟨v, c'.bus, hdata, mmuLoad_readFrom hn hdev hm, hdest v c' hkeep⟩
    · rw [hstored] at hs
      cases hs

theorem execStore_isolated {rs1 : Reg} {imm val : U64} {w : Width}
    (hn : levels c.csr.satp = some n) (hls : c.lsMode = .u) (hdev : c.NoDevice)
    (hf : c.FaithfulAccess .u .store (c.reg rs1 + imm) w)
    (hstored : c.stored inst = some (c.reg rs1 + imm, w)) (hloaded : c.loaded inst = none)
    (hval : c.StoresValue val inst) (h : c.execStore rs1 imm w val = some r) :
    Isolated c inst r := by
  rw [execStore, hls] at h
  have hread : ∀ va w dest, c.loaded inst = some (va, w, dest) →
      ∃ v b, SameData c.bus b ∧ ReadFrom c va w.bytes v b ∧
        r.cpu.regs = (dest v c).regs ∧ r.cpu.fregs = (dest v c).fregs := by
    intro va w dest hl
    rw [hloaded] at hl
    cases hl
  rcases orRaise_eq_some h with ⟨t, c', hm, rfl⟩ | ⟨_, c', hm, hk⟩
  · refine ⟨write_of_wroteOnly hstored ?_, fun _ => hread, nofun⟩
    rw [raise_bus]
    exact mmuStore_wroteOnly hn hdev hf hm
  · have hwrote := mmuStore_wroteOnly hn hdev hf hm
    have hput := mmuStore_put hn hdev hm
    cases hk
    refine ⟨write_of_wroteOnly hstored hwrote, fun _ => hread, fun _ va w' hs => ?_⟩
    rw [hstored] at hs
    cases hs
    exact Or.inl ⟨val, hval, hput⟩

/-- The bytes of an atomic whose next page is mapped to the frame behind. -/
theorem sees_atomic {va pa : U64} {access : AccessType} {c₁ : Cpu} {w : Width}
    (hn : levels c.csr.satp = some n) (h : translateOrTrap .u va access c = some (.ok pa, c₁))
    (hfollows : c₁.Follows access va pa w) :
    ∀ i < w.bytes, Sees c access va i (pa + BitVec.ofNat 64 i) := by
  intro i hi
  by_cases hin : pageOff va + i < 0x1000
  · exact sees_first hn h hin
  · have hw := w.bytes_le
    have hlt := pageOff_lt va
    obtain ⟨c₂, h₂⟩ := hfollows fun hfit => by omega
    have hsees := sees_next hn h h₂ (j := i - (0x1000 - pageOff va)) (by omega)
    rwa [BitVec.add_assoc, ← BitVec.ofNat_add,
      show 0x1000 - pageOff va + (i - (0x1000 - pageOff va)) = i by omega] at hsees

/-- The frame of an access is no device. -/
theorem region_of_translated {va pa : U64} {access : AccessType} {c₁ : Cpu}
    (hn : levels c.csr.satp = some n) (hdev : c.NoDevice)
    (h : translateOrTrap .u va access c = some (.ok pa, c₁)) : region pa = .ram := by
  have hlt := pageOff_lt va
  have hram := hdev _ _ _ _ (sees_first hn h (i := 0) (by omega))
  rwa [show BitVec.ofNat 64 0 = 0#64 from rfl, BitVec.add_zero] at hram

/-- The value a load from RAM reads, for an access whose bytes are seen. -/
theorem readFrom_of_busLoad {va pa v : U64} {c₁ c₂ : Cpu} {w : Width} {trap : Trap}
    (hr : region pa = .ram) (hsees : ∀ i < w.bytes, Sees c .load va i (pa + BitVec.ofNat 64 i))
    (h : busLoad pa w trap c₁ = some (.ok v, c₂)) :
    ReadFrom c va w.bytes v c₁.bus := by
  obtain ⟨_, hbyte, hrest⟩ := busLoad_bytes hr h
  refine ⟨fun i hi => ?_, hrest⟩
  obtain ⟨o, ho, haddr, hval⟩ := hbyte i hi
  exact ⟨o, ho, by rw [haddr]; exact hsees i hi, hval⟩

/-- A load from RAM that succeeds lies in RAM. -/
theorem backed_of_busLoad {pa v : U64} {c₁ c₂ : Cpu} {w : Width} {trap : Trap}
    (hr : region pa = .ram) (hdata : SameData c.bus c₁.bus)
    (h : busLoad pa w trap c₁ = some (.ok v, c₂)) : c.Backed pa w := by
  obtain ⟨r₀, b, hl, hr₀, rfl⟩ := busLoad_eq_some h
  cases ho : c₁.bus.offset pa w with
  | ok off => exact ⟨off, (hdata.offset pa w).symm.trans ho⟩
  | error e =>
      rw [Bus.load_ram_error hr ho] at hl
      cases hl
      cases hr₀

/-- The bus takes a store to an access that lies in RAM. -/
theorem busStore_backed {pa val : U64} {c₁ c₂ : Cpu} {w : Width} {trap : Trap}
    {rs : Except Trap Unit} (hr : region pa = .ram) (hback : c₁.Backed pa w)
    (h : busStore pa w val trap c₁ = some (rs, c₂)) : rs = .ok () := by
  obtain ⟨off, ho⟩ := hback
  obtain ⟨r₀, b, hs, hr₀, _⟩ := busStore_eq_some h
  rw [Bus.store_ram val hr ho] at hs
  cases hs
  exact hr₀

theorem execLr_isolated {width : AmoWidth} {rd rs1 : Reg} (hn : levels c.csr.satp = some n)
    (hls : c.lsMode = .u) (hdev : c.NoDevice) (hf : c.FaithfulAt .u .load (c.reg rs1))
    (hplaced : c.AtomicPlaced (.lr width rd rs1)) (h : c.execLr width rd rs1 = some r) :
    Isolated c (.lr width rd rs1) r := by
  rw [execLr, hls] at h
  rcases orRaise_eq_some h with ⟨t, c', ht, rfl⟩ | ⟨pa, c₁, ht, hk⟩
  · refine .ofSameData ?_ nofun nofun
    rw [raise_bus]
    exact translateOrTrap_sameData hf ht
  · have hdata := translateOrTrap_sameData hf ht
    have hkeep := translateOrTrap_keepsHart _ _ _ _ _ _ ht
    have hram := region_of_translated hn hdev ht
    rcases orRaise_eq_some hk with ⟨t, c', hl, rfl⟩ | ⟨v, c', hl, hr⟩
    · refine .ofSameData ?_ nofun nofun
      rw [raise_bus]
      exact hdata.trans (busLoad_sameData hl)
    · have hfollows := hplaced pa c₁ ht (backed_of_busLoad hram hdata hl)
      have hsees := sees_atomic hn ht hfollows
      have hdata' := hdata.trans (busLoad_sameData hl)
      have hkeep' := hkeep.trans (busLoad_keepsHart _ _ _ _ _ _ hl)
      cases hr
      refine ⟨fun o => ?_, fun _ va w dest hlo => ?_, fun _ va w hs => by cases hs⟩
      · simp only [retire, setReg_bus]
        exact (hdata'.byte o).imp id Or.inl
      · cases hlo
        refine ⟨v, c₁.bus, hdata, readFrom_of_busLoad hram hsees hl, ?_, ?_⟩
        · exact setReg_regs_congr hkeep'.regs rd _
        · simp only [retire, setReg_fregs]
          exact hkeep'.fregs

theorem execSc_isolated {width : AmoWidth} {rd rs1 rs2 : Reg} (hn : levels c.csr.satp = some n)
    (hls : c.lsMode = .u) (hdev : c.NoDevice) (hf : c.FaithfulAt .u .store (c.reg rs1))
    (hplaced : c.AtomicPlaced (.sc width rd rs1 rs2)) (h : c.execSc width rd rs1 rs2 = some r) :
    Isolated c (.sc width rd rs1 rs2) r := by
  rw [execSc, hls] at h
  rcases orRaise_eq_some h with ⟨t, c', ht, rfl⟩ | ⟨pa, c₁, ht, hk⟩
  · refine .ofSameData ?_ nofun nofun
    rw [raise_bus]
    exact translateOrTrap_sameData hf ht
  · have hdata := translateOrTrap_sameData hf ht
    have hkeep := translateOrTrap_keepsHart _ _ _ _ _ _ ht
    have hram := region_of_translated hn hdev ht
    dsimp only at hk
    split at hk
    · rename_i hres
      obtain ⟨⟨off, ho⟩, hfollows⟩ := hplaced pa c₁ ht (hkeep.reservation.symm.trans hres)
      have hsees := sees_atomic hn ht hfollows
      cases hs : busStore pa width.width (c₁.reg rs2) ⟨7, c.reg rs1⟩ c₁ with
      | none => rw [hs] at hk; cases hk
      | some p =>
          obtain ⟨rs, c'⟩ := p
          rw [hs] at hk
          cases hk
          cases busStore_backed hram ⟨off, (hdata.offset pa _).trans ho⟩ hs
          have hput := put_of_busStore hram hsees hs
          refine ⟨write_of_wroteOnly rfl ⟨c₁.bus, hdata, ?_⟩, fun _ _ _ _ hlo => (by cases hlo),
            fun _ va w hst => ?_⟩
          · simp only [retire, setReg_bus]
            exact busStore_wroteOnly hram (fun i hi => ⟨i, hi, hsees i hi⟩) hs
          · cases hst
            refine Or.inl ⟨c₁.reg rs2, ?_, ?_⟩
            · simp only [StoresValue, reg, hkeep.regs]
            · simp only [retire, setReg_bus]
              exact hput
    · rename_i hres
      cases hk
      refine .ofSameData ?_ (fun _ => rfl) fun _ => Or.inr ⟨⟨pa, c₁, ht, ?_⟩, ?_⟩
      · simp only [retire, setReg_bus]
        exact hdata
      · rwa [← hkeep.reservation]
      · exact setReg_regs_congr hkeep.regs rd 1

theorem execAmo_isolated {op : AmoOp} {width : AmoWidth} {rd rs1 rs2 : Reg}
    (hn : levels c.csr.satp = some n) (hls : c.lsMode = .u) (hdev : c.NoDevice)
    (hf : c.FaithfulAt .u .store (c.reg rs1)) (hplaced : c.AtomicPlaced (.amo op width rd rs1 rs2))
    (h : c.execAmo op width rd rs1 rs2 = some r) :
    Isolated c (.amo op width rd rs1 rs2) r := by
  rw [execAmo, hls] at h
  rcases orRaise_eq_some h with ⟨t, c', ht, rfl⟩ | ⟨pa, c₁, ht, hk⟩
  · refine .ofSameData ?_ nofun nofun
    rw [raise_bus]
    exact translateOrTrap_sameData hf ht
  · have hdata := translateOrTrap_sameData hf ht
    have hkeep := translateOrTrap_keepsHart _ _ _ _ _ _ ht
    have hram := region_of_translated hn hdev ht
    obtain ⟨⟨off, ho⟩, hfollows, hreadable, hloads⟩ := hplaced pa c₁ ht
    have ho₁ := (hdata.offset pa width.width).trans ho
    have hsees := sees_atomic hn ht hfollows
    -- the page can be loaded as well, and the one behind it
    obtain ⟨s, hs⟩ :=
      ((mapsUser_of_translateOrTrap hn ht).2.load_of_store hn hf hreadable).translates
    have htl := translateOrTrap_of hs
    have hsees' := sees_atomic hn htl (hloads _ htl)
    dsimp only at hk
    cases hl : busLoad pa width.width ⟨5, c.reg rs1⟩ c₁ with
    | none => rw [hl] at hk; cases hk
    | some p =>
        obtain ⟨r₀, c₂⟩ := p
        rw [hl] at hk
        dsimp only at hk
        cases r₀ with
        | error t =>
            obtain ⟨r₁, b, hb, hr₁, _⟩ := busLoad_eq_some hl
            rw [Bus.load_ram hram ho₁] at hb
            cases hb
            cases hr₁
        | ok v =>
            have hkeep' := hkeep.trans (busLoad_keepsHart _ _ _ _ _ _ hl)
            have hbus := (busLoad_bytes hram hl).1
            have hread := readFrom_of_busLoad hram hsees' hl
            split at hk
            · cases hk
            · rename_i rs c₃ hst
              have hkeep₃ := hkeep'.trans (busStore_keepsHart _ _ _ _ _ _ _ hst)
              cases hk
              cases busStore_backed hram ⟨off, by rw [hbus]; exact ho₁⟩ hst
              refine ⟨write_of_wroteOnly rfl ⟨c₁.bus, hdata, ?_⟩, fun _ va w dest hlo => ?_,
                fun _ va w hsto => ?_⟩
              · simp only [retire, setReg_bus]
                rw [← hbus]
                exact busStore_wroteOnly hram (fun i hi => ⟨i, hi, hsees i hi⟩) hst
              · cases hlo
                refine ⟨v, c₁.bus, hdata, hread, ?_, ?_⟩
                · exact setReg_regs_congr hkeep₃.regs rd _
                · simp only [retire, setReg_fregs]
                  exact hkeep₃.fregs
              · cases hsto
                refine Or.inl ⟨op.eval width (width.extend v) (c₂.reg rs2), ?_, ?_⟩
                · refine ⟨v, c₁.bus, hdata, hread, ?_⟩
                  simp only [reg, hkeep'.regs]
                · simp only [retire, setReg_bus]
                  exact put_of_busStore hram hsees hst

/-- An instruction without a memory access leaves the bus alone. -/
theorem execute_bus (hstored : c.stored inst = none) (hloaded : c.loaded inst = none)
    (h : execute fpu inst c = some r) : r.cpu.bus = c.bus := by
  have hwrite : ∀ {rd val}, c.execWrite rd val = some r → r.cpu.bus = c.bus := by
    intro rd val h
    cases h
    exact setReg_bus ..
  have hjump : ∀ {target} {link : Cpu → Cpu}, (link c).bus = c.bus →
      c.execJump target link = some r → r.cpu.bus = c.bus := by
    intro target link hlink h
    rw [execJump] at h
    split at h
    · cases h
      exact raise_bus _
    · cases h
      exact hlink
  have hfp : ∀ {rd res}, c.execFp rd res = some r → r.cpu.bus = c.bus := by
    intro rd res h
    cases res with
    | freg => cases h; rfl
    | ireg => cases h; exact setReg_bus ..
    | illegalReturn => cases h; exact raise_bus _
    | illegalFallthrough => cases h; exact raise_bus _
  cases inst with
  | op | opImm | shift | lui | auipc => exact hwrite h
  | branch op rs1 rs2 imm =>
      rw [execute, execBranch] at h
      split at h
      · exact hjump rfl h
      · cases h
        rfl
  | jal | jalr => exact hjump (setReg_bus ..) h
  | fence | wfi | mret => cases h; rfl
  | ecall | ebreak => cases h; exact raise_bus _
  | sret =>
      rw [execute, execSret] at h
      split at h
      · cases h; exact raise_bus _
      · cases h; rfl
  | sfenceVma =>
      rw [execute, execSfenceVma] at h
      split at h
      · cases h; exact raise_bus _
      · cases h; rfl
  | csr op rd src csr =>
      rw [execute, execCsr] at h
      split at h
      · cases h; exact raise_bus _
      · cases h
        refine (setJit_bus ..).trans ((setReg_bus ..).trans ?_)
        split <;> rfl
  | opFp | fma => exact hfp h
  | load | flw | fld | lr | amo => cases hloaded
  | store | fsw | fsd | sc => cases hstored

/-- In U-mode without devices every instruction whose hits are faithful is isolated, unless it is
an atomic that goes on to memory where its bytes are not all. -/
theorem isolated (hu : c.mode = .u) (hsatp : c.csr.satp >>> 60 = 8)
    (hmprv : (c.csr.mstatus >>> 17) &&& 1 = 0) (hdev : c.NoDevice) (hf : c.FaithfulHits inst)
    (hplaced : c.AtomicPlaced inst) (h : execute fpu inst c = some r) : Isolated c inst r := by
  have hn := levels_of_sv39 hsatp
  have hls := lsMode_of_user hu hmprv
  rw [FaithfulHits, hls] at hf
  cases inst with
  | load op rd rs1 imm =>
      exact execLoad_isolated hn hls hdev (hf _ _ _ rfl) rfl rfl (fun _ _ => setReg_bus ..)
        (fun v c' hk => ⟨setReg_regs_congr hk.regs _ _, by simpa using hk.fregs⟩) h
  | flw fd rs1 imm | fld fd rs1 imm =>
      rw [execute] at h
      refine execLoad_isolated hn hls hdev (hf _ _ _ rfl) rfl rfl ?_ ?_ h
      · exact fun _ _ => rfl
      · exact fun v c' hk => ⟨hk.regs, congrArg (fun f => Function.update f fd _) hk.fregs⟩
  | store | fsw | fsd => exact execStore_isolated hn hls hdev (hf _ _ _ rfl) rfl rfl rfl h
  | lr width rd rs1 => exact execLr_isolated hn hls hdev (hf _ _ _ rfl).first hplaced h
  | sc width rd rs1 rs2 => exact execSc_isolated hn hls hdev (hf _ _ _ rfl).first hplaced h
  | amo op width rd rs1 rs2 => exact execAmo_isolated hn hls hdev (hf _ _ _ rfl).first hplaced h
  | _ =>
      refine .ofSameData ?_ (fun _ => rfl) fun _ => Or.inl rfl
      rw [execute_bus rfl rfl h]
      exact .refl _

end

/-! ## A hart over uniform tables -/

/-- A hart in U-mode over tables that map every page to the frame at `0x80003000`. -/
def uniformHart (va : U64) : Cpu :=
  { Cpu.new Spaces.uniformBus 0 with
    mode := .u
    csr := { Csr.new with satp := 0x8000_0000_0008_0000 }
    regs := Function.update (fun _ => 0) 1 va }

/-- Every translation over those tables ends in that frame. -/
theorem uniform_translate {s s' : Mmu × Bus} (hinv : Spaces.uniformSpaces.Inv s)
    {access : AccessType} {va pa : U64}
    (h : Mmu.translate 0x8000_0000_0008_0000 .u 0 va access s = some (.ok pa, s')) :
    pa.toNat = 0x8000_3000 + va.toNat % 4096 ∧ Spaces.uniformSpaces.Inv s' := by
  have hallow : Spaces.uniformSpaces.Allows
      (.translate 0x8000_0000_0008_0000 .u 0 va access) := ⟨by decide, trivial, rfl⟩
  obtain ⟨s₁, ht, hinv'⟩ := Spaces.translate_reference hinv hallow
  rw [ht] at h
  simp only [Option.some.injEq, Prod.mk.injEq] at h
  obtain ⟨href, rfl⟩ := h
  refine ⟨?_, hinv'⟩
  rw [reference, if_neg (by decide)] at href
  split at href
  · rw [show Spaces.uniformSpaces.root (asidOf 0x8000_0000_0008_0000) = 0x80000 from rfl,
      Spaces.mapping_uniform, verdict] at href
    split at href
    · cases href
    · cases href
      rw [leafAddress_toNat (by decide)]
      rfl
  · cases href

/-- What an access sees over those tables lies in that frame. -/
theorem uniform_sees {va va' pa : U64} {access : AccessType} {i : Nat}
    (h : Sees (uniformHart va) access va' i pa) :
    0x8000_3000 ≤ pa.toNat ∧ pa.toNat < 0x8000_4000 := by
  have hinv : Spaces.uniformSpaces.Inv (Mmu.new, Spaces.uniformBus) :=
    Spaces.inv_cold (S := Spaces.uniformSpaces) (s := (Mmu.new, Spaces.uniformBus))
      (SameTables.refl _)
  cases h with
  | first _ hm =>
      obtain ⟨s', ht⟩ := hm.translates
      have := (uniform_translate hinv ht).1
      omega
  | next _ ht hm =>
      obtain ⟨s', ht'⟩ := hm.translates
      have := (uniform_translate (uniform_translate hinv ht).2 ht').1
      omega

theorem uniform_noDevice (va : U64) : (uniformHart va).NoDevice := by
  intro access va' i pa h
  obtain ⟨hlo, hhi⟩ := uniform_sees h
  simp only [region, BitVec.le_def, BitVec.toNat_ofNat]
  rw [if_neg (by omega), if_neg (by omega), if_neg (by omega), if_neg (by omega)]

/-- An atomic addition inside the page. -/
theorem uniformHart_isolated :
    ∃ r, execute default (.amo .amoadd .d 2 1 3) (uniformHart 0x1000) = some r ∧
      Isolated (uniformHart 0x1000) (.amo .amoadd .d 2 1 3) r := by
  obtain ⟨r, hr⟩ := Option.isSome_iff_exists.mp
    (by decide : (execute default (.amo .amoadd .d 2 1 3) (uniformHart 0x1000)).isSome = true)
  have hwithin : ¬ Crosses 0x1000 .b8 := not_not.mpr (by decide)
  refine ⟨r, hr, isolated rfl (by decide) (by decide) (uniform_noDevice _) ?_ ?_ hr⟩
  · rintro access va width heq
    cases heq
    refine ⟨fun hrebuilds => ?_, fun hcross => (hcross (by decide)).elim⟩
    cases hrebuilds.1.2.1
  · intro pa c₁ ht
    refine ⟨?_, fun hcross => (hwithin hcross).elim, fun hh => (by cases hh),
      fun _ _ hcross => (hwithin hcross).elim⟩
    obtain ⟨r₀, s, ht', hr₀, _⟩ := translateOrTrap_eq_some ht
    have hpa : (Mmu.translate 0x8000_0000_0008_0000 .u 0 0x1000 .store
        (Mmu.new, Spaces.uniformBus)).map Prod.fst = some (.ok 0x8000_3000) := by decide
    rw [show Mmu.translate 0x8000_0000_0008_0000 .u 0 0x1000 .store
      (Mmu.new, Spaces.uniformBus) = _ from ht'] at hpa
    cases hpa
    cases hr₀
    exact ⟨0x3000, by decide⟩

/-- An atomic swap that crosses the page boundary writes the frame behind. -/
theorem uniformHart_leak :
    (uniformHart 0x1FFE).mode = .u ∧ (uniformHart 0x1FFE).csr.satp >>> 60 = 8 ∧
      ((uniformHart 0x1FFE).csr.mstatus >>> 17) &&& 1 = 0 ∧ (uniformHart 0x1FFE).NoDevice ∧
      ¬ ∀ r, execute default (.amo .amoswap .w 0 1 3) (uniformHart 0x1FFE) = some r →
        Isolated (uniformHart 0x1FFE) (.amo .amoswap .w 0 1 3) r := by
  refine ⟨rfl, by decide, by decide, uniform_noDevice _, fun hall => ?_⟩
  have hrun : (execute default (.amo .amoswap .w 0 1 3) (uniformHart 0x1FFE)).map
      (fun r => r.cpu.bus.ram.byte 0x4001) = some 0 := by decide
  obtain ⟨r, hr, hbyte⟩ := Option.map_eq_some_iff.mp hrun
  have hold : (uniformHart 0x1FFE).bus.ram.byte 0x4001 = 0x0C := by decide
  rcases (hall r hr).write 0x4001 with heq | ⟨_, heq⟩ | ⟨va, w, _, i, _, hsees⟩
  · rw [hbyte, hold] at heq
    exact absurd heq (by decide)
  · rw [hbyte, hold] at heq
    exact absurd heq (by decide)
  · have hhi := (uniform_sees hsees).2
    exact absurd hhi (by decide)

end Cpu

end RiscvEmu

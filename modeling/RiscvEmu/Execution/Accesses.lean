import RiscvEmu.Execution.Endings
import RiscvEmu.Translation.Marking

/-!
# Memory accesses of the hart

An access that crosses a page boundary makes two translations, the second one only when the first
answers.  When those it makes are faithful, the translations of an access keep the data of RAM.  A
load keeps it as a whole, and so does a store that fails, unless the bus takes some of its bytes
into RAM and rejects a later one.
-/

namespace RiscvEmu

open Mmu

namespace Cpu

variable {c c₁ c' : Cpu} {mode : PrivMode} {va : U64} {access : AccessType}

/-! ## The operations -/

theorem translateOrTrap_eq_some {r : Except Trap U64}
    (h : translateOrTrap mode va access c = some (r, c')) :
    ∃ r₀ s, Mmu.translate c.csr.satp mode c.csr.mstatus va access (c.mmu, c.bus) = some (r₀, s) ∧
      r = r₀.mapError (fun f => ⟨f.cause, f.tval⟩) ∧ c' = { c with mmu := s.1, bus := s.2 } := by
  obtain ⟨r₁, c₁, h₁, rfl, rfl⟩ := Run.zoom_eq_some h
  obtain ⟨r₀, s, h₀, rfl, rfl⟩ := Run.zoom_eq_some h₁
  refine ⟨r₀, s, h₀, ?_, rfl⟩
  cases r₀ <;> rfl

theorem translateOrTrap_ok {pa : U64} (h : translate mode va access c = some (.ok pa, c')) :
    translateOrTrap mode va access c = some (.ok pa, c') := by
  rw [translateOrTrap, Run.zoom, id_eq, h]
  rfl

theorem translateOrTrap_of {pa : U64} {s : Mmu × Bus}
    (h : Mmu.translate c.csr.satp mode c.csr.mstatus va access (c.mmu, c.bus) = some (.ok pa, s)) :
    translateOrTrap mode va access c = some (.ok pa, { c with mmu := s.1, bus := s.2 }) := by
  refine translateOrTrap_ok ?_
  rw [translate, Run.zoom, h]
  rfl

theorem translateOrTrap_eq_ok {pa : U64}
    (h : translateOrTrap mode va access c = some (.ok pa, c')) :
    Mmu.translate c.csr.satp mode c.csr.mstatus va access (c.mmu, c.bus) =
        some (.ok pa, (c'.mmu, c'.bus)) ∧ c' = { c with mmu := c'.mmu, bus := c'.bus } := by
  obtain ⟨r, s, ht, hr, rfl⟩ := translateOrTrap_eq_some h
  cases r with
  | error f => cases hr
  | ok pa' =>
      cases hr
      exact ⟨ht, rfl⟩

theorem busLoad_eq_some {pa : U64} {width : Width} {trap : Trap} {r : Except Trap U64}
    (h : busLoad pa width trap c = some (r, c')) :
    ∃ r₀ b, Bus.load pa width c.bus = some (r₀, b) ∧ r = r₀.mapError (fun _ => trap) ∧
      c' = { c with bus := b } :=
  Run.zoom_eq_some h

theorem busStore_eq_some {pa val : U64} {width : Width} {trap : Trap} {r : Except Trap Unit}
    (h : busStore pa width val trap c = some (r, c')) :
    ∃ r₀ b, Bus.store pa width val c.bus = some (r₀, b) ∧ r = r₀.mapError (fun _ => trap) ∧
      c' = { c with bus := b } :=
  Run.zoom_eq_some h

/-! ## Pages -/

/-- The access crosses into the next page. -/
def Crosses (va : U64) (width : Width) : Prop := ¬ pageOff va + width.bytes ≤ 0x1000

theorem pageOff_eq (va : U64) : pageOff va = va.toNat % 4096 := by
  rw [pageOff, BitVec.toNat_and, show (0xFFF : U64).toNat = 2 ^ 12 - 1 from rfl,
    Nat.and_two_pow_sub_one_eq_mod]

theorem pageOff_lt (va : U64) : pageOff va < 4096 := by
  rw [pageOff_eq]
  exact Nat.mod_lt _ (by decide)

/-- The base of a page, from its number. -/
theorem pageBase_eq (va : U64) : va &&& ~~~(0xFFF : U64) = (va >>> 12) <<< 12 := by
  have hmask : ∀ i < 64, (~~~(0xFFF : U64)).getLsbD i = decide (12 ≤ i) := by decide
  apply BitVec.eq_of_getLsbD_eq
  intro i hi
  rw [BitVec.getLsbD_and, hmask i hi, BitVec.getLsbD_shiftLeft, BitVec.getLsbD_ushiftRight]
  by_cases h : 12 ≤ i
  · simp [h, hi, show ¬ i < 12 by omega]
  · simp [h, show i < 12 by omega]

theorem nextPage_toNat (va : U64) :
    (nextPage va).toNat = (va.toNat / 4096 * 4096 + 4096) % 2 ^ 64 := by
  have hlt := va.isLt
  rw [nextPage, pageBase_eq, BitVec.toNat_add, BitVec.toNat_shiftLeft, BitVec.toNat_ushiftRight,
    Nat.shiftLeft_eq, Nat.shiftRight_eq_div_pow, show (0x1000 : U64).toNat = 4096 from rfl]
  omega

/-- The next page starts where the page of the address ends. -/
theorem nextPage_eq (va : U64) : nextPage va = va + BitVec.ofNat 64 (0x1000 - pageOff va) := by
  have hlt := va.isLt
  apply BitVec.eq_of_toNat_eq
  rw [nextPage_toNat, BitVec.toNat_add, BitVec.toNat_ofNat, pageOff_eq]
  omega

theorem tlbIndex_val (vpn : U64) : (tlbIndex vpn).val = vpn.toNat % 64 := by
  rw [tlbIndex, Fin.ofNat, BitVec.toNat_and, show (63 : U64).toNat = 2 ^ 6 - 1 from rfl,
    Nat.and_two_pow_sub_one_eq_mod]
  exact Nat.mod_mod _ _

/-- Neighbouring pages use different slots of the cache. -/
theorem tlbIndex_nextPage (va : U64) :
    tlbIndex (nextPage va >>> 12) ≠ tlbIndex (va >>> 12) := by
  intro h
  have hval := congrArg Fin.val h
  have hlt := va.isLt
  rw [tlbIndex_val, tlbIndex_val, BitVec.toNat_ushiftRight, BitVec.toNat_ushiftRight,
    nextPage_toNat, Nat.shiftRight_eq_div_pow, Nat.shiftRight_eq_div_pow] at hval
  omega

/-- The parts of an access that crosses a page boundary start at its address and at the next
page. -/
theorem crossing_parts {width : Width} (hcross : Crosses va width) :
    0 < 0x1000 - pageOff va ∧ 0x1000 - pageOff va < width.bytes ∧
      (va + BitVec.ofNat 64 0).toNat % 4096 + (0x1000 - pageOff va) ≤ 4096 ∧
      nextPage va = va + BitVec.ofNat 64 (0x1000 - pageOff va) ∧
      (nextPage va).toNat % 4096 = 0 := by
  have hlt := pageOff_lt va
  have hoff := pageOff_eq va
  have hnext := nextPage_toNat va
  rw [Crosses] at hcross
  refine ⟨by omega, by omega, ?_, nextPage_eq va, by omega⟩
  rw [show BitVec.ofNat 64 0 = 0#64 from rfl, BitVec.add_zero]
  omega

/-- If a translation of the hart rebuilds the word of a cache entry, memory still holds it. -/
def FaithfulAt (c : Cpu) (mode : PrivMode) (access : AccessType) (va : U64) : Prop :=
  Faithful (c.mmu, c.bus) c.csr.satp mode c.csr.mstatus va access

/-- The translations that an access makes are faithful.  The second one is made only for an access
that crosses, and only when the first one answers. -/
structure FaithfulAccess (c : Cpu) (mode : PrivMode) (access : AccessType) (va : U64)
    (width : Width) : Prop where
  first : c.FaithfulAt mode access va
  second : Crosses va width → ∀ pa c₁, translateOrTrap mode va access c = some (.ok pa, c₁) →
    c₁.FaithfulAt mode access (nextPage va)

theorem translateOrTrap_sameData {r : Except Trap U64} (hf : c.FaithfulAt mode access va)
    (h : translateOrTrap mode va access c = some (r, c')) : SameData c.bus c'.bus := by
  obtain ⟨r₀, s, ht, _, rfl⟩ := translateOrTrap_eq_some h
  exact translate_sameData hf ht

/-! ## Runs of bytes in RAM -/

/-- The bytes of a part of an access lie in RAM, at the offsets from `off`. -/
def RunAt (b : Bus) (pa : U64) (off m i : Nat) : Prop :=
  ∀ j < m, region (pa + BitVec.ofNat 64 (i + j)) = .ram ∧
    b.offset (pa + BitVec.ofNat 64 (i + j)) .b1 = .ok (off + (i + j))

theorem RunAt.head {b : Bus} {pa : U64} {off m i : Nat} (h : RunAt b pa off (m + 1) i) :
    region (pa + BitVec.ofNat 64 i) = .ram ∧
      b.offset (pa + BitVec.ofNat 64 i) .b1 = .ok (off + i) :=
  h 0 (Nat.succ_pos m)

theorem RunAt.tail {b : Bus} {pa : U64} {off m i : Nat} (h : RunAt b pa off (m + 1) i) :
    RunAt b pa off m (i + 1) := by
  intro j hj
  have hnext := h (j + 1) (by omega)
  rwa [show i + (j + 1) = i + 1 + j by omega] at hnext

/-- Where bytes lie depends on the placement of RAM only. -/
theorem RunAt.congr {b b' : Bus} {pa : U64} {o m i : Nat} (h : RunAt b pa o m i)
    (hbase : b'.ramBase = b.ramBase) (hlen : b'.ram.len = b.ram.len) : RunAt b' pa o m i := by
  intro j hj
  rw [Bus.offset_congr hbase hlen]
  exact h j hj

/-- Consecutive bytes in a frame are taken as a whole. -/
theorem RunAt.whole {width : Width} {b : Bus} {pa : U64} {o : Nat}
    (hrun : RunAt b pa o width.bytes 0) (hpage : pa.toNat % 4096 + width.bytes ≤ 4096) :
    region pa = .ram ∧ b.offset pa width = .ok o := by
  have hpos := width.bytes_pos
  have hlt := pa.isLt
  have hfirst := hrun 0 hpos
  have hlast := hrun (width.bytes - 1) (by omega)
  simp only [Nat.add_zero, Nat.zero_add, BitVec.add_zero] at hfirst hlast
  refine ⟨hfirst.1, ?_⟩
  obtain ⟨hoff, hle, _, _⟩ := Bus.offset_ok hfirst.2
  obtain ⟨_, _, _, hend⟩ := Bus.offset_ok hlast.2
  have hbound := (b.ramBase + b.ram.len).isLt
  rw [BitVec.toNat_add, BitVec.toNat_ofNat, show Width.b1.bytes = 1 from rfl] at hend
  rw [Bus.offset, if_pos (by omega)]
  simp only [BitVec.lt_def]
  rw [if_neg (by omega), hoff]

/-- A run up to the end of a page and one from the start of a page lie apart. -/
theorem RunAt.apart {b : Bus} {pa pa' : U64} {o o' k m : Nat} (h : RunAt b pa o k 0)
    (h' : RunAt b pa' o' m 0) (hk : 0 < k) (hm : 0 < m) (hfit : k + m ≤ 4096)
    (hend : pa.toNat % 4096 + k = 4096) (hstart : pa'.toNat % 4096 = 0) :
    o + k ≤ o' ∨ o' + m ≤ o := by
  have ho := (h 0 hk).2
  have ho' := (h' 0 hm).2
  simp only [Nat.add_zero, BitVec.add_zero] at ho ho'
  have hoff := Bus.offset_eq ho
  have hoff' := Bus.offset_eq ho'
  have hle := (Bus.offset_ok ho).2.1
  have hle' := (Bus.offset_ok ho').2.1
  omega

/-- Bytes of one frame that the bus takes are consecutive in RAM. -/
theorem runAt_of_taken (b : Bus) (pa : U64) {n : Nat} (hn : 0 < n)
    (hpage : pa.toNat % 4096 + n ≤ 4096)
    (h : ∀ j < n, region (pa + BitVec.ofNat 64 j) = .ram ∧ b.Takes (pa + BitVec.ofNat 64 j)) :
    ∃ off, RunAt b pa off n 0 := by
  have hzero : pa + BitVec.ofNat 64 0 = pa := BitVec.add_zero pa
  obtain ⟨hr, htakes⟩ := h 0 hn
  obtain ⟨off, ho⟩ := htakes hr
  rw [hzero] at ho
  refine ⟨off, fun j hj => ?_⟩
  obtain ⟨hr', htakes'⟩ := h j hj
  obtain ⟨off', ho'⟩ := htakes' hr'
  have h1 := Bus.offset_eq ho
  have h2 := Bus.offset_eq ho'
  have hle := (Bus.offset_ok ho).2.1
  have hlt := pa.isLt
  rw [BitVec.toNat_add, BitVec.toNat_ofNat] at h2
  rw [Nat.zero_add]
  refine ⟨hr', ho'.trans (congrArg _ ?_)⟩
  omega

/-- Byte loads from RAM put the bytes of their part of the access in their places. -/
theorem loadBytes_ram (va' : U64) {pa : U64} {k off : Nat} :
    ∀ {m i : Nat} {v : U64}, k + i + m ≤ 8 → RunAt c.bus pa off m i →
      (∀ l, k + i ≤ l → Bytes.byteAt v l = 0) →
      ∃ v', loadBytes pa va' k m i v c = some (.ok v', c) ∧
        ∀ l, Bytes.byteAt v' l =
          if k + i ≤ l ∧ l < k + i + m then c.bus.ram.byte (off + (l - k)) else Bytes.byteAt v l
  | 0, i, v, _, _, _ => ⟨v, rfl, fun l => (if_neg (by omega)).symm⟩
  | m + 1, i, v, hfit, hrun, hv => by
      obtain ⟨hr, ho⟩ := hrun.head
      have hload : busLoad (pa + BitVec.ofNat 64 i) .b1 ⟨5, va' + BitVec.ofNat 64 i⟩ c =
          some (.ok (Bytes.readLe c.bus.ram.byte (off + i) 1), c) :=
        Run.zoom_of_some (Bus.load_ram hr ho)
      have hput : ∀ l, Bytes.byteAt (v |||
          ((Bytes.readLe c.bus.ram.byte (off + i) 1 &&& 0xff) <<< ((k + i) * 8))) l =
          Bytes.byteAt v l ||| if l = k + i then c.bus.ram.byte (off + i) else 0 := by
        intro l
        rw [Bytes.byteAt_or, Bytes.byteAt_shiftLeft_byte _ (by omega),
          Bytes.byteAt_readLe _ _ _ _ (by decide), if_pos Nat.zero_lt_one, Nat.add_zero]
      have hv' : ∀ l, k + (i + 1) ≤ l → Bytes.byteAt (v |||
          ((Bytes.readLe c.bus.ram.byte (off + i) 1 &&& 0xff) <<< ((k + i) * 8))) l = 0 := by
        intro l hl
        rw [hput, hv l (by omega), if_neg (by omega)]
        rfl
      have hfit' : k + (i + 1) + m ≤ 8 := by omega
      obtain ⟨v', hrest, hbytes⟩ := loadBytes_ram va' hfit' hrun.tail hv'
      refine ⟨v', (Run.bind_ok hload).trans hrest, fun l => ?_⟩
      rw [hbytes, hput]
      rcases Nat.lt_trichotomy l (k + i) with hl | rfl | hl
      · rw [if_neg (by omega), if_neg (by omega), if_neg (by omega)]
        exact BitVec.or_zero
      · rw [if_neg (by omega), if_pos rfl, if_pos (by omega), hv _ (Nat.le_refl _),
          Nat.add_sub_cancel_left]
        exact BitVec.zero_or
      · rw [if_neg (show ¬ l = k + i by omega)]
        by_cases hin : l < k + (i + 1) + m
        · rw [if_pos (by omega), if_pos (by omega)]
        · rw [if_neg (by omega), if_neg (by omega)]
          exact BitVec.or_zero

/-- Byte stores to RAM put the bytes of their part of the value in their places. -/
theorem storeBytes_ram {pa va' val : U64} {k off : Nat} :
    ∀ {m i : Nat} {c : Cpu}, RunAt c.bus pa off m i →
      storeBytes pa va' k val m i c =
        some (.ok (), { c with bus := c.bus.setBytes (off + i) m (val >>> ((k + i) * 8)) })
  | 0, i, c, _ => by
      rw [Bus.setBytes_zero]
      rfl
  | m + 1, i, c, hrun => by
      obtain ⟨hr, ho⟩ := hrun.head
      have hstore : busStore (pa + BitVec.ofNat 64 i) .b1 ((val >>> ((k + i) * 8)) &&& 0xff)
          ⟨7, va' + BitVec.ofNat 64 i⟩ c = some (.ok (),
            { c with bus := c.bus.setBytes (off + i) 1 ((val >>> ((k + i) * 8)) &&& 0xff) }) :=
        Run.zoom_of_some (Bus.store_ram _ hr ho)
      have htail : RunAt (c.bus.setBytes (off + i) 1 ((val >>> ((k + i) * 8)) &&& 0xff)) pa off m
          (i + 1) := hrun.tail
      have hrest : storeBytes pa va' k val m (i + 1)
          { c with bus := c.bus.setBytes (off + i) 1 ((val >>> ((k + i) * 8)) &&& 0xff) } = _ :=
        storeBytes_ram htail
      have hnext : (k + (i + 1)) * 8 = (k + i) * 8 + 1 * 8 := by omega
      refine (Run.bind_ok hstore).trans (hrest.trans ?_)
      rw [Bus.setBytes_mask_one, hnext, BitVec.shiftRight_add, ← Nat.add_assoc,
        Bus.setBytes_append, Nat.add_comm 1 m]

/-- The stores of both parts of an access to RAM. -/
theorem storeParts_ram {pa1 pa2 va' va'' val : U64} {k n off₁ off₂ : Nat}
    (h₁ : RunAt c.bus pa1 off₁ k 0) (h₂ : RunAt c.bus pa2 off₂ n 0) :
    (storeBytes pa1 va' 0 val k 0 >>= fun _ => storeBytes pa2 va'' k val n 0) c =
      some (.ok (), { c with
        bus := (c.bus.setBytes off₁ k val).setBytes off₂ n (val >>> (k * 8)) }) := by
  have hs₁ : storeBytes pa1 va' 0 val k 0 c = _ := storeBytes_ram h₁
  have hs₂ : storeBytes pa2 va'' k val n 0
      { c with bus := c.bus.setBytes (off₁ + 0) k (val >>> ((0 + 0) * 8)) } = _ :=
    storeBytes_ram (h₂.congr rfl rfl)
  rw [Run.bind_ok hs₁, hs₂]
  simp only [Nat.add_zero, Nat.zero_mul, BitVec.ushiftRight_zero]

/-! ## Words in RAM -/

/-- The second bus has the bytes of the value at the given offsets, and the RAM of the first
elsewhere. -/
structure Wrote (b b' : Bus) (width : Width) (val : U64) (off : Nat → Nat) : Prop where
  base : b'.ramBase = b.ramBase
  len : b'.ram.len = b.ram.len
  bytes : ∀ i < width.bytes, b'.ram.byte (off i) = Bytes.byteAt val i
  rest : ∀ o, (∀ i < width.bytes, o ≠ off i) → b'.ram.byte o = b.ram.byte o

namespace Wrote

variable {width : Width} {val : U64} {off : Nat → Nat}

theorem of_setBytes (b : Bus) (hoff : ∀ j < width.bytes, off (0 + j) = off 0 + j) :
    Wrote b (b.setBytes (off 0) width.bytes val) width val off where
  base := rfl
  len := rfl
  bytes i hi := by
    have hi' := hoff i hi
    rw [Nat.zero_add] at hi'
    rw [Bus.setBytes_byte, hi', Bytes.writeLe_inside _ _ hi]
  rest o ho := by
    rw [Bus.setBytes_byte]
    refine Bytes.writeLe_outside _ _ ?_
    by_contra hin
    have hi := hoff (o - off 0) (by omega)
    rw [Nat.zero_add] at hi
    exact ho (o - off 0) (by omega) (by omega)

/-- The bytes of a value, written in two parts that lie apart. -/
theorem of_parts (b : Bus) {k : Nat} (hk : k < width.bytes)
    (hfirst : ∀ j < k, off (0 + j) = off 0 + j)
    (hsecond : ∀ j < width.bytes - k, off (k + j) = off k + j)
    (hapart : off 0 + k ≤ off k ∨ off k + (width.bytes - k) ≤ off 0) :
    Wrote b ((b.setBytes (off 0) k val).setBytes (off k) (width.bytes - k) (val >>> (k * 8))) width
      val off where
  base := rfl
  len := rfl
  bytes i hi := by
    rw [Bus.setBytes_byte, Bus.setBytes_byte]
    by_cases hlow : i < k
    · have hi' := hfirst i hlow
      rw [Nat.zero_add] at hi'
      rw [hi', Bytes.writeLe_outside _ _ (by omega), Bytes.writeLe_inside _ _ hlow]
    · obtain ⟨j, rfl⟩ := Nat.exists_eq_add_of_le (Nat.le_of_not_lt hlow)
      rw [hsecond j (by omega), Bytes.writeLe_inside _ _ (by omega), Bytes.byteAt_ushiftRight]
  rest o ho := by
    rw [Bus.setBytes_byte, Bus.setBytes_byte]
    rw [Bytes.writeLe_outside, Bytes.writeLe_outside]
    · by_contra hin
      have hi := hfirst (o - off 0) (by omega)
      rw [Nat.zero_add] at hi
      exact ho (o - off 0) (by omega) (by omega)
    · by_contra hin
      have hi := hsecond (o - off k) (by omega)
      exact ho (k + (o - off k)) (by omega) (by omega)

end Wrote

/-! ## Loads -/

theorem busLoad_sameData {pa : U64} {width : Width} {trap : Trap} {r : Except Trap U64}
    (h : busLoad pa width trap c = some (r, c')) : SameData c.bus c'.bus := by
  obtain ⟨r₀, b, hl, _, rfl⟩ := busLoad_eq_some h
  have hkeep := load_keeps_ram hl
  exact .ofRam hkeep.2 hkeep.1

theorem loadBytes_sameData (pa va : U64) (k : Nat) :
    ∀ (n i : Nat) (v : U64),
      Run.Keeps (fun c c' : Cpu => SameData c.bus c'.bus) (loadBytes pa va k n i v)
  | 0, _, _ => .pure (fun c => .refl c.bus) _
  | n + 1, i, _ =>
      .bind (fun _ _ _ h h' => h.trans h') (fun _ _ _ h => busLoad_sameData h) fun _ =>
        loadBytes_sameData pa va k n (i + 1) _

/-- A load keeps the data of RAM, whether or not it fails. -/
theorem mmuLoad_sameData {width : Width} {r : Except Trap U64}
    (hf : c.FaithfulAccess mode .load va width)
    (h : mmuLoad mode va width c = some (r, c')) : SameData c.bus c'.bus := by
  rw [mmuLoad] at h
  split at h
  · rcases Run.bind_eq_some h with ⟨pa, c₁, ht, hl⟩ | ⟨t, ht, _⟩
    · exact (translateOrTrap_sameData hf.first ht).trans (busLoad_sameData hl)
    · exact translateOrTrap_sameData hf.first ht
  · rename_i hfit
    rcases Run.bind_eq_some h with ⟨pa1, c₁, ht1, h⟩ | ⟨t, ht1, _⟩
    · have h1 := translateOrTrap_sameData hf.first ht1
      have hnext := hf.second hfit pa1 c₁ ht1
      rcases Run.bind_eq_some h with ⟨pa2, c₂, ht2, h⟩ | ⟨t, ht2, _⟩
      · have h2 := h1.trans (translateOrTrap_sameData hnext ht2)
        rcases Run.bind_eq_some h with ⟨v, c₃, hb1, hb2⟩ | ⟨t, hb1, _⟩
        · have h3 := h2.trans (loadBytes_sameData _ _ _ _ _ _ _ _ _ hb1)
          exact h3.trans (loadBytes_sameData _ _ _ _ _ _ _ _ _ hb2)
        · exact h2.trans (loadBytes_sameData _ _ _ _ _ _ _ _ _ hb1)
      · exact h1.trans (translateOrTrap_sameData hnext ht2)
    · exact translateOrTrap_sameData hf.first ht1

/-! ## Stores -/

/-- A store to the address leaves RAM alone: it goes to a device, and it does not notify the block
device. -/
def SparesRam (pa : U64) : Prop := region pa ≠ .ram ∧ ¬ Bus.Notifies pa

/-- Where byte `i` of an access goes whose first `k` bytes are in the first page. -/
def byteAddress (pa1 pa2 : U64) (k i : Nat) : U64 :=
  if i < k then pa1 + BitVec.ofNat 64 i else pa2 + BitVec.ofNat 64 (i - k)

/-- A store that crosses a page boundary is not torn: the bytes that the bus takes before it
rejects one leave RAM alone. -/
def NotTorn (c : Cpu) (mode : PrivMode) (va : U64) (width : Width) : Prop :=
  Crosses va width → ∀ pa1 c₁ pa2 c₂,
    translateOrTrap mode va .store c = some (.ok pa1, c₁) →
    translateOrTrap mode (nextPage va) .store c₁ = some (.ok pa2, c₂) →
    ∀ m < width.bytes, ¬ c.bus.Takes (byteAddress pa1 pa2 (0x1000 - pageOff va) m) →
      (∀ l < m, c.bus.Takes (byteAddress pa1 pa2 (0x1000 - pageOff va) l)) →
      ∀ l < m, SparesRam (byteAddress pa1 pa2 (0x1000 - pageOff va) l)

/-- Of `n` byte stores, at the addresses that `f` gives, the bus took the first `m`. -/
structure Stops (f : Nat → U64) (n m : Nat) (c c' : Cpu) (r : Except Trap Unit) : Prop where
  taken : ∀ l < m, c.bus.Takes (f l)
  ended : (r = .ok () ∧ m = n) ∨ ((∃ t, r = .error t) ∧ m < n ∧ ¬ c.bus.Takes (f m))
  base : c'.bus.ramBase = c.bus.ramBase
  len : c'.bus.ram.len = c.bus.ram.len
  quiet : (∀ l < m, SparesRam (f l)) → c'.bus.ram = c.bus.ram

theorem busStore_placement {pa val : U64} {width : Width} {trap : Trap} {r : Except Trap Unit}
    (h : busStore pa width val trap c = some (r, c')) :
    c'.bus.ramBase = c.bus.ramBase ∧ c'.bus.ram.len = c.bus.ram.len := by
  obtain ⟨r₀, b, hs, _, rfl⟩ := busStore_eq_some h
  exact Bus.store_placement hs

/-- A store that the bus rejects changes nothing, and it is one to RAM. -/
theorem busStore_error {pa val : U64} {trap t : Trap}
    (h : busStore pa .b1 val trap c = some (.error t, c')) :
    ¬ c.bus.Takes pa ∧ c'.bus = c.bus := by
  obtain ⟨r₀, b, hs, hr₀, rfl⟩ := busStore_eq_some h
  cases r₀ with
  | ok u => cases hr₀
  | error e =>
      obtain ⟨hr, ⟨e', he⟩, hb⟩ := Bus.store_error hs
      refine ⟨fun htakes => ?_, hb⟩
      obtain ⟨off, ho⟩ := htakes hr
      rw [he] at ho
      cases ho

/-- A store that succeeds is taken. -/
theorem busStore_ok {pa val : U64} {trap : Trap}
    (h : busStore pa .b1 val trap c = some (.ok (), c')) :
    c.bus.Takes pa ∧ (SparesRam pa → c'.bus.ram = c.bus.ram) := by
  obtain ⟨r₀, b, hs, hr₀, rfl⟩ := busStore_eq_some h
  refine ⟨fun hr => ?_, fun hq => (store_device_keeps_ram hs hq.1 hq.2).1⟩
  cases ho : c.bus.offset pa .b1 with
  | ok off => exact ⟨off, rfl⟩
  | error e =>
      rw [Bus.store_ram_error _ hr ho] at hs
      cases hs
      cases hr₀

/-- A store to RAM that succeeds writes the value. -/
theorem busStore_ram_ok {pa : U64} {w : Width} {val : U64} {trap : Trap} (hr : region pa = .ram)
    (h : busStore pa w val trap c = some (.ok (), c')) :
    ∃ off, c.bus.offset pa w = .ok off ∧ c'.bus = c.bus.setBytes off w.bytes val := by
  obtain ⟨r₀, b, hs, hr₀, rfl⟩ := busStore_eq_some h
  cases ho : c.bus.offset pa w with
  | error e =>
      rw [Bus.store_ram_error val hr ho] at hs
      cases hs
      cases hr₀
  | ok off =>
      rw [Bus.store_ram val hr ho] at hs
      cases hs
      exact ⟨off, rfl, rfl⟩

namespace Stops

variable {f g : Nat → U64} {n n' m m' : Nat} {r : Except Trap Unit}

theorem takes_iff (h : Stops f n m c c' r) {pa : U64} : c'.bus.Takes pa ↔ c.bus.Takes pa :=
  ⟨fun ht => ht.congr h.base.symm h.len.symm, fun ht => ht.congr h.base h.len⟩

/-- One store that is taken, and then the others. -/
theorem cons (htaken : c.bus.Takes (f 0)) (hbase : c₁.bus.ramBase = c.bus.ramBase)
    (hlen : c₁.bus.ram.len = c.bus.ram.len) (hquiet : SparesRam (f 0) → c₁.bus.ram = c.bus.ram)
    (h : Stops (fun l => f (l + 1)) n m c₁ c' r) : Stops f (n + 1) (m + 1) c c' r where
  taken l hl := by
    cases l with
    | zero => exact htaken
    | succ l => exact (h.taken l (Nat.lt_of_succ_lt_succ hl)).congr hbase.symm hlen.symm
  ended := h.ended.imp (fun he => ⟨he.1, congrArg (· + 1) he.2⟩) fun ⟨he, hlt, hrej⟩ =>
    ⟨he, Nat.succ_lt_succ hlt, fun ht => hrej (ht.congr hbase hlen)⟩
  base := h.base.trans hbase
  len := h.len.trans hlen
  quiet hq := (h.quiet fun l hl => hq (l + 1) (Nat.succ_lt_succ hl)).trans
    (hquiet (hq 0 (Nat.succ_pos m)))

/-- All stores of a first part, and then those of a second one. -/
theorem append (h : Stops f n m c c₁ (.ok ())) (h' : Stops g n' m' c₁ c' r) :
    Stops (fun l => if l < n then f l else g (l - n)) (n + n') (n + m') c c' r := by
  obtain ⟨_, rfl⟩ | ⟨⟨t, ht⟩, _⟩ := h.ended
  · refine ⟨fun l hl => ?_, ?_, h'.base.trans h.base, h'.len.trans h.len, fun hq => ?_⟩
    · split
      · exact h.taken l ‹_›
      · exact h.takes_iff.mp (h'.taken _ (by omega))
    · refine h'.ended.imp (fun he => ⟨he.1, congrArg (m + ·) he.2⟩) fun ⟨he, hlt, hrej⟩ => ?_
      refine ⟨he, by omega, ?_⟩
      rw [if_neg (by omega), Nat.add_sub_cancel_left]
      exact fun ht => hrej (h.takes_iff.mpr ht)
    · refine (h'.quiet fun l hl => ?_).trans (h.quiet fun l hl => ?_)
      · have hlate := hq (m + l) (by omega)
        rwa [if_neg (by omega), Nat.add_sub_cancel_left] at hlate
      · have hearly := hq l (by omega)
        rwa [if_pos hl] at hearly
  · cases ht

/-- The stores end in the first part. -/
theorem early {t : Trap} (h : Stops f n m c c' (.error t)) (g : Nat → U64) (n' : Nat) :
    Stops (fun l => if l < n then f l else g (l - n)) (n + n') m c c' (.error t) := by
  obtain ⟨ht, _⟩ | ⟨ht, hlt, hrej⟩ := h.ended
  · cases ht
  · refine ⟨fun l hl => ?_, .inr ⟨ht, by omega, ?_⟩, h.base, h.len, fun hq => ?_⟩
    · rw [if_pos (Nat.lt_trans hl hlt)]
      exact h.taken l hl
    · rw [if_pos hlt]
      exact hrej
    · refine h.quiet fun l hl => ?_
      have hearly := hq l hl
      rwa [if_pos (Nat.lt_trans hl hlt)] at hearly

end Stops

theorem storeBytes_stops {pa va' : U64} {k : Nat} {val : U64} :
    ∀ {n i : Nat} {c c' : Cpu} {r : Except Trap Unit},
      storeBytes pa va' k val n i c = some (r, c') →
        ∃ m, Stops (fun l => pa + BitVec.ofNat 64 (i + l)) n m c c' r
  | 0, _, _, _, _, h => by
      cases h
      exact ⟨0, nofun, .inl ⟨rfl, rfl⟩, rfl, rfl, fun _ => rfl⟩
  | n + 1, i, c, c', r, h => by
      rcases Run.bind_eq_some h with ⟨_, c₁, hs, hrest⟩ | ⟨t, hs, rfl⟩
      · obtain ⟨htaken, hram⟩ := busStore_ok hs
        obtain ⟨hbase, hlen⟩ := busStore_placement hs
        obtain ⟨m, hm⟩ := storeBytes_stops hrest
        refine ⟨m + 1, .cons htaken hbase hlen hram ?_⟩
        simpa only [Nat.add_assoc, Nat.add_comm 1] using hm
      · obtain ⟨hrej, hbus⟩ := busStore_error hs
        refine ⟨0, nofun, .inr ⟨⟨t, rfl⟩, Nat.succ_pos n, hrej⟩, ?_, ?_, fun _ => ?_⟩ <;> rw [hbus]

/-- The stores of both parts of an access. -/
theorem storeParts_stops {pa1 pa2 va' va'' val : U64} {k n : Nat} {r : Except Trap Unit}
    (h : (storeBytes pa1 va' 0 val k 0 >>= fun _ => storeBytes pa2 va'' k val n 0) c =
      some (r, c')) : ∃ m, Stops (byteAddress pa1 pa2 k) (k + n) m c c' r := by
  rcases Run.bind_eq_some h with ⟨_, c₁, h₁, h₂⟩ | ⟨t, h₁, rfl⟩
  · obtain ⟨m₁, hs₁⟩ := storeBytes_stops h₁
    obtain ⟨m₂, hs₂⟩ := storeBytes_stops h₂
    simp only [Nat.zero_add] at hs₁ hs₂
    exact ⟨_, hs₁.append hs₂⟩
  · obtain ⟨m₁, hs₁⟩ := storeBytes_stops h₁
    simp only [Nat.zero_add] at hs₁
    exact ⟨m₁, hs₁.early (fun l => pa2 + BitVec.ofNat 64 l) n⟩

/-- A store that fails keeps the data of RAM, unless it is torn. -/
theorem mmuStore_error_sameData {width : Width} {val : U64} {t : Trap}
    (hf : c.FaithfulAccess mode .store va width) (hwhole : c.NotTorn mode va width)
    (h : mmuStore mode va width val c = some (.error t, c')) : SameData c.bus c'.bus := by
  rw [mmuStore] at h
  split at h
  · rcases Run.bind_eq_some h with ⟨pa, c₁, ht, hs⟩ | ⟨t, ht, _⟩
    · have h1 := translateOrTrap_sameData hf.first ht
      obtain ⟨r₀, b, hb, hr₀, rfl⟩ := busStore_eq_some hs
      cases r₀ with
      | ok u => cases hr₀
      | error e =>
          rw [(Bus.store_error hb).2.2]
          exact h1
    · exact translateOrTrap_sameData hf.first ht
  · rename_i hfit
    have hlt := pageOff_lt va
    rcases Run.bind_eq_some h with ⟨pa1, c₁, ht1, h⟩ | ⟨t, ht1, _⟩
    · have h1 := translateOrTrap_sameData hf.first ht1
      have hnext := hf.second hfit pa1 c₁ ht1
      rcases Run.bind_eq_some h with ⟨pa2, c₂, ht2, h⟩ | ⟨t, ht2, _⟩
      · have h2 := h1.trans (translateOrTrap_sameData hnext ht2)
        obtain ⟨m, hstops⟩ := storeParts_stops h
        have hback : ∀ {pa}, c₂.bus.Takes pa ↔ c.bus.Takes pa :=
          ⟨fun ht => ht.congr h2.base.symm h2.len.symm, fun ht => ht.congr h2.base h2.len⟩
        obtain ⟨hr, _⟩ | ⟨_, hm, hrej⟩ := hstops.ended
        · cases hr
        · have hquiet := hwhole hfit pa1 c₁ pa2 c₂ ht1 ht2 m (by omega)
            (fun ht => hrej (hback.mpr ht)) fun l hl => hback.mp (hstops.taken l hl)
          exact h2.trans (.ofRam hstops.base (hstops.quiet hquiet))
      · exact h1.trans (translateOrTrap_sameData hnext ht2)
    · exact translateOrTrap_sameData hf.first ht1

end Cpu

end RiscvEmu

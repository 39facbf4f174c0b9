import RiscvEmu.Execution.Accesses
import RiscvEmu.Translation.Rebuilding

/-!
# Accesses byte by byte

A store should write byte `i` of the value where byte `i` of its range is mapped and no other data
byte, and a load after it should read the value back, at once or byte by byte.  An access that
crosses a page boundary does so through two translations.  The first of them may change what the
second one reads, and both may change what the load reads.

A hit that has to set a bit writes the word of its cache entry back to where the entry came from.
When one page of the access is not cached, that word must not disturb its tables.  Then an access is
accurate exactly when the words that are rebuilt change no data byte (`accurate_iff`).
-/

namespace RiscvEmu

open Mmu

namespace Cpu

variable {c c' c₁ c₂ : Cpu} {mode : PrivMode} {va : U64} {width : Width} {access : AccessType}
  {off : Nat → Nat} {val : U64}

/-! ## The law -/

/-- The addresses an access translates. -/
def pagesOf (va : U64) (width : Width) : List U64 :=
  if pageOff va + width.bytes ≤ 0x1000 then [va] else [va, nextPage va]

/-- Every byte of an access is mapped to a byte of RAM at the given offset, for loads and for
stores. -/
def Lands (c : Cpu) (mode : PrivMode) (va : U64) (width : Width) (off : Nat → Nat) : Prop :=
  ∀ i < width.bytes, ∀ access, access ≠ .fetch → ∃ pa s,
    Mmu.translate c.csr.satp mode c.csr.mstatus (va + BitVec.ofNat 64 i) access (c.mmu, c.bus) =
        some (.ok pa, s) ∧
      region pa = .ram ∧ c.bus.offset pa .b1 = .ok (off i)

/-- The byte is none of the page-table words that the walks of the pages of an access read. -/
def DataByte (c : Cpu) (mode : PrivMode) (va : U64) (width : Width) (o : Nat) : Prop :=
  ∀ p ∈ pagesOf va width, OffTables c.bus c.csr.satp mode p o

/-- The bytes of an access are none of the page-table words that the walks of its pages read. -/
def OutsideTables (c : Cpu) (mode : PrivMode) (va : U64) (width : Width) (off : Nat → Nat) : Prop :=
  ∀ i < width.bytes, c.DataByte mode va width (off i)

/-- RAM has the bytes of the value at the given offsets, and every other data byte as before. -/
structure WroteData (c : Cpu) (ram : Ram) (mode : PrivMode) (va : U64) (width : Width) (val : U64)
    (off : Nat → Nat) : Prop where
  bytes : ∀ i < width.bytes, ram.byte (off i) = Bytes.byteAt val i
  rest : ∀ o, (∀ i < width.bytes, o ≠ off i) → c.DataByte mode va width o →
    ram.byte o = c.bus.ram.byte o

/-- The low bytes of a value. -/
def truncated (width : Width) (val : U64) : U64 :=
  BitVec.ofNat 64 (val.toNat % 2 ^ (8 * width.bytes))

/-- The store does what it should, and what it stored can be loaded. -/
def Accurate (c : Cpu) (mode : PrivMode) (va : U64) (width : Width) (val : U64) (off : Nat → Nat) :
    Prop :=
  ∃ c', mmuStore mode va width val c = some (.ok (), c') ∧
    c.WroteData c'.bus.ram mode va width val off ∧
    mmuLoad mode va width c' = some (.ok (truncated width val), c') ∧
    ∃ bytes : Nat → U8, truncated width val = Bytes.readLe bytes 0 width.bytes ∧
      ∀ i < width.bytes, mmuLoad mode (va + BitVec.ofNat 64 i) .b1 c' =
        some (.ok ((bytes i).setWidth 64), c')

/-- If the translation rebuilds an entry, memory still holds it. -/
def HeldAt (c : Cpu) (mode : PrivMode) (access : AccessType) (va : U64) : Prop :=
  Rebuilds (c.mmu, c.bus) c.csr.satp mode c.csr.mstatus va access →
    StillHeld c.csr.satp va access (c.mmu.tlb (tlbIndex (va >>> 12))) c.bus

/-- A translation of the hart rebuilds the word of a cache entry, and this writes a byte of RAM. -/
def RewritesAt (c : Cpu) (mode : PrivMode) (access : AccessType) (va : U64) (o : Nat) (x : U8) :
    Prop :=
  Rewrites (c.mmu, c.bus) c.csr.satp mode c.csr.mstatus va access o x

/-- The words that the translations of a store rebuild change no data byte, but for those it stores
to.  The word that the second translation writes comes last. -/
structure Clean (c : Cpu) (mode : PrivMode) (va : U64) (width : Width)
    (off : Nat → Nat) : Prop where
  first : ∀ o, (∀ i < width.bytes, o ≠ off i) → c.DataByte mode va width o →
    ∀ x, c.RewritesAt mode .store va o x → x = c.bus.ram.byte o ∨
      (Crosses va width ∧ ∃ y, c.RewritesAt mode .store (nextPage va) o y)
  second : Crosses va width → ∀ o, (∀ i < width.bytes, o ≠ off i) →
    c.DataByte mode va width o →
    ∀ y, c.RewritesAt mode .store (nextPage va) o y → y = c.bus.ram.byte o

/-- When the address `q` is not cached, the word that a translation of `p` rebuilds only marks its
tables. -/
def SparesAt (c : Cpu) (mode : PrivMode) (access : AccessType) (p q : U64) : Prop :=
  c.mmu.slotHits c.csr.satp q = false →
    Spares (c.mmu, c.bus) c.csr.satp mode c.csr.mstatus p access q

/-- The two translations of a crossing store spare each other's tables. -/
def SparesBoth (c : Cpu) (mode : PrivMode) (va : U64) (width : Width) : Prop :=
  Crosses va width →
    c.SparesAt mode .store va (nextPage va) ∧ c.SparesAt mode .store (nextPage va) va

/-- A translation marks the leaf of its page, exactly when memory holds the entry it rebuilds. -/
theorem marksLeaf_iff_held (hplaced : Placed c.mmu) {pa : U64}
    (h : translateOrTrap mode va access c = some (.ok pa, c')) :
    MarksLeaf c.csr.satp va access c.bus c'.bus ↔ c.HeldAt mode access va :=
  hplaced.marksLeaf_iff (translateOrTrap_eq_ok h).1

/-! ## Where the bytes of an access are -/

/-- A part of an access is mapped to consecutive bytes of RAM. -/
theorem Lands.part (hlands : c.Lands mode va width off) (access : AccessType)
    (haccess : access ≠ .fetch) {k n : Nat} (hfit : k + n ≤ width.bytes) (hn : 0 < n)
    (hpage : (va + BitVec.ofNat 64 k).toNat % 4096 + n ≤ 4096) :
    ∃ pa s, Mmu.translate c.csr.satp mode c.csr.mstatus (va + BitVec.ofNat 64 k) access
        (c.mmu, c.bus) = some (.ok pa, s) ∧
      pa.toNat % 4096 = (va + BitVec.ofNat 64 k).toNat % 4096 ∧
      RunAt c.bus pa (off k) n 0 ∧ ∀ j < n, off (k + j) = off k + j := by
  obtain ⟨pa, s, ht, _, ho⟩ := hlands k (by omega) access haccess
  have hoff := translate_pageOff ht
  have hbyte : ∀ j < n, region (pa + BitVec.ofNat 64 j) = .ram ∧
      c.bus.offset (pa + BitVec.ofNat 64 j) .b1 = .ok (off (k + j)) := by
    intro j hj
    obtain ⟨pa', s', ht', hr', ho'⟩ := hlands (k + j) (by omega) access haccess
    have hadd := translate_add ht (show (va + BitVec.ofNat 64 k).toNat % 4096 + j < 4096 by omega)
    rw [BitVec.add_assoc, ← BitVec.ofNat_add, ht'] at hadd
    cases hadd
    exact ⟨hr', ho'⟩
  have hnext : ∀ j < n, off (k + j) = off k + j := by
    intro j hj
    have h0 := Bus.offset_eq ho
    have hj' := Bus.offset_eq (hbyte j hj).2
    have hle := (Bus.offset_ok ho).2.1
    have hlt := pa.isLt
    rw [BitVec.toNat_add, BitVec.toNat_ofNat] at hj'
    omega
  refine ⟨pa, s, ht, hoff, fun j hj => ?_, hnext⟩
  rw [Nat.zero_add, ← hnext j hj]
  exact hbyte j hj

theorem mem_pagesOf (va : U64) (width : Width) : va ∈ pagesOf va width := by
  rw [pagesOf]
  split <;> exact List.mem_cons_self

theorem nextPage_mem_pagesOf (hcross : Crosses va width) : nextPage va ∈ pagesOf va width := by
  rw [pagesOf, if_neg hcross]
  exact List.mem_cons_of_mem _ List.mem_cons_self

/-! ## What a store writes -/

/-- A store misses the tables of its pages. -/
theorem Wrote.keepsTables {b b' : Bus} {satp p : U64} (h : Wrote b b' width val off)
    (hout : ∀ a ∈ tableSlots b satp p, ∀ o, b.offset a .b8 = .ok o →
      ∀ i < width.bytes, off i < o ∨ o + 8 ≤ off i) : KeepsTables satp p b b' := by
  refine .of_bytes h.base h.len fun a ha o ho i hi => h.rest _ fun j hj heq => ?_
  have hmiss := hout a ha o ho j hj
  omega

/-! ## The translations of a store -/

/-- The translations of a store answer, and they keep the tables of pages that are not cached. -/
def Translates (c : Cpu) (mode : PrivMode) (va : U64) (width : Width) (c₂ : Cpu) : Prop :=
  ∃ pa c₁, translateOrTrap mode va .store c = some (.ok pa, c₁) ∧
    (Crosses va width →
      (c.mmu.slotHits c.csr.satp (nextPage va) = false →
        KeepsTables c.csr.satp (nextPage va) c.bus c₁.bus) ∧
      (c.mmu.slotHits c.csr.satp va = false → KeepsTables c.csr.satp va c₁.bus c₂.bus) ∧
      ∃ pa', translateOrTrap mode (nextPage va) .store c₁ = some (.ok pa', c₂)) ∧
    (¬ Crosses va width → c₂ = c₁)

/-- A translation that misses the cache keeps all tables. -/
theorem keepsTables_of_miss (hplaced : Placed c.mmu) {pa : U64}
    (hmiss : c.mmu.slotHits c.csr.satp va = false)
    (h : translateOrTrap mode va access c = some (.ok pa, c')) (q : U64) :
    KeepsTables c.csr.satp q c.bus c'.bus := by
  obtain ⟨ht, _⟩ := translateOrTrap_eq_ok h
  refine translate_keepsTables hplaced (fun hreb => ?_) ht
  have hhit := hreb.1.2.1
  dsimp only at hhit
  rw [hmiss] at hhit
  cases hhit

/-- The lookup of the next page is not changed by the translation of the first one. -/
theorem nextPage_slot {pa : U64} (h : translateOrTrap mode va access c = some (.ok pa, c₁)) :
    slotEntry c₁.mmu (nextPage va) = slotEntry c.mmu (nextPage va) ∧ c₁.csr = c.csr := by
  obtain ⟨ht, heq⟩ := translateOrTrap_eq_ok h
  exact ⟨translate_tlb_of_ne (tlbIndex_nextPage va) ht, by rw [heq]⟩

/-- The translation of the second page answers after the first one as it would have before. -/
theorem second_translation (hplaced : Placed c.mmu)
    (htables : WalksRam (c.mmu, c.bus) c.csr.satp mode (nextPage va)) {pa : U64}
    (hfirst : translateOrTrap mode va access c = some (.ok pa, c₁))
    (hkeep : c.mmu.slotHits c.csr.satp (nextPage va) = false →
      KeepsTables c.csr.satp (nextPage va) c.bus c₁.bus) {access' : AccessType}
    {r : Except MmuFault U64} {s : Mmu × Bus}
    (h : Mmu.translate c.csr.satp mode c.csr.mstatus (nextPage va) access' (c.mmu, c.bus) =
      some (r, s)) :
    ∃ s', Mmu.translate c.csr.satp mode c.csr.mstatus (nextPage va) access' (c₁.mmu, c₁.bus) =
      some (r, s') :=
  translate_sameResult hplaced htables (nextPage_slot hfirst).1 hkeep h

/-- Where bytes lie is not changed by a translation. -/
theorem translateOrTrap_placement {pa : U64}
    (h : translateOrTrap mode va access c = some (.ok pa, c')) :
    c'.bus.ramBase = c.bus.ramBase ∧ c'.bus.ram.len = c.bus.ram.len := by
  obtain ⟨ht, _⟩ := translateOrTrap_eq_ok h
  exact translate_placement ht

/-- The translations of a store leave the hart and the placement of RAM alone. -/
theorem Translates.frame (h : c.Translates mode va width c₂) :
    c₂ = { c with mmu := c₂.mmu, bus := c₂.bus } ∧ c₂.bus.ramBase = c.bus.ramBase ∧
      c₂.bus.ram.len = c.bus.ram.len := by
  obtain ⟨pa, c₁, ht, hcross, hwithin⟩ := h
  obtain ⟨-, heq⟩ := translateOrTrap_eq_ok ht
  obtain ⟨hbase, hlen⟩ := translateOrTrap_placement ht
  by_cases hc : Crosses va width
  · obtain ⟨-, -, pa', ht'⟩ := hcross hc
    obtain ⟨-, heq'⟩ := translateOrTrap_eq_ok ht'
    obtain ⟨hbase', hlen'⟩ := translateOrTrap_placement ht'
    refine ⟨?_, hbase'.trans hbase, hlen'.trans hlen⟩
    rw [heq', heq]
  · cases hwithin hc
    exact ⟨heq, hbase, hlen⟩

section

variable (hplaced : Placed c.mmu)
  (htables : ∀ p ∈ pagesOf va width, WalksRam (c.mmu, c.bus) c.csr.satp mode p)

include hplaced htables in
/-- After the translations the bytes of the value are written where they belong. -/
theorem mmuStore_wrote (val : U64) (hlands : c.Lands mode va width off)
    (htrans : c.Translates mode va width c₂) :
    ∃ c', mmuStore mode va width val c = some (.ok (), c') ∧ Wrote c₂.bus c'.bus width val off ∧
      c' = { c₂ with bus := c'.bus } := by
  have hw := width.bytes_le
  have hpos := width.bytes_pos
  have hoffset := pageOff_eq va
  have hzero : va + BitVec.ofNat 64 0 = va := BitVec.add_zero va
  obtain ⟨-, hbase, hlen⟩ := htrans.frame
  obtain ⟨pa, c₁, ht, hsecond, hsame⟩ := htrans
  obtain ⟨hmmu, -⟩ := translateOrTrap_eq_ok ht
  by_cases hcross : Crosses va width
  · obtain ⟨hfirst, hfit, hpage, hnext, hnextOff⟩ := crossing_parts hcross
    obtain ⟨hkeep, -, pa', ht'⟩ := hsecond hcross
    obtain ⟨pa₁, s₁, hpa₁, hoff₁, hrun₁, hadd₁⟩ :=
      hlands.part .store nofun (show 0 + (0x1000 - pageOff va) ≤ _ by omega) hfirst hpage
    obtain ⟨pa₂, s₂, hpa₂, hoff₂, hrun₂, hadd₂⟩ := hlands.part .store nofun
      (show (0x1000 - pageOff va) + (width.bytes - (0x1000 - pageOff va)) ≤ width.bytes by omega)
      (by omega) (by rw [← hnext, hnextOff]; omega)
    rw [hzero] at hpa₁ hoff₁
    rw [hmmu] at hpa₁
    cases hpa₁
    rw [← hnext] at hpa₂ hoff₂
    -- the second page is where it was before the first translation
    obtain ⟨s', hs'⟩ := second_translation hplaced
      (htables _ (nextPage_mem_pagesOf hcross)) ht hkeep hpa₂
    obtain ⟨hmmu', -⟩ := translateOrTrap_eq_ok ht'
    rw [(nextPage_slot ht).2, hs'] at hmmu'
    cases hmmu'
    refine ⟨{ c₂ with
      bus := (c₂.bus.setBytes (off 0) (0x1000 - pageOff va) val).setBytes
        (off (0x1000 - pageOff va)) (width.bytes - (0x1000 - pageOff va))
        (val >>> ((0x1000 - pageOff va) * 8)) }, ?_, ?_, rfl⟩
    · rw [mmuStore, if_neg hcross, Run.bind_ok ht, Run.bind_ok ht']
      exact storeParts_ram (hrun₁.congr hbase hlen) (hrun₂.congr hbase hlen)
    · exact .of_parts _ hfit hadd₁ hadd₂
        (hrun₁.apart hrun₂ hfirst (by omega) (by omega) (by omega) (by omega))
  · cases hsame hcross
    have hin := hcross
    rw [Crosses, not_not, hoffset] at hin
    obtain ⟨pa', s, hpa, hpaOff, hrun, hadd⟩ :=
      hlands.part .store nofun (show 0 + width.bytes ≤ width.bytes by omega) hpos
        (by rw [hzero]; exact hin)
    rw [hzero] at hpa hpaOff
    rw [hmmu] at hpa
    cases hpa
    obtain ⟨hr, ho⟩ := (hrun.congr hbase hlen).whole (by omega)
    refine ⟨{ c₂ with bus := c₂.bus.setBytes (off 0) width.bytes val }, ?_,
      .of_setBytes _ hadd, rfl⟩
    rw [mmuStore, if_pos (Decidable.not_not.mp hcross), Run.bind_ok ht]
    exact Run.zoom_of_some (Bus.store_ram val hr ho)

end

/-! ## What a load reads -/

/-- Part of an access can be loaded without an effect, from consecutive bytes of RAM. -/
def Reads (c : Cpu) (mode : PrivMode) (va : U64) (off : Nat → Nat) (k n : Nat) : Prop :=
  (va + BitVec.ofNat 64 k).toNat % 4096 + n ≤ 4096 ∧ ∃ pa,
    Mmu.translate c.csr.satp mode c.csr.mstatus (va + BitVec.ofNat 64 k) .load (c.mmu, c.bus) =
        some (.ok pa, (c.mmu, c.bus)) ∧
      pa.toNat % 4096 = (va + BitVec.ofNat 64 k).toNat % 4096 ∧
      RunAt c.bus pa (off k) n 0 ∧ ∀ j < n, off (k + j) = off k + j

theorem Reads.translate {k n : Nat} (h : c.Reads mode va off k n) :
    ∃ pa, translateOrTrap mode (va + BitVec.ofNat 64 k) .load c = some (.ok pa, c) ∧
      pa.toNat % 4096 = (va + BitVec.ofNat 64 k).toNat % 4096 ∧
      RunAt c.bus pa (off k) n 0 ∧ ∀ j < n, off (k + j) = off k + j := by
  obtain ⟨_, pa, ht, hrest⟩ := h
  exact ⟨pa, translateOrTrap_of ht, hrest⟩

/-- One byte of such a part. -/
theorem Reads.byte {k n : Nat} (h : c.Reads mode va off k n) {j : Nat} (hj : j < n) :
    mmuLoad mode (va + BitVec.ofNat 64 (k + j)) .b1 c =
      some (.ok ((c.bus.ram.byte (off (k + j))).setWidth 64), c) := by
  obtain ⟨hpage, pa, ht, hoff, hrun, hadd⟩ := h
  have hadd' := translate_add ht (show (va + BitVec.ofNat 64 k).toNat % 4096 + j < 4096 by omega)
  rw [BitVec.add_assoc, ← BitVec.ofNat_add] at hadd'
  have hone : pageOff (va + BitVec.ofNat 64 (k + j)) + Width.b1.bytes ≤ 0x1000 := by
    have hlt := pageOff_lt (va + BitVec.ofNat 64 (k + j))
    exact hlt
  obtain ⟨hr, ho⟩ := hrun j hj
  rw [Nat.zero_add, ← hadd j hj] at ho
  rw [Nat.zero_add] at hr
  rw [mmuLoad, if_pos hone, Run.bind_ok (translateOrTrap_of hadd')]
  refine (Run.zoom_of_some (Bus.load_ram hr ho)).trans ?_
  simp only [Width.bytes, Bytes.readLe, BitVec.ofNat_eq_ofNat, BitVec.zero_shiftLeft,
    BitVec.or_zero]
  rfl

/-- The whole access, within a page or across a boundary. -/
theorem Reads.whole {bytes : Nat → U8}
    (hbytes : ∀ i < width.bytes, c.bus.ram.byte (off i) = bytes i)
    (hwithin : ¬ Crosses va width → c.Reads mode va off 0 width.bytes)
    (hcross : Crosses va width → c.Reads mode va off 0 (0x1000 - pageOff va) ∧
      c.Reads mode va off (0x1000 - pageOff va) (width.bytes - (0x1000 - pageOff va))) :
    mmuLoad mode va width c = some (.ok (Bytes.readLe bytes 0 width.bytes), c) := by
  have hw := width.bytes_le
  have hzero : va + BitVec.ofNat 64 0 = va := BitVec.add_zero va
  by_cases hc : Crosses va width
  · obtain ⟨hfirst, hfit, _, hnext, _⟩ := crossing_parts hc
    obtain ⟨hreads₁, hreads₂⟩ := hcross hc
    obtain ⟨pa₁, ht₁, _, hrun₁, hadd₁⟩ := hreads₁.translate
    obtain ⟨pa₂, ht₂, _, hrun₂, hadd₂⟩ := hreads₂.translate
    rw [hzero] at ht₁
    rw [← hnext] at ht₂
    have hempty : ∀ l, Bytes.byteAt 0 l = 0 := fun l => by
      apply BitVec.eq_of_getLsbD_eq
      intro j hj
      rw [Bytes.byteAt_getElem _ _ hj]
      simp
    obtain ⟨v₁, hl₁, hb₁⟩ := loadBytes_ram va (k := 0) (by omega) hrun₁ fun l _ => hempty l
    obtain ⟨v₂, hl₂, hb₂⟩ := loadBytes_ram (nextPage va) (k := 0x1000 - pageOff va)
      (by omega) hrun₂ fun l hl => by rw [hb₁, if_neg (by omega), hempty l]
    have hval : v₂ = Bytes.readLe bytes 0 width.bytes := by
      apply Bytes.eq_of_byteAt
      intro l _
      rw [hb₂, hb₁, Bytes.byteAt_readLe _ _ _ _ hw]
      by_cases hlow : l < 0x1000 - pageOff va
      · have hoff := hadd₁ l hlow
        rw [Nat.zero_add] at hoff
        rw [if_neg (by omega), if_pos (by omega), if_pos (by omega), Nat.sub_zero, ← hoff,
          hbytes l (by omega), Nat.zero_add]
      · rw [if_neg (show ¬ (0 + 0 ≤ l ∧ l < 0 + 0 + (0x1000 - pageOff va)) by omega)]
        by_cases hin : l < width.bytes
        · have hoff := hadd₂ (l - (0x1000 - pageOff va)) (by omega)
          rw [show 0x1000 - pageOff va + (l - (0x1000 - pageOff va)) = l by omega] at hoff
          rw [if_pos (by omega), if_pos hin, ← hoff, hbytes l hin, Nat.zero_add]
        · rw [if_neg (by omega), if_neg hin, hempty l]
    rw [mmuLoad, if_neg hc, Run.bind_ok ht₁, Run.bind_ok ht₂, Run.bind_ok hl₁, hl₂, hval]
  · obtain ⟨pa, ht, hpaOff, hrun, hadd⟩ := (hwithin hc).translate
    have hin := hc
    rw [Crosses, not_not, pageOff_eq] at hin
    rw [hzero] at ht hpaOff
    obtain ⟨hr, ho⟩ := hrun.whole (by omega)
    have hval : Bytes.readLe c.bus.ram.byte (off 0) width.bytes =
        Bytes.readLe bytes 0 width.bytes := by
      apply Bytes.eq_of_byteAt
      intro l _
      rw [Bytes.byteAt_readLe _ _ _ _ hw, Bytes.byteAt_readLe _ _ _ _ hw]
      by_cases hl : l < width.bytes
      · have hoff := hadd l hl
        rw [Nat.zero_add] at hoff
        rw [if_pos hl, if_pos hl, ← hoff, hbytes l hl, Nat.zero_add]
      · rw [if_neg hl, if_neg hl]
    rw [mmuLoad, if_pos (Decidable.not_not.mp hc), Run.bind_ok ht, ← hval]
    exact Run.zoom_of_some (Bus.load_ram hr ho)

/-! ## Loads after the store -/

/-- The translations of a store keep the tables of its pages that are not cached. -/
theorem Translates.keepsTables (hplaced : Placed c.mmu) (h : c.Translates mode va width c₂)
    {p : U64} (hp : p ∈ pagesOf va width) (hmiss : c.mmu.slotHits c.csr.satp p = false) :
    KeepsTables c.csr.satp p c.bus c₂.bus := by
  obtain ⟨pa, c₁, ht, hcross, hwithin⟩ := h
  rw [pagesOf] at hp
  by_cases hc : Crosses va width
  · rw [if_neg hc] at hp
    obtain ⟨hnext, hback, pa', ht'⟩ := hcross hc
    obtain ⟨hslot, hcsr⟩ := nextPage_slot ht
    obtain rfl | rfl : p = va ∨ p = nextPage va := by simpa using hp
    · exact (keepsTables_of_miss hplaced hmiss ht p).trans (hback hmiss)
    · have hplaced₁ := hplaced.translate (translateOrTrap_eq_ok ht).1
      have hmiss₁ : c₁.mmu.slotHits c₁.csr.satp (nextPage va) = false := by
        rw [hcsr, slotHits_congr hslot]
        exact hmiss
      have hsecond := keepsTables_of_miss hplaced₁ hmiss₁ ht' (nextPage va)
      rw [hcsr] at hsecond
      exact (hnext hmiss).trans hsecond
  · rw [if_pos (not_not.mp hc), List.mem_singleton] at hp
    cases hp
    cases hwithin hc
    exact keepsTables_of_miss hplaced hmiss ht va

/-- The bytes stored outside the tables keep them as well. -/
theorem OutsideTables.keepsTables (hout : c.OutsideTables mode va width off)
    (hplaced : Placed c.mmu) (htrans : c.Translates mode va width c₂) {b : Bus}
    (hwrote : Wrote c₂.bus b width val off) {p : U64} (hp : p ∈ pagesOf va width) {n : Nat}
    (hpaged : Paged c.csr.satp mode p n) (hmiss : c.mmu.slotHits c.csr.satp p = false) :
    KeepsTables c.csr.satp p c₂.bus b := by
  have hkeep := htrans.keepsTables hplaced hp hmiss
  refine hwrote.keepsTables fun a ha o ho i hi => ?_
  rw [hkeep.slots] at ha
  rw [Bus.offset_congr hkeep.base hkeep.len] at ho
  exact hout i hi p hp n hpaged a ha o ho

section

variable (hplaced : Placed c.mmu)
  (htables : ∀ p ∈ pagesOf va width, WalksRam (c.mmu, c.bus) c.csr.satp mode p)

include hplaced htables in
/-- The translations of a store answer, when they spare each other's tables. -/
theorem translates_of_spares (hlands : c.Lands mode va width off)
    (hspares : c.SparesBoth mode va width) : ∃ c₂, c.Translates mode va width c₂ := by
  have hpos := width.bytes_pos
  obtain ⟨pa, s, ht, -, -⟩ := hlands 0 hpos .store nofun
  rw [show va + BitVec.ofNat 64 0 = va from BitVec.add_zero va] at ht
  have hfirst := translateOrTrap_of ht
  by_cases hcross : Crosses va width
  · obtain ⟨_, hfit, _, hnext, _⟩ := crossing_parts hcross
    obtain ⟨hsecond, hback⟩ := hspares hcross
    obtain ⟨pa', s', ht', -, -⟩ := hlands _ hfit .store nofun
    rw [← hnext] at ht'
    have hkeep : c.mmu.slotHits c.csr.satp (nextPage va) = false →
        KeepsTables c.csr.satp (nextPage va) c.bus s.2 :=
      fun hmiss => translate_keepsTables hplaced (hsecond hmiss) ht
    obtain ⟨s₂, hs₂⟩ := second_translation hplaced (htables _ (nextPage_mem_pagesOf hcross))
      hfirst hkeep ht'
    have hthen := translateOrTrap_of (c := { c with mmu := s.1, bus := s.2 }) hs₂
    obtain ⟨hslot, _⟩ := nextPage_slot hfirst
    refine ⟨_, pa, _, hfirst, fun _ => ⟨hkeep, fun hmiss => ?_, pa', hthen⟩,
      fun hnot => absurd hcross hnot⟩
    -- the first page was walked, and this marked its tables at most
    have hwalked := keepsTables_of_miss hplaced hmiss hfirst va
    refine translate_keepsTables (hplaced.translate ht) (fun hreb hmem w₁ hw₁ => ?_) hs₂
    dsimp only at hslot hmem hw₁ hwalked ⊢
    rw [hslot] at hmem hw₁ ⊢
    rw [hwalked.slots] at hmem
    have hrel := hwalked.words _ hmem
    rw [hw₁] at hrel
    cases hw : pteWord c.bus (slotEntry c.mmu (nextPage va)).pteAddr with
    | none => rw [hw] at hrel; cases hrel
    | some w =>
        rw [hw] at hrel
        cases hrel with
        | some hmark =>
            have hreb' := (rebuilds_congr (b := c.bus) hslot).mp hreb
            exact hmark.between (hback hmiss hreb' hmem w hw) (writeBack_store_full _)
  · exact ⟨_, pa, _, hfirst, fun hc => absurd hc hcross, fun _ => rfl⟩

include htables in
/-- The part of the access on the first page can be loaded again. -/
theorem reads_first (hlands : c.Lands mode va width off) (hplaced : Placed c.mmu)
    (htrans : c.Translates mode va width c₂) (hout : c.OutsideTables mode va width off)
    (hwrote : Wrote c₂.bus c'.bus width val off) (hc' : c' = { c₂ with bus := c'.bus }) {n : Nat}
    (hfit : n ≤ width.bytes) (hn : 0 < n) (hpage : va.toNat % 4096 + n ≤ 4096) :
    c'.Reads mode va off 0 n := by
  have hzero : va + BitVec.ofNat 64 0 = va := BitVec.add_zero va
  have hkept : ∀ n, Paged c.csr.satp mode va n → c.mmu.slotHits c.csr.satp va = false →
      KeepsTables c.csr.satp va c₂.bus c'.bus :=
    fun _ hp hmiss => hout.keepsTables hplaced htrans hwrote (mem_pagesOf va width) hp hmiss
  obtain ⟨hframe, hbase, hlen⟩ := htrans.frame
  obtain ⟨pa, c₁, ht, hsecond, hsame⟩ := htrans
  obtain ⟨hmmu, heq⟩ := translateOrTrap_eq_ok ht
  obtain ⟨pa', s, hstore, hoff, hrun, hadd⟩ :=
    hlands.part .store nofun (show 0 + n ≤ width.bytes by omega) hn (by rw [hzero]; exact hpage)
  obtain ⟨_, _, hload, -⟩ := hlands 0 (by omega) .load nofun
  rw [hzero] at hstore hload hoff
  rw [hmmu] at hstore
  cases hstore
  -- the second translation uses another slot, and spares the tables
  have hrest : c₂.mmu.tlb (tlbIndex (va >>> 12)) = c₁.mmu.tlb (tlbIndex (va >>> 12)) ∧
      (c.mmu.slotHits c.csr.satp va = false → KeepsTables c.csr.satp va c₁.bus c₂.bus) := by
    by_cases hcross : Crosses va width
    · obtain ⟨-, hback, pa₂, ht₂⟩ := hsecond hcross
      exact ⟨translate_tlb_of_ne (tlbIndex_nextPage va).symm (translateOrTrap_eq_ok ht₂).1, hback⟩
    · cases hsame hcross
      exact ⟨rfl, fun _ => .refl _⟩
  have hsettled := settled_of_store hmmu hload (htables va (mem_pagesOf va width)) hrest.1
    fun n hp hmiss => (hrest.2 hmiss).trans (hkept n hp hmiss)
  have hcsr : c'.csr = c.csr := by rw [hc', hframe]
  have hmmu' : c'.mmu = c₂.mmu := by rw [hc']
  refine ⟨by rw [hzero]; exact hpage, pa, ?_, by rw [hzero]; exact hoff,
    hrun.congr (hwrote.base.trans hbase) (hwrote.len.trans hlen), hadd⟩
  rw [hzero, hcsr, hmmu']
  exact hsettled

include hplaced htables in
/-- So can the part on the second page. -/
theorem reads_second (hlands : c.Lands mode va width off)
    (htrans : c.Translates mode va width c₂) (hout : c.OutsideTables mode va width off)
    (hwrote : Wrote c₂.bus c'.bus width val off) (hc' : c' = { c₂ with bus := c'.bus })
    (hcross : Crosses va width) :
    c'.Reads mode va off (0x1000 - pageOff va) (width.bytes - (0x1000 - pageOff va)) := by
  have hw := width.bytes_le
  have hmem := nextPage_mem_pagesOf hcross
  obtain ⟨hfirst, hfit, _, hnext, hnextOff⟩ := crossing_parts hcross
  have hkept : ∀ n, Paged c.csr.satp mode (nextPage va) n →
      c.mmu.slotHits c.csr.satp (nextPage va) = false →
        KeepsTables c.csr.satp (nextPage va) c₂.bus c'.bus :=
    fun _ hp hmiss => hout.keepsTables hplaced htrans hwrote hmem hp hmiss
  obtain ⟨hframe, hbase, hlen⟩ := htrans.frame
  obtain ⟨pa, c₁, ht, hsecond, -⟩ := htrans
  obtain ⟨hkeep, -, pa', ht'⟩ := hsecond hcross
  obtain ⟨hmmu', -⟩ := translateOrTrap_eq_ok ht'
  obtain ⟨hslot, hcsr₁⟩ := nextPage_slot ht
  have hpage : (nextPage va).toNat % 4096 + (width.bytes - (0x1000 - pageOff va)) ≤ 4096 := by omega
  obtain ⟨pa₂, s₂, hstore, hoff, hrun, hadd⟩ := hlands.part .store nofun
    (show (0x1000 - pageOff va) + (width.bytes - (0x1000 - pageOff va)) ≤ width.bytes by omega)
    (by omega) (by rw [← hnext]; exact hpage)
  obtain ⟨_, _, hload, -⟩ := hlands _ hfit .load nofun
  rw [← hnext] at hstore hload hoff
  -- both answer after the first translation as they did before it
  obtain ⟨s₂', hstore₁⟩ := second_translation hplaced (htables _ hmem) ht hkeep hstore
  obtain ⟨s₃, hload₁⟩ := second_translation hplaced (htables _ hmem) ht hkeep hload
  rw [hcsr₁, hstore₁] at hmmu'
  cases hmmu'
  have hhits : c₁.mmu.slotHits c.csr.satp (nextPage va) =
      c.mmu.slotHits c.csr.satp (nextPage va) := slotHits_congr hslot
  have hram : WalksRam (c₁.mmu, c₁.bus) c.csr.satp mode (nextPage va) := by
    intro n hp hmiss
    have hmiss' : c.mmu.slotHits c.csr.satp (nextPage va) = false := hhits.symm.trans hmiss
    exact (hkeep hmiss').inRam (htables _ hmem n hp hmiss')
  have hsettled := settled_of_store hstore₁ hload₁ hram rfl
    fun n hp hmiss => hkept n hp (hhits.symm.trans hmiss)
  have hcsr : c'.csr = c.csr := by rw [hc', hframe]
  have hmmu₂ : c'.mmu = c₂.mmu := by rw [hc']
  refine ⟨by rw [← hnext]; exact hpage, pa', ?_, by rw [← hnext]; exact hoff,
    hrun.congr (hwrote.base.trans hbase) (hwrote.len.trans hlen), hadd⟩
  rw [← hnext, hcsr, hmmu₂]
  exact hsettled

end

/-! ## Data bytes -/

section

variable (hplaced : Placed c.mmu)
  (htables : ∀ p ∈ pagesOf va width, WalksRam (c.mmu, c.bus) c.csr.satp mode p)

include hplaced htables in
/-- What the translation of the first page leaves in a data byte. -/
theorem first_byte {pa : U64} {o : Nat} (hdata : c.DataByte mode va width o)
    (h : translateOrTrap mode va access c = some (.ok pa, c₁)) :
    (∀ x, c.RewritesAt mode access va o x → c₁.bus.ram.byte o = x) ∧
      ((∀ x, ¬ c.RewritesAt mode access va o x) → c₁.bus.ram.byte o = c.bus.ram.byte o) :=
  translate_byte hplaced (htables va (mem_pagesOf va width))
    (fun _ => hdata va (mem_pagesOf va width)) (translateOrTrap_eq_ok h).1

include hplaced htables in
/-- What the translation of the second page leaves in a data byte. -/
theorem second_byte {pa pa' : U64} {o : Nat} (hcross : Crosses va width)
    (hdata : c.DataByte mode va width o)
    (hkeep : c.mmu.slotHits c.csr.satp (nextPage va) = false →
      KeepsTables c.csr.satp (nextPage va) c.bus c₁.bus)
    (h : translateOrTrap mode va access c = some (.ok pa, c₁))
    (h' : translateOrTrap mode (nextPage va) access c₁ = some (.ok pa', c₂)) :
    (∀ x, c.RewritesAt mode access (nextPage va) o x → c₂.bus.ram.byte o = x) ∧
      ((∀ x, ¬ c.RewritesAt mode access (nextPage va) o x) →
        c₂.bus.ram.byte o = c₁.bus.ram.byte o) := by
  have hmem := nextPage_mem_pagesOf hcross
  obtain ⟨hslot, hcsr⟩ := nextPage_slot h
  obtain ⟨hbase, hlen⟩ := translateOrTrap_placement h
  have hmmu := (translateOrTrap_eq_ok h').1
  rw [hcsr] at hmmu
  have hmiss : c₁.mmu.slotHits c.csr.satp (nextPage va) = false →
      c.mmu.slotHits c.csr.satp (nextPage va) = false := (slotHits_congr hslot).symm.trans
  have hbyte := translate_byte (o := o) (hplaced.translate (translateOrTrap_eq_ok h).1)
    (fun n hp hh => (hkeep (hmiss hh)).inRam (htables _ hmem n hp (hmiss hh)))
    (fun hh n hp a ha off ho => by
      rw [(hkeep (hmiss hh)).slots] at ha
      rw [Bus.offset_congr hbase hlen] at ho
      exact hdata _ hmem n hp a ha off ho) hmmu
  have hiff : ∀ x,
      Rewrites (c₁.mmu, c₁.bus) c.csr.satp mode c.csr.mstatus (nextPage va) access o x ↔
        c.RewritesAt mode access (nextPage va) o x := fun x => rewrites_congr hslot hbase hlen
  simp only [hiff] at hbyte
  exact hbyte

include hplaced htables in
/-- The data bytes that a store does not write are as before exactly when no rebuilt word changes
one. -/
theorem wroteData_iff (htrans : c.Translates mode va width c₂)
    (hwrote : Wrote c₂.bus c'.bus width val off) :
    c.WroteData c'.bus.ram mode va width val off ↔ c.Clean mode va width off := by
  have hrest : ∀ {o}, (∀ i < width.bytes, o ≠ off i) → c'.bus.ram.byte o = c₂.bus.ram.byte o :=
    fun h => hwrote.rest _ h
  obtain ⟨pa, c₁, ht, hcross, hwithin⟩ := htrans
  constructor
  · rintro ⟨-, hsame⟩
    refine ⟨fun o hout hdata x hx => ?_, fun hc o hout hdata y hy => ?_⟩
    · have hkept := (hrest hout).symm.trans (hsame o hout hdata)
      have hfirst := (first_byte hplaced htables hdata ht).1 x hx
      by_cases hlast : Crosses va width ∧ ∃ y, c.RewritesAt mode .store (nextPage va) o y
      · exact Or.inr hlast
      · refine Or.inl (hfirst.symm.trans ?_)
        by_cases hc : Crosses va width
        · obtain ⟨hkeep, -, pa', ht'⟩ := hcross hc
          have hsecond := second_byte hplaced htables hc hdata hkeep ht ht'
          rw [← hsecond.2 fun y hy => hlast ⟨hc, y, hy⟩]
          exact hkept
        · cases hwithin hc
          exact hkept
    · obtain ⟨hkeep, -, pa', ht'⟩ := hcross hc
      have hsecond := (second_byte hplaced htables hc hdata hkeep ht ht').1 y hy
      exact hsecond.symm.trans ((hrest hout).symm.trans (hsame o hout hdata))
  · intro hclean
    refine ⟨hwrote.bytes, fun o hout hdata => (hrest hout).trans ?_⟩
    have hfirst := first_byte hplaced htables hdata ht
    by_cases hlast : Crosses va width ∧ ∃ y, c.RewritesAt mode .store (nextPage va) o y
    · obtain ⟨hc, y, hy⟩ := hlast
      obtain ⟨hkeep, -, pa', ht'⟩ := hcross hc
      rw [(second_byte hplaced htables hc hdata hkeep ht ht').1 y hy]
      exact hclean.second hc o hout hdata y hy
    · have hmid : c₂.bus.ram.byte o = c₁.bus.ram.byte o := by
        by_cases hc : Crosses va width
        · obtain ⟨hkeep, -, pa', ht'⟩ := hcross hc
          exact (second_byte hplaced htables hc hdata hkeep ht ht').2 fun y hy => hlast ⟨hc, y, hy⟩
        · cases hwithin hc
          rfl
      rw [hmid]
      by_cases hx : ∃ x, c.RewritesAt mode .store va o x
      · obtain ⟨x, hx⟩ := hx
        rw [hfirst.1 x hx]
        exact (hclean.first o hout hdata x hx).resolve_right hlast
      · exact hfirst.2 fun x h => hx ⟨x, h⟩

include hplaced htables in
/-- A store whose translations spare each other's tables writes its bytes, and they are loaded
back. -/
theorem stored_and_loaded (val : U64) (hlands : c.Lands mode va width off)
    (hout : c.OutsideTables mode va width off) (hspares : c.SparesBoth mode va width) :
    ∃ c₂ c', c.Translates mode va width c₂ ∧ mmuStore mode va width val c = some (.ok (), c') ∧
      Wrote c₂.bus c'.bus width val off ∧
      mmuLoad mode va width c' = some (.ok (truncated width val), c') ∧
      ∃ bytes : Nat → U8, truncated width val = Bytes.readLe bytes 0 width.bytes ∧
        ∀ i < width.bytes, mmuLoad mode (va + BitVec.ofNat 64 i) .b1 c' =
          some (.ok ((bytes i).setWidth 64), c') := by
  have hw := width.bytes_le
  obtain ⟨c₂, htrans⟩ := translates_of_spares hplaced htables hlands hspares
  obtain ⟨c', hstore, hwrote, hc'⟩ := mmuStore_wrote hplaced htables val hlands htrans
  have hwithin : ¬ Crosses va width → c'.Reads mode va off 0 width.bytes := by
    intro hcross
    rw [Crosses, not_not, pageOff_eq] at hcross
    exact reads_first htables hlands hplaced htrans hout hwrote hc' (Nat.le_refl _)
      width.bytes_pos hcross
  have hacross : Crosses va width → c'.Reads mode va off 0 (0x1000 - pageOff va) ∧
      c'.Reads mode va off (0x1000 - pageOff va) (width.bytes - (0x1000 - pageOff va)) := by
    intro hcross
    obtain ⟨hfirst, hfit, hpage, _, _⟩ := crossing_parts hcross
    rw [show va + BitVec.ofNat 64 0 = va from BitVec.add_zero va] at hpage
    exact ⟨reads_first htables hlands hplaced htrans hout hwrote hc' (by omega) hfirst hpage,
      reads_second hplaced htables hlands htrans hout hwrote hc' hcross⟩
  have hvalue : truncated width val = Bytes.readLe (Bytes.byteAt val) 0 width.bytes :=
    (Bytes.readLe_byteAt val hw).symm
  refine ⟨c₂, c', htrans, hstore, hwrote, ?_, Bytes.byteAt val, hvalue, fun i hi => ?_⟩
  · rw [hvalue]
    exact Reads.whole hwrote.bytes hwithin hacross
  · rw [← hwrote.bytes i hi]
    by_cases hcross : Crosses va width
    · obtain ⟨hfirst, hsecond⟩ := hacross hcross
      by_cases hlow : i < 0x1000 - pageOff va
      · have hbyte := hfirst.byte hlow
        rw [Nat.zero_add] at hbyte
        exact hbyte
      · obtain ⟨j, rfl⟩ := Nat.exists_eq_add_of_le (Nat.le_of_not_lt hlow)
        exact hsecond.byte (by omega)
    · have hbyte := (hwithin hcross).byte hi
      rw [Nat.zero_add] at hbyte
      exact hbyte

end

/-! ## Faults -/

/-- The access is rejected with the given address, and RAM is as it should be then. -/
def Rejects (c : Cpu) (mode : PrivMode) (va : U64) (width : Width) (access : AccessType)
    (tval : U64) (P : Ram → Prop) : Prop :=
  match access with
  | .load => ∃ t c', mmuLoad mode va width c = some (.error t, c') ∧ t.tval = tval ∧ P c'.bus.ram
  | .store => ∀ val, ∃ t c', mmuStore mode va width val c = some (.error t, c') ∧
      t.tval = tval ∧ P c'.bus.ram
  | .fetch => True

theorem translateOrTrap_of_error {f : MmuFault} {s : Mmu × Bus}
    (h : Mmu.translate c.csr.satp mode c.csr.mstatus va access (c.mmu, c.bus) =
      some (.error f, s)) :
    translateOrTrap mode va access c =
      some (.error ⟨f.cause, f.tval⟩, { c with mmu := s.1, bus := s.2 }) := by
  rw [translateOrTrap, Run.zoom, translate, Run.zoom]
  simp only [id_eq, h]
  rfl

/-- An access whose first page faults reports its own address. -/
theorem rejects_first {f : MmuFault} {s : Mmu × Bus}
    (h : Mmu.translate c.csr.satp mode c.csr.mstatus va access (c.mmu, c.bus) =
      some (.error f, s)) : c.Rejects mode va width access va (· = c.bus.ram) := by
  have hrun := translateOrTrap_of_error h
  have htval : f.tval = va := by rcases translate_error h with rfl | rfl <;> rfl
  have hram := translate_error_ram h
  cases access with
  | fetch => trivial
  | load =>
      refine ⟨⟨f.cause, f.tval⟩, { c with mmu := s.1, bus := s.2 }, ?_, htval, hram⟩
      rw [mmuLoad]
      split <;> exact Run.bind_error hrun
  | store =>
      intro val
      refine ⟨⟨f.cause, f.tval⟩, { c with mmu := s.1, bus := s.2 }, ?_, htval, hram⟩
      rw [mmuStore]
      split <;> exact Run.bind_error hrun

/-- An access whose second page faults, once the first one is translated, reports the base of the
second page, and leaves what the first translation left. -/
theorem rejects_second (haccess : access ≠ .fetch) (hcross : Crosses va width) {pa : U64}
    {f : MmuFault} {s : Mmu × Bus} {P : Ram → Prop}
    (hfirst : translateOrTrap mode va access c = some (.ok pa, c₁))
    (h : Mmu.translate c₁.csr.satp mode c₁.csr.mstatus (nextPage va) access (c₁.mmu, c₁.bus) =
      some (.error f, s)) :
    c.Rejects mode va width access (nextPage va) P ↔ P c₁.bus.ram := by
  have hrun := translateOrTrap_of_error h
  have htval : f.tval = nextPage va := by rcases translate_error h with rfl | rfl <;> rfl
  have hram := translate_error_ram h
  cases access with
  | fetch => exact absurd rfl haccess
  | load =>
      have hload : mmuLoad mode va width c =
          some (.error ⟨f.cause, f.tval⟩, { c₁ with mmu := s.1, bus := s.2 }) := by
        rw [mmuLoad, if_neg hcross, Run.bind_ok hfirst, Run.bind_error hrun]
      constructor
      · rintro ⟨t, c', hl, -, hP⟩
        rw [hload] at hl
        cases hl
        rw [← hram]
        exact hP
      · intro hP
        rw [← hram] at hP
        exact ⟨_, _, hload, htval, hP⟩
  | store =>
      have hstore : ∀ val, mmuStore mode va width val c =
          some (.error ⟨f.cause, f.tval⟩, { c₁ with mmu := s.1, bus := s.2 }) := by
        intro val
        rw [mmuStore, if_neg hcross, Run.bind_ok hfirst, Run.bind_error hrun]
      constructor
      · intro hall
        obtain ⟨t, c', hs, -, hP⟩ := hall 0
        rw [hstore] at hs
        cases hs
        rw [← hram]
        exact hP
      · intro hP val
        rw [← hram] at hP
        exact ⟨_, _, hstore val, htval, hP⟩

/-- RAM has every data byte of the hart. -/
def SameBytes (c : Cpu) (mode : PrivMode) (va : U64) (width : Width) (ram : Ram) : Prop :=
  ∀ o, c.DataByte mode va width o → ram.byte o = c.bus.ram.byte o

/-- The word that the translation of the first page rebuilds changes no data byte. -/
def CleanAt (c : Cpu) (mode : PrivMode) (access : AccessType) (va : U64) (width : Width) : Prop :=
  ∀ o, c.DataByte mode va width o → ∀ x, c.RewritesAt mode access va o x → x = c.bus.ram.byte o

theorem rejectsSecond_iff (hplaced : Placed c.mmu) (haccess : access ≠ .fetch)
    (hcross : Crosses va width)
    (htables : ∀ p ∈ pagesOf va width, WalksRam (c.mmu, c.bus) c.csr.satp mode p)
    (hspares : c.SparesAt mode access va (nextPage va)) {pa : U64} {f : MmuFault} {s s' : Mmu × Bus}
    (hfirst : Mmu.translate c.csr.satp mode c.csr.mstatus va access (c.mmu, c.bus) =
      some (.ok pa, s))
    (hsecond : Mmu.translate c.csr.satp mode c.csr.mstatus (nextPage va) access (c.mmu, c.bus) =
      some (.error f, s')) :
    c.Rejects mode va width access (nextPage va) (c.SameBytes mode va width) ↔
      c.CleanAt mode access va width := by
  have ht := translateOrTrap_of hfirst
  obtain ⟨s₂, hs₂⟩ := second_translation hplaced (htables _ (nextPage_mem_pagesOf hcross)) ht
    (fun hmiss => translate_keepsTables hplaced (hspares hmiss) hfirst) hsecond
  rw [rejects_second haccess hcross ht hs₂]
  constructor
  · intro hsame o hdata x hx
    exact ((first_byte hplaced htables hdata ht).1 x hx).symm.trans (hsame o hdata)
  · intro hclean o hdata
    by_cases hx : ∃ x, c.RewritesAt mode access va o x
    · obtain ⟨x, hx⟩ := hx
      exact ((first_byte hplaced htables hdata ht).1 x hx).trans (hclean o hdata x hx)
    · exact (first_byte hplaced htables hdata ht).2 fun x h => hx ⟨x, h⟩

/-! ## The result -/

theorem lands_of_translations {f : Nat → U64} (h : ∀ i < width.bytes, ∀ access ∈ [.load, .store],
    (Mmu.translate c.csr.satp mode c.csr.mstatus (va + BitVec.ofNat 64 i) access
      (c.mmu, c.bus)).map Prod.fst = some (.ok (f i)) ∧
    region (f i) = .ram ∧ c.bus.offset (f i) .b1 = .ok (off i)) : c.Lands mode va width off := by
  intro i hi access haccess
  have hmem : access ∈ [AccessType.load, .store] := by
    cases access with
    | fetch => exact absurd rfl haccess
    | load | store => decide
  obtain ⟨ht, hr, ho⟩ := h i hi access hmem
  obtain ⟨⟨r, s⟩, hs, hfst⟩ := Option.map_eq_some_iff.mp ht
  cases hfst
  exact ⟨f i, s, hs, hr, ho⟩

/-- A hart in U-mode with the given words in RAM, which hold its page tables. -/
def pagedHart (words : List (Nat × U64)) : Cpu :=
  let c := Cpu.new ((Bus.new 0x6000 0x8000_0000).withWords words) 0x1000
  { c with mode := .u, csr := { c.csr with satp := 0x8000_0000_0008_0000 } }

/-- Two pages whose frames come in the other order. -/
def swappedHart : Cpu := pagedHart
  [(0x0000, 0x2000_0401), (0x1000, 0x2000_0801), (0x2008, 0x2000_101F), (0x2010, 0x2000_0C1F)]

/-- Where the bytes across the boundary of the two pages are. -/
def swappedOff (i : Nat) : Nat := if i < 4 then 0x4FFC + i else 0x2FFC + i

/-- The words the walks read are in RAM, and the bytes of the access are above them. -/
def tablesBelow (c : Cpu) (va : U64) (width : Width) (off : Nat → Nat) : Bool :=
  (pagesOf va width).all fun p => (tableSlots c.bus c.csr.satp p).all fun a =>
    (pteWord c.bus a).isSome && (List.range width.bytes).all fun i =>
      decide (a.toNat + 8 ≤ c.bus.ramBase.toNat + off i)

theorem tablesBelow_walksRam (h : c.tablesBelow va width off = true) :
    ∀ p ∈ pagesOf va width, WalksRam (c.mmu, c.bus) c.csr.satp mode p := by
  intro p hp _ _ _
  refine tablesInRam_of_slots fun a ha => ?_
  have hslot := List.all_eq_true.mp (List.all_eq_true.mp h p hp) a ha
  rw [Bool.and_eq_true] at hslot
  exact hslot.1

theorem tablesBelow_outside (h : c.tablesBelow va width off = true) :
    c.OutsideTables mode va width off := by
  intro i hi p hp _ _ a ha o ho
  have hslot := List.all_eq_true.mp (List.all_eq_true.mp h p hp) a ha
  rw [Bool.and_eq_true] at hslot
  have habove := of_decide_eq_true (List.all_eq_true.mp hslot.2 i (List.mem_range.mpr hi))
  have hoff := Bus.offset_eq ho
  have hbase := (Bus.offset_ok ho).2.1
  omega

/-- Nothing is cached, so no word is rebuilt. -/
theorem clean_of_misses (hfirst : c.mmu.slotHits c.csr.satp va = false)
    (hsecond : c.mmu.slotHits c.csr.satp (nextPage va) = false) :
    c.Clean mode va width off ∧ c.SparesBoth mode va width := by
  have hnot : ∀ {p}, c.mmu.slotHits c.csr.satp p = false →
      ¬ Rebuilds (c.mmu, c.bus) c.csr.satp mode c.csr.mstatus p .store := by
    intro p hmiss hreb
    have hhit := hreb.1.2.1
    rw [hmiss] at hhit
    cases hhit
  refine ⟨⟨fun o _ _ x hx => absurd hx.1 (hnot hfirst),
    fun _ o _ _ y hy => absurd hy.1 (hnot hsecond)⟩, fun _ => ⟨?_, ?_⟩⟩
  · exact fun _ hreb => absurd hreb (hnot hfirst)
  · exact fun _ hreb => absurd hreb (hnot hsecond)

/-- The unit of a hart that has read a page, after the tables were moved: the leaf is in another
table, and its word now holds data. -/
def movedHart : Cpu :=
  { pagedHart [(0x0000, 0x2000_0401), (0x1000, 0x2000_1401), (0x5008, 0x2000_0C1F)] with
    mmu := taggedWarm.1 }

/-- The words of the tables that a walk of the page reads. -/
theorem movedHart_slots : ∀ p ∈ pagesOf 0x1000 .b1,
    ∀ a ∈ tableSlots movedHart.bus movedHart.csr.satp p,
      a = 0x8000_0000 ∨ a = 0x8000_1000 ∨ a = 0x8000_5008 := by
  have hslots : (pagesOf 0x1000 .b1).map (tableSlots movedHart.bus movedHart.csr.satp) =
      [[0x8000_0000, 0x8000_1000, 0x8000_5008]] := by decide +kernel
  intro p hp a ha
  have hmem := List.mem_map_of_mem (f := tableSlots movedHart.bus movedHart.csr.satp) hp
  rw [hslots, List.mem_singleton] at hmem
  rw [hmem] at ha
  simpa using ha

/-- They lie below and above the byte that is stored and the one that is written as well. -/
theorem movedHart_offsets : ∀ p ∈ pagesOf 0x1000 .b1,
    ∀ a ∈ tableSlots movedHart.bus movedHart.csr.satp p, ∀ o,
      movedHart.bus.offset a .b8 = .ok o → o = 0 ∨ o = 0x1000 ∨ o = 0x5008 := by
  intro p hp a ha o ho
  have hbase : movedHart.bus.ramBase.toNat = 0x8000_0000 := by decide +kernel
  have hoff := Bus.offset_eq ho
  rw [hbase] at hoff
  rcases movedHart_slots p hp a ha with rfl | rfl | rfl
  · exact .inl hoff
  · exact .inr (.inl hoff)
  · exact .inr (.inr hoff)

end Cpu

end RiscvEmu

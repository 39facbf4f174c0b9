import RiscvEmu.Translation.Tables

/-!
# What a translation writes

A translation writes at most one word, the entry of the leaf it used, to set accessed and dirty
bits.  After a walk the word is the one just read with the bits set.  A hit writes a word rebuilt
from the cache entry, and nothing ensures that memory still holds that entry.  While it does, a
translation leaves all data in RAM alone (`translate_sameData`).
-/

namespace RiscvEmu

namespace Mmu

/-- The accessed and the dirty bit. -/
def usedMask : U64 := 0xC0

/-- The words agree but for the accessed and dirty bits. -/
def SameButUsed (w w' : U64) : Prop := w ||| usedMask = w' ||| usedMask

/-- A leaf entry is stored at an offset of RAM. -/
def LeafAt (b : Bus) (o : Nat) : Prop :=
  ∃ pa w, pteWord b pa = some w ∧ b.offset pa .b8 = .ok o ∧ badPte w = false ∧ leafPte w = true

/-- The buses have the same RAM, but for accessed and dirty bits of leaf entries. -/
structure SameData (b b' : Bus) : Prop where
  base : b'.ramBase = b.ramBase
  len : b'.ram.len = b.ram.len
  byte : ∀ o, b'.ram.byte o = b.ram.byte o ∨
    (LeafAt b o ∧ b'.ram.byte o ||| 0xC0 = b.ram.byte o ||| 0xC0)

/-! ## Words up to their accessed and dirty bits -/

theorem byteAt_usedMask {i : Nat} (hi : i < 8) :
    Bytes.byteAt usedMask i = if i = 0 then 0xC0 else 0 := by
  have h : ∀ i < 8, Bytes.byteAt usedMask i = if i = 0 then 0xC0 else 0 := by decide
  exact h i hi

namespace SameButUsed

variable {w w' : U64}

theorem sameEntry (h : SameButUsed w w') : SameEntry w w' := by
  have hmask : usedMask &&& keyMask = 0#64 := by decide
  have hkey := congrArg (fun v => v &&& keyMask) h
  rw [SameEntry]
  simpa only [BitVec.and_or_distrib_right, hmask, BitVec.or_zero] using hkey

theorem byte_zero (h : SameButUsed w w') :
    Bytes.byteAt w 0 ||| 0xC0 = Bytes.byteAt w' 0 ||| 0xC0 := by
  have hb := congrArg (fun v => Bytes.byteAt v 0) h
  simpa only [Bytes.byteAt_or, byteAt_usedMask (show 0 < 8 by decide), if_true] using hb

theorem byte_pos (h : SameButUsed w w') {i : Nat} (h0 : 0 < i) (h8 : i < 8) :
    Bytes.byteAt w i = Bytes.byteAt w' i := by
  have hb := congrArg (fun v => Bytes.byteAt v i) h
  simpa only [Bytes.byteAt_or, byteAt_usedMask h8, if_neg (Nat.pos_iff_ne_zero.mp h0),
    BitVec.or_zero, BitVec.ofNat_eq_ofNat] using hb

theorem of_bytes (h0 : Bytes.byteAt w 0 ||| 0xC0 = Bytes.byteAt w' 0 ||| 0xC0)
    (hpos : ∀ i, 0 < i → i < 8 → Bytes.byteAt w i = Bytes.byteAt w' i) : SameButUsed w w' := by
  apply Bytes.eq_of_byteAt
  intro i hi
  rw [Bytes.byteAt_or, Bytes.byteAt_or, byteAt_usedMask hi]
  cases i with
  | zero => exact h0
  | succ i => rw [hpos _ (Nat.succ_pos i) hi]

/-- Marking a word as used changes those bits only. -/
theorem markUsed (w : U64) (access : AccessType) : SameButUsed w (Mmu.markUsed w access) := by
  have hA : pteA ||| usedMask = usedMask := by decide
  have hD : pteD ||| usedMask = usedMask := by decide
  rw [SameButUsed, Mmu.markUsed]
  split <;> simp only [BitVec.or_assoc, hA, hD]

end SameButUsed

/-! ## Buses with the same data -/

namespace SameData

variable {b b' b'' : Bus}

theorem ofRam (hbase : b'.ramBase = b.ramBase) (hram : b'.ram = b.ram) : SameData b b' :=
  ⟨hbase, by rw [hram], fun _ => Or.inl (by rw [hram])⟩

theorem refl (b : Bus) : SameData b b := ofRam rfl rfl

theorem offset (h : SameData b b') (pa : U64) (w : Width) : b'.offset pa w = b.offset pa w :=
  Bus.offset_congr h.base h.len pa w

/-- The words of the second bus are those of the first, but for accessed and dirty bits. -/
theorem word (h : SameData b b') {pa w' : U64} (hw : pteWord b' pa = some w') :
    ∃ w, pteWord b pa = some w ∧ SameButUsed w w' := by
  obtain ⟨hr, ha, off, ho, rfl⟩ := pteWord_eq_some hw
  rw [h.offset] at ho
  refine ⟨_, pteWord_of_ok hr ha ho, SameButUsed.of_bytes ?_ ?_⟩
  · simp only [Bytes.byteAt_readLe _ 8 _ _ (Nat.le_refl 8), Nat.zero_lt_succ, if_true]
    rcases h.byte (off + 0) with heq | ⟨_, hmark⟩
    · rw [heq]
    · exact hmark.symm
  · intro i h0 h8
    simp only [Bytes.byteAt_readLe _ 8 _ _ (Nat.le_refl 8), h8, if_true]
    rcases h.byte (off + i) with heq | ⟨⟨pa', v, hv, ho', _⟩, _⟩
    · exact heq.symm
    · -- entries are aligned, so none starts inside another
      have ha' := (pteWord_eq_some hv).2.1
      have h1 := Bus.offset_eq ho
      have h2 := Bus.offset_eq ho'
      have hb1 := (Bus.offset_ok ho).2.1
      have hb2 := (Bus.offset_ok ho').2.1
      omega

theorem leafAt (h : SameData b b') {o : Nat} (hl : LeafAt b' o) : LeafAt b o := by
  obtain ⟨pa, w', hw', ho, hbad, hleaf⟩ := hl
  obtain ⟨w, hw, hsame⟩ := h.word hw'
  rw [h.offset] at ho
  refine ⟨pa, w, hw, ho, ?_, ?_⟩
  · rw [hsame.sameEntry.badPte_eq, hbad]
  · rw [hsame.sameEntry.leafPte_eq, hleaf]

theorem trans (h : SameData b b') (h' : SameData b' b'') : SameData b b'' := by
  refine ⟨h'.base.trans h.base, h'.len.trans h.len, fun o => ?_⟩
  rcases h'.byte o with heq' | ⟨hl', hmark'⟩
  · rw [heq']
    exact h.byte o
  · refine Or.inr ⟨h.leafAt hl', hmark'.trans ?_⟩
    rcases h.byte o with heq | ⟨_, hmark⟩
    · rw [heq]
    · exact hmark

/-- Rewriting a leaf entry but for its accessed and dirty bits keeps the data. -/
theorem mark {pa w v : U64} (hw : pteWord b pa = some w) (hbad : badPte w = false)
    (hleaf : leafPte w = true) (hv : SameButUsed w v) {r : Except BusFault Unit}
    (hs : Bus.store pa .b8 v b = some (r, b')) : SameData b b' := by
  obtain ⟨hr, ha, off, ho, rfl⟩ := pteWord_eq_some hw
  rw [Bus.store_ram v hr ho] at hs
  cases hs
  refine ⟨rfl, rfl, fun o => ?_⟩
  rw [Bus.setBytes_byte]
  by_cases hin : off ≤ o ∧ o < off + 8
  · obtain ⟨i, rfl⟩ := Nat.exists_eq_add_of_le hin.1
    have h8 : i < 8 := by omega
    rw [Bytes.writeLe_inside _ _ (show i < Width.b8.bytes from h8)]
    have hbyte : Bytes.byteAt (Bytes.readLe b.ram.byte off 8) i = b.ram.byte (off + i) := by
      rw [Bytes.byteAt_readLe _ _ _ _ (Nat.le_refl 8), if_pos h8]
    rw [← hbyte]
    cases i with
    | zero => exact Or.inr ⟨⟨pa, _, hw, ho, hbad, hleaf⟩, hv.byte_zero.symm⟩
    | succ i => exact Or.inl (hv.byte_pos (Nat.succ_pos i) h8).symm
  · have hout : o < off ∨ off + Width.b8.bytes ≤ o := by
      simp only [Width.bytes]
      omega
    exact Or.inl (Bytes.writeLe_outside _ _ hout)

end SameData

/-! ## Walks -/

/-- What a walk finds in RAM is the word at its address. -/
theorem findLeaf_word {addr : U64} {access : AccessType} :
    ∀ {n : Nat} {t : U64} {b b' : Bus} {leaf : Leaf},
      findLeaf addr access n (t <<< 12) b = some (.ok leaf, b') → region leaf.pteAddr = .ram →
        pteWord b' leaf.pteAddr = some leaf.pte
  | 0, _, _, _, _, h, _ => by cases h
  | n + 1, t, b, b', leaf, h, hr => by
      obtain ⟨pte, b₁, hl, hbad, ⟨hleaf, rfl, rfl⟩ | hrest⟩ := findLeaf_succ h
      · have ha := slot_aligned (addr >>> 12) n t
        rw [slot_eq] at ha
        cases ho : b.offset ((t <<< 12) + vpnPart addr n * 8) .b8 with
        | error e => rw [Bus.load_ram_error hr ho] at hl; cases hl
        | ok off =>
            rw [Bus.load_ram hr ho] at hl
            cases hl
            exact pteWord_of_ok hr ha ho
      · exact findLeaf_word hrest hr

/-- Looking for a leaf leaves RAM alone. -/
theorem findLeaf_keeps_ram {addr : U64} {access : AccessType} :
    ∀ {n : Nat} {t : U64} {b b' : Bus} {r : Except MmuFault Leaf},
      findLeaf addr access n t b = some (r, b') → b'.ram = b.ram ∧ b'.ramBase = b.ramBase
  | 0, _, _, _, _, h => by
      cases h
      exact ⟨rfl, rfl⟩
  | n + 1, t, b, b', r, h => by
      rw [findLeaf] at h
      cases hl : Bus.load (t + vpnPart addr n * 8) .b8 b with
      | none => simp only [hl] at h; cases h
      | some p =>
          obtain ⟨r₀, b₁⟩ := p
          have hkeep := load_keeps_ram hl
          cases r₀ with
          | error e =>
              simp only [hl] at h
              cases h
              exact hkeep
          | ok pte =>
              simp only [hl] at h
              split at h
              · cases h
                exact hkeep
              · split at h
                · cases h
                  exact hkeep
                · have hrest := findLeaf_keeps_ram h
                  exact ⟨hrest.1.trans hkeep.1, hrest.2.trans hkeep.2⟩

/-- A store outside RAM that does not notify the block device leaves RAM alone. -/
theorem store_device_keeps_ram {addr : U64} {w : Width} {v : U64} {b b' : Bus}
    {r : Except BusFault Unit} (h : Bus.store addr w v b = some (r, b'))
    (hr : region addr ≠ .ram) (hn : ¬ Bus.Notifies addr) :
    b'.ram = b.ram ∧ b'.ramBase = b.ramBase := by
  cases hreg : region addr with
  | ram => exact absurd hreg hr
  | clint => rw [Bus.store_clint w b v hreg] at h; cases h; exact ⟨rfl, rfl⟩
  | plic => rw [Bus.store_plic w b v hreg] at h; cases h; exact ⟨rfl, rfl⟩
  | uart => rw [Bus.store_uart w b v hreg] at h; cases h; exact ⟨rfl, rfl⟩
  | virtioBlk => rw [Bus.store_virtioBlk w b v hreg hn] at h; cases h; exact ⟨rfl, rfl⟩

/-- Using the leaf a walk found keeps the data. -/
theorem useLeaf_sameData {leaf : Leaf} {asid : U16} {mode : PrivMode} {mstatus addr : U64}
    {access : AccessType} {s s' : Mmu × Bus} {r : Except MmuFault U64} (hl : LeafFound s.2 leaf)
    (hword : region leaf.pteAddr = .ram → pteWord s.2 leaf.pteAddr = some leaf.pte)
    (h : useLeaf leaf asid mode mstatus addr access s = some (r, s')) : SameData s.2 s'.2 := by
  rcases useLeaf_cases hl.storable h with ⟨_, _, rfl⟩ | ⟨_, _, _, _, ⟨_, hb⟩ | hs⟩
  · exact .refl _
  · rw [hb]
    exact .refl _
  · by_cases hr : region leaf.pteAddr = .ram
    · exact .mark (hword hr) hl.good hl.isLeaf (.markUsed _ _) hs
    · have hkeep := store_device_keeps_ram hs hr hl.storable.1
      exact .ofRam hkeep.2 hkeep.1

/-! ## Hits -/

/-- Memory still holds a cache entry: the word at its address is a leaf that differs from the
word a hit would write by accessed and dirty bits at most. -/
structure Mirrored (e : TlbEntry) (b : Bus) : Prop where
  quiet : ¬ Bus.Notifies e.pteAddr
  held : ∀ off, region e.pteAddr = .ram → b.offset e.pteAddr .b8 = .ok off →
    ∃ w, pteWord b e.pteAddr = some w ∧ badPte w = false ∧ leafPte w = true ∧
      SameButUsed w ((e.ppn <<< 10) ||| e.perm)

/-- The translation is a hit that has to set a bit. -/
def MarksEntry (s : Mmu × Bus) (satp : U64) (mode : PrivMode) (addr : U64) (access : AccessType) :
    Prop :=
  (∃ n, Paged satp mode addr n) ∧ s.1.slotHits satp addr = true ∧
    markUsed (s.1.tlb (tlbIndex (addr >>> 12))).perm access ≠
      (s.1.tlb (tlbIndex (addr >>> 12))).perm

/-- The translation rebuilds the word of a cache entry: it hits, the access is permitted, and a bit
has to be set. -/
def Rebuilds (s : Mmu × Bus) (satp : U64) (mode : PrivMode) (mstatus addr : U64)
    (access : AccessType) : Prop :=
  MarksEntry s satp mode addr access ∧
    checkPerms (s.1.tlb (tlbIndex (addr >>> 12))).perm mstatus mode access addr = .ok ()

/-- If the translation rebuilds the word of a cache entry, memory still holds the entry. -/
def Faithful (s : Mmu × Bus) (satp : U64) (mode : PrivMode) (mstatus addr : U64)
    (access : AccessType) : Prop :=
  Rebuilds s satp mode mstatus addr access →
    Mirrored (s.1.tlb (tlbIndex (addr >>> 12))) s.2

/-- Writing back a cache entry that memory still holds keeps the data. -/
theorem Mirrored.store {e : TlbEntry} {b b' : Bus} (h : Mirrored e b) {access : AccessType}
    {r : Except BusFault Unit}
    (hs : Bus.store e.pteAddr .b8 (writeBack e access) b = some (r, b')) : SameData b b' := by
  by_cases hr : region e.pteAddr = .ram
  · cases ho : b.offset e.pteAddr .b8 with
    | error f =>
        rw [Bus.store_ram_error _ hr ho] at hs
        cases hs
        exact .refl _
    | ok off =>
        obtain ⟨w, hw, hbad, hleaf, hsame⟩ := h.held off hr ho
        refine .mark hw hbad hleaf (hsame.trans ?_) hs
        have hmark : SameButUsed e.perm (markUsed e.perm access) := .markUsed _ _
        rw [writeBack, BitVec.or_assoc, BitVec.or_assoc, show e.perm ||| usedMask = _ from hmark]
  · have hkeep := store_device_keeps_ram hs hr h.quiet
    exact .ofRam hkeep.2 hkeep.1

/-- A translation leaves every slot but that of its page alone. -/
theorem translate_tlb_of_ne {satp mstatus addr : U64} {mode : PrivMode} {access : AccessType}
    {s s' : Mmu × Bus} {r : Except MmuFault U64} {i : Fin 64} (hi : i ≠ tlbIndex (addr >>> 12))
    (h : translate satp mode mstatus addr access s = some (r, s')) : s'.1.tlb i = s.1.tlb i := by
  cases translate_ended h with
  | bare | noncanonical | unmapped => rfl
  | hit _ _ hr =>
      rcases hit_cases hr with ⟨_, _, rfl⟩ | ⟨_, _, hm, _⟩
      · rfl
      · rw [hm]
        exact Function.update_of_ne hi _ _
  | @leaf n leaf b _ _ _ _ _ hfound hu =>
      rcases useLeaf_cases hfound.storable hu with ⟨_, _, rfl⟩ | ⟨_, _, _, hm, _⟩
      · rfl
      · rw [hm, fill]
        split
        · exact Function.update_of_ne hi _ _
        · rfl

/-- A translation whose hits are faithful keeps the data. -/
theorem translate_sameData {satp mstatus addr : U64} {mode : PrivMode} {access : AccessType}
    {s s' : Mmu × Bus} {r : Except MmuFault U64} (hf : Faithful s satp mode mstatus addr access)
    (h : translate satp mode mstatus addr access s = some (r, s')) : SameData s.2 s'.2 := by
  cases translate_ended h with
  | bare | noncanonical => exact .refl _
  | unmapped _ _ hl =>
      have hkeep := findLeaf_keeps_ram hl
      exact .ofRam hkeep.2 hkeep.1
  | hit hp hh hr =>
      rcases hit_cases hr with ⟨_, _, rfl⟩ | ⟨hc, _, _, ⟨_, hb⟩ | ⟨rs, hs⟩⟩
      · exact .refl _
      · rw [hb]
        exact .refl _
      · by_cases hne : markUsed (s.1.tlb (tlbIndex (addr >>> 12))).perm access =
            (s.1.tlb (tlbIndex (addr >>> 12))).perm
        · rw [hit] at hr
          split at hr
          · cases hr
            exact .refl _
          · rw [if_neg (not_not.mpr hne)] at hr
            cases hr
            exact .refl _
        · exact (hf ⟨⟨⟨_, hp⟩, hh, hne⟩, hc⟩).store hs
  | leaf hp hh hl hfound hu =>
      have hkeep := findLeaf_keeps_ram hl
      have hword := findLeaf_word (t := satp &&& 0x0FFF_FFFF_FFFF) hl
      exact (SameData.ofRam hkeep.2 hkeep.1).trans (useLeaf_sameData hfound hword hu)

end Mmu

end RiscvEmu

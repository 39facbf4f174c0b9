import RiscvEmu.Translation.Settled

/-!
# Where a rebuilt word goes

A hit that has to set a bit writes the word of its cache entry to the address that the entry
remembers, whatever lies there by now.  A translation that does so changes the bytes of that word
and no others (`translate_byte`), and it keeps the tables of every address whose walk does not read
the word, or reads in it what is written up to marks (`translate_keepsTables`).
-/

namespace RiscvEmu

namespace Mmu

variable {s s' : Mmu × Bus} {satp mstatus addr : U64} {mode : PrivMode} {access : AccessType}
  {r : Except MmuFault U64} {o : Nat} {x : U8}

/-- The entry of the slot in which an address is looked up. -/
def slotEntry (m : Mmu) (addr : U64) : TlbEntry := m.tlb (tlbIndex (addr >>> 12))

/-- The translation rebuilds the word of a cache entry, and this writes a byte of RAM. -/
def Rewrites (s : Mmu × Bus) (satp : U64) (mode : PrivMode) (mstatus addr : U64)
    (access : AccessType) (o : Nat) (x : U8) : Prop :=
  Rebuilds s satp mode mstatus addr access ∧ region (slotEntry s.1 addr).pteAddr = .ram ∧
    ∃ off, s.2.offset (slotEntry s.1 addr).pteAddr .b8 = .ok off ∧ off ≤ o ∧ o < off + 8 ∧
      x = Bytes.byteAt (writeBack (slotEntry s.1 addr) access) (o - off)

/-- The byte is none of the page-table words that the walk of the address reads. -/
def OffTables (b : Bus) (satp : U64) (mode : PrivMode) (addr : U64) (o : Nat) : Prop :=
  ∀ n, Paged satp mode addr n → ∀ a ∈ tableSlots b satp addr, ∀ off, b.offset a .b8 = .ok off →
    o < off ∨ off + 8 ≤ o

/-- Where a word that is rebuilt lies in the tables of an address, it is marked only. -/
def Spares (s : Mmu × Bus) (satp : U64) (mode : PrivMode) (mstatus addr : U64)
    (access : AccessType) (q : U64) : Prop :=
  Rebuilds s satp mode mstatus addr access →
    (slotEntry s.1 addr).pteAddr ∈ tableSlots s.2 satp q →
      ∀ w, pteWord s.2 (slotEntry s.1 addr).pteAddr = some w →
        Marked w (writeBack (slotEntry s.1 addr) access)

/-! ## What is looked up in a slot -/

theorem slotHits_congr {m m' : Mmu} {satp p : U64} (h : slotEntry m' p = slotEntry m p) :
    m'.slotHits satp p = m.slotHits satp p := by
  rw [slotEntry, slotEntry] at h
  rw [slotHits, slotHits, h]

/-- What a translation rebuilds is settled by its cache slot. -/
theorem rebuilds_congr {m m' : Mmu} {b b' : Bus} {satp mstatus p : U64}
    (h : slotEntry m' p = slotEntry m p) :
    Rebuilds (m', b') satp mode mstatus p access ↔ Rebuilds (m, b) satp mode mstatus p access := by
  rw [slotEntry, slotEntry] at h
  rw [Rebuilds, Rebuilds, MarksEntry, MarksEntry, slotHits, slotHits]
  simp only [h]

theorem rewrites_congr {m m' : Mmu} {b b' : Bus} {satp mstatus p : U64} {o : Nat} {x : U8}
    (h : slotEntry m' p = slotEntry m p) (hbase : b'.ramBase = b.ramBase)
    (hlen : b'.ram.len = b.ram.len) :
    Rewrites (m', b') satp mode mstatus p access o x ↔
      Rewrites (m, b) satp mode mstatus p access o x := by
  have hreb : Rebuilds (m', b') satp mode mstatus p access ↔
      Rebuilds (m, b) satp mode mstatus p access := rebuilds_congr h
  simp only [Rewrites, h, Bus.offset_congr hbase hlen, hreb]

/-! ## The word that is written -/

/-- Marks that a store makes do not undo marks. -/
theorem Marked.between {w w₁ v : U64} (h : Marked w w₁) (h' : Marked w v)
    (hfull : v ||| usedMask = v) : Marked w₁ v := by
  have hsame : v = w₁ ||| usedMask := hfull.symm.trans (h'.same.symm.trans h.same)
  refine ⟨h.same.symm.trans h'.same, ?_⟩
  rw [hsame, ← BitVec.or_assoc, BitVec.or_self]

theorem writeBack_store_full (e : TlbEntry) :
    writeBack e .store ||| usedMask = writeBack e .store := by
  rw [writeBack_eq, BitVec.or_assoc]
  rfl

theorem Placed.entry (hplaced : Placed s.1) (h : s.1.slotHits satp addr = true) :
    ¬ Bus.Notifies (slotEntry s.1 addr).pteAddr ∧ (slotEntry s.1 addr).pteAddr.toNat % 8 = 0 := by
  refine hplaced _ ?_
  rw [slotHits, hits, Bool.and_eq_true, Bool.and_eq_true] at h
  exact h.1.1

/-- A translation that rebuilds the word of an entry writes it back. -/
theorem Rebuilds.stores (hreb : Rebuilds s satp mode mstatus addr access)
    (h : translate satp mode mstatus addr access s = some (r, s')) :
    ∃ rs, Bus.store (slotEntry s.1 addr).pteAddr .b8 (writeBack (slotEntry s.1 addr) access) s.2 =
      some (rs, s'.2) := by
  obtain ⟨⟨⟨n, hp⟩, hh, hne⟩, hc⟩ := hreb
  rw [translate_hit hp hh] at h
  rcases hit_cases h with ⟨hfail, _⟩ | ⟨_, _, _, ⟨heq, _⟩ | hs⟩
  · rw [hc] at hfail
    cases hfail
  · exact absurd heq hne
  · exact hs

/-- A hit that rebuilds no word leaves the bus alone. -/
theorem bus_of_hit {n : Nat} (hp : Paged satp mode addr n) (hh : s.1.slotHits satp addr = true)
    (hnot : ¬ Rebuilds s satp mode mstatus addr access)
    (h : translate satp mode mstatus addr access s = some (r, s')) : s'.2 = s.2 := by
  rw [translate_hit hp hh, hit] at h
  cases hc : checkPerms (s.1.tlb (tlbIndex (addr >>> 12))).perm mstatus mode access addr with
  | error f =>
      simp only [hc] at h
      cases h
      rfl
  | ok u =>
      have heq : ¬ markUsed (s.1.tlb (tlbIndex (addr >>> 12))).perm access ≠
          (s.1.tlb (tlbIndex (addr >>> 12))).perm := fun hne => hnot ⟨⟨⟨n, hp⟩, hh, hne⟩, hc⟩
      simp only [hc] at h
      rw [if_neg heq] at h
      cases h
      rfl

/-- A translation that rebuilds no word changes no byte outside the tables of its address. -/
theorem byte_of_not_rebuilds (hram : WalksRam s satp mode addr)
    (hoff : s.1.slotHits satp addr = false → OffTables s.2 satp mode addr o)
    (hnot : ¬ Rebuilds s satp mode mstatus addr access)
    (h : translate satp mode mstatus addr access s = some (r, s')) :
    s'.2.ram.byte o = s.2.ram.byte o := by
  cases translate_ended h with
  | bare | noncanonical => rfl
  | unmapped _ _ hl => rw [(findLeaf_keeps_ram hl).1]
  | hit hp hh _ => rw [bus_of_hit hp hh hnot h]
  | @leaf n leaf b _ _ hp hh hl hfound hu =>
      obtain ⟨rfl, hword, -⟩ :=
        (KeepsTables.refl s.2).leaf_again hp.depth (hram n hp hh) hl access
      rcases useLeaf_cases hfound.storable hu with ⟨_, _, rfl⟩ | ⟨_, _, _, _, ⟨_, hb⟩ | hs⟩
      · rfl
      · rw [hb]
      · -- the word of the leaf is one of those the walk read
        obtain ⟨hr, _, off, ho, _⟩ := pteWord_eq_some hword
        have hmem : leaf.pteAddr ∈ tableSlots s.2 satp addr := by
          rw [tableSlots, hp.depth]
          have hwalk : findLeaf addr access n (rootOf satp) s.2 = _ :=
            findLeaf_eq_find addr access (hram n hp hh n hp.depth)
          rw [hwalk] at hl
          generalize hfind : (tableSearch (addr >>> 12)).find (pteWord s.2) n
            (satp &&& 0x0FFF_FFFF_FFFF) = out at hl
          cases out with
          | unreadable => cases hl
          | bad => cases hl
          | leaf rem a w =>
              cases hl
              exact Radix.Search.find_leaf_mem_visits hfind
        have hout := hoff hh n hp _ hmem off ho
        rw [Bus.store_ram _ hr ho] at hs
        generalize s'.2 = b' at hs ⊢
        cases hs
        exact Bytes.writeLe_outside _ _ (by simp only [Width.bytes]; omega)

/-- What a translation leaves in a byte outside the tables of its address. -/
theorem translate_byte (hplaced : Placed s.1) (hram : WalksRam s satp mode addr)
    (hoff : s.1.slotHits satp addr = false → OffTables s.2 satp mode addr o)
    (h : translate satp mode mstatus addr access s = some (r, s')) :
    (∀ x, Rewrites s satp mode mstatus addr access o x → s'.2.ram.byte o = x) ∧
      ((∀ x, ¬ Rewrites s satp mode mstatus addr access o x) →
        s'.2.ram.byte o = s.2.ram.byte o) := by
  by_cases hreb : Rebuilds s satp mode mstatus addr access
  · obtain ⟨hquiet, _⟩ := hplaced.entry hreb.1.2.1
    obtain ⟨rs, hs⟩ := hreb.stores h
    generalize s'.2 = b' at hs ⊢
    by_cases hr : region (slotEntry s.1 addr).pteAddr = .ram
    · cases ho : s.2.offset (slotEntry s.1 addr).pteAddr .b8 with
      | error f =>
          rw [Bus.store_ram_error _ hr ho] at hs
          cases hs
          refine ⟨fun x hx => ?_, fun _ => rfl⟩
          obtain ⟨_, _, off, ho', _⟩ := hx
          rw [ho] at ho'
          cases ho'
      | ok off =>
          rw [Bus.store_ram _ hr ho] at hs
          cases hs
          by_cases hin : off ≤ o ∧ o < off + 8
          · have hbyte : (s.2.setBytes off Width.b8.bytes
                (writeBack (slotEntry s.1 addr) access)).ram.byte o =
                Bytes.byteAt (writeBack (slotEntry s.1 addr) access) (o - off) := by
              obtain ⟨i, rfl⟩ := Nat.exists_eq_add_of_le hin.1
              have hi : i < Width.b8.bytes := by simp only [Width.bytes]; omega
              rw [Bus.setBytes_byte, Bytes.writeLe_inside _ _ hi, Nat.add_sub_cancel_left]
            refine ⟨fun x hx => ?_, fun hno => ?_⟩
            · obtain ⟨_, _, off', ho', _, _, rfl⟩ := hx
              rw [ho] at ho'
              cases ho'
              exact hbyte
            · exact absurd ⟨hreb, hr, off, ho, hin.1, hin.2, rfl⟩ (hno _)
          · refine ⟨fun x hx => ?_, fun _ => ?_⟩
            · obtain ⟨_, _, off', ho', hlo, hhi, _⟩ := hx
              rw [ho] at ho'
              cases ho'
              exact absurd ⟨hlo, hhi⟩ hin
            · exact Bytes.writeLe_outside _ _ (by simp only [Width.bytes]; omega)
    · have hkeep := store_device_keeps_ram hs hr hquiet
      exact ⟨fun x hx => absurd hx.2.1 hr, fun _ => by rw [hkeep.1]⟩
  · exact ⟨fun x hx => absurd hx.1 hreb, fun _ => byte_of_not_rebuilds hram hoff hreb h⟩

/-- A translation keeps the tables that the word it rebuilds spares. -/
theorem translate_keepsTables (hplaced : Placed s.1) {q : U64}
    (hspares : Spares s satp mode mstatus addr access q)
    (h : translate satp mode mstatus addr access s = some (r, s')) :
    KeepsTables satp q s.2 s'.2 := by
  have hbase := translate_ramBase h
  by_cases hreb : Rebuilds s satp mode mstatus addr access
  · obtain ⟨hquiet, ha⟩ := hplaced.entry hreb.1.2.1
    obtain ⟨rs, hs⟩ := hreb.stores h
    have hlen := (Bus.store_placement hs).2
    generalize s'.2 = b' at hs hbase hlen ⊢
    refine ⟨hbase, hlen, fun a hmem => ?_⟩
    by_cases hr : region (slotEntry s.1 addr).pteAddr = .ram
    · cases ho : s.2.offset (slotEntry s.1 addr).pteAddr .b8 with
      | error f =>
          rw [Bus.store_ram_error _ hr ho] at hs
          cases hs
          exact marked_rel_refl _
      | ok off =>
          rw [Bus.store_ram _ hr ho] at hs
          cases hs
          rw [show Width.b8.bytes = 8 from rfl, pteWord_setBytes hr ha ho]
          by_cases hpa : a = (slotEntry s.1 addr).pteAddr
          · have hword := pteWord_of_ok hr ha ho
            rw [if_pos hpa, hpa, hword]
            exact .some (hspares hreb (hpa ▸ hmem) _ hword)
          · rw [if_neg hpa]
            exact marked_rel_refl _
    · have hkeep := store_device_keeps_ram hs hr hquiet
      rw [pteWord_congr hkeep.1 hkeep.2]
      exact marked_rel_refl _
  · exact ((hplaced.marksLeaf_iff h).mpr fun hx => absurd hx hreb).keepsTables hbase satp q

end Mmu

end RiscvEmu

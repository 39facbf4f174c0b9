import RiscvEmu.Translation.Pages
import RiscvEmu.Translation.WriteBack

/-!
# Translations that repeat

What a translation answers depends on the cache slot of the page and on the page-table words its
walk reads.  It does not depend on their accessed and dirty bits, so it survives the marks of other
translations and every write to RAM that misses these words (`translate_sameResult`).

Once a page has been translated for a store, its entry is accessed and dirty.  From then on the
loads of the page answer without a further effect (`settled_of_store`).
-/

namespace RiscvEmu

namespace Mmu

/-! ## Words that were marked -/

/-- The second word is the first one with accessed and dirty bits set. -/
structure Marked (w w' : U64) : Prop where
  same : SameButUsed w w'
  kept : w ||| w' = w'

namespace Marked

variable {w w' w'' : U64}

theorem refl (w : U64) : Marked w w := ⟨Eq.refl _, BitVec.or_self⟩

theorem trans (h : Marked w w') (h' : Marked w' w'') : Marked w w'' := by
  refine ⟨h.same.trans h'.same, ?_⟩
  calc w ||| w'' = w ||| (w' ||| w'') := by rw [h'.kept]
    _ = w ||| w' ||| w'' := (BitVec.or_assoc _ _ _).symm
    _ = w'' := by rw [h.kept, h'.kept]

theorem sameEntry (h : Marked w w') : SameEntry w w' := h.same.sameEntry

theorem markUsed (w : U64) (access : AccessType) : Marked w (Mmu.markUsed w access) := by
  refine ⟨.markUsed w access, ?_⟩
  rw [markUsed_eq, ← BitVec.or_assoc, BitVec.or_self]

/-- Setting allowed bits marks a word. -/
theorem of_allowed {m : U64} {access : AccessType} (hm : m &&& ~~~allowed access = 0) (w : U64) :
    Marked w (w ||| m) := by
  have hused : allowed access ||| usedMask = usedMask := by cases access <;> decide
  have hm' : m ||| usedMask = usedMask := by
    rw [← hused, ← BitVec.or_assoc, or_allowed hm]
  refine ⟨?_, ?_⟩
  · rw [SameButUsed, BitVec.or_assoc, hm']
  · rw [← BitVec.or_assoc, BitVec.or_self]

/-- A word that needs no mark needs none after it was marked. -/
theorem used {access : AccessType} (h : Marked w w') (hw : Mmu.markUsed w access = w) :
    Mmu.markUsed w' access = w' := by
  rw [markUsed_eq] at hw ⊢
  calc w' ||| allowed access = w ||| w' ||| allowed access := by rw [h.kept]
    _ = w' ||| (w ||| allowed access) := by rw [BitVec.or_comm w w', BitVec.or_assoc]
    _ = w' ||| w := by rw [hw]
    _ = w' := by rw [BitVec.or_comm, h.kept]

end Marked

/-- Words that map alike pass the same permission checks. -/
theorem SameEntry.checkPerms_eq {w w' : U64} (h : SameEntry w w') (mstatus : U64)
    (mode : PrivMode) (access : AccessType) (tval : U64) :
    checkPerms (w' &&& 0xFF) mstatus mode access tval =
      checkPerms (w &&& 0xFF) mstatus mode access tval := by
  rw [checkPerms_byte, checkPerms_byte]
  exact checkPerms_congr h.perm_eq.symm _ _ _ _

/-! ## The tables of an address -/

/-- The addresses of the page-table words the walk of an address reads. -/
def tableSlots (b : Bus) (satp addr : U64) : List U64 :=
  match levels satp with
  | none => []
  | some n => (tableSearch (addr >>> 12)).visits (pteWord b) n (satp &&& 0x0FFF_FFFF_FFFF)

/-- The page-table words the walk of an address reads lie in RAM. -/
def TablesInRam (b : Bus) (satp addr : U64) : Prop :=
  ∀ n, levels satp = some n →
    (tableSearch (addr >>> 12)).Readable (pteWord b) n (satp &&& 0x0FFF_FFFF_FFFF)

theorem tablesInRam_of_slots {b : Bus} {satp addr : U64}
    (h : ∀ a ∈ tableSlots b satp addr, (pteWord b a).isSome = true) : TablesInRam b satp addr := by
  intro n hn
  rw [tableSlots, hn] at h
  exact Radix.Search.readable_iff_visits.mpr h

/-- Where the walk of an address is needed, it reads RAM only. -/
def WalksRam (s : Mmu × Bus) (satp : U64) (mode : PrivMode) (addr : U64) : Prop :=
  ∀ n, Paged satp mode addr n → s.1.slotHits satp addr = false → TablesInRam s.2 satp addr

/-- The second bus has the tables of the first for an address, with accessed and dirty bits set. -/
structure KeepsTables (satp addr : U64) (b b' : Bus) : Prop where
  base : b'.ramBase = b.ramBase
  len : b'.ram.len = b.ram.len
  words : ∀ a ∈ tableSlots b satp addr, Option.Rel Marked (pteWord b a) (pteWord b' a)

theorem marked_rel_refl (x : Option U64) : Option.Rel Marked x x := by
  cases x with
  | none => exact .none
  | some w => exact .some (.refl w)

namespace KeepsTables

variable {satp addr : U64} {b b' b'' : Bus}

theorem refl (b : Bus) : KeepsTables satp addr b b := ⟨rfl, rfl, fun _ _ => marked_rel_refl _⟩

theorem view (w w' : U64) (h : Marked w w') : viewPte w = viewPte w' := viewPte_eq h.sameEntry

/-- The words of a search, once the depth of the tables is known. -/
theorem on (h : KeepsTables satp addr b b') {n : Nat} (hn : levels satp = some n) :
    ∀ a ∈ (tableSearch (addr >>> 12)).visits (pteWord b) n (satp &&& 0x0FFF_FFFF_FFFF),
      Option.Rel Marked (pteWord b a) (pteWord b' a) := by
  have hwords := h.words
  rw [tableSlots, hn] at hwords
  exact hwords

theorem slots (h : KeepsTables satp addr b b') :
    tableSlots b' satp addr = tableSlots b satp addr := by
  rw [tableSlots, tableSlots]
  cases hn : levels satp with
  | none => rfl
  | some n => exact Radix.Search.visits_rel view (h.on hn)

theorem trans (h : KeepsTables satp addr b b') (h' : KeepsTables satp addr b' b'') :
    KeepsTables satp addr b b'' := by
  refine ⟨h'.base.trans h.base, h'.len.trans h.len, fun a ha => ?_⟩
  have hfirst := h.words a ha
  have hsecond := h'.words a (by rw [h.slots]; exact ha)
  cases hx : pteWord b a with
  | none =>
      rw [hx] at hfirst
      cases hy : pteWord b' a with
      | none => rw [hy] at hsecond; exact hsecond
      | some w' => rw [hy] at hfirst; cases hfirst
  | some w =>
      rw [hx] at hfirst
      cases hy : pteWord b' a with
      | none => rw [hy] at hfirst; cases hfirst
      | some w' =>
          rw [hy] at hfirst hsecond
          cases hz : pteWord b'' a with
          | none => rw [hz] at hsecond; cases hsecond
          | some w'' =>
              rw [hz] at hsecond
              cases hfirst with
              | some hw =>
                  cases hsecond with
                  | some hw' => exact .some (hw.trans hw')

theorem inRam (h : KeepsTables satp addr b b') (hram : TablesInRam b satp addr) :
    TablesInRam b' satp addr :=
  fun n hn => (hram n hn).rel_on view (h.on hn)

theorem find (h : KeepsTables satp addr b b') {n : Nat} (hn : levels satp = some n) :
    Radix.Outcome.Rel Marked
      ((tableSearch (addr >>> 12)).find (pteWord b) n (satp &&& 0x0FFF_FFFF_FFFF))
      ((tableSearch (addr >>> 12)).find (pteWord b') n (satp &&& 0x0FFF_FFFF_FFFF)) :=
  Radix.Search.find_rel_on view (h.on hn)

/-- Writing other bytes of RAM keeps the tables. -/
theorem of_bytes (hbase : b'.ramBase = b.ramBase) (hlen : b'.ram.len = b.ram.len)
    (hbytes : ∀ a ∈ tableSlots b satp addr, ∀ off, b.offset a .b8 = .ok off →
      ∀ i < 8, b'.ram.byte (off + i) = b.ram.byte (off + i)) : KeepsTables satp addr b b' := by
  refine ⟨hbase, hlen, fun a ha => ?_⟩
  have hsame : pteWord b' a = pteWord b a := by
    rw [pteWord, pteWord, Bus.offset_congr hbase hlen]
    split
    · cases ho : b.offset a .b8 with
      | error e => rfl
      | ok off => exact congrArg some (Bytes.readLe_congr fun i hi => hbytes a ha off ho i hi)
    · rfl
  rw [hsame]
  exact marked_rel_refl _

/-- Marking a word keeps the tables. -/
theorem of_mark {pa w v : U64} {off : Nat} (hw : pteWord b pa = some w)
    (ho : b.offset pa .b8 = .ok off) (hv : Marked w v) (hram : b'.ram = (b.setBytes off 8 v).ram)
    (hbase : b'.ramBase = b.ramBase) : KeepsTables satp addr b b' := by
  obtain ⟨hr, ha, _⟩ := pteWord_eq_some hw
  refine ⟨hbase, by rw [hram]; rfl, fun a _ => ?_⟩
  rw [pteWord_congr (b := b.setBytes off 8 v) hram hbase, pteWord_setBytes hr ha ho]
  by_cases hpa : a = pa
  · rw [if_pos hpa, hpa, hw]
    exact .some hv
  · rw [if_neg hpa]
    exact marked_rel_refl _

end KeepsTables

/-- Marking the leaf of one address keeps the tables of every address. -/
theorem MarksLeaf.keepsTables {satp addr : U64} {access : AccessType} {b b' : Bus}
    (h : MarksLeaf satp addr access b b') (hbase : b'.ramBase = b.ramBase) (satp' addr' : U64) :
    KeepsTables satp' addr' b b' := by
  rcases h with hram | ⟨leaf, off, m, hmaps, hr, ho, hm, hram⟩
  · refine ⟨hbase, by rw [hram], fun a _ => ?_⟩
    rw [pteWord_congr hram hbase]
    exact marked_rel_refl _
  · exact .of_mark (pteWord_of_ok hr hmaps.aligned_address ho) ho (.of_allowed hm _) hram hbase

section

variable {satp mstatus addr : U64} {mode : PrivMode} {access : AccessType} {m m' m₁ : Mmu}
  {b b' b₁ : Bus} {n : Nat} {leaf : Leaf}

/-- A walk over kept tables finds the leaf again, marked. -/
theorem KeepsTables.leaf_again (hkeep : KeepsTables satp addr b b') (hn : levels satp = some n)
    (hram : TablesInRam b satp addr)
    (h : findLeaf addr access n (rootOf satp) b = some (.ok leaf, b₁)) (access' : AccessType) :
    b₁ = b ∧ pteWord b leaf.pteAddr = some leaf.pte ∧ ∃ w, Marked leaf.pte w ∧
      findLeaf addr access' n (rootOf satp) b' = some (.ok ⟨leaf.rem, leaf.pteAddr, w⟩, b') := by
  have hrel := hkeep.find hn
  have hwalk : findLeaf addr access n (rootOf satp) b = _ :=
    findLeaf_eq_find addr access (hram n hn)
  have hwalk' : findLeaf addr access' n (rootOf satp) b' = _ :=
    findLeaf_eq_find addr access' (hkeep.inRam hram n hn)
  rw [hwalk] at h
  rw [hwalk']
  generalize hfind : (tableSearch (addr >>> 12)).find (pteWord b) n (satp &&& 0x0FFF_FFFF_FFFF) = o
    at hrel h
  generalize (tableSearch (addr >>> 12)).find (pteWord b') n (satp &&& 0x0FFF_FFFF_FFFF) = o'
    at hrel
  cases hrel with
  | unreadable => cases h
  | bad => cases h
  | @leaf rem a w w' hw =>
      cases h
      exact ⟨rfl, (Radix.Search.find_leaf hfind).1, w', hw, rfl⟩

/-- A walk over kept tables fails again where it failed. -/
theorem KeepsTables.error_again (hkeep : KeepsTables satp addr b b') (hn : levels satp = some n)
    (hram : TablesInRam b satp addr) {f : MmuFault}
    (h : findLeaf addr access n (rootOf satp) b = some (.error f, b₁)) :
    findLeaf addr access n (rootOf satp) b' = some (.error f, b') := by
  have hrel := hkeep.find hn
  have hwalk : findLeaf addr access n (rootOf satp) b = _ :=
    findLeaf_eq_find addr access (hram n hn)
  have hwalk' : findLeaf addr access n (rootOf satp) b' = _ :=
    findLeaf_eq_find addr access (hkeep.inRam hram n hn)
  rw [hwalk] at h
  rw [hwalk']
  generalize (tableSearch (addr >>> 12)).find (pteWord b) n (satp &&& 0x0FFF_FFFF_FFFF) = o
    at hrel h
  generalize (tableSearch (addr >>> 12)).find (pteWord b') n (satp &&& 0x0FFF_FFFF_FFFF) = o'
    at hrel
  cases hrel with
  | unreadable => cases h; rfl
  | bad => cases h; rfl
  | leaf _ => cases h

/-! ## Results -/

/-- A translation leaves RAM where it is. -/
theorem translate_placement {r : Except MmuFault U64} {s s' : Mmu × Bus}
    (h : translate satp mode mstatus addr access s = some (r, s')) :
    s'.2.ramBase = s.2.ramBase ∧ s'.2.ram.len = s.2.ram.len := by
  cases translate_ended h with
  | bare | noncanonical => exact ⟨rfl, rfl⟩
  | unmapped _ _ hl =>
      have hkeep := findLeaf_keeps_ram hl
      exact ⟨hkeep.2, by rw [hkeep.1]⟩
  | hit _ _ hr =>
      rcases hit_cases hr with ⟨_, _, rfl⟩ | ⟨_, _, _, ⟨_, hb⟩ | ⟨rs, hs⟩⟩
      · exact ⟨rfl, rfl⟩
      · rw [hb]
        exact ⟨rfl, rfl⟩
      · exact Bus.store_placement hs
  | leaf _ _ hl hfound hu =>
      obtain ⟨hram, hbase⟩ := findLeaf_keeps_ram hl
      rcases useLeaf_cases hfound.storable hu with ⟨_, _, rfl⟩ | ⟨_, _, _, _, ⟨_, hb⟩ | hs⟩
      · exact ⟨hbase, by rw [hram]⟩
      · rw [hb]
        exact ⟨hbase, by rw [hram]⟩
      · have hplace := Bus.store_placement hs
        exact ⟨hplace.1.trans hbase, hplace.2.trans (by rw [hram])⟩

theorem translate_ramBase {r : Except MmuFault U64} {s s' : Mmu × Bus}
    (h : translate satp mode mstatus addr access s = some (r, s')) :
    s'.2.ramBase = s.2.ramBase :=
  (translate_placement h).1

/-- A translation that fails leaves RAM alone. -/
theorem translate_error_ram {f : MmuFault} {s s' : Mmu × Bus}
    (h : translate satp mode mstatus addr access s = some (.error f, s')) :
    s'.2.ram = s.2.ram := by
  generalize hr : (.error f : Except MmuFault U64) = r at h
  cases translate_ended h with
  | bare | noncanonical => rfl
  | unmapped _ _ hl => exact (findLeaf_keeps_ram hl).1
  | hit _ _ hhit =>
      rcases hit_cases hhit with ⟨_, _, rfl⟩ | ⟨_, rfl, _⟩
      · rfl
      · cases hr
  | leaf _ _ hl hfound hu =>
      rcases useLeaf_cases hfound.storable hu with ⟨_, _, rfl⟩ | ⟨_, _, rfl, _⟩
      · exact (findLeaf_keeps_ram hl).1
      · cases hr

/-- Leaves that map alike answer alike. -/
theorem useLeaf_sameResult {leaf' : Leaf} {asid : U16} {r : Except MmuFault U64} {s : Mmu × Bus}
    (hrem : leaf'.rem = leaf.rem) (hpte : SameEntry leaf.pte leaf'.pte)
    (hst : Storable b leaf.pteAddr) (hst' : Storable b' leaf'.pteAddr)
    (h : useLeaf leaf asid mode mstatus addr access (m, b) = some (r, s)) :
    ∃ s', useLeaf leaf' asid mode mstatus addr access (m', b') = some (r, s') := by
  have hperm := hpte.checkPerms_eq mstatus mode access addr
  obtain ⟨r', s', h'⟩ := useLeaf_returns (s := (m', b')) asid mode mstatus addr access hst'
  refine ⟨s', ?_⟩
  rw [h']
  rcases useLeaf_cases hst h with ⟨hfail, rfl, _⟩ | ⟨hal, hc, rfl, _⟩
  · rcases useLeaf_cases hst' h' with ⟨_, rfl, _⟩ | ⟨hal', hc', _⟩
    · rfl
    · rw [hrem, ← hpte.pteNumber_eq] at hal'
      rw [hperm] at hc'
      rw [hal', hc'] at hfail
      rcases hfail with hfail | hfail <;> cases hfail
  · rcases useLeaf_cases hst' h' with ⟨hfail, _, _⟩ | ⟨_, _, rfl, _⟩
    · rw [hrem, ← hpte.pteNumber_eq, hperm, hal, hc] at hfail
      rcases hfail with hfail | hfail <;> cases hfail
    · rw [hrem, hpte.pteNumber_eq]

/-- A translation answers alike in two states that agree in the cache slot of the page and, when
this slot does not answer, in the tables up to marks. -/
theorem translate_sameResult {r : Except MmuFault U64} {s : Mmu × Bus} (hplaced : Placed m)
    (hram : WalksRam (m, b) satp mode addr)
    (hslot : m'.tlb (tlbIndex (addr >>> 12)) = m.tlb (tlbIndex (addr >>> 12)))
    (hkeep : m.slotHits satp addr = false → KeepsTables satp addr b b')
    (h : translate satp mode mstatus addr access (m, b) = some (r, s)) :
    ∃ s', translate satp mode mstatus addr access (m', b') = some (r, s') := by
  cases translate_ended h with
  | bare hbare => exact ⟨_, translate_bare hbare⟩
  | noncanonical hn hm hc => exact ⟨_, translate_noncanonical hn hm hc⟩
  | hit hp hh hr =>
      dsimp only at hh
      have hvalid : (m.tlb (tlbIndex (addr >>> 12))).valid = true := by
        rw [hits, Bool.and_eq_true, Bool.and_eq_true] at hh
        exact hh.1.1
      have hquiet := (hplaced _ hvalid).1
      rw [← hslot] at hquiet hh
      obtain ⟨r', s', hr'⟩ := hit_returns (s := (m', b')) mode mstatus addr access hquiet
      refine ⟨s', ?_⟩
      rw [translate_hit hp hh, hr']
      rcases hit_cases hr with ⟨hc, rfl, _⟩ | ⟨hc, rfl, _⟩
      · rcases hit_cases hr' with ⟨_, rfl, _⟩ | ⟨hc', _⟩
        · rfl
        · dsimp only at hc hc'
          rw [hslot, hc] at hc'
          cases hc'
      · rcases hit_cases hr' with ⟨hc', _⟩ | ⟨_, rfl, _⟩
        · dsimp only at hc hc'
          rw [hslot, hc] at hc'
          cases hc'
        · dsimp only
          rw [hslot]
  | unmapped hp hh hl =>
      have hmiss : hits (m'.tlb (tlbIndex (addr >>> 12))) (addr >>> 12) (asidOf satp) = false := by
        rw [hslot]
        exact hh
      refine ⟨(m', b'), ?_⟩
      rw [translate_walk hp hmiss, walk, (hkeep hh).error_again hp.depth (hram _ hp hh) hl]
  | @leaf n leaf b₁ _ _ hp hh hl hfound hu =>
      have hmiss : hits (m'.tlb (tlbIndex (addr >>> 12))) (addr >>> 12) (asidOf satp) = false := by
        rw [hslot]
        exact hh
      obtain ⟨rfl, -, w, hw, hl'⟩ := (hkeep hh).leaf_again hp.depth (hram _ hp hh) hl access
      have hst := (findLeaf_found hl').1.storable
      obtain ⟨s', hu'⟩ : ∃ s', useLeaf ⟨leaf.rem, leaf.pteAddr, w⟩ (asidOf satp) mode mstatus addr
          access (m', b') = some (r, s') := by
        refine useLeaf_sameResult ?_ hw.sameEntry hfound.storable hst hu
        rfl
      refine ⟨s', ?_⟩
      rw [translate_walk hp hmiss, walk, hl']
      exact hu'

/-! ## Repeated loads -/

/-- A second mark for a store changes nothing, nor does one for a load. -/
theorem markUsed_idem (w : U64) : markUsed (markUsed w .store) .load = markUsed w .store := by
  refine markUsed_load_of_store ?_
  rw [markUsed_eq, markUsed_eq, BitVec.or_assoc, BitVec.or_self]

/-- A hit on an entry that needs no mark has no effect. -/
theorem hit_again {i : Fin 64} (hc : checkPerms (m.tlb i).perm mstatus mode access addr = .ok ())
    (hused : markUsed (m.tlb i).perm access = (m.tlb i).perm) :
    hit i mode mstatus addr access (m, b) = some (.ok (entryAddress (m.tlb i) addr), (m, b)) := by
  rw [hit]
  simp only [hc]
  rw [if_neg (not_not.mpr hused)]
  rfl

/-- A superpage that needs no mark is used without an effect. -/
theorem useLeaf_again {asid : U16} (hsuper : leaf.rem ≠ 0)
    (hal : aligned leaf.rem (pteNumber leaf.pte) = true)
    (hc : checkPerms (leaf.pte &&& 0xFF) mstatus mode access addr = .ok ())
    (hused : markUsed leaf.pte access = leaf.pte) :
    useLeaf leaf asid mode mstatus addr access (m, b) =
      some (.ok (leafAddress leaf.rem (pteNumber leaf.pte) addr), (m, b)) := by
  rw [useLeaf]
  simp only [hal, hc, not_true_eq_false, if_false]
  rw [if_neg (not_not.mpr hused), fill, if_neg hsuper]

/-- A load is permitted by the cache entry that answers it. -/
theorem checkPerms_of_hit {pa : U64} {s : Mmu × Bus} (hp : Paged satp mode addr n)
    (hh : hits (m.tlb (tlbIndex (addr >>> 12))) (addr >>> 12) (asidOf satp) = true)
    (h : translate satp mode mstatus addr access (m, b) = some (.ok pa, s)) :
    checkPerms (m.tlb (tlbIndex (addr >>> 12))).perm mstatus mode access addr = .ok () := by
  rw [translate_hit hp hh] at h
  rcases hit_cases h with ⟨_, hr, _⟩ | ⟨hc, _⟩
  · cases hr
  · exact hc

/-- A load is permitted by the leaf a walk finds. -/
theorem checkPerms_of_walk {pa : U64} {s : Mmu × Bus} {access' : AccessType}
    (hp : Paged satp mode addr n)
    (hh : hits (m.tlb (tlbIndex (addr >>> 12))) (addr >>> 12) (asidOf satp) = false)
    (hl : findLeaf addr access' n (rootOf satp) b = some (.ok leaf, b₁))
    (h : translate satp mode mstatus addr access (m, b) = some (.ok pa, s)) :
    checkPerms (leaf.pte &&& 0xFF) mstatus mode access addr = .ok () := by
  rw [translate_walk hp hh, walk, findLeaf_samePage rfl access hl] at h
  rcases useLeaf_cases (findLeaf_found hl).1.storable h with ⟨_, hr, _⟩ | ⟨_, hc, _⟩
  · cases hr
  · exact hc

/-- Marking the word of a leaf keeps the tables. -/
theorem keepsTables_of_use {pa w v : U64} (hw : pteWord b pa = some w) (hv : Marked w v)
    (hbus : (v = w ∧ b₁ = b) ∨ Bus.store pa .b8 v b = some (.ok (), b₁)) :
    (∀ satp addr, KeepsTables satp addr b b₁) ∧ pteWord b₁ pa = some v := by
  rcases hbus with ⟨rfl, rfl⟩ | hs
  · exact ⟨fun _ _ => .refl _, hw⟩
  · obtain ⟨hr, ha, off, ho, _⟩ := pteWord_eq_some hw
    rw [Bus.store_ram v hr ho] at hs
    cases hs
    refine ⟨fun _ _ => .of_mark hw ho hv rfl rfl, ?_⟩
    exact (pteWord_setBytes hr ha ho pa).trans (if_pos rfl)

/-- Behind a store that hit, a load hits the same entry, which is accessed and dirty now. -/
theorem load_after_hit (hp : Paged satp mode addr n)
    (hh : hits (m.tlb (tlbIndex (addr >>> 12))) (addr >>> 12) (asidOf satp) = true)
    (hc : checkPerms (m.tlb (tlbIndex (addr >>> 12))).perm mstatus mode .load addr = .ok ())
    (hentry : m'.tlb (tlbIndex (addr >>> 12)) =
      { m.tlb (tlbIndex (addr >>> 12)) with
        perm := markUsed (m.tlb (tlbIndex (addr >>> 12))).perm .store }) :
    translate satp mode mstatus addr .load (m', b') =
      some (.ok (entryAddress (m.tlb (tlbIndex (addr >>> 12))) addr), (m', b')) := by
  have hmark := sameEntry_markUsed (m.tlb (tlbIndex (addr >>> 12))).perm .store
  have hh' : hits (m'.tlb (tlbIndex (addr >>> 12))) (addr >>> 12) (asidOf satp) = true := by
    rw [hentry, hits, ← hmark.and_eq (show keyMask &&& pteG = pteG by decide)]
    exact hh
  rw [translate_hit hp hh', hit_again]
  · rw [hentry]
    rfl
  · rw [hentry, ← hc]
    exact (checkPerms_congr hmark.perm_eq _ _ _ _).symm
  · rw [hentry]
    exact markUsed_idem _

/-- Behind a store that filled the cache, a load hits the new entry. -/
theorem load_after_fill (hp : Paged satp mode addr n) (hpage : leaf.rem = 0)
    (hc : checkPerms (leaf.pte &&& 0xFF) mstatus mode .load addr = .ok ())
    (hentry : m'.tlb (tlbIndex (addr >>> 12)) =
      leafEntry leaf (asidOf satp) addr (markUsed leaf.pte .store)) :
    translate satp mode mstatus addr .load (m', b') =
      some (.ok (leafAddress leaf.rem (pteNumber leaf.pte) addr), (m', b')) := by
  have hmark := sameEntry_markUsed leaf.pte .store
  have hh' : hits (m'.tlb (tlbIndex (addr >>> 12))) (addr >>> 12) (asidOf satp) = true := by
    rw [hentry, hits, leafEntry]
    simp
  rw [translate_hit hp hh', hit_again]
  · rw [hentry, hpage, leafAddress_zero]
    rfl
  · rw [hentry, ← hc]
    exact hmark.checkPerms_eq _ _ _ _
  · rw [hentry]
    change markUsed (markUsed leaf.pte .store &&& 0xFF) .load = _
    rw [← markUsed_and_byte, markUsed_idem]
    rfl

/-- Behind a store that used a superpage, a load walks to the same leaf, which needs no mark. -/
theorem load_after_superpage (hp : Paged satp mode addr n) (hsuper : leaf.rem ≠ 0)
    (hh' : hits (m'.tlb (tlbIndex (addr >>> 12))) (addr >>> 12) (asidOf satp) = false)
    (hl : findLeaf addr .store n (rootOf satp) b = some (.ok leaf, b))
    (hram : TablesInRam b satp addr)
    (hal : aligned leaf.rem (pteNumber leaf.pte) = true)
    (hc : checkPerms (leaf.pte &&& 0xFF) mstatus mode .load addr = .ok ())
    (hbus : (markUsed leaf.pte .store = leaf.pte ∧ b₁ = b) ∨
      Bus.store leaf.pteAddr .b8 (markUsed leaf.pte .store) b = some (.ok (), b₁))
    (hkeep : KeepsTables satp addr b₁ b') :
    translate satp mode mstatus addr .load (m', b') =
      some (.ok (leafAddress leaf.rem (pteNumber leaf.pte) addr), (m', b')) := by
  obtain ⟨-, hword, -⟩ := (KeepsTables.refl b).leaf_again hp.depth hram hl .load
  obtain ⟨hkeep₁, hword₁⟩ := keepsTables_of_use hword (.markUsed _ _) hbus
  obtain ⟨-, -, w₁, hw₁, hl₁⟩ := (hkeep₁ satp addr).leaf_again hp.depth hram hl .load
  obtain ⟨-, hword₁', w, hw, hl'⟩ :=
    hkeep.leaf_again hp.depth ((hkeep₁ satp addr).inRam hram) hl₁ .load
  dsimp only at hword₁ hword₁' hw
  rw [hword₁] at hword₁'
  cases hword₁'
  have hpte := (sameEntry_markUsed leaf.pte .store).trans hw.sameEntry
  rw [translate_walk hp hh', walk, hl', hpte.pteNumber_eq]
  apply useLeaf_again
  · exact hsuper
  · rw [← hpte.pteNumber_eq]
    exact hal
  · rw [← hc]
    exact hpte.checkPerms_eq _ _ _ _
  · exact hw.used (markUsed_idem _)

/-- Once a page was translated for a store, a load of it answers alike and has no effect, while its
cache slot and its tables are kept. -/
theorem settled_of_store {pa pa' : U64} {s : Mmu × Bus}
    (hstore : translate satp mode mstatus addr .store (m, b) = some (.ok pa, (m₁, b₁)))
    (hload : translate satp mode mstatus addr .load (m, b) = some (.ok pa', s))
    (hram : WalksRam (m, b) satp mode addr)
    (hslot : m'.tlb (tlbIndex (addr >>> 12)) = m₁.tlb (tlbIndex (addr >>> 12)))
    (hkeep : ∀ n, Paged satp mode addr n → m.slotHits satp addr = false →
      KeepsTables satp addr b₁ b') :
    translate satp mode mstatus addr .load (m', b') = some (.ok pa, (m', b')) := by
  generalize hs₁ : (m₁, b₁) = s₁ at hstore
  generalize hok : (.ok pa : Except MmuFault U64) = r at hstore
  cases translate_ended hstore with
  | bare hbare =>
      cases hok
      exact translate_bare hbare
  | noncanonical => cases hok
  | unmapped => cases hok
  | hit hp hh hr =>
      have hc := checkPerms_of_hit hp hh hload
      rcases hit_cases hr with ⟨_, hres, _⟩ | ⟨_, hres, hm, _⟩
      · rw [hres] at hok
        cases hok
      · rw [hres] at hok
        cases hok
        rw [← hs₁] at hm
        rw [hres]
        refine load_after_hit hp hh hc ?_
        rw [hslot, show m₁ = _ from hm]
        exact Function.update_self _ _ _
  | @leaf n leaf b₂ _ _ hp hh hl hfound hu =>
      have hc := checkPerms_of_walk hp hh hl hload
      obtain ⟨rfl, -⟩ := (KeepsTables.refl b).leaf_again hp.depth (hram _ hp hh) hl .load
      rcases useLeaf_cases hfound.storable hu with ⟨_, hres, _⟩ | ⟨hal, _, hres, hm, hbus⟩
      · rw [hres] at hok
        cases hok
      · rw [hres] at hok
        cases hok
        rw [← hs₁] at hm hbus
        rw [hres]
        by_cases hrem : leaf.rem = 0
        · refine load_after_fill hp hrem hc ?_
          rw [hslot, show m₁ = _ from hm, fill, if_pos hrem]
          exact Function.update_self _ _ _
        · have hmiss :
              hits (m'.tlb (tlbIndex (addr >>> 12))) (addr >>> 12) (asidOf satp) = false := by
            rw [hslot, show m₁ = _ from hm, fill, if_neg hrem]
            exact hh
          exact load_after_superpage hp hrem hmiss hl (hram _ hp hh) hal hc hbus (hkeep n hp hh)

end

end Mmu

end RiscvEmu

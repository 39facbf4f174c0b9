import RiscvEmu.Execution.Isolation
import RiscvEmu.Translation.Settled

/-!
# Address spaces in a memory that is written

Address spaces over the tables of a bus (`Spaces`), whose memory is also written by others, outside
the words that a walk reads.  Each of these words then keeps its meaning: a translation may set its
accessed and dirty bits, and nothing else changes it (`Keeps`).

The cache still holds leaves of the tables at the start (`Held`), so a translation answers with the
reference over these tables, whatever was written meanwhile (`Held.translate`).  In memory it
changes words of the tables only.
-/

namespace RiscvEmu

theorem WroteOnly.mono {P Q : U64 → Prop} {b b' : Bus} (h : WroteOnly P b b')
    (himp : ∀ pa, P pa → Q pa) : WroteOnly Q b b' :=
  ⟨h.base, h.len, fun o => (h.byte o).imp id (himp _)⟩

namespace Mmu

namespace Spaces

variable {b₀ : Bus} (S : Spaces b₀)

/-- The address of a word that a walk in one of the address spaces reads. -/
def Slot (a : U64) : Prop :=
  ∃ asid vpn, S.used asid ∧ a ∈ (tableSearch vpn).visits (pteWord b₀) 3 (S.root asid)

/-- The address of a byte of such a word. -/
def InTables (pa : U64) : Prop := ∃ a, S.Slot a ∧ ∃ i < 8, pa = a + BitVec.ofNat 64 i

/-- The bus has the tables of the address spaces, up to bits that no translation looks at. -/
structure Keeps (b : Bus) : Prop where
  base : b.ramBase = b₀.ramBase
  len : b.ram.len = b₀.ram.len
  words : ∀ a, S.Slot a → Option.Rel SameEntry (pteWord b₀ a) (pteWord b a)

/-- The tables are those at the start, and every valid entry holds a leaf of them. -/
structure Held (s : Mmu × Bus) : Prop where
  tables : S.Keeps s.2
  cached : ∀ i, (s.1.tlb i).valid = true → S.Cached (s.1.tlb i)

variable {S}

/-- A leaf that a search finds is at a slot it visits. -/
theorem slot_of_leaf {asid : U16} (hused : S.used asid) {vpn : U64} {rem : Nat} {a w : U64}
    (h : (tableSearch vpn).find (pteWord b₀) 3 (S.root asid) = .leaf rem a w) : S.Slot a :=
  ⟨asid, vpn, hused, Radix.Search.find_leaf_mem_visits h⟩

namespace Keeps

variable {b b' : Bus}

theorem refl : S.Keeps b₀ := by
  refine ⟨rfl, rfl, fun a _ => ?_⟩
  cases pteWord b₀ a with
  | none => exact .none
  | some w => exact .some (SameEntry.refl w)

/-- The words of one search. -/
theorem on (h : S.Keeps b) {asid : U16} (hused : S.used asid) (vpn : U64) :
    ∀ a ∈ (tableSearch vpn).visits (pteWord b₀) 3 (S.root asid),
      Option.Rel SameEntry (pteWord b₀ a) (pteWord b a) :=
  fun a ha => h.words a ⟨asid, vpn, hused, ha⟩

theorem readable (h : S.Keeps b) {asid : U16} (hused : S.used asid) (vpn : U64) :
    (tableSearch vpn).Readable (pteWord b) 3 (S.root asid) :=
  (S.inRam asid hused vpn).rel_on (fun _ _ => viewPte_eq) (h.on hused vpn)

theorem find_rel (h : S.Keeps b) {asid : U16} (hused : S.used asid) (vpn : U64) :
    Radix.Outcome.Rel SameEntry ((tableSearch vpn).find (pteWord b₀) 3 (S.root asid))
      ((tableSearch vpn).find (pteWord b) 3 (S.root asid)) :=
  Radix.Search.find_rel_on (fun _ _ => viewPte_eq) (h.on hused vpn)

/-- Where the word of a slot lies. -/
theorem place (h : S.Keeps b) {pa w : U64} (hw : pteWord b₀ pa = some w) :
    region pa = .ram ∧ pa.toNat % 8 = 0 ∧ ∃ off, b.offset pa .b8 = .ok off := by
  obtain ⟨hr, ha, off, ho, -⟩ := pteWord_eq_some hw
  exact ⟨hr, ha, off, (Bus.offset_congr h.base h.len pa .b8).trans ho⟩

/-- Replacing a word of the tables by one that maps alike keeps the tables, and it changes the bytes
of that word only. -/
theorem store (h : S.Keeps b) {pa w v : U64} (hslot : S.Slot pa) (hw : pteWord b₀ pa = some w)
    (hv : SameEntry w v) {r : Except BusFault Unit} (hs : Bus.store pa .b8 v b = some (r, b')) :
    S.Keeps b' ∧ WroteOnly S.InTables b b' ∧ b' = { b with ram := b'.ram } := by
  obtain ⟨hr, ha, off, ho⟩ := h.place hw
  have hwrote : WroteOnly S.InTables b b' :=
    WroteOnly.store hr (w := .b8) (fun i hi => ⟨pa, hslot, i, hi, rfl⟩) hs
  rw [Bus.store_ram v hr ho] at hs
  cases hs
  refine ⟨⟨h.base, h.len, fun a ha' => ?_⟩, hwrote, rfl⟩
  rw [show Width.b8.bytes = 8 from rfl, pteWord_setBytes hr ha ho]
  by_cases hpa : a = pa
  · rw [if_pos hpa, hpa, hw]
    exact .some hv
  · rw [if_neg hpa]
    exact h.words a ha'

/-- Writing bytes outside the tables keeps them. -/
theorem wroteOnly (h : S.Keeps b) {P : U64 → Prop} (hP : ∀ pa, P pa → ¬ S.InTables pa)
    (hwrote : WroteOnly P b b') : S.Keeps b' := by
  refine ⟨hwrote.base.trans h.base, hwrote.len.trans h.len, fun a hslot => ?_⟩
  have hsame : pteWord b' a = pteWord b a := by
    rw [pteWord, pteWord, Bus.offset_congr hwrote.base hwrote.len]
    split
    · cases ho : b.offset a .b8 with
      | error e => rfl
      | ok off =>
          refine congrArg some (Bytes.readLe_congr fun i hi => ?_)
          refine (hwrote.byte (off + i)).resolve_right fun hp => hP _ hp ⟨a, hslot, i, hi, ?_⟩
          rw [Bus.address_eq ho]
    · rfl
  rw [hsame]
  exact h.words a hslot

end Keeps

/-- What a translation does besides its answer: it marks words of the tables. -/
structure Marks (S : Spaces b₀) (s s' : Mmu × Bus) : Prop where
  held : S.Held s'
  wrote : WroteOnly S.InTables s.2 s'.2
  devices : s'.2 = { s.2 with ram := s'.2.ram }

theorem Held.same {s : Mmu × Bus} (h : S.Held s) : S.Marks s s := ⟨h, .refl _, rfl⟩

/-- The bus is as before. -/
theorem Held.cache {s s' : Mmu × Bus} (h : S.Held s) (hbus : s'.2 = s.2)
    (hcached : ∀ i, (s'.1.tlb i).valid = true → S.Cached (s'.1.tlb i)) : S.Marks s s' := by
  obtain ⟨m', b'⟩ := s'
  dsimp only at hbus
  subst hbus
  exact ⟨⟨h.tables, hcached⟩, .refl _, rfl⟩

section

variable {s : Mmu × Bus} {satp addr : U64} {mode : PrivMode}

/-- A hit answers with the reference. -/
theorem Held.hit (hheld : S.Held s) (hused : S.used (asidOf satp))
    (hh : hits (s.1.tlb (tlbIndex (addr >>> 12))) (addr >>> 12) (asidOf satp) = true)
    (mode : PrivMode) (mstatus : U64) (access : AccessType) :
    ∃ s', Mmu.hit (tlbIndex (addr >>> 12)) mode mstatus addr access s =
        some (verdict (mapping b₀ (S.root (asidOf satp)) addr) mode mstatus addr access, s') ∧
      S.Marks s s' := by
  have hvalid : (s.1.tlb (tlbIndex (addr >>> 12))).valid = true := by
    rw [hits, Bool.and_eq_true, Bool.and_eq_true] at hh
    exact hh.1.1
  have hc := hheld.cached _ hvalid
  obtain ⟨w, hw, hp, hq⟩ := hc.leaf
  have hword := (Radix.Search.find_leaf hw).1
  have hnot : ¬ Bus.Notifies (s.1.tlb (tlbIndex (addr >>> 12))).pteAddr := by
    rintro ⟨hr, _⟩
    rw [(pteWord_eq_some hword).1] at hr
    cases hr
  rw [hc.mapping hused hh, verdict_perm]
  obtain ⟨r, s', hr⟩ := hit_returns (s := s) mode mstatus addr access hnot
  rcases hit_cases hr with ⟨hperm, rfl, rfl⟩ | ⟨hperm, rfl, hm, hbus⟩
  · exact ⟨s', by rw [hr, hperm], hheld.same⟩
  · have hmark := hc.mark access
    have hcached : ∀ i, (s'.1.tlb i).valid = true → S.Cached (s'.1.tlb i) := by
      intro i hv
      rw [hm] at hv ⊢
      exact cached_update hheld.cached _ (fun _ => hmark) i hv
    refine ⟨s', by rw [hr, hperm], ?_⟩
    rcases hbus with ⟨_, hb⟩ | ⟨rs, hb⟩
    · exact hheld.cache hb hcached
    · have hsame : SameEntry w (writeBack (s.1.tlb (tlbIndex (addr >>> 12))) access) := by
        refine sameEntry_rebuild hp ?_ hmark.byte
        exact hq.trans (sameEntry_markUsed _ access).perm_eq
      obtain ⟨htables, hwrote, hdevices⟩ :=
        hheld.tables.store (slot_of_leaf hc.used hw) hword hsame hb
      exact ⟨⟨htables, hcached⟩, hwrote, hdevices⟩

/-- A walk answers with the reference. -/
theorem Held.walk (hheld : S.Held s) (hused : S.used (asidOf satp))
    (hroot : satp &&& 0x0FFF_FFFF_FFFF = S.root (asidOf satp)) (mode : PrivMode) (mstatus : U64)
    (addr : U64) (access : AccessType) :
    ∃ s', Mmu.walk (asidOf satp) mode mstatus addr access 3 (rootOf satp) s =
        some (verdict (mapping b₀ (S.root (asidOf satp)) addr) mode mstatus addr access, s') ∧
      S.Marks s s' := by
  have hread := hheld.tables.readable hused (addr >>> 12)
  have hf := findLeaf_eq_find addr access hread
  rw [← hroot] at hf
  change findLeaf addr access 3 (rootOf satp) s.2 = _ at hf
  have hrel := hheld.tables.find_rel hused (addr >>> 12)
  have hmap : mapping b₀ (S.root (asidOf satp)) addr =
      mappingOf addr ((tableSearch (addr >>> 12)).find (pteWord s.2) 3 (S.root (asidOf satp))) :=
    mappingOf_eq hrel
  rw [hroot] at hf
  rw [hmap]
  have hne := hread.find_ne_unreadable
  generalize ho₀ : (tableSearch (addr >>> 12)).find (pteWord b₀) 3 (S.root (asidOf satp)) = o₀
    at hrel
  generalize (tableSearch (addr >>> 12)).find (pteWord s.2) 3 (S.root (asidOf satp)) = o
    at hrel hf hne
  cases hrel with
  | unreadable => exact absurd rfl hne
  | bad =>
      refine ⟨s, ?_, hheld.same⟩
      rw [Mmu.walk, hf]
      rfl
  | @leaf rem pteAddr w₀ w hw =>
      have hfound := (findLeaf_found hf).1
      have hword₀ := (Radix.Search.find_leaf ho₀).1
      have hst : Storable s.2 (Leaf.mk rem pteAddr w).pteAddr := hfound.storable
      obtain ⟨r, s', hu⟩ := useLeaf_returns (s := s) (asidOf satp) mode mstatus addr access hst
      have hwalk : Mmu.walk (asidOf satp) mode mstatus addr access 3 (rootOf satp) s =
          some (r, s') := by
        rw [Mmu.walk, hf]
        exact hu
      have hcheck := checkPerms_congr (byte_and_permMask w) mstatus mode access addr
      rcases useLeaf_cases hst hu with ⟨hfail, rfl, rfl⟩ | ⟨hal, hperm, rfl, hm, hbus⟩
      · refine ⟨s', ?_, hheld.same⟩
        rw [hwalk, mappingOf]
        rcases hfail with hal | hperm
        · rw [show aligned rem (pteNumber w) = false from hal]
          rfl
        · cases aligned rem (pteNumber w) with
          | false => rfl
          | true =>
              rw [if_pos rfl, verdict_perm, ← hcheck]
              rw [show checkPerms (w &&& 0xFF) mstatus mode access addr = _ from hperm]
      · have hcached : ∀ i, (s'.1.tlb i).valid = true → S.Cached (s'.1.tlb i) := by
          intro i hv
          rw [hm, fill] at hv ⊢
          by_cases hrem : rem = 0
          · subst hrem
            rw [if_pos rfl] at hv ⊢
            exact cached_update hheld.cached _ (fun _ => cached_leafEntry hused ho₀ hw access) i hv
          · rw [if_neg hrem] at hv ⊢
            exact hheld.cached i hv
        refine ⟨s', ?_, ?_⟩
        · rw [hwalk, mappingOf, show aligned rem (pteNumber w) = true from hal, if_pos rfl,
            verdict_perm, ← hcheck,
            show checkPerms (w &&& 0xFF) mstatus mode access addr = _ from hperm]
        · rcases hbus with ⟨_, hb⟩ | hb
          · exact hheld.cache hb hcached
          · obtain ⟨htables, hwrote, hdevices⟩ := hheld.tables.store (slot_of_leaf hused ho₀) hword₀
              (hw.trans (sameEntry_markUsed w access)) hb
            exact ⟨⟨htables, hcached⟩, hwrote, hdevices⟩

/-- A translation in one of the address spaces answers with the reference over the tables at the
start, and marks words of the tables. -/
theorem Held.translate (hheld : S.Held s) {mstatus : U64} {access : AccessType}
    (hcall : S.Allows (.translate satp mode mstatus addr access)) :
    ∃ s', Mmu.translate satp mode mstatus addr access s =
        some (reference b₀ (S.root (asidOf satp)) mode mstatus addr access, s') ∧
      S.Marks s s' := by
  obtain ⟨hsatp, hused, hroot⟩ := hcall
  have hn := levels_of_sv39 hsatp
  rw [reference]
  by_cases hm : mode = .m
  · exact ⟨s, by rw [translate_bare (Or.inr hm), if_pos hm], hheld.same⟩
  · rw [if_neg hm]
    cases hc : canonical 3 addr with
    | false => exact ⟨s, translate_noncanonical hn hm hc, hheld.same⟩
    | true =>
        have hp : Paged satp mode addr 3 := ⟨hn, hm, hc⟩
        cases hh : hits (s.1.tlb (tlbIndex (addr >>> 12))) (addr >>> 12) (asidOf satp) with
        | true =>
            rw [translate_hit hp hh]
            exact hheld.hit hused hh mode mstatus access
        | false =>
            rw [translate_walk hp hh]
            exact hheld.walk hused hroot mode mstatus addr access

/-- Writing bytes outside the tables keeps them held. -/
theorem Held.wroteOnly {b : Bus} {P : U64 → Prop} (hheld : S.Held s)
    (hP : ∀ pa, P pa → ¬ S.InTables pa) (hwrote : WroteOnly P s.2 b) : S.Held (s.1, b) :=
  ⟨hheld.tables.wroteOnly hP hwrote, hheld.cached⟩

end

end Spaces

end Mmu

end RiscvEmu

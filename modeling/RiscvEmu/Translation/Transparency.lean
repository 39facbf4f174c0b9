import RiscvEmu.Lib.System
import RiscvEmu.Translation.Tables

/-!
# The cache is transparent

Calls of a translation unit whose tables only it modifies, with one root for each address space.
What a virtual address maps to is then a property of the tables the unit was started over
(`mapping`), and so is the result of a translation (`reference`).

The invariant ties each valid entry to the leaf that the search finds for its page in its own
address space, in the tables at the start.  Writing back accessed and dirty bits keeps those
tables up to the bits no translation looks at, so the invariant does not mention the memory the
run has reached.  A unit with a cold cache satisfies the invariant as well, and so both answer
with the reference.
-/

namespace RiscvEmu

namespace Mmu

/-! ## The reference -/

/-- What a leaf maps an address to: the physical address and the permission bits. -/
def mappingOf (addr : U64) : Radix.Outcome U64 U64 → Option (U64 × U64)
  | .leaf rem _ w =>
      if aligned rem (pteNumber w) then
        some (leafAddress rem (pteNumber w) addr, w &&& permMask)
      else none
  | _ => none

/-- What the tables under a root map an address to. -/
def mapping (b : Bus) (root addr : U64) : Option (U64 × U64) :=
  mappingOf addr ((tableSearch (addr >>> 12)).find (pteWord b) 3 root)

/-- The result of an access to a mapping. -/
def verdict (m : Option (U64 × U64)) (mode : PrivMode) (mstatus addr : U64)
    (access : AccessType) : Except MmuFault U64 :=
  match m with
  | none => .error ⟨pfCause access, addr⟩
  | some (pa, perm) =>
      match checkPerms perm mstatus mode access addr with
      | .error f => .error f
      | .ok () => .ok pa

/-- The result of a translation through the tables under a root. -/
def reference (b : Bus) (root : U64) (mode : PrivMode) (mstatus addr : U64)
    (access : AccessType) : Except MmuFault U64 :=
  if mode = .m then .ok addr
  else if canonical 3 addr then verdict (mapping b root addr) mode mstatus addr access
  else .error ⟨pfCause access, addr⟩

/-- Outcomes with words that map alike give the same mapping. -/
theorem mappingOf_eq {addr : U64} {o o' : Radix.Outcome U64 U64}
    (h : Radix.Outcome.Rel SameEntry o o') : mappingOf addr o = mappingOf addr o' := by
  cases h with
  | unreadable => rfl
  | bad => rfl
  | leaf hw => rw [mappingOf, mappingOf, hw.pteNumber_eq, hw.perm_eq]

/-! ## Address spaces -/

/-- Address spaces over the tables of a bus.  Each has one root, its tables lie in RAM, and a
global mapping is the same in all of them. -/
structure Spaces (b : Bus) where
  used : U16 → Prop
  root : U16 → U64
  inRam : ∀ a, used a → ∀ vpn, (tableSearch vpn).Readable (pteWord b) 3 (root a)
  global : ∀ a a', used a → used a' → ∀ addr m, mapping b (root a) addr = some m →
    m.2 &&& pteG ≠ 0 → mapping b (root a') addr = some m

namespace Spaces

variable {b₀ : Bus} (S : Spaces b₀)

/-- A call that translates in one of the address spaces, with Sv39. -/
def Allows : Call → Prop
  | .flush => True
  | .translate satp _ _ _ _ =>
      satp >>> 60 = 8 ∧ S.used (asidOf satp) ∧
        satp &&& 0x0FFF_FFFF_FFFF = S.root (asidOf satp)

/-- An entry holds the leaf of its page in its address space. -/
structure Cached (e : TlbEntry) : Prop where
  used : S.used e.asid
  byte : e.perm &&& 0xFF = e.perm
  leaf : ∃ w, (tableSearch e.vpn).find (pteWord b₀) 3 (S.root e.asid) = .leaf 0 e.pteAddr w ∧
    pteNumber w = e.ppn ∧ w &&& permMask = e.perm &&& permMask

/-- The invariant of a run: the tables are those at the start, and every valid entry holds a leaf
of them. -/
structure Inv (s : Mmu × Bus) : Prop where
  tables : SameTables b₀ s.2
  cached : ∀ i, (s.1.tlb i).valid = true → S.Cached (s.1.tlb i)

variable {S}

theorem inv_cold {s : Mmu × Bus} (h : SameTables b₀ s.2) : S.Inv (Mmu.new, s.2) :=
  ⟨h, fun _ hv => by cases hv⟩

/-- Replacing an entry by one that holds a leaf. -/
theorem cached_update {m : Mmu} (h : ∀ i, (m.tlb i).valid = true → S.Cached (m.tlb i))
    (i : Fin 64) {e : TlbEntry} (he : e.valid = true → S.Cached e) (j : Fin 64)
    (hv : (Function.update m.tlb i e j).valid = true) : S.Cached (Function.update m.tlb i e j) := by
  by_cases hj : j = i
  · subst hj
    rw [Function.update_self] at hv ⊢
    exact he hv
  · rw [Function.update_of_ne hj] at hv ⊢
    exact h j hv

/-- Marking an entry as used keeps what it holds. -/
theorem Cached.mark {e : TlbEntry} (h : S.Cached e) (access : AccessType) :
    S.Cached { e with perm := markUsed e.perm access } := by
  obtain ⟨w, hw, hp, hq⟩ := h.leaf
  refine ⟨h.used, ?_, w, hw, hp, hq.trans (sameEntry_markUsed e.perm access).perm_eq⟩
  change markUsed e.perm access &&& 0xFF = markUsed e.perm access
  rw [markUsed_and_byte, h.byte]

theorem byte_and_permMask (w : U64) : w &&& 0xFF &&& permMask = w &&& permMask := by
  rw [BitVec.and_assoc]
  rfl

/-- A freshly filled entry holds the leaf it was filled from. -/
theorem cached_leafEntry {asid : U16} (hused : S.used asid) {addr pteAddr w₀ w : U64}
    (hfind : (tableSearch (addr >>> 12)).find (pteWord b₀) 3 (S.root asid) = .leaf 0 pteAddr w₀)
    (hw : SameEntry w₀ w) (access : AccessType) :
    S.Cached (leafEntry ⟨0, pteAddr, w⟩ asid addr (markUsed w access)) where
  used := hused
  byte := by
    change markUsed w access &&& 0xFF &&& 0xFF = markUsed w access &&& 0xFF
    rw [BitVec.and_assoc, BitVec.and_self]
  leaf := ⟨w₀, hfind, hw.pteNumber_eq,
    (hw.trans (sameEntry_markUsed w access)).perm_eq.trans (byte_and_permMask _).symm⟩

/-- An entry that answers holds the mapping of the address. -/
theorem Cached.mapping {e : TlbEntry} (h : S.Cached e) {addr : U64} {asid : U16}
    (hused : S.used asid) (hh : hits e (addr >>> 12) asid = true) :
    mapping b₀ (S.root asid) addr = some (entryAddress e addr, e.perm &&& permMask) := by
  obtain ⟨w, hw, hp, hq⟩ := h.leaf
  simp only [hits, Bool.and_eq_true, decide_eq_true_eq] at hh
  obtain ⟨⟨_, hvpn⟩, hspace⟩ := hh
  have hown : Mmu.mapping b₀ (S.root e.asid) addr =
      some (entryAddress e addr, e.perm &&& permMask) := by
    rw [Mmu.mapping, ← hvpn, hw, mappingOf, hp, hq, leafAddress_zero]
    rfl
  rcases hspace with rfl | hglobal
  · exact hown
  · refine S.global _ _ h.used hused _ _ hown ?_
    rw [BitVec.and_assoc]
    exact hglobal

theorem verdict_perm (pa perm : U64) (mode : PrivMode) (mstatus addr : U64)
    (access : AccessType) :
    verdict (some (pa, perm &&& permMask)) mode mstatus addr access =
      match checkPerms perm mstatus mode access addr with
      | .error f => .error f
      | .ok () => .ok pa := by
  have hidem : perm &&& permMask &&& permMask = perm &&& permMask := by
    rw [BitVec.and_assoc, BitVec.and_self]
  rw [verdict, checkPerms_congr hidem]

/-! ## One call -/

section

variable {s : Mmu × Bus} {satp addr : U64} {mode : PrivMode}

/-- A hit answers with the reference and keeps the invariant. -/
theorem hit_reference (hinv : S.Inv s) (hused : S.used (asidOf satp))
    (hh : hits (s.1.tlb (tlbIndex (addr >>> 12))) (addr >>> 12) (asidOf satp) = true)
    (mode : PrivMode) (mstatus : U64) (access : AccessType) :
    ∃ s', hit (tlbIndex (addr >>> 12)) mode mstatus addr access s =
        some (verdict (mapping b₀ (S.root (asidOf satp)) addr) mode mstatus addr access, s') ∧
      S.Inv s' := by
  have hvalid : (s.1.tlb (tlbIndex (addr >>> 12))).valid = true := by
    rw [hits, Bool.and_eq_true, Bool.and_eq_true] at hh
    exact hh.1.1
  have hc := hinv.cached _ hvalid
  obtain ⟨w, hw, hp, hq⟩ := hc.leaf
  have hword := (Radix.Search.find_leaf hw).1
  have hnot : ¬ Bus.Notifies (s.1.tlb (tlbIndex (addr >>> 12))).pteAddr := by
    rintro ⟨hr, _⟩
    rw [(pteWord_eq_some hword).1] at hr
    cases hr
  rw [hc.mapping hused hh, verdict_perm]
  obtain ⟨r, s', hr⟩ := hit_returns (s := s) mode mstatus addr access hnot
  rcases hit_cases hr with ⟨hperm, rfl, rfl⟩ | ⟨hperm, rfl, hm, hbus⟩
  · exact ⟨s', by rw [hr, hperm], hinv⟩
  · refine ⟨s', by rw [hr, hperm], ?_, ?_⟩
    · rcases hbus with ⟨_, hb⟩ | ⟨rs, hb⟩
      · rw [hb]
        exact hinv.tables
      · refine hinv.tables.store hword ?_ hb
        have hmark := hc.mark access
        refine sameEntry_rebuild hp ?_ hmark.byte
        exact hq.trans (sameEntry_markUsed _ access).perm_eq
    · intro i hv
      rw [hm] at hv ⊢
      exact cached_update hinv.cached _ (fun _ => hc.mark access) i hv

/-- A walk answers with the reference and keeps the invariant. -/
theorem walk_reference (hinv : S.Inv s) (hused : S.used (asidOf satp))
    (hroot : satp &&& 0x0FFF_FFFF_FFFF = S.root (asidOf satp)) (mode : PrivMode) (mstatus : U64)
    (addr : U64) (access : AccessType) :
    ∃ s', walk (asidOf satp) mode mstatus addr access 3 (rootOf satp) s =
        some (verdict (mapping b₀ (S.root (asidOf satp)) addr) mode mstatus addr access, s') ∧
      S.Inv s' := by
  have hread₀ := S.inRam _ hused (addr >>> 12)
  have hread := hinv.tables.readable hread₀
  have hf := findLeaf_eq_find addr access hread
  rw [← hroot] at hf
  change findLeaf addr access 3 (rootOf satp) s.2 = _ at hf
  have hrel := hinv.tables.find_rel (addr >>> 12) 3 (S.root (asidOf satp))
  have hmap : mapping b₀ (S.root (asidOf satp)) addr =
      mappingOf addr ((tableSearch (addr >>> 12)).find (pteWord s.2) 3 (S.root (asidOf satp))) :=
    mappingOf_eq hrel
  rw [hroot] at hf
  rw [hmap]
  have hne := hread.find_ne_unreadable
  generalize ho₀ : (tableSearch (addr >>> 12)).find (pteWord b₀) 3 (S.root (asidOf satp)) = o₀
    at hrel
  generalize (tableSearch (addr >>> 12)).find (pteWord s.2) 3 (S.root (asidOf satp)) = o
    at hrel hf hne
  cases hrel with
  | unreadable => exact absurd rfl hne
  | bad =>
      refine ⟨s, ?_, hinv⟩
      rw [walk, hf]
      rfl
  | @leaf rem pteAddr w₀ w hw =>
      have hfound := (findLeaf_found hf).1
      have hword₀ := (Radix.Search.find_leaf ho₀).1
      have hst : Storable s.2 (Leaf.mk rem pteAddr w).pteAddr := hfound.storable
      obtain ⟨r, s', hu⟩ := useLeaf_returns (s := s) (asidOf satp) mode mstatus addr access hst
      have hwalk :
          walk (asidOf satp) mode mstatus addr access 3 (rootOf satp) s = some (r, s') := by
        rw [walk, hf]
        exact hu
      have hcheck := checkPerms_congr (byte_and_permMask w) mstatus mode access addr
      rcases useLeaf_cases hst hu with ⟨hfail, rfl, rfl⟩ | ⟨hal, hperm, rfl, hm, hbus⟩
      · refine ⟨s', ?_, hinv⟩
        rw [hwalk, mappingOf]
        rcases hfail with hal | hperm
        · rw [show aligned rem (pteNumber w) = false from hal]
          rfl
        · cases aligned rem (pteNumber w) with
          | false => rfl
          | true =>
              rw [if_pos rfl, verdict_perm, ← hcheck]
              rw [show checkPerms (w &&& 0xFF) mstatus mode access addr = _ from hperm]
      · refine ⟨s', ?_, ?_, ?_⟩
        · rw [hwalk, mappingOf, show aligned rem (pteNumber w) = true from hal, if_pos rfl,
            verdict_perm, ← hcheck,
            show checkPerms (w &&& 0xFF) mstatus mode access addr = _ from hperm]
        · rcases hbus with ⟨_, hb⟩ | hb
          · rw [hb]
            exact hinv.tables
          · exact hinv.tables.store hword₀ (hw.trans (sameEntry_markUsed w access)) hb
        · intro i hv
          rw [hm, fill] at hv ⊢
          by_cases hrem : rem = 0
          · subst hrem
            rw [if_pos rfl] at hv ⊢
            exact cached_update hinv.cached _ (fun _ => cached_leafEntry hused ho₀ hw access) i hv
          · rw [if_neg hrem] at hv ⊢
            exact hinv.cached i hv

/-- A translation in one of the address spaces answers with the reference and keeps the
invariant. -/
theorem translate_reference (hinv : S.Inv s) {mstatus : U64} {access : AccessType}
    (hcall : S.Allows (.translate satp mode mstatus addr access)) :
    ∃ s', translate satp mode mstatus addr access s =
        some (reference b₀ (S.root (asidOf satp)) mode mstatus addr access, s') ∧
      S.Inv s' := by
  obtain ⟨hsatp, hused, hroot⟩ := hcall
  have hn := levels_of_sv39 hsatp
  rw [reference]
  by_cases hm : mode = .m
  · exact ⟨s, by rw [translate_bare (Or.inr hm), if_pos hm], hinv⟩
  · rw [if_neg hm]
    cases hc : canonical 3 addr with
    | false => exact ⟨s, translate_noncanonical hn hm hc, hinv⟩
    | true =>
        have hp : Paged satp mode addr 3 := ⟨hn, hm, hc⟩
        cases hh : hits (s.1.tlb (tlbIndex (addr >>> 12))) (addr >>> 12) (asidOf satp) with
        | true =>
            rw [translate_hit hp hh]
            exact hit_reference hinv hused hh mode mstatus access
        | false =>
            rw [translate_walk hp hh]
            exact walk_reference hinv hused hroot mode mstatus addr access

end

/-! ## Runs -/

variable (S)

/-- The unit over the bus, started with an empty cache and called in the address spaces. -/
def unit (b₀ : Bus) : System (Mmu × Bus) Call where
  init := fun s => s = (Mmu.new, b₀)
  step := Call.make

/-- The states the unit reaches by allowed calls. -/
abbrev Reachable (s : Mmu × Bus) : Prop := (unit b₀).Reachable (fun _ c => S.Allows c) s

variable {S}

theorem inv_call {s s' : Mmu × Bus} {c : Call} (hinv : S.Inv s) (hc : S.Allows c)
    (h : c.make s = some s') : S.Inv s' := by
  cases c with
  | flush =>
      cases h
      exact ⟨hinv.tables, fun _ hv => by cases hv⟩
  | translate satp mode mstatus addr access =>
      obtain ⟨s₁, hs₁, hinv₁⟩ := translate_reference hinv hc
      rw [Call.make, hs₁] at h
      cases h
      exact hinv₁

theorem Reachable.inv {s : Mmu × Bus} (h : S.Reachable s) : S.Inv s := by
  refine h.invariant (I := S.Inv) ?_ ?_
  · rintro s rfl
    exact inv_cold (s := (Mmu.new, b₀)) (SameTables.refl b₀)
  · intro s c s' hinv hc hs
    exact inv_call hinv hc hs

/-- Every call answers as it would with an empty cache over the same memory. -/
theorem translate_transparent {s : Mmu × Bus} (hs : S.Reachable s) {satp : U64}
    {mode : PrivMode} {mstatus addr : U64} {access : AccessType}
    (hcall : S.Allows (.translate satp mode mstatus addr access)) :
    ∃ r s₁ s₂, translate satp mode mstatus addr access s = some (r, s₁) ∧
      translate satp mode mstatus addr access (Mmu.new, s.2) = some (r, s₂) := by
  obtain ⟨s₁, h₁, _⟩ := translate_reference hs.inv hcall
  obtain ⟨s₂, h₂, _⟩ := translate_reference (inv_cold hs.inv.tables) hcall
  exact ⟨_, s₁, s₂, h₁, h₂⟩

/-- Three levels of tables, each page of which repeats one word: a pointer to the next, and in the
last page a leaf that grants everything. -/
def uniformWord (off : Nat) : U64 :=
  if off < 0x1000 then 0x2000_0401 else if off < 0x2000 then 0x2000_0801 else 0x2000_0CDF

def uniformBus : Bus :=
  { Bus.new 0x5000 0x8000_0000 with
    ram := { byte := fun a => Bytes.byteAt (uniformWord a) (a % 8), len := 0x5000 } }

/-- Every slot of a table page reads the word of that page. -/
theorem pteWord_uniformBus (vpn : U64) (rem : Nat) {t : U64} (k : Nat)
    (ht : t.toNat = 0x80000 + k) (hk : k < 3) :
    pteWord uniformBus ((tableSearch vpn).slot rem t) = some (uniformWord (k * 0x1000)) := by
  have haligned := slot_aligned vpn rem t
  have hidx : ((vpn >>> (rem * 9)) &&& 0x1FF).toNat < 512 := by
    rw [BitVec.toNat_and]
    exact Nat.lt_of_le_of_lt Nat.and_le_right (by decide)
  generalize hi : ((vpn >>> (rem * 9)) &&& 0x1FF).toNat = idx at hidx
  have hpa : ((tableSearch vpn).slot rem t).toNat = 0x8000_0000 + k * 0x1000 + idx * 8 := by
    simp only [tableSearch, BitVec.toNat_add, BitVec.toNat_mul, BitVec.toNat_shiftLeft,
      Nat.shiftLeft_eq, hi, ht]
    rw [show (8 : U64).toNat = 8 from rfl]
    omega
  generalize (tableSearch vpn).slot rem t = pa at haligned hpa
  have hregion : region pa = .ram := by
    simp only [region, BitVec.le_def, hpa, BitVec.toNat_ofNat]
    rw [if_neg (by omega), if_neg (by omega), if_neg (by omega), if_neg (by omega)]
  have hoff : uniformBus.offset pa .b8 = .ok (k * 0x1000 + idx * 8) := by
    have hlen : (uniformBus.ramBase + uniformBus.ram.len).toNat = 0x8000_5000 := by decide
    have hbase : uniformBus.ramBase.toNat = 0x8000_0000 := by decide
    rw [Bus.offset, if_pos (by simp only [Width.bytes]; omega)]
    simp only [BitVec.lt_def, hlen, hbase, Width.bytes]
    rw [if_neg (by omega), BitVec.toNat_sub, hbase, hpa]
    congr 1
    omega
  rw [pteWord_of_ok hregion haligned hoff]
  congr 1
  apply Bytes.eq_of_byteAt
  intro i hi
  rw [Bytes.byteAt_readLe _ _ _ _ (Nat.le_refl 8), if_pos hi]
  have hword : uniformWord (k * 0x1000 + idx * 8 + i) = uniformWord (k * 0x1000) := by
    have hk' : k = 0 ∨ k = 1 ∨ k = 2 := by omega
    rcases hk' with rfl | rfl | rfl <;> simp only [uniformWord] <;>
      (split <;> first | omega | rfl | (split <;> first | omega | rfl))
  change Bytes.byteAt (uniformWord (k * 0x1000 + idx * 8 + i)) _ = _
  rw [hword, show (k * 0x1000 + idx * 8 + i) % 8 = i by omega]

/-- All address spaces share those tables. -/
def uniformSpaces : Spaces uniformBus where
  used _ := True
  root _ := 0x80000
  inRam _ _ vpn := by
    refine ⟨_, pteWord_uniformBus vpn 2 0 (by decide) (by omega), fun t' hv => ?_⟩
    rw [show (tableSearch vpn).view (uniformWord (0 * 0x1000)) = .next 0x80001 from rfl] at hv
    cases hv
    refine ⟨_, pteWord_uniformBus vpn 1 1 (by decide) (by omega), fun t' hv => ?_⟩
    rw [show (tableSearch vpn).view (uniformWord (1 * 0x1000)) = .next 0x80002 from rfl] at hv
    cases hv
    refine ⟨_, pteWord_uniformBus vpn 0 2 (by decide) (by omega), fun t' hv => ?_⟩
    rw [show (tableSearch vpn).view (uniformWord (2 * 0x1000)) = .leaf from rfl] at hv
    cases hv
  global _ _ _ _ _ _ h _ := h

/-- Those tables map every page to the frame at `0x80003000`. -/
theorem mapping_uniform (addr : U64) :
    mapping uniformBus 0x80000 addr = some (leafAddress 0 0x80003 addr, 0x1F) := by
  have hfind : (tableSearch (addr >>> 12)).find (pteWord uniformBus) 3 0x80000 =
      .leaf 0 ((tableSearch (addr >>> 12)).slot 0 0x80002) 0x2000_0CDF := by
    rw [Radix.Search.find_of_next (pteWord_uniformBus _ 2 0 (by decide) (by omega))
        (show (tableSearch (addr >>> 12)).view (uniformWord (0 * 0x1000)) = .next 0x80001 from rfl),
      Radix.Search.find_of_next (pteWord_uniformBus _ 1 1 (by decide) (by omega))
        (show (tableSearch (addr >>> 12)).view (uniformWord (1 * 0x1000)) = .next 0x80002 from rfl),
      Radix.Search.find_of_leaf (pteWord_uniformBus _ 0 2 (by decide) (by omega))
        (show (tableSearch (addr >>> 12)).view (uniformWord (2 * 0x1000)) = .leaf from rfl)]
    rfl
  rw [mapping, hfind]
  rfl

/-- A user load through those tables. -/
def uniformLoad (addr : U64) : Call := .translate 0x8000_0000_0008_0000 .u 0 addr .load

/-- The unit after a first load, which fills the slot of the page. -/
def uniformWarm : Mmu × Bus :=
  ((uniformLoad 0x1000).make (Mmu.new, uniformBus)).getD (Mmu.new, uniformBus)

theorem uniformWarm_transparent :
    hits (uniformWarm.1.tlb 1) 1 0 = true ∧
      ∃ r s₁ s₂, translate 0x8000_0000_0008_0000 .u 0 0x1234 .load uniformWarm = some (r, s₁) ∧
        translate 0x8000_0000_0008_0000 .u 0 0x1234 .load (Mmu.new, uniformWarm.2) =
          some (r, s₂) := by
  have hallow : ∀ addr, uniformSpaces.Allows (uniformLoad addr) :=
    fun _ => ⟨by decide, trivial, rfl⟩
  obtain ⟨s', hs', _⟩ := translate_reference
    (inv_cold (S := uniformSpaces) (s := (Mmu.new, uniformBus)) (SameTables.refl _))
    (hallow 0x1000)
  have hmake : (uniformLoad 0x1000).make (Mmu.new, uniformBus) = some uniformWarm := by
    rw [uniformWarm, uniformLoad, Call.make, hs']
    rfl
  have hreach : uniformSpaces.Reachable uniformWarm :=
    .step (.init rfl) (hallow 0x1000) hmake
  exact ⟨by decide, translate_transparent hreach (hallow 0x1234)⟩

end Spaces

end Mmu

end RiscvEmu

import RiscvEmu.RamAccess
import RiscvEmu.Translation.Pte

/-!
# The ways a translation ends

A translation is bare, or it stops at the canonical check, or it is decided by a leaf: the one
in the cache slot of the page, or the one a walk finds.  What a walk finds could be read as a
page-table entry, so it is valid and the bus accepts a write to where it is stored.
-/

namespace RiscvEmu

namespace Mmu

theorem levels_of_sv39 {satp : U64} (h : satp >>> 60 = 8) : levels satp = some 3 := by
  rw [levels, h]
  rfl

/-- The translation goes through page tables of the given depth. -/
structure Paged (satp : U64) (mode : PrivMode) (addr : U64) (n : Nat) : Prop where
  depth : levels satp = some n
  notMachine : mode ≠ .m
  inRange : canonical n addr = true

section

variable {satp mstatus addr : U64} {mode : PrivMode} {access : AccessType} {s : Mmu × Bus}

theorem translate_bare (h : levels satp = none ∨ mode = .m) :
    translate satp mode mstatus addr access s = some (.ok addr, s) := by
  rw [translate]
  rcases h with h | rfl
  · rw [h]
  · cases levels satp <;> simp

theorem translate_noncanonical {n : Nat} (hn : levels satp = some n) (hm : mode ≠ .m)
    (hc : canonical n addr = false) :
    translate satp mode mstatus addr access s = some (.error ⟨pfCause access, addr⟩, s) := by
  rw [translate, hn]
  simp [hm, hc]

theorem translate_hit {n : Nat} (hp : Paged satp mode addr n)
    (hh : hits (s.1.tlb (tlbIndex (addr >>> 12))) (addr >>> 12) (asidOf satp) = true) :
    translate satp mode mstatus addr access s =
      hit (tlbIndex (addr >>> 12)) mode mstatus addr access s := by
  rw [translate, hp.depth]
  simp [hp.notMachine, hp.inRange, hh]

theorem translate_walk {n : Nat} (hp : Paged satp mode addr n)
    (hh : hits (s.1.tlb (tlbIndex (addr >>> 12))) (addr >>> 12) (asidOf satp) = false) :
    translate satp mode mstatus addr access s =
      walk (asidOf satp) mode mstatus addr access n (rootOf satp) s := by
  rw [translate, hp.depth]
  simp [hp.notMachine, hp.inRange, hh]

/-- A translation through page tables that succeeds passed the canonical check. -/
theorem paged_of_translate_ok {n : Nat} {pa : U64} {s' : Mmu × Bus} (hn : levels satp = some n)
    (hm : mode ≠ .m) (h : translate satp mode mstatus addr access s = some (.ok pa, s')) :
    Paged satp mode addr n := by
  refine ⟨hn, hm, ?_⟩
  cases hc : canonical n addr with
  | true => rfl
  | false => rw [translate_noncanonical hn hm hc] at h; cases h

end

/-! ## Hits -/

/-- A stored page-table entry the bus can write back. -/
def Storable (b : Bus) (pteAddr : U64) : Prop :=
  ¬ Bus.Notifies pteAddr ∧
    (region pteAddr = .ram → ∃ off, b.offset pteAddr .b8 = .ok off)

/-- Writing back a storable entry succeeds. -/
theorem Storable.store {b : Bus} {pteAddr : U64} (h : Storable b pteAddr) (v : U64) :
    ∃ b', Bus.store pteAddr .b8 v b = some (.ok (), b') := by
  cases hr : region pteAddr with
  | ram =>
      obtain ⟨off, ho⟩ := h.2 hr
      exact ⟨_, Bus.store_ram v hr ho⟩
  | clint => exact ⟨_, Bus.store_clint _ _ _ hr⟩
  | plic => exact ⟨_, Bus.store_plic _ _ _ hr⟩
  | uart => exact ⟨_, Bus.store_uart _ _ _ hr⟩
  | virtioBlk => exact ⟨_, Bus.store_virtioBlk _ _ _ hr h.1⟩

/-- The address a cached entry maps a virtual address to. -/
def entryAddress (e : TlbEntry) (addr : U64) : U64 := (e.ppn <<< 12) ||| (addr &&& 0xFFF)

theorem leafAddress_zero (ppn addr : U64) :
    leafAddress 0 ppn addr = (ppn <<< 12) ||| (addr &&& 0xFFF) := by
  simp [leafAddress]

/-- The word a hit writes back. -/
def writeBack (e : TlbEntry) (access : AccessType) : U64 :=
  (e.ppn <<< 10) ||| markUsed e.perm access

section Hit

variable {i : Fin 64} {mode : PrivMode} {mstatus addr : U64} {access : AccessType}
  {s s' : Mmu × Bus} {r : Except MmuFault U64}

/-- The cache after a hit. -/
def markEntry (m : Mmu) (i : Fin 64) (access : AccessType) : Mmu :=
  { tlb := Function.update m.tlb i { m.tlb i with perm := markUsed (m.tlb i).perm access } }

/-- A hit faults in the permission check, or it marks the entry as used and succeeds. -/
theorem hit_cases (h : hit i mode mstatus addr access s = some (r, s')) :
    (checkPerms (s.1.tlb i).perm mstatus mode access addr = .error ⟨pfCause access, addr⟩ ∧
        r = .error ⟨pfCause access, addr⟩ ∧ s' = s) ∨
      (checkPerms (s.1.tlb i).perm mstatus mode access addr = .ok () ∧
        r = .ok (entryAddress (s.1.tlb i) addr) ∧ s'.1 = markEntry s.1 i access ∧
        ((markUsed (s.1.tlb i).perm access = (s.1.tlb i).perm ∧ s'.2 = s.2) ∨
          ∃ rs, Bus.store (s.1.tlb i).pteAddr .b8 (writeBack (s.1.tlb i) access) s.2 =
            some (rs, s'.2))) := by
  rw [hit] at h
  cases hc : checkPerms (s.1.tlb i).perm mstatus mode access addr with
  | error f =>
      have hf := checkPerms_error hc
      subst hf
      simp only [hc] at h
      cases h
      exact Or.inl ⟨rfl, rfl, rfl⟩
  | ok _ =>
      simp only [hc] at h
      refine Or.inr ⟨rfl, ?_⟩
      by_cases hne : markUsed (s.1.tlb i).perm access ≠ (s.1.tlb i).perm
      · rw [if_pos hne] at h
        cases hs : Bus.store (s.1.tlb i).pteAddr .b8
            ((s.1.tlb i).ppn <<< 10 ||| markUsed (s.1.tlb i).perm access) s.2 with
        | none => rw [hs] at h; cases h
        | some p =>
            rw [hs] at h
            cases h
            exact ⟨rfl, rfl, Or.inr ⟨p.1, hs⟩⟩
      · have heq := not_not.mp hne
        rw [if_neg hne] at h
        cases h
        refine ⟨rfl, ?_, Or.inl ⟨heq, rfl⟩⟩
        rw [markEntry, heq, Function.update_eq_self]

/-- A hit on an entry that does not notify the block device returns. -/
theorem hit_returns (mode : PrivMode) (mstatus addr : U64) (access : AccessType)
    (hn : ¬ Bus.Notifies (s.1.tlb i).pteAddr) :
    ∃ r s', hit i mode mstatus addr access s = some (r, s') := by
  rw [hit]
  cases checkPerms (s.1.tlb i).perm mstatus mode access addr with
  | error f => exact ⟨_, _, rfl⟩
  | ok _ =>
      simp only
      by_cases hne : markUsed (s.1.tlb i).perm access ≠ (s.1.tlb i).perm
      · rw [if_pos hne]
        obtain ⟨rs, b', hs⟩ := Bus.store_returns .b8
          ((s.1.tlb i).ppn <<< 10 ||| markUsed (s.1.tlb i).perm access) s.2 hn
        rw [hs]
        exact ⟨_, _, rfl⟩
      · rw [if_neg hne]
        exact ⟨_, _, rfl⟩

end Hit

/-! ## Walks -/

/-- What the bus read as the entry of a leaf: a valid leaf word, at an address it can write. -/
structure LeafFound (b : Bus) (leaf : Leaf) : Prop where
  good : badPte leaf.pte = false
  isLeaf : leafPte leaf.pte = true
  storable : Storable b leaf.pteAddr

/-- Loading leaves RAM and its placement alone. -/
theorem load_keeps_ram {addr : U64} {w : Width} {b b' : Bus} {r : Except BusFault U64}
    (h : Bus.load addr w b = some (r, b')) : b'.ram = b.ram ∧ b'.ramBase = b.ramBase := by
  cases hr : region addr with
  | ram =>
      cases ho : b.offset addr w with
      | error e => rw [Bus.load_ram_error hr ho] at h; cases h; exact ⟨rfl, rfl⟩
      | ok off => rw [Bus.load_ram hr ho] at h; cases h; exact ⟨rfl, rfl⟩
  | clint => rw [Bus.load_clint w b hr] at h; cases h; exact ⟨rfl, rfl⟩
  | plic => rw [Bus.load_plic w b hr] at h; cases h; exact ⟨rfl, rfl⟩
  | uart => rw [Bus.load_uart w b hr] at h; cases h; exact ⟨rfl, rfl⟩
  | virtioBlk => rw [Bus.load_virtioBlk w b hr] at h; cases h; exact ⟨rfl, rfl⟩

/-- An entry that was read and is valid can be written back: the notify register reads as zero,
and a RAM access that is accepted for a load is accepted for a store. -/
theorem storable_of_load {b b' : Bus} {pteAddr pte : U64}
    (h : Bus.load pteAddr .b8 b = some (.ok pte, b')) (hgood : badPte pte = false) :
    Storable b' pteAddr := by
  refine ⟨?_, fun hr => ?_⟩
  · rintro ⟨hr, hoff⟩
    rw [Bus.load_virtioBlk .b8 b hr, hoff] at h
    cases h
    rw [show b.virtioBlk.load 0x050 = 0 from rfl] at hgood
    exact absurd hgood (by decide)
  · obtain ⟨hram, hbase⟩ := load_keeps_ram h
    cases ho : b.offset pteAddr .b8 with
    | error e => rw [Bus.load_ram_error hr ho] at h; cases h
    | ok off => exact ⟨off, by rw [Bus.offset_congr hbase (by rw [hram]), ho]⟩

/-- One level of a walk that finds a leaf: the word read is the leaf, or it names the table in which
the rest of the walk finds it. -/
theorem findLeaf_succ {addr : U64} {access : AccessType} {n : Nat} {t : U64} {b b' : Bus}
    {leaf : Leaf} (h : findLeaf addr access (n + 1) t b = some (.ok leaf, b')) :
    ∃ pte b₁, Bus.load (t + vpnPart addr n * 8) .b8 b = some (.ok pte, b₁) ∧ badPte pte = false ∧
      ((leafPte pte = true ∧ leaf = ⟨n, t + vpnPart addr n * 8, pte⟩ ∧ b' = b₁) ∨
        findLeaf addr access n (pteNumber pte <<< 12) b₁ = some (.ok leaf, b')) := by
  rw [findLeaf] at h
  cases hl : Bus.load (t + vpnPart addr n * 8) .b8 b with
  | none => simp only [hl] at h; cases h
  | some p =>
      obtain ⟨r, b₁⟩ := p
      cases r with
      | error e => simp only [hl] at h; cases h
      | ok pte =>
          simp only [hl] at h
          cases hbad : badPte pte with
          | true => simp only [hbad, if_true] at h; cases h
          | false =>
              simp only [hbad, if_false, Bool.false_eq_true] at h
              refine ⟨pte, b₁, rfl, hbad, ?_⟩
              cases hleaf : leafPte pte with
              | true =>
                  simp only [hleaf, if_true] at h
                  cases h
                  exact Or.inl ⟨rfl, rfl, rfl⟩
              | false =>
                  simp only [hleaf, if_false, Bool.false_eq_true] at h
                  exact Or.inr h

theorem findLeaf_found {addr : U64} {access : AccessType} :
    ∀ {n : Nat} {t : U64} {b b' : Bus} {leaf : Leaf},
      findLeaf addr access n t b = some (.ok leaf, b') → LeafFound b' leaf ∧ leaf.rem < n
  | 0, _, _, _, _, h => by cases h
  | n + 1, t, b, b', leaf, h => by
      obtain ⟨pte, b₁, hl, hbad, ⟨hleaf, rfl, rfl⟩ | hrest⟩ := findLeaf_succ h
      · exact ⟨⟨hbad, hleaf, storable_of_load hl hbad⟩, Nat.lt_succ_self n⟩
      · obtain ⟨hfound, hlt⟩ := findLeaf_found hrest
        exact ⟨hfound, Nat.lt_succ_of_lt hlt⟩

/-- A search that fails reports a page fault or an access fault at its address. -/
theorem findLeaf_error {addr : U64} {access : AccessType} {f : MmuFault} :
    ∀ {n : Nat} {t : U64} {b b' : Bus}, findLeaf addr access n t b = some (.error f, b') →
      f = ⟨pfCause access, addr⟩ ∨ f = ⟨afCause access, addr⟩
  | 0, _, _, _, h => by
      cases h
      exact .inl rfl
  | n + 1, t, b, b', h => by
      rw [findLeaf] at h
      dsimp only at h
      split at h
      · cases h
      · cases h
        exact .inr rfl
      · split at h
        · cases h
          exact .inl rfl
        · split at h
          · cases h
          · exact findLeaf_error h

/-- The search for a leaf always returns. -/
theorem findLeaf_returns (addr : U64) (access : AccessType) :
    ∀ (n : Nat) (t : U64) (b : Bus), ∃ r b', findLeaf addr access n t b = some (r, b')
  | 0, _, b => ⟨_, b, rfl⟩
  | n + 1, t, b => by
      obtain ⟨r, b', hl⟩ := Bus.load_returns (t + vpnPart addr n * 8) .b8 b
      rw [findLeaf]
      simp only [hl]
      cases r with
      | error e => exact ⟨_, _, rfl⟩
      | ok pte =>
          simp only
          split
          · exact ⟨_, _, rfl⟩
          · split
            · exact ⟨_, _, rfl⟩
            · exact findLeaf_returns addr access n _ b'

section UseLeaf

variable {leaf : Leaf} {asid : U16} {mode : PrivMode} {mstatus addr : U64} {access : AccessType}
  {s s' : Mmu × Bus} {r : Except MmuFault U64}

/-- A leaf that is used is misaligned, or it fails the permission check, or it is marked as used
in memory and put in the cache. -/
theorem useLeaf_cases (hst : Storable s.2 leaf.pteAddr)
    (h : useLeaf leaf asid mode mstatus addr access s = some (r, s')) :
    ((aligned leaf.rem (pteNumber leaf.pte) = false ∨
          checkPerms (leaf.pte &&& 0xFF) mstatus mode access addr =
            .error ⟨pfCause access, addr⟩) ∧
        r = .error ⟨pfCause access, addr⟩ ∧ s' = s) ∨
      (aligned leaf.rem (pteNumber leaf.pte) = true ∧
        checkPerms (leaf.pte &&& 0xFF) mstatus mode access addr = .ok () ∧
        r = .ok (leafAddress leaf.rem (pteNumber leaf.pte) addr) ∧
        s'.1 = s.1.fill leaf asid addr (markUsed leaf.pte access) ∧
        ((markUsed leaf.pte access = leaf.pte ∧ s'.2 = s.2) ∨
          Bus.store leaf.pteAddr .b8 (markUsed leaf.pte access) s.2 = some (.ok (), s'.2))) := by
  rw [useLeaf] at h
  cases hal : aligned leaf.rem (pteNumber leaf.pte) with
  | false =>
      simp only [hal] at h
      cases h
      exact Or.inl ⟨Or.inl rfl, rfl, rfl⟩
  | true =>
      cases hc : checkPerms (leaf.pte &&& 0xFF) mstatus mode access addr with
      | error f =>
          have hf := checkPerms_error hc
          subst hf
          simp only [hal, hc] at h
          cases h
          exact Or.inl ⟨Or.inr rfl, rfl, rfl⟩
      | ok _ =>
          simp only [hal, hc] at h
          refine Or.inr ⟨rfl, rfl, ?_⟩
          by_cases hne : markUsed leaf.pte access ≠ leaf.pte
          · obtain ⟨b', hs⟩ := hst.store (markUsed leaf.pte access)
            simp only [not_true_eq_false, if_false, if_pos hne, hs] at h
            cases h
            exact ⟨rfl, rfl, Or.inr hs⟩
          · simp only [not_true_eq_false, if_false, if_neg hne] at h
            cases h
            exact ⟨rfl, rfl, Or.inl ⟨not_not.mp hne, rfl⟩⟩

theorem useLeaf_returns (asid : U16) (mode : PrivMode) (mstatus addr : U64) (access : AccessType)
    (hst : Storable s.2 leaf.pteAddr) :
    ∃ r s', useLeaf leaf asid mode mstatus addr access s = some (r, s') := by
  rw [useLeaf]
  cases hal : aligned leaf.rem (pteNumber leaf.pte) with
  | false => exact ⟨_, _, rfl⟩
  | true =>
      cases hc : checkPerms (leaf.pte &&& 0xFF) mstatus mode access addr with
      | error f => exact ⟨_, _, rfl⟩
      | ok _ =>
          obtain ⟨b', hs⟩ := hst.store (markUsed leaf.pte access)
          simp only [not_true_eq_false, if_false, hs]
          split <;> exact ⟨_, _, rfl⟩

end UseLeaf

/-- A walk that returns stopped on the way, or it used the leaf it found. -/
theorem walk_cases {asid : U16} {mode : PrivMode} {mstatus addr : U64} {access : AccessType}
    {n : Nat} {t : U64} {s s' : Mmu × Bus} {r : Except MmuFault U64}
    (h : walk asid mode mstatus addr access n t s = some (r, s')) :
    (∃ f b, findLeaf addr access n t s.2 = some (.error f, b) ∧ r = .error f ∧ s' = (s.1, b)) ∨
      (∃ leaf b, findLeaf addr access n t s.2 = some (.ok leaf, b) ∧
        useLeaf leaf asid mode mstatus addr access (s.1, b) = some (r, s')) := by
  rw [walk] at h
  obtain ⟨rf, b, hf⟩ := findLeaf_returns addr access n t s.2
  rw [hf] at h
  cases rf with
  | error f =>
      cases h
      exact Or.inl ⟨f, b, hf, rfl, rfl⟩
  | ok leaf => exact Or.inr ⟨leaf, b, hf, h⟩

/-! ## All ways -/

/-- The result and the state a translation ends with. -/
inductive Ended (satp : U64) (mode : PrivMode) (mstatus addr : U64) (access : AccessType)
    (s : Mmu × Bus) : Except MmuFault U64 → Mmu × Bus → Prop where
  /-- Nothing is translated. -/
  | bare : levels satp = none ∨ mode = .m → Ended satp mode mstatus addr access s (.ok addr) s
  /-- The address is out of range. -/
  | noncanonical {n : Nat} : levels satp = some n → mode ≠ .m → canonical n addr = false →
      Ended satp mode mstatus addr access s (.error ⟨pfCause access, addr⟩) s
  /-- The cache slot of the page answers. -/
  | hit {n : Nat} {r : Except MmuFault U64} {s' : Mmu × Bus} : Paged satp mode addr n →
      hits (s.1.tlb (tlbIndex (addr >>> 12))) (addr >>> 12) (asidOf satp) = true →
      Mmu.hit (tlbIndex (addr >>> 12)) mode mstatus addr access s = some (r, s') →
      Ended satp mode mstatus addr access s r s'
  /-- The walk finds no leaf. -/
  | unmapped {n : Nat} {f : MmuFault} {b : Bus} : Paged satp mode addr n →
      hits (s.1.tlb (tlbIndex (addr >>> 12))) (addr >>> 12) (asidOf satp) = false →
      findLeaf addr access n (rootOf satp) s.2 = some (.error f, b) →
      Ended satp mode mstatus addr access s (.error f) (s.1, b)
  /-- The walk finds a leaf and uses it. -/
  | leaf {n : Nat} {leaf : Leaf} {b : Bus} {r : Except MmuFault U64} {s' : Mmu × Bus} :
      Paged satp mode addr n →
      hits (s.1.tlb (tlbIndex (addr >>> 12))) (addr >>> 12) (asidOf satp) = false →
      findLeaf addr access n (rootOf satp) s.2 = some (.ok leaf, b) → LeafFound b leaf →
      useLeaf leaf (asidOf satp) mode mstatus addr access (s.1, b) = some (r, s') →
      Ended satp mode mstatus addr access s r s'

theorem translate_ended {satp mstatus addr : U64} {mode : PrivMode} {access : AccessType}
    {s s' : Mmu × Bus} {r : Except MmuFault U64}
    (h : translate satp mode mstatus addr access s = some (r, s')) :
    Ended satp mode mstatus addr access s r s' := by
  cases hn : levels satp with
  | none =>
      rw [translate_bare (Or.inl hn)] at h
      cases h
      exact .bare (Or.inl hn)
  | some n =>
      by_cases hm : mode = .m
      · rw [translate_bare (Or.inr hm)] at h
        cases h
        exact .bare (Or.inr hm)
      · cases hc : canonical n addr with
        | false =>
            rw [translate_noncanonical hn hm hc] at h
            cases h
            exact .noncanonical hn hm hc
        | true =>
            have hp : Paged satp mode addr n := ⟨hn, hm, hc⟩
            cases hh : hits (s.1.tlb (tlbIndex (addr >>> 12))) (addr >>> 12) (asidOf satp) with
            | true => exact .hit hp hh (by rw [← translate_hit hp hh]; exact h)
            | false =>
                rw [translate_walk hp hh] at h
                rcases walk_cases h with ⟨f, b, hf, rfl, rfl⟩ | ⟨leaf, b, hf, hu⟩
                · exact .unmapped hp hh hf
                · exact .leaf hp hh hf (findLeaf_found hf).1 hu

/-- A translation that fails reports a page fault or an access fault at its address. -/
theorem translate_error {satp mstatus addr : U64} {mode : PrivMode} {access : AccessType}
    {s s' : Mmu × Bus} {f : MmuFault}
    (h : translate satp mode mstatus addr access s = some (.error f, s')) :
    f = ⟨pfCause access, addr⟩ ∨ f = ⟨afCause access, addr⟩ := by
  generalize hr : (.error f : Except MmuFault U64) = r at h
  cases translate_ended h with
  | bare => cases hr
  | noncanonical =>
      cases hr
      exact .inl rfl
  | unmapped _ _ hl =>
      cases hr
      exact findLeaf_error hl
  | hit _ _ hhit =>
      rcases hit_cases hhit with ⟨_, rfl, _⟩ | ⟨_, rfl, _⟩
      · cases hr
        exact .inl rfl
      · cases hr
  | leaf _ _ _ hfound hu =>
      rcases useLeaf_cases hfound.storable hu with ⟨_, rfl, _⟩ | ⟨_, _, rfl, _⟩
      · cases hr
        exact .inl rfl
      · cases hr

/-! ## Calls -/

/-- A call of the translation unit. -/
inductive Call where
  | flush
  | translate (satp : U64) (mode : PrivMode) (mstatus addr : U64) (access : AccessType)

/-- The cache slot of the page answers for the address space. -/
def slotHits (m : Mmu) (satp addr : U64) : Bool :=
  hits (m.tlb (tlbIndex (addr >>> 12))) (addr >>> 12) (asidOf satp)

/-- Make a call, and keep the state it leaves. -/
def Call.make : Call → Mmu × Bus → Option (Mmu × Bus)
  | .flush, s => some (s.1.flush, s.2)
  | .translate satp mode mstatus addr access, s =>
      (Mmu.translate satp mode mstatus addr access s).map Prod.snd

end Mmu

end RiscvEmu

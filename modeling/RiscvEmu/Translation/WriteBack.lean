import RiscvEmu.Lib.System
import RiscvEmu.Translation.Marking

/-!
# The write-back of a hit

A walk sets bits in the word it has just read.  A hit rebuilds the word from the cache entry, so
it drops the bits no entry keeps, and it undoes what software has written there since.  The unit
runs over a bus that anything may change between two calls.  In every state it reaches, a
translation sets the allowed bits of the leaf that maps the address and changes nothing else in RAM,
exactly when it is not such a rebuild or memory still holds the entry (`translate_marksLeaf_iff`).
-/

namespace RiscvEmu

namespace Mmu

/-- The bits a translation may set in the entry of a leaf. -/
def allowed : AccessType → U64
  | .store => pteA ||| pteD
  | _ => pteA

/-- The tables map the address by the leaf. -/
structure MapsBy (satp addr : U64) (access : AccessType) (b : Bus) (leaf : Leaf) : Prop where
  found : ∃ n b', levels satp = some n ∧
    findLeaf addr access n (rootOf satp) b = some (.ok leaf, b')
  whole : aligned leaf.rem (pteNumber leaf.pte) = true

/-- RAM stays as it is, but for allowed bits that are set in the word of the leaf that maps the
address. -/
def MarksLeaf (satp addr : U64) (access : AccessType) (b b' : Bus) : Prop :=
  b'.ram = b.ram ∨ ∃ leaf off m, MapsBy satp addr access b leaf ∧ region leaf.pteAddr = .ram ∧
    b.offset leaf.pteAddr .b8 = .ok off ∧ m &&& ~~~allowed access = 0 ∧
    b'.ram = (b.setBytes off 8 (Bytes.readLe b.ram.byte off 8 ||| m)).ram

/-- The word a cache entry stands for. -/
def entryWord (e : TlbEntry) : U64 := (e.ppn <<< 10) ||| e.perm

/-- Memory still holds the entry: the word at its address is that of the entry but for the allowed
bits, and it is the leaf that maps the address unless these bits are set already. -/
def StillHeld (satp addr : U64) (access : AccessType) (e : TlbEntry) (b : Bus) : Prop :=
  ∀ w, pteWord b e.pteAddr = some w →
    entryWord e ||| allowed access = w ||| allowed access ∧
      (w ||| allowed access = w ∨ ∃ leaf, MapsBy satp addr access b leaf ∧
        leaf.pteAddr = e.pteAddr)

/-! ## The words written -/

theorem markUsed_eq (w : U64) (access : AccessType) : markUsed w access = w ||| allowed access := by
  cases access with
  | fetch => rfl
  | load => rfl
  | store => exact BitVec.or_assoc w pteA pteD

theorem writeBack_eq (e : TlbEntry) (access : AccessType) :
    writeBack e access = entryWord e ||| allowed access := by
  rw [writeBack, markUsed_eq, ← BitVec.or_assoc, entryWord]

/-- Bits among the allowed ones add nothing to the allowed ones. -/
theorem or_allowed {m : U64} {access : AccessType} (hm : m &&& ~~~allowed access = 0) :
    m ||| allowed access = allowed access := by
  apply BitVec.eq_of_getLsbD_eq
  intro i hi
  have hbit := congrArg (fun v => v.getLsbD i) hm
  simp only [BitVec.getLsbD_and, BitVec.getLsbD_not, hi, decide_true, Bool.true_and,
    BitVec.ofNat_eq_ofNat, BitVec.getLsbD_zero] at hbit
  rw [BitVec.getLsbD_or]
  cases hall : (allowed access).getLsbD i with
  | true => exact Bool.or_true _
  | false =>
      rw [hall, Bool.not_false, Bool.and_true] at hbit
      rw [hbit, Bool.or_false]

theorem allowed_and_not (access : AccessType) : allowed access &&& ~~~allowed access = 0 :=
  BitVec.and_not_self _

/-! ## One word of RAM -/

/-- Writing the word that is there leaves RAM alone. -/
theorem setBytes_self (b : Bus) (off : Nat) :
    (b.setBytes off 8 (Bytes.readLe b.ram.byte off 8)).ram = b.ram := by
  have hbyte : Bytes.writeLe b.ram.byte off 8 (Bytes.readLe b.ram.byte off 8) = b.ram.byte := by
    funext a
    by_cases hin : off ≤ a ∧ a < off + 8
    · obtain ⟨i, rfl⟩ := Nat.exists_eq_add_of_le hin.1
      have hi : i < 8 := by omega
      rw [Bytes.writeLe_inside _ _ hi, Bytes.byteAt_readLe _ _ _ _ (Nat.le_refl 8), if_pos hi]
    · exact Bytes.writeLe_outside _ _ (by omega)
  rw [Bus.setBytes, hbyte]

/-- The words at two aligned addresses are the same word or lie apart. -/
theorem offset_apart {b : Bus} {pa pa' : U64} {off off' : Nat} (ha : pa.toNat % 8 = 0)
    (ha' : pa'.toNat % 8 = 0) (ho : b.offset pa .b8 = .ok off) (ho' : b.offset pa' .b8 = .ok off')
    (hne : pa ≠ pa') : off' + 8 ≤ off ∨ off + 8 ≤ off' := by
  have h1 := Bus.offset_eq ho
  have h2 := Bus.offset_eq ho'
  have hb1 := (Bus.offset_ok ho).2.1
  have hb2 := (Bus.offset_ok ho').2.1
  have hne' : pa.toNat ≠ pa'.toNat := fun heq => hne (BitVec.eq_of_toNat_eq heq)
  omega

/-! ## Walks -/

/-- Entries are stored at aligned addresses. -/
theorem findLeaf_aligned {addr : U64} {access : AccessType} :
    ∀ {n : Nat} {t : U64} {b b' : Bus} {leaf : Leaf},
      findLeaf addr access n (t <<< 12) b = some (.ok leaf, b') → leaf.pteAddr.toNat % 8 = 0
  | 0, _, _, _, _, h => by cases h
  | n + 1, t, b, b', leaf, h => by
      obtain ⟨pte, b₁, _, _, ⟨_, rfl, _⟩ | hrest⟩ := findLeaf_succ h
      · have ha := slot_aligned (addr >>> 12) n t
        rw [slot_eq] at ha
        exact ha
      · exact findLeaf_aligned hrest

theorem MapsBy.aligned_address {satp addr : U64} {access : AccessType} {b : Bus} {leaf : Leaf}
    (h : MapsBy satp addr access b leaf) : leaf.pteAddr.toNat % 8 = 0 := by
  obtain ⟨n, b', _, hfound⟩ := h.found
  exact findLeaf_aligned (t := satp &&& 0x0FFF_FFFF_FFFF) hfound

section

variable {s s' : Mmu × Bus} {satp mstatus addr : U64} {mode : PrivMode} {access : AccessType}
  {r : Except MmuFault U64}

/-- Using the leaf a walk finds sets allowed bits of its word. -/
theorem useLeaf_marksLeaf {n : Nat} {leaf : Leaf} {b : Bus} (hn : levels satp = some n)
    (hl : findLeaf addr access n (rootOf satp) s.2 = some (.ok leaf, b)) (hfound : LeafFound b leaf)
    (hu : useLeaf leaf (asidOf satp) mode mstatus addr access (s.1, b) = some (r, s')) :
    MarksLeaf satp addr access s.2 s'.2 := by
  have hkeep := findLeaf_keeps_ram hl
  rcases useLeaf_cases hfound.storable hu with ⟨_, _, rfl⟩ | ⟨hal, _, _, _, ⟨_, hb⟩ | hs⟩
  · exact Or.inl hkeep.1
  · exact Or.inl ((congrArg Bus.ram hb).trans hkeep.1)
  · by_cases hr : region leaf.pteAddr = .ram
    · have hword := findLeaf_word (t := satp &&& 0x0FFF_FFFF_FFFF) hl hr
      obtain ⟨_, _, off, ho, hpte⟩ := pteWord_eq_some hword
      rw [Bus.store_ram _ hr ho] at hs
      have hbus : s'.2 = b.setBytes off 8 (markUsed leaf.pte access) :=
        (Prod.mk.inj (Option.some.inj hs)).2.symm
      rw [Bus.offset_congr hkeep.2 (by rw [hkeep.1])] at ho
      refine Or.inr ⟨leaf, off, allowed access, ⟨⟨n, b, hn, hl⟩, hal⟩, hr, ho,
        allowed_and_not access, ?_⟩
      rw [hbus, markUsed_eq, ← hpte, Bus.setBytes, Bus.setBytes, hkeep.1]
    · have hdevice := store_device_keeps_ram hs hr hfound.storable.1
      exact Or.inl (hdevice.1.trans hkeep.1)

/-! ## Hits -/

/-- Entries the unit may hold: at an aligned address that does not notify the block device. -/
def Placed (m : Mmu) : Prop :=
  ∀ i, (m.tlb i).valid = true →
    ¬ Bus.Notifies (m.tlb i).pteAddr ∧ (m.tlb i).pteAddr.toNat % 8 = 0

/-- Writing the word of an entry back sets allowed bits of the leaf that maps the address exactly
when memory still holds the entry. -/
theorem store_marksLeaf_iff {e : TlbEntry} {b b' : Bus} {rs : Except BusFault Unit}
    (hquiet : ¬ Bus.Notifies e.pteAddr) (ha : e.pteAddr.toNat % 8 = 0)
    (hs : Bus.store e.pteAddr .b8 (writeBack e access) b = some (rs, b')) :
    MarksLeaf satp addr access b b' ↔ StillHeld satp addr access e b := by
  by_cases hr : region e.pteAddr = .ram
  · cases ho : b.offset e.pteAddr .b8 with
    | error f =>
        -- the write is rejected, and there is no word to hold
        rw [Bus.store_ram_error _ hr ho] at hs
        cases hs
        refine ⟨fun _ w hw => ?_, fun _ => Or.inl rfl⟩
        obtain ⟨_, _, off, ho', _⟩ := pteWord_eq_some hw
        rw [ho] at ho'
        cases ho'
    | ok off =>
        rw [Bus.store_ram _ hr ho] at hs
        have hbus : b' = b.setBytes off 8 (entryWord e ||| allowed access) := by
          rw [← writeBack_eq]
          cases hs
          rfl
        have hword := pteWord_of_ok hr ha ho
        have hnew : Bytes.readLe b'.ram.byte off 8 = entryWord e ||| allowed access := by
          rw [hbus, Bus.setBytes_byte, Bytes.readLe_writeLe]
        generalize hold : Bytes.readLe b.ram.byte off 8 = w at hword
        constructor
        · intro hmarks w' hw'
          rw [hword] at hw'
          cases hw'
          -- either the word did not change, or it is the leaf, with allowed bits set
          have hsame : b'.ram.byte = b.ram.byte ∨ Bytes.readLe b'.ram.byte off 8 = w →
              entryWord e ||| allowed access = w ||| allowed access ∧ w ||| allowed access = w := by
            intro hor
            have heq : entryWord e ||| allowed access = w := by
              rcases hor with hram | hread
              · rw [← hnew, hram, hold]
              · rw [← hnew, hread]
            rw [← heq, BitVec.or_assoc, BitVec.or_self]
            exact ⟨rfl, rfl⟩
          rcases hmarks with hram | ⟨leaf, off', m, hmaps, hr', ho', hm, hram⟩
          · have hheld := hsame (Or.inl (by rw [hram]))
            exact ⟨hheld.1, Or.inl hheld.2⟩
          · by_cases hpa : leaf.pteAddr = e.pteAddr
            · rw [hpa, ho] at ho'
              cases ho'
              rw [hram, Bus.setBytes_byte, Bytes.readLe_writeLe, hold] at hnew
              refine ⟨?_, Or.inr ⟨leaf, hmaps, hpa⟩⟩
              calc entryWord e ||| allowed access
                  = entryWord e ||| allowed access ||| allowed access := by
                    rw [BitVec.or_assoc, BitVec.or_self]
                _ = w ||| m ||| allowed access := by rw [hnew]
                _ = w ||| allowed access := by rw [BitVec.or_assoc, or_allowed hm]
            · have hapart := offset_apart hmaps.aligned_address ha ho' ho hpa
              have hread : Bytes.readLe b'.ram.byte off 8 = w := by
                rw [hram, Bus.setBytes_byte, Bytes.readLe_writeLe_disjoint _ _ hapart, hold]
              have hheld := hsame (Or.inr hread)
              exact ⟨hheld.1, Or.inl hheld.2⟩
        · intro hheld
          obtain ⟨heq, hset | ⟨leaf, hmaps, hpa⟩⟩ := hheld w hword
          · refine Or.inl ?_
            rw [hbus, heq, hset, ← hold, setBytes_self]
          · refine Or.inr ⟨leaf, off, allowed access, hmaps, ?_, ?_, allowed_and_not access, ?_⟩
            · rw [hpa]
              exact hr
            · rw [hpa]
              exact ho
            · rw [hbus, heq, hold]
  · have hkeep := store_device_keeps_ram hs hr hquiet
    refine ⟨fun _ w hw => ?_, fun _ => Or.inl hkeep.1⟩
    exact absurd (pteWord_eq_some hw).1 hr

/-- A translation sets allowed bits of the leaf that maps the address, exactly when it does not
rebuild an entry that memory no longer holds. -/
theorem Placed.marksLeaf_iff (hplaced : Placed s.1)
    (h : translate satp mode mstatus addr access s = some (r, s')) :
    MarksLeaf satp addr access s.2 s'.2 ↔
      (Rebuilds s satp mode mstatus addr access →
        StillHeld satp addr access (s.1.tlb (tlbIndex (addr >>> 12))) s.2) := by
  have hmiss : ¬ s.1.slotHits satp addr = true →
      ¬ Rebuilds s satp mode mstatus addr access := fun hnot hreb => hnot hreb.1.2.1
  cases translate_ended h with
  | bare hbare =>
      refine ⟨fun _ hreb => ?_, fun _ => Or.inl rfl⟩
      obtain ⟨⟨n, hp⟩, _⟩ := hreb.1
      rcases hbare with hn | hm
      · rw [hp.depth] at hn
        cases hn
      · exact absurd hm hp.notMachine
  | noncanonical hn _ hc =>
      refine ⟨fun _ hreb => ?_, fun _ => Or.inl rfl⟩
      obtain ⟨⟨n, hp⟩, _⟩ := hreb.1
      have hdepth := hp.depth
      rw [hn] at hdepth
      cases hdepth
      rw [hp.inRange] at hc
      cases hc
  | unmapped _ hh hl =>
      have hnot : ¬ s.1.slotHits satp addr = true := by rw [slotHits, hh]; exact Bool.false_ne_true
      exact ⟨fun _ hreb => absurd hreb (hmiss hnot), fun _ => Or.inl (findLeaf_keeps_ram hl).1⟩
  | leaf hp hh hl hfound hu =>
      have hnot : ¬ s.1.slotHits satp addr = true := by rw [slotHits, hh]; exact Bool.false_ne_true
      exact ⟨fun _ hreb => absurd hreb (hmiss hnot),
        fun _ => useLeaf_marksLeaf hp.depth hl hfound hu⟩
  | hit hp hh hr =>
      have hvalid : (s.1.tlb (tlbIndex (addr >>> 12))).valid = true := by
        rw [hits, Bool.and_eq_true, Bool.and_eq_true] at hh
        exact hh.1.1
      obtain ⟨hquiet, ha⟩ := hplaced _ hvalid
      rcases hit_cases hr with ⟨hperm, _, rfl⟩ | ⟨hperm, _, _, ⟨heq, hb⟩ | ⟨rs, hs⟩⟩
      · refine ⟨fun _ hreb => ?_, fun _ => Or.inl rfl⟩
        rw [hreb.2] at hperm
        cases hperm
      · exact ⟨fun _ hreb => absurd heq hreb.1.2.2, fun _ => Or.inl (by rw [hb])⟩
      · by_cases hne : markUsed (s.1.tlb (tlbIndex (addr >>> 12))).perm access =
            (s.1.tlb (tlbIndex (addr >>> 12))).perm
        · refine ⟨fun _ hreb => absurd hne hreb.1.2.2, fun _ => Or.inl ?_⟩
          rw [hit, hperm] at hr
          simp only [ne_eq, hne, not_true_eq_false, if_false] at hr
          cases hr
          rfl
        · rw [store_marksLeaf_iff hquiet ha hs]
          exact ⟨fun hheld _ => hheld, fun hheld => hheld ⟨⟨⟨_, hp⟩, hh, hne⟩, hperm⟩⟩

end

/-! ## Runs -/

/-- A call of the unit, or a change of the bus between two calls. -/
inductive Event where
  | call (c : Call)
  | change (b : Bus)

/-- The unit over a bus that the rest of the machine uses as well. -/
def shared : System (Mmu × Bus) Event where
  init s := s.1 = Mmu.new
  step
    | .call c, s => c.make s
    | .change b, s => some (s.1, b)

/-- A translation returns. -/
theorem Placed.translate_returns {s : Mmu × Bus} (hplaced : Placed s.1) (satp : U64)
    (mode : PrivMode) (mstatus addr : U64) (access : AccessType) :
    ∃ r s', translate satp mode mstatus addr access s = some (r, s') := by
  cases hn : levels satp with
  | none => exact ⟨_, _, translate_bare (Or.inl hn)⟩
  | some n =>
      by_cases hm : mode = .m
      · exact ⟨_, _, translate_bare (Or.inr hm)⟩
      · cases hc : canonical n addr with
        | false => exact ⟨_, _, translate_noncanonical hn hm hc⟩
        | true =>
            have hp : Paged satp mode addr n := ⟨hn, hm, hc⟩
            cases hh : hits (s.1.tlb (tlbIndex (addr >>> 12))) (addr >>> 12) (asidOf satp) with
            | true =>
                rw [translate_hit hp hh]
                rw [hits, Bool.and_eq_true, Bool.and_eq_true] at hh
                exact hit_returns mode mstatus addr access (hplaced _ hh.1.1).1
            | false =>
                rw [translate_walk hp hh, walk]
                obtain ⟨rf, b, hf⟩ := findLeaf_returns addr access n (rootOf satp) s.2
                rw [hf]
                cases rf with
                | error f => exact ⟨_, _, rfl⟩
                | ok leaf => exact useLeaf_returns _ _ _ _ _ (findLeaf_found hf).1.storable

/-- Every valid entry has a property. -/
def EveryEntry (P : TlbEntry → Prop) (m : Mmu) : Prop := ∀ i, (m.tlb i).valid = true → P (m.tlb i)

/-- A property of entries that holds of those filled from a leaf, and survives a mark. -/
structure EntryClosed (P : TlbEntry → Prop) : Prop where
  mark : ∀ {e : TlbEntry} (access : AccessType), P e → P { e with perm := markUsed e.perm access }
  fill : ∀ {b : Bus} {leaf : Leaf}, LeafFound b leaf → leaf.pteAddr.toNat % 8 = 0 →
    ∀ asid addr access, P (leafEntry leaf asid addr (markUsed leaf.pte access))

section Entries

variable {P : TlbEntry → Prop} {s s' : Mmu × Bus}

/-- Replacing an entry by one that has the property. -/
theorem EveryEntry.update {m : Mmu} (h : EveryEntry P m) (i : Fin 64) {e : TlbEntry}
    (he : e.valid = true → P e) : EveryEntry P { tlb := Function.update m.tlb i e } := by
  intro j hv
  by_cases hj : j = i
  · subst hj
    simp only [Function.update_self] at hv ⊢
    exact he hv
  · simp only [Function.update_of_ne hj] at hv ⊢
    exact h j hv

theorem EntryClosed.translate (hP : EntryClosed P) (h : EveryEntry P s.1) {satp mstatus addr : U64}
    {mode : PrivMode} {access : AccessType} {r : Except MmuFault U64}
    (hs : translate satp mode mstatus addr access s = some (r, s')) : EveryEntry P s'.1 := by
  cases translate_ended hs with
  | bare | noncanonical | unmapped => exact h
  | hit _ _ hr =>
      rcases hit_cases hr with ⟨_, _, rfl⟩ | ⟨_, _, hm, _⟩
      · exact h
      · rw [hm]
        exact h.update _ fun hv => hP.mark access (h _ hv)
  | @leaf n leaf b _ _ _ _ hl hfound hu =>
      rcases useLeaf_cases hfound.storable hu with ⟨_, _, rfl⟩ | ⟨_, _, _, hm, _⟩
      · exact h
      · rw [hm, Mmu.fill]
        split
        · have haligned := findLeaf_aligned (t := satp &&& 0x0FFF_FFFF_FFFF) hl
          exact h.update _ fun _ => hP.fill hfound haligned _ _ _
        · exact h

theorem EntryClosed.shared (hP : EntryClosed P) (h : shared.Reachable (fun _ _ => True) s) :
    EveryEntry P s.1 := by
  refine h.invariant (I := fun s => EveryEntry P s.1) ?_ ?_
  · rintro ⟨m, b⟩ rfl i hv
    cases hv
  · intro s l s' hentries _ hs
    cases l with
    | change b =>
        cases hs
        exact hentries
    | call c =>
        cases c with
        | flush =>
            cases hs
            intro i hv
            cases hv
        | translate satp mode mstatus addr access =>
            obtain ⟨⟨r, s₁⟩, htranslate, rfl⟩ := Option.map_eq_some_iff.mp hs
            exact hP.translate hentries htranslate

end Entries

theorem placed_closed :
    EntryClosed fun e => ¬ Bus.Notifies e.pteAddr ∧ e.pteAddr.toNat % 8 = 0 where
  mark _ h := h
  fill hfound haligned _ _ _ := ⟨hfound.storable.1, haligned⟩

theorem Placed.translate {s s' : Mmu × Bus} (h : Placed s.1) {satp mstatus addr : U64}
    {mode : PrivMode} {access : AccessType} {r : Except MmuFault U64}
    (hs : translate satp mode mstatus addr access s = some (r, s')) : Placed s'.1 :=
  placed_closed.translate h hs

theorem shared_placed {s : Mmu × Bus} (h : shared.Reachable (fun _ _ => True) s) : Placed s.1 :=
  placed_closed.shared h

theorem markUsed_pteA (w : U64) (access : AccessType) :
    markUsed w access ||| pteA = markUsed w access := by
  cases access <;> simp only [markUsed, reduceCtorEq, if_true, if_false, BitVec.or_assoc] <;> rfl

/-- The accessed bit of an entry is set. -/
theorem accessed_closed : EntryClosed fun e => e.perm ||| pteA = e.perm where
  mark access _ := markUsed_pteA _ access
  fill {_ leaf} _ _ _ _ access := by
    have hbyte : pteA &&& 0xFF = pteA := by decide
    calc markUsed leaf.pte access &&& 0xFF ||| pteA
        = (markUsed leaf.pte access ||| pteA) &&& 0xFF := by
          rw [BitVec.and_or_distrib_right, hbyte]
      _ = markUsed leaf.pte access &&& 0xFF := by rw [markUsed_pteA]

/-- A load or a fetch finds the bit it has to set in an entry that hits, and marks the leaf of its
page otherwise. -/
theorem shared_marksLeaf {s s' : Mmu × Bus} (hs : shared.Reachable (fun _ _ => True) s)
    {satp mstatus addr : U64} {mode : PrivMode} {access : AccessType} (haccess : access ≠ .store)
    {r : Except MmuFault U64} (h : Mmu.translate satp mode mstatus addr access s = some (r, s')) :
    MarksLeaf satp addr access s.2 s'.2 := by
  refine ((shared_placed hs).marksLeaf_iff h).mpr fun hrebuilds => ?_
  obtain ⟨⟨-, hhit, hne⟩, -⟩ := hrebuilds
  rw [slotHits, hits, Bool.and_eq_true, Bool.and_eq_true] at hhit
  rw [markUsed, if_neg haccess] at hne
  exact absurd (accessed_closed.shared hs _ hhit.1.1) hne

/-- In every state the unit reaches, a translation returns, and it sets allowed bits of the leaf
that maps the address exactly when it does not rebuild an entry that memory no longer holds. -/
theorem translate_marksLeaf_iff {s : Mmu × Bus} (hs : shared.Reachable (fun _ _ => True) s)
    (satp : U64) (mode : PrivMode) (mstatus addr : U64) (access : AccessType) :
    ∃ r s', translate satp mode mstatus addr access s = some (r, s') ∧
      (MarksLeaf satp addr access s.2 s'.2 ↔
        (Rebuilds s satp mode mstatus addr access →
          StillHeld satp addr access (s.1.tlb (tlbIndex (addr >>> 12))) s.2)) := by
  have hplaced := shared_placed hs
  obtain ⟨r, s', htranslate⟩ := hplaced.translate_returns satp mode mstatus addr access
  exact ⟨r, s', htranslate, hplaced.marksLeaf_iff htranslate⟩

/-- Tables that map the second page by an entry that is neither accessed nor dirty.  The entry has
the first of the bits reserved for software. -/
def taggedBus : Bus :=
  (Bus.new 0x5000 0x8000_0000).withWords
    [(0x0000, 0x2000_0401), (0x1000, 0x2000_0801), (0x2008, 0x2000_0D1F)]

/-- A user access to that page. -/
def taggedAccess (access : AccessType) : Call := .translate 0x8000_0000_0008_0000 .u 0 0x1000 access

/-- The unit after a load under some tables. -/
def warmed (b : Bus) : Mmu × Bus := ((taggedAccess .load).make (Mmu.new, b)).getD (Mmu.new, b)

theorem warmed_reachable (b : Bus) : shared.Reachable (fun _ _ => True) (warmed b) := by
  obtain ⟨r, s, hs⟩ := Placed.translate_returns (s := (Mmu.new, b))
    (fun _ hv => by cases hv) 0x8000_0000_0008_0000 .u 0 0x1000 .load
  have hmake : (taggedAccess .load).make (Mmu.new, b) = some s := by
    rw [taggedAccess, Call.make, hs]
    rfl
  have hwarm : warmed b = s := by
    rw [warmed, hmake]
    rfl
  have hinit : shared.Reachable (fun _ _ => True) (Mmu.new, b) := .init rfl
  rw [hwarm]
  exact hinit.step (l := .call (taggedAccess .load)) trivial hmake

/-- The tables with no bit reserved for software, after a load. -/
def plainWarm : Mmu × Bus :=
  warmed ((Bus.new 0x5000 0x8000_0000).withWords
    [(0x0000, 0x2000_0401), (0x1000, 0x2000_0801), (0x2008, 0x2000_0C1F)])

theorem plainWarm_entry :
    pteWord plainWarm.2 (plainWarm.1.tlb (tlbIndex (0x1000#64 >>> 12))).pteAddr =
      some 0x2000_0C5F := by decide +kernel

theorem plainWarm_rebuilds : Rebuilds plainWarm 0x8000_0000_0008_0000 .u 0 0x1000 .store := by
  have hpaged : Paged 0x8000_0000_0008_0000 .u 0x1000 3 := ⟨by decide, by decide, by decide⟩
  exact ⟨⟨⟨3, hpaged⟩, by decide +kernel, by decide +kernel⟩, by decide +kernel⟩

/-- A store finds the entry in the cache, and rebuilds the word with the dirty bit. -/
theorem plainWarm_store :
    ∃ r s', translate 0x8000_0000_0008_0000 .u 0 0x1000 .store plainWarm = some (r, s') ∧
      Rebuilds plainWarm 0x8000_0000_0008_0000 .u 0 0x1000 .store ∧
      MarksLeaf 0x8000_0000_0008_0000 0x1000 .store plainWarm.2 s'.2 := by
  obtain ⟨r, s', htranslate, hiff⟩ := translate_marksLeaf_iff (warmed_reachable _)
    0x8000_0000_0008_0000 .u 0 0x1000 .store
  refine ⟨r, s', htranslate, plainWarm_rebuilds, hiff.mpr fun _ w hw => ?_⟩
  obtain rfl : 0x2000_0C5F = w := Option.some.inj (plainWarm_entry.symm.trans hw)
  refine ⟨by decide +kernel, Or.inr ?_⟩
  have hfound : (findLeaf 0x1000 .store 3 (rootOf 0x8000_0000_0008_0000) plainWarm.2).map
      (fun p => p.1.map fun leaf => (leaf.pteAddr, aligned leaf.rem (pteNumber leaf.pte))) =
        some (.ok ((plainWarm.1.tlb (tlbIndex (0x1000#64 >>> 12))).pteAddr, true)) := by
    decide +kernel
  obtain ⟨⟨r, b'⟩, hwalk, hr⟩ := Option.map_eq_some_iff.mp hfound
  cases r with
  | error t => cases hr
  | ok leaf =>
      obtain ⟨haddr, hwhole⟩ := Prod.mk.inj (Except.ok.inj hr)
      exact ⟨leaf, ⟨⟨3, b', by decide, hwalk⟩, hwhole⟩, haddr⟩

/-- The unit after a load under the tables with the bit reserved for software. -/
def taggedWarm : Mmu × Bus := warmed taggedBus

theorem taggedWarm_reachable : shared.Reachable (fun _ _ => True) taggedWarm :=
  warmed_reachable taggedBus

theorem taggedWarm_entry :
    pteWord taggedWarm.2 (taggedWarm.1.tlb (tlbIndex (0x1000#64 >>> 12))).pteAddr =
      some 0x2000_0D5F := by decide +kernel

/-- A store sets the dirty bit and drops the bit reserved for software. -/
theorem taggedWarm_store :
    ∃ s satp mode mstatus addr access r s', shared.Reachable (fun _ _ => True) s ∧
      translate satp mode mstatus addr access s = some (r, s') ∧
      ¬ MarksLeaf satp addr access s.2 s'.2 := by
  have hplaced := shared_placed taggedWarm_reachable
  obtain ⟨r, s', htranslate⟩ := hplaced.translate_returns 0x8000_0000_0008_0000 .u 0 0x1000 .store
  refine ⟨taggedWarm, _, .u, 0, _, .store, r, s', taggedWarm_reachable, htranslate, ?_⟩
  rw [hplaced.marksLeaf_iff htranslate]
  intro hheld
  have hpaged : Paged 0x8000_0000_0008_0000 .u 0x1000 3 := ⟨by decide, by decide, by decide⟩
  have hword := (hheld ⟨⟨⟨3, hpaged⟩, by decide +kernel, by decide +kernel⟩, by decide +kernel⟩
    _ taggedWarm_entry).1
  exact absurd hword (by decide +kernel)

end Mmu

end RiscvEmu

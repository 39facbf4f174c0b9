import RiscvEmu.Translation.Tables

/-!
# The reference walk

The walk of the design, in numbers: an address is cut into indices and an offset, a table is a page
of words, and a leaf above the last level maps a larger page.  With an empty cache a translation is
this walk, as long as no table lies in device registers.
-/

namespace RiscvEmu

namespace Mmu

/-! ## The walk -/

/-- The word of RAM at an address, none outside RAM. -/
def ramWord (b : Bus) (pa : U64) : Option U64 :=
  match b.offset pa .b8 with
  | .ok off => some (Bytes.readLe b.ram.byte off 8)
  | .error _ => none

/-- The index into the table above `k` further levels. -/
def vpnIndex (va : U64) (k : Nat) : Nat := va.toNat / 2 ^ (12 + 9 * k) % 2 ^ 9

/-- The address of the word for a virtual address in a table. -/
def slotAddress (table : Nat) (va : U64) (k : Nat) : U64 :=
  BitVec.ofNat 64 (table * 2 ^ 12 + vpnIndex va k * 8)

/-- The page number in a word. -/
def ppnField (pte : U64) : Nat := pte.toNat / 2 ^ 10 % 2 ^ 44

/-- The word is not valid, or it can be written but not read. -/
def invalidWord (pte : U64) : Bool := !pte.getLsbD 0 || (pte.getLsbD 2 && !pte.getLsbD 1)

/-- The word maps a page: it can be read or executed. -/
def leafWord (pte : U64) : Bool := pte.getLsbD 1 || pte.getLsbD 3

/-- Descend the given number of levels from a table to a leaf, or give the cause of the fault. -/
def descend (b : Bus) (va : U64) (access : AccessType) : Nat → Nat → Except U64 Leaf
  | 0, _ => .error (pfCause access)
  | k + 1, table =>
      match ramWord b (slotAddress table va k) with
      | none => .error (afCause access)
      | some pte =>
          if invalidWord pte then .error (pfCause access)
          else if leafWord pte then .ok ⟨k, slotAddress table va k, pte⟩
          else descend b va access k (ppnField pte)

/-- The address is the sign extension of its translated part. -/
def Canonical (n : Nat) (va : U64) : Prop := va = (va.setWidth (12 + 9 * n)).signExtend 64

instance (n : Nat) (va : U64) : Decidable (Canonical n va) := inferInstanceAs (Decidable (_ = _))

/-- The address a leaf maps to: the upper bits of its page number, and the lower bits of the
virtual address. -/
def leafPa (leaf : Leaf) (va : U64) : U64 :=
  BitVec.ofNat 64 (ppnField leaf.pte / 2 ^ (9 * leaf.rem) * 2 ^ (12 + 9 * leaf.rem) +
    va.toNat % 2 ^ (12 + 9 * leaf.rem))

/-- The walk: the physical address and the leaf, or the cause of the fault. -/
def referenceWalk (b : Bus) (satp : U64) (n : Nat) (mode : PrivMode) (mstatus va : U64)
    (access : AccessType) : Except U64 (U64 × Leaf) :=
  if ¬ Canonical n va then .error (pfCause access)
  else
    match descend b va access n (satp.toNat % 2 ^ 44) with
    | .error cause => .error cause
    | .ok leaf =>
        if ppnField leaf.pte % 2 ^ (9 * leaf.rem) ≠ 0 then .error (pfCause access)
        else
          match checkPerms (leaf.pte &&& 0xFF) mstatus mode access va with
          | .error _ => .error (pfCause access)
          | .ok () => .ok (leafPa leaf va, leaf)

/-- No table on the way lies in device registers. -/
def NoDeviceTables (b : Bus) (va : U64) : Nat → Nat → Prop
  | 0, _ => True
  | k + 1, table =>
      region (slotAddress table va k) = .ram ∧
        ∀ pte, ramWord b (slotAddress table va k) = some pte → invalidWord pte = false →
          leafWord pte = false → NoDeviceTables b va k (ppnField pte)

/-! ## Words and indices -/

theorem vpnPart_toNat (va : U64) (k : Nat) : (vpnPart va k).toNat = vpnIndex va k := by
  have hmask : (0x1FF : U64).toNat = 2 ^ 9 - 1 := rfl
  rw [vpnPart, BitVec.toNat_and, hmask, Nat.and_two_pow_sub_one_eq_mod, BitVec.toNat_ushiftRight,
    Nat.shiftRight_eq_div_pow, Nat.mul_comm k 9]
  rfl

theorem vpnIndex_lt (va : U64) (k : Nat) : vpnIndex va k < 512 := Nat.mod_lt _ (by decide)

theorem pteNumber_toNat (pte : U64) : (pteNumber pte).toNat = ppnField pte := by
  have hmask : (0x0FFF_FFFF_FFFF : U64).toNat = 2 ^ 44 - 1 := rfl
  rw [pteNumber, BitVec.toNat_and, hmask, Nat.and_two_pow_sub_one_eq_mod,
    BitVec.toNat_ushiftRight, Nat.shiftRight_eq_div_pow]
  rfl

theorem ppnField_lt (pte : U64) : ppnField pte < 2 ^ 44 := Nat.mod_lt _ (by decide)

/-- The slot the code computes. -/
theorem slot_eq_slotAddress {t : U64} {table : Nat} (ht : t.toNat = table) (va : U64) (k : Nat) :
    (t <<< 12) + vpnPart va k * 8 = slotAddress table va k := by
  have hidx := vpnPart_toNat va k
  have hbound := vpnIndex_lt va k
  apply BitVec.eq_of_toNat_eq
  rw [BitVec.toNat_add, BitVec.toNat_shiftLeft, BitVec.toNat_mul, Nat.shiftLeft_eq, ht, hidx,
    slotAddress, BitVec.toNat_ofNat]
  change (table * 2 ^ 12 % 2 ^ 64 + vpnIndex va k * 8 % 2 ^ 64) % 2 ^ 64 = _
  omega

theorem and_twoPow_eq_zero (v : U64) {i : Nat} (hi : i < 64) :
    v &&& BitVec.twoPow 64 i = 0 ↔ v.getLsbD i = false := by
  rw [BitVec.and_twoPow]
  cases hbit : v.getLsbD i with
  | false => simp
  | true =>
      have hone : BitVec.twoPow 64 i ≠ 0 := by
        intro hzero
        have hself := congrArg (fun w : U64 => w.getLsbD i) hzero
        simp [hi] at hself
      simpa using hone

theorem badPte_eq_invalidWord (pte : U64) : badPte pte = invalidWord pte := by
  have hV := and_twoPow_eq_zero pte (by decide : 0 < 64)
  have hR := and_twoPow_eq_zero pte (by decide : 1 < 64)
  have hW := and_twoPow_eq_zero pte (by decide : 2 < 64)
  change pte &&& pteV = 0 ↔ _ at hV
  change pte &&& pteR = 0 ↔ _ at hR
  change pte &&& pteW = 0 ↔ _ at hW
  rw [badPte, invalidWord]
  simp only [ne_eq, hV, hR, hW]
  cases pte.getLsbD 0 <;> cases pte.getLsbD 1 <;> cases pte.getLsbD 2 <;> rfl

theorem leafPte_eq_leafWord (pte : U64) : leafPte pte = leafWord pte := by
  have hR := and_twoPow_eq_zero pte (by decide : 1 < 64)
  have hX := and_twoPow_eq_zero pte (by decide : 3 < 64)
  change pte &&& pteR = 0 ↔ _ at hR
  change pte &&& pteX = 0 ↔ _ at hX
  have hboth : pte &&& (pteR ||| pteX) = 0 ↔ pte &&& pteR = 0 ∧ pte &&& pteX = 0 := by
    rw [BitVec.and_or_distrib_left]
    exact BitVec.or_eq_zero_iff
  rw [leafPte, leafWord]
  simp only [ne_eq, hboth, hR, hX]
  cases pte.getLsbD 1 <;> cases pte.getLsbD 3 <;> rfl

/-- An address is canonical when its upper bits repeat the highest translated one. -/
theorem canonical_iff_bits (n : Nat) (va : U64) : Canonical n va ↔
    ∀ i, 12 + 9 * n ≤ i → i < 64 → va.getLsbD i = va.getLsbD (12 + 9 * n - 1) := by
  have hmsb : (va.setWidth (12 + 9 * n)).msb = va.getLsbD (12 + 9 * n - 1) := by
    rw [BitVec.msb_eq_getLsbD_last, BitVec.getLsbD_setWidth]
    simp
  constructor
  · intro h i hlow hi
    have hbit := congrArg (fun v : U64 => v.getLsbD i) h
    simp only [BitVec.getLsbD_signExtend, hmsb, hi, decide_true, Bool.true_and] at hbit
    rwa [if_neg (by omega)] at hbit
  · intro h
    apply BitVec.eq_of_getLsbD_eq
    intro i hi
    simp only [BitVec.getLsbD_signExtend, hmsb, hi, decide_true, Bool.true_and]
    split
    · rename_i hlow
      simp [hlow]
    · exact h i (by omega) hi

theorem canonical_iff {n : Nat} (hn : n ≤ 5) (va : U64) :
    canonical n va = true ↔ Canonical n va := by
  rw [canonical_iff_bits, canonical, decide_eq_true_iff, Nat.mul_comm n 9]
  -- bit `j` of the shifted address is bit `sign + j` of the address, or its highest one
  have hbit : ∀ j < 64, (va.sshiftRight (12 + 9 * n - 1)).getLsbD j =
      if 12 + 9 * n - 1 + j < 64 then va.getLsbD (12 + 9 * n - 1 + j) else va.getLsbD 63 := by
    intro j hj
    rw [BitVec.getLsbD_sshiftRight, BitVec.msb_eq_getLsbD_last]
    simp [hj]
  have hones : ∀ j < 64, u64Max.getLsbD j = true := by decide
  constructor
  · intro htop i hlow hi
    have hi' := hbit (i - (12 + 9 * n - 1)) (by omega)
    have h0 := hbit 0 (by omega)
    rw [if_pos (by omega), Nat.add_sub_of_le (by omega)] at hi'
    rw [if_pos (by omega), Nat.add_zero] at h0
    rw [← hi', ← h0]
    rcases htop with htop | htop
    · rw [htop]
      simp
    · rw [htop, hones _ (by omega), hones _ (by omega)]
  · intro h
    have hall : ∀ j < 64, (va.sshiftRight (12 + 9 * n - 1)).getLsbD j =
        va.getLsbD (12 + 9 * n - 1) := by
      intro j hj
      rw [hbit j hj]
      split
      · by_cases hzero : j = 0
        · rw [hzero, Nat.add_zero]
        · exact h _ (by omega) (by omega)
      · exact h 63 (by omega) (by omega)
    cases hsign : va.getLsbD (12 + 9 * n - 1) with
    | false =>
        refine Or.inl (BitVec.eq_of_getLsbD_eq fun j hj => ?_)
        rw [hall j hj, hsign]
        simp
    | true =>
        refine Or.inr (BitVec.eq_of_getLsbD_eq fun j hj => ?_)
        rw [hall j hj, hsign, hones j hj]

theorem aligned_iff {k : Nat} (hk : k < 5) (pte : U64) :
    aligned k (pteNumber pte) = true ↔ ppnField pte % 2 ^ (9 * k) = 0 := by
  have hmask : ∀ k < 5, ((1 <<< (k * 9)) - 1 : U64).toNat = 2 ^ (9 * k) - 1 := by decide
  have hand : pteNumber pte &&& ((1 <<< (k * 9)) - 1) = 0 ↔ ppnField pte % 2 ^ (9 * k) = 0 := by
    rw [← BitVec.toNat_inj, BitVec.toNat_and, hmask k hk, pteNumber_toNat,
      Nat.and_two_pow_sub_one_eq_mod]
    rfl
  rw [aligned, decide_eq_true_iff]
  constructor
  · intro h
    by_cases hzero : k = 0
    · subst hzero
      exact Nat.mod_one _
    · exact hand.mp (h (Nat.pos_of_ne_zero hzero))
  · intro h _
    exact hand.mpr h

theorem leafAddress_eq {leaf : Leaf} (hk : leaf.rem < 5) (va : U64) :
    leafAddress leaf.rem (pteNumber leaf.pte) va = leafPa leaf va := by
  have hmask : ∀ k < 5, ((1 <<< (12 + k * 9)) - 1 : U64).toNat = 2 ^ (12 + 9 * k) - 1 := by decide
  have hlow : va.toNat % 2 ^ (12 + 9 * leaf.rem) < 2 ^ (12 + 9 * leaf.rem) :=
    Nat.mod_lt _ (Nat.two_pow_pos _)
  have hppn := ppnField_lt leaf.pte
  have hhigh : ppnField leaf.pte / 2 ^ (9 * leaf.rem) * 2 ^ (12 + 9 * leaf.rem) < 2 ^ 56 := by
    have hle := Nat.div_mul_le_self (ppnField leaf.pte) (2 ^ (9 * leaf.rem))
    rw [Nat.pow_add, Nat.mul_comm (2 ^ 12), ← Nat.mul_assoc]
    omega
  have hsum : ppnField leaf.pte / 2 ^ (9 * leaf.rem) * 2 ^ (12 + 9 * leaf.rem) +
      va.toNat % 2 ^ (12 + 9 * leaf.rem) < 2 ^ 64 := by
    have hpage : 2 ^ (12 + 9 * leaf.rem) ≤ 2 ^ 48 := Nat.pow_le_pow_right (by decide) (by omega)
    omega
  apply BitVec.eq_of_toNat_eq
  rw [leafAddress, leafPa, BitVec.toNat_ofNat, Nat.mod_eq_of_lt hsum,
    BitVec.toNat_or, BitVec.toNat_shiftLeft, BitVec.toNat_ushiftRight, BitVec.toNat_and,
    hmask _ hk, pteNumber_toNat, Nat.and_two_pow_sub_one_eq_mod, Nat.shiftRight_eq_div_pow,
    Nat.mul_comm leaf.rem 9]
  have hshift : (ppnField leaf.pte / 2 ^ (9 * leaf.rem)) <<< (12 + 9 * leaf.rem) % 2 ^ 64 =
      (ppnField leaf.pte / 2 ^ (9 * leaf.rem)) <<< (12 + 9 * leaf.rem) := by
    rw [Nat.shiftLeft_eq]
    exact Nat.mod_eq_of_lt (by omega)
  rw [hshift, ← Nat.shiftLeft_add_eq_or_of_lt hlow, Nat.shiftLeft_eq]

/-! ## The walk of the code -/

/-- A load of a slot that lies in no device. -/
theorem load_ramWord (b : Bus) {pa : U64} (hr : region pa = .ram) :
    (∃ w, ramWord b pa = some w ∧ Bus.load pa .b8 b = some (.ok w, b)) ∨
      (∃ e, ramWord b pa = none ∧ Bus.load pa .b8 b = some (.error e, b)) := by
  rw [ramWord]
  cases ho : b.offset pa .b8 with
  | ok off => exact Or.inl ⟨_, rfl, Bus.load_ram hr ho⟩
  | error e => exact Or.inr ⟨e, rfl, Bus.load_ram_error hr ho⟩

/-- Looking for a leaf is the descent. -/
theorem findLeaf_eq_descend {va : U64} (access : AccessType) {b : Bus} :
    ∀ {k : Nat} {t : U64} {table : Nat}, t.toNat = table → NoDeviceTables b va k table →
      findLeaf va access k (t <<< 12) b =
        some (match descend b va access k table with
          | .error cause => .error ⟨cause, va⟩
          | .ok leaf => .ok leaf, b)
  | 0, _, _, _, _ => rfl
  | k + 1, t, table, ht, ⟨hr, hnext⟩ => by
      rw [findLeaf, descend, slot_eq_slotAddress ht]
      rcases load_ramWord b hr with ⟨w, hw, hload⟩ | ⟨e, hw, hload⟩
      · simp only [hload, hw]
        rw [badPte_eq_invalidWord, leafPte_eq_leafWord]
        cases hbad : invalidWord w with
        | true => rfl
        | false =>
            cases hleaf : leafWord w with
            | true => rfl
            | false => exact findLeaf_eq_descend access (pteNumber_toNat w) (hnext w hw hbad hleaf)
      · simp only [hload, hw]

/-- The leaf of a descent lies below the levels it went. -/
theorem descend_rem_lt {b : Bus} {va : U64} {access : AccessType} {leaf : Leaf} :
    ∀ {k table : Nat}, descend b va access k table = .ok leaf → leaf.rem < k
  | 0, _, h => by cases h
  | k + 1, table, h => by
      rw [descend] at h
      split at h
      · cases h
      · split at h
        · cases h
        · split at h
          · cases h
            exact Nat.lt_succ_self k
          · exact Nat.lt_succ_of_lt (descend_rem_lt h)

/-! ## Translation -/

/-- What a walk of the code does is what the reference walk says: the fault leaves everything, and
a leaf gives its address and enters the cache if it maps a page of 4 KiB. -/
theorem walk_eq_reference (satp : U64) {n : Nat} (mode : PrivMode) (mstatus : U64) {va : U64}
    (access : AccessType) (m : Mmu) {b : Bus} (hn : n ≤ 5) (hcanonical : Canonical n va)
    (htables : NoDeviceTables b va n (satp.toNat % 2 ^ 44)) :
    match referenceWalk b satp n mode mstatus va access with
    | .error cause =>
        walk (asidOf satp) mode mstatus va access n (rootOf satp) (m, b) =
          some (.error ⟨cause, va⟩, (m, b))
    | .ok (pa, leaf) =>
        ∃ b', walk (asidOf satp) mode mstatus va access n (rootOf satp) (m, b) =
          some (.ok pa, (m.fill leaf (asidOf satp) va (markUsed leaf.pte access), b')) := by
  have hroot : (satp &&& 0x0FFF_FFFF_FFFF).toNat = satp.toNat % 2 ^ 44 := by
    rw [BitVec.toNat_and]
    exact Nat.and_two_pow_sub_one_eq_mod satp.toNat 44
  have hfind := findLeaf_eq_descend access hroot htables
  rw [referenceWalk, if_neg (not_not.mpr hcanonical)]
  cases hdescend : descend b va access n (satp.toNat % 2 ^ 44) with
  | error cause =>
      simp only [hdescend] at hfind
      simp only [walk, rootOf, hfind]
  | ok leaf =>
      simp only [hdescend] at hfind
      have hst : Storable (m, b).2 leaf.pteAddr := (findLeaf_found hfind).1.storable
      have hrem : leaf.rem < 5 := Nat.lt_of_lt_of_le (descend_rem_lt hdescend) hn
      obtain ⟨r, s', huse⟩ := useLeaf_returns (asidOf satp) mode mstatus va access hst
      have hwalk : walk (asidOf satp) mode mstatus va access n (rootOf satp) (m, b) =
          some (r, s') := by
        simp only [walk, rootOf, hfind, huse]
      dsimp only
      rcases useLeaf_cases hst huse with ⟨hfail, rfl, rfl⟩ | ⟨hal, hperm, rfl, hm, -⟩
      · rcases hfail with hal | hperm
        · have hmis : ppnField leaf.pte % 2 ^ (9 * leaf.rem) ≠ 0 := by
            intro hzero
            rw [(aligned_iff hrem leaf.pte).mpr hzero] at hal
            cases hal
          rw [if_pos hmis]
          exact hwalk
        · rw [hperm]
          split
          · rename_i hres
            split at hres
            · cases hres
              exact hwalk
            · cases hres
              exact hwalk
          · rename_i hres
            split at hres
            · cases hres
            · cases hres
      · have halign := (aligned_iff hrem leaf.pte).mp hal
        rw [if_neg (not_not.mpr halign), hperm]
        refine ⟨s'.2, ?_⟩
        rw [← hm, ← leafAddress_eq hrem]
        exact hwalk

/-- With an empty cache a translation of the supervisor or the user is the reference walk.  A fault
reports the virtual address, and of the leaves only those of 4 KiB enter the cache. -/
theorem translate_eq_reference (satp : U64) (n : Nat) (mode : PrivMode) (mstatus va : U64)
    (access : AccessType) (m : Mmu) (b : Bus)
    (hlevels : satp >>> 60 = 8 ∧ n = 3 ∨ satp >>> 60 = 10 ∧ n = 5) (hmode : mode ≠ .m)
    (hcold : ∀ i, (m.tlb i).valid = false)
    (htables : NoDeviceTables b va n (satp.toNat % 2 ^ 44)) :
    match referenceWalk b satp n mode mstatus va access with
    | .error cause =>
        translate satp mode mstatus va access (m, b) = some (.error ⟨cause, va⟩, (m, b))
    | .ok (pa, leaf) =>
        ∃ m' b', translate satp mode mstatus va access (m, b) = some (.ok pa, (m', b')) ∧
          (leaf.rem ≠ 0 → m' = m) ∧
          (leaf.rem = 0 → m'.tlb = Function.update m.tlb (tlbIndex (va >>> 12))
            (leafEntry leaf (asidOf satp) va (markUsed leaf.pte access))) := by
  have hdepth : levels satp = some n ∧ n ≤ 5 := by
    rcases hlevels with ⟨h8, rfl⟩ | ⟨h10, rfl⟩
    · exact ⟨by rw [levels, h8]; rfl, by decide⟩
    · exact ⟨by rw [levels, h10]; rfl, by decide⟩
  obtain ⟨hn, hle⟩ := hdepth
  by_cases hcanonical : Canonical n va
  · have hpaged : Paged satp mode va n := ⟨hn, hmode, (canonical_iff hle va).mpr hcanonical⟩
    have hmiss : hits ((m, b).1.tlb (tlbIndex (va >>> 12))) (va >>> 12) (asidOf satp) = false := by
      simp [hits, hcold]
    have hwalk := walk_eq_reference satp mode mstatus access m hle hcanonical htables
    rw [translate_walk hpaged hmiss]
    cases href : referenceWalk b satp n mode mstatus va access with
    | error cause =>
        simp only [href] at hwalk
        exact hwalk
    | ok p =>
        obtain ⟨pa, leaf⟩ := p
        simp only [href] at hwalk
        obtain ⟨b', hwalk⟩ := hwalk
        refine ⟨_, b', hwalk, fun hrem => ?_, fun hrem => ?_⟩
        · rw [fill, if_neg hrem]
        · rw [fill, if_pos hrem]
  · have hfalse : canonical n va = false := by
      rw [← Bool.not_eq_true, canonical_iff hle]
      exact hcanonical
    rw [referenceWalk, if_pos hcanonical]
    exact translate_noncanonical hn hmode hfalse

/-- RAM in which every word maps a page of 1 GiB at the start of RAM. -/
def gigapageBus : Bus :=
  { Bus.new 0x5000 0x8000_0000 with
    ram := { byte := fun a => Bytes.byteAt 0x2000_00CF (a % 8), len := 0x5000 } }

/-- The root of the tables is the first page of RAM. -/
def gigapageSatp : U64 := 0x8000_0000_0008_0000

theorem gigapageBus_tables :
    NoDeviceTables gigapageBus 0x1234 3 (gigapageSatp.toNat % 2 ^ 44) := by
  refine ⟨by decide, fun pte hpte _ hpointer => ?_⟩
  have hword : ramWord gigapageBus (slotAddress (gigapageSatp.toNat % 2 ^ 44) 0x1234 2) =
      some 0x2000_00CF := by decide
  rw [hword] at hpte
  cases hpte
  exact absurd hpointer (by decide)

/-- A load in a gigapage: the address keeps its low 30 bits, and the cache stays empty. -/
theorem gigapageBus_translate :
    ∃ b', translate gigapageSatp .s 0 0x1234 .load (Mmu.new, gigapageBus) =
      some (.ok 0x8000_1234, (Mmu.new, b')) := by
  have href : referenceWalk gigapageBus gigapageSatp 3 .s 0 0x1234 .load =
      .ok (0x8000_1234, ⟨2, 0x8000_0000, 0x2000_00CF⟩) := by decide
  have h := translate_eq_reference gigapageSatp 3 .s 0 0x1234 .load Mmu.new gigapageBus
    (Or.inl ⟨by decide, rfl⟩) (by decide) (fun _ => rfl) gigapageBus_tables
  rw [href] at h
  obtain ⟨m', b', htranslate, hsuper, -⟩ := h
  rw [hsuper (by decide)] at htranslate
  exact ⟨b', htranslate⟩

end Mmu

end RiscvEmu

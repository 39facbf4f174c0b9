import RiscvEmu.Translation.Permission
import RiscvEmu.Translation.Marking

/-!
# Translations of one page

Every byte of a page is translated through the same leaf.  So once one address translates, the
addresses after it in its page translate in the same state, and to the physical addresses after
its own (`translate_add`).  A translation for a store answers for a load too, when the leaf can
be read (`translate_load_of_store`).
-/

namespace RiscvEmu

namespace Mmu

/-! ## Addresses of one page -/

theorem getLsbD_of_samePage {a a' : U64} (h : a >>> 12 = a' >>> 12) {j : Nat} (hj : 12 ≤ j) :
    a.getLsbD j = a'.getLsbD j := by
  have hbit := congrArg (fun v => v.getLsbD (j - 12)) h
  simpa only [BitVec.getLsbD_ushiftRight, show 12 + (j - 12) = j by omega] using hbit

theorem canonical_samePage {a a' : U64} (h : a >>> 12 = a' >>> 12) {n : Nat} (hn : 0 < n) :
    canonical n a = canonical n a' := by
  have hmsb : a.msb = a'.msb := by
    rw [BitVec.msb_eq_getLsbD_last, BitVec.msb_eq_getLsbD_last]
    exact getLsbD_of_samePage h (by decide)
  have htop : a.sshiftRight (12 + n * 9 - 1) = a'.sshiftRight (12 + n * 9 - 1) := by
    apply BitVec.eq_of_getLsbD_eq
    intro i hi
    rw [BitVec.getLsbD_sshiftRight, BitVec.getLsbD_sshiftRight, hmsb,
      getLsbD_of_samePage h (show 12 ≤ 12 + n * 9 - 1 + i by omega)]
  rw [canonical, canonical, htop]

theorem vpnPart_samePage {a a' : U64} (h : a >>> 12 = a' >>> 12) (rem : Nat) :
    vpnPart a rem = vpnPart a' rem := by
  rw [vpnPart, vpnPart, BitVec.shiftRight_add, h, ← BitVec.shiftRight_add]

/-- The leaf a walk finds depends on the page only. -/
theorem findLeaf_samePage {a a' : U64} (h : a >>> 12 = a' >>> 12) {access : AccessType}
    (access' : AccessType) :
    ∀ {n : Nat} {t : U64} {b b' : Bus} {leaf : Leaf},
      findLeaf a access n t b = some (.ok leaf, b') →
        findLeaf a' access' n t b = some (.ok leaf, b')
  | 0, _, _, _, _, hf => by cases hf
  | n + 1, t, b, b', leaf, hf => by
      rw [findLeaf] at hf ⊢
      rw [vpnPart_samePage h] at hf
      cases hl : Bus.load (t + vpnPart a' n * 8) .b8 b with
      | none => simp only [hl] at hf; cases hf
      | some p =>
          obtain ⟨r, b₁⟩ := p
          cases r with
          | error e => simp only [hl] at hf; cases hf
          | ok pte =>
              simp only [hl] at hf ⊢
              split at hf
              · cases hf
              · rename_i hbad
                rw [if_neg hbad]
                split at hf
                · rename_i hleaf
                  rw [if_pos hleaf]
                  exact hf
                · rename_i hleaf
                  rw [if_neg hleaf]
                  exact findLeaf_samePage h access' hf

/-- An address inside the page of another has the same page number. -/
theorem add_samePage {addr : U64} {i : Nat} (hi : addr.toNat % 4096 + i < 4096) :
    (addr + BitVec.ofNat 64 i) >>> 12 = addr >>> 12 := by
  have hlt := addr.isLt
  apply BitVec.eq_of_toNat_eq
  rw [BitVec.toNat_ushiftRight, BitVec.toNat_ushiftRight, BitVec.toNat_add, BitVec.toNat_ofNat,
    Nat.shiftRight_eq_div_pow, Nat.shiftRight_eq_div_pow]
  omega

/-- The low bits of an address. -/
theorem and_lowMask (addr : U64) {p : Nat} (hp : p < 64) :
    (addr &&& ((1 <<< p) - 1)).toNat = addr.toNat % 2 ^ p := by
  have hpow : 2 ^ p < 2 ^ 64 := Nat.pow_lt_pow_right (by decide) hp
  have hpos : 0 < 2 ^ p := Nat.two_pow_pos p
  have hone : ((1 <<< p : Nat) : U64).toNat = 2 ^ p := by
    rw [BitVec.natCast_eq_ofNat, BitVec.toNat_ofNat, Nat.one_shiftLeft, Nat.mod_eq_of_lt hpow]
  have hmask : (((1 <<< p : Nat) : U64) - 1).toNat = 2 ^ p - 1 := by
    rw [BitVec.toNat_sub, hone, show (1 : U64).toNat = 1 from rfl]
    omega
  rw [BitVec.toNat_and, hmask, Nat.and_two_pow_sub_one_eq_mod]

/-- The address a leaf maps to: the base of the page and the offset in it. -/
theorem leafAddress_toNat {rem : Nat} (hrem : 12 + rem * 9 < 64) (ppn addr : U64) :
    (leafAddress rem ppn addr).toNat =
      ((ppn >>> (rem * 9)) <<< (12 + rem * 9)).toNat + addr.toNat % 2 ^ (12 + rem * 9) := by
  have hlow := and_lowMask addr hrem
  have hdisj : (ppn >>> (rem * 9)) <<< (12 + rem * 9) &&&
      (addr &&& ((1 <<< (12 + rem * 9)) - 1)) = 0#64 := by
    apply BitVec.eq_of_getLsbD_eq
    intro j hj
    rw [BitVec.getLsbD_and, BitVec.getLsbD_shiftLeft]
    by_cases hlt : j < 12 + rem * 9
    · simp [hlt]
    · have hbit : (addr &&& ((1 <<< (12 + rem * 9)) - 1)).getLsbD j = false := by
        rw [BitVec.getLsbD, hlow]
        refine Nat.testBit_lt_two_pow (Nat.lt_of_lt_of_le (Nat.mod_lt _ (Nat.two_pow_pos _)) ?_)
        exact Nat.pow_le_pow_right (by decide) (by omega)
      rw [hbit]
      simp
  rw [leafAddress, ← BitVec.add_eq_or_of_and_eq_zero _ _ hdisj, BitVec.toNat_add, hlow]
  refine Nat.mod_eq_of_lt ?_
  -- the base is a multiple of the page size, so the offset does not carry out
  have hbase := ((ppn >>> (rem * 9)) <<< (12 + rem * 9)).isLt
  have hdvd : 2 ^ (12 + rem * 9) ∣ ((ppn >>> (rem * 9)) <<< (12 + rem * 9)).toNat := by
    rw [BitVec.toNat_shiftLeft, Nat.shiftLeft_eq]
    refine (Nat.dvd_mod_iff ?_).mpr (Nat.dvd_mul_left _ _)
    exact Nat.pow_dvd_pow 2 (by omega)
  obtain ⟨k, hk⟩ := hdvd
  have hsplit : 2 ^ 64 = 2 ^ (12 + rem * 9) * 2 ^ (64 - (12 + rem * 9)) := by
    rw [← Nat.pow_add]
    congr 1
    omega
  rw [hk, hsplit] at hbase ⊢
  have hk' : k + 1 ≤ 2 ^ (64 - (12 + rem * 9)) := Nat.lt_of_mul_lt_mul_left hbase
  calc 2 ^ (12 + rem * 9) * k + addr.toNat % 2 ^ (12 + rem * 9)
      < 2 ^ (12 + rem * 9) * k + 2 ^ (12 + rem * 9) :=
        Nat.add_lt_add_left (Nat.mod_lt _ (Nat.two_pow_pos _)) _
    _ = 2 ^ (12 + rem * 9) * (k + 1) := by rw [Nat.mul_add, Nat.mul_one]
    _ ≤ 2 ^ (12 + rem * 9) * 2 ^ (64 - (12 + rem * 9)) := Nat.mul_le_mul_left _ hk'

/-- The addresses of one page are mapped to the addresses of one frame. -/
theorem leafAddress_add {rem : Nat} (hrem : 12 + rem * 9 < 64) (ppn : U64) {addr : U64} {i : Nat}
    (hi : addr.toNat % 4096 + i < 4096) :
    leafAddress rem ppn (addr + BitVec.ofNat 64 i) =
      leafAddress rem ppn addr + BitVec.ofNat 64 i := by
  have hlt := addr.isLt
  have hbound := (leafAddress rem ppn addr).isLt
  have hbound' := (leafAddress rem ppn (addr + BitVec.ofNat 64 i)).isLt
  have hsum : (addr + BitVec.ofNat 64 i).toNat = addr.toNat + i := by
    rw [BitVec.toNat_add, BitVec.toNat_ofNat]
    omega
  have hmod : (addr.toNat + i) % 2 ^ (12 + rem * 9) = addr.toNat % 2 ^ (12 + rem * 9) + i := by
    obtain ⟨m, hm⟩ : ∃ m, 2 ^ (12 + rem * 9) = 4096 * m :=
      ⟨2 ^ (rem * 9), by rw [Nat.pow_add]⟩
    have hpos : 0 < 4096 * m := hm ▸ Nat.two_pow_pos _
    rw [hm]
    have hlow : addr.toNat % (4096 * m) % 4096 = addr.toNat % 4096 := Nat.mod_mul_right_mod ..
    have hr := Nat.mod_lt addr.toNat hpos
    have hfit : addr.toNat % (4096 * m) + i < 4096 * m := by
      have hdm := Nat.div_add_mod (addr.toNat % (4096 * m)) 4096
      have hq : addr.toNat % (4096 * m) / 4096 < m := Nat.div_lt_of_lt_mul hr
      have hle : 4096 * (addr.toNat % (4096 * m) / 4096 + 1) ≤ 4096 * m :=
        Nat.mul_le_mul_left _ hq
      omega
    rw [Nat.add_mod, Nat.mod_eq_of_lt (a := i) (by omega), Nat.mod_eq_of_lt hfit]
  apply BitVec.eq_of_toNat_eq
  rw [leafAddress_toNat hrem, hsum, hmod] at hbound' ⊢
  rw [leafAddress_toNat hrem] at hbound
  rw [BitVec.toNat_add, leafAddress_toNat hrem, BitVec.toNat_ofNat]
  omega

theorem entryAddress_add (e : TlbEntry) {addr : U64} {i : Nat}
    (hi : addr.toNat % 4096 + i < 4096) :
    entryAddress e (addr + BitVec.ofNat 64 i) = entryAddress e addr + BitVec.ofNat 64 i := by
  rw [entryAddress, entryAddress, ← leafAddress_zero, ← leafAddress_zero]
  exact leafAddress_add (by decide) e.ppn hi

/-! ## User mappings -/

/-- The permission bits of the leaf that maps an address: those of the cache entry that answers,
or those of the word a walk finds. -/
def leafPerm (s : Mmu × Bus) (satp addr : U64) (access : AccessType) : Option U64 :=
  if s.1.slotHits satp addr then some (s.1.tlb (tlbIndex (addr >>> 12))).perm
  else (walkLeaf satp addr access s.2).map Leaf.pte

/-- In U-mode the address translates to the given one, through a leaf for users that can be
written when the access is a store. -/
structure MapsUser (satp mstatus : U64) (s : Mmu × Bus) (access : AccessType) (va pa : U64) :
    Prop where
  translates : ∃ s', translate satp .u mstatus va access s = some (.ok pa, s')
  leaf : ∃ w, leafPerm s satp va access = some w ∧ w &&& pteU ≠ 0 ∧
    (access = .store → w &&& pteW ≠ 0)

section

variable {satp mstatus va va' pa : U64} {access : AccessType} {s s' : Mmu × Bus}

theorem levels_pos {n : Nat} (h : levels satp = some n) : 0 < n ∧ n ≤ 5 := by
  unfold levels at h
  split at h <;> cases h <;> decide

/-- A leaf that passes the check in U-mode is one for users. -/
theorem user_of_checkPerms {w tval : U64} (h : checkPerms w mstatus .u access tval = .ok ()) :
    w &&& pteU ≠ 0 ∧ (access = .store → w &&& pteW ≠ 0) := by
  obtain ⟨hmode, haccess⟩ := checkPerms_eq_ok.mp h
  refine ⟨by simpa [modeRejects] using hmode, ?_⟩
  rintro rfl
  simpa [accessRejects] using haccess

/-- The check does not depend on the address. -/
theorem checkPerms_addr {w : U64} {mode : PrivMode}
    (h : checkPerms w mstatus mode access va = .ok ()) (va' : U64) :
    checkPerms w mstatus mode access va' = .ok () :=
  checkPerms_eq_ok.mpr (checkPerms_eq_ok.mp h)

/-- A hit answers for every address of the page. -/
theorem hit_addr {i : Fin 64} {mode : PrivMode}
    (h : hit i mode mstatus va access s = some (.ok pa, s')) (va' : U64) :
    hit i mode mstatus va' access s = some (.ok (entryAddress (s.1.tlb i) va'), s') := by
  rcases hit_cases h with ⟨_, hr, _⟩ | ⟨hc, _, _, _⟩
  · cases hr
  · rw [hit] at h ⊢
    simp only [hc] at h
    simp only [checkPerms_addr hc va']
    split at h
    · rename_i hne
      rw [if_pos hne]
      split at h
      · cases h
      · cases h
        rfl
    · rename_i heq
      cases h
      rw [if_neg heq]
      rfl

/-- A leaf answers for every address of the page. -/
theorem useLeaf_addr {leaf : Leaf} {asid : U16} {mode : PrivMode}
    (h : useLeaf leaf asid mode mstatus va access s = some (.ok pa, s'))
    (hpage : va >>> 12 = va' >>> 12) :
    useLeaf leaf asid mode mstatus va' access s =
      some (.ok (leafAddress leaf.rem (pteNumber leaf.pte) va'), s') := by
  have hfill : ∀ pte, s.1.fill leaf asid va pte = s.1.fill leaf asid va' pte := by
    intro pte
    rw [fill, fill, leafEntry, leafEntry, hpage]
  rw [useLeaf] at h ⊢
  split at h
  · cases h
  · rename_i hal
    rw [if_neg hal]
    split at h
    · cases h
    · rename_i hc
      rw [checkPerms_addr hc va']
      simp only [hfill] at h ⊢
      split at h
      · rename_i hne
        rw [if_pos hne]
        split at h
        · cases h
        · cases h
        · cases h
          rfl
      · rename_i heq
        cases h
        rw [if_neg heq]

/-- Where one address of a page translates, the addresses after it in the page translate to the
addresses after its own. -/
theorem translate_add {mode : PrivMode}
    (h : translate satp mode mstatus va access s = some (.ok pa, s')) {i : Nat}
    (hi : va.toNat % 4096 + i < 4096) :
    translate satp mode mstatus (va + BitVec.ofNat 64 i) access s =
      some (.ok (pa + BitVec.ofNat 64 i), s') := by
  have hpage := add_samePage hi
  cases translate_ended h with
  | bare hbare => exact translate_bare hbare
  | @hit n _ _ hp hh hr =>
      have hp' : Paged satp mode (va + BitVec.ofNat 64 i) n :=
        ⟨hp.depth, hp.notMachine,
          (canonical_samePage hpage (levels_pos hp.depth).1).trans hp.inRange⟩
      rw [translate_hit hp' (by rw [hpage]; exact hh), hpage, hit_addr hr, entryAddress_add _ hi]
      rcases hit_cases hr with ⟨_, heq, _⟩ | ⟨_, heq, _⟩
      · cases heq
      · cases heq
        rfl
  | @leaf n leaf b _ _ hp hh hf hfound hu =>
      have hp' : Paged satp mode (va + BitVec.ofNat 64 i) n :=
        ⟨hp.depth, hp.notMachine,
          (canonical_samePage hpage (levels_pos hp.depth).1).trans hp.inRange⟩
      have hlt := (findLeaf_found hf).2
      have hrem : 12 + leaf.rem * 9 < 64 := by
        have := (levels_pos hp.depth).2
        omega
      rw [translate_walk hp' (by rw [hpage]; exact hh), walk,
        findLeaf_samePage hpage.symm access hf]
      dsimp only
      rw [useLeaf_addr hu hpage.symm, leafAddress_add hrem _ hi]
      rcases useLeaf_cases hfound.storable hu with ⟨_, heq, _⟩ | ⟨_, _, heq, _⟩
      · cases heq
      · cases heq
        rfl

/-- A translation keeps the offset in the page. -/
theorem translate_pageOff {mode : PrivMode}
    (h : translate satp mode mstatus va access s = some (.ok pa, s')) :
    pa.toNat % 4096 = va.toNat % 4096 := by
  have hleaf : ∀ {rem : Nat} (ppn : U64), 12 + rem * 9 < 64 →
      (leafAddress rem ppn va).toNat % 4096 = va.toNat % 4096 := by
    intro rem ppn hrem
    have hdvd : 4096 ∣ 2 ^ (12 + rem * 9) := ⟨2 ^ (rem * 9), by rw [Nat.pow_add]⟩
    have hbase : 4096 ∣ ((ppn >>> (rem * 9)) <<< (12 + rem * 9)).toNat := by
      rw [BitVec.toNat_shiftLeft, Nat.shiftLeft_eq]
      refine (Nat.dvd_mod_iff (Nat.pow_dvd_pow 2 (show 12 ≤ 64 by decide))).mpr ?_
      exact Nat.dvd_trans hdvd (Nat.dvd_mul_left _ _)
    rw [leafAddress_toNat hrem, Nat.add_mod, Nat.mod_eq_zero_of_dvd hbase, Nat.zero_add,
      Nat.mod_mod, Nat.mod_mod_of_dvd _ hdvd]
  cases translate_ended h with
  | bare => rfl
  | hit _ _ hr =>
      rcases hit_cases hr with ⟨_, heq, _⟩ | ⟨_, heq, _⟩
      · cases heq
      · cases heq
        rw [entryAddress, ← leafAddress_zero]
        exact hleaf _ (by decide)
  | leaf hp _ hf hfound hu =>
      have hlt := (findLeaf_found hf).2
      have hdepth := (levels_pos hp.depth).2
      rcases useLeaf_cases hfound.storable hu with ⟨_, heq, _⟩ | ⟨_, _, heq, _⟩
      · cases heq
      · cases heq
        exact hleaf _ (by omega)

/-- What translates in U-mode does so through a leaf for users. -/
theorem mapsUser_of_translate {n : Nat} (hn : levels satp = some n)
    (h : translate satp .u mstatus va access s = some (.ok pa, s')) :
    MapsUser satp mstatus s access va pa := by
  refine ⟨⟨s', h⟩, ?_⟩
  have hp := paged_of_translate_ok hn (by decide) h
  rw [leafPerm]
  cases hh : s.1.slotHits satp va with
  | true =>
      rw [translate_hit hp hh] at h
      rcases hit_cases h with ⟨_, hr, _⟩ | ⟨hc, _⟩
      · cases hr
      · exact ⟨_, rfl, user_of_checkPerms hc⟩
  | false =>
      rw [translate_walk hp hh] at h
      rcases walk_cases h with ⟨f, b, _, hr, _⟩ | ⟨leaf, b, hf, hu⟩
      · cases hr
      · rcases useLeaf_cases (findLeaf_found hf).1.storable hu with ⟨_, hr, _⟩ | ⟨hal, hc, _⟩
        · cases hr
        · rw [checkPerms_byte] at hc
          refine ⟨leaf.pte, ?_, user_of_checkPerms hc⟩
          rw [if_neg Bool.false_ne_true, walkLeaf_eq hn hf hal]
          rfl

/-- The addresses after a mapped one in its page are mapped alike. -/
theorem MapsUser.add {n : Nat} (hn : levels satp = some n)
    (h : MapsUser satp mstatus s access va pa) {i : Nat} (hi : va.toNat % 4096 + i < 4096) :
    MapsUser satp mstatus s access (va + BitVec.ofNat 64 i) (pa + BitVec.ofNat 64 i) := by
  obtain ⟨s', hs'⟩ := h.translates
  exact mapsUser_of_translate hn (translate_add hs' hi)

/-- What passes the check for a store passes it for a load, where the word is readable. -/
theorem checkPerms_load {w : U64} (hc : checkPerms w mstatus .u .store va = .ok ())
    (hr : w &&& pteR ≠ 0) : checkPerms w mstatus .u .load va = .ok () := by
  rw [checkPerms_eq_ok] at hc ⊢
  exact ⟨hc.1, by rw [accessRejects, decide_eq_false hr, Bool.false_and]⟩

/-- A load hits with a readable entry that a store hits with.  It sets the accessed bit only where
the store sets a bit. -/
theorem hit_load {i : Fin 64} {s' : Mmu × Bus} (hr : (s.1.tlb i).perm &&& pteR ≠ 0)
    (hquiet : markUsed (s.1.tlb i).perm .store ≠ (s.1.tlb i).perm →
      ¬ Bus.Notifies (s.1.tlb i).pteAddr)
    (h : hit i .u mstatus va .store s = some (.ok pa, s')) :
    ∃ s'', hit i .u mstatus va .load s = some (.ok pa, s'') := by
  rcases hit_cases h with ⟨_, hres, _⟩ | ⟨hc, hres, _⟩
  · cases hres
  · cases hres
    rw [hit]
    simp only [checkPerms_load hc hr]
    by_cases hne : markUsed (s.1.tlb i).perm .load ≠ (s.1.tlb i).perm
    · have hmark : markUsed (s.1.tlb i).perm .store ≠ (s.1.tlb i).perm :=
        fun heq => hne (markUsed_load_of_store heq)
      rw [if_pos hne]
      obtain ⟨rs, b, hs⟩ := Bus.store_returns .b8
        ((s.1.tlb i).ppn <<< 10 ||| markUsed (s.1.tlb i).perm .load) s.2 (hquiet hmark)
      rw [hs]
      exact ⟨_, rfl⟩
    · rw [if_neg hne]
      exact ⟨_, rfl⟩

/-- A load uses a readable leaf that a store uses. -/
theorem useLeaf_load {asid : U16} {leaf : Leaf} {s' : Mmu × Bus}
    (hst : Storable s.2 leaf.pteAddr) (hr : leaf.pte &&& pteR ≠ 0)
    (h : useLeaf leaf asid .u mstatus va .store s = some (.ok pa, s')) :
    ∃ s'', useLeaf leaf asid .u mstatus va .load s = some (.ok pa, s'') := by
  obtain ⟨r, s'', h'⟩ := useLeaf_returns (s := s) asid .u mstatus va .load hst
  rcases useLeaf_cases hst h with ⟨_, hres, _⟩ | ⟨hal, hc, hres, _⟩
  · cases hres
  · cases hres
    rw [checkPerms_byte] at hc
    rcases useLeaf_cases hst h' with ⟨hbad, _, _⟩ | ⟨_, _, rfl, _⟩
    · rw [checkPerms_byte, hal, checkPerms_load hc hr] at hbad
      rcases hbad with hbad | hbad <;> cases hbad
    · exact ⟨s'', h'⟩

/-- A page that is mapped for a store is mapped for a load, when a writable cache entry can be
read. -/
theorem MapsUser.load_of_store {n : Nat} (hn : levels satp = some n)
    (h : MapsUser satp mstatus s .store va pa) (hf : Faithful s satp .u mstatus va .store)
    (hread : s.1.slotHits satp va = true →
      (s.1.tlb (tlbIndex (va >>> 12))).perm &&& pteW ≠ 0 →
        (s.1.tlb (tlbIndex (va >>> 12))).perm &&& pteR ≠ 0) :
    MapsUser satp mstatus s .load va pa := by
  obtain ⟨s', h⟩ := h.translates
  have hp := paged_of_translate_ok hn (by decide) h
  suffices hsuff : ∃ s'', translate satp .u mstatus va .load s = some (.ok pa, s'') by
    obtain ⟨s'', hs''⟩ := hsuff
    exact mapsUser_of_translate hn hs''
  cases hh : hits (s.1.tlb (tlbIndex (va >>> 12))) (va >>> 12) (asidOf satp) with
  | true =>
      rw [translate_hit hp hh] at h ⊢
      rcases hit_cases h with ⟨_, hr, _⟩ | ⟨hc, _⟩
      · cases hr
      · exact hit_load (hread hh ((user_of_checkPerms hc).2 rfl))
          (fun hmark => (hf ⟨⟨⟨_, hp⟩, hh, hmark⟩, hc⟩).quiet) h
  | false =>
      rw [translate_walk hp hh] at h ⊢
      rcases walk_cases h with ⟨f, b, _, hr, _⟩ | ⟨leaf, b, hl, hu⟩
      · cases hr
      · have hfound := (findLeaf_found hl).1
        rw [walk, findLeaf_samePage rfl .load hl]
        refine useLeaf_load hfound.storable ?_ hu
        -- a leaf that is writable and not reserved is readable
        rcases useLeaf_cases hfound.storable hu with ⟨_, hr, _⟩ | ⟨_, hc, _⟩
        · cases hr
        · rw [checkPerms_byte] at hc
          have hw := (user_of_checkPerms hc).2 rfl
          have hgood := hfound.good
          simp only [badPte, Bool.or_eq_false_iff, Bool.and_eq_false_iff,
            decide_eq_false_iff_not] at hgood
          exact hgood.2.resolve_left (not_not.mpr hw)

end

end Mmu

end RiscvEmu

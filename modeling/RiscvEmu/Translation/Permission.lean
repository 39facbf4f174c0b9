import RiscvEmu.Translation.Transparency
import RiscvEmu.Translation.WriteBack

/-!
# The page permission law

A translation that succeeds should be one that the leaf permits by which the tables of `satp` map
the address.  The permission check is weaker than the law in one place: it lets S-mode fetch from a
user page when `SUM` is set.  And a hit answers from the cache.  Entries are told apart by their
address space only, so one may answer that was filled from the tables of another root.  The law
holds exactly where neither happens (`permissionLaw_iff`).  While every address space has one root,
no such entry answers (`Spaces.not_stale`).
-/

namespace RiscvEmu

namespace Mmu

/-- The leaf a walk finds in the page tables as they are. -/
def walkLeaf (satp addr : U64) (access : AccessType) (b : Bus) : Option Leaf :=
  match levels satp with
  | none => none
  | some n =>
      match findLeaf addr access n (rootOf satp) b with
      | some (.ok leaf, _) => if aligned leaf.rem (pteNumber leaf.pte) then some leaf else none
      | _ => none

theorem walkLeaf_eq {satp addr : U64} {access : AccessType} {b b' : Bus} {n : Nat} {leaf : Leaf}
    (hn : levels satp = some n)
    (hf : findLeaf addr access n (rootOf satp) b = some (.ok leaf, b'))
    (hal : aligned leaf.rem (pteNumber leaf.pte) = true) :
    walkLeaf satp addr access b = some leaf := by
  simp only [walkLeaf, hn, hf, hal, if_true]

/-! ## The law -/

/-- What the leaf of a page must satisfy for an access.  In S-mode no user page is fetched from,
whatever `SUM` is. -/
structure PermissionLaw (w mstatus : U64) (mode : PrivMode) (access : AccessType) : Prop where
  user : mode = .u → w &&& pteU ≠ 0
  supervisor : mode = .s → access ≠ .fetch → w &&& pteU ≠ 0 → (mstatus >>> 18) &&& 1 = 1
  noUserFetch : mode = .s → access = .fetch → w &&& pteU = 0
  fetch : access = .fetch → w &&& pteX ≠ 0
  store : access = .store → w &&& pteW ≠ 0
  load : access = .load → w &&& pteR ≠ 0 ∨ ((mstatus >>> 19) &&& 1 = 1 ∧ w &&& pteX ≠ 0)

/-- S-mode fetches from an executable user page while `SUM` is set. -/
def SumFetch (w mstatus : U64) (mode : PrivMode) (access : AccessType) : Prop :=
  mode = .s ∧ access = .fetch ∧ (mstatus >>> 18) &&& 1 = 1 ∧ w &&& pteU ≠ 0 ∧ w &&& pteX ≠ 0

/-- The check is the law, but for a fetch that `SUM` lets through. -/
theorem law_of_checkPerms {w mstatus tval : U64} {mode : PrivMode} {access : AccessType}
    (h : checkPerms w mstatus mode access tval = .ok ()) :
    PermissionLaw w mstatus mode access ↔ ¬ SumFetch w mstatus mode access := by
  rw [checkPerms_eq_ok] at h
  obtain ⟨hmode, haccess⟩ := h
  constructor
  · rintro hlaw ⟨hs, hf, _, hu, _⟩
    exact hu (hlaw.noUserFetch hs hf)
  · intro hno
    have hsum : mode = .s → w &&& pteU ≠ 0 → (mstatus >>> 18) &&& 1 = 1 := by
      rintro rfl hu
      rw [← and_one_ne_zero]
      intro hz
      rw [modeRejects, decide_eq_true hu, decide_eq_true hz] at hmode
      cases hmode
    refine ⟨?_, fun hs _ hu => hsum hs hu, ?_, ?_, ?_, ?_⟩
    · rintro rfl
      simpa [modeRejects] using hmode
    · rintro rfl rfl
      by_contra hu
      refine hno ⟨rfl, rfl, hsum rfl hu, hu, ?_⟩
      simpa [accessRejects] using haccess
    · rintro rfl
      simpa [accessRejects] using haccess
    · rintro rfl
      simpa [accessRejects] using haccess
    · rintro rfl
      by_cases hr : w &&& pteR = 0
      · refine Or.inr ?_
        rw [← and_one_ne_zero]
        simpa [accessRejects, hr] using haccess
      · exact Or.inl hr

/-- The law is at least as strict as the check. -/
theorem checkPerms_of_law {w mstatus : U64} {mode : PrivMode} {access : AccessType}
    (hmode : mode = .s ∨ mode = .u) (h : PermissionLaw w mstatus mode access) (tval : U64) :
    checkPerms w mstatus mode access tval = .ok () := by
  rw [checkPerms_eq_ok]
  constructor
  · rcases hmode with rfl | rfl
    · by_cases hu : w &&& pteU = 0
      · simp [modeRejects, hu]
      · have haccess : access ≠ .fetch := fun hf => hu (h.noUserFetch rfl hf)
        have hsum := (and_one_ne_zero _).mpr (h.supervisor rfl haccess hu)
        rw [modeRejects, decide_eq_false hsum, Bool.and_false]
    · exact decide_eq_false (h.user rfl)
  · cases access with
    | fetch => exact decide_eq_false (h.fetch rfl)
    | store => exact decide_eq_false (h.store rfl)
    | load =>
        rcases h.load rfl with hr | ⟨hmxr, hx⟩
        · rw [accessRejects, decide_eq_false hr, Bool.false_and]
        · have hmxr := (and_one_ne_zero _).mpr hmxr
          rw [accessRejects, decide_eq_true hmxr, decide_eq_true hx, Bool.and_self,
            Bool.not_true, Bool.and_false]

section

variable {s : Mmu × Bus} {satp mstatus addr : U64} {mode : PrivMode} {access : AccessType}

/-- The check on the low byte of a word is the check on the word. -/
theorem checkPerms_byte (w : U64) :
    checkPerms (w &&& 0xFF) mstatus mode access addr = checkPerms w mstatus mode access addr := by
  refine checkPerms_congr ?_ _ _ _ _
  rw [BitVec.and_assoc]
  rfl

/-- A fetch that `SUM` lets through passes the check. -/
theorem SumFetch.checkPerms {w : U64} (h : SumFetch w mstatus mode access) (tval : U64) :
    checkPerms w mstatus mode access tval = .ok () := by
  obtain ⟨rfl, rfl, hs, hu, hx⟩ := h
  rw [checkPerms_eq_ok]
  constructor
  · rw [modeRejects, decide_eq_false (p := (mstatus >>> 18) &&& 1 = 0), Bool.and_false]
    rw [hs]
    decide
  · exact decide_eq_false hx

/-! ## When a translation succeeds -/

/-- A walk succeeds exactly when it finds a leaf that passes the check. -/
theorem walk_ok_iff {n : Nat} (hn : levels satp = some n) :
    (∃ pa s', walk (asidOf satp) mode mstatus addr access n (rootOf satp) s =
        some (.ok pa, s')) ↔
      ∃ leaf, walkLeaf satp addr access s.2 = some leaf ∧
        checkPerms leaf.pte mstatus mode access addr = .ok () := by
  obtain ⟨rf, b, hf⟩ := findLeaf_returns addr access n (rootOf satp) s.2
  cases rf with
  | error f =>
      simp only [walk, walkLeaf, hn, hf]
      constructor
      · rintro ⟨_, _, h⟩
        cases h
      · rintro ⟨_, h, _⟩
        cases h
  | ok leaf =>
      have hst := (findLeaf_found hf).1.storable
      obtain ⟨r, s', hu⟩ :=
        useLeaf_returns (s := (s.1, b)) (asidOf satp) mode mstatus addr access hst
      simp only [walk, walkLeaf, hn, hf, hu]
      rcases useLeaf_cases hst hu with ⟨hfail, rfl, _⟩ | ⟨hal, hc, rfl, _⟩
      · constructor
        · rintro ⟨_, _, h⟩
          cases h
        · rintro ⟨leaf', hw, hc⟩
          rcases hfail with hal | hc'
          · rw [hal] at hw
            cases hw
          · split at hw
            · cases hw
              rw [checkPerms_byte, hc] at hc'
              cases hc'
            · cases hw
      · rw [checkPerms_byte] at hc
        exact ⟨fun _ => ⟨leaf, by rw [hal, if_pos rfl], hc⟩, fun _ => ⟨_, _, rfl⟩⟩

/-- A hit succeeds exactly when its entry passes the check. -/
theorem hit_ok_iff (hplaced : Placed s.1) (hh : s.1.slotHits satp addr = true) :
    (∃ pa s', hit (tlbIndex (addr >>> 12)) mode mstatus addr access s = some (.ok pa, s')) ↔
      checkPerms (s.1.tlb (tlbIndex (addr >>> 12))).perm mstatus mode access addr = .ok () := by
  have hvalid : (s.1.tlb (tlbIndex (addr >>> 12))).valid = true := by
    rw [slotHits, hits, Bool.and_eq_true, Bool.and_eq_true] at hh
    exact hh.1.1
  obtain ⟨r, s', hr⟩ := hit_returns (s := s) mode mstatus addr access (hplaced _ hvalid).1
  rw [hr]
  rcases hit_cases hr with ⟨hc, rfl, _⟩ | ⟨hc, rfl, _⟩
  · rw [hc]
    constructor
    · rintro ⟨pa, s'', h⟩
      cases h
    · intro h
      cases h
  · exact ⟨fun _ => hc, fun _ => ⟨_, _, rfl⟩⟩

/-- A translation that misses the cache succeeds exactly when the tables map the address by a leaf
that passes the check. -/
theorem miss_ok_iff {n : Nat} (hp : Paged satp mode addr n)
    (hh : s.1.slotHits satp addr = false) :
    (∃ pa s', translate satp mode mstatus addr access s = some (.ok pa, s')) ↔
      ∃ leaf, walkLeaf satp addr access s.2 = some leaf ∧
        checkPerms leaf.pte mstatus mode access addr = .ok () := by
  rw [translate_walk hp hh, walk_ok_iff hp.depth]

end

/-! ## The condition -/

/-- The law, for one translation of a state: when it succeeds, the tables of `satp` map the address
by a leaf that satisfies the law. -/
def LawHolds (s : Mmu × Bus) (satp : U64) (mode : PrivMode) (mstatus addr : U64)
    (access : AccessType) : Prop :=
  ∀ pa s', translate satp mode mstatus addr access s = some (.ok pa, s') →
    ∃ leaf, walkLeaf satp addr access s.2 = some leaf ∧
      PermissionLaw leaf.pte mstatus mode access

/-- The address is canonical, and the cache entry that answers, if one does, passes the check. -/
def Admits (s : Mmu × Bus) (satp : U64) (mode : PrivMode) (mstatus addr : U64)
    (access : AccessType) : Prop :=
  canonical 3 addr = true ∧ (s.1.slotHits satp addr = true →
    checkPerms (s.1.tlb (tlbIndex (addr >>> 12))).perm mstatus mode access addr = .ok ())

/-- S-mode fetches from what the tables map as a user page, while `SUM` is set. -/
def FetchesUser (s : Mmu × Bus) (satp : U64) (mode : PrivMode) (mstatus addr : U64)
    (access : AccessType) : Prop :=
  Admits s satp mode mstatus addr access ∧
    ∃ leaf, walkLeaf satp addr access s.2 = some leaf ∧ SumFetch leaf.pte mstatus mode access

/-- The cache lets an access pass that the tables of `satp` do not: the entry that answers came from
other tables. -/
def Stale (s : Mmu × Bus) (satp : U64) (mode : PrivMode) (mstatus addr : U64)
    (access : AccessType) : Prop :=
  Admits s satp mode mstatus addr access ∧ s.1.slotHits satp addr = true ∧
    ∀ leaf, walkLeaf satp addr access s.2 = some leaf →
      checkPerms leaf.pte mstatus mode access addr ≠ .ok ()

section

variable {s : Mmu × Bus} {satp mstatus addr : U64} {mode : PrivMode} {access : AccessType}

/-- An access that the cache admits and for which the tables have a leaf that passes the check
succeeds, and so does one that hits. -/
theorem translate_ok_of_admits (hplaced : Placed s.1) (hp : Paged satp mode addr 3)
    (h : Admits s satp mode mstatus addr access)
    (hleaf : s.1.slotHits satp addr = false → ∃ leaf, walkLeaf satp addr access s.2 = some leaf ∧
      checkPerms leaf.pte mstatus mode access addr = .ok ()) :
    ∃ pa s', translate satp mode mstatus addr access s = some (.ok pa, s') := by
  cases hh : s.1.slotHits satp addr with
  | true =>
      rw [translate_hit hp hh]
      exact (hit_ok_iff hplaced hh).mpr (h.2 hh)
  | false => exact (miss_ok_iff hp hh).mpr (hleaf hh)

/-- An access that succeeds is admitted, and if the cache does not answer, the tables have a leaf
that passes the check. -/
theorem admits_of_translate_ok (hplaced : Placed s.1) {pa : U64} {s' : Mmu × Bus}
    (hp : Paged satp mode addr 3)
    (h : translate satp mode mstatus addr access s = some (.ok pa, s')) :
    Admits s satp mode mstatus addr access ∧ (s.1.slotHits satp addr = false →
      ∃ leaf, walkLeaf satp addr access s.2 = some leaf ∧
        checkPerms leaf.pte mstatus mode access addr = .ok ()) := by
  refine ⟨⟨hp.inRange, fun hh => ?_⟩, fun hh => (miss_ok_iff hp hh).mp ⟨pa, s', h⟩⟩
  rw [translate_hit hp hh] at h
  exact (hit_ok_iff hplaced hh).mp ⟨pa, s', h⟩

/-- The page permission law holds of a translation exactly when it is not a fetch by S-mode from an
executable user page while `SUM` is set, nor a hit on an entry that lets pass what the tables of
`satp` do not. -/
theorem permissionLaw_iff (hs : shared.Reachable (fun _ _ => True) s) (hsatp : satp >>> 60 = 8)
    (hmode : mode = .s ∨ mode = .u) :
    LawHolds s satp mode mstatus addr access ↔
      ¬ FetchesUser s satp mode mstatus addr access ∧ ¬ Stale s satp mode mstatus addr access := by
  have hplaced := shared_placed hs
  have hn := levels_of_sv39 hsatp
  have hm : mode ≠ .m := by rcases hmode with rfl | rfl <;> decide
  constructor
  · intro hlaw
    refine ⟨fun ⟨hadmits, leaf, hl, hsum⟩ => ?_, fun ⟨hadmits, hh, hnone⟩ => ?_⟩
    · have hp : Paged satp mode addr 3 := ⟨hn, hm, hadmits.1⟩
      obtain ⟨pa, s', ht⟩ := translate_ok_of_admits hplaced hp hadmits
        fun _ => ⟨leaf, hl, hsum.checkPerms addr⟩
      obtain ⟨leaf', hl', hok⟩ := hlaw pa s' ht
      rw [hl] at hl'
      cases hl'
      exact (law_of_checkPerms (hsum.checkPerms addr)).mp hok hsum
    · have hp : Paged satp mode addr 3 := ⟨hn, hm, hadmits.1⟩
      obtain ⟨pa, s', ht⟩ := translate_ok_of_admits hplaced hp hadmits
        fun hmiss => (by rw [hh] at hmiss; cases hmiss)
      obtain ⟨leaf, hl, hok⟩ := hlaw pa s' ht
      exact hnone leaf hl (checkPerms_of_law hmode hok addr)
  · rintro ⟨huser, hstale⟩ pa s' ht
    have hp := paged_of_translate_ok hn hm ht
    obtain ⟨hadmits, hmiss⟩ := admits_of_translate_ok hplaced hp ht
    -- in either case the tables have a leaf that passes the check
    have hleaf : ∃ leaf, walkLeaf satp addr access s.2 = some leaf ∧
        checkPerms leaf.pte mstatus mode access addr = .ok () := by
      cases hh : s.1.slotHits satp addr with
      | false => exact hmiss hh
      | true =>
          by_contra hnone
          exact hstale ⟨hadmits, hh, fun leaf hl hc => hnone ⟨leaf, hl, hc⟩⟩
    obtain ⟨leaf, hl, hc⟩ := hleaf
    exact ⟨leaf, hl, (law_of_checkPerms hc).mpr fun hsum => huser ⟨hadmits, leaf, hl, hsum⟩⟩

/-- While every address space has one root and global mappings are the same in all of them, no
entry lets pass what the tables do not. -/
theorem Spaces.not_stale {b₀ : Bus} {S : Spaces b₀} (hs : S.Reachable s)
    (hmode : mode ≠ .m) (hcall : S.Allows (.translate satp mode mstatus addr access)) :
    ¬ Stale s satp mode mstatus addr access := by
  rintro ⟨hadmits, hh, hnone⟩
  have hn := levels_of_sv39 hcall.1
  have hp : Paged satp mode addr 3 := ⟨hn, hmode, hadmits.1⟩
  obtain ⟨s₁, h₁, _⟩ := translate_reference hs.inv hcall
  obtain ⟨s₂, h₂, _⟩ := translate_reference (inv_cold hs.inv.tables) hcall
  rw [translate_hit hp hh] at h₁
  rcases hit_cases h₁ with ⟨hc, _⟩ | ⟨_, hr, _⟩
  · rw [hadmits.2 hh] at hc
    cases hc
  · -- an empty cache would give the same answer, from a walk
    rw [hr] at h₂
    obtain ⟨leaf, hl, hc⟩ := (miss_ok_iff hp rfl).mp ⟨_, _, h₂⟩
    exact hnone leaf hl hc

end

/-- A fresh unit over tables that map the page at `0x1000`, for user and supervisor alike, with
every permission. -/
def userPage : Mmu × Bus :=
  (.new, (Bus.new 0x4000 0x8000_0000).withWords
    [(0x0000, 0x2000_0401), (0x1000, 0x2000_0801), (0x2008, 0x2000_0CDF)])

/-- The `satp` of those tables. -/
def userPageSatp : U64 := 0x8000_0000_0008_0000

theorem userPage_lawHolds : LawHolds userPage userPageSatp .u 0 0x1000 .load := by
  have hreach : shared.Reachable (fun _ _ => True) userPage := .init rfl
  refine (permissionLaw_iff hreach (by decide) (Or.inr rfl)).mpr ⟨?_, ?_⟩
  · rintro ⟨_, _, _, hsum⟩
    cases hsum.1
  · rintro ⟨_, hh, _⟩
    cases hh

/-- With `SUM` set the supervisor fetches from that page, and the law forbids it. -/
theorem userPage_sumFetch : shared.Reachable (fun _ _ => True) userPage ∧
    ¬ LawHolds userPage userPageSatp .s 0x4_0000 0x1000 .fetch := by
  refine ⟨.init rfl, fun hlaw => ?_⟩
  have hfetch : (translate userPageSatp .s 0x4_0000 0x1000 .fetch userPage).map Prod.fst =
      some (.ok 0x8000_3000) := by decide
  obtain ⟨⟨r, s'⟩, ht, hr⟩ := Option.map_eq_some_iff.mp hfetch
  cases hr
  obtain ⟨leaf, hl, hok⟩ := hlaw _ s' ht
  have hword : (walkLeaf userPageSatp 0x1000 .fetch userPage.2).map Leaf.pte =
      some 0x2000_0CDF := by decide
  rw [hl, Option.map_some, Option.some_inj] at hword
  have huser := hok.noUserFetch rfl rfl
  rw [hword] at huser
  exact absurd huser (by decide)

end Mmu

end RiscvEmu

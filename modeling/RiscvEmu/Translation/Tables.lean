import RiscvEmu.Lib.Radix
import RiscvEmu.Translation.Cases

/-!
# Page tables in RAM

While the page tables lie in RAM, looking for a leaf is a radix search over the aligned words of
RAM, and it has no effect (`findLeaf_eq_find`).  Setting the accessed and dirty bits of a leaf
replaces one of those words by one that maps alike.  Two buses that differ only by such
replacements have the *same tables*, and every search finds the same leaf in both up to those
bits (`SameTables.find_rel`).
-/

namespace RiscvEmu

namespace Mmu

/-- The page-table word at an address: eight aligned bytes of RAM. -/
def pteWord (b : Bus) (pa : U64) : Option U64 :=
  if region pa = .ram ∧ pa.toNat % 8 = 0 then
    match b.offset pa .b8 with
    | .ok off => some (Bytes.readLe b.ram.byte off 8)
    | .error _ => none
  else none

/-- The meaning of a page-table word.  Tables are named by page number. -/
def viewPte (pte : U64) : Radix.View U64 :=
  if badPte pte then .bad else if leafPte pte then .leaf else .next (pteNumber pte)

/-- The search for the leaf of a virtual page. -/
def tableSearch (vpn : U64) : Radix.Search U64 U64 U64 where
  slot rem t := (t <<< 12) + ((vpn >>> (rem * 9)) &&& 0x1FF) * 8
  view := viewPte

/-- Words that map alike mean the same. -/
theorem viewPte_eq {w w' : U64} (h : SameEntry w w') : viewPte w = viewPte w' := by
  rw [viewPte, viewPte, h.badPte_eq, h.leafPte_eq, h.pteNumber_eq]

/-! ## Reading words -/

theorem pteWord_of_ok {b : Bus} {pa : U64} {off : Nat} (hr : region pa = .ram)
    (ha : pa.toNat % 8 = 0) (ho : b.offset pa .b8 = .ok off) :
    pteWord b pa = some (Bytes.readLe b.ram.byte off 8) := by
  rw [pteWord, if_pos ⟨hr, ha⟩, ho]

/-- A word that can be read is aligned, in RAM, and loaded by the bus. -/
theorem pteWord_eq_some {b : Bus} {pa w : U64} (h : pteWord b pa = some w) :
    region pa = .ram ∧ pa.toNat % 8 = 0 ∧
      ∃ off, b.offset pa .b8 = .ok off ∧ Bytes.readLe b.ram.byte off 8 = w := by
  rw [pteWord] at h
  split at h
  · rename_i hc
    cases ho : b.offset pa .b8 with
    | error e => rw [ho] at h; cases h
    | ok off =>
        rw [ho] at h
        cases h
        exact ⟨hc.1, hc.2, off, rfl, rfl⟩
  · cases h

theorem load_pteWord {b : Bus} {pa w : U64} (h : pteWord b pa = some w) :
    Bus.load pa .b8 b = some (.ok w, b) := by
  obtain ⟨hr, _, off, ho, rfl⟩ := pteWord_eq_some h
  exact Bus.load_ram hr ho

/-- The words depend on RAM and its placement only. -/
theorem pteWord_congr {b b' : Bus} (hram : b'.ram = b.ram) (hbase : b'.ramBase = b.ramBase)
    (pa : U64) : pteWord b' pa = pteWord b pa := by
  rw [pteWord, pteWord, Bus.offset_congr hbase (by rw [hram]), hram]

/-- Replacing a word leaves the others alone. -/
theorem pteWord_setBytes {b : Bus} {pa v : U64} {off : Nat} (hr : region pa = .ram)
    (ha : pa.toNat % 8 = 0) (ho : b.offset pa .b8 = .ok off) (pa' : U64) :
    pteWord (b.setBytes off 8 v) pa' = if pa' = pa then some v else pteWord b pa' := by
  have hoff : ∀ q, (b.setBytes off 8 v).offset q .b8 = b.offset q .b8 :=
    fun q => Bus.offset_congr rfl rfl q .b8
  by_cases hpa : pa' = pa
  · subst hpa
    rw [if_pos rfl, pteWord_of_ok hr ha ((hoff pa').trans ho), Bus.setBytes_byte,
      Bytes.readLe_writeLe]
  · rw [if_neg hpa, pteWord, pteWord, hoff pa']
    by_cases hc : region pa' = .ram ∧ pa'.toNat % 8 = 0
    · rw [if_pos hc, if_pos hc]
      cases ho' : b.offset pa' .b8 with
      | error e => rfl
      | ok off' =>
          simp only [Option.some.injEq]
          refine Bytes.readLe_writeLe_disjoint _ v ?_
          -- distinct aligned addresses in RAM are eight bytes apart
          have h1 := Bus.offset_eq ho
          have h2 := Bus.offset_eq ho'
          have hb1 := (Bus.offset_ok ho).2.1
          have hb2 := (Bus.offset_ok ho').2.1
          have hne : pa'.toNat ≠ pa.toNat := fun heq => hpa (BitVec.eq_of_toNat_eq heq)
          have h8 := hc.2
          omega
    · rw [if_neg hc, if_neg hc]

/-- The slots of a search are aligned. -/
theorem slot_aligned (vpn : U64) (rem : Nat) (t : U64) :
    ((tableSearch vpn).slot rem t).toNat % 8 = 0 := by
  simp only [tableSearch, BitVec.toNat_add, BitVec.toNat_mul, BitVec.toNat_shiftLeft,
    Nat.shiftLeft_eq]
  rw [show (8 : U64).toNat = 8 from rfl]
  omega

/-- The index the walk uses is the one of the search. -/
theorem slot_eq (addr : U64) (rem : Nat) (t : U64) :
    (tableSearch (addr >>> 12)).slot rem t = (t <<< 12) + vpnPart addr rem * 8 := by
  rw [vpnPart, BitVec.shiftRight_add]
  rfl

/-! ## The walk as a search -/

/-- The result of a search, as the walk reports it. -/
def foundLeaf (addr : U64) (access : AccessType) :
    Radix.Outcome U64 U64 → Except MmuFault Leaf
  | .unreadable => .error ⟨afCause access, addr⟩
  | .bad => .error ⟨pfCause access, addr⟩
  | .leaf rem pteAddr pte => .ok ⟨rem, pteAddr, pte⟩

/-- Over tables in RAM the walk is the search, and it leaves the bus alone. -/
theorem findLeaf_eq_find (addr : U64) (access : AccessType) {b : Bus} :
    ∀ {n : Nat} {t : U64}, (tableSearch (addr >>> 12)).Readable (pteWord b) n t →
      findLeaf addr access n (t <<< 12) b =
        some (foundLeaf addr access ((tableSearch (addr >>> 12)).find (pteWord b) n t), b)
  | 0, _, _ => rfl
  | n + 1, t, ⟨w, hw, hnext⟩ => by
      have hload := load_pteWord hw
      rw [slot_eq] at hload
      rw [findLeaf]
      simp only [hload]
      cases hbad : badPte w with
      | true =>
          have hv : (tableSearch (addr >>> 12)).view w = .bad := by
            simp only [tableSearch, viewPte, hbad, if_true]
          rw [Radix.Search.find_of_bad hw hv]
          rfl
      | false =>
          cases hleaf : leafPte w with
          | true =>
              have hv : (tableSearch (addr >>> 12)).view w = .leaf := by
                simp only [tableSearch, viewPte, hbad, hleaf]
                rfl
              rw [Radix.Search.find_of_leaf hw hv, slot_eq]
              rfl
          | false =>
              have hv : (tableSearch (addr >>> 12)).view w = .next (pteNumber w) := by
                simp only [tableSearch, viewPte, hbad, hleaf]
                rfl
              rw [Radix.Search.find_of_next hw hv]
              exact findLeaf_eq_find addr access (hnext _ hv)

/-! ## Tables that agree -/

/-- Buses whose RAM is placed alike and whose page-table words map alike. -/
structure SameTables (b b' : Bus) : Prop where
  base : b'.ramBase = b.ramBase
  len : b'.ram.len = b.ram.len
  words : ∀ pa, Option.Rel SameEntry (pteWord b pa) (pteWord b' pa)

namespace SameTables

variable {b b' : Bus}

theorem refl (b : Bus) : SameTables b b := by
  refine ⟨rfl, rfl, fun pa => ?_⟩
  cases pteWord b pa with
  | none => exact .none
  | some w => exact .some (SameEntry.refl w)

/-- The word at an address maps alike in both. -/
theorem word (h : SameTables b b') {pa w : U64} (hw : pteWord b pa = some w) :
    ∃ w', pteWord b' pa = some w' ∧ SameEntry w w' := by
  have hrel := h.words pa
  rw [hw] at hrel
  cases hw' : pteWord b' pa with
  | none => rw [hw'] at hrel; cases hrel
  | some w' =>
      rw [hw'] at hrel
      cases hrel with
      | some hs => exact ⟨w', rfl, hs⟩

theorem readable (h : SameTables b b') {vpn : U64} {n : Nat} {t : U64}
    (hr : (tableSearch vpn).Readable (pteWord b) n t) :
    (tableSearch vpn).Readable (pteWord b') n t :=
  hr.rel (fun _ _ => viewPte_eq) h.words

theorem find_rel (h : SameTables b b') (vpn : U64) (n : Nat) (t : U64) :
    Radix.Outcome.Rel SameEntry ((tableSearch vpn).find (pteWord b) n t)
      ((tableSearch vpn).find (pteWord b') n t) :=
  Radix.Search.find_rel (fun _ _ => viewPte_eq) h.words n t

/-- Replacing a page-table word by one that maps alike keeps the tables. -/
theorem store (h : SameTables b b') {pa w v : U64} (hw : pteWord b pa = some w)
    (hv : SameEntry w v) {r : Except BusFault Unit} {b'' : Bus}
    (hs : Bus.store pa .b8 v b' = some (r, b'')) : SameTables b b'' := by
  obtain ⟨w', hw', _⟩ := h.word hw
  obtain ⟨hr, ha, off, ho, _⟩ := pteWord_eq_some hw'
  rw [Bus.store_ram v hr ho] at hs
  cases hs
  refine ⟨h.base, h.len, fun pa' => ?_⟩
  rw [show Width.b8.bytes = 8 from rfl, pteWord_setBytes hr ha ho]
  by_cases hpa : pa' = pa
  · rw [if_pos hpa, hpa, hw]
    exact .some hv
  · rw [if_neg hpa]
    exact h.words pa'

end SameTables

end Mmu

end RiscvEmu

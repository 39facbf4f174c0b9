import RiscvEmu.Cpu.Mmu
import Mathlib.Tactic.Common

/-!
# Page-table words

The walk and the cache read different copies of a leaf, and both set its accessed and dirty
bits.  Two words are the *same entry* when they agree on everything else the translation looks
at: the permission bits and the page number.  The accessed and dirty bits, the two software
bits and the reserved high bits are not compared.
-/

namespace RiscvEmu

namespace Mmu

/-- The bits of an entry that select a translation: `V R W X U G` and the page number. -/
def keyMask : U64 := 0x003F_FFFF_FFFF_FC3F

/-- The permission bits among them. -/
def permMask : U64 := 0x3F

/-- Words that map alike. -/
def SameEntry (w w' : U64) : Prop := w &&& keyMask = w' &&& keyMask

namespace SameEntry

variable {w w' : U64}

@[refl] theorem refl (w : U64) : SameEntry w w := rfl

@[trans] theorem trans {w'' : U64} (h : SameEntry w w') (h' : SameEntry w' w'') :
    SameEntry w w'' := Eq.trans h h'

/-- Words that map alike agree under every mask that selects only compared bits. -/
theorem and_eq (h : SameEntry w w') {m : U64} (hm : keyMask &&& m = m) : w &&& m = w' &&& m := by
  rw [← hm, ← BitVec.and_assoc, ← BitVec.and_assoc, h]

theorem perm_eq (h : SameEntry w w') : w &&& permMask = w' &&& permMask :=
  h.and_eq (by decide)

theorem badPte_eq (h : SameEntry w w') : badPte w = badPte w' := by
  rw [badPte, badPte, h.and_eq (m := pteV) (by decide), h.and_eq (m := pteW) (by decide),
    h.and_eq (m := pteR) (by decide)]

theorem leafPte_eq (h : SameEntry w w') : leafPte w = leafPte w' := by
  rw [leafPte, leafPte, h.and_eq (m := pteR ||| pteX) (by decide)]

end SameEntry

/-- The page number is a shifted field of the word. -/
theorem pteNumber_eq (w : U64) : pteNumber w = (w &&& 0x003F_FFFF_FFFF_FC00) >>> 10 := by
  rw [pteNumber, BitVec.ushiftRight_and_distrib]
  rfl

theorem SameEntry.pteNumber_eq {w w' : U64} (h : SameEntry w w') : pteNumber w = pteNumber w' := by
  rw [Mmu.pteNumber_eq, Mmu.pteNumber_eq, h.and_eq (by decide)]

/-- Shifted back into place, the page number is a part of the word. -/
theorem pteNumber_shiftLeft (w : U64) : pteNumber w <<< 10 = w &&& 0x003F_FFFF_FFFF_FC00 := by
  have hlow : ∀ j < 10, (0x003F_FFFF_FFFF_FC00#64).getLsbD j = false := by decide
  have hhigh : ∀ j < 64, 10 ≤ j →
      (0x0FFF_FFFF_FFFF#64).getLsbD (j - 10) = (0x003F_FFFF_FFFF_FC00#64).getLsbD j := by decide
  apply BitVec.eq_of_getLsbD_eq
  intro i hi
  rw [pteNumber]
  simp only [BitVec.getLsbD_shiftLeft, BitVec.getLsbD_and, BitVec.getLsbD_ushiftRight]
  by_cases h10 : i < 10
  · simp [h10, hlow i h10]
  · simp only [hi, h10, decide_true, decide_false, Bool.not_false, Bool.true_and]
    rw [show 10 + (i - 10) = i by omega]
    congr 1
    exact hhigh i hi (by omega)

/-- The compared bits are the page number and the permission bits. -/
theorem and_keyMask (w : U64) : w &&& keyMask = (pteNumber w <<< 10) ||| (w &&& permMask) := by
  rw [pteNumber_shiftLeft, ← BitVec.and_or_distrib_left]
  rfl

/-- A word rebuilt from the page number and the permission bits of an entry maps alike. -/
theorem sameEntry_rebuild {w p q : U64} (hp : pteNumber w = p)
    (hq : w &&& permMask = q &&& permMask) (hq8 : q &&& 0xFF = q) :
    SameEntry w ((p <<< 10) ||| q) := by
  have hhigh : (p <<< 10) &&& keyMask = p <<< 10 := by
    rw [← hp, pteNumber_shiftLeft, BitVec.and_assoc]
    rfl
  rw [SameEntry, and_keyMask, hp, hq, BitVec.and_or_distrib_right, hhigh]
  congr 1
  rw [← hq8, BitVec.and_assoc, BitVec.and_assoc]
  rfl

/-! ## Marking an entry as used -/

theorem sameEntry_markUsed (w : U64) (access : AccessType) : SameEntry w (markUsed w access) := by
  have hA : pteA &&& keyMask = 0#64 := by decide
  have hD : pteD &&& keyMask = 0#64 := by decide
  rw [SameEntry, markUsed]
  split <;> simp only [BitVec.and_or_distrib_right, hA, hD, BitVec.or_zero]

/-- Marking commutes with taking the low byte. -/
theorem markUsed_and_byte (w : U64) (access : AccessType) :
    markUsed w access &&& 0xFF = markUsed (w &&& 0xFF) access := by
  have hA : pteA &&& 0xFF = pteA := by decide
  have hD : pteD &&& 0xFF = pteD := by decide
  rw [markUsed, markUsed]
  split <;> simp only [BitVec.and_or_distrib_right, hA, hD]

/-- A word that a store does not have to mark needs no mark for a load either. -/
theorem markUsed_load_of_store {w : U64} (h : markUsed w .store = w) : markUsed w .load = w := by
  calc markUsed w .load
      = markUsed (markUsed w .store) .load := by rw [h]
    _ = markUsed w .store := by
        simp only [markUsed, if_true, reduceCtorEq, if_false]
        rw [BitVec.or_assoc, BitVec.or_comm pteD, ← BitVec.or_assoc, BitVec.or_assoc w,
          BitVec.or_self]
    _ = w := h

/-! ## Permission checks -/

/-- The check looks at the permission bits only. -/
theorem checkPerms_congr {p q : U64} (h : p &&& permMask = q &&& permMask) (mstatus : U64)
    (mode : PrivMode) (access : AccessType) (tval : U64) :
    checkPerms p mstatus mode access tval = checkPerms q mstatus mode access tval := by
  have hbit : ∀ m : U64, permMask &&& m = m → p &&& m = q &&& m := by
    intro m hm
    rw [← hm, ← BitVec.and_assoc, ← BitVec.and_assoc, h]
  have hmode : modeRejects p mstatus mode = modeRejects q mstatus mode := by
    cases mode <;> simp only [modeRejects, hbit pteU (by decide)]
  have haccess : accessRejects p mstatus access = accessRejects q mstatus access := by
    cases access <;> simp only [accessRejects, hbit pteX (by decide), hbit pteR (by decide),
      hbit pteW (by decide)]
  rw [checkPerms, checkPerms, hmode, haccess]

/-- A fault of the permission check is the page fault of the access. -/
theorem checkPerms_error {p mstatus tval : U64} {mode : PrivMode} {access : AccessType}
    {f : MmuFault} (h : checkPerms p mstatus mode access tval = .error f) :
    f = ⟨pfCause access, tval⟩ := by
  rw [checkPerms] at h
  split at h
  · cases h; rfl
  · split at h <;> cases h
    rfl

theorem checkPerms_eq_ok {p mstatus tval : U64} {mode : PrivMode} {access : AccessType} :
    checkPerms p mstatus mode access tval = .ok () ↔
      modeRejects p mstatus mode = false ∧ accessRejects p mstatus access = false := by
  rw [checkPerms]
  cases modeRejects p mstatus mode <;> cases accessRejects p mstatus access <;> simp

end Mmu

end RiscvEmu

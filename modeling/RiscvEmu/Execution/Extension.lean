import RiscvEmu.Decoding.Ranges

/-!
# Sign extension

The interpreter extends a 32-bit result by a pair of shifts.  The pair is the sign extension of
the low bits (`sext_eq`), and a result in this form has its upper half equal to bit 31.
-/

namespace RiscvEmu

/-- A pair of shifts extends the sign of the low bits. -/
theorem sext_eq (v : U64) {n : Nat} (hn : 0 < n) (h : n ≤ 64) :
    sext v (n - 1) = (v.setWidth n).signExtend 64 := by
  apply BitVec.eq_of_getLsbD_eq
  intro i hi
  rw [sext, show 63 - (n - 1) = 64 - n by omega]
  simp only [BitVec.getLsbD_sshiftRight, BitVec.getLsbD_signExtend, BitVec.getLsbD_setWidth,
    BitVec.getLsbD_shiftLeft, BitVec.msb_eq_getLsbD_last]
  by_cases hin : i < n
  · simp [hi, hin, show 64 - n + i < 64 by omega, show ¬ 64 ≤ i by omega]
  · simp [hi, hin, show ¬ 64 - n + i < 64 by omega, show ¬ 64 ≤ i by omega,
      show ¬ 63 < 64 - n by omega, show 63 - (64 - n) = n - 1 by omega, show n - 1 < n by omega]

theorem sext_31 (v : U64) : sext v 31 = (lo32 v).signExtend 64 := by
  have h := sext_eq v (n := 32) (by decide) (by decide)
  exact h

@[simp] theorem lo32_setWidth (v : U32) : lo32 (v.setWidth 64) = v := by
  simp [lo32]

theorem signed32_eq (v : U32) : signed32 v = v.signExtend 64 := by
  rw [signed32, sext_31, lo32_signExtend]

theorem unsigned32_eq (v : U32) : unsigned32 v = v.signExtend 64 := by
  rw [unsigned32, sext_31, lo32_setWidth]

/-! ## Low halves -/

theorem lo32_add (a b : U64) : lo32 (a + b) = lo32 a + lo32 b := BitVec.setWidth_add _ _ (by decide)

theorem lo32_sub (a b : U64) : lo32 (a - b) = lo32 a - lo32 b := by
  rw [BitVec.sub_eq_add_neg, lo32_add, BitVec.sub_eq_add_neg]
  congr 1
  exact BitVec.setWidth_neg_of_le (by decide)

theorem lo32_shiftLeft (a : U64) (n : Nat) : lo32 (a <<< n) = lo32 a <<< n := by
  apply BitVec.eq_of_getLsbD_eq
  intro i hi
  simp [lo32, hi]

/-! ## Values that fit 32 bits -/

/-- The upper half of a value repeats bit 31. -/
def SignExtended (v : U64) : Prop := ∀ i < 64, 32 ≤ i → v.getLsbD i = v.getLsbD 31

theorem signExtended_signExtend (v : U32) : SignExtended (v.signExtend 64) := by
  intro i hi hlo
  rw [BitVec.getLsbD_signExtend, BitVec.getLsbD_signExtend, BitVec.msb_eq_getLsbD_last]
  simp [hi, show ¬ i < 32 by omega]

theorem signExtended_sext (v : U64) : SignExtended (sext v 31) := by
  rw [sext_31]
  exact signExtended_signExtend _

/-- A zero-extended result repeats bit 31 exactly when the bit is clear. -/
theorem signExtended_setWidth (v : U32) : SignExtended (v.setWidth 64) ↔ v.toNat < 2 ^ 31 := by
  rw [← BitVec.msb_eq_false_iff_two_mul_lt.trans (show 2 * v.toNat < 2 ^ 32 ↔ v.toNat < 2 ^ 31 by
    omega), BitVec.msb_eq_getLsbD_last]
  constructor
  · intro h
    have h32 := h 32 (by decide) (by decide)
    rw [BitVec.getLsbD_setWidth, BitVec.getLsbD_setWidth] at h32
    simpa using h32.symm
  · intro h i hi hlo
    rw [BitVec.getLsbD_setWidth, BitVec.getLsbD_setWidth, BitVec.getLsbD_of_ge v i hlo]
    simpa using h.symm

theorem signExtended_zero : SignExtended 0 := fun _ _ _ => by simp

end RiscvEmu

import RiscvEmu.Execution.Extension
import RiscvEmu.Lib.X86

/-!
# Values of operations

The interpreter extends a 32-bit result by a pair of shifts, and compiled code by an instruction
for it.  The interpreter's tables are rewritten here with the second form.
-/

namespace RiscvEmu

/-! ## Shift counts -/

/-- The count of a 64-bit shift by a register. -/
theorem shiftCount (b : U64) : ((b &&& 63).setWidth 8).toNat % 64 = (b &&& 0x3f).toNat := by
  have h : (b &&& 63).toNat ≤ 63 := by
    rw [BitVec.toNat_and]
    exact Nat.and_le_right
  rw [BitVec.toNat_setWidth]
  omega

/-- The count of a 32-bit shift by a register. -/
theorem shiftCountW (b : U64) :
    ((lo32 b &&& 31).setWidth 8).toNat % 32 = (b &&& 0x1f).toNat := by
  have hmod : ∀ x : Nat, x &&& 31 = x % 32 := fun x => Nat.and_two_pow_sub_one_eq_mod x 5
  have hb := b.isLt
  rw [BitVec.toNat_setWidth, BitVec.toNat_and, BitVec.toNat_and, lo32, BitVec.toNat_setWidth]
  rw [show (31 : U32).toNat = 31 from rfl, show (0x1f : U64).toNat = 31 from rfl, hmod, hmod]
  omega

end RiscvEmu

import Mathlib.Algebra.GroupWithZero.Nat
import Mathlib.Logic.Function.Basic

/-!
# Machine words

The fixed-width integers of the emulator are bit vectors.  Addition, subtraction and
multiplication wrap, as in a release build.  A memory access has one of four widths.
-/

namespace RiscvEmu

abbrev U8 := BitVec 8
abbrev U16 := BitVec 16
abbrev U32 := BitVec 32
abbrev U64 := BitVec 64

/-- The value `u64::MAX`. -/
def u64Max : U64 := 0xFFFF_FFFF_FFFF_FFFF#64

/-! The bounds of the index types: registers, interrupt contexts and sources, TLB slots and
PMP entries. -/

instance neZeroTwo : NeZero 2 := ⟨by decide⟩
instance neZeroFour : NeZero 4 := ⟨by decide⟩
instance neZeroSixteen : NeZero 16 := ⟨by decide⟩
instance neZeroThirtyTwo : NeZero 32 := ⟨by decide⟩
instance neZeroSixtyFour : NeZero 64 := ⟨by decide⟩
instance neZeroHundredTwentyEight : NeZero 128 := ⟨by decide⟩

theorem toNat_and_one {w : Nat} (x : BitVec (w + 1)) : (x &&& 1#(w + 1)).toNat = x.toNat % 2 := by
  simp [BitVec.toNat_and, Nat.and_one_is_mod, BitVec.toNat_ofNat]

/-- A masked bit is 0 or 1. -/
theorem and_one_cases {w : Nat} (x : BitVec (w + 1)) :
    x &&& 1#(w + 1) = 0#(w + 1) ∨ x &&& 1#(w + 1) = 1#(w + 1) := by
  have h := toNat_and_one x
  rcases Nat.mod_two_eq_zero_or_one x.toNat with h0 | h1
  · exact Or.inl (BitVec.eq_of_toNat_eq (by rw [h, h0]; simp))
  · exact Or.inr (BitVec.eq_of_toNat_eq (by rw [h, h1]; simp))

theorem and_one_ne_zero (x : U64) : x &&& 1 ≠ 0 ↔ x &&& 1 = 1 := by
  rcases and_one_cases x with h | h
  · rw [show x &&& 1 = 0 from h]; decide
  · rw [show x &&& 1 = 1 from h]; decide

/-! ## Even addresses -/

/-- Code is at even addresses. -/
def IsEven (v : U64) : Prop := v &&& 1 = 0

instance (v : U64) : Decidable (IsEven v) := inferInstanceAs (Decidable (v &&& 1 = 0))

theorem isEven_iff (v : U64) : IsEven v ↔ v.toNat % 2 = 0 := by
  rw [IsEven, ← toNat_and_one]
  exact ⟨fun h => congrArg BitVec.toNat h, fun h => BitVec.eq_of_toNat_eq h⟩

theorem isEven_iff_bit (v : U64) : IsEven v ↔ v[0] = false := by
  rw [isEven_iff, ← BitVec.getLsbD_eq_getElem, BitVec.getLsbD, Nat.testBit_zero]
  simp

theorem IsEven.add {v w : U64} (hv : IsEven v) (hw : IsEven w) : IsEven (v + w) := by
  rw [isEven_iff] at hv hw ⊢
  rw [BitVec.toNat_add]
  omega

/-- Clearing the lowest bit makes an address even. -/
theorem isEven_clear (v : U64) : IsEven (v &&& ~~~(1 : U64)) := by
  rw [isEven_iff_bit]
  simp

/-- The number of bytes of a memory access. -/
inductive Width where
  | b1
  | b2
  | b4
  | b8
  deriving DecidableEq, Repr

namespace Width

/-- The width as a byte count. -/
def bytes : Width → Nat
  | b1 => 1
  | b2 => 2
  | b4 => 4
  | b8 => 8

theorem bytes_pos (w : Width) : 0 < w.bytes := by cases w <;> decide

theorem bytes_le (w : Width) : w.bytes ≤ 8 := by cases w <;> decide

end Width

end RiscvEmu

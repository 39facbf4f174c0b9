import RiscvEmu.Execution.Extension
import RiscvEmu.Lib.Words

/-!
# Multiplication and division

The high and the low product of two registers are the halves of the exact product, in each of
the three combinations of signs.  A quotient and a remainder satisfy the division law of their
signedness, a zero divisor and the overflowing quotient included.  The 32-bit forms satisfy the
same laws on the low halves of the registers.

The guards of the source keep the host division away from the two cases it would fault in.  In
the first of them the model computes what the guard returns, so the guards disappear
(`sdiv_eq`, `srem_eq`).
-/

namespace RiscvEmu

/-! ## Division laws -/

/-- The law of a signed division with quotient `q` and remainder `r`. -/
structure SignedDivision {w : Nat} (a b q r : BitVec w) : Prop where
  identity : b * q + r = a
  remainder_lt : b ≠ 0 → r.toInt.natAbs < b.toInt.natAbs
  remainder_sign : b ≠ 0 → r = 0 ∨ (r.toInt < 0 ↔ a.toInt < 0)
  by_zero : b = 0 → q = BitVec.allOnes w

/-- The law of an unsigned division with quotient `q` and remainder `r`. -/
structure UnsignedDivision {w : Nat} (a b q r : BitVec w) : Prop where
  identity : b * q + r = a
  remainder_lt : b ≠ 0 → r.toNat < b.toNat
  by_zero : b = 0 → q = BitVec.allOnes w

section Divisions

variable {w : Nat} (a b : BitVec w)

/-- No remainder is left by the divisor of the overflowing quotient. -/
theorem srem_neg_one : a.srem (-1) = 0 := by
  apply BitVec.eq_of_toInt_eq
  rw [show (-1 : BitVec w) = BitVec.allOnes w from BitVec.neg_one_eq_allOnes, BitVec.toInt_srem,
    BitVec.toInt_allOnes]
  by_cases hw : 0 < w
  · rw [if_pos hw, Int.tmod_neg, Int.tmod_one]
    simp
  · have h0 : w = 0 := by omega
    subst h0
    simp [BitVec.of_length_zero]

theorem srem_eq : srem a b = a.srem b := by
  rw [srem]
  by_cases hb : b = 0
  · rw [if_pos hb, hb]
    exact BitVec.srem_zero.symm
  · rw [if_neg hb]
    by_cases hov : a = BitVec.intMin w ∧ b = -1
    · rw [if_pos hov, hov.2, srem_neg_one]
    · rw [if_neg hov]

/-- The overflowing quotient is the one that wraps. -/
theorem sdiv_eq {b : BitVec w} (hb : b ≠ 0) : sdiv a b = a.sdiv b := by
  rw [sdiv, if_neg hb]
  by_cases hov : a = BitVec.intMin w ∧ b = -1
  · have hid := Words.mul_sdiv_add_srem a b
    rw [hov.2, srem_neg_one] at hid
    rw [if_pos hov, hov.2]
    calc BitVec.intMin w = -a := by rw [hov.1, BitVec.neg_intMin]
      _ = -(-1 * a.sdiv (-1) + 0) := by rw [hid]
      _ = a.sdiv (-1) := by
        show -(-1#w * a.sdiv (-1) + 0#w) = a.sdiv (-1)
        rw [BitVec.add_zero, BitVec.neg_mul, BitVec.one_mul, BitVec.neg_neg]
  · rw [if_neg hov]

/-- The host division behind the guards does not overflow. -/
theorem sdivOverflow_guarded (h : ¬ (a = BitVec.intMin w ∧ b = -1)) :
    a.sdivOverflow b = false := by
  rw [BitVec.sdivOverflow_eq, ← BitVec.neg_one_eq_allOnes]
  by_cases ha : a = BitVec.intMin w
  · simp [show ¬ b = -1#w from fun hb => h ⟨ha, hb⟩]
  · simp [ha]

theorem sdiv_law : SignedDivision a b (sdiv a b) (srem a b) where
  identity := by
    by_cases hb : b = 0
    · rw [srem_eq, hb]
      show 0#w * sdiv a 0 + a.srem 0#w = a
      rw [BitVec.zero_mul, BitVec.zero_add, BitVec.srem_zero]
    · rw [sdiv_eq a hb, srem_eq]
      exact Words.mul_sdiv_add_srem a b
  remainder_lt hb := by
    rw [srem_eq]
    exact Words.natAbs_srem_lt a hb
  remainder_sign _ := by
    rw [srem_eq]
    exact Words.srem_sign a b
  by_zero hb := by
    rw [sdiv, if_pos hb]
    exact BitVec.neg_one_eq_allOnes

theorem udiv_law : UnsignedDivision a b (udiv a b) (urem a b) where
  identity := by
    rw [udiv, urem]
    by_cases hb : b = 0
    · rw [if_pos hb, if_pos hb, hb]
      simp
    · rw [if_neg hb, if_neg hb]
      exact Words.mul_udiv_add_umod a b
  remainder_lt hb := by
    rw [urem, if_neg hb, BitVec.toNat_umod]
    exact Nat.mod_lt _ (Nat.pos_of_ne_zero fun h => hb (BitVec.eq_of_toNat_eq (by simpa using h)))
  by_zero hb := by
    rw [udiv, if_pos hb]
    exact BitVec.neg_one_eq_allOnes

end Divisions

/-! ## Products -/

section Products

variable (a b : U64)

theorem signed_range (v : U64) : -2 ^ 63 ≤ v.toInt ∧ v.toInt ≤ 2 ^ 63 :=
  ⟨BitVec.le_toInt v, Int.le_of_lt BitVec.toInt_lt⟩

theorem toInt_wide (v : U64) : (v.signExtend 128).toInt = v.toInt :=
  BitVec.toInt_signExtend_of_le (by decide)

theorem toInt_zeroWide (v : U64) : (v.setWidth 128).toInt = v.toNat := by
  have h := v.isLt
  rw [BitVec.toInt_eq_toNat_of_lt] <;> rw [BitVec.toNat_setWidth] <;> omega

/-- The signed product fits 128 bits. -/
theorem mulh_range : -2 ^ (128 - 1) ≤ (a.signExtend 128).toInt * (b.signExtend 128).toInt ∧
    (a.signExtend 128).toInt * (b.signExtend 128).toInt < 2 ^ (128 - 1) := by
  have h := Words.mul_range (signed_range a) (signed_range b)
  rw [toInt_wide, toInt_wide]
  omega

/-- The product of mixed signs fits 128 bits.  Its bound is attained by no pair of operands. -/
theorem mulhsu_range : -2 ^ (128 - 1) ≤ (a.signExtend 128).toInt * (b.setWidth 128).toInt ∧
    (a.signExtend 128).toInt * (b.setWidth 128).toInt < 2 ^ (128 - 1) := by
  have hb := b.isLt
  have h := Words.mul_range (signed_range a)
    (show -(2 ^ 64 - 1) ≤ (b.toNat : Int) ∧ (b.toNat : Int) ≤ 2 ^ 64 - 1 by omega)
  rw [toInt_wide, toInt_zeroWide]
  omega

theorem toNat_mul_zeroWide :
    (a.setWidth 128 * b.setWidth 128).toNat = a.toNat * b.toNat := by
  have h : a.toNat * b.toNat < 2 ^ 64 * 2 ^ 64 := Nat.mul_lt_mul'' a.isLt b.isLt
  rw [BitVec.toNat_mul, BitVec.toNat_setWidth_of_le (by decide),
    BitVec.toNat_setWidth_of_le (by decide)]
  exact Nat.mod_eq_of_lt h

/-- The low product does not depend on how the operands are extended. -/
theorem mul_low {x y : BitVec 128} (hx : x.setWidth 64 = a) (hy : y.setWidth 64 = b) :
    ROp.mul.eval a b = (x * y).setWidth 64 := by
  rw [ROp.eval, BitVec.setWidth_mul _ _ (by decide), BitVec.setWidth_mul _ _ (by decide), hx, hy]
  congr 1 <;> exact setWidth_signExtend (by decide) _

end Products

/-! ## The laws of the instructions -/

/-- The high and low products of two registers are the halves of the exact product, and no
intermediate product overflows its 128 bits. -/
structure ProductLaws (a b : U64) : Prop where
  mulh : (ROp.mulh.eval a b).toInt * 2 ^ 64 + (ROp.mul.eval a b).toNat = a.toInt * b.toInt
  mulhu : (ROp.mulhu.eval a b).toNat * 2 ^ 64 + (ROp.mul.eval a b).toNat = a.toNat * b.toNat
  mulhsu : (ROp.mulhsu.eval a b).toInt * 2 ^ 64 + (ROp.mul.eval a b).toNat = a.toInt * b.toNat
  signed_fits : (a.signExtend 128).smulOverflow (b.signExtend 128) = false
  mixed_fits : (a.signExtend 128).smulOverflow (b.setWidth 128) = false
  unsigned_fits : (a.setWidth 128).umulOverflow (b.setWidth 128) = false

/-- The divisions of two registers, and the host division of each behind its guards. -/
structure DivisionLaws (a b : U64) : Prop where
  signed : SignedDivision a b (ROp.div.eval a b) (ROp.rem.eval a b)
  unsigned : UnsignedDivision a b (ROp.divu.eval a b) (ROp.remu.eval a b)
  guarded : ¬ (a = BitVec.intMin 64 ∧ b = -1) → a.sdivOverflow b = false

/-- The 32-bit forms: a sign-extended result that satisfies the law of the low halves. -/
structure WordLaws (a b : U64) : Prop where
  product : ROp.mulw.eval a b = (lo32 a * lo32 b).signExtend 64
  signed : ∃ q r, ROp.divw.eval a b = q.signExtend 64 ∧ ROp.remw.eval a b = r.signExtend 64 ∧
    SignedDivision (lo32 a) (lo32 b) q r
  unsigned : ∃ q r, ROp.divuw.eval a b = q.signExtend 64 ∧
    ROp.remuw.eval a b = r.signExtend 64 ∧ UnsignedDivision (lo32 a) (lo32 b) q r
  guarded : ¬ (lo32 a = BitVec.intMin 32 ∧ lo32 b = -1) →
    (lo32 a).sdivOverflow (lo32 b) = false
  upper_ignored : ∀ op ∈ [ROp.mulw, .divw, .divuw, .remw, .remuw], ∀ a' b' : U64,
    lo32 a' = lo32 a → lo32 b' = lo32 b → op.eval a' b' = op.eval a b

theorem productLaws (a b : U64) : ProductLaws a b where
  mulh := by
    rw [mul_low a b (setWidth_signExtend (by decide) a) (setWidth_signExtend (by decide) b),
      ROp.eval, mulHigh]
    have h := Words.toInt_halves (n := 64) (a.signExtend 128 * b.signExtend 128) (by decide)
    rw [Words.toInt_mul_of_range (by decide) (mulh_range a b), toInt_wide, toInt_wide] at h
    exact h
  mulhu := by
    rw [mul_low a b (x := a.setWidth 128) (y := b.setWidth 128) (by simp) (by simp), ROp.eval,
      mulHigh]
    have h := Words.toNat_halves (n := 64) (a.setWidth 128 * b.setWidth 128)
    rw [toNat_mul_zeroWide] at h
    exact h
  mulhsu := by
    rw [mul_low a b (y := b.setWidth 128) (setWidth_signExtend (by decide) a) (by simp),
      ROp.eval, mulHigh]
    have h := Words.toInt_halves (n := 64) (a.signExtend 128 * b.setWidth 128) (by decide)
    rw [Words.toInt_mul_of_range (by decide) (mulhsu_range a b), toInt_wide, toInt_zeroWide] at h
    exact h
  signed_fits := Words.smulOverflow_eq_false (mulh_range a b)
  mixed_fits := Words.smulOverflow_eq_false (mulhsu_range a b)
  unsigned_fits := by
    have h : a.toNat * b.toNat < 2 ^ 64 * 2 ^ 64 := Nat.mul_lt_mul'' a.isLt b.isLt
    simp only [BitVec.umulOverflow, decide_eq_false_iff_not,
      BitVec.toNat_setWidth_of_le (show 64 ≤ 128 by decide)]
    omega

theorem divisionLaws (a b : U64) : DivisionLaws a b where
  signed := sdiv_law a b
  unsigned := udiv_law a b
  guarded := sdivOverflow_guarded a b

theorem wordLaws (a b : U64) : WordLaws a b where
  product := signed32_eq _
  signed := ⟨_, _, signed32_eq _, signed32_eq _, sdiv_law (lo32 a) (lo32 b)⟩
  unsigned := ⟨_, _, unsigned32_eq _, unsigned32_eq _, udiv_law (lo32 a) (lo32 b)⟩
  guarded := sdivOverflow_guarded (lo32 a) (lo32 b)
  upper_ignored op hop a' b' ha hb := by
    simp only [List.mem_cons, List.not_mem_nil, or_false] at hop
    rcases hop with rfl | rfl | rfl | rfl | rfl <;> simp only [ROp.eval, ha, hb]

/-- Every instruction of the extension writes the value of its table and goes on, and the values
satisfy the multiplication and division laws. -/
theorem multiply_divide_laws :
    (∀ a b : U64, ProductLaws a b ∧ DivisionLaws a b ∧ WordLaws a b) ∧
      ∀ (fpu : Fpu) (c : Cpu) (op : ROp) (rd rs1 rs2 : Reg),
        execute fpu (.op op rd rs1 rs2) c =
          some ((c.setReg rd (op.eval (c.reg rs1) (c.reg rs2))).retire c.nextPc) :=
  ⟨fun a b => ⟨productLaws a b, divisionLaws a b, wordLaws a b⟩, fun _ _ _ _ _ _ => rfl⟩

end RiscvEmu

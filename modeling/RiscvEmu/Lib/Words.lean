import Mathlib.Algebra.Group.Nat.Defs
import Mathlib.Tactic.Common
import Mathlib.Tactic.Ring
import Mathlib.Tactic.Linarith

/-!
# Exact products and divisions of words

A product in twice the width of its factors is exact, and its two halves are the digits of the
product (`toNat_halves`, `toInt_halves`).  A quotient and a remainder give back the dividend,
and the remainder is below the divisor in size and has the sign of the dividend.  A zero divisor
is no exception to the first fact, nor is the one quotient that does not fit.
-/

namespace Words

/-! ## Halves -/

section Halves

variable {n : Nat} (p : BitVec (n + n))

/-- A word is the number its two halves spell. -/
theorem toNat_halves : (p.extractLsb' n n).toNat * 2 ^ n + (p.setWidth n).toNat = p.toNat := by
  have hhigh : p.toNat / 2 ^ n < 2 ^ n :=
    Nat.div_lt_of_lt_mul (by rw [← Nat.pow_add]; exact p.isLt)
  rw [BitVec.extractLsb'_toNat, BitVec.toNat_setWidth, Nat.shiftRight_eq_div_pow,
    Nat.mod_eq_of_lt hhigh]
  exact Nat.div_add_mod' _ _

/-- The sign of a word is the sign of its high half. -/
theorem half_sign (hn : 0 < n) :
    2 * (p.extractLsb' n n).toNat < 2 ^ n ↔ 2 * p.toNat < 2 ^ (n + n) := by
  have hsplit := toNat_halves p
  have hlow := (p.setWidth n).isLt
  obtain ⟨k, hk⟩ : ∃ k, 2 ^ n = 2 * k :=
    ⟨2 ^ (n - 1), by rw [← Nat.pow_succ']; congr 1; omega⟩
  rw [hk] at hlow hsplit
  rw [Nat.pow_add, ← hsplit, hk]
  constructor
  · intro h
    have hle : (p.extractLsb' n n).toNat + 1 ≤ k := by omega
    nlinarith
  · intro h
    by_contra hc
    have hle : k ≤ (p.extractLsb' n n).toNat := by omega
    nlinarith

/-- A signed word is the number a signed high half and an unsigned low half spell. -/
theorem toInt_halves (hn : 0 < n) :
    (p.extractLsb' n n).toInt * 2 ^ n + (p.setWidth n).toNat = p.toInt := by
  have hsplit : ((p.extractLsb' n n).toNat : Int) * 2 ^ n + (p.setWidth n).toNat = p.toNat := by
    exact_mod_cast toNat_halves p
  rw [BitVec.toInt_eq_toNat_cond, BitVec.toInt_eq_toNat_cond, ← hsplit]
  by_cases h : 2 * (p.extractLsb' n n).toNat < 2 ^ n
  · rw [if_pos h, if_pos ((half_sign p hn).mp h)]
  · rw [if_neg h, if_neg (fun h' => h ((half_sign p hn).mpr h'))]
    push_cast
    ring

end Halves

/-! ## Products -/

/-- A product of signed numbers is at most the product of their ranges in size. -/
theorem mul_range {x y A B : Int} (hx : -A ≤ x ∧ x ≤ A) (hy : -B ≤ y ∧ y ≤ B) :
    -(A * B) ≤ x * y ∧ x * y ≤ A * B := by
  obtain ⟨hx, hx'⟩ := hx
  obtain ⟨hy, hy'⟩ := hy
  constructor
  · nlinarith [mul_nonneg (sub_nonneg.mpr hx') (sub_nonneg.mpr hy'),
      mul_nonneg (sub_nonneg.mpr hx) (sub_nonneg.mpr hy)]
  · nlinarith [mul_nonneg (sub_nonneg.mpr hx') (sub_nonneg.mpr hy),
      mul_nonneg (sub_nonneg.mpr hx) (sub_nonneg.mpr hy')]

/-- A signed product that stays in range does not overflow. -/
theorem smulOverflow_eq_false {n : Nat} {x y : BitVec n}
    (h : -2 ^ (n - 1) ≤ x.toInt * y.toInt ∧ x.toInt * y.toInt < 2 ^ (n - 1)) :
    x.smulOverflow y = false := by
  simp only [BitVec.smulOverflow, Bool.or_eq_false_iff, decide_eq_false_iff_not]
  omega

/-- A signed product that does not overflow is exact. -/
theorem toInt_mul_of_range {n : Nat} (hn : 0 < n) {x y : BitVec n}
    (h : -2 ^ (n - 1) ≤ x.toInt * y.toInt ∧ x.toInt * y.toInt < 2 ^ (n - 1)) :
    (x * y).toInt = x.toInt * y.toInt := by
  have hpow : (2 : Int) ^ n = 2 * 2 ^ (n - 1) := by
    rw [← pow_succ', Nat.sub_add_cancel hn]
  rw [BitVec.toInt_mul]
  exact Int.bmod_eq_of_le_mul_two (by push_cast; omega) (by push_cast; omega)

/-! ## Divisions -/

section Divisions

variable {w : Nat} (a b : BitVec w)

theorem sdiv_eq_ofInt : a.sdiv b = BitVec.ofInt w (a.toInt.tdiv b.toInt) := by
  apply BitVec.eq_of_toInt_eq
  rw [BitVec.toInt_sdiv, BitVec.toInt_ofInt]

theorem srem_eq_ofInt : a.srem b = BitVec.ofInt w (a.toInt.tmod b.toInt) := by
  rw [← BitVec.toInt_srem, BitVec.ofInt_toInt]

/-- The signed quotient and remainder give back the dividend, modulo the word size. -/
theorem mul_sdiv_add_srem : b * a.sdiv b + a.srem b = a := by
  have hb : b = BitVec.ofInt w b.toInt := BitVec.ofInt_toInt.symm
  calc b * a.sdiv b + a.srem b
      = BitVec.ofInt w b.toInt * a.sdiv b + a.srem b := by rw [← hb]
    _ = BitVec.ofInt w (b.toInt * a.toInt.tdiv b.toInt + a.toInt.tmod b.toInt) := by
        rw [sdiv_eq_ofInt, srem_eq_ofInt, ← BitVec.ofInt_mul, ← BitVec.ofInt_add]
    _ = a := by rw [Int.mul_tdiv_add_tmod, BitVec.ofInt_toInt]

/-- The unsigned quotient and remainder give back the dividend. -/
theorem mul_udiv_add_umod : b * (a / b) + a % b = a := by
  apply BitVec.eq_of_toNat_eq
  rw [BitVec.toNat_add, BitVec.toNat_mul, BitVec.toNat_udiv, BitVec.toNat_umod, Nat.mod_add_mod,
    Nat.div_add_mod, Nat.mod_eq_of_lt a.isLt]

variable {b}

theorem natAbs_srem_lt (hb : b ≠ 0) : (a.srem b).toInt.natAbs < b.toInt.natAbs := by
  have hpos : b.toInt ≠ 0 := fun h => hb (BitVec.eq_of_toInt_eq (by rw [h]; simp))
  rw [BitVec.toInt_srem, Int.natAbs_tmod]
  exact Nat.mod_lt _ (Int.natAbs_pos.mpr hpos)

variable (b)

/-- A remainder is zero or has the sign of the dividend. -/
theorem srem_sign : a.srem b = 0 ∨ ((a.srem b).toInt < 0 ↔ a.toInt < 0) := by
  rw [srem_eq_ofInt, ← srem_eq_ofInt, BitVec.toInt_srem]
  by_cases ha : 0 ≤ a.toInt
  · have hr := Int.tmod_nonneg b.toInt ha
    right
    omega
  · have hr := Int.tmod_nonneg b.toInt (show 0 ≤ -a.toInt by omega)
    rw [Int.neg_tmod] at hr
    by_cases h0 : a.toInt.tmod b.toInt = 0
    · left
      rw [srem_eq_ofInt, h0]
      simp
    · right
      omega

end Divisions

end Words

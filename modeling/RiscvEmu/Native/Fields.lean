import RiscvEmu.Native.Values
import RiscvEmu.Jit.Rvc
import RiscvEmu.Decoding.Expansion

/-!
# Fields of compressed encodings

The emitter and the decoder take a compressed encoding apart independently.  Their fields agree
one by one (`shifted_field`), and so do the immediates, which are sums of fields, and the two ways
to extend a sign (`signed_eq`).
-/

namespace RiscvEmu.Jit.Rvc

variable (raw : U16)

/-! ## Fields -/

/-- A field of the widened encoding is the widened field. -/
theorem wide_field {v : Nat} (hv : 16 ≤ v) (n : Nat) (mask : U16) :
    (raw.setWidth v >>> n) &&& mask.setWidth v = ((raw >>> n) &&& mask).setWidth v := by
  apply BitVec.eq_of_getLsbD_eq
  intro i hi
  simp only [BitVec.getLsbD_and, BitVec.getLsbD_ushiftRight, BitVec.getLsbD_setWidth, hi,
    decide_true, Bool.true_and]
  by_cases h16 : n + i < 16
  · simp [show n + i < v by omega]
  · simp [BitVec.getLsbD_of_ge raw (n + i) (by omega)]

/-- A field that the decoder puts in its place in an immediate. -/
theorem shifted_field (n : Nat) (mask : U16) (wide : U32) (hwide : mask.setWidth 32 = wide)
    {s : Nat} (hs : mask.toNat < 2 ^ (32 - s)) :
    (((raw.setWidth 32 >>> n) &&& wide) <<< s).setWidth 64 = field raw n mask <<< s := by
  rw [← hwide, wide_field raw (by decide), field]
  apply BitVec.eq_of_getLsbD_eq
  intro i hi
  simp only [BitVec.getLsbD_shiftLeft, BitVec.getLsbD_setWidth, hi, decide_true, Bool.true_and]
  by_cases h32 : i < 32
  · simp [h32, show i - s < 32 by omega, show i - s < 64 by omega]
  · have hout : ((raw >>> n) &&& mask).getLsbD (i - s) = false := by
        rw [BitVec.getLsbD_and]
        have hmask : mask.getLsbD (i - s) = false := Nat.testBit_lt_two_pow
          (Nat.lt_of_lt_of_le hs (Nat.pow_le_pow_right (by decide) (by omega)))
        rw [hmask, Bool.and_false]
    rw [hout]
    simp

theorem rp_eq (lo : Nat) : RiscvEmu.Rvc.rp (raw.setWidth 32) lo = rp raw lo := by
  have hlt : ((raw >>> lo) &&& 0x7).toNat ≤ 7 := by
    rw [BitVec.toNat_and]
    exact Nat.and_le_right
  have hfield := wide_field raw (v := 32) (by decide) lo 0x7
  rw [RiscvEmu.Rvc.rp, rp, show (0x7 : U32) = (0x7 : U16).setWidth 32 from rfl, hfield]
  congr 1
  rw [BitVec.toNat_add, BitVec.toNat_setWidth]
  change (8 + _) % _ = _
  omega

theorem r5_eq (lo : Nat) : RiscvEmu.Rvc.r5 (raw.setWidth 32) lo = r5 raw lo := by
  have hfield := wide_field raw (v := 32) (by decide) lo 0x1f
  rw [RiscvEmu.Rvc.r5, r5, show (0x1f : U32) = (0x1f : U16).setWidth 32 from rfl, hfield,
    BitVec.toNat_setWidth_of_le (by decide)]

/-! ## Signs -/

theorem signExt_eq (v : U64) {n : Nat} (hn : 0 < n) (hn' : n ≤ 64) :
    signExt v n = (v.setWidth n).signExtend 64 := by
  rw [← sext_eq v hn hn', signExt, sext, show 63 - (n - 1) = 64 - n by omega]

/-- The two ways to extend a sign. -/
theorem signed_eq {v : U32} {n : Nat} {ones : U64} (hn : 0 < n) (hn' : n ≤ 31)
    (hv : v.toNat < 2 ^ n) (hlow : ∀ i, i < n - 1 → ones.getLsbD i = false)
    (hhigh : ∀ i, i < 64 → n ≤ i → ones.getLsbD i = true) :
    RiscvEmu.Rvc.signed v (n - 1) ones = signExt (v.setWidth 64) n := by
  have hout : ∀ i, n ≤ i → v.getLsbD i = false := fun i hi =>
    Nat.testBit_lt_two_pow (Nat.lt_of_lt_of_le hv (Nat.pow_le_pow_right (by decide) hi))
  have hsign : (v >>> (n - 1)) &&& 1 = 1 ↔ v.getLsbD (n - 1) = true := by
    have hnat : ((v >>> (n - 1)) &&& 1).toNat = v.toNat / 2 ^ (n - 1) % 2 := by
      rw [show (1 : U32) = 1#(31 + 1) from rfl, toNat_and_one, BitVec.toNat_ushiftRight,
        Nat.shiftRight_eq_div_pow]
    rw [← BitVec.toNat_inj, hnat, BitVec.getLsbD, Nat.testBit_eq_decide_div_mod_eq,
      decide_eq_true_iff]
    rfl
  rw [signExt_eq _ hn (by omega)]
  apply BitVec.eq_of_getLsbD_eq
  intro i hi
  rw [RiscvEmu.Rvc.signed, BitVec.getLsbD_signExtend, BitVec.msb_eq_getLsbD_last]
  simp only [BitVec.getLsbD_setWidth, hi, decide_true, Bool.true_and,
    show n - 1 < n by omega, show n - 1 < 64 by omega]
  split
  case isTrue h1 =>
    rw [hsign.mp h1, BitVec.getLsbD_or, BitVec.getLsbD_setWidth]
    by_cases hin : i < n
    · by_cases hlast : i = n - 1
      · rw [if_pos hin, hlast, hsign.mp h1]
        simp only [show n - 1 < 64 by omega, show n - 1 < n by omega, decide_true, Bool.true_and,
          Bool.true_or]
      · rw [if_pos hin, hlow i (by omega)]
        simp [hi, hin]
    · rw [if_neg hin, hhigh i hi (by omega), Bool.or_true]
  case isFalse h0 =>
    rw [BitVec.getLsbD_setWidth]
    by_cases hin : i < n
    · rw [if_pos hin]
      simp [hi, hin]
    · rw [if_neg hin, hout i (by omega), Bool.and_false]
      exact (eq_false_of_ne_true fun h1 => h0 (hsign.mpr h1)).symm

/-! ## Immediates -/

/-- A field in the lowest place of an immediate. -/
theorem low_field (n : Nat) (mask : U16) (wide : U32) (hwide : mask.setWidth 32 = wide) :
    ((raw.setWidth 32 >>> n) &&& wide).setWidth 64 = field raw n mask := by
  have h := shifted_field raw n mask wide hwide (s := 0) (Nat.lt_trans mask.isLt (by decide))
  rwa [BitVec.shiftLeft_zero, BitVec.shiftLeft_zero] at h

/-- A field that the emitter takes from the widened encoding. -/
theorem wide_mask (n : Nat) (mask : U16) (wide : U64) (hwide : mask.setWidth 64 = wide) :
    (raw.setWidth 64 >>> n) &&& wide = field raw n mask := by
  rw [← hwide]
  exact wide_field raw (by decide) n mask

theorem addi4spnImm_eq :
    (RiscvEmu.Rvc.addi4spnImm (raw.setWidth 32)).setWidth 64 = addi4spnImm raw := by
  simp only [RiscvEmu.Rvc.addi4spnImm, BitVec.setWidth_or]
  rw [shifted_field raw 6 1 1 rfl (by decide), shifted_field raw 5 1 1 rfl (by decide),
    shifted_field raw 11 3 3 rfl (by decide), shifted_field raw 7 0xf 0xf rfl (by decide),
    addi4spnImm]
  ac_rfl

theorem ldImm_eq : (RiscvEmu.Rvc.ldImm (raw.setWidth 32)).setWidth 64 = ldImm raw := by
  simp only [RiscvEmu.Rvc.ldImm, BitVec.setWidth_or]
  rw [shifted_field raw 10 7 7 rfl (by decide), shifted_field raw 5 3 3 rfl (by decide), ldImm]

theorem ldspImm_eq : (RiscvEmu.Rvc.ldspImm (raw.setWidth 32)).setWidth 64 = ldspImm raw := by
  simp only [RiscvEmu.Rvc.ldspImm, BitVec.setWidth_or]
  rw [shifted_field raw 12 1 1 rfl (by decide), shifted_field raw 5 3 3 rfl (by decide),
    shifted_field raw 2 7 7 rfl (by decide), ldspImm]

theorem sdspImm_eq : (RiscvEmu.Rvc.sdspImm (raw.setWidth 32)).setWidth 64 = sdspImm raw := by
  simp only [RiscvEmu.Rvc.sdspImm, BitVec.setWidth_or]
  rw [shifted_field raw 10 7 7 rfl (by decide), shifted_field raw 7 7 7 rfl (by decide), sdspImm]

theorem immU_eq : (RiscvEmu.Rvc.shamt (raw.setWidth 32)).setWidth 64 = immU raw := by
  have hlow : (raw >>> 2).setWidth 64 &&& 0x1f = field raw 2 0x1f := by
    rw [field, BitVec.setWidth_and]
    rfl
  simp only [RiscvEmu.Rvc.shamt, BitVec.setWidth_or]
  rw [shifted_field raw 12 1 1 rfl (by decide), low_field raw 2 0x1f 0x1f rfl, immU, hlow]

theorem imm6_eq : RiscvEmu.Rvc.imm6 (raw.setWidth 32) = imm6 raw := by
  rw [imm6, ← immU_eq]
  refine signed_eq (n := 6) (by decide) (by decide) RiscvEmu.Rvc.shamt_lt ?_ ?_
  · decide
  · decide

theorem addi16spImm_eq : RiscvEmu.Rvc.addi16spImm (raw.setWidth 32) = addi16spImm raw := by
  rw [RiscvEmu.Rvc.addi16spImm]
  refine (signed_eq (n := 10) (by decide) (by decide) RiscvEmu.Rvc.addi16spRaw_lt (by decide)
    (by decide)).trans ?_
  simp only [BitVec.setWidth_or]
  rw [shifted_field raw 12 1 1 rfl (by decide), shifted_field raw 3 3 3 rfl (by decide),
    shifted_field raw 5 1 1 rfl (by decide), shifted_field raw 2 1 1 rfl (by decide),
    shifted_field raw 6 1 1 rfl (by decide)]
  rfl

theorem jImm_eq : RiscvEmu.Rvc.jImm (raw.setWidth 32) = jImm raw := by
  rw [RiscvEmu.Rvc.jImm]
  refine (signed_eq (n := 12) (by decide) (by decide) RiscvEmu.Rvc.jRaw_lt (by decide)
    (by decide)).trans ?_
  simp only [BitVec.setWidth_or]
  rw [shifted_field raw 12 1 1 rfl (by decide), shifted_field raw 11 1 1 rfl (by decide),
    shifted_field raw 9 3 3 rfl (by decide), shifted_field raw 8 1 1 rfl (by decide),
    shifted_field raw 7 1 1 rfl (by decide), shifted_field raw 6 1 1 rfl (by decide),
    shifted_field raw 3 7 7 rfl (by decide), shifted_field raw 2 1 1 rfl (by decide)]
  simp only [jImm]
  rw [wide_mask raw 12 1 1 rfl, wide_mask raw 11 1 1 rfl, wide_mask raw 9 3 3 rfl,
    wide_mask raw 8 1 1 rfl, wide_mask raw 7 1 1 rfl, wide_mask raw 6 1 1 rfl,
    wide_mask raw 3 7 7 rfl, wide_mask raw 2 1 1 rfl]

theorem bImm_eq : RiscvEmu.Rvc.bImm (raw.setWidth 32) = bImm raw := by
  rw [RiscvEmu.Rvc.bImm]
  refine (signed_eq (n := 9) (by decide) (by decide) RiscvEmu.Rvc.bRaw_lt (by decide)
    (by decide)).trans ?_
  simp only [BitVec.setWidth_or]
  rw [shifted_field raw 12 1 1 rfl (by decide), shifted_field raw 10 3 3 rfl (by decide),
    shifted_field raw 5 3 3 rfl (by decide), shifted_field raw 3 3 3 rfl (by decide),
    shifted_field raw 2 1 1 rfl (by decide)]
  simp only [bImm]
  rw [wide_mask raw 12 1 1 rfl, wide_mask raw 10 3 3 rfl, wide_mask raw 5 3 3 rfl,
    wide_mask raw 3 3 3 rfl, wide_mask raw 2 1 1 rfl]

theorem signExt_bit (v : U64) {n i : Nat} (hn : 0 < n) (hn' : n ≤ 64) (hi : i < 64) :
    (signExt v n).getLsbD i = if i < n then v.getLsbD i else v.getLsbD (n - 1) := by
  rw [signExt_eq v hn hn', BitVec.getLsbD_signExtend, BitVec.msb_eq_getLsbD_last]
  simp only [BitVec.getLsbD_setWidth, hi, decide_true, Bool.true_and,
    show n - 1 < n by omega]
  split
  · simp [*]
  · rfl

/-- The sign may be extended before the value is moved up. -/
theorem signExt_shiftLeft (v : U64) : signExt (v <<< 12) 18 = signExt v 6 <<< 12 := by
  apply BitVec.eq_of_getLsbD_eq
  intro i hi
  have hl := signExt_bit (v <<< 12) (n := 18) (by decide) (by decide) hi
  have hr := signExt_bit v (n := 6) (i := i - 12) (by decide) (by decide) (by omega)
  rw [hl, BitVec.getLsbD_shiftLeft, BitVec.getLsbD_shiftLeft, BitVec.getLsbD_shiftLeft, hr]
  by_cases h12 : i < 12
  · simp [h12, show i < 18 by omega]
  · by_cases h18 : i < 18
    · rw [if_pos h18, if_pos (show i - 12 < 6 by omega)]
    · rw [if_neg h18, if_neg (show ¬ i - 12 < 6 by omega)]
      simp [hi, h12]

theorem luiImm_eq : RiscvEmu.Rvc.luiImm (raw.setWidth 32) = imm6 raw <<< 12 := by
  have hplace : RiscvEmu.Rvc.luiImm (raw.setWidth 32) = signExt (immU raw <<< 12) 18 := by
    rw [RiscvEmu.Rvc.luiImm]
    refine (signed_eq (n := 18) (by decide) (by decide) RiscvEmu.Rvc.luiRaw_lt (by decide)
      (by decide)).trans ?_
    simp only [BitVec.setWidth_or]
    rw [shifted_field raw 12 1 1 rfl (by decide), shifted_field raw 2 0x1f 0x1f rfl (by decide),
      ← immU_eq]
    simp only [RiscvEmu.Rvc.shamt, BitVec.setWidth_or]
    rw [shifted_field raw 12 1 1 rfl (by decide), low_field raw 2 0x1f 0x1f rfl,
      BitVec.shiftLeft_or_distrib, ← BitVec.shiftLeft_add]
  rw [hplace, imm6, signExt_shiftLeft]

theorem imm6_eq_zero : imm6 raw <<< 12 = 0 ↔ imm6 raw = 0 := by
  constructor
  · intro hzero
    have hlow : ∀ i, i < 52 → (imm6 raw).getLsbD i = false := by
      intro i hi
      have hbit : (imm6 raw <<< 12).getLsbD (i + 12) = false := by
        rw [hzero]
        exact BitVec.getLsbD_zero
      rw [BitVec.getLsbD_shiftLeft, Nat.add_sub_cancel] at hbit
      simpa only [show i + 12 < 64 by omega, show ¬ i + 12 < 12 by omega, decide_true,
        decide_false, Bool.not_false, Bool.true_and] using hbit
    apply BitVec.eq_of_getLsbD_eq
    intro i hi
    have hi' := signExt_bit (immU raw) (n := 6) (by decide) (by decide) hi
    have h5 := signExt_bit (immU raw) (n := 6) (i := 5) (by decide) (by decide) (by decide)
    by_cases h52 : i < 52
    · exact (hlow i h52).trans BitVec.getLsbD_zero.symm
    · rw [if_neg (show ¬ i < 6 by omega)] at hi'
      exact ((hi'.trans h5.symm).trans (hlow 5 (by decide))).trans BitVec.getLsbD_zero.symm
  · intro hzero
    rw [hzero]
    rfl

theorem shamt_eq : (RiscvEmu.Rvc.shamt (raw.setWidth 32)).setWidth 8 = shamt raw := by
  have hfield : ∀ (n : Nat) (mask : U16) (wide : U32), mask.setWidth 32 = wide →
      ((raw.setWidth 32 >>> n) &&& wide).setWidth 8 = ((raw >>> n) &&& mask).setWidth 8 := by
    intro n mask wide hwide
    rw [← hwide, wide_field raw (by decide)]
    exact BitVec.setWidth_setWidth_of_le _ (by decide)
  simp only [RiscvEmu.Rvc.shamt, shamt, BitVec.setWidth_or]
  rw [BitVec.setWidth_shiftLeft_of_le (by decide), BitVec.setWidth_shiftLeft_of_le (by decide),
    hfield 12 1 1 rfl, hfield 2 0x1f 0x1f rfl]

end RiscvEmu.Jit.Rvc

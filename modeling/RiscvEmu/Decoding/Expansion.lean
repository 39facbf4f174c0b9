import RiscvEmu.Cpu.Step
import RiscvEmu.Decoding.Fidelity

/-!
# Compressed encodings as abbreviations

A compressed encoding stands for an instruction that has a full encoding, too.  Its immediate is
a sum of fields in disjoint places, so its bound comes field by field (`field_lt`, `or_lt`), and
it is the sign extension of as many bits as the full format has (`Signed`).  So every encoding
that `decodeRvc` accepts has a full one that `decode` takes for the same instruction
(`compressed_expands`), and the ranges of the full formats hold of it (`Expands.inRange`).
-/

namespace RiscvEmu

open Isa

/-! ## Fields -/

namespace Rvc

variable {w : U32}

/-- A value whose bits are all below a place. -/
theorem or_lt {v v' : U32} {n : Nat} (hv : v.toNat < 2 ^ n) (hv' : v'.toNat < 2 ^ n) :
    (v ||| v').toNat < 2 ^ n := by
  rw [BitVec.toNat_or]
  exact Nat.or_lt_two_pow hv hv'

/-- A field of `k` bits that goes to place `s`. -/
theorem field_lt (v m : U32) {k s n : Nat} (hm : m.toNat < 2 ^ k) (hks : k + s ≤ n) :
    ((v &&& m) <<< s).toNat < 2 ^ n := by
  have hv : (v &&& m).toNat < 2 ^ k := and_mask_lt v m hm
  rw [BitVec.toNat_shiftLeft, Nat.shiftLeft_eq]
  calc (v &&& m).toNat * 2 ^ s % 2 ^ 32 ≤ (v &&& m).toNat * 2 ^ s := Nat.mod_le _ _
    _ < 2 ^ k * 2 ^ s := Nat.mul_lt_mul_of_pos_right hv (Nat.two_pow_pos s)
    _ = 2 ^ (k + s) := (Nat.pow_add 2 k s).symm
    _ ≤ 2 ^ n := Nat.pow_le_pow_right (by decide) hks

theorem isEven_signed {raw : U32} {ones : U64} (signBit : Nat) (hraw : raw[0] = false)
    (hones : IsEven ones) : IsEven (signed raw signBit ones) := by
  rw [isEven_iff_bit] at hones
  rw [signed, isEven_iff_bit]
  split
  · simp [hraw, hones]
  · simp [hraw]

theorem addi4spnImm_lt : (addi4spnImm w).toNat < 2 ^ 11 := by
  refine or_lt (or_lt (or_lt ?_ ?_) ?_) ?_
  · exact field_lt _ _ (k := 1) (by decide) (by decide)
  · exact field_lt _ _ (k := 1) (by decide) (by decide)
  · exact field_lt _ _ (k := 2) (by decide) (by decide)
  · exact field_lt _ _ (k := 4) (by decide) (by decide)

theorem ldImm_lt : (ldImm w).toNat < 2 ^ 11 := by
  refine or_lt ?_ ?_
  · exact field_lt _ _ (k := 3) (by decide) (by decide)
  · exact field_lt _ _ (k := 2) (by decide) (by decide)

theorem lwImm_lt : (lwImm w).toNat < 2 ^ 11 := by
  refine or_lt (or_lt ?_ ?_) ?_
  · exact field_lt _ _ (k := 1) (by decide) (by decide)
  · exact field_lt _ _ (k := 3) (by decide) (by decide)
  · exact field_lt _ _ (k := 1) (by decide) (by decide)

theorem shamt_lt : (shamt w).toNat < 64 := by
  refine or_lt (n := 6) ?_ ?_
  · exact field_lt _ _ (k := 1) (by decide) (by decide)
  · exact and_mask_lt _ _ (by decide)

theorem addi16spRaw_lt : ((((w >>> 12) &&& 1) <<< 9) ||| (((w >>> 3) &&& 3) <<< 7)
    ||| (((w >>> 5) &&& 1) <<< 6) ||| (((w >>> 2) &&& 1) <<< 5)
    ||| (((w >>> 6) &&& 1) <<< 4)).toNat < 2 ^ 10 := by
  refine or_lt (or_lt (or_lt (or_lt ?_ ?_) ?_) ?_) ?_
  · exact field_lt _ _ (k := 1) (by decide) (by decide)
  · exact field_lt _ _ (k := 2) (by decide) (by decide)
  · exact field_lt _ _ (k := 1) (by decide) (by decide)
  · exact field_lt _ _ (k := 1) (by decide) (by decide)
  · exact field_lt _ _ (k := 1) (by decide) (by decide)

theorem luiRaw_lt :
    ((((w >>> 12) &&& 1) <<< 17) ||| (((w >>> 2) &&& 0x1f) <<< 12)).toNat < 2 ^ 18 := by
  refine or_lt ?_ ?_
  · exact field_lt _ _ (k := 1) (by decide) (by decide)
  · exact field_lt _ _ (k := 5) (by decide) (by decide)

theorem jRaw_lt : ((((w >>> 12) &&& 1) <<< 11) ||| (((w >>> 11) &&& 1) <<< 4)
    ||| (((w >>> 9) &&& 3) <<< 8) ||| (((w >>> 8) &&& 1) <<< 10) ||| (((w >>> 7) &&& 1) <<< 6)
    ||| (((w >>> 6) &&& 1) <<< 7) ||| (((w >>> 3) &&& 7) <<< 1)
    ||| (((w >>> 2) &&& 1) <<< 5)).toNat < 2 ^ 12 := by
  refine or_lt (or_lt (or_lt (or_lt (or_lt (or_lt (or_lt ?_ ?_) ?_) ?_) ?_) ?_) ?_) ?_
  · exact field_lt _ _ (k := 1) (by decide) (by decide)
  · exact field_lt _ _ (k := 1) (by decide) (by decide)
  · exact field_lt _ _ (k := 2) (by decide) (by decide)
  · exact field_lt _ _ (k := 1) (by decide) (by decide)
  · exact field_lt _ _ (k := 1) (by decide) (by decide)
  · exact field_lt _ _ (k := 1) (by decide) (by decide)
  · exact field_lt _ _ (k := 3) (by decide) (by decide)
  · exact field_lt _ _ (k := 1) (by decide) (by decide)

theorem bRaw_lt : ((((w >>> 12) &&& 1) <<< 8) ||| (((w >>> 10) &&& 3) <<< 3)
    ||| (((w >>> 5) &&& 3) <<< 6) ||| (((w >>> 3) &&& 3) <<< 1)
    ||| (((w >>> 2) &&& 1) <<< 5)).toNat < 2 ^ 9 := by
  refine or_lt (or_lt (or_lt (or_lt ?_ ?_) ?_) ?_) ?_
  · exact field_lt _ _ (k := 1) (by decide) (by decide)
  · exact field_lt _ _ (k := 2) (by decide) (by decide)
  · exact field_lt _ _ (k := 2) (by decide) (by decide)
  · exact field_lt _ _ (k := 2) (by decide) (by decide)
  · exact field_lt _ _ (k := 1) (by decide) (by decide)

theorem ldspImm_lt : (ldspImm w).toNat < 2 ^ 11 := by
  refine or_lt (or_lt ?_ ?_) ?_
  · exact field_lt _ _ (k := 1) (by decide) (by decide)
  · exact field_lt _ _ (k := 2) (by decide) (by decide)
  · exact field_lt _ _ (k := 3) (by decide) (by decide)

theorem lwspImm_lt : (lwspImm w).toNat < 2 ^ 11 := by
  refine or_lt (or_lt ?_ ?_) ?_
  · exact field_lt _ _ (k := 1) (by decide) (by decide)
  · exact field_lt _ _ (k := 3) (by decide) (by decide)
  · exact field_lt _ _ (k := 2) (by decide) (by decide)

theorem sdspImm_lt : (sdspImm w).toNat < 2 ^ 11 := by
  refine or_lt ?_ ?_
  · exact field_lt _ _ (k := 3) (by decide) (by decide)
  · exact field_lt _ _ (k := 3) (by decide) (by decide)

theorem swspImm_lt : (swspImm w).toNat < 2 ^ 11 := by
  refine or_lt ?_ ?_
  · exact field_lt _ _ (k := 4) (by decide) (by decide)
  · exact field_lt _ _ (k := 2) (by decide) (by decide)

theorem jImm_even (w : U32) : IsEven (jImm w) := isEven_signed 11 (by simp) (by decide)

theorem bImm_even (w : U32) : IsEven (bImm w) := isEven_signed 8 (by simp) (by decide)

end Rvc

/-! ## Immediates -/

/-- A value that is the sign extension of its low bits. -/
def Signed (k : Nat) (v : U64) : Prop := (v.setWidth k).signExtend 64 = v

instance (k : Nat) (v : U64) : Decidable (Signed k v) :=
  inferInstanceAs (Decidable ((v.setWidth k).signExtend 64 = v))

theorem Signed.or {k : Nat} {a b : U64} (ha : Signed k a) (hb : Signed k b) :
    Signed k (a ||| b) := by
  rw [Signed, BitVec.setWidth_or, BitVec.signExtend_or]
  exact congrArg₂ _ ha hb

/-- A value without a bit at the place of the sign and above. -/
theorem signed_of_lt {k : Nat} {v : U64} (hv : v.toNat < 2 ^ k) : Signed (k + 1) v := by
  have hlow : (v.setWidth (k + 1)).toNat = v.toNat := by
    rw [BitVec.toNat_setWidth, Nat.mod_eq_of_lt]
    exact Nat.lt_trans hv (Nat.pow_lt_pow_right (by decide) (Nat.lt_succ_self k))
  have hmsb : (v.setWidth (k + 1)).msb = false := by
    rw [BitVec.msb_eq_false_iff_two_mul_lt, hlow]
    omega
  rw [Signed, BitVec.signExtend_eq_setWidth_of_msb_false hmsb]
  apply BitVec.eq_of_toNat_eq
  rw [BitVec.toNat_setWidth, hlow, Nat.mod_eq_of_lt v.isLt]

theorem signed_setWidth {k : Nat} {v : U32} (hv : v.toNat < 2 ^ k) :
    Signed (k + 1) (v.setWidth 64) := by
  refine signed_of_lt ?_
  rwa [BitVec.toNat_setWidth_of_le (by decide)]

/-- The bits of `ones` are a sign, and the other ones are below it. -/
theorem signed_signed {k n : Nat} {raw : U32} {ones : U64} (signBit : Nat)
    (hraw : raw.toNat < 2 ^ n) (hn : n ≤ k) (hones : Signed (k + 1) ones) :
    Signed (k + 1) (Rvc.signed raw signBit ones) := by
  have hlow : Signed (k + 1) (raw.setWidth 64) :=
    signed_setWidth (Nat.lt_of_lt_of_le hraw (Nat.pow_le_pow_right (by decide) hn))
  rw [Rvc.signed]
  split
  · exact hlow.or hones
  · exact hlow

/-- The high bits of a value whose low bits are zero. -/
theorem append_zero {v : U64} {n z : Nat} (hlow : v.extractLsb' 0 z = 0#z) :
    v.extractLsb' z n ++ 0#z = v.setWidth (n + z) := by
  have hjoin := halves v 0 n z
  rw [hlow, Nat.zero_add] at hjoin
  rw [hjoin]
  apply BitVec.eq_of_getLsbD_eq
  intro i hi
  simp [hi]

theorem low_of_even {v : U64} (h : IsEven v) : v.extractLsb' 0 1 = 0#1 := by
  have hbit := (isEven_iff_bit v).mp h
  apply BitVec.eq_of_getLsbD_eq
  intro i hi
  cases Nat.lt_one_iff.mp hi
  simpa using hbit

section

variable {w : U32}

theorem imm6_signed : Signed 12 (Rvc.imm6 w) :=
  signed_signed (n := 6) 5 Rvc.shamt_lt (by decide) (by decide)

theorem addi16spImm_signed : Signed 12 (Rvc.addi16spImm w) :=
  signed_signed 9 Rvc.addi16spRaw_lt (by decide) (by decide)

theorem jImm_signed : Signed 21 (Rvc.jImm w) := signed_signed 11 Rvc.jRaw_lt (by decide) (by decide)

theorem bImm_signed : Signed 13 (Rvc.bImm w) := signed_signed 8 Rvc.bRaw_lt (by decide) (by decide)

theorem luiImm_signed : Signed 32 (Rvc.luiImm w) :=
  signed_signed 17 Rvc.luiRaw_lt (by decide) (by decide)

/-- The twelve bits that `LUI` does not encode. -/
theorem luiImm_low : (Rvc.luiImm w).extractLsb' 0 12 = 0#12 := by
  apply BitVec.eq_of_getLsbD_eq
  intro i hi
  simp only [Rvc.luiImm, Rvc.signed]
  split
  · interval_cases i <;> simp
  · interval_cases i <;> simp

end

/-! ## Full encodings -/

/-- An instruction that has a full encoding. -/
def Expands (inst : Instruction) : Prop := ∃ i : Inst, i.decoded = inst

section

variable {rd rs1 rs2 : Reg} {v : U64}

theorem expands_op (o : ROp) : Expands (.op o rd rs1 rs2) := ⟨.op o rd rs1 rs2, rfl⟩

theorem expands_opImm (o : IOp) (hv : Signed 12 v) : Expands (.opImm o rd rs1 v) :=
  ⟨.opImm o rd rs1 (v.setWidth 12), congrArg _ hv⟩

theorem expands_load (l : LoadOp) (hv : Signed 12 v) : Expands (.load l rd rs1 v) :=
  ⟨.load l rd rs1 (v.setWidth 12), congrArg _ hv⟩

theorem expands_store (st : StoreOp) (hv : Signed 12 v) : Expands (.store st rs1 rs2 v) :=
  ⟨.store st rs1 rs2 (v.setWidth 12), congrArg _ hv⟩

theorem expands_fld (hv : Signed 12 v) : Expands (.fld rd rs1 v) :=
  ⟨.fld rd rs1 (v.setWidth 12), congrArg _ hv⟩

theorem expands_fsd (hv : Signed 12 v) : Expands (.fsd rs1 rs2 v) :=
  ⟨.fsd rs1 rs2 (v.setWidth 12), congrArg _ hv⟩

theorem expands_jalr (hv : Signed 12 v) : Expands (.jalr rd rs1 v) :=
  ⟨.jalr rd rs1 (v.setWidth 12), congrArg _ hv⟩

theorem expands_shift (sh : ShiftOp) {shamt : U32} (hlt : shamt.toNat < sh.width) :
    Expands (.shift sh rd rs1 shamt) := by
  refine ⟨.shift sh rd rs1 ⟨shamt.toNat, hlt⟩, ?_⟩
  rw [Inst.decoded, BitVec.ofNat_toNat, BitVec.setWidth_eq]

theorem expands_branch (br : BranchOp) (heven : IsEven v) (hv : Signed 13 v) :
    Expands (.branch br rs1 rs2 v) := by
  refine ⟨.branch br rs1 rs2 (v.extractLsb' 1 12), ?_⟩
  rw [Inst.decoded, append_zero (low_of_even heven)]
  exact congrArg _ hv

theorem expands_jal (heven : IsEven v) (hv : Signed 21 v) : Expands (.jal rd v) := by
  refine ⟨.jal rd (v.extractLsb' 1 20), ?_⟩
  rw [Inst.decoded, append_zero (low_of_even heven)]
  exact congrArg _ hv

theorem expands_lui (hlow : v.extractLsb' 0 12 = 0#12) (hv : Signed 32 v) :
    Expands (.lui rd v) := by
  refine ⟨.lui rd (v.extractLsb' 12 20), ?_⟩
  rw [Inst.decoded, append_zero hlow]
  exact congrArg _ hv

end

/-! ## The quadrants -/

section

variable {w funct3 : U32} {inst : Instruction}

theorem quadrant0_expands (h : Rvc.quadrant0 w funct3 = some inst) : Expands inst := by
  unfold Rvc.quadrant0 at h
  dsimp only at h
  split at h
  case h_1 =>
    split at h
    · cases h
    · cases h
      exact expands_opImm _ (signed_setWidth Rvc.addi4spnImm_lt)
  case h_2 =>
    cases h
    exact expands_fld (signed_setWidth Rvc.ldImm_lt)
  case h_3 =>
    cases h
    exact expands_load _ (signed_setWidth Rvc.lwImm_lt)
  case h_4 =>
    cases h
    exact expands_load _ (signed_setWidth Rvc.ldImm_lt)
  case h_5 =>
    cases h
    exact expands_fsd (signed_setWidth Rvc.ldImm_lt)
  case h_6 =>
    cases h
    exact expands_store _ (signed_setWidth Rvc.lwImm_lt)
  case h_7 =>
    cases h
    exact expands_store _ (signed_setWidth Rvc.ldImm_lt)
  case h_8 => cases h

theorem arith_expands (h : Rvc.arith w = some inst) : Expands inst := by
  unfold Rvc.arith at h
  dsimp only at h
  split at h
  case h_7 => cases h
  all_goals
    cases h
    exact expands_op _

theorem quadrant1_expands (h : Rvc.quadrant1 w funct3 = some inst) : Expands inst := by
  unfold Rvc.quadrant1 at h
  dsimp only at h
  split at h
  case h_1 | h_3 =>
    cases h
    exact expands_opImm _ imm6_signed
  case h_2 =>
    split at h
    · cases h
    · cases h
      exact expands_opImm _ imm6_signed
  case h_4 =>
    split at h
    · split at h
      · cases h
      · cases h
        exact expands_opImm _ addi16spImm_signed
    · split at h
      · split at h
        · cases h
        · cases h
          exact expands_lui luiImm_low luiImm_signed
      · cases h
  case h_5 =>
    split at h
    case h_1 | h_2 =>
      cases h
      exact expands_shift _ Rvc.shamt_lt
    case h_3 =>
      cases h
      exact expands_opImm _ imm6_signed
    case h_4 => exact arith_expands h
  case h_6 =>
    cases h
    exact expands_jal (Rvc.jImm_even w) jImm_signed
  case h_7 | h_8 =>
    cases h
    exact expands_branch _ (Rvc.bImm_even w) bImm_signed
  case h_9 => cases h

theorem jumpOrMove_expands (h : Rvc.jumpOrMove w = some inst) : Expands inst := by
  have hzero : Signed 12 0 := by decide
  unfold Rvc.jumpOrMove at h
  dsimp only at h
  split at h
  case isTrue =>
    cases h
    exact expands_jalr hzero
  split at h
  case isTrue =>
    cases h
    exact expands_op _
  split at h
  case isTrue =>
    cases h
    exact ⟨.ebreak, rfl⟩
  split at h
  case isTrue =>
    cases h
    exact expands_jalr hzero
  split at h
  · cases h
    exact expands_op _
  · cases h

theorem quadrant2_expands (h : Rvc.quadrant2 w funct3 = some inst) : Expands inst := by
  unfold Rvc.quadrant2 at h
  dsimp only at h
  split at h
  case h_1 =>
    cases h
    exact expands_shift _ Rvc.shamt_lt
  case h_2 =>
    cases h
    exact expands_fld (signed_setWidth Rvc.ldspImm_lt)
  case h_3 =>
    split at h
    · cases h
    · cases h
      exact expands_load _ (signed_setWidth Rvc.lwspImm_lt)
  case h_4 =>
    split at h
    · cases h
    · cases h
      exact expands_load _ (signed_setWidth Rvc.ldspImm_lt)
  case h_5 => exact jumpOrMove_expands h
  case h_6 =>
    cases h
    exact expands_fsd (signed_setWidth Rvc.sdspImm_lt)
  case h_7 =>
    cases h
    exact expands_store _ (signed_setWidth Rvc.swspImm_lt)
  case h_8 =>
    cases h
    exact expands_store _ (signed_setWidth Rvc.sdspImm_lt)
  case h_9 => cases h

theorem decodeRvc?_expands (h : decodeRvc? w = some inst) : Expands inst := by
  unfold decodeRvc? at h
  dsimp only at h
  split at h
  case h_1 => exact quadrant0_expands h
  case h_2 => exact quadrant1_expands h
  case h_3 => exact quadrant2_expands h
  case h_4 => cases h

end

/-! ## Ranges -/

theorem Expands.inRange {inst : Instruction} (h : Expands inst) : inst.InRange := by
  obtain ⟨i, rfl⟩ := h
  exact decode?_inRange (decode?_encode i)

theorem decodeRvc?_inRange {w : U32} {inst : Instruction} (h : decodeRvc? w = some inst) :
    inst.InRange :=
  (decodeRvc?_expands h).inRange

theorem decodeRvc_inRange {raw : U16} {inst : Instruction} (h : decodeRvc raw = .ok inst) :
    inst.InRange :=
  decodeRvc?_inRange (decodeRvc_eq_ok.mp h)

theorem Rvc.imm6_fits {w : U32} : Fits (imm6 w) :=
  (@expands_opImm 0 0 _ .addi imm6_signed).inRange

/-! ## Fetched encodings -/

/-- A full encoding is in quadrant 3. -/
theorem quadrant_of_decode? {w : U32} {inst : Instruction} (h : decode? w = some inst) :
    w &&& 0x3 = 0x3 := by
  have hmask : (0x7f : U32) &&& 0x3 = 0x3 := by decide
  rw [← hmask, ← BitVec.and_assoc]
  unfold decode? at h
  dsimp only at h
  split at h
  case h_22 => cases h
  all_goals
    rename_i hop
    rw [hop]
    decide

/-- A compressed encoding is not in quadrant 3. -/
theorem quadrant_of_decodeRvc? {w : U32} {inst : Instruction} (h : decodeRvc? w = some inst) :
    w &&& 0x3 ≠ 0x3 := by
  intro hw
  unfold decodeRvc? at h
  dsimp only at h
  rw [hw] at h
  cases h

theorem decodeFetched_encode (i : Inst) : Cpu.decodeFetched (encode i) = (4, .ok i.decoded) := by
  have hdec := decode?_encode i
  rw [Cpu.decodeFetched, if_neg (not_not_intro (quadrant_of_decode? hdec)), decode_eq_ok.mpr hdec]
  rfl

theorem decodeFetched_compressed {raw : U16} {inst : Instruction} (h : decodeRvc raw = .ok inst) :
    Cpu.decodeFetched (raw.setWidth 32) = (2, .ok inst) := by
  have hne := quadrant_of_decodeRvc? (decodeRvc_eq_ok.mp h)
  rw [Cpu.decodeFetched, if_pos hne, BitVec.setWidth_setWidth_of_le raw (by decide),
    BitVec.setWidth_eq, h]
  rfl

/-- Every compressed encoding abbreviates a full one: the same instruction is fetched, in two
bytes and in four. -/
theorem compressed_expands (raw : U16) (inst : Instruction) (h : decodeRvc raw = .ok inst) :
    ∃ i : Inst, Cpu.decodeFetched (encode i) = (4, .ok inst)
      ∧ Cpu.decodeFetched (raw.setWidth 32) = (2, .ok inst) := by
  obtain ⟨i, rfl⟩ := decodeRvc?_expands (decodeRvc_eq_ok.mp h)
  exact ⟨i, decodeFetched_encode i, decodeFetched_compressed h⟩

/-- `C.J`, whose offset has its bits 11, 4, 9 to 8, 10, 6, 7, 3 to 1 and 5 in this order. -/
theorem jump_expands :
    decodeRvc 0xAB95#16 = .ok (.jal 0 1396)
      ∧ ∃ i : Inst, Cpu.decodeFetched (encode i) = (4, .ok (.jal 0 1396))
        ∧ Cpu.decodeFetched ((0xAB95#16).setWidth 32) = (2, .ok (.jal 0 1396)) :=
  ⟨by rfl, compressed_expands 0xAB95#16 (.jal 0 1396) (by rfl)⟩

end RiscvEmu

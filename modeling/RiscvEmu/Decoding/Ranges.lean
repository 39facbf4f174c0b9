import RiscvEmu.Cpu.DecodeRvc
import RiscvEmu.Cpu.Execute

/-!
# Ranges of decoded fields

What the decoder guarantees about the fields of an instruction: an immediate is the sign
extension of its low half, a shift amount is below the width of its operand, and a jump or a
branch goes an even distance.
-/

namespace RiscvEmu

/-! ## The ranges -/

/-- An immediate that is the sign extension of its low half. -/
def Fits (imm : U64) : Prop := (lo32 imm).signExtend 64 = imm

instance (imm : U64) : Decidable (Fits imm) :=
  inferInstanceAs (Decidable ((lo32 imm).signExtend 64 = imm))

/-- The operand width of a shift. -/
def ShiftOp.width : ShiftOp → Nat
  | slli | srli | srai => 64
  | slliw | srliw | sraiw => 32

/-- The fields of an instruction are in their ranges. -/
def Instruction.InRange : Instruction → Prop
  | .opImm _ _ _ imm | .load _ _ _ imm | .store _ _ _ imm | .jalr _ _ imm => Fits imm
  | .shift sh _ _ shamt => shamt.toNat < sh.width
  | .branch _ _ _ imm | .jal _ imm => IsEven imm
  | _ => True

/-! ## Full encodings -/

/-- Cutting off the bits of a sign extension. -/
theorem setWidth_signExtend {w v : Nat} (hwv : w ≤ v) (x : BitVec w) :
    (x.signExtend v).setWidth w = x := by
  apply BitVec.eq_of_getLsbD_eq
  intro i hi
  rw [BitVec.getLsbD_setWidth, BitVec.getLsbD_signExtend]
  simp [hi, show i < v by omega]

@[simp] theorem lo32_signExtend (v : U32) : lo32 (v.signExtend 64) = v :=
  setWidth_signExtend (by decide) v

theorem fits_signExtend (v : U32) : Fits (v.signExtend 64) := by
  rw [Fits, lo32_signExtend]

theorem and_mask_lt {k : Nat} (v m : BitVec k) {n : Nat} (hm : m.toNat < n) :
    (v &&& m).toNat < n := by
  rw [BitVec.toNat_and]
  exact Nat.lt_of_le_of_lt Nat.and_le_right hm

theorem bImm_even (inst : U32) : IsEven (bImm inst) := by
  rw [isEven_iff_bit]
  simp [bImm, BitVec.getElem_signExtend, BitVec.getElem_sshiftRight]

theorem jImm_even (inst : U32) : IsEven (jImm inst) := by
  rw [isEven_iff_bit]
  simp [jImm, BitVec.getElem_signExtend, BitVec.getElem_sshiftRight]

variable {inst funct3 w : U32} {rd rs1 rs2 : Reg} {i : Instruction}

theorem decodeOpImm_inRange : (decodeOpImm inst funct3 rd rs1).InRange := by
  unfold decodeOpImm
  split
  case h_7 =>
    split
    · exact and_mask_lt _ _ (by decide)
    · exact and_mask_lt _ _ (by decide)
  case h_6 => exact and_mask_lt _ _ (by decide)
  all_goals exact fits_signExtend _

theorem decodeOpImm32_inRange (h : decodeOpImm32 inst funct3 rd rs1 = some i) : i.InRange := by
  unfold decodeOpImm32 at h
  split at h
  case h_1 =>
    cases h
    exact fits_signExtend _
  case h_2 =>
    cases h
    exact and_mask_lt _ _ (by decide)
  case h_3 =>
    split at h
    · cases h
      exact and_mask_lt _ _ (by decide)
    · cases h
      exact and_mask_lt _ _ (by decide)
  case h_4 => cases h

theorem decodeAmo_inRange (h : decodeAmo inst funct3 rd rs1 rs2 = some i) : i.InRange := by
  unfold decodeAmo at h
  generalize (if funct3 &&& 0x1 = 1 then AmoWidth.d else AmoWidth.w) = width at h
  dsimp only at h
  split at h
  case h_12 => cases h
  all_goals
    cases h
    exact trivial

theorem decodePriv_inRange {csr : CsrAddr} (h : decodePriv csr rd rs1 = some i) : i.InRange := by
  unfold decodePriv at h
  split at h <;> grind [Instruction.InRange]

theorem decodeSystem_inRange (h : decodeSystem inst funct3 rd rs1 = some i) : i.InRange := by
  unfold decodeSystem at h
  split at h
  case h_1 => exact decodePriv_inRange h
  case h_8 => cases h
  all_goals
    cases h
    exact trivial

theorem decode?_inRange (h : decode? inst = some i) : i.InRange := by
  rw [decode?] at h
  split at h
  case h_1 | h_2 =>
    obtain ⟨_, -, rfl⟩ := Option.map_eq_some_iff.mp h
    exact trivial
  case h_3 =>
    cases h
    exact decodeOpImm_inRange
  case h_4 => exact decodeOpImm32_inRange h
  case h_5 | h_13 =>
    obtain ⟨_, -, rfl⟩ := Option.map_eq_some_iff.mp h
    exact fits_signExtend _
  case h_6 | h_7 =>
    split at h
    · cases h
      exact trivial
    · cases h
      exact trivial
    · cases h
  case h_14 =>
    obtain ⟨_, -, rfl⟩ := Option.map_eq_some_iff.mp h
    exact bImm_even inst
  case h_15 =>
    cases h
    exact jImm_even inst
  case h_16 =>
    cases h
    exact fits_signExtend _
  case h_19 => exact decodeAmo_inRange h
  case h_21 => exact decodeSystem_inRange h
  case h_22 => cases h
  all_goals
    cases h
    exact trivial

theorem decode_eq_ok {i : Instruction} : decode inst = .ok i ↔ decode? inst = some i := by
  rw [decode]
  cases decode? inst with
  | none => simp
  | some j => simp

theorem decodeRvc_eq_ok {raw : U16} :
    decodeRvc raw = .ok i ↔ decodeRvc? (raw.setWidth 32) = some i := by
  rw [decodeRvc]
  cases decodeRvc? (raw.setWidth 32) with
  | none => simp
  | some j => simp

theorem decode_inRange (h : decode inst = .ok i) : i.InRange :=
  decode?_inRange (decode_eq_ok.mp h)

end RiscvEmu

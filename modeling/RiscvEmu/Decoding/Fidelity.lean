import RiscvEmu.Decoding.Encoding
import Mathlib.Tactic.IntervalCases

/-!
# Fidelity of the decoder

The decoder takes fields out of a word by shifts and masks (`shift_and_mask`), and immediates by
moving the pieces to their places and back with a sign (`shiftPair_eq`).  On a laid-out word the
fields are those of the layout, so `decode?_encode` is one step per instruction.  In the other
direction every decoded word is the encoding of an instruction, or it is loose: a fixed field of
its format has a value that the decoder does not check (`decode?_sound`).
-/

namespace RiscvEmu

open Isa

variable (w : U32)

/-! ## Fields of the decoder -/

theorem decodeOpcode_eq : w &&& 0x7f = (opcode w).setWidth 32 := by
  have h := shift_and_mask w 0 7 0x7f rfl
  rwa [BitVec.ushiftRight_zero] at h

theorem decodeFunct3_eq (lo : Nat) : (w >>> lo) &&& 0x7 = (w.extractLsb' lo 3).setWidth 32 :=
  shift_and_mask w lo 3 0x7 rfl

theorem reg_eq (lo : Nat) : reg w lo = (w.extractLsb' lo 5).toFin := by
  rw [reg, shift_and_mask w lo 5 0x1f rfl]
  rw [BitVec.toNat_setWidth_of_le (by decide)]
  exact Fin.ofNat_val_eq_self _

/-! ## Immediates of the decoder -/

/-- A pair of shifts extends the sign of the low bits of a 32-bit word. -/
theorem shiftPair_eq (raw : U32) {n s : Nat} (hs : n + s = 32) (hn : 0 < n) :
    ((raw <<< s).sshiftRight s).signExtend 64 = (raw.setWidth n).signExtend 64 := by
  have hmsb : (raw <<< s).msb = raw.getLsbD (n - 1) := by
    rw [BitVec.msb_eq_getLsbD_last, BitVec.getLsbD_shiftLeft]
    simp only [show 32 - 1 < 32 by decide, show ¬ 32 - 1 < s by omega, decide_true, decide_false,
      Bool.not_false, Bool.true_and, Bool.and_true]
    exact congrArg raw.getLsbD (by omega)
  have hmsb' : (raw.setWidth n).msb = raw.getLsbD (n - 1) := by
    rw [BitVec.msb_eq_getLsbD_last, BitVec.getLsbD_setWidth]
    simp [show n - 1 < n by omega]
  apply BitVec.eq_of_getLsbD_eq
  intro i hi
  rw [BitVec.getLsbD_signExtend, BitVec.getLsbD_signExtend, BitVec.msb_sshiftRight, hmsb, hmsb',
    BitVec.getLsbD_sshiftRight, hmsb, BitVec.getLsbD_setWidth, BitVec.getLsbD_shiftLeft]
  rcases Nat.lt_or_ge i n with hin | hin
  · simp [hi, hin, show i < 32 by omega, show s + i < 32 by omega]
  · rcases Nat.lt_or_ge i 32 with hi' | hi'
    · simp [hi, hi', show ¬ i < n by omega, show ¬ s + i < 32 by omega]
    · simp [hi, show ¬ i < 32 by omega, show ¬ i < n by omega]

theorem iImm_eq : iImm w = (w.extractLsb' 20 12).signExtend 64 := by
  apply BitVec.eq_of_getLsbD_eq
  intro i hi
  rw [iImm, BitVec.getLsbD_signExtend, BitVec.getLsbD_signExtend, BitVec.msb_sshiftRight,
    BitVec.getLsbD_sshiftRight, BitVec.msb_eq_getLsbD_last, BitVec.msb_eq_getLsbD_last,
    BitVec.getLsbD_extractLsb', BitVec.getLsbD_extractLsb']
  rcases Nat.lt_or_ge i 12 with hin | hin
  · simp [hi, hin, show i < 32 by omega, show 20 + i < 32 by omega]
  · rcases Nat.lt_or_ge i 32 with hi' | hi'
    · simp [hi, hi', show ¬ i < 12 by omega, show ¬ 20 + i < 32 by omega]
    · simp [hi, show ¬ i < 32 by omega, show ¬ i < 12 by omega]

theorem sImm_eq : sImm w = (funct7 w ++ rd w).signExtend 64 := by
  refine (shiftPair_eq _ (n := 12) rfl (by decide)).trans (congrArg _ ?_)
  apply BitVec.eq_of_getLsbD_eq
  intro i hi
  rw [BitVec.getLsbD_append]
  interval_cases i <;> simp [funct7, rd]

/-- The offset of a word in the `B` format. -/
def half12 : BitVec 12 :=
  ((w.extractLsb' 31 1 ++ w.extractLsb' 7 1) ++ w.extractLsb' 25 6) ++ w.extractLsb' 8 4

/-- The offset of a word in the `J` format. -/
def half20 : BitVec 20 :=
  ((w.extractLsb' 31 1 ++ w.extractLsb' 12 8) ++ w.extractLsb' 20 1) ++ w.extractLsb' 21 10

theorem bImm_eq : bImm w = (half12 w ++ 0#1).signExtend 64 := by
  refine (shiftPair_eq _ (n := 13) rfl (by decide)).trans (congrArg _ ?_)
  apply BitVec.eq_of_getLsbD_eq
  intro i hi
  rw [half12, BitVec.getLsbD_append, BitVec.getLsbD_append, BitVec.getLsbD_append,
    BitVec.getLsbD_append]
  interval_cases i <;> simp

theorem jImm_eq : jImm w = (half20 w ++ 0#1).signExtend 64 := by
  refine (shiftPair_eq _ (n := 21) rfl (by decide)).trans (congrArg _ ?_)
  apply BitVec.eq_of_getLsbD_eq
  intro i hi
  rw [half20, BitVec.getLsbD_append, BitVec.getLsbD_append, BitVec.getLsbD_append,
    BitVec.getLsbD_append]
  interval_cases i <;> simp

theorem uImm_eq : uImm w = (w.extractLsb' 12 20 ++ 0#12).signExtend 64 := by
  rw [uImm]
  refine congrArg (BitVec.signExtend 64) ?_
  apply BitVec.eq_of_getLsbD_eq
  intro i hi
  rw [BitVec.getLsbD_append]
  interval_cases i <;> simp

/-! ## The decoder on the formats -/

section

variable (f7 : BitVec 7) (r2 r1 : BitVec 5) (f3 : BitVec 3) (r : BitVec 5) (op : BitVec 7)

theorem opcode_of_layout : layout f7 r2 r1 f3 r op &&& 0x7f = op.setWidth 32 := by
  rw [decodeOpcode_eq, opcode_layout]

theorem funct3_of_layout : (layout f7 r2 r1 f3 r op >>> 12) &&& 0x7 = f3.setWidth 32 := by
  rw [decodeFunct3_eq, ← funct3, funct3_layout]

theorem funct7_of_layout : (layout f7 r2 r1 f3 r op >>> 25) &&& 0x7f = f7.setWidth 32 := by
  rw [shift_and_mask _ 25 7 0x7f rfl, ← funct7, funct7_layout]

theorem rd_of_layout : reg (layout f7 r2 r1 f3 r op) 7 = r.toFin := by
  rw [reg_eq, ← rd, rd_layout]

theorem rs1_of_layout : reg (layout f7 r2 r1 f3 r op) 15 = r1.toFin := by
  rw [reg_eq, ← rs1, rs1_layout]

theorem rs2_of_layout : reg (layout f7 r2 r1 f3 r op) 20 = r2.toFin := by
  rw [reg_eq, ← rs2, rs2_layout]

end

/-- Fields are at most eight bits wide. -/
theorem setWidth_narrow {k : Nat} (v : BitVec k) : (v.setWidth 32).setWidth 8 = v.setWidth 8 :=
  BitVec.setWidth_setWidth_of_le v (by decide)

@[simp] theorem bits_toFin (r : Reg) : (bits r).toFin = r := rfl

/-- The upper twelve bits of a word. -/
theorem upper_eq : w.extractLsb' 20 12 = funct7 w ++ rs2 w := (halves w 20 7 5).symm

/-- The pieces of a twelve-bit immediate. -/
@[simp] theorem pieces (imm : BitVec 12) : imm.extractLsb' 5 7 ++ imm.extractLsb' 0 5 = imm :=
  (halves imm 0 7 5).trans BitVec.extractLsb'_eq_self

section

variable (f7 : BitVec 7) (r2 r1 : BitVec 5) (f3 : BitVec 3) (r : BitVec 5) (op : BitVec 7)

theorem upper_of_layout : (layout f7 r2 r1 f3 r op).extractLsb' 20 12 = f7 ++ r2 := by
  rw [upper_eq, funct7_layout, rs2_layout]

theorem iImm_of_layout : iImm (layout f7 r2 r1 f3 r op) = (f7 ++ r2).signExtend 64 := by
  rw [iImm_eq, upper_of_layout]

theorem sImm_of_layout : sImm (layout f7 r2 r1 f3 r op) = (f7 ++ r).signExtend 64 := by
  rw [sImm_eq, funct7_layout, rd_layout]

theorem csr_of_layout :
    (((layout f7 r2 r1 f3 r op >>> 20) &&& 0xfff).setWidth 12 : CsrAddr) = f7 ++ r2 := by
  rw [shift_and_mask _ 20 12 0xfff rfl, upper_of_layout]
  exact (BitVec.setWidth_setWidth_of_le _ (by decide)).trans (BitVec.setWidth_eq _)

/-- A field within the upper twelve bits. -/
theorem field_of_layout (lo n : Nat) (h : lo + n ≤ 12) :
    (layout f7 r2 r1 f3 r op).extractLsb' (20 + lo) n = (f7 ++ r2).extractLsb' lo n := by
  rw [← extractLsb'_field _ 20 12 lo n h, upper_of_layout]

end

section

variable (f7 : BitVec 7) (r2 r1 : BitVec 5) (f3 : BitVec 3) (r : BitVec 5) (op : BitVec 7)

/-- A field within `funct7`. -/
theorem highField_of_layout (lo n : Nat) (h : lo + n ≤ 7) :
    (layout f7 r2 r1 f3 r op).extractLsb' (25 + lo) n = f7.extractLsb' lo n := by
  rw [← extractLsb'_field _ 25 7 lo n h, ← funct7, funct7_layout]

theorem funct5_of_layout :
    (layout f7 r2 r1 f3 r op >>> 27) &&& 0x1f = (f7.extractLsb' 2 5).setWidth 32 := by
  rw [shift_and_mask _ 27 5 0x1f rfl, highField_of_layout _ _ _ _ _ _ 2 5 (by decide)]

theorem fmt_of_layout :
    (layout f7 r2 r1 f3 r op >>> 25) &&& 0x3 = (f7.extractLsb' 0 2).setWidth 32 := by
  rw [shift_and_mask _ 25 2 0x3 rfl, highField_of_layout _ _ _ _ _ _ 0 2 (by decide)]

theorem rs3_of_layout : reg (layout f7 r2 r1 f3 r op) 27 = (f7.extractLsb' 2 5).toFin := by
  rw [reg_eq, highField_of_layout _ _ _ _ _ _ 2 5 (by decide)]

end

theorem decodePriv_sfence (v : BitVec 5) (rs1 : Reg) :
    decodePriv (0x09#7 ++ v) 0 rs1 = some .sfenceVma := by
  have hshift : (0x09#7 ++ v) >>> 5 = 0x09#12 := by
    revert v
    decide
  have hne : ∀ n : CsrAddr, n >>> 5 ≠ 0x09#12 → (0x09#7 ++ v : CsrAddr) ≠ n := by
    intro n hn he
    exact hn (he ▸ hshift)
  rw [decodePriv, if_neg (fun h => hne _ (by decide) h.1), if_neg (fun h => hne _ (by decide) h.1),
    if_neg (fun h => hne _ (by decide) h.1), if_neg (fun h => hne _ (by decide) h.1),
    if_neg (fun h => hne _ (by decide) h.1), if_pos ⟨rfl, hshift⟩]

theorem bImm_bFormat (half : BitVec 12) (rs2 rs1 : Reg) (f3 : BitVec 3) (op : BitVec 7) :
    bImm (bFormat half rs2 rs1 f3 op) = (half ++ 0#1).signExtend 64 := by
  have hhigh : ∀ (w : U32) (lo n : Nat), lo + n ≤ 7 →
      w.extractLsb' (25 + lo) n = (funct7 w).extractLsb' lo n :=
    fun w lo n h => (extractLsb'_field w 25 7 lo n h).symm
  have hlow : ∀ (w : U32) (lo n : Nat), lo + n ≤ 5 →
      w.extractLsb' (7 + lo) n = (rd w).extractLsb' lo n :=
    fun w lo n h => (extractLsb'_field w 7 5 lo n h).symm
  rw [bImm_eq, half12, hhigh _ 6 1 (by decide), hlow _ 0 1 (by decide), hhigh _ 0 6 (by decide),
    hlow _ 1 4 (by decide), bFormat, funct7_layout, rd_layout,
    BitVec.extractLsb'_append_eq_left, BitVec.extractLsb'_append_eq_right,
    BitVec.extractLsb'_append_eq_left, BitVec.extractLsb'_append_eq_right]
  have h1 := halves half 10 1 1
  have h2 := halves half 4 2 6
  have h3 := halves half 0 8 4
  refine congrArg (BitVec.signExtend 64) (congrArg (· ++ 0#1) ?_)
  rw [h1, h2, h3]
  exact BitVec.extractLsb'_eq_self

theorem upper_uFormat (imm : BitVec 20) (rd : Reg) (op : BitVec 7) :
    (uFormat imm rd op).extractLsb' 12 20 = imm := by
  have hw : ∀ w : U32, w.extractLsb' 12 20 = ((funct7 w ++ rs2 w) ++ rs1 w) ++ funct3 w := by
    intro w
    have h1 := halves w 20 7 5
    have h2 := halves w 15 12 5
    have h3 := halves w 12 17 3
    rw [funct7, rs2, rs1, funct3, h1, h2, h3]
  rw [hw, uFormat, funct7_layout, rs2_layout, rs1_layout, funct3_layout]
  have h1 := halves imm 8 7 5
  have h2 := halves imm 3 12 5
  have h3 := halves imm 0 17 3
  rw [h1, h2, h3]
  exact BitVec.extractLsb'_eq_self

theorem uImm_uFormat (imm : BitVec 20) (rd : Reg) (op : BitVec 7) :
    uImm (uFormat imm rd op) = (imm ++ 0#12).signExtend 64 := by
  rw [uImm_eq, upper_uFormat]

theorem jImm_jFormat (half : BitVec 20) (rd : Reg) (op : BitVec 7) :
    jImm (jFormat half rd op) = (half ++ 0#1).signExtend 64 := by
  have hupper : ∀ (w : U32) (lo n : Nat), lo + n ≤ 20 →
      w.extractLsb' (12 + lo) n = (w.extractLsb' 12 20).extractLsb' lo n :=
    fun w lo n h => (extractLsb'_field w 12 20 lo n h).symm
  rw [jImm_eq, half20, hupper _ 19 1 (by decide), hupper _ 0 8 (by decide),
    hupper _ 8 1 (by decide), hupper _ 9 10 (by decide), jFormat, upper_uFormat]
  have h1 := halves half 11 1 8
  have h2 := halves half 10 9 1
  have h3 := halves half 0 10 10
  refine congrArg (BitVec.signExtend 64) (congrArg (· ++ 0#1) ?_)
  generalize hx : half.extractLsb' 19 1 ++ half.extractLsb' 0 10 ++ half.extractLsb' 10 1
    ++ half.extractLsb' 11 8 = x
  have hsign : x.extractLsb' 19 1 = half.extractLsb' 19 1 := by
    rw [← hx, BitVec.extractLsb'_append_eq_of_le (by decide),
      BitVec.extractLsb'_append_eq_of_le (by decide)]
    exact BitVec.extractLsb'_append_eq_left
  have hhigh : x.extractLsb' 0 8 = half.extractLsb' 11 8 := by
    rw [← hx]
    exact BitVec.extractLsb'_append_eq_right
  have hmid : x.extractLsb' 8 1 = half.extractLsb' 10 1 := by
    rw [← hx, BitVec.extractLsb'_append_eq_of_le (by decide)]
    exact BitVec.extractLsb'_append_eq_right
  have hlow : x.extractLsb' 9 10 = half.extractLsb' 0 10 := by
    rw [← hx, BitVec.extractLsb'_append_eq_of_le (by decide),
      BitVec.extractLsb'_append_eq_of_le (by decide)]
    exact BitVec.extractLsb'_append_eq_right
  rw [hsign, hhigh, hmid, hlow, h1, h2, h3]
  exact BitVec.extractLsb'_eq_self

/-- The amount of a 64-bit shift. -/
theorem shamt_of_iFormat (top : BitVec 6) (n : Fin 64) (rs1 : Reg) (f3 : BitVec 3) (rd : Reg)
    (op : BitVec 7) :
    (iFormat (top ++ BitVec.ofNat 6 n.val) rs1 f3 rd op >>> 20) &&& 0x3f
      = BitVec.ofNat 32 n.val := by
  have hn : BitVec.setWidth 32 (BitVec.ofNat 6 n.val) = BitVec.ofNat 32 n.val :=
    BitVec.setWidth_ofNat_of_le_of_lt (by decide) n.isLt
  rw [shift_and_mask _ 20 6 0x3f rfl, iFormat, field_of_layout _ _ _ _ _ _ 0 6 (by decide), pieces,
    BitVec.extractLsb'_append_eq_right, hn]

/-- The amount of a 32-bit shift. -/
theorem shamtw_of_iFormat (top : BitVec 7) (n : Fin 32) (rs1 : Reg) (f3 : BitVec 3) (rd : Reg)
    (op : BitVec 7) :
    (iFormat (top ++ BitVec.ofNat 5 n.val) rs1 f3 rd op >>> 20) &&& 0x1f
      = BitVec.ofNat 32 n.val := by
  have hn : BitVec.setWidth 32 (BitVec.ofNat 5 n.val) = BitVec.ofNat 32 n.val :=
    BitVec.setWidth_ofNat_of_le_of_lt (by decide) n.isLt
  rw [shift_and_mask _ 20 5 0x1f rfl, iFormat, field_of_layout _ _ _ _ _ _ 0 5 (by decide), pieces,
    BitVec.extractLsb'_append_eq_right, hn]

/-- The bit that tells an arithmetic right shift from a logical one. -/
theorem arithBit_of_iFormat (imm : BitVec 12) (rs1 : Reg) (f3 : BitVec 3) (rd : Reg)
    (op : BitVec 7) :
    (iFormat imm rs1 f3 rd op >>> 30) &&& 1 = (imm.extractLsb' 10 1).setWidth 32 := by
  rw [shift_and_mask _ 30 1 1 rfl, iFormat, field_of_layout _ _ _ _ _ _ 10 1 (by decide), pieces]

theorem decode?_encodeShift (rd rs1 : Reg) (sh : ShiftOp) (n : Fin sh.width) :
    decode? (encodeShift rd rs1 sh n) = some (.shift sh rd rs1 (BitVec.ofNat 32 n.val)) := by
  have hbit : ∀ (top : BitVec 6) (v : BitVec 6),
      (top ++ v).extractLsb' 10 1 = top.extractLsb' 4 1 := by
    intro top v
    exact BitVec.extractLsb'_append_eq_of_le (by decide)
  have hbitw : ∀ (top : BitVec 7) (v : BitVec 5),
      (top ++ v).extractLsb' 10 1 = top.extractLsb' 5 1 := by
    intro top v
    exact BitVec.extractLsb'_append_eq_of_le (by decide)
  unfold decode?
  cases sh with
  | slli =>
      have hshamt := shamt_of_iFormat 0x00#6 n rs1 1 rd 0x13
      simp only [encodeShift, iFormat, opcode_of_layout, funct3_of_layout, rd_of_layout,
        rs1_of_layout, bits_toFin, decodeOpImm] at hshamt ⊢
      exact congrArg (fun v => some (Instruction.shift .slli rd rs1 v)) hshamt
  | srli =>
      have hshamt := shamt_of_iFormat 0x00#6 n rs1 5 rd 0x13
      have harith := arithBit_of_iFormat (0x00#6 ++ BitVec.ofNat 6 n.val) rs1 5 rd 0x13
      simp only [encodeShift, iFormat, opcode_of_layout, funct3_of_layout, rd_of_layout,
        rs1_of_layout, bits_toFin, decodeOpImm] at hshamt harith ⊢
      rw [harith, hshamt, hbit]
      rfl
  | srai =>
      have hshamt := shamt_of_iFormat 0x10#6 n rs1 5 rd 0x13
      have harith := arithBit_of_iFormat (0x10#6 ++ BitVec.ofNat 6 n.val) rs1 5 rd 0x13
      simp only [encodeShift, iFormat, opcode_of_layout, funct3_of_layout, rd_of_layout,
        rs1_of_layout, bits_toFin, decodeOpImm] at hshamt harith ⊢
      rw [harith, hshamt, hbit]
      rfl
  | slliw =>
      have hshamt := shamtw_of_iFormat 0x00#7 n rs1 1 rd 0x1B
      simp only [encodeShift, iFormat, opcode_of_layout, funct3_of_layout, rd_of_layout,
        rs1_of_layout, bits_toFin, decodeOpImm32] at hshamt ⊢
      exact congrArg (fun v => some (Instruction.shift .slliw rd rs1 v)) hshamt
  | srliw =>
      have hshamt := shamtw_of_iFormat 0x00#7 n rs1 5 rd 0x1B
      have harith := arithBit_of_iFormat (0x00#7 ++ BitVec.ofNat 5 n.val) rs1 5 rd 0x1B
      simp only [encodeShift, iFormat, opcode_of_layout, funct3_of_layout, rd_of_layout,
        rs1_of_layout, bits_toFin, decodeOpImm32] at hshamt harith ⊢
      rw [harith, hshamt, hbitw]
      rfl
  | sraiw =>
      have hshamt := shamtw_of_iFormat 0x20#7 n rs1 5 rd 0x1B
      have harith := arithBit_of_iFormat (0x20#7 ++ BitVec.ofNat 5 n.val) rs1 5 rd 0x1B
      simp only [encodeShift, iFormat, opcode_of_layout, funct3_of_layout, rd_of_layout,
        rs1_of_layout, bits_toFin, decodeOpImm32] at hshamt harith ⊢
      rw [harith, hshamt, hbitw]
      rfl

/-- The decoder recovers every instruction from its encoding. -/
theorem decode?_encode (i : Inst) : decode? (encode i) = some i.decoded := by
  unfold decode?
  cases i with
  | op o rd rs1 rs2 =>
      simp only [encode, rFormat, opcode_of_layout, funct3_of_layout, funct7_of_layout,
        rd_of_layout, rs1_of_layout, rs2_of_layout, bits_toFin]
      cases o <;> rfl
  | opImm o rd rs1 imm =>
      simp only [encode, iFormat, opcode_of_layout, funct3_of_layout, funct7_of_layout,
        rd_of_layout, rs1_of_layout, rs2_of_layout, bits_toFin,
        iImm_of_layout, pieces, decodeOpImm, decodeOpImm32]
      cases o <;> rfl
  | shift sh rd rs1 shamt => exact decode?_encodeShift rd rs1 sh shamt
  | load l rd rs1 imm =>
      simp only [encode, iFormat, opcode_of_layout, funct3_of_layout, funct7_of_layout,
        rd_of_layout, rs1_of_layout, rs2_of_layout, bits_toFin,
        iImm_of_layout, pieces]
      cases l <;> rfl
  | store st rs1 rs2 imm =>
      simp only [encode, sFormat, opcode_of_layout, funct3_of_layout, funct7_of_layout,
        rd_of_layout, rs1_of_layout, rs2_of_layout, bits_toFin,
        sImm_of_layout, pieces]
      cases st <;> rfl
  | branch br rs1 rs2 half =>
      rw [encode, bImm_bFormat]
      simp only [bFormat, opcode_of_layout, funct3_of_layout, funct7_of_layout,
        rd_of_layout, rs1_of_layout, rs2_of_layout, bits_toFin]
      cases br <;> rfl
  | jal rd half =>
      rw [encode, jImm_jFormat]
      simp only [jFormat, uFormat, opcode_of_layout, funct3_of_layout, funct7_of_layout,
        rd_of_layout, rs1_of_layout, rs2_of_layout, bits_toFin]
      rfl
  | jalr rd rs1 imm =>
      simp only [encode, iFormat, opcode_of_layout, funct3_of_layout, funct7_of_layout,
        rd_of_layout, rs1_of_layout, rs2_of_layout, bits_toFin,
        iImm_of_layout, pieces]
      rfl
  | lui rd imm =>
      rw [encode, uImm_uFormat]
      simp only [uFormat, opcode_of_layout, funct3_of_layout, funct7_of_layout,
        rd_of_layout, rs1_of_layout, rs2_of_layout, bits_toFin]
      rfl
  | auipc rd imm =>
      rw [encode, uImm_uFormat]
      simp only [uFormat, opcode_of_layout, funct3_of_layout, funct7_of_layout,
        rd_of_layout, rs1_of_layout, rs2_of_layout, bits_toFin]
      rfl
  | fence sets rd rs1 =>
      simp only [encode, iFormat, opcode_of_layout, funct3_of_layout, funct7_of_layout,
        rd_of_layout, rs1_of_layout, rs2_of_layout, bits_toFin]
      rfl
  | fenceI imm rd rs1 =>
      simp only [encode, iFormat, opcode_of_layout, funct3_of_layout, funct7_of_layout,
        rd_of_layout, rs1_of_layout, rs2_of_layout, bits_toFin]
      rfl
  | ecall => rfl
  | ebreak => rfl
  | mret => rfl
  | sret => rfl
  | wfi => rfl
  | sfenceVma rs1 rs2 =>
      simp only [encode, rFormat, opcode_of_layout, funct3_of_layout, funct7_of_layout,
        rd_of_layout, rs1_of_layout, rs2_of_layout, bits_toFin, decodeSystem, csr_of_layout]
      exact decodePriv_sfence (bits rs2) rs1
  | csr o rd rs1 n =>
      simp only [encode, iFormat, opcode_of_layout, funct3_of_layout, funct7_of_layout,
        rd_of_layout, rs1_of_layout, rs2_of_layout, bits_toFin,
        decodeSystem, csr_of_layout, pieces]
      cases o <;> rfl
  | csrImm o rd uimm n =>
      have huimm : BitVec.ofNat 32 uimm.toNat = uimm.setWidth 32 := BitVec.ofNat_toNat 32 uimm
      simp only [encode, iFormat, opcode_of_layout, funct3_of_layout, funct7_of_layout,
        rd_of_layout, rs1_of_layout, rs2_of_layout, bits_toFin,
        decodeSystem, csr_of_layout, pieces]
      cases o <;> exact congrArg (fun v => some (Instruction.csr _ rd (.imm v) n)) huimm
  | lr width aqrl rd rs1 =>
      simp only [encode, rFormat, opcode_of_layout, funct3_of_layout, funct7_of_layout,
        rd_of_layout, rs1_of_layout, rs2_of_layout, bits_toFin, decodeAmo, funct5_of_layout,
        BitVec.extractLsb'_append_eq_left]
      cases width <;> rfl
  | sc width aqrl rd rs1 rs2 =>
      simp only [encode, rFormat, opcode_of_layout, funct3_of_layout, funct7_of_layout,
        rd_of_layout, rs1_of_layout, rs2_of_layout, bits_toFin, decodeAmo, funct5_of_layout,
        BitVec.extractLsb'_append_eq_left]
      cases width <;> rfl
  | amo o width aqrl rd rs1 rs2 =>
      simp only [encode, rFormat, opcode_of_layout, funct3_of_layout, funct7_of_layout,
        rd_of_layout, rs1_of_layout, rs2_of_layout, bits_toFin, decodeAmo, funct5_of_layout,
        BitVec.extractLsb'_append_eq_left]
      cases width <;> cases o <;> rfl
  | flw fd rs1 imm =>
      simp only [encode, iFormat, opcode_of_layout, funct3_of_layout, funct7_of_layout,
        rd_of_layout, rs1_of_layout, rs2_of_layout, bits_toFin,
        iImm_of_layout, pieces]
      rfl
  | fld fd rs1 imm =>
      simp only [encode, iFormat, opcode_of_layout, funct3_of_layout, funct7_of_layout,
        rd_of_layout, rs1_of_layout, rs2_of_layout, bits_toFin,
        iImm_of_layout, pieces]
      rfl
  | fsw rs1 fs2 imm =>
      simp only [encode, sFormat, opcode_of_layout, funct3_of_layout, funct7_of_layout,
        rd_of_layout, rs1_of_layout, rs2_of_layout, bits_toFin,
        sImm_of_layout, pieces]
      rfl
  | fsd rs1 fs2 imm =>
      simp only [encode, sFormat, opcode_of_layout, funct3_of_layout, funct7_of_layout,
        rd_of_layout, rs1_of_layout, rs2_of_layout, bits_toFin,
        sImm_of_layout, pieces]
      rfl
  | opFp f7 rs2 rs1 rm rd =>
      simp only [encode, rFormat, opcode_of_layout, funct3_of_layout, funct7_of_layout,
        rd_of_layout, rs1_of_layout, rs2_of_layout, bits_toFin, setWidth_narrow]
      rfl
  | fma o fmt rs3 rs2 rs1 rm rd =>
      simp only [encode, rFormat, opcode_of_layout, funct3_of_layout, funct7_of_layout,
        rd_of_layout, rs1_of_layout, rs2_of_layout, bits_toFin, rs3_of_layout, fmt_of_layout,
        BitVec.extractLsb'_append_eq_left, BitVec.extractLsb'_append_eq_right, setWidth_narrow]
      cases o <;> rfl

/-! ## Every decoded word -/

/-- A field is known from its value in a wider word. -/
theorem field_of_wide {n m : Nat} {v : BitVec n} {c : BitVec m} (hn : n ≤ m)
    (h : v.setWidth m = c) : v = c.setWidth n := by
  rw [← h, BitVec.setWidth_setWidth_of_le v hn, BitVec.setWidth_eq]

theorem bits_field (v : BitVec 5) : bits v.toFin = v := rfl

section

variable {f3 : BitVec 3} {f7 : BitVec 7}

theorem opTable_eq_some {o : ROp} (h : opTable (f3.setWidth 32) (f7.setWidth 32) = some o) :
    ropCode o = (0x33, f3, f7) := by
  unfold opTable at h
  split at h
  case h_19 => cases h
  all_goals
    rename_i h3 h7
    cases h
    rw [field_of_wide (by decide) h3, field_of_wide (by decide) h7]
    rfl

theorem op32Table_eq_some {o : ROp} (h : op32Table (f3.setWidth 32) (f7.setWidth 32) = some o) :
    ropCode o = (0x3B, f3, f7) := by
  unfold op32Table at h
  split at h
  case h_11 => cases h
  all_goals
    rename_i h3 h7
    cases h
    rw [field_of_wide (by decide) h3, field_of_wide (by decide) h7]
    rfl

theorem loadTable_eq_some {o : LoadOp} (h : loadTable (f3.setWidth 32) = some o) :
    loadCode o = f3 := by
  unfold loadTable at h
  split at h
  case h_8 => cases h
  all_goals
    rename_i h3
    cases h
    rw [field_of_wide (by decide) h3]
    rfl

theorem storeTable_eq_some {o : StoreOp} (h : storeTable (f3.setWidth 32) = some o) :
    storeCode o = f3 := by
  unfold storeTable at h
  split at h
  case h_5 => cases h
  all_goals
    rename_i h3
    cases h
    rw [field_of_wide (by decide) h3]
    rfl

theorem branchTable_eq_some {o : BranchOp} (h : branchTable (f3.setWidth 32) = some o) :
    branchCode o = f3 := by
  unfold branchTable at h
  split at h
  case h_7 => cases h
  all_goals
    rename_i h3
    cases h
    rw [field_of_wide (by decide) h3]
    rfl

end

theorem decodeFunct7_eq : (w >>> 25) &&& 0x7f = (funct7 w).setWidth 32 :=
  shift_and_mask w 25 7 0x7f rfl

/-- A word in the `R` format. -/
theorem rFormat_fields : rFormat (funct7 w) (rs2 w).toFin (rs1 w).toFin (funct3 w) (rd w).toFin
    (opcode w) = w :=
  layout_fields w

/-- A word in the `I` format. -/
theorem iFormat_fields : iFormat (w.extractLsb' 20 12) (rs1 w).toFin (funct3 w) (rd w).toFin
    (opcode w) = w := by
  have h5 : (w.extractLsb' 20 12).extractLsb' 5 7 = funct7 w :=
    extractLsb'_field w 20 12 5 7 (by decide)
  have h0 : (w.extractLsb' 20 12).extractLsb' 0 5 = rs2 w :=
    extractLsb'_field w 20 12 0 5 (by decide)
  rw [iFormat, h5, h0]
  exact layout_fields w

/-- A word in the `S` format. -/
theorem sFormat_fields : sFormat (funct7 w ++ rd w) (rs2 w).toFin (rs1 w).toFin (funct3 w)
    (opcode w) = w := by
  have h5 : (funct7 w ++ rd w).extractLsb' 5 7 = funct7 w := BitVec.extractLsb'_append_eq_left
  have h0 : (funct7 w ++ rd w).extractLsb' 0 5 = rd w := BitVec.extractLsb'_append_eq_right
  rw [sFormat, h5, h0]
  exact layout_fields w

/-- A word in the format of the 64-bit shifts. -/
theorem shiftFormat_fields {top : BitVec 6} (htop : (funct7 w).extractLsb' 1 6 = top) :
    iFormat (top ++ BitVec.ofNat 6 (w.extractLsb' 20 6).toNat) (rs1 w).toFin (funct3 w)
      (rd w).toFin (opcode w) = w := by
  have hfield : (funct7 w).extractLsb' 1 6 = w.extractLsb' 26 6 :=
    extractLsb'_field w 25 7 1 6 (by decide)
  rw [← htop, hfield, BitVec.ofNat_toNat, BitVec.setWidth_eq, halves w 20 6 6]
  exact iFormat_fields w

/-- A word in the format of the 32-bit shifts. -/
theorem shiftwFormat_fields {top : BitVec 7} (htop : funct7 w = top) :
    iFormat (top ++ BitVec.ofNat 5 (w.extractLsb' 20 5).toNat) (rs1 w).toFin (funct3 w)
      (rd w).toFin (opcode w) = w := by
  have hfield : funct7 w = w.extractLsb' 25 7 := rfl
  rw [← htop, hfield, BitVec.ofNat_toNat, BitVec.setWidth_eq, halves w 20 7 5]
  exact iFormat_fields w

theorem decodedShamt {n : Nat} (v : BitVec n) : BitVec.ofNat 32 v.toNat = v.setWidth 32 :=
  BitVec.ofNat_toNat 32 v

variable {inst : Instruction}

theorem decodeOpImm_sound (hop : opcode w = 0x13) :
    ∃ i : Inst, i.decoded
        = decodeOpImm w ((funct3 w).setWidth 32) (rd w).toFin (rs1 w).toFin
      ∧ (encode i = w ∨ Loose w) := by
  have hshamt : (w >>> 20) &&& 0x3f = (w.extractLsb' 20 6).setWidth 32 :=
    shift_and_mask w 20 6 0x3f rfl
  have harith : (w >>> 30) &&& 1 = ((funct7 w).extractLsb' 5 1).setWidth 32 := by
    rw [shift_and_mask w 30 1 1 rfl]
    exact congrArg _ (extractLsb'_field w 25 7 5 1 (by decide)).symm
  have himm : ∀ o : IOp, iopCode o = (opcode w, funct3 w) →
      ∃ i : Inst, i.decoded = .opImm o (rd w).toFin (rs1 w).toFin (iImm w)
        ∧ (encode i = w ∨ Loose w) := by
    intro o hcode
    refine ⟨.opImm o (rd w).toFin (rs1 w).toFin (w.extractLsb' 20 12), ?_, .inl ?_⟩
    · rw [iImm_eq]
      rfl
    · rw [encode, hcode]
      exact iFormat_fields w
  unfold decodeOpImm
  dsimp only
  rw [hshamt, harith]
  split
  case h_1 h3 | h_2 h3 | h_3 h3 | h_4 h3 | h_5 h3 =>
    exact himm _ (by rw [hop, field_of_wide (by decide) h3]; rfl)
  case h_6 h3 =>
    have hf3 : funct3 w = 1 := field_of_wide (by decide) h3
    refine ⟨.shift .slli (rd w).toFin (rs1 w).toFin (w.extractLsb' 20 6).toFin, ?_, ?_⟩
    · exact congrArg (Instruction.shift .slli _ _) (decodedShamt _)
    · rcases eq_or_ne ((funct7 w).extractLsb' 1 6) 0 with htop | htop
      · left
        have hfmt := shiftFormat_fields w htop
        rwa [hop, hf3] at hfmt
      · exact .inr (.slli hop hf3 htop)
  case h_7 h3 =>
    have hf3 : funct3 w = 5 := field_of_wide (by decide) h3
    have hbit : (funct7 w).extractLsb' 5 1 = ((funct7 w).extractLsb' 1 6).extractLsb' 4 1 :=
      (extractLsb'_field (funct7 w) 1 6 4 1 (by decide)).symm
    have hloose : (funct7 w).extractLsb' 1 6 ≠ 0 → (funct7 w).extractLsb' 1 6 ≠ 0x10 → Loose w :=
      fun h h' => .srli hop hf3 h h'
    split
    case isTrue h30 =>
      refine ⟨.shift .srli (rd w).toFin (rs1 w).toFin (w.extractLsb' 20 6).toFin, ?_, ?_⟩
      · exact congrArg (Instruction.shift .srli _ _) (decodedShamt _)
      · rcases eq_or_ne ((funct7 w).extractLsb' 1 6) 0 with htop | htop
        · left
          have hfmt := shiftFormat_fields w htop
          rwa [hop, hf3] at hfmt
        · refine .inr (hloose htop ?_)
          intro htop'
          rw [hbit, htop'] at h30
          exact absurd h30 (by decide)
    case isFalse h30 =>
      refine ⟨.shift .srai (rd w).toFin (rs1 w).toFin (w.extractLsb' 20 6).toFin, ?_, ?_⟩
      · exact congrArg (Instruction.shift .srai _ _) (decodedShamt _)
      · rcases eq_or_ne ((funct7 w).extractLsb' 1 6) 0x10 with htop | htop
        · left
          have hfmt := shiftFormat_fields w htop
          rwa [hop, hf3] at hfmt
        · refine .inr (hloose ?_ htop)
          intro htop'
          rw [hbit, htop'] at h30
          exact absurd h30 (by decide)
  case h_8 h0 h2 h3 h4 h6 h1 h5 =>
    have hseven : ∀ v : BitVec 3,
        v = 7 ∨ v.setWidth 32 ∈ [0#32, 1#32, 2#32, 3#32, 4#32, 5#32, 6#32] := by
      decide
    have hf3 : funct3 w = 7 := by
      rcases hseven (funct3 w) with h7 | hmem
      · exact h7
      · simp only [List.mem_cons, List.not_mem_nil, or_false] at hmem
        rcases hmem with h | h | h | h | h | h | h
        exacts [absurd h h0, absurd h h1, absurd h h2, absurd h h3, absurd h h4, absurd h h5,
          absurd h h6]
    exact himm .andi (by rw [hop, hf3]; rfl)

theorem decodeOpImm32_sound (hop : opcode w = 0x1B)
    (h : decodeOpImm32 w ((funct3 w).setWidth 32) (rd w).toFin (rs1 w).toFin = some inst) :
    ∃ i : Inst, i.decoded = inst ∧ (encode i = w ∨ Loose w) := by
  have hshamt : (w >>> 20) &&& 0x1f = (w.extractLsb' 20 5).setWidth 32 :=
    shift_and_mask w 20 5 0x1f rfl
  have harith : (w >>> 30) &&& 1 = ((funct7 w).extractLsb' 5 1).setWidth 32 := by
    rw [shift_and_mask w 30 1 1 rfl]
    exact congrArg _ (extractLsb'_field w 25 7 5 1 (by decide)).symm
  unfold decodeOpImm32 at h
  dsimp only at h
  rw [hshamt, harith] at h
  split at h
  case h_1 h3 =>
    cases h
    refine ⟨.opImm .addiw (rd w).toFin (rs1 w).toFin (w.extractLsb' 20 12), ?_, .inl ?_⟩
    · rw [iImm_eq]
      rfl
    · have hf3 : funct3 w = 0 := field_of_wide (by decide) h3
      have hfmt := iFormat_fields w
      rwa [hop, hf3] at hfmt
  case h_2 h3 =>
    cases h
    have hf3 : funct3 w = 1 := field_of_wide (by decide) h3
    refine ⟨.shift .slliw (rd w).toFin (rs1 w).toFin (w.extractLsb' 20 5).toFin, ?_, ?_⟩
    · exact congrArg (Instruction.shift .slliw _ _) (decodedShamt _)
    · rcases eq_or_ne (funct7 w) 0 with htop | htop
      · left
        have hfmt := shiftwFormat_fields w htop
        rwa [hop, hf3] at hfmt
      · exact .inr (.slliw hop hf3 htop)
  case h_3 h3 =>
    have hf3 : funct3 w = 5 := field_of_wide (by decide) h3
    have hloose : funct7 w ≠ 0 → funct7 w ≠ 0x20 → Loose w :=
      fun h h' => .srliw hop hf3 h h'
    split at h
    case isTrue h30 =>
      cases h
      refine ⟨.shift .srliw (rd w).toFin (rs1 w).toFin (w.extractLsb' 20 5).toFin, ?_, ?_⟩
      · exact congrArg (Instruction.shift .srliw _ _) (decodedShamt _)
      · rcases eq_or_ne (funct7 w) 0 with htop | htop
        · left
          have hfmt := shiftwFormat_fields w htop
          rwa [hop, hf3] at hfmt
        · refine .inr (hloose htop ?_)
          intro htop'
          rw [htop'] at h30
          exact absurd h30 (by decide)
    case isFalse h30 =>
      cases h
      refine ⟨.shift .sraiw (rd w).toFin (rs1 w).toFin (w.extractLsb' 20 5).toFin, ?_, ?_⟩
      · exact congrArg (Instruction.shift .sraiw _ _) (decodedShamt _)
      · rcases eq_or_ne (funct7 w) 0x20 with htop | htop
        · left
          have hfmt := shiftwFormat_fields w htop
          rwa [hop, hf3] at hfmt
        · refine .inr (hloose ?_ htop)
          intro htop'
          rw [htop'] at h30
          exact absurd h30 (by decide)
  case h_4 => cases h

/-- The width of an atomic, which is one bit of `funct3` to the decoder. -/
def amoWidth (f3 : BitVec 3) : AmoWidth := if f3.setWidth 32 &&& 0x1#32 = 1 then .d else .w

theorem widthCode_amoWidth {f3 : BitVec 3} (h : f3 = 2 ∨ f3 = 3) :
    widthCode (amoWidth f3) = f3 := by
  rcases h with rfl | rfl
  · rfl
  · rfl

theorem decodeAmo_sound (hop : opcode w = 0x2F)
    (h : decodeAmo w ((funct3 w).setWidth 32) (rd w).toFin (rs1 w).toFin (rs2 w).toFin
      = some inst) :
    ∃ i : Inst, i.decoded = inst ∧ (encode i = w ∨ Loose w) := by
  have hf7 : funct5 w ++ (funct7 w).extractLsb' 0 2 = funct7 w :=
    (halves (funct7 w) 0 5 2).trans BitVec.extractLsb'_eq_self
  have hfield : (w >>> 27) &&& 0x1f = (funct5 w).setWidth 32 := by
    rw [shift_and_mask w 27 5 0x1f rfl]
    exact congrArg _ (extractLsb'_field w 25 7 2 5 (by decide)).symm
  -- with a valid width the word has the format of the atomics
  have hfmt : (funct5 w = 0x02 ∨ funct5 w = 0x03 ∨ ∃ o, amoCode o = funct5 w) →
      rFormat (funct5 w ++ (funct7 w).extractLsb' 0 2) (rs2 w).toFin (rs1 w).toFin
        (widthCode (amoWidth (funct3 w))) (rd w).toFin 0x2F = w ∨ Loose w := by
    intro hf5
    rcases Decidable.em (funct3 w = 2 ∨ funct3 w = 3) with hf3 | hf3
    · left
      rw [hf7, widthCode_amoWidth hf3, ← hop]
      exact rFormat_fields w
    · exact .inr (.amoWidth hop hf5 (fun he => hf3 (.inl he)) (fun he => hf3 (.inr he)))
  have hamo : ∀ o : AmoOp, funct5 w = amoCode o →
      ∃ i : Inst, i.decoded
          = .amo o (amoWidth (funct3 w)) (rd w).toFin (rs1 w).toFin (rs2 w).toFin
        ∧ (encode i = w ∨ Loose w) := by
    intro o ho
    refine ⟨.amo o (amoWidth (funct3 w)) ((funct7 w).extractLsb' 0 2) (rd w).toFin (rs1 w).toFin
      (rs2 w).toFin, rfl, ?_⟩
    rw [encode, ← ho]
    exact hfmt (.inr (.inr ⟨o, ho.symm⟩))
  have hwidth : (if (funct3 w).setWidth 32 &&& 0x1 = 1 then AmoWidth.d else AmoWidth.w)
      = amoWidth (funct3 w) := rfl
  unfold decodeAmo at h
  rw [hwidth, hfield] at h
  dsimp only at h
  split at h
  case h_1 h5 =>
    cases h
    have hf5 : funct5 w = 0x02 := field_of_wide (by decide) h5
    refine ⟨.lr (amoWidth (funct3 w)) ((funct7 w).extractLsb' 0 2) (rd w).toFin (rs1 w).toFin,
      rfl, ?_⟩
    rcases eq_or_ne (rs2 w) 0 with hrs2 | hrs2
    · have hw := hfmt (.inl hf5)
      rwa [hf5, hrs2] at hw
    · exact .inr (.lrSource hop hf5 hrs2)
  case h_2 h5 =>
    cases h
    have hf5 : funct5 w = 0x03 := field_of_wide (by decide) h5
    refine ⟨.sc (amoWidth (funct3 w)) ((funct7 w).extractLsb' 0 2) (rd w).toFin (rs1 w).toFin
      (rs2 w).toFin, rfl, ?_⟩
    have hw := hfmt (.inr (.inl hf5))
    rwa [hf5] at hw
  case h_12 => cases h
  all_goals
    rename_i h5
    cases h
    exact hamo _ (field_of_wide (by decide) h5)

theorem decodePriv_sound (hop : opcode w = 0x73) (hf3 : funct3 w = 0)
    (h : decodePriv (w.extractLsb' 20 12) (rd w).toFin (rs1 w).toFin = some inst) :
    ∃ i : Inst, i.decoded = inst ∧ encode i = w := by
  have hfmt := iFormat_fields w
  rw [hop, hf3] at hfmt
  have hplain : ∀ n : CsrAddr,
      w.extractLsb' 20 12 = n ∧ (rs1 w).toFin = 0 ∧ (rd w).toFin = 0 →
      iFormat n 0 0 0 0x73 = w := by
    intro n hn
    rwa [hn.1, hn.2.1, hn.2.2] at hfmt
  unfold decodePriv at h
  split at h
  case isTrue hc =>
    cases h
    exact ⟨.ecall, rfl, hplain _ hc⟩
  split at h
  case isTrue hc =>
    cases h
    exact ⟨.ebreak, rfl, hplain _ hc⟩
  split at h
  case isTrue hc =>
    cases h
    exact ⟨.sret, rfl, hplain _ hc⟩
  split at h
  case isTrue hc =>
    cases h
    exact ⟨.mret, rfl, hplain _ hc⟩
  split at h
  case isTrue hc =>
    cases h
    exact ⟨.wfi, rfl, hplain _ hc⟩
  split at h
  case isTrue hc =>
    cases h
    obtain ⟨hrd, hcsr⟩ := hc
    have hf7 : funct7 w = 0x09 := by
      have hup : (w.extractLsb' 20 12).extractLsb' 5 7 = funct7 w :=
        extractLsb'_field w 20 12 5 7 (by decide)
      have hshift : ∀ v : BitVec 12, v.extractLsb' 5 7 = (v >>> 5).setWidth 7 := by
        intro v
        apply BitVec.eq_of_getLsbD_eq
        intro i hi
        simp [hi]
      rw [← hup, hshift, hcsr]
      rfl
    have hw := rFormat_fields w
    rw [hop, hf3, hf7, hrd] at hw
    exact ⟨.sfenceVma (rs1 w).toFin (rs2 w).toFin, rfl, hw⟩
  case isFalse => cases h

theorem decodeSystem_sound (hop : opcode w = 0x73)
    (h : decodeSystem w ((funct3 w).setWidth 32) (rd w).toFin (rs1 w).toFin = some inst) :
    ∃ i : Inst, i.decoded = inst ∧ encode i = w := by
  have hcsr : (((w >>> 20) &&& 0xfff).setWidth 12 : CsrAddr) = w.extractLsb' 20 12 := by
    rw [shift_and_mask w 20 12 0xfff rfl]
    exact (BitVec.setWidth_setWidth_of_le _ (by decide)).trans (BitVec.setWidth_eq _)
  have huimm : BitVec.ofNat 32 (rs1 w).toNat = (rs1 w).setWidth 32 := decodedShamt _
  have hreg : ∀ o : CsrOp, csrCode o = funct3 w →
      ∃ i : Inst, i.decoded = .csr o (rd w).toFin (.reg (rs1 w).toFin) (w.extractLsb' 20 12)
        ∧ encode i = w := by
    intro o ho
    refine ⟨.csr o (rd w).toFin (rs1 w).toFin (w.extractLsb' 20 12), rfl, ?_⟩
    rw [encode, ho, ← hop]
    exact iFormat_fields w
  have himm : ∀ o : CsrOp, csrCode o ||| 4 = funct3 w →
      ∃ i : Inst, i.decoded
          = .csr o (rd w).toFin (.imm ((rs1 w).setWidth 32)) (w.extractLsb' 20 12)
        ∧ encode i = w := by
    intro o ho
    refine ⟨.csrImm o (rd w).toFin (rs1 w) (w.extractLsb' 20 12), rfl, ?_⟩
    rw [encode, ho, ← hop]
    exact iFormat_fields w
  unfold decodeSystem at h
  dsimp only [BitVec.val_toFin] at h
  rw [hcsr, huimm] at h
  split at h
  case h_1 h3 => exact decodePriv_sound w hop (field_of_wide (by decide) h3) h
  case h_2 h3 | h_3 h3 | h_4 h3 =>
    cases h
    exact hreg _ (field_of_wide (by decide) h3).symm
  case h_5 h3 | h_6 h3 | h_7 h3 =>
    cases h
    exact himm _ (field_of_wide (by decide) h3).symm
  case h_8 => cases h

/-- A word in the `B` format. -/
theorem bFormat_fields :
    bFormat (half12 w) (rs2 w).toFin (rs1 w).toFin (funct3 w) (opcode w) = w := by
  have hsign : (half12 w).extractLsb' 11 1 = w.extractLsb' 31 1 := by
    rw [half12, BitVec.extractLsb'_append_eq_of_le (by decide),
      BitVec.extractLsb'_append_eq_of_le (by decide)]
    exact BitVec.extractLsb'_append_eq_left
  have hlow : (half12 w).extractLsb' 10 1 = w.extractLsb' 7 1 := by
    rw [half12, BitVec.extractLsb'_append_eq_of_le (by decide),
      BitVec.extractLsb'_append_eq_of_le (by decide)]
    exact BitVec.extractLsb'_append_eq_right
  have hmid : (half12 w).extractLsb' 4 6 = w.extractLsb' 25 6 := by
    rw [half12, BitVec.extractLsb'_append_eq_of_le (by decide)]
    exact BitVec.extractLsb'_append_eq_right
  have hrest : (half12 w).extractLsb' 0 4 = w.extractLsb' 8 4 :=
    BitVec.extractLsb'_append_eq_right
  have h7 := halves w 25 1 6
  have hd := halves w 7 4 1
  rw [bFormat, hsign, hlow, hmid, hrest, h7, hd]
  exact layout_fields w

/-- A word in the `U` format. -/
theorem uFormat_fields : uFormat (w.extractLsb' 12 20) (rd w).toFin (opcode w) = w := by
  have hfield : ∀ lo n : Nat, lo + n ≤ 20 →
      (w.extractLsb' 12 20).extractLsb' lo n = w.extractLsb' (12 + lo) n :=
    fun lo n h => extractLsb'_field w 12 20 lo n h
  rw [uFormat, hfield 13 7 (by decide), hfield 8 5 (by decide), hfield 3 5 (by decide),
    hfield 0 3 (by decide)]
  exact layout_fields w

/-- A word in the `J` format. -/
theorem jFormat_fields : jFormat (half20 w) (rd w).toFin (opcode w) = w := by
  have hsign : (half20 w).extractLsb' 19 1 = w.extractLsb' 31 1 := by
    rw [half20, BitVec.extractLsb'_append_eq_of_le (by decide),
      BitVec.extractLsb'_append_eq_of_le (by decide)]
    exact BitVec.extractLsb'_append_eq_left
  have hhigh : (half20 w).extractLsb' 11 8 = w.extractLsb' 12 8 := by
    rw [half20, BitVec.extractLsb'_append_eq_of_le (by decide),
      BitVec.extractLsb'_append_eq_of_le (by decide)]
    exact BitVec.extractLsb'_append_eq_right
  have hmid : (half20 w).extractLsb' 10 1 = w.extractLsb' 20 1 := by
    rw [half20, BitVec.extractLsb'_append_eq_of_le (by decide)]
    exact BitVec.extractLsb'_append_eq_right
  have hlow : (half20 w).extractLsb' 0 10 = w.extractLsb' 21 10 :=
    BitVec.extractLsb'_append_eq_right
  have h1 := halves w 21 1 10
  have h2 := halves w 20 11 1
  have h3 := halves w 12 12 8
  rw [jFormat, hsign, hhigh, hmid, hlow, h1, h2, h3]
  exact uFormat_fields w

/-- A word in the format of the fused operations. -/
theorem fma_sound {o : FmaOp} (ho : fmaCode o = opcode w) :
    ∃ i : Inst, i.decoded = .fma (((opcode w).setWidth 32).setWidth 8)
        (((w >>> 25) &&& 0x3).setWidth 8) (w.extractLsb' 27 5).toFin (rs2 w).toFin
        (rs1 w).toFin (rd w).toFin
      ∧ encode i = w := by
  have hrs3 : w.extractLsb' 27 5 = (funct7 w).extractLsb' 2 5 :=
    (extractLsb'_field w 25 7 2 5 (by decide)).symm
  have hfmt : w.extractLsb' 25 2 = (funct7 w).extractLsb' 0 2 :=
    (extractLsb'_field w 25 7 0 2 (by decide)).symm
  have hf7 := halves (funct7 w) 0 5 2
  refine ⟨.fma o ((funct7 w).extractLsb' 0 2) (w.extractLsb' 27 5).toFin (rs2 w).toFin
    (rs1 w).toFin (funct3 w) (rd w).toFin, ?_, ?_⟩
  · rw [shift_and_mask w 25 2 0x3 rfl, setWidth_narrow, setWidth_narrow, ← ho, hfmt]
    rfl
  · rw [encode, bits_field, hrs3, hf7, BitVec.extractLsb'_eq_self, ho]
    exact rFormat_fields w

/-- Every decoded word is the encoding of an instruction, up to the loose words. -/
theorem decode?_sound (h : decode? w = some inst) :
    ∃ i : Inst, i.decoded = inst ∧ (encode i = w ∨ Loose w) := by
  rw [decode?] at h
  simp only [decodeFunct7_eq, reg_eq] at h
  simp only [decodeOpcode_eq, decodeFunct3_eq] at h
  have hr := rFormat_fields w
  have hi := iFormat_fields w
  split at h
  case h_1 h' =>
    have hop : opcode w = 0x33 := field_of_wide (by decide) h'
    obtain ⟨o, ho, rfl⟩ := Option.map_eq_some_iff.mp h
    have hcode : ropCode o = (opcode w, funct3 w, funct7 w) := hop ▸ opTable_eq_some ho
    refine ⟨.op o (rd w).toFin (rs1 w).toFin (rs2 w).toFin, rfl, .inl ?_⟩
    rwa [encode, hcode]
  case h_2 h' =>
    have hop : opcode w = 0x3B := field_of_wide (by decide) h'
    obtain ⟨o, ho, rfl⟩ := Option.map_eq_some_iff.mp h
    have hcode : ropCode o = (opcode w, funct3 w, funct7 w) := hop ▸ op32Table_eq_some ho
    refine ⟨.op o (rd w).toFin (rs1 w).toFin (rs2 w).toFin, rfl, .inl ?_⟩
    rwa [encode, hcode]
  case h_3 h' =>
    cases h
    exact decodeOpImm_sound w (field_of_wide (by decide) h')
  case h_4 h' => exact decodeOpImm32_sound w (field_of_wide (by decide) h') h
  case h_5 h' =>
    have hop : opcode w = 0x03 := field_of_wide (by decide) h'
    obtain ⟨o, ho, rfl⟩ := Option.map_eq_some_iff.mp h
    refine ⟨.load o (rd w).toFin (rs1 w).toFin (w.extractLsb' 20 12), ?_, .inl ?_⟩
    · rw [iImm_eq]
      rfl
    · rwa [encode, loadTable_eq_some ho, ← hop]
  case h_6 h' =>
    have hop : opcode w = 0x07 := field_of_wide (by decide) h'
    rw [iImm_eq] at h
    split at h
    case h_1 h3 =>
      cases h
      have hf3 : funct3 w = 2 := field_of_wide (by decide) h3
      rw [hop, hf3] at hi
      exact ⟨.flw (rd w).toFin (rs1 w).toFin (w.extractLsb' 20 12), rfl, .inl hi⟩
    case h_2 h3 =>
      cases h
      have hf3 : funct3 w = 3 := field_of_wide (by decide) h3
      rw [hop, hf3] at hi
      exact ⟨.fld (rd w).toFin (rs1 w).toFin (w.extractLsb' 20 12), rfl, .inl hi⟩
    case h_3 => cases h
  case h_7 h' =>
    have hop : opcode w = 0x27 := field_of_wide (by decide) h'
    have hs := sFormat_fields w
    rw [sImm_eq] at h
    split at h
    case h_1 h3 =>
      cases h
      have hf3 : funct3 w = 2 := field_of_wide (by decide) h3
      rw [hop, hf3] at hs
      exact ⟨.fsw (rs1 w).toFin (rs2 w).toFin (funct7 w ++ rd w), rfl, .inl hs⟩
    case h_2 h3 =>
      cases h
      have hf3 : funct3 w = 3 := field_of_wide (by decide) h3
      rw [hop, hf3] at hs
      exact ⟨.fsd (rs1 w).toFin (rs2 w).toFin (funct7 w ++ rd w), rfl, .inl hs⟩
    case h_3 => cases h
  case h_8 h' =>
    cases h
    have hop : opcode w = 0x53 := field_of_wide (by decide) h'
    rw [hop] at hr
    refine ⟨.opFp (funct7 w) (rs2 w).toFin (rs1 w).toFin (funct3 w) (rd w).toFin, ?_, .inl hr⟩
    rw [setWidth_narrow, setWidth_narrow]
    rfl
  case h_9 h' =>
    cases h
    have ho : fmaCode .fmadd = opcode w := (field_of_wide (by decide) h').symm
    obtain ⟨i, hdec, henc⟩ := fma_sound w ho
    exact ⟨i, hdec, .inl henc⟩
  case h_10 h' =>
    cases h
    have ho : fmaCode .fmsub = opcode w := (field_of_wide (by decide) h').symm
    obtain ⟨i, hdec, henc⟩ := fma_sound w ho
    exact ⟨i, hdec, .inl henc⟩
  case h_11 h' =>
    cases h
    have ho : fmaCode .fnmsub = opcode w := (field_of_wide (by decide) h').symm
    obtain ⟨i, hdec, henc⟩ := fma_sound w ho
    exact ⟨i, hdec, .inl henc⟩
  case h_12 h' =>
    cases h
    have ho : fmaCode .fnmadd = opcode w := (field_of_wide (by decide) h').symm
    obtain ⟨i, hdec, henc⟩ := fma_sound w ho
    exact ⟨i, hdec, .inl henc⟩
  case h_13 h' =>
    have hop : opcode w = 0x23 := field_of_wide (by decide) h'
    obtain ⟨o, ho, rfl⟩ := Option.map_eq_some_iff.mp h
    refine ⟨.store o (rs1 w).toFin (rs2 w).toFin (funct7 w ++ rd w), ?_, .inl ?_⟩
    · rw [sImm_eq]
      rfl
    · rw [encode, storeTable_eq_some ho, ← hop]
      exact sFormat_fields w
  case h_14 h' =>
    have hop : opcode w = 0x63 := field_of_wide (by decide) h'
    obtain ⟨o, ho, rfl⟩ := Option.map_eq_some_iff.mp h
    refine ⟨.branch o (rs1 w).toFin (rs2 w).toFin (half12 w), ?_, .inl ?_⟩
    · rw [bImm_eq]
      rfl
    · rw [encode, branchTable_eq_some ho, ← hop]
      exact bFormat_fields w
  case h_15 h' =>
    cases h
    have hop : opcode w = 0x6F := field_of_wide (by decide) h'
    refine ⟨.jal (rd w).toFin (half20 w), ?_, .inl ?_⟩
    · rw [jImm_eq]
      rfl
    · rw [encode, ← hop]
      exact jFormat_fields w
  case h_16 h' =>
    cases h
    have hop : opcode w = 0x67 := field_of_wide (by decide) h'
    refine ⟨.jalr (rd w).toFin (rs1 w).toFin (w.extractLsb' 20 12), ?_, ?_⟩
    · rw [iImm_eq]
      rfl
    · rcases eq_or_ne (funct3 w) 0 with hf3 | hf3
      · left
        rwa [hop, hf3] at hi
      · exact .inr (.jalr hop hf3)
  case h_17 h' =>
    cases h
    have hop : opcode w = 0x37 := field_of_wide (by decide) h'
    refine ⟨.lui (rd w).toFin (w.extractLsb' 12 20), ?_, .inl ?_⟩
    · rw [uImm_eq]
      rfl
    · rw [encode, ← hop]
      exact uFormat_fields w
  case h_18 h' =>
    cases h
    have hop : opcode w = 0x17 := field_of_wide (by decide) h'
    refine ⟨.auipc (rd w).toFin (w.extractLsb' 12 20), ?_, .inl ?_⟩
    · rw [uImm_eq]
      rfl
    · rw [encode, ← hop]
      exact uFormat_fields w
  case h_19 h' => exact decodeAmo_sound w (field_of_wide (by decide) h') h
  case h_20 h' =>
    cases h
    have hop : opcode w = 0x0F := field_of_wide (by decide) h'
    rcases eq_or_ne (funct3 w) 0 with hf3 | hf3
    · rw [hop, hf3] at hi
      exact ⟨.fence (w.extractLsb' 20 12) (rd w).toFin (rs1 w).toFin, rfl, .inl hi⟩
    · refine ⟨.fenceI (w.extractLsb' 20 12) (rd w).toFin (rs1 w).toFin, rfl, ?_⟩
      rcases eq_or_ne (funct3 w) 1 with hf3' | hf3'
      · left
        rwa [hop, hf3'] at hi
      · exact .inr (.miscMem hop hf3 hf3')
  case h_21 h' =>
    obtain ⟨i, hdec, henc⟩ := decodeSystem_sound w (field_of_wide (by decide) h') h
    exact ⟨i, hdec, .inl henc⟩
  case h_22 => cases h

/-- Decoding inverts encoding on every instruction, and returns nothing else. -/
theorem decode_encode :
    (∀ i : Inst, decode (encode i) = .ok i.decoded)
      ∧ ∀ (w : U32) (inst : Instruction), decode w = .ok inst → ∃ i : Inst, i.decoded = inst := by
  constructor
  · intro i
    exact decode_eq_ok.mpr (decode?_encode i)
  · intro w inst h
    obtain ⟨i, hdec, -⟩ := decode?_sound w (decode_eq_ok.mp h)
    exact ⟨i, hdec⟩

end RiscvEmu

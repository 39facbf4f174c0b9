import RiscvEmu.Execution.Endings
import RiscvEmu.Execution.Extension
import Mathlib.Tactic.IntervalCases

/-!
# Instructions with 32-bit results

Five extensions have instructions whose result is 32 bits wide, and each arm extends it in its
own way.  All of them repeat bit 31 in the upper half, except the two conversions to an unsigned
word: these fill the upper half with zeros, which is the same only for results below `2 ^ 31`.

The compressed forms are expanded to full instructions before they run, so they need no arm.
-/

namespace RiscvEmu

/-! ## The instructions -/

def ROp.isWord : ROp → Bool
  | addw | subw | sllw | srlw | sraw | mulw | divw | divuw | remw | remuw => true
  | _ => false

def IOp.isWord : IOp → Bool
  | addiw => true
  | _ => false

def ShiftOp.isWord : ShiftOp → Bool
  | slliw | srliw | sraiw => true
  | _ => false

/-- The codes of the conversions to a word, and of the move of a single. -/
def fpWord (funct7 : U8) (rs2 : Reg) (rm : U8) : Bool :=
  (decide (funct7 = 0x60 ∨ funct7 = 0x61) && decide (rs2 = 0 ∨ rs2 = 1))
    || (decide (funct7 = 0x70) && decide (rm = 0))

namespace Instruction

/-- The destination of an instruction whose result is 32 bits wide. -/
def wordResult : Instruction → Option Reg
  | .op o rd _ _ => if o.isWord then some rd else none
  | .opImm o rd _ _ => if o.isWord then some rd else none
  | .shift o rd _ _ => if o.isWord then some rd else none
  | .load .lw rd _ _ => some rd
  | .lr .w rd _ => some rd
  | .amo _ .w rd _ _ => some rd
  | .opFp funct7 rs2 _ rm rd => if fpWord funct7 rs2 rm then some rd else none
  | _ => none

/-- The word an instruction converts from a floating-point register without a sign. -/
def unsignedWord (fpu : Fpu) (c : Cpu) : Instruction → Option U32
  | .opFp funct7 rs2 rs1 _ _ =>
      if rs2 = 1 then
        if funct7 = 0x60 then some (fpu.s.toU32 (unboxSingle (c.fregs rs1)))
        else if funct7 = 0x61 then some (fpu.d.toU32 (c.fregs rs1))
        else none
      else none
  | _ => none

end Instruction

/-! ## Values -/

theorem ROp.eval_signExtended {op : ROp} (h : op.isWord = true) (a b : U64) :
    SignExtended (op.eval a b) := by
  cases op <;> simp only [isWord, Bool.false_eq_true] at h <;> exact signExtended_sext _

theorem IOp.eval_signExtended {op : IOp} (h : op.isWord = true) (a imm : U64) :
    SignExtended (op.eval a imm) := by
  cases op with
  | addiw => exact signExtended_sext _
  | _ => cases h

theorem ShiftOp.eval_signExtended {op : ShiftOp} (h : op.isWord = true) (a : U64) (shamt : U32) :
    SignExtended (op.eval a shamt) := by
  cases op <;> simp only [isWord, Bool.false_eq_true] at h <;> exact signExtended_sext _

namespace Cpu

/-- A written register repeats bit 31 if the value does, and register 0 always does. -/
theorem signExtended_reg (c : Cpu) (rd : Reg) (v : U64) :
    SignExtended ((c.setReg rd v).reg rd) ↔ rd = 0 ∨ SignExtended v := by
  rw [reg_setReg]
  by_cases hrd : rd = 0
  · rw [if_pos hrd]
    exact iff_of_true signExtended_zero (Or.inl hrd)
  · rw [if_neg hrd]
    exact ⟨Or.inr, fun h => h.resolve_left hrd⟩

/-! ## Instructions -/

section

variable {fpu : Fpu} {c : Cpu} {r : Retired} {rd : Reg}

theorem execWrite_signExtended {v : U64} (hv : SignExtended v)
    (h : c.execWrite rd v = some r) : SignExtended (r.cpu.reg rd) := by
  cases h
  exact (signExtended_reg c rd v).mpr (Or.inr hv)

theorem execLoad_signExtended {rs1 : Reg} {imm : U64} {width : Width}
    (h : c.execLoad rs1 imm width (fun v c' => c'.setReg rd (sext v 31)) = some r)
    (hr : r.trap = none) : SignExtended (r.cpu.reg rd) := by
  rcases orRaise_eq_some h with ⟨t, c', _, rfl⟩ | ⟨v, c', _, hk⟩
  · cases hr
  · cases hk
    exact (signExtended_reg c' rd _).mpr (Or.inr (signExtended_sext v))

theorem execLr_signExtended {rs1 : Reg} (h : c.execLr .w rd rs1 = some r)
    (hr : r.trap = none) : SignExtended (r.cpu.reg rd) := by
  rcases orRaise_eq_some h with ⟨t, c', _, rfl⟩ | ⟨pa, c', _, hk⟩
  · cases hr
  · rcases orRaise_eq_some hk with ⟨t, c'', _, rfl⟩ | ⟨v, c'', _, hk⟩
    · cases hr
    · cases hk
      exact (signExtended_reg c'' rd _).mpr (Or.inr (signExtended_sext v))

theorem execAmo_signExtended {op : AmoOp} {rs1 rs2 : Reg}
    (h : c.execAmo op .w rd rs1 rs2 = some r) (hr : r.trap = none) :
    SignExtended (r.cpu.reg rd) := by
  rcases orRaise_eq_some h with ⟨t, c', _, rfl⟩ | ⟨pa, c', _, hk⟩
  · cases hr
  · dsimp only at hk
    cases hload : busLoad pa AmoWidth.w.width ⟨5, c.reg rs1⟩ c' with
    | none => rw [hload] at hk; cases hk
    | some p =>
        obtain ⟨v, c''⟩ := p
        simp only [hload] at hk
        split at hk
        · cases hk
        · cases hk
          exact (signExtended_reg _ rd _).mpr (Or.inr (signExtended_sext _))

/-- A conversion to a word or the move of a single, by the value it writes. -/
theorem opFp_word (fpu : Fpu) (c : Cpu) (rd rs1 : Reg) {funct7 rm : U8} {rs2 : Reg}
    (h : fpWord funct7 rs2 rm = true) :
    ∃ v, opFpResult fpu c funct7 rs2 rs1 rm = .ireg v ∧
      (SignExtended v ↔
        ∀ w ∈ (Instruction.opFp funct7 rs2 rs1 rm rd).unsignedWord fpu c, w.toNat < 2 ^ 31) := by
  rw [fpWord, Bool.or_eq_true, Bool.and_eq_true, Bool.and_eq_true] at h
  simp only [decide_eq_true_eq] at h
  rcases h with ⟨rfl | rfl, rfl | rfl⟩ | ⟨rfl, rfl⟩
  · exact ⟨_, rfl, iff_of_true (signExtended_signExtend _) (by simp [Instruction.unsignedWord])⟩
  · exact ⟨_, rfl, (signExtended_setWidth _).trans (by simp [Instruction.unsignedWord])⟩
  · exact ⟨_, rfl, iff_of_true (signExtended_signExtend _) (by simp [Instruction.unsignedWord])⟩
  · exact ⟨_, rfl, (signExtended_setWidth _).trans (by simp [Instruction.unsignedWord])⟩
  · exact ⟨_, rfl, iff_of_true (signExtended_signExtend _) (by simp [Instruction.unsignedWord])⟩

/-- What an instruction with a 32-bit result writes repeats bit 31, unless it is an unsigned word
that has this bit. -/
theorem execute_word (fpu : Fpu) (c : Cpu) {inst : Instruction}
    (hinst : inst.wordResult = some rd) :
    (∀ r, execute fpu inst c = some r → r.trap = none → SignExtended (r.cpu.reg rd)) ↔
      (rd = 0 ∨ ∀ w ∈ inst.unsignedWord fpu c, w.toNat < 2 ^ 31) := by
  have hsigned (hw : inst.unsignedWord fpu c = none)
      (h : ∀ r, execute fpu inst c = some r → r.trap = none → SignExtended (r.cpu.reg rd)) :
      (∀ r, execute fpu inst c = some r → r.trap = none → SignExtended (r.cpu.reg rd)) ↔
        (rd = 0 ∨ ∀ w ∈ inst.unsignedWord fpu c, w.toNat < 2 ^ 31) :=
    iff_of_true h (Or.inr (by rw [hw]; simp))
  cases inst with
  | op o rd rs1 rs2 =>
      obtain ⟨ho, hrd⟩ := Option.ite_none_right_eq_some.mp hinst
      cases hrd
      exact hsigned rfl fun r h _ => execWrite_signExtended (ROp.eval_signExtended ho _ _) h
  | opImm o rd rs1 imm =>
      obtain ⟨ho, hrd⟩ := Option.ite_none_right_eq_some.mp hinst
      cases hrd
      exact hsigned rfl fun r h _ => execWrite_signExtended (IOp.eval_signExtended ho _ _) h
  | shift o rd rs1 shamt =>
      obtain ⟨ho, hrd⟩ := Option.ite_none_right_eq_some.mp hinst
      cases hrd
      exact hsigned rfl fun r h _ => execWrite_signExtended (ShiftOp.eval_signExtended ho _ _) h
  | load o rd rs1 imm =>
      cases o <;> cases hinst
      exact hsigned rfl fun r h hr => execLoad_signExtended h hr
  | lr width rd rs1 =>
      cases width <;> cases hinst
      exact hsigned rfl fun r h hr => execLr_signExtended h hr
  | amo o width rd rs1 rs2 =>
      cases width <;> cases hinst
      exact hsigned rfl fun r h hr => execAmo_signExtended h hr
  | opFp funct7 rs2 rs1 rm rd =>
      obtain ⟨hf, hrd⟩ := Option.ite_none_right_eq_some.mp hinst
      cases hrd
      obtain ⟨v, hv, hiff⟩ := opFp_word fpu c rd rs1 hf
      have hexec : execute fpu (.opFp funct7 rs2 rs1 rm rd) c =
          some ((c.setReg rd v).markFsDirty.retire c.nextPc) := by
        rw [execute, hv, execFp]
      rw [hexec, ← hiff]
      rw [← signExtended_reg c rd v]
      exact ⟨fun h => h _ rfl rfl, fun h r hr _ => by cases hr; exact h⟩
  | _ => cases hinst

end

end Cpu

/-! ## Compressed forms -/

/-- The encodings of `C.ADDIW`, `C.SUBW`, `C.ADDW`, `C.LW` and `C.LWSP`. -/
inductive CompressedWord (raw : U16) : Prop where
  | addiw (h : raw &&& 0xE003 = 0x2001) (hrd : raw &&& 0x0F80 ≠ 0)
  | subw (h : raw &&& 0xFC63 = 0x9C01)
  | addw (h : raw &&& 0xFC63 = 0x9C21)
  | lw (h : raw &&& 0xE003 = 0x4000)
  | lwsp (h : raw &&& 0xE003 = 0x4002) (hrd : raw &&& 0x0F80 ≠ 0)

/-- A field of an encoding is fixed by the value under a mask that covers it. -/
theorem field_of_masked {raw mask val : U16} (h : raw &&& mask = val) (k : Nat) {m : U32}
    (hm : (mask.setWidth 32 >>> k) &&& m = m) :
    (raw.setWidth 32 >>> k) &&& m = (val.setWidth 32 >>> k) &&& m := by
  apply BitVec.eq_of_getLsbD_eq
  intro i hi
  have hbit := congrArg (fun v : U32 => v.getLsbD i) hm
  simp only [BitVec.getLsbD_and, BitVec.getLsbD_ushiftRight, BitVec.getLsbD_setWidth] at hbit
  rw [← h]
  simp only [BitVec.getLsbD_and, BitVec.getLsbD_ushiftRight, BitVec.getLsbD_setWidth]
  rw [← hbit]
  cases raw.getLsbD (k + i) <;> cases mask.getLsbD (k + i) <;> simp

/-- The destination field of a compressed encoding names register 0 only when it is clear. -/
theorem r5_ne_zero {raw : U16} (h : raw &&& 0x0F80 ≠ 0) : Rvc.r5 (raw.setWidth 32) 7 ≠ 0 := by
  intro h0
  have hlt : (((raw.setWidth 32 : U32) >>> 7) &&& 0x1f).toNat < 32 :=
    and_mask_lt _ 0x1f (by decide)
  have hval := congrArg Fin.val h0
  rw [Rvc.r5, Fin.val_ofNat, Nat.mod_eq_of_lt hlt] at hval
  have hz : ((raw.setWidth 32 : U32) >>> 7) &&& 0x1f = 0 := BitVec.eq_of_toNat_eq hval
  apply h
  calc raw &&& 0x0F80
      = ((((raw.setWidth 32 : U32) >>> 7) &&& 0x1f) <<< 7).setWidth 16 := by
        apply BitVec.eq_of_getLsbD_eq
        intro i hi
        interval_cases i <;> simp
    _ = 0 := by rw [hz]; rfl

section

variable {raw : U16} {q : U32}

/-- A compressed encoding with a 32-bit result expands to a full instruction with one. -/
theorem CompressedWord.decode (h : CompressedWord raw) :
    ∃ inst, decodeRvc raw = .ok inst ∧ inst.wordResult.isSome ∧
      ∀ fpu c, inst.unsignedWord fpu c = none := by
  cases h with
  | addiw h hrd =>
      refine ⟨.opImm .addiw (Rvc.r5 (raw.setWidth 32) 7) (Rvc.r5 (raw.setWidth 32) 7)
        (Rvc.imm6 (raw.setWidth 32)), decodeRvc_eq_ok.mpr ?_, rfl, fun _ _ => rfl⟩
      have hq : raw.setWidth 32 &&& 0x3 = 0b01#32 := field_of_masked h 0 rfl
      have hf3 : (raw.setWidth 32 >>> 13) &&& 0x7 = 0b001#32 := field_of_masked h 13 rfl
      simp only [decodeRvc?, hq, hf3, Rvc.quadrant1, if_neg (r5_ne_zero hrd)]
  | subw h =>
      refine ⟨.op .subw (Rvc.rp (raw.setWidth 32) 7) (Rvc.rp (raw.setWidth 32) 7)
        (Rvc.rp (raw.setWidth 32) 2), decodeRvc_eq_ok.mpr ?_, rfl, fun _ _ => rfl⟩
      have hq : raw.setWidth 32 &&& 0x3 = 0b01#32 := field_of_masked h 0 rfl
      have hf3 : (raw.setWidth 32 >>> 13) &&& 0x7 = 0b100#32 := field_of_masked h 13 rfl
      have hgroup : (raw.setWidth 32 >>> 10) &&& 0x3 = 0b11#32 := field_of_masked h 10 rfl
      have hhigh : (raw.setWidth 32 >>> 12) &&& 1 = 1#32 := field_of_masked h 12 rfl
      have hlow : (raw.setWidth 32 >>> 5) &&& 0x3 = 0b00#32 := field_of_masked h 5 rfl
      simp only [decodeRvc?, hq, hf3, Rvc.quadrant1, hgroup, Rvc.arith, hhigh, hlow]
      rfl
  | addw h =>
      refine ⟨.op .addw (Rvc.rp (raw.setWidth 32) 7) (Rvc.rp (raw.setWidth 32) 7)
        (Rvc.rp (raw.setWidth 32) 2), decodeRvc_eq_ok.mpr ?_, rfl, fun _ _ => rfl⟩
      have hq : raw.setWidth 32 &&& 0x3 = 0b01#32 := field_of_masked h 0 rfl
      have hf3 : (raw.setWidth 32 >>> 13) &&& 0x7 = 0b100#32 := field_of_masked h 13 rfl
      have hgroup : (raw.setWidth 32 >>> 10) &&& 0x3 = 0b11#32 := field_of_masked h 10 rfl
      have hhigh : (raw.setWidth 32 >>> 12) &&& 1 = 1#32 := field_of_masked h 12 rfl
      have hlow : (raw.setWidth 32 >>> 5) &&& 0x3 = 0b01#32 := field_of_masked h 5 rfl
      simp only [decodeRvc?, hq, hf3, Rvc.quadrant1, hgroup, Rvc.arith, hhigh, hlow]
      rfl
  | lw h =>
      refine ⟨.load .lw (Rvc.rp (raw.setWidth 32) 2) (Rvc.rp (raw.setWidth 32) 7)
        ((Rvc.lwImm (raw.setWidth 32)).setWidth 64), decodeRvc_eq_ok.mpr ?_, rfl, fun _ _ => rfl⟩
      have hq : raw.setWidth 32 &&& 0x3 = 0b00#32 := field_of_masked h 0 rfl
      have hf3 : (raw.setWidth 32 >>> 13) &&& 0x7 = 0b010#32 := field_of_masked h 13 rfl
      simp only [decodeRvc?, hq, hf3, Rvc.quadrant0]
  | lwsp h hrd =>
      refine ⟨.load .lw (Rvc.r5 (raw.setWidth 32) 7) 2
        ((Rvc.lwspImm (raw.setWidth 32)).setWidth 64), decodeRvc_eq_ok.mpr ?_, rfl,
        fun _ _ => rfl⟩
      have hq : raw.setWidth 32 &&& 0x3 = 0b10#32 := field_of_masked h 0 rfl
      have hf3 : (raw.setWidth 32 >>> 13) &&& 0x7 = 0b010#32 := field_of_masked h 13 rfl
      simp only [decodeRvc?, hq, hf3, Rvc.quadrant2, if_neg (r5_ne_zero hrd)]

end

/-! ## The law -/

/-- An instruction leaves a sign-extended word in its destination, whenever it completes. -/
def WritesWord (fpu : Fpu) (c : Cpu) (inst : Instruction) (rd : Reg) : Prop :=
  ∀ r, execute fpu inst c = some r → r.trap = none → SignExtended (r.cpu.reg rd)

/-- A 32-bit result is sign-extended unless it is a conversion to an unsigned word of at least
`2 ^ 31`, and no compressed encoding expands to such a conversion. -/
theorem writesWord_iff (fpu : Fpu) (c : Cpu) (inst : Instruction) (rd : Reg)
    (hinst : inst.wordResult = some rd) :
    (WritesWord fpu c inst rd ↔
      (rd = 0 ∨ ∀ w ∈ inst.unsignedWord fpu c, w.toNat < 2 ^ 31)) ∧
      ∀ raw, CompressedWord raw → ∃ inst rd, decodeRvc raw = .ok inst ∧
        inst.wordResult = some rd ∧ WritesWord fpu c inst rd := by
  refine ⟨Cpu.execute_word fpu c hinst, fun raw hraw => ?_⟩
  obtain ⟨inst, hdecode, hresult, hnone⟩ := hraw.decode
  obtain ⟨rd, hrd⟩ := Option.isSome_iff_exists.mp hresult
  exact ⟨inst, rd, hdecode, hrd,
    (Cpu.execute_word fpu c hrd).mpr (Or.inr (by rw [hnone]; simp))⟩

/-- A host that converts the single 2147483648.0 as it should. -/
def twoPow31Host : Fpu :=
  { (default : Fpu) with
    s := { (default : FloatOps 32) with
      toU32 := fun v => if v = 0x4F00_0000 then 0x8000_0000 else 0 } }

/-- A hart with 2147483648.0 in its first floating-point register. -/
def twoPow31Hart : Cpu := (Cpu.new (Bus.new 0 0) 0).setFreg 1 (boxSingle 0x4F00_0000)

/-- `FCVT.WU.S` of 2147483648.0 leaves the upper half of its result clear. -/
theorem fcvtWu_not_signExtended :
    ¬ ∀ (fpu : Fpu) (c : Cpu) (inst : Instruction) (rd : Reg), inst.wordResult = some rd →
      WritesWord fpu c inst rd := by
  intro h
  have hlaw := h twoPow31Host twoPow31Hart (.opFp 0x60 1 1 0 1) 1 rfl _ rfl rfl 32 (by decide)
    (by decide)
  exact absurd hlaw (by decide)

/-- A hart with 2147483647 and one in two registers. -/
def edgeHart : Cpu := ((Cpu.new (Bus.new 0 0) 0).setReg 2 0x7FFF_FFFF).setReg 3 1

/-- `ADDW` of these sets bit 31, and the upper half with it. -/
theorem writesWord_addw :
    (execute default (.op .addw 1 2 3) edgeHart).map (fun r => r.cpu.reg 1) =
        some 0xFFFF_FFFF_8000_0000 ∧
      WritesWord default edgeHart (.op .addw 1 2 3) 1 :=
  ⟨by decide, (writesWord_iff default edgeHart (.op .addw 1 2 3) 1 rfl).1.mpr
    (Or.inr fun _ hw => nomatch hw)⟩

end RiscvEmu

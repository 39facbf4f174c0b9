import RiscvEmu.Native.Straight
import RiscvEmu.Native.Fields

/-!
# Compressed encodings

Compiled code of a compressed encoding against the instruction it is decoded to.  Most encodings
have the code of the full instruction, and the others code of their own that agrees with it
(`Corresponds`).  The emitter skips the hint forms of `C.ADD`, which the decoder rejects, and
these are the only encodings the two disagree on (`rvcAgrees_iff`).
-/

namespace RiscvEmu.Jit

open X86 (Reaches)

variable {h : Host} {c : Cpu} {rd rs1 rs2 : Reg}

namespace Rvc

/-! ## Instruction patterns -/

theorem result_eq (hrd : rd ≠ 0) : result rd = writeBack rd := (if_pos hrd).symm

theorem emitImm_eq (hrd : rd ≠ 0) (op : X86.Alu) (imm : U64) :
    emitImm rd rs1 op imm = emitIOp rd rs1 imm fun imm32 => [.alu op .qword .rax (.imm imm32)] := by
  rw [emitImm, result_eq hrd]
  rfl

theorem emitShift_eq (hrd : rd ≠ 0) (op : X86.Shift) {shamt8 : U8} {shamt : U32}
    (hshamt : shamt.setWidth 8 = shamt8) :
    emitShift rd op shamt8 = emitShiftImm rd rd shamt op := by
  rw [emitShift, result_eq hrd, ← hshamt]
  rfl

theorem emitAlu_falls (hrd : rd ≠ 0) (op : X86.Alu) :
    Falls h (emitAlu rd rs2 op) c (c.setReg rd (op.eval (c.regs rd) (c.regs rs2))) := by
  rw [emitAlu, result_eq hrd]
  refine writeBack_append fun s ⟨h14, h15, hm⟩ => ?_
  simp [Reaches, regMem, h14, h15, hm, inside_iff]

theorem emitAluW_falls (hrd : rd ≠ 0) (op : X86.Alu) :
    Falls h (emitAluW rd op (regMem rs2)) c
      (c.setReg rd ((op.eval (lo32 (c.regs rd)) (lo32 (c.regs rs2))).signExtend 64)) := by
  rw [emitAluW, result_eq hrd]
  refine writeBack_append fun s ⟨h14, h15, hm⟩ => ?_
  simp [Reaches, regMem, h14, h15, hm, inside_iff, lo32]

theorem move_falls (hrd : rd ≠ 0) :
    Falls h ([.mov .qword .rax (regMem rs2)] ++ result rd) c (c.setReg rd (c.regs rs2)) := by
  rw [result_eq hrd]
  refine writeBack_append fun s ⟨h14, h15, hm⟩ => ?_
  simp [Reaches, regMem, h14, h15, hm, inside_iff]

theorem constant_falls (hrd : rd ≠ 0) {imm : U64} (hfit : Fits imm) :
    Falls h ([.mov .qword .rax (.imm (imm.setWidth 32))] ++ result rd) c (c.setReg rd imm) := by
  rw [result_eq hrd]
  refine writeBack_append fun s ⟨h14, h15, hm⟩ => ?_
  rw [Fits, lo32] at hfit
  simp [Reaches, h14, h15, hm, inside_iff, hfit]

/-- A branch on a comparison of a register with zero. -/
theorem emitBranch_leaves {cond : X86.Cond} {fallPc takenPc : U64}
    (hcond : ∀ v : U64, cond.holds (.logic v) = cond.holds (.sub v 0)) :
    Leaves h (emitBranch rs1 cond fallPc takenPc) c c
      (if cond.holds (.sub (c.regs rs1) 0) then takenPc else fallPc) := by
  intro s pad r14 r15 ret rest hs hstack
  have htest : Reaches h.env
      ([.mov .qword .rax (regMem rs1), .test .qword .rax .rax] : Code) s fun s' =>
        Inside h c s' ∧ s'.stack = s.stack ∧ s'.flags = some (.logic (c.regs rs1)) := by
    obtain ⟨h14, h15, hm⟩ := hs
    simp [Reaches, regMem, h14, h15, hm, inside_iff]
  refine htest.append_returns fun s' htested => ?_
  obtain ⟨hs', hstack', hflags⟩ := htested
  rw [← hcond]
  exact emitChoice_leaves hs' hflags (hstack'.trans hstack)

theorem jump_leaves : Leaves h ([.mov .qword .rcx (regMem rs1)] ++ emitReturnRcx) c c
    (c.regs rs1 &&& ~~~(1 : U64)) := by
  intro s pad r14 r15 ret rest hs hstack
  have hload : Reaches h.env ([.mov .qword .rcx (regMem rs1)] : Code) s fun s' =>
      Inside h c s' ∧ s'.stack = s.stack ∧ s'.regs.rcx = c.regs rs1 := by
    obtain ⟨h14, h15, hm⟩ := hs
    simp [Reaches, regMem, h14, h15, hm, inside_iff]
  refine hload.append_returns fun s' hloaded => ?_
  obtain ⟨hs', hstack', hrcx⟩ := hloaded
  rw [← hrcx]
  exact emitReturnRcx_leaves hs' (hstack'.trans hstack)

theorem link_leaves (hrd : rd ≠ 0) {linkPc : U64} :
    Leaves h ([.mov .qword .rcx (regMem rs1), .movAbs .rax linkPc] ++ result rd ++ emitReturnRcx) c
      (c.setReg rd linkPc) (c.regs rs1 &&& ~~~(1 : U64)) := by
  intro s pad r14 r15 ret rest hs hstack
  have hlink : Reaches h.env
      ([.mov .qword .rcx (regMem rs1), .movAbs .rax linkPc] ++ result rd : Code) s fun s' =>
        Inside h (c.setReg rd linkPc) s' ∧ s'.stack = s.stack ∧ s'.regs.rcx = c.regs rs1 := by
    obtain ⟨h14, h15, hm⟩ := hs
    simp [Reaches, regMem, result, h14, h15, hm, inside_iff, Cpu.setReg, hrd]
  refine hlink.append_returns fun s' hlinked => ?_
  obtain ⟨hs', hstack', hrcx⟩ := hlinked
  rw [← hrcx]
  exact emitReturnRcx_leaves hs' (hstack'.trans hstack)

theorem rp_ne_zero (raw : U16) (lo : Nat) : rp raw lo ≠ 0 := by
  have hlt : ((raw >>> lo) &&& 0x7).toNat ≤ 7 := by
    rw [BitVec.toNat_and]
    exact Nat.and_le_right
  intro h
  have hval := congrArg Fin.val h
  change (((raw >>> lo) &&& 0x7).toNat + 8) % 32 = 0 at hval
  omega

/-! ## Encodings -/

/-- What the emitter made of an encoding, against the decoder. -/
inductive Corresponds (h : Host) (guestPc : U64) (emitted : Code × Effect) :
    Option Instruction → Prop where
  /-- It has no code. -/
  | unhandled {decoded : Option Instruction} (heff : emitted.2 = .unhandled) :
      Corresponds h guestPc emitted decoded
  /-- It has the code of the full instruction. -/
  | full (inst : Instruction) (hcode : emitted = emitInst h guestPc (guestPc + 2) inst) :
      Corresponds h guestPc emitted (some inst)
  /-- It has code of its own, with the outcome of the instruction. -/
  | own (inst : Instruction) (hinline : inlined inst = true) (heff : emitted.2 = effectOf inst)
      (hdoes : ∀ c, c.regs 0 = 0 → Does h emitted.1 c (native inst guestPc (guestPc + 2) c)) :
      Corresponds h guestPc emitted (some inst)

variable {guestPc : U64} (raw : U16)

theorem quadrant0_corresponds (f : U16) :
    Corresponds h guestPc (emitQuadrant0 h raw guestPc f)
      (RiscvEmu.Rvc.quadrant0 (raw.setWidth 32) (f.setWidth 32)) := by
  unfold emitQuadrant0
  split
  · split
    · exact .unhandled rfl
    · rename_i hne
      have hdec : RiscvEmu.Rvc.quadrant0 (raw.setWidth 32) 0 =
          some (.opImm .addi (rp raw 2) 2 (addi4spnImm raw)) := by
        rw [← addi4spnImm_eq, ← rp_eq]
        refine if_neg fun hzero => hne ?_
        rw [← addi4spnImm_eq, hzero]
        rfl
      refine hdec ▸ .full _ ?_
      rw [emitImm_eq (rp_ne_zero raw 2)]
      rfl
  · have hdec : RiscvEmu.Rvc.quadrant0 (raw.setWidth 32) 3 =
        some (.load .ld (rp raw 2) (rp raw 7) (ldImm raw)) := by
      rw [← ldImm_eq, ← rp_eq, ← rp_eq]
      rfl
    exact hdec ▸ .full _ rfl
  · have hdec : RiscvEmu.Rvc.quadrant0 (raw.setWidth 32) 7 =
        some (.store .sd (rp raw 7) (rp raw 2) (ldImm raw)) := by
      rw [← ldImm_eq, ← rp_eq, ← rp_eq]
      rfl
    exact hdec ▸ .full _ rfl
  · exact .unhandled rfl

/-- A write of a register by code of its own. -/
theorem Corresponds.write {inst : Instruction} {code : Code} {v : Cpu → U64}
    (hinline : inlined inst = true) (heff : effectOf inst = .seq)
    (hnative : ∀ c, native inst guestPc (guestPc + 2) c = .next (c.setReg rd (v c)))
    (hv : ∀ c, c.regs 0 = 0 → Falls h code c (c.setReg rd (v c))) :
    Corresponds h guestPc (code, .seq) (some inst) := by
  refine .own inst hinline heff.symm fun c hzero => ?_
  rw [hnative]
  exact hv c hzero

/-- The fields of the group, as the decoder reads them. -/
theorem bit_eq (n : Nat) : (raw.setWidth 32 >>> n) &&& 1 = ((raw >>> n) &&& 0x1).setWidth 32 :=
  wide_field raw (by decide) n 1

theorem funct2_eq (n : Nat) :
    (raw.setWidth 32 >>> n) &&& 0x3 = ((raw >>> n) &&& 0x3).setWidth 32 :=
  wide_field raw (by decide) n 3

theorem alu_corresponds {op : ROp} {alu : X86.Alu} (hmul : op ≠ .mulhsu)
    (hop : ∀ a b, op.eval a b = alu.eval a b) :
    Corresponds h guestPc (emitAlu (rp raw 7) (rp raw 2) alu, .seq)
      (some (.op op (RiscvEmu.Rvc.rp (raw.setWidth 32) 7) (RiscvEmu.Rvc.rp (raw.setWidth 32) 7)
        (RiscvEmu.Rvc.rp (raw.setWidth 32) 2))) := by
  rw [rp_eq, rp_eq]
  refine .write (decide_eq_true hmul) rfl (fun _ => rfl) fun c hzero => ?_
  rw [hop]
  rw [reg_of_zero hzero, reg_of_zero hzero]
  exact emitAlu_falls (rp_ne_zero raw 7) alu

theorem aluW_corresponds {op : ROp} {alu : X86.Alu} (hmul : op ≠ .mulhsu)
    (hop : ∀ a b, op.eval a b = (alu.eval (lo32 a) (lo32 b)).signExtend 64) :
    Corresponds h guestPc (emitAluW (rp raw 7) alu (regMem (rp raw 2)), .seq)
      (some (.op op (RiscvEmu.Rvc.rp (raw.setWidth 32) 7) (RiscvEmu.Rvc.rp (raw.setWidth 32) 7)
        (RiscvEmu.Rvc.rp (raw.setWidth 32) 2))) := by
  rw [rp_eq, rp_eq]
  refine .write (decide_eq_true hmul) rfl (fun _ => rfl) fun c hzero => ?_
  rw [hop]
  rw [reg_of_zero hzero, reg_of_zero hzero]
  exact emitAluW_falls (rp_ne_zero raw 7) alu

/-- The values of a two-bit field. -/
theorem two_bits (v : U16) : v &&& 0x3 = 0 ∨ v &&& 0x3 = 1 ∨ v &&& 0x3 = 2 ∨ v &&& 0x3 = 3 := by
  have hlt : (v &&& 0x3).toNat < 4 := and_mask_lt v 0x3 (by decide)
  have hval : ∀ k, (v &&& 0x3).toNat = k → v &&& 0x3 = BitVec.ofNat 16 k := by
    rintro k rfl
    exact (BitVec.ofNat_toNat _ _).trans (BitVec.setWidth_eq _) |>.symm
  obtain h | h | h | h : (v &&& 0x3).toNat = 0 ∨ (v &&& 0x3).toNat = 1 ∨ (v &&& 0x3).toNat = 2 ∨
      (v &&& 0x3).toNat = 3 := by omega
  · exact Or.inl (hval 0 h)
  · exact Or.inr (Or.inl (hval 1 h))
  · exact Or.inr (Or.inr (Or.inl (hval 2 h)))
  · exact Or.inr (Or.inr (Or.inr (hval 3 h)))

theorem arith_corresponds :
    Corresponds h guestPc (emitArith raw) (RiscvEmu.Rvc.arith (raw.setWidth 32)) := by
  unfold emitArith RiscvEmu.Rvc.arith
  simp only [bit_eq, funct2_eq]
  rcases and_one_cases (raw >>> 12) with h12 | h12
  · rw [show (raw >>> 12) &&& 0x1 = 0 from h12, if_pos rfl]
    rcases two_bits (raw >>> 5) with h5 | h5 | h5 | h5
    · rw [h5]
      exact alu_corresponds raw nofun fun _ _ => rfl
    · rw [h5]
      exact alu_corresponds raw nofun fun _ _ => rfl
    · rw [h5]
      exact alu_corresponds raw nofun fun _ _ => rfl
    · rw [h5]
      exact alu_corresponds raw nofun fun _ _ => rfl
  · rw [show (raw >>> 12) &&& 0x1 = 1 from h12, if_neg (by decide)]
    rcases two_bits (raw >>> 5) with h5 | h5 | h5 | h5
    · rw [h5]
      exact aluW_corresponds raw nofun subw_eval
    · rw [h5]
      exact aluW_corresponds raw nofun addw_eval
    · rw [h5]
      exact .unhandled rfl
    · rw [h5]
      exact .unhandled rfl

/-- Register 0 of a hart whose register 0 holds zero. -/
theorem setReg_zero (c : Cpu) (v : U64) : c.setReg 0 v = c := if_neg (not_not.mpr rfl)

theorem imm6_fits : Fits (imm6 raw) := imm6_eq raw ▸ RiscvEmu.Rvc.imm6_fits

/-- A skipped write of register 0. -/
theorem Corresponds.skip {inst : Instruction} {v : Cpu → U64} (hinline : inlined inst = true)
    (heff : effectOf inst = .seq)
    (hnative : ∀ c, native inst guestPc (guestPc + 2) c = .next (c.setReg 0 (v c))) :
    Corresponds h guestPc ([], .seq) (some inst) :=
  .write hinline heff hnative fun c _ => by
    rw [setReg_zero]
    exact Falls.nil

theorem branch_corresponds {op : BranchOp} {cond : X86.Cond} (hop : branchCond op = cond)
    (hcond : ∀ v : U64, cond.holds (.logic v) = cond.holds (.sub v 0)) :
    Corresponds h guestPc (emitBranch (rp raw 7) cond (guestPc + 2) (guestPc + bImm raw), .terminal)
      (some (.branch op (rp raw 7) 0 (bImm raw))) := by
  refine .own _ rfl rfl fun c hzero => ?_
  change Leaves h _ c c
    (if op.taken (c.reg (rp raw 7)) (c.reg 0) then guestPc + bImm raw else guestPc + 2)
  rw [reg_of_zero hzero, reg_of_zero hzero, hzero, ← branchCond_holds, hop]
  exact emitBranch_leaves hcond

theorem shift_corresponds {op : ShiftOp} {x86 : X86.Shift}
    (hop : ∀ (rd : Reg) (shamt : U32),
      emitOpShift rd rd shamt op = emitShiftImm rd rd shamt x86) {rd : Reg} (hrd : rd ≠ 0) :
    Corresponds h guestPc (emitShift rd x86 (shamt raw), .seq)
      (some (.shift op rd rd (RiscvEmu.Rvc.shamt (raw.setWidth 32)))) := by
  refine .full _ ?_
  rw [emitShift_eq hrd x86 (shamt_eq raw), ← hop]
  rfl

/-- The group of `C.SRLI`, `C.SRAI`, `C.ANDI` and the register-register operations. -/
theorem group_corresponds :
    Corresponds h guestPc
      (match (raw >>> 10) &&& 0x3 with
      | 0b00#16 => (emitShift (rp raw 7) .shr (shamt raw), .seq)
      | 0b01#16 => (emitShift (rp raw 7) .sar (shamt raw), .seq)
      | 0b10#16 => (emitImm (rp raw 7) (rp raw 7) .and (imm6 raw), .seq)
      | _ => emitArith raw)
      (RiscvEmu.Rvc.quadrant1 (raw.setWidth 32) 4) := by
  unfold RiscvEmu.Rvc.quadrant1
  simp only [funct2_eq, rp_eq, imm6_eq]
  rcases two_bits (raw >>> 10) with h10 | h10 | h10 | h10
  · rw [h10]
    exact shift_corresponds raw (fun _ _ => rfl) (rp_ne_zero raw 7)
  · rw [h10]
    exact shift_corresponds raw (fun _ _ => rfl) (rp_ne_zero raw 7)
  · rw [h10]
    refine .full (.opImm .andi (rp raw 7) (rp raw 7) (imm6 raw)) ?_
    change (emitImm (rp raw 7) (rp raw 7) .and (imm6 raw), Effect.seq) = _
    rw [emitImm_eq (rp_ne_zero raw 7)]
    rfl
  · rw [h10]
    exact arith_corresponds raw

theorem quadrant1_corresponds (f : U16) :
    Corresponds h guestPc (emitQuadrant1 raw guestPc f)
      (RiscvEmu.Rvc.quadrant1 (raw.setWidth 32) (f.setWidth 32)) := by
  unfold emitQuadrant1
  simp only
  split
  case h_1 =>
    have hdec : RiscvEmu.Rvc.quadrant1 (raw.setWidth 32) 0 =
        some (.opImm .addi (r5 raw 7) (r5 raw 7) (imm6 raw)) := by
      rw [← imm6_eq, ← r5_eq]
      rfl
    refine hdec ▸ ?_
    split
    · rename_i hrd
      rw [hrd]
      exact .skip rfl rfl fun _ => rfl
    · rename_i hrd
      refine .full _ ?_
      rw [emitImm_eq hrd]
      rfl
  case h_2 =>
    split
    · exact .unhandled rfl
    · rename_i hrd
      have hdec : RiscvEmu.Rvc.quadrant1 (raw.setWidth 32) 1 =
          some (.opImm .addiw (r5 raw 7) (r5 raw 7) (imm6 raw)) := by
        rw [← imm6_eq, ← r5_eq]
        exact if_neg (r5_eq raw 7 ▸ hrd)
      refine hdec ▸ .full _ ?_
      rw [emitAluW, result_eq hrd]
      rfl
  case h_3 =>
    have hdec : RiscvEmu.Rvc.quadrant1 (raw.setWidth 32) 2 =
        some (.opImm .addi (r5 raw 7) 0 (imm6 raw)) := by
      rw [← imm6_eq, ← r5_eq]
      rfl
    refine hdec ▸ ?_
    split
    · rename_i hrd
      rw [hrd]
      exact .skip rfl rfl fun _ => rfl
    · rename_i hrd
      refine .write rfl rfl (fun _ => rfl) fun c hzero => ?_
      have hv : IOp.addi.eval (c.reg 0) (imm6 raw) = imm6 raw := BitVec.zero_add _
      rw [hv]
      exact constant_falls hrd (imm6_fits raw)
  case h_4 =>
    split
    · rename_i hrd
      split
      · exact .unhandled rfl
      · rename_i hne
        have hdec : RiscvEmu.Rvc.quadrant1 (raw.setWidth 32) 3 =
            some (.opImm .addi 2 2 (addi16spImm raw)) := by
          rw [← addi16spImm_eq] at hne ⊢
          refine (if_pos ((r5_eq raw 7).trans hrd)).trans (if_neg fun hzero => hne ?_)
          rw [hzero]
          rfl
        refine hdec ▸ .full _ ?_
        rw [emitImm_eq (show (2 : Reg) ≠ 0 by decide)]
        rfl
    · rename_i hrd
      split
      · rename_i hne
        split
        · exact .unhandled rfl
        · rename_i himm
          have hdec : RiscvEmu.Rvc.quadrant1 (raw.setWidth 32) 3 =
              some (.lui (r5 raw 7) (imm6 raw <<< 12)) := by
            rw [← luiImm_eq, ← r5_eq]
            refine (if_neg (r5_eq raw 7 ▸ hrd)).trans ((if_pos (r5_eq raw 7 ▸ hne)).trans
              (if_neg ?_))
            rwa [luiImm_eq, imm6_eq_zero]
          refine hdec ▸ .full _ ?_
          change _ = (emitConst (r5 raw 7) (imm6 raw <<< 12), Effect.seq)
          rw [emitConst, if_pos hne]
          rfl
      · exact .unhandled rfl
  case h_5 => exact group_corresponds raw
  case h_6 =>
    have hdec : RiscvEmu.Rvc.quadrant1 (raw.setWidth 32) 5 = some (.jal 0 (jImm raw)) := by
      rw [← jImm_eq]
      rfl
    exact hdec ▸ .full _ rfl
  case h_7 =>
    have hdec : RiscvEmu.Rvc.quadrant1 (raw.setWidth 32) 6 =
        some (.branch .beq (rp raw 7) 0 (bImm raw)) := by
      rw [← bImm_eq, ← rp_eq]
      rfl
    exact hdec ▸ branch_corresponds raw rfl fun v => by simp
  case h_8 =>
    have hdec : RiscvEmu.Rvc.quadrant1 (raw.setWidth 32) 7 =
        some (.branch .bne (rp raw 7) 0 (bImm raw)) := by
      rw [← bImm_eq, ← rp_eq]
      rfl
    exact hdec ▸ branch_corresponds raw rfl fun v => by simp
  case h_9 => exact .unhandled rfl

/-- The hint forms of `C.ADD`, which the emitter skips. -/
def AddHint (raw : U16) : Prop :=
  raw &&& 0x3 = 0b10 ∧ raw >>> 13 = 0b100 ∧ (raw >>> 12) &&& 0x1 = 1 ∧ r5 raw 7 = 0 ∧ r5 raw 2 ≠ 0

instance : Decidable (AddHint raw) := inferInstanceAs (Decidable (_ ∧ _ ∧ _ ∧ _ ∧ _))

theorem jr_corresponds {rs1 : Reg} :
    Corresponds h guestPc ([.mov .qword .rcx (regMem rs1)] ++ emitReturnRcx, .terminal)
      (some (.jalr 0 rs1 0)) := by
  refine .own _ rfl rfl fun c hzero => ?_
  change Leaves h _ c (c.setReg 0 _) ((c.reg rs1 + 0) &&& ~~~(1 : U64))
  rw [setReg_zero, reg_of_zero hzero, show c.regs rs1 + 0 = c.regs rs1 from BitVec.add_zero _]
  exact jump_leaves

theorem jalr_corresponds {rs1 : Reg} :
    Corresponds h guestPc
      ([.mov .qword .rcx (regMem rs1), .movAbs .rax (guestPc + 2)] ++ result 1 ++ emitReturnRcx,
        .terminal)
      (some (.jalr 1 rs1 0)) := by
  refine .own _ rfl rfl fun c hzero => ?_
  change Leaves h _ c (c.setReg 1 (guestPc + 2)) ((c.reg rs1 + 0) &&& ~~~(1 : U64))
  rw [reg_of_zero hzero,
    show c.regs rs1 + 0 = c.regs rs1 from BitVec.add_zero _]
  exact link_leaves (by decide)

theorem mv_corresponds {rd rs2 : Reg} (hrd : rd ≠ 0) :
    Corresponds h guestPc ([.mov .qword .rax (regMem rs2)] ++ result rd, .seq)
      (some (.op .add rd 0 rs2)) := by
  refine .write rfl rfl (fun _ => rfl) fun c hzero => ?_
  have hv : ROp.add.eval (c.reg 0) (c.reg rs2) = c.regs rs2 :=
    (BitVec.zero_add _).trans (reg_of_zero hzero rs2)
  rw [hv]
  exact move_falls hrd

theorem add_corresponds {rd rs2 : Reg} (hrd : rd ≠ 0) :
    Corresponds h guestPc (emitAlu rd rs2 .add, .seq) (some (.op .add rd rd rs2)) := by
  refine .write rfl rfl (fun _ => rfl) fun c hzero => ?_
  change Falls h _ c (c.setReg rd (c.reg rd + c.reg rs2))
  rw [reg_of_zero hzero, reg_of_zero hzero]
  exact emitAlu_falls hrd .add

theorem jumpOrMove_corresponds
    (hhint : ¬ ((raw >>> 12) &&& 0x1 = 1 ∧ r5 raw 7 = 0 ∧ r5 raw 2 ≠ 0)) :
    Corresponds h guestPc (emitJumpOrMove raw guestPc)
      (RiscvEmu.Rvc.jumpOrMove (raw.setWidth 32)) := by
  unfold emitJumpOrMove RiscvEmu.Rvc.jumpOrMove
  simp only [bit_eq, r5_eq]
  have hzero : ¬ (1 : U16) = 0 := by decide
  have hone : (1 : U16).setWidth 32 = 1 := rfl
  have hclear : (0 : U16).setWidth 32 = 0 := rfl
  rcases and_one_cases (raw >>> 12) with h12 | h12
  · rw [show (raw >>> 12) &&& 0x1 = 0 from h12]
    by_cases hrs2 : r5 raw 2 = 0
    · by_cases hrs1 : r5 raw 7 = 0
      · simp only [hrs1, hrs2, and_self, if_true]
        exact .unhandled rfl
      · simp only [hrs1, hrs2, hclear, ne_eq, not_false_eq_true, and_self, if_true, if_false]
        exact jr_corresponds
    · simp only [hrs2, hclear, ne_eq, not_false_eq_true, and_false, and_self, if_true, if_false]
      by_cases hrd : r5 raw 7 = 0
      · rw [if_pos hrd, hrd]
        exact .skip rfl rfl fun _ => rfl
      · rw [if_neg hrd]
        exact mv_corresponds hrd
  · rw [show (raw >>> 12) &&& 0x1 = 1 from h12] at hhint ⊢
    by_cases hrs2 : r5 raw 2 = 0
    · by_cases hrs1 : r5 raw 7 = 0
      · simp only [hrs1, hrs2, hzero, false_and, if_true, if_false]
        exact .unhandled rfl
      · simp only [hrs1, hrs2, hzero, hone, ne_eq, not_false_eq_true, and_false,
          and_self, and_true, if_true, if_false]
        exact jalr_corresponds
    · have hrd : ¬ r5 raw 7 = 0 := fun hrd => hhint ⟨rfl, hrd, hrs2⟩
      simp only [hrd, hrs2, hzero, hone, ne_eq, not_false_eq_true, and_false,
        and_self, and_true, if_true, if_false]
      exact add_corresponds hrd

theorem quadrant2_corresponds (f : U16)
    (hhint : f = 4 → ¬ ((raw >>> 12) &&& 0x1 = 1 ∧ r5 raw 7 = 0 ∧ r5 raw 2 ≠ 0)) :
    Corresponds h guestPc (emitQuadrant2 h raw guestPc f)
      (RiscvEmu.Rvc.quadrant2 (raw.setWidth 32) (f.setWidth 32)) := by
  unfold emitQuadrant2
  simp only
  split
  case h_1 =>
    have hdec : RiscvEmu.Rvc.quadrant2 (raw.setWidth 32) 0 =
        some (.shift .slli (r5 raw 7) (r5 raw 7) (RiscvEmu.Rvc.shamt (raw.setWidth 32))) := by
      rw [← r5_eq]
      rfl
    refine hdec ▸ ?_
    split
    · rename_i hrd
      rw [hrd]
      exact .skip rfl rfl fun _ => rfl
    · rename_i hrd
      exact shift_corresponds raw (fun _ _ => rfl) hrd
  case h_2 =>
    split
    · exact .unhandled rfl
    · rename_i hrd
      have hdec : RiscvEmu.Rvc.quadrant2 (raw.setWidth 32) 3 =
          some (.load .ld (r5 raw 7) 2 (ldspImm raw)) := by
        rw [← ldspImm_eq, ← r5_eq]
        exact if_neg (r5_eq raw 7 ▸ hrd)
      exact hdec ▸ .full _ rfl
  case h_3 => exact jumpOrMove_corresponds raw (hhint rfl)
  case h_4 =>
    have hdec : RiscvEmu.Rvc.quadrant2 (raw.setWidth 32) 7 =
        some (.store .sd 2 (r5 raw 2) (sdspImm raw)) := by
      rw [← sdspImm_eq, ← r5_eq]
      rfl
    exact hdec ▸ .full _ rfl
  case h_5 => exact .unhandled rfl

end Rvc

open RiscvEmu.Jit.Rvc (Corresponds AddHint)

variable {guestPc : U64} {raw : U16}

theorem quad_eq : raw.setWidth 32 &&& 0x3 = (raw &&& 0x3).setWidth 32 := by
  rw [BitVec.setWidth_and]
  rfl

theorem funct3_eq :
    (raw.setWidth 32 >>> (13 : Nat)) &&& 0x7 = (raw >>> (13 : Nat)).setWidth 32 := by
  refine (Rvc.wide_field raw (by decide) 13 0x7).trans (congrArg _ (BitVec.eq_of_toNat_eq ?_))
  have hraw := raw.isLt
  rw [BitVec.toNat_and, BitVec.toNat_ushiftRight, Nat.shiftRight_eq_div_pow]
  exact (Nat.and_two_pow_sub_one_eq_mod _ 3).trans (Nat.mod_eq_of_lt (by omega))

/-- Every encoding but the hint forms of `C.ADD` corresponds to the decoder. -/
theorem emitRvc_corresponds (h : Host) (guestPc : U64) (hhint : ¬ AddHint raw) :
    Corresponds h guestPc (emitRvc h raw guestPc) (decodeRvc? (raw.setWidth 32)) := by
  unfold emitRvc decodeRvc?
  simp only [quad_eq, funct3_eq]
  rcases Rvc.two_bits raw with hq | hq | hq | hq
  · rw [hq]
    exact Rvc.quadrant0_corresponds raw (raw >>> 13)
  · rw [hq]
    exact Rvc.quadrant1_corresponds raw (raw >>> 13)
  · rw [hq]
    exact Rvc.quadrant2_corresponds raw (raw >>> 13) fun hf hand => hhint ⟨hq, hf, hand⟩
  · rw [hq]
    exact .unhandled rfl

/-- The emitter skips the hint forms of `C.ADD`. -/
theorem emitRvc_hint (hhint : AddHint raw) : emitRvc h raw guestPc = ([], .seq) := by
  obtain ⟨hq, hf, h12, hrd, hrs2⟩ := hhint
  unfold emitRvc
  simp only [hq, hf]
  change Rvc.emitJumpOrMove raw guestPc = _
  unfold Rvc.emitJumpOrMove
  rw [h12]
  simp [hrd, hrs2]

/-- The decoder rejects the hint forms of `C.ADD`. -/
theorem decodeRvc?_hint (hhint : AddHint raw) : decodeRvc? (raw.setWidth 32) = none := by
  obtain ⟨hq, hf, h12, hrd, hrs2⟩ := hhint
  unfold decodeRvc?
  simp only [quad_eq, funct3_eq, hq, hf]
  change RiscvEmu.Rvc.jumpOrMove (raw.setWidth 32) = _
  unfold RiscvEmu.Rvc.jumpOrMove
  simp only [Rvc.bit_eq, Rvc.r5_eq]
  rw [h12]
  simp [hrd, hrs2]

/-! ## Agreement -/

namespace Rvc.Corresponds

variable {emitted : Code × Effect} {decoded : Option Instruction} {inst : Instruction}

/-- The decoder accepts what has code. -/
theorem accepted (hcorr : Corresponds h guestPc emitted decoded) (heff : emitted.2 ≠ .unhandled) :
    ∃ inst, decoded = some inst := by
  cases hcorr with
  | unhandled hun => exact absurd hun heff
  | full inst => exact ⟨inst, rfl⟩
  | own inst => exact ⟨inst, rfl⟩

end Rvc.Corresponds

/-- Compiled code of a compressed encoding agrees with the interpreter: code without a call leaves
what the decoded instruction leaves, and an encoding the decoder rejects has no code. -/
def RvcAgrees (h : Host) (fpu : Fpu) (raw : U16) : Prop :=
  (∀ guestPc c, c.regs 0 = 0 → IsEven guestPc → (emitRvc h raw guestPc).2 ≠ .unhandled →
    (∀ target, .call target ∉ (emitRvc h raw guestPc).1) →
    ∃ inst r, decodeRvc raw = .ok inst ∧ execute fpu inst (atInst c guestPc 2) = some r ∧
      Agrees h (emitRvc h raw guestPc) c (guestPc + 2) r) ∧
  ((∀ inst, decodeRvc raw ≠ .ok inst) → ∀ guestPc, (emitRvc h raw guestPc).2 = .unhandled)

theorem call_mem_emitLoad {imm helper : U64} :
    .call .rax ∈ emitLoad h rd rs1 imm helper guestPc := by
  simp [emitLoad]

theorem call_mem_emitStore {imm helper : U64} :
    .call .rax ∈ emitStore h rs1 rs2 imm helper guestPc := by
  simp [emitStore]

/-- Code without a call is not that of a memory instruction. -/
theorem callsOut_of_no_call {nextSeq : U64} {inst : Instruction}
    (hcall : ∀ target, .call target ∉ (emitInst h guestPc nextSeq inst).1) :
    callsOut inst = false := by
  cases inst with
  | load op rd rs1 imm =>
      refine absurd ?_ (hcall .rax)
      cases op with
      | lb | lh | lw => exact List.mem_append_left _ call_mem_emitLoad
      | ld | lbu | lhu | lwu => exact call_mem_emitLoad
  | store op rs1 rs2 imm =>
      refine absurd ?_ (hcall .rax)
      cases op with
      | sb | sh | sw | sd => exact call_mem_emitStore
  | _ => rfl

/-- Code without a call does what the decoded instruction does. -/
theorem Rvc.Corresponds.agrees {emitted : Code × Effect} {inst : Instruction}
    (hcorr : Corresponds h guestPc emitted (some inst)) (fpu : Fpu) (hrange : inst.InRange)
    (heff : emitted.2 ≠ .unhandled) (hcall : ∀ target, .call target ∉ emitted.1)
    (hzero : c.regs 0 = 0) (heven : IsEven guestPc) :
    ∃ r, execute fpu inst (atInst c guestPc 2) = some r ∧ Agrees h emitted c (guestPc + 2) r := by
  cases hcorr with
  | unhandled hun => exact absurd hun heff
  | own _ hinline heff hdoes =>
      exact agrees_of_does hrange hinline heven heff (hdoes c hzero)
  | full _ hcode =>
      subst hcode
      have hout := callsOut_of_no_call hcall
      rcases (handled_iff h guestPc (guestPc + 2) inst).mp heff with hin | hcalls
      · exact emitInst_agrees hrange hin hzero heven
      · rw [hout] at hcalls
        cases hcalls

/-- The encodings on which compiled code agrees with the interpreter. -/
theorem rvcAgrees_iff (h : Host) (fpu : Fpu) (raw : U16) :
    RvcAgrees h fpu raw ↔ ¬ AddHint raw := by
  constructor
  · rintro ⟨-, hreject⟩ hhint
    have hnone : ∀ inst, decodeRvc raw ≠ .ok inst := fun inst hdec => by
      rw [decodeRvc_eq_ok, decodeRvc?_hint hhint] at hdec
      cases hdec
    have heff := hreject hnone 0
    rw [emitRvc_hint hhint] at heff
    cases heff
  · intro hhint
    refine ⟨fun guestPc c hzero heven heff hcall => ?_, fun hnone guestPc => ?_⟩
    · have hcorr := emitRvc_corresponds h guestPc hhint
      obtain ⟨inst, hdec⟩ := hcorr.accepted heff
      rw [hdec] at hcorr
      obtain ⟨r, hrun, hagrees⟩ :=
        hcorr.agrees fpu (decodeRvc?_inRange hdec) heff hcall hzero heven
      exact ⟨inst, r, decodeRvc_eq_ok.mpr hdec, hrun, hagrees⟩
    · by_contra heff
      obtain ⟨inst, hdec⟩ := (emitRvc_corresponds h guestPc hhint).accepted heff
      exact hnone inst (decodeRvc_eq_ok.mpr hdec)

/-- The hint `C.ADD x0, x1` is skipped, while the interpreter takes an exception. -/
theorem layoutHost_hint :
    ¬ ∀ raw : U16, raw &&& 0x3 ≠ 0x3 → RvcAgrees layoutHost default raw := by
  intro hall
  have hhint : AddHint 0x9006 := by decide
  have hnone : ∀ inst, decodeRvc 0x9006 ≠ .ok inst := fun inst hdec => by
    rw [decodeRvc_eq_ok, decodeRvc?_hint hhint] at hdec
    cases hdec
  have heff := (hall 0x9006 (by decide)).2 hnone 0
  rw [emitRvc_hint hhint] at heff
  cases heff

end RiscvEmu.Jit

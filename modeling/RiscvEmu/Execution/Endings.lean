import RiscvEmu.Cpu.Step

/-!
# How an instruction ends

Memory operations change the bus and the translation cache, and nothing else of the hart.  So an
exception leaves the hart as it was but for those two and what the trap entry writes, with one
exception: the floating-point paths that fall through to the code after the match.  An
instruction that retires changes the mode or the CSR file only if it is a CSR instruction, a
return, or a floating-point instruction that marks its state dirty.

`execute_ends` says this once, as an inductive with one case for each way.
-/

namespace RiscvEmu

namespace Cpu

/-! ## What memory operations leave alone -/

/-- The harts agree but for the bus and the translation cache. -/
structure OnlyMemory (c c' : Cpu) : Prop where
  regs : c'.regs = c.regs
  fregs : c'.fregs = c.fregs
  pc : c'.pc = c.pc
  csr : c'.csr = c.csr
  reservation : c'.reservation = c.reservation
  mode : c'.mode = c.mode
  instSize : c'.instSize = c.instSize
  jitInvalidate : c'.jitInvalidate = c.jitInvalidate
  fenceIPending : c'.fenceIPending = c.fenceIPending

namespace OnlyMemory

theorem refl (c : Cpu) : OnlyMemory c c := ⟨rfl, rfl, rfl, rfl, rfl, rfl, rfl, rfl, rfl⟩

theorem trans {c c' c'' : Cpu} (h : OnlyMemory c c') (h' : OnlyMemory c' c'') :
    OnlyMemory c c'' where
  regs := h'.regs.trans h.regs
  fregs := h'.fregs.trans h.fregs
  pc := h'.pc.trans h.pc
  csr := h'.csr.trans h.csr
  reservation := h'.reservation.trans h.reservation
  mode := h'.mode.trans h.mode
  instSize := h'.instSize.trans h.instSize
  jitInvalidate := h'.jitInvalidate.trans h.jitInvalidate
  fenceIPending := h'.fenceIPending.trans h.fenceIPending

theorem ofBus (c : Cpu) (b : Bus) : OnlyMemory c { c with bus := b } :=
  ⟨rfl, rfl, rfl, rfl, rfl, rfl, rfl, rfl, rfl⟩

theorem ofUnit (c : Cpu) (m : Mmu) (b : Bus) : OnlyMemory c { c with mmu := m, bus := b } :=
  ⟨rfl, rfl, rfl, rfl, rfl, rfl, rfl, rfl, rfl⟩

end OnlyMemory

/-- A computation on the hart that changes the bus and the translation cache only. -/
abbrev KeepsHart {ε α : Type} (m : Run Cpu ε α) : Prop := Run.Keeps OnlyMemory m

namespace KeepsHart

theorem pure {ε α : Type} (a : α) : KeepsHart (Pure.pure a : Run Cpu ε α) :=
  Run.Keeps.pure OnlyMemory.refl a

theorem bind {ε α β : Type} {m : Run Cpu ε α} {f : α → Run Cpu ε β} (hm : KeepsHart m)
    (hf : ∀ a, KeepsHart (f a)) : KeepsHart (m >>= f) :=
  Run.Keeps.bind (R := OnlyMemory) (fun _ _ _ h h' => h.trans h') hm hf

end KeepsHart

theorem translate_keepsHart (mode : PrivMode) (va : U64) (access : AccessType) :
    KeepsHart (translate mode va access) := by
  intro c r c' h
  obtain ⟨r₀, s, _, _, rfl⟩ := Run.zoom_eq_some h
  exact .ofUnit c s.1 s.2

theorem translateOrTrap_keepsHart (mode : PrivMode) (va : U64) (access : AccessType) :
    KeepsHart (translateOrTrap mode va access) :=
  Run.Keeps.zoom (translate_keepsHart mode va access) fun _ _ h => h

theorem busLoad_keepsHart (pa : U64) (width : Width) (trap : Trap) :
    KeepsHart (busLoad pa width trap) := by
  intro c r c' h
  obtain ⟨r₀, b, _, _, rfl⟩ := Run.zoom_eq_some h
  exact .ofBus c b

theorem busStore_keepsHart (pa : U64) (width : Width) (value : U64) (trap : Trap) :
    KeepsHart (busStore pa width value trap) := by
  intro c r c' h
  obtain ⟨r₀, b, _, _, rfl⟩ := Run.zoom_eq_some h
  exact .ofBus c b

/-- A relation of harts that the parts of every memory operation meet. -/
structure MemoryClosed (R : Cpu → Cpu → Prop) : Prop where
  refl : ∀ c, R c c
  trans : ∀ c c' c'', R c c' → R c' c'' → R c c''
  translateOrTrap : ∀ mode va access, Run.Keeps R (translateOrTrap mode va access)
  busLoad : ∀ pa width trap, Run.Keeps R (busLoad pa width trap)
  busStore : ∀ pa width value trap, Run.Keeps R (busStore pa width value trap)

namespace MemoryClosed

variable {R : Cpu → Cpu → Prop} (hR : MemoryClosed R)

include hR

theorem pure {ε α : Type} (a : α) : Run.Keeps R (Pure.pure a : Run Cpu ε α) :=
  Run.Keeps.pure hR.refl a

theorem bind {ε α β : Type} {m : Run Cpu ε α} {f : α → Run Cpu ε β} (hm : Run.Keeps R m)
    (hf : ∀ a, Run.Keeps R (f a)) : Run.Keeps R (m >>= f) :=
  Run.Keeps.bind hR.trans hm hf

theorem loadBytes (pa va : U64) (k : Nat) :
    ∀ (n i : Nat) (v : U64), Run.Keeps R (loadBytes pa va k n i v)
  | 0, _, _ => hR.pure _
  | n + 1, i, _ => hR.bind (hR.busLoad _ _ _) fun _ => loadBytes pa va k n (i + 1) _

theorem storeBytes (pa va : U64) (k : Nat) (val : U64) :
    ∀ n i : Nat, Run.Keeps R (storeBytes pa va k val n i)
  | 0, _ => hR.pure _
  | n + 1, i => hR.bind (hR.busStore _ _ _ _) fun _ => storeBytes pa va k val n (i + 1)

theorem mmuLoad (lsMode : PrivMode) (va : U64) (width : Width) :
    Run.Keeps R (mmuLoad lsMode va width) := by
  rw [Cpu.mmuLoad]
  split
  · exact hR.bind (hR.translateOrTrap _ _ _) fun _ => hR.busLoad _ _ _
  · exact hR.bind (hR.translateOrTrap _ _ _) fun _ =>
      hR.bind (hR.translateOrTrap _ _ _) fun _ =>
        hR.bind (hR.loadBytes _ _ _ _ _ _) fun _ => hR.loadBytes _ _ _ _ _ _

theorem mmuStore (lsMode : PrivMode) (va : U64) (width : Width) (val : U64) :
    Run.Keeps R (mmuStore lsMode va width val) := by
  rw [Cpu.mmuStore]
  split
  · exact hR.bind (hR.translateOrTrap _ _ _) fun _ => hR.busStore _ _ _ _
  · exact hR.bind (hR.translateOrTrap _ _ _) fun _ =>
      hR.bind (hR.translateOrTrap _ _ _) fun _ =>
        hR.bind (hR.storeBytes _ _ _ _ _ _) fun _ => hR.storeBytes _ _ _ _ _ _

theorem fetch (mode : PrivMode) (pc : U64) : Run.Keeps R (fetch mode pc) := by
  refine hR.bind (hR.translateOrTrap _ _ _) fun pa => hR.bind (hR.busLoad _ _ _) fun lo => ?_
  dsimp only
  split
  · exact hR.pure _
  · have hhi : ∀ paHi : U64, Run.Keeps R (do
        let hi ← Cpu.busLoad paHi .b2 ⟨1, pc + 2⟩
        let hi16 : U16 := hi.setWidth 16
        Pure.pure ((lo.setWidth 16).setWidth 32 ||| (hi16.setWidth 32 <<< 16) : U32)) :=
      fun _ => hR.bind (hR.busLoad _ _ _) fun _ => hR.pure _
    split
    · exact hR.bind (hR.translateOrTrap _ _ _) hhi
    · exact hR.bind (hR.pure _) hhi

end MemoryClosed

theorem onlyMemory_closed : MemoryClosed OnlyMemory :=
  ⟨.refl, fun _ _ _ => .trans, translateOrTrap_keepsHart, busLoad_keepsHart, busStore_keepsHart⟩

theorem mmuLoad_keepsHart (lsMode : PrivMode) (va : U64) (width : Width) :
    KeepsHart (mmuLoad lsMode va width) := onlyMemory_closed.mmuLoad lsMode va width

theorem mmuStore_keepsHart (lsMode : PrivMode) (va : U64) (width : Width) (val : U64) :
    KeepsHart (mmuStore lsMode va width val) := onlyMemory_closed.mmuStore lsMode va width val

theorem fetch_keepsHart (mode : PrivMode) (pc : U64) : KeepsHart (fetch mode pc) :=
  onlyMemory_closed.fetch mode pc

/-! ## Taking a computation apart -/

/-- A memory operation raises its trap, or it hands its result to the rest of the instruction. -/
theorem orRaise_eq_some {α : Type} {m : Run Cpu Trap α} {k : α → Cpu → Option Retired} {c : Cpu}
    {r : Retired} (h : orRaise m k c = some r) :
    (∃ t c', m c = some (.error t, c') ∧ r = c'.raise t) ∨
      (∃ a c', m c = some (.ok a, c') ∧ k a c' = some r) := by
  rw [orRaise] at h
  cases hm : m c with
  | none => rw [hm] at h; cases h
  | some p =>
      obtain ⟨r₀, c'⟩ := p
      rw [hm] at h
      cases r₀ with
      | error t =>
          cases h
          exact Or.inl ⟨t, c', rfl, rfl⟩
      | ok a => exact Or.inr ⟨a, c', rfl, h⟩

section Registers

variable (c : Cpu) (n : Reg) (val : U64)

@[simp] theorem setReg_csr : (c.setReg n val).csr = c.csr := by
  rw [setReg]; split <;> rfl

@[simp] theorem setReg_mode : (c.setReg n val).mode = c.mode := by
  rw [setReg]; split <;> rfl

@[simp] theorem setReg_bus : (c.setReg n val).bus = c.bus := by
  rw [setReg]; split <;> rfl

theorem setJit_mode (p : Prop) [Decidable p] :
    (if p then { c with jitInvalidate := true } else c).mode = c.mode := by
  split <;> rfl

theorem setJit_bus (p : Prop) [Decidable p] :
    (if p then { c with jitInvalidate := true } else c).bus = c.bus := by
  split <;> rfl

theorem setJit_csr (p : Prop) [Decidable p] :
    (if p then { c with jitInvalidate := true } else c).csr = c.csr := by
  split <;> rfl

end Registers

/-- A register after it was written. -/
theorem reg_setReg (c : Cpu) (rd : Reg) (v : U64) :
    (c.setReg rd v).reg rd = if rd = 0 then 0 else v := by
  rw [reg, setReg]
  by_cases hrd : rd = 0
  · rw [if_pos hrd, if_pos hrd]
  · rw [if_neg hrd, if_neg hrd, if_pos hrd]
    exact Function.update_self rd v c.regs

theorem reg_setReg_ne (c : Cpu) {x rd : Reg} (hx : x ≠ rd) (v : U64) :
    (c.setReg rd v).reg x = c.reg x := by
  rw [reg, reg, setReg]
  by_cases hrd : rd = 0
  · rw [if_neg (not_not.mpr hrd)]
  · rw [if_pos hrd]
    dsimp only
    rw [Function.update_of_ne hx]

/-! ## What a trap entry leaves alone -/

theorem deliverTrap_regs (c : Cpu) (cause tval : U64) :
    (c.deliverTrap cause tval).regs = c.regs ∧ (c.deliverTrap cause tval).fregs = c.fregs := by
  rw [deliverTrap]
  split
  · exact ⟨rfl, rfl⟩
  · exact ⟨rfl, rfl⟩

@[simp] theorem raise_bus {c : Cpu} (t : Trap) : (c.raise t).cpu.bus = c.bus := by
  rw [raise, deliverTrap]
  split <;> rfl

/-! ## Illegal floating-point encodings -/

/-- The function codes the arms of `OP-FP` know. -/
def opFpCodes : List U8 :=
  [0x00, 0x01, 0x04, 0x05, 0x08, 0x09, 0x0C, 0x0D, 0x10, 0x11, 0x14, 0x15, 0x20, 0x21, 0x2C, 0x2D,
    0x50, 0x51, 0x60, 0x61, 0x68, 0x69, 0x70, 0x71, 0x78, 0x79]

/-- The encodings whose exception falls through to the code after the match: an unknown
operation, or an unknown selector of a minimum, a maximum, a move or a classification. -/
def IllegalFp : Instruction → Prop
  | .opFp funct7 _ _ rm _ =>
      funct7 ∉ opFpCodes ∨ (funct7 ∈ [0x14#8, 0x15#8, 0x70#8, 0x71#8] ∧ rm ≠ 0 ∧ rm ≠ 1)
  | .fma opcode fmt _ _ _ _ =>
      opcode ∉ [0x43#8, 0x47#8, 0x4B#8, 0x4F#8] ∨ (fmt ≠ 0 ∧ fmt ≠ 1)
  | _ => False

theorem fcompare_ne {w : Nat} (ops : FloatOps w) (rm : U8) (a b : BitVec w) :
    fcompare ops rm a b ≠ .illegalFallthrough := by
  unfold fcompare
  split <;> simp

theorem fcvtToInt_ne {w : Nat} (ops : FloatOps w) (rs2 : Reg) (a : BitVec w) :
    fcvtToInt ops rs2 a ≠ .illegalFallthrough := by
  unfold fcvtToInt
  split <;> simp

theorem fcvtFromInt_ne {w : Nat} (ops : FloatOps w) (box : BitVec w → U64) (rs2 : Reg) (a : U64) :
    fcvtFromInt ops box rs2 a ≠ .illegalFallthrough := by
  unfold fcvtFromInt
  split <;> simp

theorem fminMax_eq_fallthrough {w : Nat} (f : FloatFormat w) (ops : FloatOps w)
    (box : BitVec w → U64) (rm : U8) (a b : BitVec w) :
    fminMax f ops box rm a b = .illegalFallthrough ↔ rm ≠ 0 ∧ rm ≠ 1 := by
  unfold fminMax
  split <;> simp_all

theorem opFpResult_eq_fallthrough (fpu : Fpu) (c : Cpu) (funct7 : U8) (rs2 rs1 : Reg) (rm : U8)
    (rd : Reg) : opFpResult fpu c funct7 rs2 rs1 rm = .illegalFallthrough ↔
      IllegalFp (.opFp funct7 rs2 rs1 rm rd) := by
  unfold opFpResult
  dsimp only
  split
  case h_27 =>
    simp_all [IllegalFp, opFpCodes]
  all_goals
    simp only [IllegalFp, fcompare_ne, fcvtToInt_ne, fcvtFromInt_ne, fminMax_eq_fallthrough]
  all_goals first | (simp [opFpCodes]; done) | (split <;> simp_all [opFpCodes])

theorem fmaResult_eq_none {w : Nat} (f : FloatFormat w) (ops : FloatOps w) (opcode : U8)
    (a b c : BitVec w) :
    fmaResult f ops opcode a b c = none ↔ opcode ∉ [0x43#8, 0x47#8, 0x4B#8, 0x4F#8] := by
  unfold fmaResult
  split <;> simp_all

theorem fmaValue_eq_none (fpu : Fpu) (c : Cpu) (opcode fmt : U8) (rs3 rs2 rs1 rd : Reg) :
    fmaValue fpu c opcode fmt rs3 rs2 rs1 = none ↔
      IllegalFp (.fma opcode fmt rs3 rs2 rs1 rd) := by
  unfold fmaValue
  split
  · simp [IllegalFp, fmaResult_eq_none]
  · simp [IllegalFp, fmaResult_eq_none]
  · simp_all [IllegalFp]

theorem fmaFpResult_eq_fallthrough (fpu : Fpu) (c : Cpu) (opcode fmt : U8)
    (rs3 rs2 rs1 rd : Reg) : fmaFpResult fpu c opcode fmt rs3 rs2 rs1 = .illegalFallthrough ↔
      IllegalFp (.fma opcode fmt rs3 rs2 rs1 rd) := by
  rw [← fmaValue_eq_none fpu c, fmaFpResult]
  cases fmaValue fpu c opcode fmt rs3 rs2 rs1 <;> simp

/-! ## The memory part -/

/-- The memory operation of an instruction that can raise an exception, without its result. -/
def memoryPart (c : Cpu) : Instruction → Run Cpu Trap Unit
  | .load op _ rs1 imm => do
      let _ ← mmuLoad c.lsMode (c.reg rs1 + imm) op.width
      pure ()
  | .flw _ rs1 imm => do
      let _ ← mmuLoad c.lsMode (c.reg rs1 + imm) .b4
      pure ()
  | .fld _ rs1 imm => do
      let _ ← mmuLoad c.lsMode (c.reg rs1 + imm) .b8
      pure ()
  | .store op rs1 rs2 imm => mmuStore c.lsMode (c.reg rs1 + imm) op.width (c.reg rs2)
  | .fsw rs1 fs2 imm => mmuStore c.lsMode (c.reg rs1 + imm) .b4 (c.fregs fs2)
  | .fsd rs1 fs2 imm => mmuStore c.lsMode (c.reg rs1 + imm) .b8 (c.fregs fs2)
  | .lr width _ rs1 => do
      let pa ← translateOrTrap c.lsMode (c.reg rs1) .load
      let _ ← busLoad pa width.width ⟨5, c.reg rs1⟩
      pure ()
  | .sc _ _ rs1 _ | .amo _ _ _ rs1 _ => do
      let _ ← translateOrTrap c.lsMode (c.reg rs1) .store
      pure ()
  | _ => pure ()

theorem memoryPart_keepsHart (c : Cpu) (inst : Instruction) : KeepsHart (memoryPart c inst) := by
  cases inst with
  | load | flw | fld => exact .bind (mmuLoad_keepsHart _ _ _) fun _ => .pure _
  | store | fsw | fsd => exact mmuStore_keepsHart _ _ _ _
  | lr =>
      exact .bind (translateOrTrap_keepsHart _ _ _) fun _ =>
        .bind (busLoad_keepsHart _ _ _) fun _ => .pure _
  | sc | amo => exact .bind (translateOrTrap_keepsHart _ _ _) fun _ => .pure _
  | _ => exact .pure _

/-! ## The ways -/

/-- The CSR file with the floating-point state marked dirty. -/
def dirtyCsr (csr : Csr) : Csr := { csr with mstatus := csr.mstatus ||| 0x6000 }

/-- The result and the hart an instruction ends with. -/
inductive Ends (c : Cpu) : Instruction → Retired → Prop where
  /-- An exception, before anything was done. -/
  | raised {inst : Instruction} (t : Trap) : Ends c inst (c.raise t)
  /-- An exception of the memory part. -/
  | memory {inst : Instruction} {c' : Cpu} (t : Trap) :
      memoryPart c inst c = some (.error t, c') → Ends c inst (c'.raise t)
  /-- An illegal floating-point operation, on a path that falls through. -/
  | fpRaised {inst : Instruction} : IllegalFp inst →
      Ends c inst { c.raise ⟨2, 0⟩ with cpu := (c.raise ⟨2, 0⟩).cpu.markFsDirty }
  /-- The mode and the CSR file are as before. -/
  | plain {inst : Instruction} {c' : Cpu} (pc : U64) : c'.mode = c.mode → c'.csr = c.csr →
      Ends c inst (c'.retire pc)
  /-- The floating-point state is marked dirty. -/
  | dirty {inst : Instruction} {c' : Cpu} (pc : U64) : c'.mode = c.mode →
      c'.csr = dirtyCsr c.csr → Ends c inst (c'.retire pc)
  /-- A CSR is written. -/
  | csrWrite {op : CsrOp} {rd : Reg} {src : CsrSrc} {csr : CsrAddr} {c' : Cpu} (pc val : U64) :
      c'.mode = c.mode → c'.csr = c.csr.write csr val → Ends c (.csr op rd src csr) (c'.retire pc)
  /-- A return from an M-mode trap. -/
  | mret {r : Retired} : c.execMret = some r → Ends c .mret r
  /-- A return from an S-mode trap. -/
  | sret {c' : Cpu} (pc : U64) : c'.mode ≠ .m →
      c'.csr = { c.csr with mstatus := c.csr.mstatus &&& ~~~(1 <<< 17 : U64) }.sRet →
      Ends c .sret (c'.retire pc)

section Families

variable {c : Cpu} {inst : Instruction} {r : Retired}

theorem execWrite_ends {rd : Reg} {val : U64} (h : c.execWrite rd val = some r) :
    Ends c inst r := by
  cases h
  exact .plain _ (setReg_mode ..) (setReg_csr ..)

theorem execJump_ends {target : U64} {link : Cpu → Cpu} (hmode : (link c).mode = c.mode)
    (hcsr : (link c).csr = c.csr) (h : c.execJump target link = some r) : Ends c inst r := by
  rw [execJump] at h
  split at h
  · cases h
    exact .raised _
  · cases h
    exact .plain _ hmode hcsr

theorem execBranch_ends {op : BranchOp} {rs1 rs2 : Reg} {imm : U64}
    (h : c.execBranch op rs1 rs2 imm = some r) : Ends c inst r := by
  rw [execBranch] at h
  split at h
  · exact execJump_ends rfl rfl h
  · cases h
    exact .plain _ rfl rfl

/-- A load whose destination is written without touching the CSR file. -/
theorem execLoad_ends {rs1 : Reg} {imm : U64} {width : Width} {dest : U64 → Cpu → Cpu}
    (hmem : memoryPart c inst = do
      let _ ← mmuLoad c.lsMode (c.reg rs1 + imm) width
      pure ())
    (hmode : ∀ v c', (dest v c').mode = c'.mode)
    (hcsr : (∀ v c', (dest v c').csr = c'.csr) ∨ ∀ v c', (dest v c').csr = dirtyCsr c'.csr)
    (h : c.execLoad rs1 imm width dest = some r) : Ends c inst r := by
  rcases orRaise_eq_some h with ⟨t, c', hm, rfl⟩ | ⟨v, c', hm, hk⟩
  · exact .memory t (by rw [hmem, Run.bind_error hm])
  · have hkeep := mmuLoad_keepsHart _ _ _ _ _ _ hm
    cases hk
    rcases hcsr with hcsr | hcsr
    · exact .plain _ ((hmode v c').trans hkeep.mode) ((hcsr v c').trans hkeep.csr)
    · exact .dirty _ ((hmode v c').trans hkeep.mode) ((hcsr v c').trans (by rw [hkeep.csr]))

theorem execStore_ends {rs1 : Reg} {imm val : U64} {width : Width}
    (hmem : memoryPart c inst = mmuStore c.lsMode (c.reg rs1 + imm) width val)
    (h : c.execStore rs1 imm width val = some r) : Ends c inst r := by
  rcases orRaise_eq_some h with ⟨t, c', hm, rfl⟩ | ⟨_, c', hm, hk⟩
  · exact .memory t (by rw [hmem, hm])
  · have hkeep := mmuStore_keepsHart _ _ _ _ _ _ _ hm
    cases hk
    exact .plain _ hkeep.mode hkeep.csr

theorem execFp_ends {rd : Reg} {res : FpResult} (hres : res = .illegalFallthrough → IllegalFp inst)
    (h : c.execFp rd res = some r) : Ends c inst r := by
  cases res with
  | freg val =>
      cases h
      exact .dirty _ rfl rfl
  | ireg val =>
      cases h
      refine .dirty _ (setReg_mode ..) ?_
      rw [markFsDirty, setReg_csr]
      rfl
  | illegalReturn =>
      cases h
      exact .raised _
  | illegalFallthrough =>
      cases h
      exact .fpRaised (hres rfl)

theorem execSret_ends (h : c.execSret = some r) : Ends c .sret r := by
  rw [execSret] at h
  split at h
  · cases h
    exact .raised _
  · cases h
    refine .sret _ ?_ rfl
    dsimp only
    split <;> decide

theorem execSfenceVma_ends (h : c.execSfenceVma = some r) : Ends c inst r := by
  rw [execSfenceVma] at h
  split at h
  · cases h
    exact .raised _
  · cases h
    exact .plain _ rfl rfl

theorem execCsr_ends {op : CsrOp} {rd : Reg} {src : CsrSrc} {csr : CsrAddr}
    (h : c.execCsr op rd src csr = some r) : Ends c (.csr op rd src csr) r := by
  rw [execCsr] at h
  split at h
  · cases h
    exact .raised _
  · cases h
    by_cases hw : op = .csrrw ∨ (src ≠ .reg 0 ∧ src ≠ .imm 0)
    · simp only [if_pos hw]
      exact .csrWrite _ _ ((setJit_mode ..).trans (setReg_mode ..))
        ((setJit_csr ..).trans (setReg_csr ..))
    · simp only [if_neg hw]
      exact .plain _ ((setJit_mode ..).trans (setReg_mode ..))
        ((setJit_csr ..).trans (setReg_csr ..))

theorem execLr_ends {width : AmoWidth} {rd rs1 : Reg} (h : c.execLr width rd rs1 = some r) :
    Ends c (.lr width rd rs1) r := by
  rcases orRaise_eq_some h with ⟨t, c', hm, rfl⟩ | ⟨pa, c₁, hm, hk⟩
  · exact .memory t (Run.bind_error hm)
  · have hkeep := translateOrTrap_keepsHart _ _ _ _ _ _ hm
    rcases orRaise_eq_some hk with ⟨t, c', hl, rfl⟩ | ⟨v, c', hl, hr⟩
    · exact .memory t ((Run.bind_ok hm).trans (Run.bind_error hl))
    · have hkeep' := hkeep.trans (busLoad_keepsHart _ _ _ _ _ _ hl)
      cases hr
      exact .plain _ ((setReg_mode ..).trans hkeep'.mode) ((setReg_csr ..).trans hkeep'.csr)

theorem execSc_ends {width : AmoWidth} {rd rs1 rs2 : Reg}
    (h : c.execSc width rd rs1 rs2 = some r) : Ends c (.sc width rd rs1 rs2) r := by
  rcases orRaise_eq_some h with ⟨t, c', hm, rfl⟩ | ⟨pa, c₁, hm, hk⟩
  · exact .memory t (Run.bind_error hm)
  · have hkeep := translateOrTrap_keepsHart _ _ _ _ _ _ hm
    dsimp only at hk
    split at hk
    · cases hs : busStore pa width.width (c₁.reg rs2) ⟨7, c.reg rs1⟩ c₁ with
      | none => rw [hs] at hk; cases hk
      | some p =>
          obtain ⟨_, c'⟩ := p
          have hkeep' := hkeep.trans (busStore_keepsHart _ _ _ _ _ _ _ hs)
          rw [hs] at hk
          cases hk
          exact .plain _ ((setReg_mode ..).trans hkeep'.mode) ((setReg_csr ..).trans hkeep'.csr)
    · cases hk
      exact .plain _ ((setReg_mode ..).trans hkeep.mode) ((setReg_csr ..).trans hkeep.csr)

theorem execAmo_ends {op : AmoOp} {width : AmoWidth} {rd rs1 rs2 : Reg}
    (h : c.execAmo op width rd rs1 rs2 = some r) : Ends c (.amo op width rd rs1 rs2) r := by
  rcases orRaise_eq_some h with ⟨t, c', hm, rfl⟩ | ⟨pa, c₁, hm, hk⟩
  · exact .memory t (Run.bind_error hm)
  · have hkeep := translateOrTrap_keepsHart _ _ _ _ _ _ hm
    dsimp only at hk
    cases hl : busLoad pa width.width ⟨5, c.reg rs1⟩ c₁ with
    | none => rw [hl] at hk; cases hk
    | some p =>
        obtain ⟨r₀, c₂⟩ := p
        rw [hl] at hk
        dsimp only at hk
        split at hk
        · cases hk
        · rename_i hs
          have hkeep' := (hkeep.trans (busLoad_keepsHart _ _ _ _ _ _ hl)).trans
            (busStore_keepsHart _ _ _ _ _ _ _ hs)
          cases hk
          exact .plain _ ((setReg_mode ..).trans hkeep'.mode) ((setReg_csr ..).trans hkeep'.csr)

end Families

/-- An instruction ends in one of the ways. -/
theorem execute_ends {fpu : Fpu} {inst : Instruction} {c : Cpu} {r : Retired}
    (h : execute fpu inst c = some r) : Ends c inst r := by
  cases inst with
  | op | opImm | shift | lui | auipc => exact execWrite_ends h
  | load =>
      exact execLoad_ends rfl (fun _ _ => setReg_mode ..) (Or.inl fun _ _ => setReg_csr ..) h
  | flw | fld =>
      rw [execute] at h
      refine execLoad_ends rfl ?_ (Or.inr ?_) h <;> exact fun _ _ => rfl
  | store | fsw | fsd => exact execStore_ends rfl h
  | branch => exact execBranch_ends h
  | jal | jalr => exact execJump_ends (setReg_mode ..) (setReg_csr ..) h
  | fence | wfi =>
      cases h
      exact .plain _ rfl rfl
  | ecall | ebreak =>
      cases h
      exact .raised _
  | mret => exact .mret h
  | sret => exact execSret_ends h
  | sfenceVma => exact execSfenceVma_ends h
  | csr => exact execCsr_ends h
  | lr => exact execLr_ends h
  | sc => exact execSc_ends h
  | amo => exact execAmo_ends h
  | opFp => exact execFp_ends (opFpResult_eq_fallthrough ..).mp h
  | fma => exact execFp_ends (fmaFpResult_eq_fallthrough ..).mp h

end Cpu

end RiscvEmu

import RiscvEmu.Decoding.Fidelity
import RiscvEmu.Execution.Causes
import RiscvEmu.Execution.Traps

/-!
# Reserved encodings

A word is legal when it encodes a valid instruction.  A step of a word that is not legal should
raise an illegal-instruction exception and leave the registers alone.  The emulator does so for
every such word but the ones it accepts: those the decoder takes for an instruction although a
fixed field has another value, and the floating-point operations whose second source or rounding
mode it does not check.
-/

namespace RiscvEmu

namespace Isa

/-! ## Legal words -/

/-- The rounding modes that name none. -/
def reservedMode (rm : BitVec 3) : Prop := rm = 5 ∨ rm = 6

/-- The second source and the rounding mode that go with an `OP-FP` function. -/
def FpValid (f7 : BitVec 7) (rs2 : Reg) (rm : BitVec 3) : Prop :=
  match f7 with
  | 0x00#7 | 0x01#7 | 0x04#7 | 0x05#7 | 0x08#7 | 0x09#7 | 0x0C#7 | 0x0D#7 => ¬ reservedMode rm
  | 0x2C#7 | 0x2D#7 => rs2 = 0 ∧ ¬ reservedMode rm
  | 0x10#7 | 0x11#7 => rm = 0 ∨ rm = 1 ∨ rm = 2
  | 0x14#7 | 0x15#7 => rm = 0 ∨ rm = 1
  | 0x20#7 => rs2 = 1 ∧ ¬ reservedMode rm
  | 0x21#7 => rs2 = 0 ∧ ¬ reservedMode rm
  | 0x50#7 | 0x51#7 => rm = 0 ∨ rm = 1 ∨ rm = 2
  | 0x60#7 | 0x61#7 | 0x68#7 | 0x69#7 => rs2 ≤ 3 ∧ ¬ reservedMode rm
  | 0x70#7 | 0x71#7 => rs2 = 0 ∧ (rm = 0 ∨ rm = 1)
  | 0x78#7 | 0x79#7 => rs2 = 0 ∧ rm = 0
  | _ => False

/-- An instruction whose remaining fields name something. -/
def Inst.Valid : Inst → Prop
  | .opFp f7 rs2 _ rm _ => FpValid f7 rs2 rm
  | .fma _ fmt _ _ _ rm _ => (fmt = 0 ∨ fmt = 1) ∧ ¬ reservedMode rm
  | _ => True

/-- A word that encodes a valid instruction. -/
def Legal (w : U32) : Prop := ∃ i : Inst, i.Valid ∧ encode i = w

/-- The `OP-FP` words that are executed although they are not valid. -/
def FpLoose (f7 : BitVec 7) (rs2 : Reg) (rm : BitVec 3) : Prop :=
  match f7 with
  | 0x00#7 | 0x01#7 | 0x04#7 | 0x05#7 | 0x08#7 | 0x09#7 | 0x0C#7 | 0x0D#7 => reservedMode rm
  | 0x2C#7 | 0x2D#7 => rs2 ≠ 0 ∨ reservedMode rm
  | 0x20#7 => rs2 ≠ 1 ∨ reservedMode rm
  | 0x21#7 => rs2 ≠ 0 ∨ reservedMode rm
  | 0x60#7 | 0x61#7 | 0x68#7 | 0x69#7 => rs2 ≤ 3 ∧ reservedMode rm
  | 0x70#7 | 0x71#7 => rs2 ≠ 0 ∧ (rm = 0 ∨ rm = 1)
  | 0x78#7 | 0x79#7 => rs2 ≠ 0 ∨ rm ≠ 0
  | _ => False

/-- The words that are accepted although they are not legal. -/
inductive Accepted (w : U32) : Prop where
  | loose (h : Loose w)
  | opFp (hop : opcode w = 0x53) (h : FpLoose (funct7 w) (rs2 w).toFin (funct3 w))
  | fma {o : FmaOp} (hop : opcode w = fmaCode o)
      (hfmt : (funct7 w).extractLsb' 0 2 = 0 ∨ (funct7 w).extractLsb' 0 2 = 1)
      (hrm : reservedMode (funct3 w))

end Isa

open Isa

namespace Cpu

/-! ## Causes of memory traps -/

/-- The trap is not an illegal-instruction exception. -/
def NotIllegal (t : Trap) : Prop := t.cause ≠ 2

theorem notIllegal_ofMemory (t : Trap) (ht : t.OfMemory) : NotIllegal t := by
  intro h2
  rw [Trap.OfMemory, h2] at ht
  revert ht
  decide

/-! ## Execution of the loose words -/

section

variable {fpu : Fpu} {c : Cpu} {r : Retired}

theorem execJump_notIllegal {target : U64} {link : Cpu → Cpu}
    (h : c.execJump target link = some r) : Raises NotIllegal r := by
  rw [execJump] at h
  split at h
  · cases h
    exact .raise (by decide : (0 : U64) ≠ 2)
  · cases h
    exact .retire

/-- The instructions the loose words are taken for. -/
def LooseInst : Instruction → Prop
  | .shift .. | .lr .. | .sc .. | .amo .. | .jalr .. | .fence => True
  | _ => False

/-- They never raise an illegal-instruction exception. -/
theorem execute_notIllegal {inst : Instruction} (hl : LooseInst inst)
    (h : execute fpu inst c = some r) : Raises NotIllegal r := by
  cases inst with
  | shift | fence =>
      cases h
      exact .retire
  | jalr => exact execJump_notIllegal h
  | lr => exact execLr_raises notIllegal_ofMemory h
  | sc => exact execSc_raises notIllegal_ofMemory h
  | amo => exact execAmo_raises notIllegal_ofMemory h
  | _ => cases hl

end

end Cpu

/-! ## Decoding of the loose words -/

section

variable {w : U32}

theorem decode?_opImm (h : w &&& 0x7f = 0x13#32) :
    decode? w = some (decodeOpImm w ((w >>> 12) &&& 0x7) (reg w 7) (reg w 15)) := by
  unfold decode?
  rw [h]
  rfl

theorem decode?_opImm32 (h : w &&& 0x7f = 0x1B#32) :
    decode? w = decodeOpImm32 w ((w >>> 12) &&& 0x7) (reg w 7) (reg w 15) := by
  unfold decode?
  rw [h]
  rfl

theorem decode?_amo (h : w &&& 0x7f = 0x2F#32) :
    decode? w = decodeAmo w ((w >>> 12) &&& 0x7) (reg w 7) (reg w 15) (reg w 20) := by
  unfold decode?
  rw [h]
  rfl

/-- Every function of the atomics is decoded, whatever the width field is. -/
theorem decodeAmo_loose {f3 : U32} {rd rs1 rs2 : Reg}
    (hf5 : funct5 w = 0x02 ∨ funct5 w = 0x03 ∨ ∃ o, amoCode o = funct5 w) :
    ∃ inst, decodeAmo w f3 rd rs1 rs2 = some inst ∧ Cpu.LooseInst inst := by
  have hfield : (w >>> 27) &&& 0x1f = (funct5 w).setWidth 32 := by
    rw [shift_and_mask w 27 5 0x1f rfl]
    exact congrArg _ (extractLsb'_field w 25 7 2 5 (by decide)).symm
  unfold decodeAmo
  rw [hfield]
  rcases hf5 with h | h | ⟨o, h⟩
  · rw [h]
    exact ⟨_, rfl, trivial⟩
  · rw [h]
    exact ⟨_, rfl, trivial⟩
  · rw [← h]
    cases o <;> exact ⟨_, rfl, trivial⟩

/-- A loose word is taken for an instruction. -/
theorem Isa.Loose.decode (h : Loose w) : ∃ inst, decode? w = some inst ∧ Cpu.LooseInst inst := by
  have hopcode : ∀ {k : BitVec 7}, opcode w = k → w &&& 0x7f = k.setWidth 32 := by
    intro k hk
    rw [decodeOpcode_eq, hk]
  have hfunct3 : ∀ {k : BitVec 3}, funct3 w = k → (w >>> 12) &&& 0x7 = k.setWidth 32 := by
    intro k hk
    rw [decodeFunct3_eq, ← hk]
    rfl
  cases h with
  | slli hop hf3 =>
      rw [decode?_opImm (hopcode hop), hfunct3 hf3]
      exact ⟨_, rfl, trivial⟩
  | srli hop hf3 =>
      rw [decode?_opImm (hopcode hop), hfunct3 hf3]
      refine ⟨_, rfl, ?_⟩
      change Cpu.LooseInst (if (w >>> 30) &&& 1 = 0 then _ else _)
      split
      · trivial
      · trivial
  | slliw hop hf3 =>
      rw [decode?_opImm32 (hopcode hop), hfunct3 hf3]
      exact ⟨_, rfl, trivial⟩
  | srliw hop hf3 =>
      rw [decode?_opImm32 (hopcode hop), hfunct3 hf3]
      change ∃ inst, (if (w >>> 30) &&& 1 = 0 then _ else _) = some inst ∧ _
      split
      · exact ⟨_, rfl, trivial⟩
      · exact ⟨_, rfl, trivial⟩
  | lrSource hop hf5 =>
      rw [decode?_amo (hopcode hop)]
      exact decodeAmo_loose (.inl hf5)
  | amoWidth hop hf5 =>
      rw [decode?_amo (hopcode hop)]
      exact decodeAmo_loose hf5
  | jalr hop =>
      have hw := hopcode hop
      refine ⟨.jalr (reg w 7) (reg w 15) (iImm w), ?_, trivial⟩
      unfold decode?
      rw [hw]
      rfl
  | miscMem hop =>
      have hw := hopcode hop
      refine ⟨.fence, ?_, trivial⟩
      unfold decode?
      rw [hw]
      rfl

end

/-! ## Floating-point words -/

/-- The operation gives a value. -/
def FpResult.Writes : FpResult → Prop
  | .freg _ | .ireg _ => True
  | .illegalReturn | .illegalFallthrough => False

section

variable {f7 : BitVec 7} {rm : BitVec 3} {rs2 : Reg}

theorem injectedSign_eq_none (a b mask : U64) :
    injectedSign (rm.setWidth 8) a b mask = none ↔ ¬ (rm = 0 ∨ rm = 1 ∨ rm = 2) := by
  unfold injectedSign
  split
  case h_1 h | h_2 h | h_3 h =>
    cases field_of_wide (by decide) h
    simp
  case h_4 h0 h1 h2 =>
    refine ⟨fun _ => ?_, fun _ => rfl⟩
    rintro (rfl | rfl | rfl)
    exacts [h0 rfl, h1 rfl, h2 rfl]

theorem fcompare_writes {w : Nat} (ops : FloatOps w) (a b : BitVec w) :
    (fcompare ops (rm.setWidth 8) a b).Writes ↔ rm = 0 ∨ rm = 1 ∨ rm = 2 := by
  unfold fcompare
  split
  case h_1 h | h_2 h | h_3 h =>
    cases field_of_wide (by decide) h
    simp [FpResult.Writes]
  case h_4 h0 h1 h2 =>
    refine ⟨False.elim, ?_⟩
    rintro (rfl | rfl | rfl)
    exacts [h0 rfl, h1 rfl, h2 rfl]

theorem fminMax_writes {w : Nat} (f : FloatFormat w) (ops : FloatOps w) (box : BitVec w → U64)
    (a b : BitVec w) : (fminMax f ops box (rm.setWidth 8) a b).Writes ↔ rm = 0 ∨ rm = 1 := by
  unfold fminMax
  split
  case h_1 h | h_2 h =>
    cases field_of_wide (by decide) h
    simp [FpResult.Writes]
  case h_3 h0 h1 =>
    refine ⟨False.elim, ?_⟩
    rintro (rfl | rfl)
    exacts [h0 rfl, h1 rfl]

theorem le_three_iff (r : Reg) : r ≤ 3 ↔ r = 0 ∨ r = 1 ∨ r = 2 ∨ r = 3 := by
  revert r
  decide

theorem fcvtToInt_writes {w : Nat} (ops : FloatOps w) (a : BitVec w) :
    (fcvtToInt ops rs2 a).Writes ↔ rs2 ≤ 3 := by
  rw [le_three_iff]
  unfold fcvtToInt
  split
  case h_5 h0 h1 h2 h3 =>
    refine ⟨False.elim, ?_⟩
    rintro (rfl | rfl | rfl | rfl)
    exacts [h0 rfl, h1 rfl, h2 rfl, h3 rfl]
  all_goals simp [FpResult.Writes]

theorem fcvtFromInt_writes {w : Nat} (ops : FloatOps w) (box : BitVec w → U64) (a : U64) :
    (fcvtFromInt ops box rs2 a).Writes ↔ rs2 ≤ 3 := by
  rw [le_three_iff]
  unfold fcvtFromInt
  split
  case h_5 h0 h1 h2 h3 =>
    refine ⟨False.elim, ?_⟩
    rintro (rfl | rfl | rfl | rfl)
    exacts [h0 rfl, h1 rfl, h2 rfl, h3 rfl]
  all_goals simp [FpResult.Writes]

/-- The move or classification selected by the rounding-mode field. -/
theorem moveOrClass_writes (a b : U64) :
    (match (rm.setWidth 8 : U8) with
      | 0#8 => FpResult.ireg a
      | 1#8 => FpResult.ireg b
      | _ => FpResult.illegalFallthrough).Writes ↔ rm = 0 ∨ rm = 1 := by
  split
  case h_1 h | h_2 h =>
    cases field_of_wide (by decide) h
    simp [FpResult.Writes]
  case h_3 h0 h1 =>
    refine ⟨False.elim, ?_⟩
    rintro (rfl | rfl)
    exacts [h0 rfl, h1 rfl]

/-- The codes of the loose words are among those the emulator knows. -/
theorem fpLoose_code (h : FpLoose f7 rs2 rm) : (f7.setWidth 8 : U8) ∈ Cpu.opFpCodes := by
  unfold FpLoose at h
  split at h
  all_goals first | exact absurd h id | decide

/-- A word that is not valid gives a value exactly when it is loose. -/
theorem opFpResult_writes (fpu : Fpu) (c : Cpu) (rs1 : Reg) (hv : ¬ FpValid f7 rs2 rm) :
    (opFpResult fpu c (f7.setWidth 8) rs2 rs1 (rm.setWidth 8)).Writes ↔ FpLoose f7 rs2 rm := by
  unfold opFpResult
  dsimp only
  split
  case h_9 h | h_10 h | h_15 h | h_16 h =>
    cases field_of_wide (by decide) h
    exact iff_of_true trivial ((not_and_or.mp hv).imp_right not_not.mp)
  case h_11 h | h_12 h =>
    cases field_of_wide (by decide) h
    split
    · rename_i hsign
      rw [(injectedSign_eq_none ..).mpr hv] at hsign
      cases hsign
    · exact iff_of_false id id
  case h_13 h | h_14 h =>
    cases field_of_wide (by decide) h
    rw [fminMax_writes]
    exact iff_of_false hv id
  case h_17 h | h_18 h =>
    cases field_of_wide (by decide) h
    rw [fcompare_writes]
    exact iff_of_false hv id
  case h_19 h | h_20 h =>
    cases field_of_wide (by decide) h
    rw [fcvtToInt_writes]
    exact ⟨fun hle => ⟨hle, not_not.mp fun hr => hv ⟨hle, hr⟩⟩, And.left⟩
  case h_21 h | h_22 h =>
    cases field_of_wide (by decide) h
    rw [fcvtFromInt_writes]
    exact ⟨fun hle => ⟨hle, not_not.mp fun hr => hv ⟨hle, hr⟩⟩, And.left⟩
  case h_23 h | h_24 h =>
    cases field_of_wide (by decide) h
    refine (moveOrClass_writes _ _).trans ?_
    exact ⟨fun hrm => ⟨fun hrs2 => hv ⟨hrs2, hrm⟩, hrm⟩, And.right⟩
  case h_25 h | h_26 h =>
    cases field_of_wide (by decide) h
    exact iff_of_true trivial (not_and_or.mp hv)
  case h_27 =>
    refine iff_of_false id fun hl => ?_
    have hcode := fpLoose_code hl
    simp_all [Cpu.opFpCodes]
  -- the arithmetic operations check nothing
  all_goals
    rename_i h
    cases field_of_wide (by decide) h
    exact iff_of_true trivial (not_not.mp hv)

/-- A fused operation gives a value exactly when it has a format. -/
theorem fmaFpResult_writes (fpu : Fpu) (c : Cpu) (o : FmaOp) (fmt : BitVec 2) (rs3 rs2 rs1 : Reg) :
    (fmaFpResult fpu c ((fmaCode o).setWidth 8) (fmt.setWidth 8) rs3 rs2 rs1).Writes ↔
      fmt = 0 ∨ fmt = 1 := by
  have hop : ((fmaCode o).setWidth 8 : U8) ∈ [0x43#8, 0x47#8, 0x4B#8, 0x4F#8] := by
    cases o <;> decide
  have hfmt : ∀ v : BitVec 2, (v = 0 ∨ v = 1) ↔ ¬ (v.setWidth 8 ≠ 0#8 ∧ v.setWidth 8 ≠ 1#8) := by
    decide
  have hnone := Cpu.fmaValue_eq_none fpu c ((fmaCode o).setWidth 8) (fmt.setWidth 8) rs3 rs2 rs1 0
  rw [hfmt, fmaFpResult]
  cases hval : fmaValue fpu c ((fmaCode o).setWidth 8) (fmt.setWidth 8) rs3 rs2 rs1 with
  | none =>
      rcases hnone.mp hval with h | h
      · exact absurd hop h
      · exact iff_of_false id (not_not.mpr h)
  | some v =>
      refine iff_of_true trivial fun h => ?_
      rw [hnone.mpr (.inr h)] at hval
      cases hval

end

/-! ## Accepted words -/

section

theorem Isa.Loose.opcode_mem {w : U32} (h : Loose w) :
    opcode w ∈ [0x13#7, 0x1B#7, 0x2F#7, 0x67#7, 0x0F#7] := by
  cases h <;> simp [*]

theorem accepted_opFp {f7 : BitVec 7} {rs2 rs1 rd : Reg} {rm : BitVec 3} :
    Accepted (encode (.opFp f7 rs2 rs1 rm rd)) ↔ FpLoose f7 rs2 rm := by
  have hop : opcode (encode (.opFp f7 rs2 rs1 rm rd)) = 0x53 := opcode_layout ..
  have h7 : funct7 (encode (.opFp f7 rs2 rs1 rm rd)) = f7 := funct7_layout ..
  have h2 : (Isa.rs2 (encode (.opFp f7 rs2 rs1 rm rd))).toFin = rs2 :=
    congrArg BitVec.toFin (rs2_layout ..)
  have h3 : funct3 (encode (.opFp f7 rs2 rs1 rm rd)) = rm := funct3_layout ..
  constructor
  · intro h
    cases h with
    | loose h =>
        have hmem := h.opcode_mem
        rw [hop] at hmem
        exact absurd hmem (by decide)
    | opFp _ h => rwa [h7, h2, h3] at h
    | @fma o ho =>
        rw [hop] at ho
        cases o <;> exact absurd ho (by decide)
  · intro h
    refine .opFp hop ?_
    rwa [h7, h2, h3]

theorem accepted_fma {o : FmaOp} {fmt : BitVec 2} {rs3 rs2 rs1 rd : Reg} {rm : BitVec 3} :
    Accepted (encode (.fma o fmt rs3 rs2 rs1 rm rd)) ↔
      (fmt = 0 ∨ fmt = 1) ∧ reservedMode rm := by
  have hop : opcode (encode (.fma o fmt rs3 rs2 rs1 rm rd)) = fmaCode o := opcode_layout ..
  have h7 : (funct7 (encode (.fma o fmt rs3 rs2 rs1 rm rd))).extractLsb' 0 2 = fmt := by
    rw [show funct7 (encode (.fma o fmt rs3 rs2 rs1 rm rd)) = bits rs3 ++ fmt from
      funct7_layout ..]
    exact BitVec.extractLsb'_append_eq_right
  have h3 : funct3 (encode (.fma o fmt rs3 rs2 rs1 rm rd)) = rm := funct3_layout ..
  constructor
  · intro h
    cases h with
    | loose h =>
        have hmem := h.opcode_mem
        rw [hop] at hmem
        cases o <;> exact absurd hmem (by decide)
    | opFp ho =>
        rw [hop] at ho
        cases o <;> exact absurd ho (by decide)
    | fma _ hfmt hrm =>
        rw [h7] at hfmt
        rw [h3] at hrm
        exact ⟨hfmt, hrm⟩
  · rintro ⟨hfmt, hrm⟩
    refine .fma hop ?_ ?_
    · rwa [h7]
    · rwa [h3]

/-- The accepted words are decoded. -/
theorem Isa.Accepted.decode {w : U32} (h : Accepted w) : ∃ inst, decode? w = some inst := by
  cases h with
  | loose h =>
      obtain ⟨inst, hd, -⟩ := h.decode
      exact ⟨inst, hd⟩
  | opFp hop =>
      have hw := rFormat_fields w
      rw [hop] at hw
      have hd := decode?_encode (.opFp (funct7 w) (Isa.rs2 w).toFin (Isa.rs1 w).toFin (funct3 w)
        (Isa.rd w).toFin)
      rw [encode, hw] at hd
      exact ⟨_, hd⟩
  | @fma o hop =>
      obtain ⟨i, -, henc⟩ := fma_sound w hop.symm
      have hd := decode?_encode i
      rw [henc] at hd
      exact ⟨_, hd⟩

end

/-! ## Steps -/

namespace Cpu

/-- The hart is about to execute a word: no interrupt is taken, and the fetch gives the word. -/
structure Fetches (c : Cpu) (w : U32) (c' : Cpu) : Prop where
  quiet : c.nextInterrupt = none
  even : c.pc &&& 0x1 = 0
  fetch : Cpu.fetch c.mode c.pc c = some (.ok w, c')

/-- An illegal-instruction exception with the given value, and registers as before. -/
structure IllegalAt (c : Cpu) (tval : U64) (r : Retired) : Prop where
  trap : r.trap = some ⟨2, tval⟩
  mode : r.cpu.mode = (c.deliverTrap 2 tval).mode
  pc : r.cpu.pc = (c.deliverTrap 2 tval).pc
  report : if c.delegated 2 then r.cpu.csr.scause = 2 ∧ r.cpu.csr.stval = tval
    else r.cpu.csr.mcause = 2 ∧ r.cpu.csr.mtval = tval
  regs : r.cpu.regs = c.regs
  fregs : r.cpu.fregs = c.fregs

/-- The step of a word raises an illegal-instruction exception that reports the word or zero. -/
def Refused (fpu : Fpu) (c : Cpu) (w : U32) : Prop :=
  ∃ r tval, step fpu c = some r ∧ (tval = w.setWidth 64 ∨ tval = 0) ∧ IllegalAt c tval r

section

variable {fpu : Fpu} {c c' : Cpu} {w : U32}

/-- The exception, raised after a fetch. -/
theorem raise_illegalAt {c₁ : Cpu} (h : OnlyMemory c c₁) (size tval : U64) :
    IllegalAt c tval ({ c₁ with instSize := size }.raise ⟨2, tval⟩) := by
  have hsized : Cpu.mode { c₁ with instSize := size } = c.mode := h.mode
  obtain ⟨hmode, hcsr, hpc⟩ := deliverTrap_congr hsized h.csr h.pc 2 tval
  obtain ⟨hregs, hfregs⟩ := deliverTrap_regs { c₁ with instSize := size } 2 tval
  refine ⟨rfl, hmode, hpc, ?_, hregs.trans h.regs, hfregs.trans h.fregs⟩
  change if c.delegated 2 then
      (Cpu.deliverTrap { c₁ with instSize := size } 2 tval).csr.scause = 2 ∧
        (Cpu.deliverTrap { c₁ with instSize := size } 2 tval).csr.stval = tval
    else
      (Cpu.deliverTrap { c₁ with instSize := size } 2 tval).csr.mcause = 2 ∧
        (Cpu.deliverTrap { c₁ with instSize := size } 2 tval).csr.mtval = tval
  rw [hcsr, deliverTrap]
  split
  · exact ⟨rfl, rfl⟩
  · exact ⟨rfl, rfl⟩

/-- Marking the floating-point state does not touch what the exception reports. -/
theorem IllegalAt.markFsDirty {tval : U64} {r : Retired} (h : IllegalAt c tval r) :
    IllegalAt c tval { r with cpu := r.cpu.markFsDirty } :=
  ⟨h.trap, h.mode, h.pc, h.report, h.regs, h.fregs⟩

/-- A step of a fetched full encoding. -/
theorem step_of_fetches (fpu : Fpu) (hf : Fetches c w c') (hw : w &&& 0x3 = 0x3) :
    step fpu c =
      match decode? w with
      | none => some ({ c' with instSize := 4 }.raise ⟨2, w.setWidth 64⟩)
      | some inst => execute fpu inst { c' with instSize := 4 } := by
  have hsize : decodeFetched w = (4, (decode w).mapError fun _ => w.setWidth 64) := by
    rw [decodeFetched, if_neg (by rw [hw]; decide)]
  rw [step, hf.quiet]
  dsimp only
  rw [if_neg (not_not.mpr hf.even), orRaise, hf.fetch]
  dsimp only
  rw [executeFetched, hsize, decode]
  cases decode? w with
  | none => rfl
  | some inst => rfl

/-- The result of a floating-point instruction decides whether it is illegal. -/
theorem execFp_refused {c₁ : Cpu} (h : OnlyMemory c c₁) (size : U64) (rd : Reg) (res : FpResult)
    (hw : ¬ res.Writes) : ∃ r, execFp { c₁ with instSize := size } rd res = some r ∧
      IllegalAt c 0 r := by
  cases res with
  | freg | ireg => exact absurd trivial hw
  | illegalReturn => exact ⟨_, rfl, raise_illegalAt h size 0⟩
  | illegalFallthrough => exact ⟨_, rfl, (raise_illegalAt h size 0).markFsDirty⟩

theorem execFp_accepted {c₁ : Cpu} (rd : Reg) {res : FpResult} (hw : res.Writes) :
    ∀ r, execFp c₁ rd res = some r → r.trap = none := by
  intro r hr
  cases res with
  | freg | ireg =>
      cases hr
      rfl
  | illegalReturn | illegalFallthrough => exact absurd hw id

/-- A step that retires or raises another exception does not refuse its word. -/
theorem not_refused_of (h : ∀ r, step fpu c = some r → ∀ t ∈ r.trap, NotIllegal t) :
    ¬ Refused fpu c w := by
  rintro ⟨r, tval, hr, -, hill⟩
  exact h r hr _ hill.trap rfl

theorem refused_iff_opFp {f7 : BitVec 7} {rs2 rs1 rd : Reg} {rm : BitVec 3}
    (henc : encode (.opFp f7 rs2 rs1 rm rd) = w) (hv : ¬ FpValid f7 rs2 rm)
    (hkeep : OnlyMemory c c')
    (hstep : step fpu c = execute fpu (Inst.opFp f7 rs2 rs1 rm rd).decoded
      { c' with instSize := 4 }) :
    Refused fpu c w ↔ ¬ Accepted w := by
  have hwrites := opFpResult_writes fpu { c' with instSize := 4 } rs1 hv
  rw [← henc, accepted_opFp, ← hwrites]
  constructor
  · intro href hw
    refine not_refused_of (fun r hr => ?_) href
    rw [hstep] at hr
    rw [execFp_accepted rd hw r hr]
    intro t ht
    cases ht
  · intro hw
    obtain ⟨r, hr, hill⟩ := execFp_refused hkeep 4 rd _ hw
    exact ⟨r, 0, hstep.trans hr, .inr rfl, hill⟩

theorem refused_iff_fma {o : FmaOp} {fmt : BitVec 2} {rs3 rs2 rs1 rd : Reg} {rm : BitVec 3}
    (henc : encode (.fma o fmt rs3 rs2 rs1 rm rd) = w)
    (hv : ¬ ((fmt = 0 ∨ fmt = 1) ∧ ¬ reservedMode rm)) (hkeep : OnlyMemory c c')
    (hstep : step fpu c = execute fpu (Inst.fma o fmt rs3 rs2 rs1 rm rd).decoded
      { c' with instSize := 4 }) :
    Refused fpu c w ↔ ¬ Accepted w := by
  have hwrites := fmaFpResult_writes fpu { c' with instSize := 4 } o fmt rs3 rs2 rs1
  have hacc : Accepted (encode (.fma o fmt rs3 rs2 rs1 rm rd)) ↔ fmt = 0 ∨ fmt = 1 := by
    rw [accepted_fma]
    exact ⟨And.left, fun hfmt => ⟨hfmt, not_not.mp fun hr => hv ⟨hfmt, hr⟩⟩⟩
  rw [← henc, hacc, ← hwrites]
  constructor
  · intro href hw
    refine not_refused_of (fun r hr => ?_) href
    rw [hstep] at hr
    rw [execFp_accepted rd hw r hr]
    intro t ht
    cases ht
  · intro hw
    obtain ⟨r, hr, hill⟩ := execFp_refused hkeep 4 rd _ hw
    exact ⟨r, 0, hstep.trans hr, .inr rfl, hill⟩

/-- A word that is not legal is refused exactly when it is not among the accepted ones. -/
theorem refused_iff (hw : w &&& 0x3 = 0x3) (hl : ¬ Legal w) (hf : Fetches c w c') :
    Refused fpu c w ↔ ¬ Accepted w := by
  have hkeep : OnlyMemory c c' := fetch_keepsHart _ _ _ _ _ hf.fetch
  have hstep := step_of_fetches fpu hf hw
  cases hd : decode? w with
  | none =>
      rw [hd] at hstep
      refine iff_of_true ⟨_, _, hstep, .inl rfl, raise_illegalAt hkeep 4 _⟩ fun hacc => ?_
      obtain ⟨inst, hinst⟩ := hacc.decode
      rw [hd] at hinst
      cases hinst
  | some inst =>
      rw [hd] at hstep
      obtain ⟨i, rfl, henc | hloose⟩ := decode?_sound w hd
      · have hv : ¬ i.Valid := fun hv => hl ⟨i, hv, henc⟩
        cases i with
        | opFp => exact refused_iff_opFp henc hv hkeep hstep
        | fma => exact refused_iff_fma henc hv hkeep hstep
        | _ => exact absurd trivial hv
      · obtain ⟨inst, hinst, hli⟩ := hloose.decode
        rw [hd] at hinst
        cases hinst
        refine iff_of_false (not_refused_of fun r hr => ?_) (not_not.mpr (.loose hloose))
        exact execute_notIllegal hli (hstep.symm.trans hr)

/-- A hart in M-mode about to execute the given word. -/
def wordHart (word : U64) : Cpu :=
  Cpu.new ((Bus.new 0x1000 0x8000_0000).withWords [(0, word)]) 0x8000_0000

theorem wordHart_fetches (word : U64) (w : U32) (hquiet : (wordHart word).nextInterrupt = none)
    (hfetch : (Cpu.fetch .m 0x8000_0000 (wordHart word)).map (fun p => p.1.toOption)
      = some (some w)) : ∃ c', Fetches (wordHart word) w c' := by
  obtain ⟨⟨r, c'⟩, hrun, hr⟩ := Option.map_eq_some_iff.mp hfetch
  cases r with
  | error t => cases hr
  | ok raw =>
      cases hr
      exact ⟨c', hquiet, (by decide : (0x8000_0000 : U64) &&& 0x1 = 0), hrun⟩

/-- A word that is not decoded is refused. -/
theorem wordHart_ones : Refused default (wordHart 0xFFFF_FFFF) 0xFFFF_FFFF := by
  obtain ⟨c', hf⟩ := wordHart_fetches 0xFFFF_FFFF 0xFFFF_FFFF (by decide)
    (by decide)
  have hnone : decode? 0xFFFF_FFFF = none := by decide
  refine (refused_iff (by decide) ?_ hf).mpr ?_
  · rintro ⟨i, -, henc⟩
    have hd := decode?_encode i
    rw [henc, hnone] at hd
    cases hd
  · intro hacc
    obtain ⟨inst, hd⟩ := hacc.decode
    rw [hnone] at hd
    cases hd

/-- A count of leading zeros, which is taken for a left shift. -/
theorem wordHart_clz : ¬ ∀ (w : U32) (c c' : Cpu), w &&& 0x3 = 0x3 → ¬ Legal w →
    Fetches c w c' → Refused default c w := by
  intro hall
  obtain ⟨c', hf⟩ := wordHart_fetches 0x6003_1293 0x6003_1293 (by decide)
    (by decide)
  have hd : decode? 0x6003_1293 = some (.shift .slli 5 6 0) := by decide
  have hl : ¬ Legal 0x6003_1293 := by
    rintro ⟨i, -, henc⟩
    have hi := decode?_encode i
    rw [henc, hd] at hi
    cases i with
    | shift sh rd rs1 n =>
        injection hi with hi
        injection hi with hsh hrd hrs1 hn
        subst hsh hrd hrs1
        have hzero : ∀ n : Fin 64, (0 : U32) = BitVec.ofNat 32 n.val → n = 0 := by decide
        cases hzero n hn
        exact absurd henc (by decide)
    | _ => cases hi
  obtain ⟨r, tval, hr, -, hill⟩ := hall _ _ c' (by decide) hl hf
  have hstep : (step default (wordHart 0x6003_1293)).map Retired.trap = some none := by decide
  rw [hr] at hstep
  injection hstep with hnone
  rw [hill.trap] at hnone
  cases hnone

end

end Cpu

end RiscvEmu

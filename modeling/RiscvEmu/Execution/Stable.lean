import RiscvEmu.Execution.Privilege

/-!
# Invariants of the hart

An invariant that survives each of the small updates instructions are made of survives a step.
The updates are memory operations, register writes, CSR writes, trap entries, returns from traps,
and moves of the program counter to the next instruction or to an even target.

An invariant about what CSR instructions write, or about the floating-point state, may survive the
other updates only.  It survives the steps whose instruction is not one of these.
-/

namespace RiscvEmu

namespace Cpu

/-- A property of the hart that survives the updates of a step, but for writes of CSRs and changes
of the floating-point state. -/
structure Steady (I : Cpu → Prop) : Prop where
  memory : ∀ {c c' : Cpu}, OnlyMemory c c' → I c → I c'
  setReg : ∀ {c : Cpu} (rd : Reg) (v : U64), I c → I (c.setReg rd v)
  reservation : ∀ {c : Cpu} (a : Option U64), I c → I { c with reservation := a }
  instSize : ∀ {c : Cpu} {n : U64}, IsEven n → I c → I { c with instSize := n }
  trap : ∀ {c : Cpu} (cause tval : U64), I c → I (c.deliverTrap cause tval)
  next : ∀ {c : Cpu}, I c → I { c with pc := c.nextPc }
  jump : ∀ {c : Cpu} {target : U64}, IsEven target → I c → I { c with pc := target }
  mret : ∀ {c : Cpu} {r : Retired}, c.execMret = some r → I c → I r.cpu
  sret : ∀ {c : Cpu} {r : Retired}, c.execSret = some r → I c → I r.cpu

/-- A property of the hart that survives the updates of a step. -/
structure Stable (I : Cpu → Prop) : Prop extends Steady I where
  setFreg : ∀ {c : Cpu} (fd : Reg) (v : U64), I c → I (c.setFreg fd v)
  jitInvalidate : ∀ {c : Cpu}, I c → I { c with jitInvalidate := true }
  markFsDirty : ∀ {c : Cpu}, I c → I c.markFsDirty
  csrWrite : ∀ {c : Cpu} (addr : CsrAddr) (v : U64), I c → I (c.csrWrite addr v)

/-- The instruction writes no CSR and leaves the floating-point state. -/
def Ordinary : Instruction → Prop
  | .csr .. | .flw .. | .fld .. | .opFp .. | .fma .. => False
  | _ => True

namespace Steady

variable {I : Cpu → Prop} {c c' : Cpu} {r : Retired} {fpu : Fpu} {inst : Instruction}

/-- The invariant at the end of an instruction that goes on.  The address of the next one is that
of the hart the instruction started on. -/
theorem retire (hI : Steady I) {c' : Cpu} (hpc : c'.pc = c.pc) (hsize : c'.instSize = c.instSize)
    (hc : I c') : I (c'.retire c.nextPc).cpu := by
  have hnext : c.nextPc = c'.nextPc := by rw [nextPc, nextPc, hpc, hsize]
  rw [hnext]
  exact hI.next hc

theorem raise (hI : Steady I) (t : Trap) (hc : I c) : I (c.raise t).cpu := hI.trap _ _ hc

@[simp] theorem setReg_pc (c : Cpu) (rd : Reg) (v : U64) : (c.setReg rd v).pc = c.pc := by
  rw [Cpu.setReg]; split <;> rfl

@[simp] theorem setReg_instSize (c : Cpu) (rd : Reg) (v : U64) :
    (c.setReg rd v).instSize = c.instSize := by
  rw [Cpu.setReg]; split <;> rfl

/-- A memory operation, followed by code that keeps the invariant on any hart it leaves. -/
theorem orRaise (hI : Steady I) {α : Type} {m : Run Cpu Trap α}
    {k : α → Cpu → Option Retired} (hm : KeepsHart m)
    (hk : ∀ a c₁ r, OnlyMemory c c₁ → I c₁ → k a c₁ = some r → I r.cpu) (hc : I c)
    (h : orRaise m k c = some r) : I r.cpu := by
  rcases orRaise_eq_some h with ⟨t, c₁, hrun, rfl⟩ | ⟨a, c₁, hrun, hx⟩
  · exact hI.raise t (hI.memory (hm _ _ _ hrun) hc)
  · have hkeep := hm _ _ _ hrun
    exact hk a c₁ r hkeep (hI.memory hkeep hc) hx

theorem execJump (hI : Steady I) {target : U64} {link : Cpu → Cpu}
    (hlink : I c → I (link c)) (hc : I c) (h : c.execJump target link = some r) : I r.cpu := by
  rw [Cpu.execJump] at h
  split at h
  · cases h
    exact hI.raise _ hc
  · rename_i heven
    cases h
    exact hI.jump (not_not.mp heven) (hlink hc)

theorem execLoad (hI : Steady I) {rs1 : Reg} {imm : U64} {width : Width}
    {dest : U64 → Cpu → Cpu} (hdest : ∀ v c, I c → I (dest v c))
    (hpc : ∀ v c, (dest v c).pc = c.pc) (hsize : ∀ v c, (dest v c).instSize = c.instSize)
    (hc : I c) (h : c.execLoad rs1 imm width dest = some r) : I r.cpu := by
  refine hI.orRaise (mmuLoad_keepsHart _ _ _) (fun v c₁ r hkeep hc₁ hx => ?_) hc h
  cases hx
  exact hI.retire ((hpc v c₁).trans hkeep.pc) ((hsize v c₁).trans hkeep.instSize) (hdest v c₁ hc₁)

theorem execStore (hI : Steady I) {rs1 : Reg} {imm val : U64} {width : Width} (hc : I c)
    (h : c.execStore rs1 imm width val = some r) : I r.cpu := by
  refine hI.orRaise (mmuStore_keepsHart _ _ _ _) (fun _ c₁ r hkeep hc₁ hx => ?_) hc h
  cases hx
  exact hI.retire hkeep.pc hkeep.instSize hc₁

theorem execLr (hI : Steady I) {width : AmoWidth} {rd rs1 : Reg} (hc : I c)
    (h : c.execLr width rd rs1 = some r) : I r.cpu := by
  refine hI.orRaise (translateOrTrap_keepsHart _ _ _) (fun pa c₁ r hkeep hc₁ hx => ?_) hc h
  refine hI.orRaise (busLoad_keepsHart _ _ _) (fun v c₂ r hkeep' hc₂ hx => ?_) hc₁ hx
  cases hx
  have hall := hkeep.trans hkeep'
  exact hI.retire ((setReg_pc _ _ _).trans hall.pc) ((setReg_instSize _ _ _).trans hall.instSize)
    (hI.reservation _ (hI.setReg _ _ hc₂))

theorem execSc (hI : Steady I) {width : AmoWidth} {rd rs1 rs2 : Reg} (hc : I c)
    (h : c.execSc width rd rs1 rs2 = some r) : I r.cpu := by
  refine hI.orRaise (translateOrTrap_keepsHart _ _ _) (fun pa c₁ r hkeep hc₁ hx => ?_) hc h
  split at hx
  · cases hs : busStore pa width.width (c₁.reg rs2) ⟨7, c.reg rs1⟩ c₁ with
    | none => rw [hs] at hx; cases hx
    | some p =>
        rw [hs] at hx
        cases hx
        have hall := hkeep.trans (busStore_keepsHart _ _ _ _ _ _ _ hs)
        exact hI.retire ((setReg_pc _ _ _).trans hall.pc)
          ((setReg_instSize _ _ _).trans hall.instSize)
          (hI.reservation _ (hI.setReg _ _ (hI.memory hall hc)))
  · cases hx
    exact hI.retire ((setReg_pc _ _ _).trans hkeep.pc)
      ((setReg_instSize _ _ _).trans hkeep.instSize) (hI.reservation _ (hI.setReg _ _ hc₁))

theorem execAmo (hI : Steady I) {op : AmoOp} {width : AmoWidth} {rd rs1 rs2 : Reg} (hc : I c)
    (h : c.execAmo op width rd rs1 rs2 = some r) : I r.cpu := by
  refine hI.orRaise (translateOrTrap_keepsHart _ _ _) (fun pa c₁ r hkeep hc₁ hx => ?_) hc h
  cases hl : busLoad pa width.width ⟨5, c.reg rs1⟩ c₁ with
  | none => rw [hl] at hx; cases hx
  | some p =>
      obtain ⟨res, c₂⟩ := p
      rw [hl] at hx
      dsimp only at hx
      split at hx
      · cases hx
      · rename_i hs
        cases hx
        have hall := (hkeep.trans (busLoad_keepsHart _ _ _ _ _ _ hl)).trans
          (busStore_keepsHart _ _ _ _ _ _ _ hs)
        exact hI.retire ((setReg_pc _ _ _).trans hall.pc)
          ((setReg_instSize _ _ _).trans hall.instSize) (hI.setReg _ _ (hI.memory hall hc))

/-- An instruction that is not one of the others keeps the invariant. -/
theorem execute (hI : Steady I) (hinst : Ordinary inst) (hc : I c)
    (h : execute fpu inst c = some r) : I r.cpu := by
  cases inst with
  | op | opImm | shift | lui | auipc =>
      cases h
      exact hI.retire (setReg_pc _ _ _) (setReg_instSize _ _ _) (hI.setReg _ _ hc)
  | load =>
      exact hI.execLoad (fun _ _ => hI.setReg _ _) (fun _ _ => setReg_pc _ _ _)
        (fun _ _ => setReg_instSize _ _ _) hc h
  | store | fsw | fsd => exact hI.execStore hc h
  | branch op rs1 rs2 imm =>
      change c.execBranch op rs1 rs2 imm = some r at h
      rw [execBranch] at h
      split at h
      · exact hI.execJump (fun hc => hc) hc h
      · cases h
        exact hI.next hc
  | jal | jalr => exact hI.execJump (hI.setReg _ _) hc h
  | fence | wfi =>
      cases h
      exact hI.next hc
  | ecall | ebreak =>
      cases h
      exact hI.raise _ hc
  | mret => exact hI.mret h hc
  | sret => exact hI.sret h hc
  | sfenceVma =>
      change c.execSfenceVma = some r at h
      rw [execSfenceVma] at h
      split at h
      · cases h
        exact hI.raise _ hc
      · cases h
        exact hI.retire rfl rfl (hI.memory (.ofUnit c _ c.bus) hc)
  | lr => exact hI.execLr hc h
  | sc => exact hI.execSc hc h
  | amo => exact hI.execAmo hc h
  | csr | flw | fld | opFp | fma => exact hinst.elim

theorem decodeFetched_size (raw : U32) : IsEven (decodeFetched raw).1 := by
  rw [decodeFetched]
  split
  · exact (isEven_iff 2).mpr rfl
  · exact (isEven_iff 4).mpr rfl

/-- A step keeps the invariant, if it does so where it executes another instruction. -/
theorem step (hI : Steady I) (hc : I c)
    (hother : ∀ inst c', c.fetched = some (inst, c') → ¬ Ordinary inst → I c' →
      RiscvEmu.execute fpu inst c' = some r → I r.cpu)
    (h : step fpu c = some r) : I r.cpu := by
  cases hfetched : c.fetched with
  | some p =>
      obtain ⟨inst, c'⟩ := p
      obtain ⟨-, -, raw, c₁, hfetch, -, rfl⟩ := fetched_eq_some hfetched
      have hc' := hI.instSize (decodeFetched_size raw)
        (hI.memory (fetch_keepsHart _ _ _ _ _ hfetch) hc)
      rw [step_of_fetched hfetched] at h
      by_cases hord : Ordinary inst
      · exact hI.execute hord hc' h
      · exact hother inst _ hfetched hord hc' h
  | none =>
      rw [Cpu.step] at h
      split at h
      · cases h
        exact hI.raise _ hc
      · rename_i hint
        split at h
        · cases h
          exact hI.raise _ hc
        · rename_i heven
          rcases orRaise_eq_some h with ⟨t, c₁, hfetch, rfl⟩ | ⟨raw, c₁, hfetch, hx⟩
          · exact hI.raise _ (hI.memory (fetch_keepsHart _ _ _ _ _ hfetch) hc)
          · have hkeep := hI.memory (fetch_keepsHart _ _ _ _ _ hfetch) hc
            rw [executeFetched] at hx
            cases hdec : (decodeFetched raw).2 with
            | error tval =>
                simp only [hdec] at hx
                cases hx
                exact hI.raise _ (hI.instSize (decodeFetched_size raw) hkeep)
            | ok inst =>
                -- such a step executes an instruction
                rw [fetched, if_pos ⟨hint, not_not.mp heven⟩, hfetch] at hfetched
                simp only [hdec] at hfetched
                cases hfetched

end Steady

namespace Stable

open Steady

variable {I : Cpu → Prop} {c c' : Cpu} {r : Retired} {fpu : Fpu} {inst : Instruction}

theorem execFp (hI : Stable I) {rd : Reg} {res : FpResult} (hc : I c)
    (h : c.execFp rd res = some r) : I r.cpu := by
  cases res with
  | freg v =>
      cases h
      exact hI.retire rfl rfl (hI.markFsDirty (hI.setFreg rd v hc))
  | ireg v =>
      cases h
      exact hI.retire (setReg_pc c rd v) (setReg_instSize c rd v)
        (hI.markFsDirty (hI.setReg rd v hc))
  | illegalReturn =>
      cases h
      exact hI.raise _ hc
  | illegalFallthrough =>
      cases h
      exact hI.markFsDirty (hI.raise _ hc)

/-- The parts of a CSR instruction that are done under a condition. -/
theorem writeIf (hI : Stable I) (p : Prop) [Decidable p] (csr : CsrAddr) (v : U64) (hc : I c) :
    I (if p then c.csrWrite csr v else c) := by
  split
  · exact hI.csrWrite csr v hc
  · exact hc

theorem flagIf (hI : Stable I) (p : Prop) [Decidable p] (hc : I c) :
    I (if p then { c with jitInvalidate := true } else c) := by
  split
  · exact hI.jitInvalidate hc
  · exact hc

theorem writeIf_place (c : Cpu) (p : Prop) [Decidable p] (csr : CsrAddr) (v : U64) :
    (if p then c.csrWrite csr v else c).pc = c.pc ∧
      (if p then c.csrWrite csr v else c).instSize = c.instSize := by
  split <;> exact ⟨rfl, rfl⟩

theorem flagIf_place (c : Cpu) (p : Prop) [Decidable p] :
    (if p then { c with jitInvalidate := true } else c).pc = c.pc ∧
      (if p then { c with jitInvalidate := true } else c).instSize = c.instSize := by
  split <;> exact ⟨rfl, rfl⟩

theorem execCsr (hI : Stable I) {op : CsrOp} {rd : Reg} {src : CsrSrc} {csr : CsrAddr} (hc : I c)
    (h : c.execCsr op rd src csr = some r) : I r.cpu := by
  rw [Cpu.execCsr] at h
  split at h
  · cases h
    exact hI.raise _ hc
  · cases h
    refine hI.retire ?_ ?_ (hI.flagIf _ (hI.setReg _ _ (hI.writeIf _ _ _ hc)))
    · exact (flagIf_place _ _).1.trans ((setReg_pc _ _ _).trans (writeIf_place _ _ _ _).1)
    · exact (flagIf_place _ _).2.trans ((setReg_instSize _ _ _).trans (writeIf_place _ _ _ _).2)

/-- An instruction keeps the invariant. -/
theorem execute (hI : Stable I) (hc : I c) (h : execute fpu inst c = some r) : I r.cpu := by
  cases inst with
  | csr => exact hI.execCsr hc h
  | flw | fld =>
      exact hI.execLoad (fun _ _ hc => hI.markFsDirty (hI.setFreg _ _ hc)) (fun _ _ => rfl)
        (fun _ _ => rfl) hc h
  | opFp | fma => exact hI.execFp hc h
  | _ => exact hI.toSteady.execute (by exact trivial) hc h

/-- A step keeps the invariant. -/
theorem step (hI : Stable I) (hc : I c) (h : step fpu c = some r) : I r.cpu :=
  hI.toSteady.step hc (fun _ _ _ _ hc' hx => hI.execute hc' hx) h

end Stable

end Cpu

end RiscvEmu

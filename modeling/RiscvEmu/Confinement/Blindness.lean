import RiscvEmu.Confinement.Hidden
import RiscvEmu.Lib.Simulation

/-!
# A program does not see what is hidden from it

A step of a program in U-mode comes out the same whatever the bytes are that the tables do not map
for it, and so do the services between its steps.  A whole run then ends in the same state, with
those bytes as they were at the start (`user_blind`).
-/

namespace RiscvEmu

open Mmu

/-- What an instruction leaves, with other bytes in RAM at the addresses outside a set. -/
noncomputable def Retired.hide (V : U64 → Prop) (m : Nat → U8) (r : Retired) : Retired :=
  ⟨r.cpu.hide V m, r.trap⟩

namespace Cpu

variable {V : U64 → Prop} {m : Nat → U8} {c : Cpu}

theorem setReg_hide (rd : Reg) (v : U64) : (c.hide V m).setReg rd v = (c.setReg rd v).hide V m := by
  rw [setReg, setReg, apply_ite (hide V m)]
  rfl

theorem deliverTrap_hide (cause tval : U64) :
    (c.hide V m).deliverTrap cause tval = (c.deliverTrap cause tval).hide V m := by
  have hdelegated : (c.hide V m).delegated cause = c.delegated cause := rfl
  rw [deliverTrap, deliverTrap, hdelegated]
  split <;> rfl

theorem raise_hide (t : Trap) : (c.hide V m).raise t = (c.raise t).hide V m := by
  rw [raise, raise, deliverTrap_hide]
  rfl

theorem execWrite_hide (rd : Reg) (v : U64) :
    (c.hide V m).execWrite rd v = (c.execWrite rd v).map (.hide V m) := by
  rw [execWrite, execWrite, setReg_hide]
  rfl

theorem execJump_hide (target : U64) {link link' : Cpu → Cpu}
    (hlink : link' (c.hide V m) = (link c).hide V m) :
    (c.hide V m).execJump target link' = (c.execJump target link).map (.hide V m) := by
  rw [execJump, execJump]
  split
  · exact congrArg some (raise_hide _)
  · rw [hlink]
    rfl

theorem execBranch_hide (op : BranchOp) (rs1 rs2 : Reg) (imm : U64) :
    (c.hide V m).execBranch op rs1 rs2 imm = (c.execBranch op rs1 rs2 imm).map (.hide V m) := by
  have htaken : op.taken ((c.hide V m).reg rs1) ((c.hide V m).reg rs2) =
      op.taken (c.reg rs1) (c.reg rs2) := rfl
  rw [execBranch, execBranch, htaken]
  split
  · exact execJump_hide _ rfl
  · rfl

theorem execFp_hide (rd : Reg) (res : FpResult) :
    (c.hide V m).execFp rd res = (c.execFp rd res).map (.hide V m) := by
  cases res with
  | freg v => rfl
  | ireg v =>
      rw [execFp, execFp, setReg_hide]
      rfl
  | illegalReturn => exact congrArg some (raise_hide _)
  | illegalFallthrough =>
      rw [execFp, execFp, raise_hide]
      rfl

/-- A CSR instruction reads registers of control, and the timer. -/
theorem execCsr_hide (op : CsrOp) (rd : Reg) (src : CsrSrc) (csr : CsrAddr) :
    (c.hide V m).execCsr op rd src csr = (c.execCsr op rd src csr).map (.hide V m) := by
  have htvm : (c.hide V m).tvmTraps = c.tvmTraps := rfl
  have hread : (c.hide V m).csrRead csr = c.csrRead csr := rfl
  have hoperand : (c.hide V m).csrOperand src = c.csrOperand src := by cases src <;> rfl
  have hppn : ∀ c : Cpu, (c.hide V m).satpPpn = c.satpPpn := fun _ => rfl
  have hwrite : ∀ (p : Prop) [Decidable p] (new : U64),
      (if p then (c.hide V m).csrWrite csr new else c.hide V m) =
        (if p then c.csrWrite csr new else c).hide V m := by
    intro p _ new
    rw [apply_ite (hide V m)]
    rfl
  rw [execCsr, execCsr, htvm]
  split
  · exact congrArg some (raise_hide _)
  · dsimp only
    rw [hoperand, hread, hwrite, setReg_hide, hppn, hppn]
    generalize setReg _ rd _ = c₁
    split <;> rfl

end Cpu

namespace Sandbox

variable {B : Sandbox} {c : Cpu} {m : Nat → U8} {fpu : Fpu} {inst : Instruction}

/-! ## Instructions -/

/-- A memory operation that does not see hidden bytes, followed by code that does not. -/
theorem orRaise_hide {α : Type} {P : α → Prop} {x : Run Cpu Trap α}
    {k k' : α → Cpu → Option Retired}
    (hx : Run.IgnoresFrom B.Runs (Cpu.hide B.Visible m) x) (hensures : Run.Ensures B.Runs P x)
    (hk : ∀ a c₁, x c = some (.ok a, c₁) → P a → B.Runs c₁ →
      k' a (c₁.hide B.Visible m) = (k a c₁).map (.hide B.Visible m)) (hc : B.Runs c) :
    Cpu.orRaise x k' (c.hide B.Visible m) = (Cpu.orRaise x k c).map (.hide B.Visible m) := by
  rw [Cpu.orRaise, Cpu.orRaise, hx c hc]
  cases hrun : x c with
  | none => rfl
  | some p =>
      obtain ⟨r, c₁⟩ := p
      obtain ⟨hc₁, ha⟩ := hensures c r c₁ hc hrun
      cases r with
      | error t => exact congrArg some (Cpu.raise_hide t)
      | ok a => exact hk a c₁ hrun (ha a rfl) hc₁

theorem execLoad_hide {rs1 : Reg} {imm : U64} {width : Width} {dest : U64 → Cpu → Cpu}
    (hdest : ∀ v c, dest v (c.hide B.Visible m) = (dest v c).hide B.Visible m) (hc : B.Runs c) :
    (c.hide B.Visible m).execLoad rs1 imm width dest =
      (c.execLoad rs1 imm width dest).map (.hide B.Visible m) := by
  have hls : (c.hide B.Visible m).lsMode = .u := hc.lsMode
  rw [Cpu.execLoad, Cpu.execLoad, hls, hc.lsMode]
  refine orRaise_hide (mmuLoad_hide _ _) (mmuLoad_ensures _ _) (fun v c₁ _ _ _ => ?_) hc
  rw [hdest]
  rfl

theorem execStore_hide {rs1 : Reg} {imm val : U64} {width : Width} (hc : B.Runs c) :
    (c.hide B.Visible m).execStore rs1 imm width val =
      (c.execStore rs1 imm width val).map (.hide B.Visible m) := by
  have hls : (c.hide B.Visible m).lsMode = .u := hc.lsMode
  rw [Cpu.execStore, Cpu.execStore, hls, hc.lsMode]
  exact orRaise_hide (mmuStore_hide _ _ _) (mmuStore_ensures _ _ _) (fun _ c₁ _ _ _ => rfl) hc

theorem execLr_hide {width : AmoWidth} {rd rs1 : Reg} (hc : B.Runs c)
    (hpage : ¬ Cpu.Crosses (c.reg rs1) width.width) :
    (c.hide B.Visible m).execLr width rd rs1 =
      (c.execLr width rd rs1).map (.hide B.Visible m) := by
  have hls : (c.hide B.Visible m).lsMode = .u := hc.lsMode
  have hfit := not_not.mp hpage
  have hoff := Cpu.pageOff_eq (c.reg rs1)
  have hva : (c.hide B.Visible m).reg rs1 = c.reg rs1 := rfl
  rw [Cpu.execLr, Cpu.execLr, hls, hc.lsMode, hva]
  refine orRaise_hide (translateOrTrap_hide _ _) (translateOrTrap_ensures _ _)
    (fun pa c₁ _ hpa hc₁ => ?_) hc
  have hr := region_of_maps_zero hpa
  refine orRaise_hide (busLoad_hide hr (visible_of_maps hpa (by omega)) _) (busLoad_ensures hr _ _)
    (fun v c₂ _ _ _ => ?_) hc₁
  rw [Cpu.setReg_hide]
  rfl

theorem execSc_hide {width : AmoWidth} {rd rs1 rs2 : Reg} (hc : B.Runs c)
    (hpage : ¬ Cpu.Crosses (c.reg rs1) width.width) :
    (c.hide B.Visible m).execSc width rd rs1 rs2 =
      (c.execSc width rd rs1 rs2).map (.hide B.Visible m) := by
  have hls : (c.hide B.Visible m).lsMode = .u := hc.lsMode
  have hva : (c.hide B.Visible m).reg rs1 = c.reg rs1 := rfl
  rw [Cpu.execSc, Cpu.execSc, hls, hc.lsMode, hva]
  refine orRaise_hide (translateOrTrap_hide _ _) (translateOrTrap_ensures _ _)
    (fun pa c₁ _ hpa hc₁ => ?_) hc
  have hres : (c₁.hide B.Visible m).reservation = c₁.reservation := rfl
  have hreg : (c₁.hide B.Visible m).reg rs2 = c₁.reg rs2 := rfl
  rw [hres, hreg]
  split
  · rw [busStore_hide (writable_of_inPage hpage hpa) _ _ c₁ hc₁]
    cases Cpu.busStore pa width.width (c₁.reg rs2) _ c₁ with
    | none => rfl
    | some p =>
        rw [Option.map_some]
        dsimp only
        rw [Cpu.setReg_hide]
        rfl
  · rw [Cpu.setReg_hide]
    rfl

theorem execAmo_hide {op : AmoOp} {width : AmoWidth} {rd rs1 rs2 : Reg} (hc : B.Runs c)
    (hpage : ¬ Cpu.Crosses (c.reg rs1) width.width) :
    (c.hide B.Visible m).execAmo op width rd rs1 rs2 =
      (c.execAmo op width rd rs1 rs2).map (.hide B.Visible m) := by
  have hls : (c.hide B.Visible m).lsMode = .u := hc.lsMode
  have hva : (c.hide B.Visible m).reg rs1 = c.reg rs1 := rfl
  rw [Cpu.execAmo, Cpu.execAmo, hls, hc.lsMode, hva]
  refine orRaise_hide (translateOrTrap_hide _ _) (translateOrTrap_ensures _ _)
    (fun pa c₁ _ hpa hc₁ => ?_) hc
  have hr := region_of_maps_zero hpa
  have hwritable := writable_of_inPage hpage hpa
  dsimp only
  rw [busLoad_hide hr (fun i hi => (hwritable i hi).visible) _ c₁ hc₁]
  cases hl : Cpu.busLoad pa width.width ⟨5, c.reg rs1⟩ c₁ with
  | none => rfl
  | some p =>
      obtain ⟨r, c₂⟩ := p
      have hc₂ := (busLoad_ensures hr _ _ _ _ _ hc₁ hl).1
      have hreg : (c₂.hide B.Visible m).reg rs2 = c₂.reg rs2 := rfl
      rw [Option.map_some]
      dsimp only
      rw [hreg, busStore_hide hwritable _ _ c₂ hc₂]
      cases Cpu.busStore pa width.width _ _ c₂ with
      | none => rfl
      | some p =>
          rw [Option.map_some]
          dsimp only
          rw [Cpu.setReg_hide]
          rfl

/-- An instruction that U-mode allows does not see hidden bytes, unless it is an atomic that crosses
a page boundary. -/
theorem execute_hide (hc : B.Runs c) (hallowed : Allowed .u inst) (hpage : c.AtomicInPage inst) :
    execute fpu inst (c.hide B.Visible m) = (execute fpu inst c).map (.hide B.Visible m) := by
  cases inst with
  | op | opImm | shift | lui | auipc => exact Cpu.execWrite_hide _ _
  | load => exact execLoad_hide (fun _ _ => Cpu.setReg_hide _ _) hc
  | flw | fld => exact execLoad_hide (fun _ _ => rfl) hc
  | store | fsw | fsd => exact execStore_hide hc
  | branch => exact Cpu.execBranch_hide _ _ _ _
  | jal | jalr => exact Cpu.execJump_hide _ (Cpu.setReg_hide _ _)
  | fence | wfi => rfl
  | ecall | ebreak => exact congrArg some (Cpu.raise_hide _)
  | mret => cases hallowed
  | sret | sfenceVma => exact absurd rfl hallowed
  | csr => exact Cpu.execCsr_hide _ _ _ _
  | lr => exact execLr_hide hc hpage
  | sc => exact execSc_hide hc hpage
  | amo => exact execAmo_hide hc hpage
  | opFp | fma => exact Cpu.execFp_hide _ _

/-! ## Steps and services -/

/-- A step does not see hidden bytes. -/
theorem step_hide (hc : B.Runs c) (hplain : Plain c) :
    Cpu.step fpu (c.hide B.Visible m) = (Cpu.step fpu c).map (.hide B.Visible m) := by
  have hint : (c.hide B.Visible m).nextInterrupt = c.nextInterrupt := rfl
  have hpc : (c.hide B.Visible m).pc = c.pc := rfl
  have hmode : (c.hide B.Visible m).mode = c.mode := rfl
  rw [Cpu.step, Cpu.step, hint, hpc, hmode]
  cases hnext : c.nextInterrupt with
  | some code => exact congrArg some (Cpu.raise_hide _)
  | none =>
      dsimp only
      split
      · exact congrArg some (Cpu.raise_hide _)
      · rename_i heven
        have heven := not_not.mp heven
        rw [hc.mode]
        refine orRaise_hide (fetch_hide heven) (fetch_ensures heven)
          (fun raw c₁ hfetch _ hc₁ => ?_) hc
        rw [Cpu.executeFetched, Cpu.executeFetched]
        cases hdec : (Cpu.decodeFetched raw).2 with
        | error tval =>
            exact congrArg some
              (Cpu.raise_hide (c := { c₁ with instSize := (Cpu.decodeFetched raw).1 }) _)
        | ok inst =>
            have hsized : B.Runs { c₁ with instSize := (Cpu.decodeFetched raw).1 } :=
              hc₁.congr rfl rfl rfl rfl
            have hfetched : c.fetched =
                some (inst, { c₁ with instSize := (Cpu.decodeFetched raw).1 }) := by
              rw [Cpu.fetched, if_pos ⟨hnext, heven⟩, hc.mode, hfetch]
              simp only [hdec]
            obtain ⟨hallowed, hpage⟩ := hplain _ _ hfetched
            exact execute_hide hsized hallowed hpage

/-- A service does not see hidden bytes. -/
theorem poll_hide {V : U64 → Prop} (input : Jit.Input) :
    Jit.poll input (c.hide V m) = (Jit.poll input c).hide V m := by
  have hreceive : Jit.receive input (c.hide V m) = (Jit.receive input c).hide V m := by
    rw [Jit.receive, Jit.receive, apply_ite (Cpu.hide V m)]
    rfl
  have htimer : ∀ c : Cpu, Jit.timerLines (c.hide V m) = (Jit.timerLines c).hide V m := by
    intro c
    rw [Jit.timerLines, Jit.timerLines, apply_ite (Cpu.hide V m)]
    rfl
  have hserviced : Jit.serviced input (c.hide V m) = (Jit.serviced input c).hide V m := by
    rw [Jit.serviced, hreceive]
    exact congrArg Jit.externalLines (htimer (Jit.advanceClock input (Jit.receive input c)))
  have hint : ∀ c : Cpu, (c.hide V m).checkInterrupts.2 = c.checkInterrupts.2.hide V m := by
    intro c
    have hsame : (c.hide V m).nextInterrupt = c.nextInterrupt := rfl
    rw [Cpu.checkInterrupts, Cpu.checkInterrupts, hsame]
    split
    · exact Cpu.deliverTrap_hide _ _
    · rfl
  rw [Jit.poll_eq, Jit.poll_eq, hserviced, hint]

/-! ## Runs -/

/-- One event of the program. -/
theorem event_hide {c₀ : Cpu} {e : Event} (h : B.Lands c) (huser : InUser c e) :
    (hart fpu c₀).step e (c.hide B.Visible m) =
      ((hart fpu c₀).step e c).map (Cpu.hide B.Visible m) := by
  cases e with
  | step =>
      change (Cpu.step fpu (c.hide B.Visible m)).map Retired.cpu = _
      rw [step_hide (h.runs huser.1) huser.2, Option.map_map]
      change _ = ((Cpu.step fpu c).map Retired.cpu).map _
      rw [Option.map_map]
      rfl
  | serve input => exact congrArg some (poll_hide input)

/-- A program in U-mode whose instructions are not privileged, and whose atomics stay in their
pages, does not see the bytes of RAM that the tables do not map for it.  With any other bytes there,
a run of steps and services ends in the same state, and these bytes are as they were. -/
theorem user_blind (fpu : Fpu) (B : Sandbox) (c : Cpu) (m : Nat → U8) (es : List Event)
    (hstart : B.Runs c) (huser : (hart fpu c).Along InUser es c) :
    (hart fpu c).after es (c.hide B.Visible m) =
      ((hart fpu c).after es c).map (Cpu.hide B.Visible m) :=
  System.after_map (I := B.Lands) (fun _ _ _ h huser hevent => lands_event h huser hevent)
    (fun _ _ h huser => event_hide h huser) (.inl hstart) huser

/-- The program that stores a register in its page, whatever the other pages hold. -/
theorem storingHart_blind : (hart default storingHart).after [.step]
      (storingHart.hide uniformSandbox.Visible fun _ => 0xFF) =
    ((hart default storingHart).after [.step] storingHart).map
      (Cpu.hide uniformSandbox.Visible fun _ => 0xFF) := by
  have huser : InUser storingHart .step := And.intro rfl storingHart_plain
  exact user_blind default uniformSandbox storingHart (fun _ => 0xFF) [.step] storingHart_runs
    ⟨huser, fun _ _ => trivial⟩

end Sandbox

end RiscvEmu

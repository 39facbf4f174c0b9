import RiscvEmu.Runs.Interleaving

/-!
# Register 0

Register 0 holds zero in every run, also between the instructions of a block, so that reading the
register file and reading through the accessor are the same.
-/

namespace RiscvEmu.Jit

open Cpu (Stable)

theorem zeroReg_trap {c : Cpu} (cause tval : U64) (hc : ZeroReg c) :
    ZeroReg (c.deliverTrap cause tval) := by
  rw [Cpu.deliverTrap]
  split
  · exact hc
  · exact hc

theorem zeroReg_mret {c : Cpu} {r : Retired} (hr : c.execMret = some r) (hc : ZeroReg c) :
    ZeroReg r.cpu := by
  cases hr
  exact hc

theorem zeroReg_sret {c : Cpu} {r : Retired} (hr : c.execSret = some r) (hc : ZeroReg c) :
    ZeroReg r.cpu := by
  rw [Cpu.execSret] at hr
  split at hr
  · cases hr
    exact zeroReg_trap _ _ hc
  · cases hr
    exact hc

theorem zeroReg_stable : Stable ZeroReg where
  memory := zeroReg_memory
  setReg := zeroReg_setReg
  setFreg _ _ hc := hc
  markFsDirty hc := hc
  reservation _ hc := hc
  jitInvalidate hc := hc
  instSize _ hc := hc
  csrWrite _ _ hc := hc
  trap := zeroReg_trap
  next hc := hc
  jump _ hc := hc
  mret := zeroReg_mret
  sret := zeroReg_sret

theorem zeroReg_runStable : RunStable ZeroReg fun _ => True where
  toStable := zeroReg_stable
  pc _ hc := hc
  add _ _ := trivial
  clear _ := trivial
  place _ := trivial
  zero hc := hc
  mip _ hc := hc
  flags _ _ hc := hc

/-- Register 0 holds zero in every state of every run, and in every state inside the block at the
program counter. -/
theorem regs_zero_reached (h : Host) (bus : Bus) (entry : U64) (m : Machine)
    (hm : Reached h bus entry m) :
    m.cpu.regs 0 = 0 ∧ (∀ k, m.cpu.reg k = m.cpu.regs k) ∧
      ∀ code, m.jit.get m.cpu.pc = some code →
        ∃ raws, code = emitPrologue ++ emitRaws h m.cpu.pc raws ∧
          runBlock h code m.cpu = (runRaws m.cpu.pc raws m.cpu).returned ∧
          ∀ done, done <+: raws →
            (runRaws m.cpu.pc done m.cpu).All (fun c => c.regs 0 = 0) fun _ => True := by
  obtain ⟨hzero, hjit⟩ := zeroReg_runStable.reached rfl hm
  refine ⟨hzero, reg_of_zero hzero, fun code hget => ?_⟩
  obtain ⟨raws, hhandled, rfl⟩ := hjit _ _ hget
  exact ⟨raws, rfl, runBlock_does (emitRaws_does hhandled hzero), fun done _ =>
    runRaws_all zeroReg_blockStable trivial hzero⟩

theorem vectoredMachine_regs : vectoredMachine.cpu.regs 0 = 0 ∧
    ∀ k, vectoredMachine.cpu.reg k = vectoredMachine.cpu.regs k :=
  have h := regs_zero_reached layoutHost _ _ vectoredMachine vectoredMachine_reached
  ⟨h.1, h.2.1⟩

end RiscvEmu.Jit

import RiscvEmu.Runs.Registers
import RiscvEmu.Execution.Causes

/-!
# Parity of the program counter

From an even entry point the program counter and the two exception program counters stay even.
A misaligned fetch or jump therefore never happens, and a block never returns all ones as an
address: where it returns all ones, a callout reported a fault.
-/

namespace RiscvEmu.Jit

open Cpu (Stable)

/-- The hart is at an even address and returns from traps to even addresses. -/
structure Parity (c : Cpu) : Prop where
  zero : ZeroReg c
  pc : IsEven c.pc
  mepc : IsEven c.csr.mepc
  sepc : IsEven c.csr.sepc
  instSize : IsEven c.instSize

/-! ## Updates -/

theorem isEven_mul_four (v : U64) : IsEven (v * 4) := by
  rw [isEven_iff, BitVec.toNat_mul]
  change v.toNat * 4 % 2 ^ 64 % 2 = 0
  omega

theorem isEven_clearTwo (v : U64) : IsEven (v &&& ~~~(0x3 : U64)) := by
  rw [isEven_iff_bit]
  simp

/-- A trap enters at an even address, also a vectored one. -/
theorem trapPc_isEven (tvec cause : U64) : IsEven (trapPc tvec cause) := by
  rw [trapPc]
  split
  · exact (isEven_clearTwo tvec).add (isEven_mul_four _)
  · exact isEven_clearTwo tvec

/-- A write of a CSR leaves the exception program counters even. -/
theorem csrWrite_isEven {csr : Csr} (addr : CsrAddr) (v : U64)
    (hcsr : IsEven csr.mepc ∧ IsEven csr.sepc) :
    IsEven (csr.write addr v).mepc ∧ IsEven (csr.write addr v).sepc := by
  unfold Csr.write
  split
  case h_5 => exact ⟨isEven_clear v, hcsr.2⟩
  case h_11 => exact ⟨hcsr.1, isEven_clear v⟩
  case h_14 =>
    dsimp only
    split
    · exact hcsr
    · exact hcsr
  all_goals first | exact hcsr | (split <;> exact hcsr)

theorem Parity.trap {c : Cpu} (cause tval : U64) (hc : Parity c) :
    Parity (c.deliverTrap cause tval) := by
  rw [Cpu.deliverTrap]
  split
  · exact ⟨hc.zero, trapPc_isEven _ _, hc.mepc, hc.pc, hc.instSize⟩
  · exact ⟨hc.zero, trapPc_isEven _ _, hc.pc, hc.sepc, hc.instSize⟩

theorem Parity.setReg {c : Cpu} (rd : Reg) (v : U64) (hc : Parity c) : Parity (c.setReg rd v) := by
  have hzero := zeroReg_setReg rd v hc.zero
  rw [Cpu.setReg] at hzero ⊢
  split
  · rename_i hrd
    rw [if_pos hrd] at hzero
    exact ⟨hzero, hc.pc, hc.mepc, hc.sepc, hc.instSize⟩
  · exact hc

theorem Parity.memory {c c' : Cpu} (hkeep : Cpu.OnlyMemory c c') (hc : Parity c) : Parity c' where
  zero := zeroReg_memory hkeep hc.zero
  pc := hkeep.pc ▸ hc.pc
  mepc := hkeep.csr ▸ hc.mepc
  sepc := hkeep.csr ▸ hc.sepc
  instSize := hkeep.instSize ▸ hc.instSize

theorem Parity.atPc {c : Cpu} {pc : U64} (hpc : IsEven pc) (hc : Parity c) :
    Parity { c with pc := pc } := ⟨hc.zero, hpc, hc.mepc, hc.sepc, hc.instSize⟩

theorem Parity.mret {c : Cpu} {r : Retired} (hr : c.execMret = some r) (hc : Parity c) :
    Parity r.cpu := by
  rw [Cpu.execMret] at hr
  by_cases hmpp : (c.csr.mstatus >>> 11) &&& 3 = 3
  · simp only [hmpp] at hr
    cases hr
    exact ⟨hc.zero, hc.mepc, hc.mepc, hc.sepc, hc.instSize⟩
  · simp only [if_pos hmpp] at hr
    cases hr
    exact ⟨hc.zero, hc.mepc, hc.mepc, hc.sepc, hc.instSize⟩

theorem Parity.sret {c : Cpu} {r : Retired} (hr : c.execSret = some r) (hc : Parity c) :
    Parity r.cpu := by
  rw [Cpu.execSret] at hr
  split at hr
  · cases hr
    exact hc.trap _ _
  · cases hr
    exact ⟨hc.zero, hc.sepc, hc.mepc, hc.sepc, hc.instSize⟩

theorem parity_stable : Stable Parity where
  memory := Parity.memory
  setReg := Parity.setReg
  setFreg _ _ hc := ⟨hc.zero, hc.pc, hc.mepc, hc.sepc, hc.instSize⟩
  markFsDirty hc := ⟨hc.zero, hc.pc, hc.mepc, hc.sepc, hc.instSize⟩
  reservation _ hc := ⟨hc.zero, hc.pc, hc.mepc, hc.sepc, hc.instSize⟩
  jitInvalidate hc := ⟨hc.zero, hc.pc, hc.mepc, hc.sepc, hc.instSize⟩
  instSize hn hc := ⟨hc.zero, hc.pc, hc.mepc, hc.sepc, hn⟩
  csrWrite addr v hc :=
    have hcsr := csrWrite_isEven addr v ⟨hc.mepc, hc.sepc⟩
    ⟨hc.zero, hc.pc, hcsr.1, hcsr.2, hc.instSize⟩
  trap := Parity.trap
  next hc := hc.atPc (hc.pc.add hc.instSize)
  jump := Parity.atPc
  mret := Parity.mret
  sret := Parity.sret

theorem parity_runStable : RunStable Parity IsEven where
  toStable := parity_stable
  pc := Parity.atPc
  add := IsEven.add
  clear := isEven_clear
  place hc := hc.pc
  zero hc := hc.zero
  mip _ hc := ⟨hc.zero, hc.pc, hc.mepc, hc.sepc, hc.instSize⟩
  flags _ _ hc := ⟨hc.zero, hc.pc, hc.mepc, hc.sepc, hc.instSize⟩

/-! ## Misaligned addresses -/

/-- The exception is not that of a misaligned address. -/
def Aligned (t : Trap) : Prop := t.cause ≠ 0

theorem aligned_ofMemory (t : Trap) (ht : t.OfMemory) : Aligned t := by
  intro h0
  rw [Trap.OfMemory, h0] at ht
  revert ht
  decide

section

open Cpu (Raises)

variable {c : Cpu} {r : Retired} {fpu : Fpu} {inst : Instruction}

theorem execJump_aligned {target : U64} {link : Cpu → Cpu} (heven : IsEven target)
    (h : c.execJump target link = some r) : Raises Aligned r := by
  rw [Cpu.execJump] at h
  split at h
  · rename_i hodd
    exact absurd heven hodd
  · cases h
    exact .retire

theorem execFp_aligned {rd : Reg} {res : FpResult} (h : c.execFp rd res = some r) :
    Raises Aligned r := by
  cases res with
  | freg | ireg =>
      cases h
      exact .retire
  | illegalReturn =>
      cases h
      exact .raise (by decide : (2 : U64) ≠ 0)
  | illegalFallthrough =>
      cases h
      intro t ht
      cases ht
      exact (by decide : (2 : U64) ≠ 0)

/-- A decoded instruction at an even address goes to an even address. -/
theorem execute_aligned (hrange : inst.InRange) (hpc : IsEven c.pc)
    (h : execute fpu inst c = some r) : Raises Aligned r := by
  cases inst with
  | op | opImm | shift | lui | auipc | fence | wfi =>
      cases h
      exact .retire
  | load | flw | fld => exact Cpu.execLoad_raises aligned_ofMemory h
  | store | fsw | fsd => exact Cpu.execStore_raises aligned_ofMemory h
  | branch op rs1 rs2 imm =>
      change c.execBranch op rs1 rs2 imm = some r at h
      rw [Cpu.execBranch] at h
      split at h
      · exact execJump_aligned (hpc.add hrange) h
      · cases h
        exact .retire
  | jal rd imm => exact execJump_aligned (hpc.add hrange) h
  | jalr => exact execJump_aligned (isEven_clear _) h
  | ecall =>
      cases h
      refine .raise ?_
      rw [Aligned]
      cases c.mode <;> decide
  | ebreak =>
      cases h
      exact .raise (by decide : (3 : U64) ≠ 0)
  | mret =>
      cases h
      exact .retire
  | sret =>
      change c.execSret = some r at h
      rw [Cpu.execSret] at h
      split at h
      · cases h
        exact .raise (by decide : (2 : U64) ≠ 0)
      · cases h
        exact .retire
  | sfenceVma =>
      change c.execSfenceVma = some r at h
      rw [Cpu.execSfenceVma] at h
      split at h
      · cases h
        exact .raise (by decide : (2 : U64) ≠ 0)
      · cases h
        exact .retire
  | csr op rd src csr =>
      change c.execCsr op rd src csr = some r at h
      rw [Cpu.execCsr] at h
      split at h
      · cases h
        exact .raise (by decide : (2 : U64) ≠ 0)
      · cases h
        exact .retire
  | lr => exact Cpu.execLr_raises aligned_ofMemory h
  | sc => exact Cpu.execSc_raises aligned_ofMemory h
  | amo => exact Cpu.execAmo_raises aligned_ofMemory h
  | opFp | fma => exact execFp_aligned h

/-- A step at an even address never reports a misaligned one. -/
theorem step_aligned (hpc : IsEven c.pc) (h : Cpu.step fpu c = some r) : Raises Aligned r := by
  rw [Cpu.step] at h
  split at h
  · rename_i code hcode
    cases h
    refine .raise fun h0 => ?_
    have hbit := congrArg (fun v : U64 => v.getLsbD 63) h0
    simp [Cpu.interruptTrap] at hbit
  · split at h
    · rename_i hodd
      exact absurd hpc hodd
    · refine Cpu.orRaise_raises (Cpu.throws_ofMemory aligned_ofMemory (Cpu.fetch_throws _ _))
        (fun raw c₁ r hfetch hx => ?_) h
      have hkeep := Cpu.fetch_keepsHart _ _ _ _ _ hfetch
      rw [Cpu.executeFetched] at hx
      split at hx
      · cases hx
        exact .raise (by decide : (2 : U64) ≠ 0)
      · rename_i inst hdec
        refine execute_aligned (decodeFetched_inRange hdec) ?_ hx
        exact hkeep.pc ▸ hpc

end

/-! ## Runs -/

theorem parity_new {bus : Bus} {entry : U64} (heven : IsEven entry) :
    Parity (.new bus entry) :=
  have hzero : IsEven 0 := by decide
  have hfour : IsEven 4 := by decide
  ⟨rfl, heven, hzero, hzero, hfour⟩

theorem u64Max_odd : ¬ IsEven u64Max := by decide

/-- From an even entry point the program counter and the exception program counters are even in
every state of every run.  There a step reports no misaligned address, and the block at the program
counter leaves for no address that is all ones. -/
theorem parity_reached (h : Host) (bus : Bus) (entry : U64) (m : Machine) (heven : IsEven entry)
    (hm : Reached h bus entry m) :
    IsEven m.cpu.pc ∧ IsEven m.cpu.csr.mepc ∧ IsEven m.cpu.csr.sepc ∧
      (∀ fpu r, Cpu.step fpu m.cpu = some r → ∀ t ∈ r.trap, t.cause ≠ 0) ∧
      ∀ code, m.jit.get m.cpu.pc = some code →
        ∃ raws, code = emitPrologue ++ emitRaws h m.cpu.pc raws ∧
          runBlock h code m.cpu = (runRaws m.cpu.pc raws m.cpu).returned ∧
          ∀ c' target, runRaws m.cpu.pc raws m.cpu = .leave c' target → target ≠ u64Max := by
  obtain ⟨hparity, hjit⟩ := parity_runStable.reached (parity_new heven) hm
  refine ⟨hparity.pc, hparity.mepc, hparity.sepc, fun fpu r hstep => ?_, fun code hget => ?_⟩
  · exact step_aligned hparity.pc hstep
  · obtain ⟨raws, hhandled, rfl⟩ := hjit _ _ hget
    refine ⟨raws, rfl, runBlock_does (emitRaws_does hhandled hparity.zero), ?_⟩
    intro c' target hleave hmax
    have hall : (runRaws m.cpu.pc raws m.cpu).All Parity IsEven :=
      runRaws_all parity_runStable.toBlockStable hparity.pc hparity
    rw [hleave] at hall
    exact u64Max_odd (hmax ▸ hall.2)

theorem vectoredMachine_parity : vectoredMachine.cpu.pc = 0x8000_101C ∧
    IsEven vectoredMachine.cpu.pc ∧ IsEven vectoredMachine.cpu.csr.mepc :=
  have h := parity_reached layoutHost _ _ vectoredMachine (by decide) vectoredMachine_reached
  ⟨by decide, h.1, h.2.1⟩

end RiscvEmu.Jit

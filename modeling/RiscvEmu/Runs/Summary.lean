import RiscvEmu.Csrs.Satp
import RiscvEmu.Execution.Stable
import RiscvEmu.Runs.Registers

/-!
# The summary bit of the status register

Bit 63 of `mstatus` should say that the floating-point state or the extension state is dirty.  The
file stores the bit like any other: a write of `mstatus` sets it to what the value has there, a
write of `sstatus` and an instruction that marks the floating-point state dirty leave it.  So the
bit is right along a run as long as these happen to agree with it.
-/

namespace RiscvEmu.Jit

open Cpu

/-! ## The bit -/

/-- The field of the floating-point state. -/
def fsField (status : U64) : U64 := (status >>> 13) &&& 3

/-- The field of the extension state. -/
def xsField (status : U64) : U64 := (status >>> 15) &&& 3

def isDirty (status : U64) : Bool := decide (fsField status = 3) || decide (xsField status = 3)

/-- The summary bit. -/
def sdBit (status : U64) : Bool := status.getLsbD 63

/-- Both addresses show the bit right. -/
structure SummaryShown (c : Cpu) : Prop where
  mstatus : sdBit (c.csrRead 0x300) = isDirty (c.csrRead 0x300)
  sstatus : sdBit (c.csrRead 0x100) = isDirty (c.csrRead 0x300)

/-- The bit agrees with the fields. -/
def Summed (status : U64) : Prop := sdBit status = isDirty status

instance (status : U64) : Decidable (Summed status) := inferInstanceAs (Decidable (_ = _))

/-- The words agree in the summary bit and in the fields. -/
def SameState (v v' : U64) : Prop :=
  ∀ i ∈ [13, 14, 15, 16, 63], v'.getLsbD i = v.getLsbD i

theorem field_eq_three (v : U64) (k : Nat) :
    decide ((v >>> k) &&& 3 = 3) = (v.getLsbD k && v.getLsbD (k + 1)) := by
  have hbit : ∀ i, ((v >>> k) &&& 3).getLsbD i = (v.getLsbD (k + i) && (3 : U64).getLsbD i) := by
    intro i
    rw [BitVec.getLsbD_and, BitVec.getLsbD_ushiftRight]
  rw [Bool.eq_iff_iff, decide_eq_true_iff, Bool.and_eq_true]
  constructor
  · intro h
    have h0 := hbit 0
    have h1 := hbit 1
    rw [h] at h0 h1
    simpa using And.intro h0 h1
  · rintro ⟨h0, h1⟩
    apply BitVec.eq_of_getLsbD_eq
    intro i hi
    rw [hbit]
    match i with
    | 0 => simp [h0]
    | 1 => simp [h1]
    | i + 2 =>
        have hthree : (3 : U64).getLsbD (i + 2) = false := by
          change (BitVec.ofNat 64 3).getLsbD (i + 2) = false
          rw [BitVec.getLsbD_ofNat, Nat.testBit_lt_two_pow, Bool.and_false]
          exact Nat.lt_of_lt_of_le (by decide : 3 < 2 ^ 2)
            (Nat.pow_le_pow_right (by decide) (by omega))
        rw [hthree, Bool.and_false]

theorem isDirty_eq (v : U64) : isDirty v =
    (v.getLsbD 13 && v.getLsbD 14 || v.getLsbD 15 && v.getLsbD 16) := by
  rw [isDirty, fsField, xsField, field_eq_three, field_eq_three]

theorem SameState.summed {v v' : U64} (h : SameState v v') : Summed v' ↔ Summed v := by
  rw [Summed, Summed, isDirty_eq, isDirty_eq, sdBit, sdBit, h 13 (by decide), h 14 (by decide),
    h 15 (by decide), h 16 (by decide), h 63 (by decide)]

theorem summaryShown_iff (c : Cpu) : SummaryShown c ↔ Summed c.csr.mstatus := by
  have hm : c.csrRead 0x300 = c.csr.mstatus ||| 0x0000_000A_0000_0000 := rfl
  have hs : c.csrRead 0x100 =
      (c.csr.mstatus ||| 0x0000_0002_0000_0000) &&& 0x8000_0003_000D_E162 := rfl
  have hsame : SameState c.csr.mstatus (c.csrRead 0x300) := by
    rw [hm]
    intro i hi
    simp only [List.mem_cons, List.not_mem_nil, or_false] at hi
    rcases hi with rfl | rfl | rfl | rfl | rfl <;> simp
  have hbit : sdBit (c.csrRead 0x100) = sdBit (c.csrRead 0x300) := by
    rw [hm, hs, sdBit, sdBit]
    simp
  constructor
  · intro h
    exact hsame.summed.mp h.mstatus
  · intro h
    have hmstatus := hsame.summed.mpr h
    exact ⟨hmstatus, hbit.trans hmstatus⟩

/-! ## Updates -/

theorem deliverTrap_sameState (c : Cpu) (cause tval : U64) :
    SameState c.csr.mstatus (c.deliverTrap cause tval).csr.mstatus := by
  intro i hi
  rw [deliverTrap]
  split
  · dsimp only [Csr.sTrapEntry]
    simp only [List.mem_cons, List.not_mem_nil, or_false] at hi
    rcases hi with rfl | rfl | rfl | rfl | rfl <;> cases c.mode <;> simp
  · dsimp only [Csr.trapEntry, Csr.mieBit]
    simp only [List.mem_cons, List.not_mem_nil, or_false] at hi
    rcases hi with rfl | rfl | rfl | rfl | rfl <;> cases c.mode <;> simp [PrivMode.code]

theorem execMret_sameState {c : Cpu} {r : Retired} (hr : c.execMret = some r) :
    SameState c.csr.mstatus r.cpu.csr.mstatus := by
  intro i hi
  simp only [List.mem_cons, List.not_mem_nil, or_false] at hi
  rw [execMret] at hr
  by_cases hmpp : (c.csr.mstatus >>> 11) &&& 3 = 3
  · simp only [hmpp] at hr
    cases hr
    dsimp only [retire, Csr.mret]
    have hmask := hmpp
    rw [BitVec.ofNat_eq_ofNat] at hmask
    rcases hi with rfl | rfl | rfl | rfl | rfl <;> simp [hmask]
  · simp only [if_pos hmpp] at hr
    cases hr
    dsimp only [retire, Csr.mret]
    have hmask := hmpp
    rw [BitVec.ofNat_eq_ofNat] at hmask
    rcases hi with rfl | rfl | rfl | rfl | rfl <;> simp [hmask]

theorem execSret_sameState {c : Cpu} {r : Retired} (hr : c.execSret = some r) :
    SameState c.csr.mstatus r.cpu.csr.mstatus := by
  rw [execSret] at hr
  split at hr
  · cases hr
    exact deliverTrap_sameState c _ _
  · cases hr
    intro i hi
    simp only [List.mem_cons, List.not_mem_nil, or_false] at hi
    dsimp only [retire, Csr.sRet]
    rcases hi with rfl | rfl | rfl | rfl | rfl <;> simp

/-- The status of the hart agrees. -/
def StatusSummed (c : Cpu) : Prop := Summed c.csr.mstatus

theorem statusSummed_steady : Steady StatusSummed where
  memory hkeep hc := by
    rw [StatusSummed, hkeep.csr]
    exact hc
  setReg rd v hc := by
    rw [StatusSummed, setReg_csr]
    exact hc
  reservation _ hc := hc
  instSize _ hc := hc
  trap cause tval hc := (deliverTrap_sameState _ cause tval).summed.mpr hc
  next hc := hc
  jump _ hc := hc
  mret hr hc := (execMret_sameState hr).summed.mpr hc
  sret hr hc := (execSret_sameState hr).summed.mpr hc

/-! ## Writes and dirty marks -/

/-- A write agrees: of `mstatus`, in the value, and of `sstatus`, with the bit that is there. -/
structure WriteAgrees (csr : Csr) (addr : CsrAddr) (v : U64) : Prop where
  mstatus : addr = 0x300 → Summed v
  sstatus : addr = 0x100 → sdBit csr.mstatus = isDirty v

theorem write_mstatus_of_ne (csr : Csr) {addr : CsrAddr} (v : U64) (hm : addr ≠ 0x300)
    (hs : addr ≠ 0x100) : (csr.write addr v).mstatus = csr.mstatus := by
  refine csr.get_write_of_ne v (f := .mstatus) fun hfield => ?_
  have hmem := Csr.mem_addresses hfield
  simp only [Csr.addresses, List.mem_cons, List.not_mem_nil, or_false] at hmem
  rcases hmem with h | h
  · exact hm h
  · exact hs h

/-- After a write the bit is right exactly when the write agrees. -/
theorem write_summed_iff {csr : Csr} (addr : CsrAddr) (v : U64) (hcsr : Summed csr.mstatus) :
    Summed (csr.write addr v).mstatus ↔ WriteAgrees csr addr v := by
  by_cases hm : addr = 0x300
  · subst hm
    have hsame : SameState v (csr.write 0x300 v).mstatus := by
      intro i hi
      simp only [List.mem_cons, List.not_mem_nil, or_false] at hi
      change (v &&& ~~~(0x0000_000F_0000_0000 : U64)).getLsbD i = _
      rcases hi with rfl | rfl | rfl | rfl | rfl <;> simp
    rw [hsame.summed]
    exact ⟨fun h => ⟨fun _ => h, fun h0 => absurd h0 (by decide)⟩, fun h => h.mstatus rfl⟩
  · by_cases hs : addr = 0x100
    · subst hs
      have hword : (csr.write 0x100 v).mstatus = (csr.mstatus &&& ~~~(0x0000_0000_000D_E162 : U64))
          ||| (v &&& 0x0000_0000_000D_E162) := rfl
      have hsd : sdBit (csr.write 0x100 v).mstatus = sdBit csr.mstatus := by
        rw [hword, sdBit, sdBit]
        simp
      have hdirty : isDirty (csr.write 0x100 v).mstatus = isDirty v := by
        rw [hword, isDirty_eq, isDirty_eq]
        simp
      rw [Summed, hsd, hdirty]
      exact ⟨fun h => ⟨fun h0 => absurd h0 hm, fun _ => h⟩, fun h => h.sstatus rfl⟩
    · rw [write_mstatus_of_ne csr v hm hs]
      exact iff_of_true hcsr ⟨fun h => absurd h hm, fun h => absurd h hs⟩

/-- After a dirty mark the bit is right exactly when it was set. -/
theorem markFsDirty_summed_iff (c : Cpu) :
    StatusSummed c.markFsDirty ↔ sdBit c.csr.mstatus = true := by
  have hword : c.markFsDirty.csr.mstatus = c.csr.mstatus ||| 0x6000 := rfl
  have hsd : sdBit c.markFsDirty.csr.mstatus = sdBit c.csr.mstatus := by
    rw [hword, sdBit, sdBit]
    simp
  have hdirty : isDirty c.markFsDirty.csr.mstatus = true := by
    rw [hword, isDirty_eq]
    simp
  rw [StatusSummed, Summed, hsd, hdirty]

/-! ## Steps -/

/-- The load of an instruction succeeds. -/
def Loads (c : Cpu) (rs1 : Reg) (imm : U64) (width : Width) : Prop :=
  ∃ v c', mmuLoad c.lsMode (c.reg rs1 + imm) width c = some (.ok v, c')

/-- An instruction agrees: a CSR instruction in what it writes, and one that marks the
floating-point state dirty finds the bit set. -/
def InstAgrees (fpu : Fpu) (c : Cpu) : Instruction → Prop
  | .csr op rd src csr => writesCsr op src → WriteAgrees c.csr csr (c.csrNew op rd src csr)
  | .flw _ rs1 imm => Loads c rs1 imm .b4 → sdBit c.csr.mstatus = true
  | .fld _ rs1 imm => Loads c rs1 imm .b8 → sdBit c.csr.mstatus = true
  | .opFp funct7 rs2 rs1 rm _ =>
      opFpResult fpu c funct7 rs2 rs1 rm ≠ .illegalReturn → sdBit c.csr.mstatus = true
  | .fma opcode fmt rs3 rs2 rs1 _ =>
      fmaFpResult fpu c opcode fmt rs3 rs2 rs1 ≠ .illegalReturn → sdBit c.csr.mstatus = true
  | _ => True

section

variable {fpu : Fpu} {c : Cpu} {r : Retired}

theorem execCsr_summed {op : CsrOp} {rd : Reg} {src : CsrSrc} {csr : CsrAddr}
    (hc : StatusSummed c)
    (hagrees : writesCsr op src → WriteAgrees c.csr csr (c.csrNew op rd src csr))
    (h : c.execCsr op rd src csr = some r) : StatusSummed r.cpu := by
  by_cases htvm : csr = 0x180 ∧ c.tvmTraps
  · rw [execCsr_eq, if_pos htvm] at h
    cases h
    exact statusSummed_steady.raise _ hc
  · obtain ⟨r', hr', hcsr, -⟩ := execCsr_regime c op rd src csr htvm
    rw [h] at hr'
    cases hr'
    rw [StatusSummed, hcsr, csrAfter]
    split
    · rename_i hwrites
      exact (write_summed_iff _ _ hc).mpr (hagrees hwrites)
    · exact hc

theorem execLoad_summed {rs1 : Reg} {imm : U64} {width : Width} (dest : U64 → Cpu → Cpu)
    (hc : StatusSummed c) (hagrees : Loads c rs1 imm width → sdBit c.csr.mstatus = true)
    (hdest : ∀ v c, (dest v c).csr = c.csr)
    (h : c.execLoad rs1 imm width (fun v c' => (dest v c').markFsDirty) = some r) :
    StatusSummed r.cpu := by
  rcases orRaise_eq_some h with ⟨t, c₁, hload, rfl⟩ | ⟨v, c₁, hload, hx⟩
  · have hkeep := mmuLoad_keepsHart _ _ _ _ _ _ hload
    exact statusSummed_steady.raise t (statusSummed_steady.memory hkeep hc)
  · have hkeep := mmuLoad_keepsHart _ _ _ _ _ _ hload
    cases hx
    refine (markFsDirty_summed_iff _).mpr ?_
    rw [hdest, hkeep.csr]
    exact hagrees ⟨v, c₁, hload⟩

theorem execFp_summed {rd : Reg} {res : FpResult} (hc : StatusSummed c)
    (hagrees : res ≠ .illegalReturn → sdBit c.csr.mstatus = true)
    (h : c.execFp rd res = some r) : StatusSummed r.cpu := by
  cases res with
  | freg v =>
      cases h
      exact (markFsDirty_summed_iff (c.setFreg rd v)).mpr (hagrees nofun)
  | ireg v =>
      cases h
      refine (markFsDirty_summed_iff (c.setReg rd v)).mpr ?_
      rw [setReg_csr]
      exact hagrees nofun
  | illegalReturn =>
      cases h
      exact statusSummed_steady.raise _ hc
  | illegalFallthrough =>
      cases h
      refine (markFsDirty_summed_iff (c.raise ⟨2, 0⟩).cpu).mpr ?_
      have hsame := deliverTrap_sameState c 2 0 63 (by decide)
      exact hsame.trans (hagrees nofun)

/-- An instruction that agrees keeps the bit right. -/
theorem execute_summed {inst : Instruction} (hc : StatusSummed c)
    (hagrees : InstAgrees fpu c inst) (h : execute fpu inst c = some r) : StatusSummed r.cpu := by
  cases inst with
  | csr op rd src csr => exact execCsr_summed hc hagrees h
  | flw fd rs1 imm =>
      exact execLoad_summed (fun v c' => c'.setFreg fd (flwValue v)) hc hagrees
        (fun _ _ => rfl) h
  | fld fd rs1 imm =>
      exact execLoad_summed (fun v c' => c'.setFreg fd v) hc hagrees (fun _ _ => rfl) h
  | opFp | fma => exact execFp_summed hc hagrees h
  | _ => exact statusSummed_steady.execute (by exact trivial) hc h

end

/-! ## Runs -/

/-- An action agrees with the bit. -/
def KeepsSummary (m : Machine) (a : Action) : Prop :=
  match a with
  | .step fpu => ∀ inst c, m.cpu.fetched = some (inst, c) → InstAgrees fpu c inst
  | .csrWrite addr v => WriteAgrees m.cpu.csr addr v
  | _ => True

theorem statusSummed_blockStable : BlockStable StatusSummed fun _ => True where
  memory := statusSummed_steady.memory
  setReg := statusSummed_steady.setReg
  pc _ hc := hc
  add _ _ := trivial
  clear _ := trivial

/-- An action that agrees keeps the bit right. -/
theorem act_summed {h : Host} {m m' : Machine} {a : Action} (hc : StatusSummed m.cpu)
    (hzero : ZeroReg m.cpu) (hjit : Cached h m.jit) (hagrees : KeepsSummary m a)
    (hact : m.act h a = some m') : StatusSummed m'.cpu := by
  cases a with
  | step fpu =>
      obtain ⟨r, hstep, rfl⟩ := Option.map_eq_some_iff.mp hact
      refine statusSummed_steady.step hc (fun inst c' hfetched _ hc' hx => ?_) hstep
      exact execute_summed hc' (hagrees inst c' hfetched) hx
  | block =>
      rw [Machine.act] at hact
      split at hact
      · cases hact
      · rename_i code hget
        obtain ⟨⟨next, c'⟩, hrun, rfl⟩ := Option.map_eq_some_iff.mp hact
        exact block_keeps statusSummed_blockStable trivial hzero hc (hjit _ _ hget) hrun
  | compile startPc =>
      obtain ⟨⟨jit', c'⟩, hcompile, rfl⟩ := Option.map_eq_some_iff.mp hact
      exact statusSummed_steady.memory (compile_eq hcompile).1 hc
  | csrWrite addr v =>
      cases hact
      exact (write_summed_iff addr v hc).mpr hagrees
  | trap cause tval =>
      cases hact
      exact statusSummed_steady.trap cause tval hc
  | poll input =>
      cases hact
      exact poll_keeps statusSummed_steady.memory (fun _ hc => hc) statusSummed_steady.trap input hc
  | flushSatp =>
      cases hact
      rw [Jit.flushSatp]
      split
      · exact hc
      · exact hc
  | flushFenceI =>
      cases hact
      rw [Jit.flushFenceI]
      split
      · dsimp only
        split
        · exact hc
        · exact hc
      · exact hc
  | ticks n =>
      cases hact
      exact hc

/-- The bit is right, and the blocks in the cache are blocks. -/
structure RunSummed (h : Host) (m : Machine) : Prop where
  status : StatusSummed m.cpu
  zero : ZeroReg m.cpu
  cached : Cached h m.jit

theorem summed_zero : Summed 0 := by decide

theorem statusSummed_new (bus : Bus) (entry : U64) : StatusSummed (.new bus entry) := summed_zero

theorem zeroReg_new (bus : Bus) (entry : U64) : ZeroReg (.new bus entry) := rfl

/-- In every state of every run whose writes and dirty marks agree with the bit, both addresses show
it right. -/
theorem summary_reached (h : Host) (bus : Bus) (entry : U64) (m : Machine)
    (hm : (interleavings h bus entry).Reachable KeepsSummary m) : SummaryShown m.cpu := by
  have hinit : ∀ m, (interleavings h bus entry).init m → RunSummed h m := by
    rintro m rfl
    exact ⟨statusSummed_new bus entry, zeroReg_new bus entry, cached_new⟩
  have hstep : ∀ m a m', RunSummed h m → KeepsSummary m a →
      (interleavings h bus entry).step a m = some m' → RunSummed h m' := by
    intro m a m' hm hagrees hact
    have hkeep := zeroReg_runStable.act ⟨hm.zero, hm.cached⟩ hact
    exact ⟨act_summed hm.status hm.zero hm.cached hagrees hact, hkeep.1, hkeep.2⟩
  exact (summaryShown_iff m.cpu).mpr (hm.invariant hinit hstep).status

/-- The machine after a write of `mstatus`. -/
def statusMachine (status : U64) : Machine :=
  .start ((Cpu.new (.new 0x1000 0x8000_0000) 0x8000_0000).csrWrite 0x300 status)

/-- Firmware that turns the floating-point unit on in the dirty state and sets the bit with it. -/
theorem statusMachine_summary : SummaryShown (statusMachine 0x8000_0000_0000_6000).cpu :=
  summary_reached layoutHost (.new 0x1000 0x8000_0000) 0x8000_0000 _
    (.step (l := .csrWrite 0x300 0x8000_0000_0000_6000) (.init rfl)
      ⟨fun _ => by decide, fun h => absurd h (by decide)⟩ rfl)

/-- Firmware that does so without the bit: the fields say dirty, and the bit does not. -/
theorem statusMachine_unsummed :
    ¬ ∀ (h : Host) (bus : Bus) (entry : U64) (m : Machine), Reached h bus entry m →
      SummaryShown m.cpu := by
  intro hall
  have hreached : Reached layoutHost (.new 0x1000 0x8000_0000) 0x8000_0000
      (statusMachine 0x6000) := .step (l := .csrWrite 0x300 0x6000) (.init rfl) trivial rfl
  have hsd := (hall _ _ _ _ hreached).mstatus
  exact absurd hsd (by decide)

end RiscvEmu.Jit

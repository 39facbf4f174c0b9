import RiscvEmu.Execution.Privilege

/-!
# Trap entry and return

Trap entry saves the mode and the interrupt-enable bit of the destination in `mstatus`, and the
return instruction of the destination takes them back.  The four status updates are described
bit by bit, so their compositions are read off by position.

*Interrupts.*  An interrupt qualifies when it is pending, enabled, and enabled for its
destination.  The hart takes the first one that qualifies in a fixed order, whatever their
destinations are.
-/

namespace RiscvEmu

namespace Csr

/-! ## Status bits -/

/-- A bit moved to another position. -/
theorem getLsbD_move (x : U64) (a : Nat) {b i : Nat} (hi : i < 64) :
    (((x >>> a) &&& 1) <<< b).getLsbD i = (decide (i = b) && x.getLsbD a) := by
  have hone : ∀ k, (1 : U64).getLsbD k = decide (k = 0) := by
    intro k
    cases k with
    | zero => decide
    | succ k => simp
  rw [BitVec.getLsbD_shiftLeft, BitVec.getLsbD_and, BitVec.getLsbD_ushiftRight, hone]
  rcases Nat.lt_trichotomy i b with h | rfl | h
  · simp [h, Nat.ne_of_lt h]
  · simp [hi]
  · simp [show i - b ≠ 0 by omega, show i ≠ b by omega]

theorem getLsbD_code (mode : PrivMode) {i : Nat} (hi : i < 64) :
    (mode.code <<< 11).getLsbD i =
      (decide (i = 11) && mode.code.getLsbD 0 || decide (i = 12) && mode.code.getLsbD 1) := by
  revert i
  cases mode <;> decide

/-- M-mode trap entry, bit by bit. -/
theorem trapEntry_bit (c : Csr) (mode : PrivMode) {i : Nat} (hi : i < 64) :
    (c.trapEntry mode.code).mstatus.getLsbD i =
      if i = 3 then false
      else if i = 7 then c.mstatus.getLsbD 3
      else if i = 11 then mode.code.getLsbD 0
      else if i = 12 then mode.code.getLsbD 1
      else c.mstatus.getLsbD i := by
  have hmask : ∀ i < 64, (~~~(0x1888 : U64)).getLsbD i =
      !decide (i = 3 ∨ i = 7 ∨ i = 11 ∨ i = 12) := by decide
  simp only [trapEntry, mieBit, BitVec.getLsbD_or, BitVec.getLsbD_and, hmask i hi,
    getLsbD_move _ _ hi, getLsbD_code mode hi]
  grind

/-- `MRET`, bit by bit. -/
theorem mret_bit (c : Csr) {i : Nat} (hi : i < 64) :
    c.mret.mstatus.getLsbD i =
      if i = 3 then c.mstatus.getLsbD 7
      else if i = 7 then true
      else if i = 11 ∨ i = 12 then false
      else if i = 17 then decide ((c.mstatus >>> 11) &&& 3 = 3) && c.mstatus.getLsbD 17
      else c.mstatus.getLsbD i := by
  have hmask : ∀ i < 64, (~~~(0x1888 : U64)).getLsbD i =
      !decide (i = 3 ∨ i = 7 ∨ i = 11 ∨ i = 12) := by decide
  have hmask' : ∀ i < 64, (~~~(0x0002_1888 : U64)).getLsbD i =
      !decide (i = 3 ∨ i = 7 ∨ i = 11 ∨ i = 12 ∨ i = 17) := by decide
  have hset : ∀ i < 64, ((1 : U64) <<< 7).getLsbD i = decide (i = 7) := by decide
  by_cases hmpp : (c.mstatus >>> 11) &&& 3 = 3
  · simp only [mret, hmpp, ne_eq, not_true_eq_false, if_false, BitVec.getLsbD_or,
      BitVec.getLsbD_and, hmask i hi, getLsbD_move _ _ hi]
    grind
  · simp only [mret, hmpp, ne_eq, not_false_eq_true, if_true, BitVec.getLsbD_or,
      BitVec.getLsbD_and, hmask' i hi, getLsbD_move _ _ hi]
    grind

/-- S-mode trap entry, bit by bit. -/
theorem sTrapEntry_bit (c : Csr) (fromSmode : Bool) {i : Nat} (hi : i < 64) :
    (c.sTrapEntry fromSmode).mstatus.getLsbD i =
      if i = 1 then false
      else if i = 5 then c.mstatus.getLsbD 1
      else if i = 8 then fromSmode
      else c.mstatus.getLsbD i := by
  have hmask : ∀ i < 64, (~~~(0x122 : U64)).getLsbD i =
      !decide (i = 1 ∨ i = 5 ∨ i = 8) := by decide
  have hspp : ∀ i < 64, ((if fromSmode then 1 else 0 : U64) <<< 8).getLsbD i =
      (decide (i = 8) && fromSmode) := by
    cases fromSmode <;> decide
  simp only [sTrapEntry, BitVec.getLsbD_or, BitVec.getLsbD_and, hmask i hi,
    getLsbD_move _ _ hi, hspp i hi]
  grind

/-- `SRET`, bit by bit. -/
theorem sRet_bit (c : Csr) {i : Nat} (hi : i < 64) :
    c.sRet.mstatus.getLsbD i =
      if i = 1 then c.mstatus.getLsbD 5
      else if i = 5 then true
      else if i = 8 then false
      else c.mstatus.getLsbD i := by
  have hmask : ∀ i < 64, (~~~(0x122 : U64)).getLsbD i =
      !decide (i = 1 ∨ i = 5 ∨ i = 8) := by decide
  have hset : ∀ i < 64, ((1 : U64) <<< 5).getLsbD i = decide (i = 5) := by decide
  simp only [sRet, BitVec.getLsbD_or, BitVec.getLsbD_and, hmask i hi, getLsbD_move _ _ hi]
  grind

/-- The `MPRV` bit cleared. -/
theorem clearMprv_bit (x : U64) {i : Nat} (hi : i < 64) :
    (x &&& ~~~(1 <<< 17 : U64)).getLsbD i = (x.getLsbD i && !decide (i = 17)) := by
  have hmask : ∀ i < 64, (~~~(1 <<< 17 : U64)).getLsbD i = !decide (i = 17) := by decide
  rw [BitVec.getLsbD_and, hmask i hi]

/-- The mode in a field of `mstatus`, from its bits. -/
theorem mpp_of_bits {x : U64} {mode : PrivMode} (h0 : x.getLsbD 11 = mode.code.getLsbD 0)
    (h1 : x.getLsbD 12 = mode.code.getLsbD 1) : (x >>> 11) &&& 3 = mode.code := by
  have hmask : ∀ i < 64, (3 : U64).getLsbD i = decide (i < 2) := by decide
  have hcode : ∀ i < 64, 2 ≤ i → mode.code.getLsbD i = false := by
    cases mode <;> decide
  apply BitVec.eq_of_getLsbD_eq
  intro i hi
  rw [BitVec.getLsbD_and, BitVec.getLsbD_ushiftRight, hmask i hi]
  match i with
  | 0 => simpa using h0
  | 1 => simpa using h1
  | i + 2 => simp [hcode (i + 2) hi (by omega)]

/-- A field of one bit. -/
theorem bit_of_getLsbD (x : U64) (k : Nat) : (x >>> k) &&& 1 = if x.getLsbD k then 1 else 0 := by
  have hmask : ∀ i < 64, (1 : U64).getLsbD i = decide (i = 0) := by decide
  apply BitVec.eq_of_getLsbD_eq
  intro i hi
  rw [BitVec.getLsbD_and, BitVec.getLsbD_ushiftRight, hmask i hi]
  cases i with
  | zero => cases x.getLsbD k <;> simp
  | succ i => cases x.getLsbD k <;> simp

end Csr

namespace Cpu

/-! ## The law of traps -/

/-- The handler left its mode and the registers that `MRET` reads alone. -/
structure MachineUntouched (c c' : Cpu) : Prop where
  mode : c'.mode = c.mode
  mstatus : c'.csr.mstatus = c.csr.mstatus
  mepc : c'.csr.mepc = c.csr.mepc

/-- The handler left its mode and the registers that `SRET` reads alone. -/
structure SupervisorUntouched (c c' : Cpu) : Prop where
  mode : c'.mode = c.mode
  mstatus : c'.csr.mstatus = c.csr.mstatus
  sepc : c'.csr.sepc = c.csr.sepc

/-- A hart restored after a trap: in `mstatus`, without `MPRV`, the saved interrupt-enable bit is
set, the previous mode is U, and every other bit is the one before the trap. -/
structure Restored (c c' : Cpu) (saved : Nat) (previous : List Nat) : Prop where
  pc : c'.pc = c.pc
  mode : c'.mode = c.mode
  status : ∀ i < 64, i ≠ 17 → c'.csr.mstatus.getLsbD i =
    if i = saved then true else if i ∈ previous then false else c.csr.mstatus.getLsbD i

/-- `TSR` is clear. -/
def SretAllowed (c : Cpu) : Prop := (c.csr.mstatus >>> 22) &&& 1 = 0

/-- Trap entry and return are inverse to each other, and nest. -/
structure TrapLaw (fpu : Fpu) (c : Cpu) (cause tval : U64) : Prop where
  /-- One bank is written, and the other one is not. -/
  bank : let csr := (c.deliverTrap cause tval).csr
    if c.delegated cause then
      (csr.sepc = c.pc ∧ csr.scause = cause ∧ csr.stval = tval) ∧
        csr.mepc = c.csr.mepc ∧ csr.mcause = c.csr.mcause ∧ csr.mtval = c.csr.mtval
    else
      (csr.mepc = c.pc ∧ csr.mcause = cause ∧ csr.mtval = tval) ∧
        csr.sepc = c.csr.sepc ∧ csr.scause = c.csr.scause ∧ csr.stval = c.csr.stval
  raises : c.mode.code ≤ (c.deliverTrap cause tval).mode.code
  mret : c.delegated cause = false → ∀ c₂, MachineUntouched (c.deliverTrap cause tval) c₂ →
    ∃ r, execute fpu .mret c₂ = some r ∧ r.trap = none ∧ Restored c r.cpu 7 [11, 12]
  sret : c.delegated cause = true → ∀ c₂, SupervisorUntouched (c.deliverTrap cause tval) c₂ →
    c₂.SretAllowed → ∃ r, execute fpu .sret c₂ = some r ∧ r.trap = none ∧ Restored c r.cpu 5 [8]
  nested : c.delegated cause = true →
    ∀ c₁ cause' tval' c₂, SupervisorUntouched (c.deliverTrap cause tval) c₁ →
      c₁.delegated cause' = false → MachineUntouched (c₁.deliverTrap cause' tval') c₂ →
      c₂.csr.sepc = c₁.csr.sepc →
      ∃ r, execute fpu .mret c₂ = some r ∧ r.cpu.pc = c₁.pc ∧ r.cpu.mode = .s ∧
        ∀ c₃, SupervisorUntouched r.cpu c₃ → c₃.SretAllowed →
          ∃ r', execute fpu .sret c₃ = some r' ∧ r'.cpu.pc = c.pc ∧ r'.cpu.mode = c.mode ∧
            r'.cpu.csr.mstatus.getLsbD 1 = c.csr.mstatus.getLsbD 1 ∧
            r'.cpu.csr.mstatus.getLsbD 3 = c.csr.mstatus.getLsbD 3

section

variable {fpu : Fpu} {c c₂ : Cpu} {cause tval : U64}

/-! ## Entry -/

theorem deliverTrap_delegated (h : c.delegated cause = true) : c.deliverTrap cause tval =
    { c with
      csr := { c.csr.sTrapEntry (decide (c.mode = .s)) with
        sepc := c.pc, scause := cause, stval := tval }
      pc := trapPc c.csr.stvec cause
      mode := .s } := by
  rw [deliverTrap, if_pos h]

theorem deliverTrap_machine (h : c.delegated cause = false) : c.deliverTrap cause tval =
    { c with
      csr := { c.csr.trapEntry c.mode.code with mepc := c.pc, mcause := cause, mtval := tval }
      pc := trapPc c.csr.mtvec cause
      mode := .m } := by
  rw [deliverTrap, if_neg (by rw [h]; decide)]

/-- Only traps from below M-mode are delegated. -/
theorem mode_of_delegated (h : c.delegated cause = true) : c.mode = .u ∨ c.mode = .s := by
  simp only [delegated, Bool.and_eq_true, decide_eq_true_eq] at h
  cases hm : c.mode with
  | u => exact Or.inl rfl
  | s => exact Or.inr rfl
  | m => exact absurd hm h.2

/-! ## Return -/

theorem modeOfMpp_code (mode : PrivMode) : modeOfMpp mode.code = mode := by
  cases mode <;> rfl

/-- What `MRET` does. -/
theorem execute_mret (fpu : Fpu) (c : Cpu) : ∃ r, execute fpu .mret c = some r ∧ r.trap = none ∧
    r.cpu.pc = c.csr.mepc ∧ r.cpu.mode = modeOfMpp ((c.csr.mstatus >>> 11) &&& 3) ∧
    r.cpu.csr.sepc = c.csr.sepc ∧
    ∀ i < 64, i ≠ 17 → r.cpu.csr.mstatus.getLsbD i = c.csr.mret.mstatus.getLsbD i := by
  refine ⟨_, rfl, rfl, ?_, rfl, ?_, fun i hi h17 => ?_⟩
  · split <;> rfl
  · split <;> rfl
  · dsimp only [retire]
    split
    · rw [Csr.clearMprv_bit _ hi]
      simp [h17]
    · rfl

/-- What `SRET` does when `TSR` is clear. -/
theorem execute_sret (fpu : Fpu) (h : c.SretAllowed) : ∃ r, execute fpu .sret c = some r ∧
    r.trap = none ∧ r.cpu.pc = c.csr.sepc ∧
    r.cpu.mode = (if c.csr.mstatus.getLsbD 8 then .s else .u) ∧
    ∀ i < 64, i ≠ 17 → r.cpu.csr.mstatus.getLsbD i = c.csr.sRet.mstatus.getLsbD i := by
  have hrun : execute fpu .sret c = c.execSret := rfl
  rw [execSret, if_neg fun hc => hc.2 h] at hrun
  refine ⟨_, hrun, rfl, rfl, ?_, fun i hi h17 => ?_⟩
  · dsimp only [retire]
    rw [Csr.bit_of_getLsbD]
    cases c.csr.mstatus.getLsbD 8 <;> rfl
  · dsimp only [retire]
    rw [Csr.sRet_bit _ hi, Csr.sRet_bit _ hi]
    simp only [Csr.clearMprv_bit _ hi, Csr.clearMprv_bit _ (show 5 < 64 by decide), h17]
    simp

/-- `MRET` undoes a trap to M-mode. -/
theorem mret_restores (fpu : Fpu) (hm : c.delegated cause = false)
    (hu : MachineUntouched (c.deliverTrap cause tval) c₂) :
    ∃ r, execute fpu .mret c₂ = some r ∧ r.trap = none ∧ r.cpu.csr.sepc = c₂.csr.sepc ∧
      Restored c r.cpu 7 [11, 12] := by
  rw [deliverTrap_machine hm] at hu
  have hbits : ∀ i < 64, c₂.csr.mstatus.getLsbD i =
      (c.csr.trapEntry c.mode.code).mstatus.getLsbD i := fun i _ => by rw [hu.mstatus]
  have hmpp : (c₂.csr.mstatus >>> 11) &&& 3 = c.mode.code := by
    refine Csr.mpp_of_bits ?_ ?_
    · rw [hbits 11 (by decide), Csr.trapEntry_bit _ _ (by decide)]
      rfl
    · rw [hbits 12 (by decide), Csr.trapEntry_bit _ _ (by decide)]
      rfl
  obtain ⟨r, hr, htrap, hpc, hmode, hsepc, hstatus⟩ := execute_mret fpu c₂
  refine ⟨r, hr, htrap, hsepc, hpc.trans hu.mepc, ?_, fun i hi h17 => ?_⟩
  · rw [hmode, hmpp, modeOfMpp_code]
  · rw [hstatus i hi h17, Csr.mret_bit _ hi, hbits i hi, hbits 7 (by decide),
      Csr.trapEntry_bit _ _ hi, Csr.trapEntry_bit _ _ (by decide)]
    simp only [List.mem_cons, List.not_mem_nil, or_false]
    grind

/-- `SRET` undoes a trap to S-mode, also when bits that it does not read have changed. -/
theorem sret_restores (fpu : Fpu) (hd : c.delegated cause = true) (hallow : c₂.SretAllowed)
    (hsepc : c₂.csr.sepc = c.pc) (hspp : c₂.csr.mstatus.getLsbD 8 = decide (c.mode = .s)) :
    ∃ r, execute fpu .sret c₂ = some r ∧ r.trap = none ∧ r.cpu.pc = c.pc ∧ r.cpu.mode = c.mode ∧
      ∀ i < 64, i ≠ 17 → r.cpu.csr.mstatus.getLsbD i = c₂.csr.sRet.mstatus.getLsbD i := by
  obtain ⟨r, hr, htrap, hpc, hmode, hstatus⟩ := execute_sret fpu hallow
  refine ⟨r, hr, htrap, hpc.trans hsepc, ?_, hstatus⟩
  rw [hmode, hspp]
  rcases mode_of_delegated hd with h | h <;> rw [h] <;> rfl

/-! ## The law -/

/-- Every trap obeys the law. -/
theorem trapLaw (fpu : Fpu) (c : Cpu) (cause tval : U64) : TrapLaw fpu c cause tval := by
  have hsaved : c.delegated cause = true →
      (c.deliverTrap cause tval).csr.sepc = c.pc ∧
        ∀ i < 64, (c.deliverTrap cause tval).csr.mstatus.getLsbD i =
          (c.csr.sTrapEntry (decide (c.mode = .s))).mstatus.getLsbD i := by
    intro hd
    rw [deliverTrap_delegated hd]
    exact ⟨rfl, fun _ _ => rfl⟩
  refine ⟨?_, ?_, fun hm c₂ hu => ?_, fun hd c₂ hu hallow => ?_,
    fun hd c₁ cause' tval' c₂ hu₁ hm hu₂ hsepc => ?_⟩
  · cases hd : c.delegated cause with
    | true =>
        rw [deliverTrap_delegated hd]
        exact ⟨⟨rfl, rfl, rfl⟩, rfl, rfl, rfl⟩
    | false =>
        rw [deliverTrap_machine hd]
        exact ⟨⟨rfl, rfl, rfl⟩, rfl, rfl, rfl⟩
  · cases hd : c.delegated cause with
    | true =>
        rw [deliverTrap_delegated hd]
        change c.mode.code ≤ PrivMode.s.code
        rcases mode_of_delegated hd with h | h <;> rw [h] <;> decide
    | false =>
        rw [deliverTrap_machine hd]
        change c.mode.code ≤ PrivMode.m.code
        cases c.mode <;> decide
  · obtain ⟨r, hr, htrap, _, hres⟩ := mret_restores fpu hm hu
    exact ⟨r, hr, htrap, hres⟩
  · obtain ⟨hpc, hbits⟩ := hsaved hd
    have hbits₂ : ∀ i < 64, c₂.csr.mstatus.getLsbD i =
        (c.csr.sTrapEntry (decide (c.mode = .s))).mstatus.getLsbD i := by
      intro i hi
      rw [hu.mstatus]
      exact hbits i hi
    obtain ⟨r, hr, htrap, hrpc, hrmode, hstatus⟩ := sret_restores fpu hd hallow
      (hu.sepc.trans hpc) (by rw [hbits₂ 8 (by decide), Csr.sTrapEntry_bit _ _ (by decide)]; rfl)
    refine ⟨r, hr, htrap, hrpc, hrmode, fun i hi h17 => ?_⟩
    rw [hstatus i hi h17, Csr.sRet_bit _ hi, hbits₂ i hi, hbits₂ 5 (by decide),
      Csr.sTrapEntry_bit _ _ hi, Csr.sTrapEntry_bit _ _ (by decide)]
    simp only [List.mem_cons, List.not_mem_nil, or_false]
    grind
  · obtain ⟨hpc, hbits⟩ := hsaved hd
    obtain ⟨r, hr, _, hrsepc, hres⟩ := mret_restores fpu hm hu₂
    have hmode₁ : c₁.mode = .s := by
      rw [hu₁.mode, deliverTrap_delegated hd]
    refine ⟨r, hr, hres.pc, hres.mode.trans hmode₁, fun c₃ hu₃ hallow => ?_⟩
    -- the bits that the supervisor saved went through the machine trap unchanged
    have hbits₃ : ∀ i < 64, i ≠ 17 → i ≠ 7 → i ∉ [11, 12] → c₃.csr.mstatus.getLsbD i =
        (c.csr.sTrapEntry (decide (c.mode = .s))).mstatus.getLsbD i := by
      intro i hi h17 h7 hmpp
      rw [hu₃.mstatus, hres.status i hi h17, if_neg h7, if_neg hmpp, hu₁.mstatus]
      exact hbits i hi
    have hpc₃ : c₃.csr.sepc = c.pc :=
      hu₃.sepc.trans (hrsepc.trans (hsepc.trans (hu₁.sepc.trans hpc)))
    obtain ⟨r', hr', _, hrpc, hrmode, hstatus⟩ := sret_restores fpu hd hallow hpc₃
      (by
        rw [hbits₃ 8 (by decide) (by decide) (by decide) (by decide),
          Csr.sTrapEntry_bit _ _ (by decide)]
        rfl)
    refine ⟨r', hr', hrpc, hrmode, ?_, ?_⟩
    · rw [hstatus 1 (by decide) (by decide), Csr.sRet_bit _ (by decide), if_pos rfl,
        hbits₃ 5 (by decide) (by decide) (by decide) (by decide),
        Csr.sTrapEntry_bit _ _ (by decide)]
      rfl
    · rw [hstatus 3 (by decide) (by decide), Csr.sRet_bit _ (by decide)]
      exact (hbits₃ 3 (by decide) (by decide) (by decide) (by decide)).trans
        (Csr.sTrapEntry_bit _ _ (by decide))

end

/-! ## The choice of an interrupt -/

/-- The interrupt is pending and enabled. -/
def pending (c : Cpu) (i : Nat) : Bool := c.csr.mip.getLsbD i && c.csr.mie.getLsbD i

/-- The interrupt is enabled for its destination: M-mode below it or with `MIE`, and S-mode with
`SIE` and never from M-mode. -/
def enabled (c : Cpu) (i : Nat) : Bool :=
  if c.csr.mideleg.getLsbD i then decide (c.mode ≠ .m) && c.csr.mstatus.getLsbD 1
  else decide (c.mode ≠ .m) || c.csr.mstatus.getLsbD 3

/-- The trap of an interrupt, at its destination. -/
structure Taken (c : Cpu) (i : Nat) (c' : Cpu) : Prop where
  supervisor : c.csr.mideleg.getLsbD i = true → c'.mode = .s ∧ c'.csr.sepc = c.pc ∧
    c'.csr.scause = (1 <<< 63) ||| BitVec.ofNat 64 i
  machine : c.csr.mideleg.getLsbD i = false → c'.mode = .m ∧ c'.csr.mepc = c.pc ∧
    c'.csr.mcause = (1 <<< 63) ||| BitVec.ofNat 64 i

/-- Of the pending interrupts the hart takes the first one of an order that is enabled, and none
when there is none. -/
structure SelectionLaw (c : Cpu) (enabled : Nat → Bool) (order : List Nat) : Prop where
  taken : c.checkInterrupts.1 = order.any fun i => c.pending i && enabled i
  choice : ∀ i, (order.find? fun i => c.pending i && enabled i) = some i →
    Taken c i c.checkInterrupts.2
  rest : (order.find? fun i => c.pending i && enabled i) = none → c.checkInterrupts.2 = c

section

variable {c : Cpu}

theorem decide_bit (x : U64) (k : Nat) : decide ((x >>> k) &&& 1 = 1) = x.getLsbD k := by
  rw [Csr.bit_of_getLsbD]
  cases x.getLsbD k <;> rfl

/-- An interrupt can fire when it is enabled. -/
theorem canFire_eq (c : Cpu) (i : Nat) : c.canFire i = c.enabled i := by
  have hmie : decide (c.csr.mieBit = 1) = c.csr.mstatus.getLsbD 3 := decide_bit c.csr.mstatus 3
  rw [canFire, enabled]
  simp only [decide_bit, hmie]
  cases c.mode with
  | m => cases c.csr.mideleg.getLsbD i <;> simp
  | s => cases c.csr.mideleg.getLsbD i <;> simp
  | u => cases c.csr.mideleg.getLsbD i <;> simp

/-- The next interrupt is the first one that is pending and enabled. -/
theorem nextInterrupt_eq (c : Cpu) :
    c.nextInterrupt = interruptOrder.find? fun i => c.pending i && c.enabled i := by
  have hbit : ∀ i, decide (((c.csr.mip &&& c.csr.mie) >>> i) &&& 1 ≠ 0) = c.pending i := by
    intro i
    rw [Csr.bit_of_getLsbD, BitVec.getLsbD_and, pending]
    cases c.csr.mip.getLsbD i && c.csr.mie.getLsbD i <;> rfl
  simp only [nextInterrupt, hbit, canFire_eq]

/-- The cause of an interrupt names it again. -/
theorem cause_code : ∀ i ∈ interruptOrder,
    (((1 <<< 63 : U64) ||| BitVec.ofNat 64 i) >>> 63 ≠ 0 ∧
      (((1 <<< 63 : U64) ||| BitVec.ofNat 64 i) &&& ~~~(1 <<< 63 : U64)).toNat = i) ∧ i < 64 := by
  decide

/-- The delegation decision is repeated with the same outcome when the trap is entered. -/
theorem delegated_interrupt {i : Nat} (hi : i ∈ interruptOrder) :
    c.delegated ((1 <<< 63) ||| BitVec.ofNat 64 i) =
      (c.csr.mideleg.getLsbD i && decide (c.mode ≠ .m)) := by
  obtain ⟨⟨hsign, hcode⟩, hlt⟩ := cause_code i hi
  simp only [delegated, hcode, hlt, hsign, ne_eq, not_false_eq_true, if_true, decide_true,
    Bool.true_and, decide_bit]

/-- The hart takes the first pending and enabled interrupt, in the one fixed order. -/
theorem selectionLaw (c : Cpu) : SelectionLaw c c.enabled interruptOrder := by
  have hnext := nextInterrupt_eq c
  cases hfind : interruptOrder.find? fun i => c.pending i && c.enabled i with
  | none =>
      rw [hfind] at hnext
      have hcheck : c.checkInterrupts = (false, c) := by rw [checkInterrupts, hnext]
      refine ⟨?_, fun i hi => ?_, fun _ => ?_⟩
      · rw [hcheck, List.any_eq_false.mpr (List.find?_eq_none.mp hfind)]
      · rw [hfind] at hi
        cases hi
      · rw [hcheck]
  | some i =>
      rw [hfind] at hnext
      have hmem := List.mem_of_find?_eq_some hfind
      have hq := List.find?_some hfind
      have hcheck : c.checkInterrupts =
          (true, c.deliverTrap ((1 <<< 63) ||| BitVec.ofNat 64 i) 0) := by
        rw [checkInterrupts, hnext]
      refine ⟨?_, fun j hj => ?_, fun hn => ?_⟩
      · rw [hcheck, List.any_eq_true.mpr ⟨i, hmem, hq⟩]
      · rw [hfind] at hj
        cases hj
        rw [hcheck]
        have hdel := delegated_interrupt (c := c) hmem
        have hen : c.enabled i = true := (Bool.and_eq_true_iff.mp hq).2
        refine ⟨fun hd => ?_, fun hd => ?_⟩
        · have hm : c.mode ≠ .m := by
            rw [enabled, if_pos hd] at hen
            exact of_decide_eq_true (Bool.and_eq_true_iff.mp hen).1
          rw [hd, decide_eq_true hm] at hdel
          rw [deliverTrap_delegated hdel]
          exact ⟨rfl, rfl, rfl⟩
        · rw [hd, Bool.false_and] at hdel
          rw [deliverTrap_machine hdel]
          exact ⟨rfl, rfl, rfl⟩
      · rw [hfind] at hn
        cases hn

/-- Enabled by the rule that takes S-mode interrupts in U-mode whatever `SIE` is. -/
def enabledBelow (c : Cpu) (i : Nat) : Bool :=
  if c.csr.mideleg.getLsbD i then
    decide (c.mode = .u) || decide (c.mode = .s) && c.csr.mstatus.getLsbD 1
  else decide (c.mode ≠ .m) || c.csr.mstatus.getLsbD 3

/-- The order that puts the interrupts of M-mode first. -/
def machineFirst (c : Cpu) : List Nat :=
  (interruptOrder.filter fun i => !c.csr.mideleg.getLsbD i) ++
    interruptOrder.filter fun i => c.csr.mideleg.getLsbD i

/-- A hart in U-mode with a delegated timer interrupt pending and enabled, and `SIE` clear. -/
def maskedHart : Cpu :=
  { Cpu.new (Bus.new 0 0) 0 with
    mode := .u
    csr := { Csr.new with mip := 0x20, mie := 0x20, mideleg := 0x20 } }

/-- A hart in S-mode with a delegated external interrupt of M-mode and a timer interrupt that is
not delegated, both pending and enabled. -/
def mixedHart : Cpu :=
  { Cpu.new (Bus.new 0 0) 0 with
    mode := .s
    csr := { Csr.new with mstatus := 0x2, mip := 0x820, mie := 0x820, mideleg := 0x800 } }

/-- The order is the same whatever the destinations are. -/
theorem mixedHart_order : ¬ ∀ c : Cpu, SelectionLaw c c.enabled c.machineFirst := by
  intro hall
  have hfind : (mixedHart.machineFirst.find? fun i =>
      mixedHart.pending i && mixedHart.enabled i) = some 5 := by decide
  have hmode : mixedHart.checkInterrupts.2.mode = .s := by decide
  have hmachine := ((hall mixedHart).choice 5 hfind).2 (by decide)
  rw [hmachine.1] at hmode
  cases hmode

/-- Neither the rule nor the order is that of the hart. -/
theorem maskedHart_selection :
    (¬ ∀ c : Cpu, SelectionLaw c c.enabledBelow c.machineFirst) ∧
      (¬ ∀ c : Cpu, SelectionLaw c c.enabledBelow interruptOrder) ∧
      ¬ ∀ c : Cpu, SelectionLaw c c.enabled c.machineFirst := by
  have hcheck : maskedHart.checkInterrupts.1 = false := by decide
  refine ⟨fun hall => ?_, fun hall => ?_, mixedHart_order⟩
  · have htaken := (hall maskedHart).taken
    have hany : (maskedHart.machineFirst.any fun i =>
        maskedHart.pending i && maskedHart.enabledBelow i) = true := by decide
    rw [hcheck, hany] at htaken
    cases htaken
  · have htaken := (hall maskedHart).taken
    have hany : (interruptOrder.any fun i =>
        maskedHart.pending i && maskedHart.enabledBelow i) = true := by decide
    rw [hcheck, hany] at htaken
    cases htaken

end

end Cpu

end RiscvEmu

import RiscvEmu.Execution.Accesses

/-!
# Precise exceptions

An exception should leave the registers, the reservation and the data in RAM as they were, and of
the CSR file it should change only what trap entry writes.

There are three ways in which an instruction fails to do so.  An illegal floating-point encoding
on a path that falls through marks the floating-point state dirty after trap entry.  A store that
crosses a page boundary leaves its first bytes in memory when the bus rejects a later one.  And a
translation that passes the check of a hit may write back a cache entry that memory no longer holds
before the access fails.  Where the last two do not happen, exceptions are precise exactly when the
first does not (`precise_iff`).
-/

namespace RiscvEmu

open Mmu

/-- The bits of `mstatus` that the entry to an S-mode trap writes: `SIE`, `SPIE` and `SPP`. -/
def sTrapMask : U64 := 0x122

/-- The bits of `mstatus` that the entry to an M-mode trap writes: `MIE`, `MPIE` and `MPP`. -/
def mTrapMask : U64 := 0x1888

namespace Cpu

/-! ## Trap entry -/

/-- The CSR file agrees with that of the hart but for the trap bank of the destination mode and
its three status fields, and the bank holds the program counter. -/
def TrapFrame (c : Cpu) (cause : U64) (csr : Csr) : Prop :=
  if c.delegated cause then
    csr = { c.csr with
      mstatus := csr.mstatus, sepc := c.pc, scause := csr.scause, stval := csr.stval } ∧
      csr.mstatus &&& ~~~sTrapMask = c.csr.mstatus &&& ~~~sTrapMask
  else
    csr = { c.csr with
      mstatus := csr.mstatus, mepc := c.pc, mcause := csr.mcause, mtval := csr.mtval } ∧
      csr.mstatus &&& ~~~mTrapMask = c.csr.mstatus &&& ~~~mTrapMask

theorem sTrapEntry_mask (csr : Csr) (fromSmode : Bool) :
    (csr.sTrapEntry fromSmode).mstatus &&& ~~~sTrapMask = csr.mstatus &&& ~~~sTrapMask := by
  have hsie : ((csr.mstatus >>> 1) &&& 1) <<< 5 &&& ~~~sTrapMask = 0#64 := by
    rcases and_one_cases (csr.mstatus >>> 1) with h | h
    · rw [show (csr.mstatus >>> 1) &&& 1 = 0 from h]
      rfl
    · rw [show (csr.mstatus >>> 1) &&& 1 = 1 from h]
      rfl
  have hspp : (if fromSmode then (1 : U64) else 0) <<< 8 &&& ~~~sTrapMask = 0#64 := by
    cases fromSmode <;> rfl
  simp only [Csr.sTrapEntry, BitVec.and_or_distrib_right, hsie, hspp, BitVec.or_zero]
  rw [BitVec.and_assoc]
  rfl

theorem trapEntry_mask (csr : Csr) (mode : PrivMode) :
    (csr.trapEntry mode.code).mstatus &&& ~~~mTrapMask = csr.mstatus &&& ~~~mTrapMask := by
  have hmie : csr.mieBit <<< 7 &&& ~~~mTrapMask = 0#64 := by
    rcases and_one_cases (csr.mstatus >>> 3) with h | h
    · rw [Csr.mieBit, show (csr.mstatus >>> 3) &&& 1 = 0 from h]
      rfl
    · rw [Csr.mieBit, show (csr.mstatus >>> 3) &&& 1 = 1 from h]
      rfl
  have hmpp : mode.code <<< 11 &&& ~~~mTrapMask = 0#64 := by
    cases mode <;> rfl
  simp only [Csr.trapEntry, BitVec.and_or_distrib_right, hmie, hmpp, BitVec.or_zero]
  rw [BitVec.and_assoc]
  rfl

/-- Trap entry keeps to the frame. -/
theorem deliverTrap_frame (c : Cpu) (cause tval : U64) :
    TrapFrame c cause (c.deliverTrap cause tval).csr := by
  rw [TrapFrame, deliverTrap]
  split
  · exact ⟨rfl, sTrapEntry_mask _ _⟩
  · exact ⟨rfl, trapEntry_mask _ _⟩

theorem TrapFrame.congr {c c' : Cpu} {cause : U64} {csr : Csr} (h : TrapFrame c' cause csr)
    (hmode : c'.mode = c.mode) (hcsr : c'.csr = c.csr) (hpc : c'.pc = c.pc) :
    TrapFrame c cause csr := by
  have hdel : c'.delegated cause = c.delegated cause := by rw [delegated, delegated, hmode, hcsr]
  rwa [TrapFrame, hdel, hcsr, hpc] at h

/-! ## Marking after trap entry -/

/-- The floating-point state is marked dirty already. -/
def FsDirty (c : Cpu) : Prop := c.csr.mstatus &&& 0x6000 = 0x6000

theorem or_eq_left_iff (x m : U64) : x ||| m = x ↔ x &&& m = m := by
  constructor
  · intro h
    apply BitVec.eq_of_getLsbD_eq
    intro i _
    have hi := congrArg (fun v => v.getLsbD i) h
    simp only [BitVec.getLsbD_or, BitVec.getLsbD_and] at hi ⊢
    cases hx : x.getLsbD i <;> cases hm : m.getLsbD i <;> simp_all
  · intro h
    apply BitVec.eq_of_getLsbD_eq
    intro i _
    have hi := congrArg (fun v => v.getLsbD i) h
    simp only [BitVec.getLsbD_or, BitVec.getLsbD_and] at hi ⊢
    cases hx : x.getLsbD i <;> cases hm : m.getLsbD i <;> simp_all

/-- Setting bits outside the fields a trap entry writes keeps to the frame exactly when they were
set before. -/
theorem or_frame_iff {x y k : U64} (hmask : ~~~k &&& 0x6000 = 0x6000)
    (hxy : x &&& ~~~k = y &&& ~~~k) :
    (x ||| 0x6000) &&& ~~~k = y &&& ~~~k ↔ y &&& 0x6000 = 0x6000 := by
  have hmask' : (0x6000 : U64) &&& ~~~k = 0x6000 := by rw [BitVec.and_comm, hmask]
  rw [BitVec.and_or_distrib_right, hxy, hmask', or_eq_left_iff, BitVec.and_assoc, hmask]

/-- Marking the state dirty after trap entry keeps to the frame exactly when it was dirty. -/
theorem dirty_frame_iff (c : Cpu) (cause tval : U64) :
    TrapFrame c cause (dirtyCsr (c.deliverTrap cause tval).csr) ↔ FsDirty c := by
  have hframe := deliverTrap_frame c cause tval
  rw [TrapFrame] at hframe ⊢
  split at hframe
  · rename_i hdel
    rw [if_pos hdel, FsDirty, ← or_frame_iff (by decide) hframe.2]
    exact ⟨fun h => h.2, fun h => ⟨by rw [dirtyCsr, hframe.1], h⟩⟩
  · rename_i hdel
    rw [if_neg hdel, FsDirty, ← or_frame_iff (by decide) hframe.2]
    exact ⟨fun h => h.2, fun h => ⟨by rw [dirtyCsr, hframe.1], h⟩⟩

/-! ## The law -/

/-- What an exception leaves. -/
structure Precise (c : Cpu) (t : Trap) (c' : Cpu) : Prop where
  regs : c'.regs = c.regs
  fregs : c'.fregs = c.fregs
  reservation : c'.reservation = c.reservation
  data : SameData c.bus c'.bus
  csr : TrapFrame c t.cause c'.csr

/-- The access that an instruction translates.  An atomic translates its first byte only. -/
def translated (c : Cpu) : Instruction → Option (AccessType × U64 × Width)
  | .load op _ rs1 imm => some (.load, c.reg rs1 + imm, op.width)
  | .flw _ rs1 imm => some (.load, c.reg rs1 + imm, .b4)
  | .fld _ rs1 imm => some (.load, c.reg rs1 + imm, .b8)
  | .store op rs1 _ imm => some (.store, c.reg rs1 + imm, op.width)
  | .fsw rs1 _ imm => some (.store, c.reg rs1 + imm, .b4)
  | .fsd rs1 _ imm => some (.store, c.reg rs1 + imm, .b8)
  | .lr _ _ rs1 => some (.load, c.reg rs1, .b1)
  | .sc _ _ rs1 _ | .amo _ _ _ rs1 _ => some (.store, c.reg rs1, .b1)
  | _ => none

/-- Memory still holds the cache entries that the translations of the instruction rebuild. -/
def FaithfulHits (c : Cpu) (inst : Instruction) : Prop :=
  ∀ access va width, c.translated inst = some (access, va, width) →
    c.FaithfulAccess c.lsMode access va width

/-- The instruction is no torn store. -/
def Whole (c : Cpu) : Instruction → Prop
  | .store op rs1 _ imm => c.NotTorn c.lsMode (c.reg rs1 + imm) op.width
  | .fsw rs1 _ imm => c.NotTorn c.lsMode (c.reg rs1 + imm) .b4
  | .fsd rs1 _ imm => c.NotTorn c.lsMode (c.reg rs1 + imm) .b8
  | _ => True

section

variable {fpu : Fpu} {c : Cpu} {inst : Instruction} {r : Retired} {t : Trap}

/-- A memory part that fails keeps the data of RAM. -/
theorem memoryPart_error_sameData {c' : Cpu} (hf : c.FaithfulHits inst) (hw : c.Whole inst)
    (h : memoryPart c inst c = some (.error t, c')) : SameData c.bus c'.bus := by
  cases inst with
  | load | flw | fld =>
      rcases Run.bind_eq_some h with ⟨v, c₁, hl, hp⟩ | ⟨t', hl, _⟩
      · cases hp
      · exact mmuLoad_sameData (hf _ _ _ rfl) hl
  | store | fsw | fsd => exact mmuStore_error_sameData (hf _ _ _ rfl) hw h
  | lr width rd rs1 =>
      have hfva := (hf _ _ _ rfl).first
      rcases Run.bind_eq_some h with ⟨pa, c₁, ht, h⟩ | ⟨t', ht, _⟩
      · have h1 := translateOrTrap_sameData hfva ht
        rcases Run.bind_eq_some h with ⟨v, c₂, hl, hp⟩ | ⟨t', hl, _⟩
        · cases hp
        · exact h1.trans (busLoad_sameData hl)
      · exact translateOrTrap_sameData hfva ht
  | sc width rd rs1 rs2 | amo op width rd rs1 rs2 =>
      have hfva := (hf _ _ _ rfl).first
      rcases Run.bind_eq_some h with ⟨pa, c₁, ht, hp⟩ | ⟨t', ht, _⟩
      · cases hp
      · exact translateOrTrap_sameData hfva ht
  | _ => cases h

/-- Trap entry touches the mode, the counter and the CSRs only. -/
theorem precise_raise {c' : Cpu} (hkeep : OnlyMemory c c') (hdata : SameData c.bus c'.bus)
    (t : Trap) : Precise c t (c'.raise t).cpu := by
  have hfields : ∀ cause tval, (c'.deliverTrap cause tval).regs = c'.regs ∧
      (c'.deliverTrap cause tval).fregs = c'.fregs ∧
      (c'.deliverTrap cause tval).reservation = c'.reservation ∧
      (c'.deliverTrap cause tval).bus = c'.bus := by
    intro cause tval
    rw [deliverTrap]
    split <;> exact ⟨rfl, rfl, rfl, rfl⟩
  obtain ⟨hregs, hfregs, hres, hbus⟩ := hfields t.cause t.tval
  refine ⟨hregs.trans hkeep.regs, hfregs.trans hkeep.fregs, hres.trans hkeep.reservation, ?_, ?_⟩
  · rw [raise, hbus]
    exact hdata
  · exact (deliverTrap_frame c' t.cause t.tval).congr hkeep.mode hkeep.csr hkeep.pc

/-- An illegal floating-point encoding marks the state dirty after trap entry. -/
theorem execute_illegalFp (hill : IllegalFp inst) :
    execute fpu inst c =
      some { c.raise ⟨2, 0⟩ with cpu := (c.raise ⟨2, 0⟩).cpu.markFsDirty } := by
  cases inst with
  | opFp funct7 rs2 rs1 rm rd =>
      rw [execute, (opFpResult_eq_fallthrough ..).mpr hill]
      rfl
  | fma opcode fmt rs3 rs2 rs1 rd =>
      rw [execute, (fmaFpResult_eq_fallthrough ..).mpr hill]
      rfl
  | _ => exact hill.elim

/-- An instruction whose hits are faithful and which is no torn store raises its exceptions
precisely exactly when it does not mark a clean floating-point state after trap entry. -/
theorem precise_iff (hf : c.FaithfulHits inst) (hw : c.Whole inst)
    (h : execute fpu inst c = some r) (ht : r.trap = some t) :
    Precise c t r.cpu ↔ (IllegalFp inst → FsDirty c) := by
  by_cases hill : IllegalFp inst
  · rw [execute_illegalFp hill] at h
    cases h
    cases ht
    have hraise := precise_raise (.refl c) (.refl c.bus) ⟨2, 0⟩
    constructor
    · intro hp _
      exact (dirty_frame_iff c 2 0).mp hp.csr
    · intro hfs
      exact ⟨hraise.regs, hraise.fregs, hraise.reservation, hraise.data,
        (dirty_frame_iff c 2 0).mpr (hfs hill)⟩
  · refine ⟨fun _ hi => absurd hi hill, fun _ => ?_⟩
    cases execute_ends h with
    | raised =>
        cases ht
        exact precise_raise (.refl c) (.refl c.bus) t
    | memory _ hmem =>
        cases ht
        exact precise_raise (memoryPart_keepsHart _ _ _ _ _ hmem)
          (memoryPart_error_sameData hf hw hmem) t
    | fpRaised hi => exact absurd hi hill
    | mret hx =>
        cases hx
        cases ht
    | plain | dirty | csrWrite | sret => cases ht

end

/-- A hart in M-mode at the base of 4 KiB of RAM. -/
def machineHart : Cpu := Cpu.new (Bus.new 0x1000 0x8000_0000) 0x8000_0000

theorem machineHart_ecall : ∃ r t, execute default .ecall machineHart = some r ∧
    r.trap = some t ∧ Precise machineHart t r.cpu := by
  have hrun : execute default .ecall machineHart = some (machineHart.raise ⟨11, 0⟩) := rfl
  have hhits : machineHart.FaithfulHits .ecall := fun _ _ _ hp => by cases hp
  exact ⟨_, _, hrun, rfl, (precise_iff hhits trivial hrun rfl).mpr fun h => h.elim⟩

/-- A hart that is about to store a doubleword over the end of RAM. -/
def tornHart : Cpu :=
  (machineHart.setReg 1 0x8000_0FFC).setReg 2 0xFFFF_FFFF_FFFF_FFFF

/-- The store faults at the first byte behind RAM, after it wrote the bytes before. -/
theorem tornHart_store : ¬ ∀ r t, execute default (.store .sd 1 2 0) tornHart = some r →
    r.trap = some t → Precise tornHart t r.cpu := by
  intro hall
  have hrun : (execute default (.store .sd 1 2 0) tornHart).map
      (fun r => (r.trap, r.cpu.bus.ram.byte 0xFFC)) = some (some ⟨7, 0x8000_1000⟩, 0xFF) := by
    decide
  obtain ⟨r, hr, hp⟩ := Option.map_eq_some_iff.mp hrun
  simp only [Prod.mk.injEq] at hp
  rcases (hall r _ hr hp.1).data.byte 0xFFC with heq | ⟨⟨pa, w, hw, ho, _⟩, _⟩
  · rw [hp.2] at heq
    exact absurd heq (by decide)
  · have ha := (pteWord_eq_some hw).2.1
    have hoff := Bus.offset_eq ho
    have hlo := (Bus.offset_ok ho).2.1
    rw [show tornHart.bus.ramBase.toNat = 0x8000_0000 by rfl] at hoff hlo
    omega

end Cpu

end RiscvEmu

import RiscvEmu.Execution.Aborts
import RiscvEmu.Runs.Frames

/-!
# What aborts a run

In every state that is reached the translation unit holds its entries where they may be.  So a round
of the loop returns unless one of its instructions notifies a block device that does not finish its
requests (`round_none_iff`).  Neither the host functions nor the inputs matter to that.
-/

namespace RiscvEmu.Jit

open Mmu (Placed)
open Cpu (StepStalls placed_frame)

variable {h : Host} {fpu : Fpu} {bus : Bus} {entry : U64} {m m' : Machine} {c c' : Cpu}

theorem poll_mmu (input : Input) (c : Cpu) : (poll input c).mmu = c.mmu := by
  have htrap : ∀ (c : Cpu) (cause tval : U64), (c.deliverTrap cause tval).mmu = c.mmu := by
    intro c cause tval
    rw [Cpu.deliverTrap]
    split <;> rfl
  have hchecked : ∀ c : Cpu, c.checkInterrupts.2.mmu = c.mmu := by
    intro c
    rw [Cpu.checkInterrupts]
    split
    · exact htrap _ _ _
    · rfl
  rw [poll_eq, hchecked, serviced, externalLines, timerLines, receive]
  dsimp only
  split <;> split <;> rfl

/-- In every state of every run the entries of the unit are in place. -/
theorem placed_reached (hm : Reached h bus entry m) :
    Placed m.cpu.mmu ∧ ZeroReg m.cpu ∧ Cached h m.jit := by
  refine hm.invariant (I := fun m => Placed m.cpu.mmu ∧ ZeroReg m.cpu ∧ Cached h m.jit) ?_ ?_
  · rintro m rfl
    refine ⟨fun i hv => ?_, start_zero⟩
    cases hv
  · intro m a m' hm _ hact
    refine ⟨?_, zeroReg_runStable.act hm.2 hact⟩
    rcases act_frame placed_frame hm.2 hact with ⟨input, -, hpoll⟩ | hplaced
    · rw [hpoll, poll_mmu]
      exact hm.1
    · exact hplaced hm.1

/-- An instruction of the next round notifies a device that does not finish: the next one, one of
the block, or the one behind the block when the block has failed. -/
def RoundStalls (h : Host) (m : Machine) : Prop :=
  match m.jit.get m.cpu.pc with
  | none => StepStalls m.cpu
  | some code => ∃ raws, AllHandled h m.cpu.pc raws ∧
      code = emitPrologue ++ emitRaws h m.cpu.pc raws ∧
      (StallsAlong m.cpu.pc raws m.cpu ∨
        ∃ c, (runRaws m.cpu.pc raws m.cpu).returned = some (u64Max, c) ∧ StepStalls c)

/-- What a block returns, or that it does not. -/
theorem returned_none_iff {pc : U64} {raws : List U32} :
    (runRaws pc raws c).returned = none ↔ runRaws pc raws c = .abort := by
  cases hout : runRaws pc raws c with
  | next c₁ => exact absurd hout (runRaws_ends _ _ _ c₁)
  | leave | fault | abort => simp [Outcome.returned]

/-- The instructions of a round that runs a block. -/
theorem blockRound_none_iff {raws : List U32} (hplaced : Placed c.mmu) (hzero : ZeroReg c)
    (hhandled : AllHandled h c.pc raws) {jit : JitCache}
    (hget : jit.get c.pc = some (emitPrologue ++ emitRaws h c.pc raws)) :
    advance h fpu jit c = none ↔ StallsAlong c.pc raws c ∨
      ∃ c', (runRaws c.pc raws c).returned = some (u64Max, c') ∧ StepStalls c' := by
  rw [← runRaws_abort_iff hplaced hhandled, ← returned_none_iff, advance, hget]
  dsimp only
  have hblock := runBlock_does (emitRaws_does hhandled hzero)
  rw [hblock]
  cases hret : (runRaws c.pc raws c).returned with
  | none => simp
  | some p =>
      obtain ⟨next, c₁⟩ := p
      rw [hret] at hblock
      have hframe := block_frame placed_frame hzero ⟨raws, hhandled, rfl⟩ hblock
      by_cases hmax : next = u64Max
      · rw [resume, if_pos hmax] at hframe
        dsimp only
        rw [if_pos hmax, Option.map_eq_none_iff, Cpu.step_none_iff (hframe hplaced), hmax]
        simp
      · dsimp only
        rw [if_neg hmax]
        simp [hmax]

/-- In every state of every run compilation returns, and a step or a round of the loop does not
return exactly when an instruction of it notifies a block device that does not finish. -/
theorem round_none_iff (h : Host) (bus : Bus) (entry : U64) (m : Machine)
    (hm : Reached h bus entry m) :
    (∀ pc, compile h m.jit pc m.cpu ≠ none) ∧
      (∀ fpu, Cpu.step fpu m.cpu = none ↔ StepStalls m.cpu) ∧
      ∀ fpu input, round h fpu input m = none ↔ RoundStalls h m := by
  obtain ⟨hplaced, hzero, hcached⟩ := placed_reached hm
  refine ⟨fun pc => compile_returns hplaced, fun fpu => Cpu.step_none_iff hplaced, ?_⟩
  intro fpu input
  have hadvance : round h fpu input m = none ↔ advance h fpu m.jit m.cpu = none := by
    rw [round]
    cases advance h fpu m.jit m.cpu with
    | none => simp
    | some p => simp
  rw [hadvance, RoundStalls]
  cases hget : m.jit.get m.cpu.pc with
  | some code =>
      obtain ⟨raws, hhandled, rfl⟩ := hcached _ _ hget
      dsimp only
      constructor
      · intro hnone
        exact ⟨raws, hhandled, rfl, (blockRound_none_iff hplaced hzero hhandled hget).mp hnone⟩
      · rintro ⟨raws', hhandled', heq, hstalls⟩
        rw [heq] at hget
        exact (blockRound_none_iff hplaced hzero hhandled' hget).mpr hstalls
  | none =>
      dsimp only
      have hstalls : Cpu.step fpu m.cpu = none ↔ StepStalls m.cpu := Cpu.step_none_iff hplaced
      rw [← hstalls, advance, hget]
      dsimp only
      cases hstep : Cpu.step fpu m.cpu with
      | none => simp
      | some r =>
          have hr : Placed r.cpu.mmu := placed_frame.step hstep hplaced
          dsimp only
          split
          · simp [compile_returns hr]
          · simp

/-- Firmware that notifies the block device, whose available ring is outside RAM. -/
def notifyBus : Bus :=
  { (Bus.new 0x1000 0x8000_0000).withWords [(0, 0x0405_2823_1000_1537)] with
    virtioBlk := { VirtioBlk.new none with queueReady := 1, availAddr := 1, descAddr := 1 } }

/-- The machine in front of the notification. -/
def notifyMachine : Machine :=
  let c := Cpu.new notifyBus 0x8000_0000
  .start { c.setReg 10 0x1000_1000 with pc := 0x8000_0004 }

theorem notifyMachine_reached : Reached layoutHost notifyBus 0x8000_0000 notifyMachine :=
  have hstart : Reached layoutHost notifyBus 0x8000_0000 (.start (.new notifyBus 0x8000_0000)) :=
    .init rfl
  hstart.act (a := .step default) rfl

theorem notifyMachine_unfinished : notifyMachine.cpu.bus.Unfinished := by
  have hidx : VirtioBlk.r16 notifyMachine.cpu.bus.ram 0x8000_0000
      (notifyMachine.cpu.bus.virtioBlk.availAddr + 2) = none := by decide
  have hdrain : notifyMachine.cpu.bus.virtioBlk.drain 0x8000_0000 notifyMachine.cpu.bus.ram =
      none := by
    rw [VirtioBlk.drain, hidx]
    rfl
  exact hdrain

theorem notifyMachine_round : round layoutHost default ⟨[], 0⟩ notifyMachine = none := by
  have hiff := round_none_iff layoutHost _ _ notifyMachine notifyMachine_reached
  refine (hiff.2.2 default ⟨[], 0⟩).mpr ⟨.store .sw 10 0 0x50, notifyMachine.cpu, rfl,
    0x1000_1050, 0x1000_1050, notifyMachine.cpu, rfl, rfl, ?_, ?_, notifyMachine_unfinished⟩
  · intro width rd rs1 rs2 hsc
    cases hsc
  · exact ⟨by decide, by decide⟩

end RiscvEmu.Jit

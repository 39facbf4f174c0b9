import RiscvEmu.Native.Blocks
import RiscvEmu.Runs.Poll

/-!
# The size of the current instruction

A hart keeps the size of the instruction it executes.  Each instruction sets it before anything
reads it, so harts that differ there only go on alike.  A block does not set it: the hart it leaves
differs from that of the interpreter in the size, and in nothing else.
-/

namespace RiscvEmu

namespace Cpu

/-- The hart with another size of the current instruction. -/
def sized (n : U64) (c : Cpu) : Cpu := { c with instSize := n }

variable {fpu : Fpu} (n : U64) {c : Cpu}

@[simp] theorem sized_pc : (sized n c).pc = c.pc := rfl

@[simp] theorem sized_mode : (sized n c).mode = c.mode := rfl

@[simp] theorem sized_jitInvalidate : (sized n c).jitInvalidate = c.jitInvalidate := rfl

@[simp] theorem sized_fenceIPending : (sized n c).fenceIPending = c.fenceIPending := rfl

/-! ## Memory -/

theorem translate_ignores (mode : PrivMode) (va : U64) (access : AccessType) :
    Run.Ignores (sized n) (translate mode va access) := by
  intro c
  have hunit : Run.Ignores (sized n) (Run.zoom (fun c : Cpu => (c.mmu, c.bus))
      (fun s c => { c with mmu := s.1, bus := s.2 }) id
      (Mmu.translate c.csr.satp mode c.csr.mstatus va access)) :=
    .zoom _ (fun _ => rfl) fun _ _ => rfl
  exact hunit c

theorem translateOrTrap_ignores (mode : PrivMode) (va : U64) (access : AccessType) :
    Run.Ignores (sized n) (translateOrTrap mode va access) :=
  (translate_ignores n mode va access).mapError

theorem busLoad_ignores (pa : U64) (width : Width) (trap : Trap) :
    Run.Ignores (sized n) (busLoad pa width trap) :=
  .zoom _ (fun _ => rfl) fun _ _ => rfl

theorem fetch_ignores (mode : PrivMode) (pc : U64) : Run.Ignores (sized n) (fetch mode pc) := by
  refine .bind (translateOrTrap_ignores n _ _ _) fun pa => ?_
  refine .bind (busLoad_ignores n _ _ _) fun lo => ?_
  dsimp only
  split
  · exact .pure _
  · split
    · exact .bind (translateOrTrap_ignores n _ _ _) fun _ =>
        .bind (busLoad_ignores n _ _ _) fun _ => .pure _
    · exact .bind (.pure _) fun _ => .bind (busLoad_ignores n _ _ _) fun _ => .pure _

/-! ## Steps -/

theorem deliverTrap_sized (cause tval : U64) :
    (sized n c).deliverTrap cause tval = sized n (c.deliverTrap cause tval) := by
  rw [deliverTrap, deliverTrap]
  have hdelegated : (sized n c).delegated cause = c.delegated cause := rfl
  rw [hdelegated]
  split <;> rfl

theorem raise_sized (t : Trap) :
    (sized n c).raise t = ⟨sized n (c.raise t).cpu, (c.raise t).trap⟩ := by
  rw [raise, raise, deliverTrap_sized]

/-- Harts that differ in the size make the same step, up to the size. -/
theorem step_sized {r : Retired} (h : step fpu c = some r) :
    ∃ k, step fpu (sized n c) = some ⟨sized k r.cpu, r.trap⟩ := by
  have hint : (sized n c).nextInterrupt = c.nextInterrupt := rfl
  rw [step] at h ⊢
  rw [hint]
  cases hnext : c.nextInterrupt with
  | some code =>
      rw [hnext] at h
      cases h
      exact ⟨n, congrArg some (raise_sized n _)⟩
  | none =>
      rw [hnext] at h
      dsimp only at h ⊢
      rw [sized_pc, sized_mode]
      split at h
      · rename_i hodd
        cases h
        rw [if_pos hodd]
        exact ⟨n, congrArg some (raise_sized n _)⟩
      · rename_i heven
        rw [if_neg heven, orRaise, fetch_ignores]
        rcases orRaise_eq_some h with ⟨t, c', hfetch, rfl⟩ | ⟨raw, c', hfetch, hx⟩
        · rw [hfetch]
          exact ⟨n, congrArg some (raise_sized n t)⟩
        · rw [hfetch]
          exact ⟨r.cpu.instSize, hx⟩

end Cpu

namespace Jit

variable (n : U64) {c : Cpu}

open Cpu (sized)

theorem fetchRaw_ignores (pc : U64) : Run.Ignores (sized n) (fetchRaw pc) := by
  intro c
  have hfetch : Run.Ignores (sized n)
      (do
        let pa ← Cpu.translateOrTrap c.mode pc .fetch
        let v ← Cpu.busLoad pa .b4 ⟨1, pc⟩
        pure (v.setWidth 32) : Run Cpu Trap U32) :=
    .bind (Cpu.translateOrTrap_ignores n _ _ _) fun _ =>
      .bind (Cpu.busLoad_ignores n _ _ _) fun _ => .pure _
  exact hfetch c

theorem checkInterrupts_sized :
    (sized n c).checkInterrupts.2 = sized n c.checkInterrupts.2 := by
  have hint : (sized n c).nextInterrupt = c.nextInterrupt := rfl
  rw [Cpu.checkInterrupts, Cpu.checkInterrupts, hint]
  split
  · exact Cpu.deliverTrap_sized n _ _
  · rfl

/-- A service does not see the size. -/
theorem poll_sized (input : Input) : poll input (sized n c) = sized n (poll input c) := by
  have hreceive : receive input (sized n c) = sized n (receive input c) := by
    rw [receive, receive, apply_ite (sized n)]
    rfl
  have htimer : ∀ c, timerLines (sized n c) = sized n (timerLines c) := by
    intro c
    rw [timerLines, timerLines, apply_ite (sized n)]
    rfl
  have hserviced : serviced input (sized n c) = sized n (serviced input c) := by
    rw [serviced, hreceive]
    exact congrArg externalLines (htimer (advanceClock input (receive input c)))
  rw [poll_eq, poll_eq, hserviced, checkInterrupts_sized]

end Jit

end RiscvEmu

import RiscvEmu.Refinement.Loop
import RiscvEmu.Runs.Frames

/-!
# The interpreter

The reference both loops are measured against.  It executes instructions from memory, is served by
the devices, and takes an interrupt at any time at which one can be taken: the loops do not look for
interrupts before each instruction.

The loop without blocks steps once in each round.  Every run of it is one of the interpreter
(`plain_interprets`).
-/

namespace RiscvEmu

namespace Cpu

/-- Execute the instruction at the program counter. -/
def exec (fpu : Fpu) (c : Cpu) : Option Retired :=
  if c.pc &&& 0x1 ≠ 0 then some (c.raise ⟨0, c.pc⟩)
  else orRaise (fetch c.mode c.pc) (executeFetched fpu) c

/-- A step takes an interrupt or executes an instruction. -/
theorem step_eq (fpu : Fpu) (c : Cpu) : step fpu c =
    match c.nextInterrupt with
    | some code => some (c.raise (interruptTrap code))
    | none => exec fpu c := rfl

/-- An instruction keeps what survives its parts. -/
theorem Stable.exec {I : Cpu → Prop} {fpu : Fpu} {c : Cpu} {r : Retired} (hI : Stable I) (hc : I c)
    (hexec : exec fpu c = some r) : I r.cpu := by
  rw [Cpu.exec] at hexec
  split at hexec
  · cases hexec
    exact hI.trap _ _ hc
  · rcases orRaise_eq_some hexec with ⟨t, c₁, hfetch, rfl⟩ | ⟨raw, c₁, hfetch, hx⟩
    · exact hI.trap _ _ (hI.memory (fetch_keepsHart _ _ _ _ _ hfetch) hc)
    · have hsized := hI.instSize (Steady.decodeFetched_size raw)
        (hI.memory (fetch_keepsHart _ _ _ _ _ hfetch) hc)
      rw [executeFetched] at hx
      split at hx
      · cases hx
        exact hI.trap _ _ hsized
      · exact hI.execute hsized hx

/-- An instruction meets the relations that memory operations meet. -/
theorem Frame.exec {R : Cpu → Cpu → Prop} {fpu : Fpu} {c : Cpu} {r : Retired} (hR : Frame R)
    (hexec : exec fpu c = some r) : R c r.cpu := by
  rw [Cpu.exec] at hexec
  split at hexec
  · cases hexec
    exact hR.raise _
  · exact hR.orRaise (hR.fetch _ _) (fun raw c₁ r hx => hR.executeFetched hx) hexec

end Cpu

namespace Jit

open Fetching (Mark executed executed_add)

/-- A step of the interpreter, with its marks.  An interrupt counts as an instruction. -/
inductive Interprets (fpu : Fpu) : List Mark → Cpu → Cpu → Prop
  | exec {c : Cpu} {r : Retired} : Cpu.exec fpu c = some r → Interprets fpu (executed 1) c r.cpu
  | interrupt {c : Cpu} {code : Nat} : c.nextInterrupt = some code →
      Interprets fpu (executed 1) c (c.raise (Cpu.interruptTrap code)).cpu
  | poll {c : Cpu} (input : Input) : Interprets fpu [.service input] c (RiscvEmu.Jit.poll input c)
  /-- The notes for the loop are taken. -/
  | clear {c : Cpu} (jitInvalidate fenceIPending : Bool) : Interprets fpu (executed 0) c
      { c with jitInvalidate := jitInvalidate, fenceIPending := fenceIPending }

variable {fpu : Fpu} {c : Cpu} {m m' : Machine}

theorem Interprets.step {r : Retired} (h : Cpu.step fpu c = some r) :
    Interprets fpu (executed 1) c r.cpu := by
  rw [Cpu.step_eq] at h
  split at h
  · rename_i code hcode
    cases h
    exact .interrupt hcode
  · exact .exec h

/-- What survives every action survives the steps of the interpreter. -/
theorem Interprets.keeps {P : Cpu → Prop} {A : U64 → Prop} {es : List Mark} {c' : Cpu}
    (hP : RunStable P A) (hc : P c) (hnext : Interprets fpu es c c') : P c' := by
  cases hnext with
  | exec hexec => exact hP.toStable.exec hc hexec
  | interrupt hcode => exact hP.trap _ _ hc
  | poll input => exact hP.poll input hc
  | clear jitInvalidate fenceIPending => exact hP.flags _ _ hc

/-- So does the place of RAM. -/
theorem Interprets.extends {es : List Mark} {c' : Cpu} (hnext : Interprets fpu es c c') :
    Extends c.bus c'.bus := by
  cases hnext with
  | exec hexec => exact extends_busFrame.frame.exec hexec
  | interrupt hcode => exact extends_busFrame.frame.raise _
  | poll input => exact poll_extends input c
  | clear jitInvalidate fenceIPending => exact .refl _

/-! ## The loop without blocks -/

/-- One round without blocks. -/
def plainRound (fpu : Fpu) (input : Input) (m : Machine) : Option Machine :=
  match Cpu.step fpu m.cpu with
  | none => none
  | some r =>
      let m := flushFenceI (flushSatp { m with cpu := r.cpu })
      let m := { m with tick := m.tick + 1 }
      some (if m.tick &&& 1023 = 0 then { m with cpu := poll input m.cpu } else m)

/-- The rounds without blocks, from a hart on. -/
def plainLoop (fpu : Fpu) (c : Cpu) : System Machine Input where
  init m := m = .start c
  step := plainRound fpu

theorem flushSatp_interprets (m : Machine) :
    Trail (Interprets fpu) m.cpu (executed 0) (flushSatp m).cpu := by
  rw [flushSatp]
  split
  · exact .single (.clear false m.cpu.fenceIPending)
  · exact .refl

theorem flushFenceI_interprets (m : Machine) :
    Trail (Interprets fpu) m.cpu (executed 0) (flushFenceI m).cpu := by
  rw [flushFenceI]
  split
  · dsimp only
    split <;> exact .single (.clear m.cpu.jitInvalidate false)
  · exact .refl

/-- A round is one step of the interpreter, and the services it makes. -/
theorem plainRound_interprets {input : Input} (hround : plainRound fpu input m = some m') :
    ∃ es, Trail (Interprets fpu) m.cpu es m'.cpu ∧ es.filterMap Mark.served = served input m' ∧
      1 ≤ es.countP Mark.executes := by
  rw [plainRound] at hround
  split at hround
  · cases hround
  · rename_i r hstep
    have htrail := ((Trail.single (.step hstep)).trans
      (flushSatp_interprets { m with cpu := r.cpu })).trans (flushFenceI_interprets _)
    rw [← executed_add, ← executed_add] at htrail
    dsimp only at hround
    split at hround
    · rename_i hticks
      cases hround
      refine ⟨_, htrail.tail (.poll input), ?_, ?_⟩
      · rw [List.filterMap_append, Fetching.executed_served, served, if_pos hticks]
        rfl
      · rw [List.countP_append, Fetching.executed_count]
        omega
    · rename_i hticks
      cases hround
      refine ⟨_, htrail, ?_, ?_⟩
      · rw [Fetching.executed_served, served, if_neg hticks]
      · rw [Fetching.executed_count]

/-- Every run of the loop without blocks is one of the interpreter, with the same services and at
least one instruction for each round. -/
theorem plain_interprets {inputs : List Input}
    (hrun : (plainLoop fpu c).after inputs (.start c) = some m) :
    ∃ es, Trail (Interprets fpu) c es m.cpu ∧
      es.filterMap Mark.served = (plainLoop fpu c).outputs served inputs (.start c) ∧
      inputs.length ≤ es.countP Mark.executes := by
  have hstep : ∀ m input m' (c : Cpu), m.cpu = c → plainRound fpu input m = some m' →
      ∃ es c', Trail (Interprets fpu) c es c' ∧ m'.cpu = c' ∧
        es.filterMap Mark.served = served input m' ∧ 1 ≤ es.countP Mark.executes := by
    rintro m input m' c rfl hround
    obtain ⟨es, htrail, hmarks⟩ := plainRound_interprets hround
    exact ⟨es, m'.cpu, htrail, rfl, hmarks⟩
  obtain ⟨es, c', htrail, rfl, hmarks⟩ :=
    System.after_trail (M := plainLoop fpu c) hstep (s := .start c) rfl hrun
  exact ⟨es, htrail, hmarks⟩

end Jit

end RiscvEmu

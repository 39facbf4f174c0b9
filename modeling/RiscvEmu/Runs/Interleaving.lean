import Mathlib.Logic.Relation
import RiscvEmu.Lib.System
import RiscvEmu.Jit.Loop
import RiscvEmu.Native.Blocks

/-!
# Interleavings of steps and blocks

The actions of the run loop, in any order and number: a step, a block, a compilation at any address,
writes of CSRs, traps, the devices, and the flushes.  The rounds of the loop are sequences of them
(`Reachable.round`).

An invariant that survives steps, blocks and the other actions holds in every state that is
reached, and all the blocks in the cache are blocks at their addresses.
-/

namespace RiscvEmu.Jit

open Cpu (Stable)

/-- What can happen to the machine. -/
inductive Action where
  | step (fpu : Fpu)
  /-- The block at the program counter runs.  When it returns all ones, the hart is left to a later
  step. -/
  | block
  | compile (startPc : U64)
  | csrWrite (addr : CsrAddr) (v : U64)
  | trap (cause tval : U64)
  | poll (input : Input)
  | flushSatp
  | flushFenceI
  | ticks (n : U64)

/-- Go on behind a block, with the value it returned. -/
def resume (next : U64) (c : Cpu) : Cpu := if next = u64Max then c else { c with pc := next }

/-- The machine after an action, if it comes to an end. -/
def Machine.act (h : Host) (a : Action) (m : Machine) : Option Machine :=
  match a with
  | .step fpu => (Cpu.step fpu m.cpu).map fun r => { m with cpu := r.cpu }
  | .block =>
      match m.jit.get m.cpu.pc with
      | none => none
      | some code => (runBlock h code m.cpu).map fun (next, c) => { m with cpu := resume next c }
  | .compile startPc =>
      (compile h m.jit startPc m.cpu).map fun (jit, c) => { m with cpu := c, jit := jit }
  | .csrWrite addr v => some { m with cpu := m.cpu.csrWrite addr v }
  | .trap cause tval => some { m with cpu := m.cpu.deliverTrap cause tval }
  | .poll input => some { m with cpu := RiscvEmu.Jit.poll input m.cpu }
  | .flushSatp => some (RiscvEmu.Jit.flushSatp m)
  | .flushFenceI => some (RiscvEmu.Jit.flushFenceI m)
  | .ticks n => some { m with tick := m.tick + n }

/-- All interleavings, from a new hart with an entry point. -/
def interleavings (h : Host) (bus : Bus) (entry : U64) : System Machine Action where
  init m := m = .start (.new bus entry)
  step := Machine.act h

/-- The states that interleavings reach. -/
abbrev Reached (h : Host) (bus : Bus) (entry : U64) : Machine → Prop :=
  (interleavings h bus entry).Reachable fun _ _ => True

variable {h : Host} {bus : Bus} {entry : U64} {m m' : Machine} {a : Action}

/-- A sequence of actions. -/
def Acts (h : Host) : Machine → Machine → Prop :=
  Relation.ReflTransGen fun m m' => ∃ a, Machine.act h a m = some m'

theorem Acts.act {m₀ : Machine} (hm : Acts h m₀ m) (hact : m.act h a = some m') : Acts h m₀ m' :=
  hm.tail ⟨a, hact⟩

theorem Reached.act (hm : Reached h bus entry m) (hact : m.act h a = some m') :
    Reached h bus entry m' := .step (l := a) hm trivial hact

/-! ## Rounds -/

/-- The instructions of a round are actions. -/
theorem advance_acts {fpu : Fpu} {c : Cpu} {jit : JitCache} {n : U64}
    (hadv : advance h fpu m.jit m.cpu = some (c, jit, n)) :
    Acts h m { m with cpu := c, jit := jit } := by
  have hstart : Acts h m m := Relation.ReflTransGen.refl
  rw [Jit.advance] at hadv
  split at hadv
  · rename_i code hcode
    split at hadv
    · cases hadv
    · rename_i next c' hrun
      have hblock : Acts h m { m with cpu := resume next c' } := by
        refine hstart.act (a := .block) ?_
        rw [Machine.act, hcode]
        dsimp only
        rw [hrun]
        rfl
      split at hadv
      · rename_i hnext
        obtain ⟨r, hstep, heq⟩ := Option.map_eq_some_iff.mp hadv
        cases heq
        rw [resume, if_pos hnext] at hblock
        refine hblock.act (a := .step fpu) ?_
        rw [Machine.act, hstep]
        rfl
      · rename_i hnext
        cases hadv
        rw [resume, if_neg hnext] at hblock
        exact hblock
  · split at hadv
    · cases hadv
    · rename_i r hstep
      have hstepped : Acts h m { m with cpu := r.cpu } := by
        refine hstart.act (a := .step fpu) ?_
        rw [Machine.act, hstep]
        rfl
      split at hadv
      · obtain ⟨⟨jit', c'⟩, hcompile, heq⟩ := Option.map_eq_some_iff.mp hadv
        cases heq
        refine hstepped.act (a := .compile m.cpu.pc) ?_
        rw [Machine.act]
        dsimp only
        rw [hcompile]
        rfl
      · cases hadv
        exact hstepped

/-- A round of the loop is a sequence of actions. -/
theorem round_acts {fpu : Fpu} {input : Input} (hround : round h fpu input m = some m') :
    Acts h m m' := by
  rw [Jit.round] at hround
  split at hround
  · cases hround
  · rename_i c jit n hadv
    have hflushed := (advance_acts hadv).act (a := .flushSatp) rfl |>.act (a := .flushFenceI) rfl
    have hticked := hflushed.act (a := .ticks n) rfl
    dsimp only at hround
    split at hround
    · cases hround
      exact hticked.act (a := .poll input) rfl
    · cases hround
      exact hticked

/-! ## Invariants -/

/-- A property of harts that survives every action. -/
structure RunStable (P : Cpu → Prop) (A : U64 → Prop) : Prop extends
    Stable P, BlockStable P A where
  /-- Blocks run at such addresses. -/
  place : ∀ {c : Cpu}, P c → A c.pc
  zero : ∀ {c : Cpu}, P c → ZeroReg c
  mip : ∀ {c : Cpu} (v : U64), P c → P { c with csr := { c.csr with mip := v } }
  flags : ∀ {c : Cpu} (jitInvalidate fenceIPending : Bool), P c →
    P { c with jitInvalidate := jitInvalidate, fenceIPending := fenceIPending }

/-- The cache holds blocks at their addresses. -/
def Cached (h : Host) (jit : JitCache) : Prop :=
  ∀ pc code, jit.get pc = some code → IsBlock h pc code

theorem Cached.compile {jit jit' : JitCache} {c c' : Cpu} {pc : U64} (hjit : Cached h jit)
    (hcompile : compile h jit pc c = some (jit', c')) : Cached h jit' := by
  obtain ⟨-, rfl | ⟨code, hblock, rfl⟩⟩ := compile_eq hcompile
  · exact hjit
  · intro pc' code' hget
    rw [JitCache.get, JitCache.insert, Function.update_apply] at hget
    split at hget
    · rename_i hpc
      cases hget
      exact hpc ▸ hblock
    · exact hjit pc' code' hget

theorem cached_new : Cached h .new := nofun

section

variable {P : Cpu → Prop} {A : U64 → Prop}

/-- A block keeps an invariant, also where it leaves the hart to a step. -/
theorem block_keeps (hI : BlockStable P A) {c c' : Cpu} {code : Code} {next : U64}
    (hplace : A c.pc) (hzero : ZeroReg c) (hc : P c) (hblock : IsBlock h c.pc code)
    (hrun : runBlock h code c = some (next, c')) : P (resume next c') := by
  obtain ⟨raws, hhandled, rfl⟩ := hblock
  rw [runBlock_does (emitRaws_does hhandled hzero)] at hrun
  have hall : (runRaws c.pc raws c).All P A := runRaws_all hI hplace hc
  cases hout : runRaws c.pc raws c with
  | next | abort => rw [hout] at hrun; cases hrun
  | leave c₁ pc =>
      rw [hout] at hrun hall
      cases hrun
      rw [resume]
      split
      · exact hall.1
      · exact hI.pc hall.2 hall.1
  | fault c₁ =>
      rw [hout] at hrun hall
      cases hrun
      rw [resume, if_pos rfl]
      exact hall

/-- A service keeps what survives the devices, the interrupt lines and a trap. -/
theorem poll_keeps (hmemory : ∀ {c c' : Cpu}, Cpu.OnlyMemory c c' → P c → P c')
    (hmip : ∀ {c : Cpu} (v : U64), P c → P { c with csr := { c.csr with mip := v } })
    (htrap : ∀ {c : Cpu} (cause tval : U64), P c → P (c.deliverTrap cause tval))
    {c : Cpu} (input : Input) (hc : P c) : P (Jit.poll input c) := by
  have hbus : ∀ {c : Cpu} (bus : Bus), P c → P { c with bus := bus } :=
    fun bus hc => hmemory (.ofBus _ bus) hc
  have hset : ∀ {c : Cpu} (bit : Nat) (active : Bool), P c → P (Jit.setMip c bit active) :=
    fun _ _ hc => hmip _ hc
  have hcheck : ∀ {c : Cpu}, P c → P c.checkInterrupts.2 := by
    intro c hc
    rw [Cpu.checkInterrupts]
    split
    · exact htrap _ _ hc
    · exact hc
  unfold Jit.poll
  extract_lets b rx _ clint _ timed mtip stip plic _ lines seip
  have hrx : P rx := by
    unfold rx
    split
    · exact hbus _ hc
    · exact hc
  have hmtip : P mtip := hset _ _ (hbus _ hrx)
  have hstip : P stip := by
    unfold stip
    split
    · exact hset _ _ hmtip
    · exact hmtip
  exact hcheck (hset _ _ (hbus _ hstip))

theorem RunStable.poll (hP : RunStable P A) {c : Cpu} (input : Input) (hc : P c) :
    P (Jit.poll input c) := poll_keeps hP.memory hP.mip hP.trap input hc

theorem RunStable.flushSatp (hP : RunStable P A) (hm : P m.cpu ∧ Cached h m.jit) :
    P (Jit.flushSatp m).cpu ∧ Cached h (Jit.flushSatp m).jit := by
  rw [Jit.flushSatp]
  split
  · exact ⟨hP.flags false _ hm.1, cached_new⟩
  · exact hm

theorem RunStable.flushFenceI (hP : RunStable P A) (hm : P m.cpu ∧ Cached h m.jit) :
    P (Jit.flushFenceI m).cpu ∧ Cached h (Jit.flushFenceI m).jit := by
  rw [Jit.flushFenceI]
  split
  · dsimp only
    split
    · exact ⟨hP.flags _ false hm.1, cached_new⟩
    · exact ⟨hP.flags _ false hm.1, hm.2⟩
  · exact hm

/-- An action keeps the invariant. -/
theorem RunStable.act (hP : RunStable P A) (hm : P m.cpu ∧ Cached h m.jit)
    (hact : m.act h a = some m') : P m'.cpu ∧ Cached h m'.jit := by
  obtain ⟨hc, hjit⟩ := hm
  cases a with
  | step fpu =>
      obtain ⟨r, hstep, rfl⟩ := Option.map_eq_some_iff.mp hact
      exact ⟨hP.step hc hstep, hjit⟩
  | block =>
      rw [Machine.act] at hact
      split at hact
      · cases hact
      · rename_i code hget
        obtain ⟨⟨next, c'⟩, hrun, rfl⟩ := Option.map_eq_some_iff.mp hact
        have hblock := hjit _ _ hget
        exact ⟨block_keeps hP.toBlockStable (hP.place hc) (hP.zero hc) hc hblock hrun, hjit⟩
  | compile startPc =>
      obtain ⟨⟨jit', c'⟩, hcompile, rfl⟩ := Option.map_eq_some_iff.mp hact
      exact ⟨hP.memory (compile_eq hcompile).1 hc, hjit.compile hcompile⟩
  | csrWrite addr v =>
      cases hact
      exact ⟨hP.csrWrite addr v hc, hjit⟩
  | trap cause tval =>
      cases hact
      exact ⟨hP.trap cause tval hc, hjit⟩
  | poll input =>
      cases hact
      exact ⟨hP.poll input hc, hjit⟩
  | flushSatp =>
      cases hact
      exact hP.flushSatp ⟨hc, hjit⟩
  | flushFenceI =>
      cases hact
      exact hP.flushFenceI ⟨hc, hjit⟩
  | ticks n =>
      cases hact
      exact ⟨hc, hjit⟩

/-- So does a sequence of actions. -/
theorem RunStable.acts (hP : RunStable P A) (hm : P m.cpu ∧ Cached h m.jit)
    (hacts : Acts h m m') : P m'.cpu ∧ Cached h m'.jit := by
  induction hacts with
  | refl => exact hm
  | tail _ hact ih =>
      obtain ⟨a, hact⟩ := hact
      exact hP.act ih hact

/-- What a new hart satisfies holds in every run. -/
theorem RunStable.reached (hP : RunStable P A) (hnew : P (.new bus entry))
    (hm : Reached h bus entry m) : P m.cpu ∧ Cached h m.jit := by
  refine hm.invariant (I := fun m => P m.cpu ∧ Cached h m.jit) ?_ ?_
  · rintro m rfl
    exact ⟨hnew, cached_new⟩
  · intro m a m' hm _ hact
    exact hP.act hm hact

end

/-- Firmware that points its trap vector at an odd address, in vectored mode, and takes a timer
interrupt. -/
def vectoredMachine : Machine :=
  let c := Cpu.new (Bus.new 0x2000 0x8000_0000) 0x8000_0000
  .start ((c.csrWrite 0x305 0x8000_1001).deliverTrap 0x8000_0000_0000_0007 0)

theorem vectoredMachine_reached :
    Reached layoutHost (Bus.new 0x2000 0x8000_0000) 0x8000_0000 vectoredMachine :=
  have hstart : Reached layoutHost (Bus.new 0x2000 0x8000_0000) 0x8000_0000
      (.start (.new (Bus.new 0x2000 0x8000_0000) 0x8000_0000)) := .init rfl
  (hstart.act (a := .csrWrite 0x305 0x8000_1001) rfl).act
    (a := .trap 0x8000_0000_0000_0007 0) rfl

end RiscvEmu.Jit

import RiscvEmu.Refinement.Blocks

/-!
# The run loop as an interpreter

Every run of the loop is a run of the interpreter with a memory of fetches, from the same start and
with the same services (`loop_refines`).  The harts are the same but for the size of the current
instruction.  Each round executes at least one instruction, so the loop does not stand still.

The blocks in the cache are those of encodings that were fetched since the last flush.  So that is
how far an instruction that is executed can lie behind memory, and behind the page tables.
-/

namespace RiscvEmu.Jit

open Fetching (Next executed executed_add)

variable {h : Host} {fpu : Fpu} {c c' : Cpu} {jit jit' : JitCache} {m m' : Machine} {w : Fetching}
  {n : U64}

/-- The rounds of the loop, from a hart on. -/
def loop (h : Host) (fpu : Fpu) (c : Cpu) : System Machine Input where
  init m := m = .start c
  step := round h fpu

/-- The hart of the loop is that of the machine, and the blocks are of what it has fetched. -/
structure Carries (h : Host) (c : Cpu) (jit : JitCache) (w : Fetching) : Prop where
  cpu : ∃ k, c = Cpu.sized k w.cpu
  cache : ∀ pc code, jit.get pc = some code → Kept h w.seen pc code

theorem carries_start (c : Cpu) : Carries h c .new (.start c) :=
  ⟨⟨c.instSize, rfl⟩, by intro pc code hget; cases hget⟩

theorem Carries.cached (hcarries : Carries h c jit w) : Cached h jit := by
  intro pc code hget
  obtain ⟨raws, -, hhandled, -, hcode⟩ := hcarries.cache pc code hget
  exact ⟨raws, hhandled, hcode⟩

/-- A step of the loop is one of the machine. -/
theorem Carries.step {r : Retired} (hcarries : Carries h c jit w)
    (hstep : Cpu.step fpu c = some r) :
    ∃ d, Next fpu (executed 1) w { w with cpu := d, last := c.pc } ∧
      ∃ k, r.cpu = Cpu.sized k d := by
  obtain ⟨k, rfl⟩ := hcarries.cpu
  obtain ⟨k', hstep'⟩ := Cpu.step_sized w.cpu.instSize hstep
  exact ⟨_, .step hstep', r.cpu.instSize, rfl⟩

/-- The instructions of a round. -/
theorem advance_trail (hparity : Parity c) (hcarries : Carries h c jit w)
    (hadv : advance h fpu jit c = some (c', jit', n)) :
    ∃ i w', 1 ≤ i ∧ Trail (Next fpu) w (executed i) w' ∧ Carries h c' jit' w' := by
  obtain ⟨k, hw⟩ := hcarries.cpu
  rw [advance] at hadv
  split at hadv
  · -- the block at the program counter runs
    rename_i code hget
    obtain ⟨raws, hne, hhandled, halong, rfl⟩ := hcarries.cache _ _ hget
    rw [runBlock_does (emitRaws_does hhandled hparity.zero)] at hadv
    have hstart : w.cpu = atInst c c.pc w.cpu.instSize := by
      rw [hw]
      rfl
    have hall : (runRaws c.pc raws c).All Parity IsEven :=
      runRaws_all parity_runStable.toBlockStable hparity.pc hparity
    cases hrun : runRaws c.pc raws c with
    | next | abort =>
        rw [hrun] at hadv
        cases hadv
    | leave c₁ target =>
        obtain ⟨i, d, htrail, hreaches, hcount⟩ := runRaws_trail fpu hhandled hparity.pc hstart
          halong (by simp [hrun])
        rw [hrun] at hadv hreaches hcount hall
        dsimp only [Outcome.returned] at hadv
        split at hadv
        · rename_i hmax
          exact absurd hall.2 (hmax ▸ u64Max_odd)
        · cases hadv
          obtain ⟨size, rfl⟩ := hreaches
          refine ⟨i, _, ?_, htrail, ⟨c₁.instSize, rfl⟩, hcarries.cache⟩
          rcases hcount hne with hpos | ⟨c₂, hfault⟩
          · exact hpos
          · cases hfault
    | fault c₁ =>
        obtain ⟨i, d, htrail, hreaches, -⟩ := runRaws_trail fpu hhandled hparity.pc hstart
          halong (by simp [hrun])
        rw [hrun] at hadv hreaches
        dsimp only [Outcome.returned] at hadv
        rw [if_pos rfl] at hadv
        obtain ⟨r, hstep, heq⟩ := Option.map_eq_some_iff.mp hadv
        cases heq
        obtain ⟨size, rfl⟩ := hreaches
        have hthere : Carries h c₁ jit { w with cpu := Cpu.sized size c₁ } :=
          ⟨⟨c₁.instSize, rfl⟩, hcarries.cache⟩
        obtain ⟨d, hnext, hd⟩ := hthere.step hstep
        refine ⟨i + 1, { w with cpu := d, last := c₁.pc }, Nat.le_add_left 1 i, ?_, hd,
          hcarries.cache⟩
        rw [executed_add]
        exact htrail.tail hnext
  · -- a step, and what it compiles
    split at hadv
    · cases hadv
    · rename_i r hstep
      obtain ⟨d, hnext, k', hd⟩ := hcarries.step hstep
      split at hadv
      · obtain ⟨⟨jit₁, c₁⟩, hcompile, heq⟩ := Option.map_eq_some_iff.mp hadv
        cases heq
        obtain ⟨w', htrail, hc, hgrows, hjit⟩ :=
          compile_trail fpu (w := { w with cpu := d, last := c.pc }) hd (.inl rfl) hcompile
        refine ⟨1, w', Nat.le_refl 1, .head hnext htrail, ⟨k', hc⟩, ?_⟩
        intro pc code hget
        rcases hjit with rfl | ⟨code', hkept, rfl⟩
        · exact (hcarries.cache pc code hget).mono hgrows.seen
        · rw [JitCache.get, JitCache.insert, Function.update_apply] at hget
          split at hget
          · rename_i hpc
            cases hget
            exact hpc ▸ hkept
          · exact (hcarries.cache pc code hget).mono hgrows.seen
      · cases hadv
        exact ⟨1, _, Nat.le_refl 1, .single hnext, ⟨k', hd⟩, hcarries.cache⟩

/-- The flush of a change of the page tables. -/
theorem flushSatp_trail (fpu : Fpu) (hcarries : Carries h m.cpu m.jit w) :
    ∃ w', Trail (Next fpu) w (executed 0) w' ∧
      Carries h (flushSatp m).cpu (flushSatp m).jit w' := by
  obtain ⟨k, hw⟩ := hcarries.cpu
  rw [flushSatp]
  split
  · rename_i hflag
    rw [hw, Cpu.sized_jitInvalidate] at hflag
    refine ⟨_, .single (.flushSatp hflag), ⟨k, ?_⟩, ?_⟩
    · rw [hw]
      rfl
    · intro pc code hget
      cases hget
  · exact ⟨w, .refl, hcarries⟩

/-- The flush of a fence. -/
theorem flushFenceI_trail (fpu : Fpu) (hcarries : Carries h m.cpu m.jit w) :
    ∃ w', Trail (Next fpu) w (executed 0) w' ∧
      Carries h (flushFenceI m).cpu (flushFenceI m).jit w' := by
  obtain ⟨k, hw⟩ := hcarries.cpu
  have hcpu : ({ m.cpu with fenceIPending := false } : Cpu) =
      Cpu.sized k { w.cpu with fenceIPending := false } := by
    rw [hw]
    rfl
  rw [flushFenceI]
  split
  · rename_i hflag
    rw [hw, Cpu.sized_fenceIPending] at hflag
    dsimp only
    split
    · refine ⟨_, .single (.flushFenceI hflag (.inr rfl)), ⟨k, hcpu⟩, ?_⟩
      intro pc code hget
      cases hget
    · exact ⟨_, .single (.flushFenceI hflag (.inl rfl)), ⟨k, hcpu⟩, hcarries.cache⟩
  · exact ⟨w, .refl, hcarries⟩

/-- The input a round serves, which leads to the given state. -/
def served (input : Input) (m : Machine) : List Input := if m.tick &&& 1023 = 0 then [input] else []

/-- A round carries out at least one instruction of the machine, and the services it makes. -/
theorem round_trail {input : Input} (hparity : Parity m.cpu) (hcarries : Carries h m.cpu m.jit w)
    (hround : round h fpu input m = some m') :
    ∃ es w', Trail (Next fpu) w es w' ∧ Carries h m'.cpu m'.jit w' ∧
      es.filterMap Fetching.Mark.served = served input m' ∧
      1 ≤ es.countP Fetching.Mark.executes := by
  rw [round] at hround
  split at hround
  · cases hround
  · rename_i c jit n hadv
    obtain ⟨i, w₁, hpos, htrail₁, hcarries₁⟩ := advance_trail hparity hcarries hadv
    obtain ⟨w₂, htrail₂, hcarries₂⟩ :=
      flushSatp_trail fpu (m := { m with cpu := c, jit := jit }) hcarries₁
    obtain ⟨w₃, htrail₃, hcarries₃⟩ := flushFenceI_trail fpu hcarries₂
    have htrail := (htrail₁.trans htrail₂).trans htrail₃
    rw [← executed_add, ← executed_add] at htrail
    dsimp only at hround
    split at hround
    · rename_i hticks
      cases hround
      obtain ⟨k, hw⟩ := hcarries₃.cpu
      refine ⟨_, _, htrail.tail (.poll input), ⟨⟨k, ?_⟩, hcarries₃.cache⟩, ?_, ?_⟩
      · rw [← poll_sized, ← hw]
      · rw [List.filterMap_append, Fetching.executed_served, served, if_pos hticks]
        rfl
      · rw [List.countP_append, Fetching.executed_count]
        omega
    · rename_i hticks
      cases hround
      refine ⟨_, w₃, htrail, hcarries₃, ?_, ?_⟩
      · rw [Fetching.executed_served, served, if_neg hticks]
      · rw [Fetching.executed_count]
        omega

/-- A run carries out at least one instruction of the machine for each round. -/
theorem loop_trail {bus : Bus} {entry : U64} {inputs : List Input} (heven : IsEven entry)
    (hrun : (loop h fpu (.new bus entry)).after inputs (.start (.new bus entry)) = some m) :
    ∃ es w, Trail (Next fpu) (.start (.new bus entry)) es w ∧ Carries h m.cpu m.jit w ∧
      es.filterMap Fetching.Mark.served =
        (loop h fpu (.new bus entry)).outputs served inputs (.start (.new bus entry)) ∧
      inputs.length ≤ es.countP Fetching.Mark.executes := by
  have hstep : ∀ m input m' w, Parity m.cpu ∧ Carries h m.cpu m.jit w →
      round h fpu input m = some m' → ∃ es w', Trail (Next fpu) w es w' ∧
        (Parity m'.cpu ∧ Carries h m'.cpu m'.jit w') ∧
        es.filterMap Fetching.Mark.served = served input m' ∧
        1 ≤ es.countP Fetching.Mark.executes := by
    intro m input m' w hm hround
    obtain ⟨es, w', htrail, hcarries, hmarks⟩ := round_trail hm.1 hm.2 hround
    have hacts := parity_runStable.acts ⟨hm.1, hm.2.cached⟩ (round_acts hround)
    exact ⟨es, w', htrail, ⟨hacts.1, hcarries⟩, hmarks⟩
  have hstart : Parity (Machine.start (.new bus entry)).cpu ∧ Carries h (.new bus entry) .new
      (.start (.new bus entry)) := ⟨parity_new heven, carries_start _⟩
  obtain ⟨es, w, htrail, ⟨-, hcarries⟩, hmarks⟩ :=
    System.after_trail (M := loop h fpu (.new bus entry)) hstep hstart hrun
  exact ⟨es, w, htrail, hcarries, hmarks⟩

/-- Every run of the loop from an even entry point is one of the interpreter with a memory of
fetches, with the same services.  The interpreter executes at least one instruction for each round,
its hart is that of the loop but for the size of the current instruction, and every block in the
cache is one of encodings that were fetched at its addresses since the last flush. -/
theorem loop_refines (h : Host) (fpu : Fpu) (bus : Bus) (entry : U64) (heven : IsEven entry)
    (inputs : List Input) (m : Machine)
    (hrun : (loop h fpu (.new bus entry)).after inputs (.start (.new bus entry)) = some m) :
    ∃ es w, Trail (Next fpu) (.start (.new bus entry)) es w ∧
      (∃ size, m.cpu = { w.cpu with instSize := size }) ∧
      (∀ pc code, m.jit.get pc = some code → ∃ raws, raws ≠ [] ∧ AllHandled h pc raws ∧
        SeenAlong w.seen pc raws ∧ code = emitPrologue ++ emitRaws h pc raws) ∧
      es.filterMap Fetching.Mark.served =
        (loop h fpu (.new bus entry)).outputs served inputs (.start (.new bus entry)) ∧
      inputs.length ≤ es.countP Fetching.Mark.executes := by
  obtain ⟨es, w, htrail, hcarries, hmarks⟩ := loop_trail heven hrun
  exact ⟨es, w, htrail, hcarries.cpu, hcarries.cache, hmarks⟩

/-- RAM that holds a loop of five instructions, which takes the start of RAM into a register, loads
the word at `0x100` behind it, adds one, stores the sum there, and jumps back. -/
def countBus : Bus :=
  (Bus.new 0x1000 0x8000_0000).withWords
    [(0, 0x1001_2083_0000_0117), (8, 0x1011_2023_0010_8093), (16, 0xFF1F_F06F)]

/-- Five rounds step the instructions and compile what follows each.  The sixth runs the loop as a
block, which loads what was stored and counts on. -/
theorem countBus_refines : ∃ m es w,
    (loop layoutHost default (.new countBus 0x8000_0000)).after (List.replicate 6 ⟨[], 0⟩)
      (.start (.new countBus 0x8000_0000)) = some m ∧
      m.cpu.bus.ram.byte 0x100 = 2 ∧
      Trail (Next default) (.start (.new countBus 0x8000_0000)) es w ∧
      (∃ size, m.cpu = { w.cpu with instSize := size }) ∧
      6 ≤ es.countP Fetching.Mark.executes := by
  have hrun : ((loop layoutHost default (.new countBus 0x8000_0000)).after
      (List.replicate 6 ⟨[], 0⟩) (.start (.new countBus 0x8000_0000))).map
        (fun m => m.cpu.bus.ram.byte 0x100) = some 2 := by decide +kernel
  obtain ⟨m, hm, hbyte⟩ := Option.map_eq_some_iff.mp hrun
  obtain ⟨es, w, htrail, hcpu, -, -, hlen⟩ := loop_refines layoutHost default countBus 0x8000_0000
    (by decide) _ m hm
  exact ⟨m, es, w, hm, hbyte, htrail, hcpu, hlen⟩

end RiscvEmu.Jit

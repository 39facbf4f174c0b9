import RiscvEmu.Refinement.Loop
import RiscvEmu.Runs.Registers

/-!
# Independence of the host

Compiled code contains addresses of the host, and it starts with whatever the host has in its
registers and on its stack.  None of that reaches the guest.  On any two hosts the loop makes the
same rounds, with the same hart and the same ticks, and it keeps blocks of the same encodings
(`loop_alike`).
-/

namespace RiscvEmu.Jit

variable {h h' : Host} {fpu : Fpu} {c : Cpu} {jit jit' : JitCache} {m m' : Machine} {pc : U64}
  {raw4 : U32} {raws : List U32}

/-! ## The emitter -/

theorem emitInst_effect (guestPc nextSeq : U64) (inst : Instruction) :
    (emitInst h guestPc nextSeq inst).2 = (emitInst h' guestPc nextSeq inst).2 := by
  cases inst <;> rfl

theorem Rvc.emitQuadrant0_effect (raw : U16) (guestPc : U64) (f : U16) :
    (emitQuadrant0 h raw guestPc f).2 = (emitQuadrant0 h' raw guestPc f).2 := by
  unfold emitQuadrant0
  split
  · split <;> rfl
  all_goals rfl

theorem Rvc.emitQuadrant2_effect (raw : U16) (guestPc : U64) (f : U16) :
    (emitQuadrant2 h raw guestPc f).2 = (emitQuadrant2 h' raw guestPc f).2 := by
  unfold emitQuadrant2
  dsimp only
  split
  · rfl
  · split <;> rfl
  all_goals rfl

theorem emitRvc_effect (raw : U16) (guestPc : U64) :
    (emitRvc h raw guestPc).2 = (emitRvc h' raw guestPc).2 := by
  unfold emitRvc
  dsimp only
  split
  · exact Rvc.emitQuadrant0_effect _ _ _
  · rfl
  · exact Rvc.emitQuadrant2_effect _ _ _
  · rfl

/-- What an encoding does to a block does not depend on the host. -/
theorem emitRaw_effect (raw4 : U32) (pc : U64) :
    (emitRaw h raw4 pc).1.2 = (emitRaw h' raw4 pc).1.2 := by
  rw [emitRaw, emitRaw]
  split
  · exact emitRvc_effect _ _
  · split
    · exact emitInst_effect _ _ _
    · rfl

theorem Handled.host (hhandled : Handled h pc raw4) : Handled h' pc raw4 := by
  rw [Handled] at hhandled ⊢
  rwa [emitRaw_effect]

theorem AllHandled.host (hhandled : AllHandled h pc raws) : AllHandled h' pc raws := by
  induction raws generalizing pc with
  | nil => trivial
  | cons raw4 raws ih => exact ⟨hhandled.1.host, ih hhandled.2⟩

/-! ## Compilation -/

/-- The code of the same encodings on two hosts. -/
def SameCode (h h' : Host) (pc : U64) (code code' : Code) : Prop :=
  ∃ raws, AllHandled h pc raws ∧ code = emitRaws h pc raws ∧ code' = emitRaws h' pc raws

theorem SameCode.nil : SameCode h h' pc (emitReturn pc) (emitReturn pc) := ⟨[], trivial, rfl, rfl⟩

theorem SameCode.seq {rest rest' : Code} (hrest : SameCode h h' (pc + sizeOf raw4) rest rest')
    (heff : (emitRaw h raw4 pc).1.2 = .seq) :
    SameCode h h' pc ((emitRaw h raw4 pc).1.1 ++ rest) ((emitRaw h' raw4 pc).1.1 ++ rest') := by
  obtain ⟨raws, hhandled, rfl, rfl⟩ := hrest
  have heff' : (emitRaw h' raw4 pc).1.2 = .seq := (emitRaw_effect raw4 pc).symm.trans heff
  refine ⟨raw4 :: raws, ⟨?_, hhandled⟩, ?_, ?_⟩
  · rw [Handled, heff]
    simp
  · rw [emitRaws, heff]
  · rw [emitRaws, heff']

theorem SameCode.terminal (heff : (emitRaw h raw4 pc).1.2 = .terminal) :
    SameCode h h' pc (emitRaw h raw4 pc).1.1 (emitRaw h' raw4 pc).1.1 := by
  have heff' : (emitRaw h' raw4 pc).1.2 = .terminal := (emitRaw_effect raw4 pc).symm.trans heff
  refine ⟨[raw4], ⟨?_, trivial⟩, ?_, ?_⟩
  · rw [Handled, heff]
    simp
  · rw [emitRaws, heff]
  · rw [emitRaws, heff']

/-- What the compiler of each host makes of a block: as many instructions, the same traces on the
hart, and, if there is an instruction, code of the same encodings. -/
structure SameBlock (h h' : Host) (pc : U64) (p p' : (Code × Nat) × Cpu) : Prop where
  count : p'.1.2 = p.1.2
  cpu : p'.2 = p.2
  code : 0 < p.1.2 → SameCode h h' pc p.1.1 p'.1.1

theorem emitBlock_alike (left : Nat) (pc : U64) (n : Nat) (c : Cpu) :
    Option.Rel (SameBlock h h' pc) (emitBlock h left pc n c) (emitBlock h' left pc n c) := by
  induction left generalizing pc n c with
  | zero => exact .some ⟨rfl, rfl, fun _ => .nil⟩
  | succ left ih =>
      rw [emitBlock, emitBlock]
      cases hfetch : fetchRaw pc c with
      | none => exact .none
      | some p =>
          obtain ⟨r, c₁⟩ := p
          cases r with
          | error t =>
              refine .some ⟨rfl, rfl, fun hn => ?_⟩
              rw [blockExit_pos hn]
              exact .nil
          | ok raw4 =>
              dsimp only
              have hsame : (emitRaw h' raw4 pc).1.2 = (emitRaw h raw4 pc).1.2 :=
                emitRaw_effect raw4 pc
              cases heff : (emitRaw h raw4 pc).1.2 with
              | unhandled =>
                  have heff' := hsame.trans heff
                  rw [heff']
                  refine .some ⟨rfl, rfl, fun hn => ?_⟩
                  rw [emitRaw_bare heff, emitRaw_bare heff', List.nil_append, blockExit_pos hn]
                  exact .nil
              | terminal =>
                  rw [hsame.trans heff]
                  exact .some ⟨rfl, rfl, fun _ => .terminal heff⟩
              | seq =>
                  rw [hsame.trans heff]
                  dsimp only
                  rw [emitRaw_size, emitRaw_size]
                  have hrest := ih (pc + sizeOf raw4) (n + 1) c₁
                  generalize emitBlock h left (pc + sizeOf raw4) (n + 1) c₁ = o at hrest
                  generalize emitBlock h' left (pc + sizeOf raw4) (n + 1) c₁ = o' at hrest
                  cases hrest with
                  | none => exact .none
                  | some hblock =>
                      exact .some ⟨hblock.count, hblock.cpu, fun hn => (hblock.code hn).seq heff⟩

/-! ## The loop -/

/-- The caches of two hosts hold blocks of the same encodings, at the same addresses. -/
def SameCache (h h' : Host) (jit jit' : JitCache) : Prop :=
  ∀ pc, Option.Rel (fun code code' => ∃ raws, AllHandled h pc raws ∧
    code = emitPrologue ++ emitRaws h pc raws ∧ code' = emitPrologue ++ emitRaws h' pc raws)
    (jit.get pc) (jit'.get pc)

theorem sameCache_new : SameCache h h' .new .new := fun _ => .none

theorem SameCache.insert {code code' : Code} (hjit : SameCache h h' jit jit')
    (hcode : SameCode h h' pc code code') :
    SameCache h h' (jit.insert pc (emitPrologue ++ code))
      (jit'.insert pc (emitPrologue ++ code')) := by
  intro pc'
  obtain ⟨raws, hhandled, rfl, rfl⟩ := hcode
  rw [JitCache.get, JitCache.get, JitCache.insert, JitCache.insert, Function.update_apply,
    Function.update_apply]
  split
  · rename_i hpc
    subst hpc
    exact .some ⟨raws, hhandled, rfl, rfl⟩
  · exact hjit pc'

theorem SameCache.isSome (hjit : SameCache h h' jit jit') (pc : U64) :
    (jit'.get pc).isSome = (jit.get pc).isSome := by
  have hrel := hjit pc
  generalize jit.get pc = o at hrel
  generalize jit'.get pc = o' at hrel
  cases hrel <;> rfl

/-- Compiling leaves the same traces, and blocks of the same encodings. -/
theorem compile_alike (hjit : SameCache h h' jit jit') (pc : U64) (c : Cpu) :
    Option.Rel (fun p p' => SameCache h h' p.1 p'.1 ∧ p'.2 = p.2) (compile h jit pc c)
      (compile h' jit' pc c) := by
  rw [compile, compile, hjit.isSome]
  split
  · exact .some ⟨hjit, rfl⟩
  · cases fetchRaw pc c with
    | none => exact .none
    | some p =>
        obtain ⟨r, c₁⟩ := p
        cases r with
        | error t => exact .some ⟨hjit, rfl⟩
        | ok raw4 =>
            dsimp only
            have hblock : Option.Rel (SameBlock h h' pc) (emitBlock h maxInsts pc 0 c₁)
                (emitBlock h' maxInsts pc 0 c₁) := emitBlock_alike _ _ _ _
            generalize emitBlock h maxInsts pc 0 c₁ = o at hblock
            generalize emitBlock h' maxInsts pc 0 c₁ = o' at hblock
            cases hblock with
            | none => exact .none
            | @some p p' hsame =>
                obtain ⟨⟨body, n⟩, c₂⟩ := p
                obtain ⟨⟨body', n'⟩, c₂'⟩ := p'
                obtain ⟨rfl, rfl, hcode⟩ := hsame
                refine .some ⟨?_, rfl⟩
                dsimp only at hcode ⊢
                split
                · rename_i hn
                  exact hjit.insert (hcode hn)
                · exact hjit

/-- The instructions of a round. -/
theorem advance_alike (fpu : Fpu) (hjit : SameCache h h' jit jit') (hzero : ZeroReg c) :
    Option.Rel (fun p p' => p'.1 = p.1 ∧ SameCache h h' p.2.1 p'.2.1 ∧ p'.2.2 = p.2.2)
      (advance h fpu jit c) (advance h' fpu jit' c) := by
  have hrel := hjit c.pc
  rw [advance, advance]
  generalize jit.get c.pc = o at hrel
  generalize jit'.get c.pc = o' at hrel
  cases hrel with
  | none =>
      dsimp only
      cases Cpu.step fpu c with
      | none => exact .none
      | some r =>
          dsimp only
          split
          · have hcompile := compile_alike hjit c.pc r.cpu
            generalize compile h jit c.pc r.cpu = q at hcompile
            generalize compile h' jit' c.pc r.cpu = q' at hcompile
            cases hcompile with
            | none => exact .none
            | some hsame => exact .some ⟨hsame.2, hsame.1, rfl⟩
          · exact .some ⟨rfl, hjit, rfl⟩
  | some hblock =>
      obtain ⟨raws, hhandled, rfl, rfl⟩ := hblock
      dsimp only
      -- both blocks have the outcome of the encodings
      rw [runBlock_does (emitRaws_does hhandled hzero),
        runBlock_does (emitRaws_does hhandled.host hzero)]
      cases (runRaws c.pc raws c).returned with
      | none => exact .none
      | some p =>
          obtain ⟨next, c₁⟩ := p
          dsimp only
          split
          · cases Cpu.step fpu c₁ with
            | none => exact .none
            | some r => exact .some ⟨rfl, hjit, rfl⟩
          · exact .some ⟨rfl, hjit, rfl⟩

/-- The states of the loop on two hosts: the same hart, the same ticks, and blocks of the same
encodings. -/
structure Alike (h h' : Host) (m m' : Machine) : Prop where
  cpu : m'.cpu = m.cpu
  cache : SameCache h h' m.jit m'.jit
  tick : m'.tick = m.tick
  lastFenceIFlush : m'.lastFenceIFlush = m.lastFenceIFlush

theorem Alike.flushSatp (halike : Alike h h' m m') :
    Alike h h' (Jit.flushSatp m) (Jit.flushSatp m') := by
  obtain ⟨c, jit, tick, last⟩ := m
  obtain ⟨c', jit', tick', last'⟩ := m'
  obtain ⟨rfl, hjit, rfl, rfl⟩ := halike
  rw [Jit.flushSatp, Jit.flushSatp]
  dsimp only
  split
  · exact ⟨rfl, sameCache_new, rfl, rfl⟩
  · exact ⟨rfl, hjit, rfl, rfl⟩

theorem Alike.flushFenceI (halike : Alike h h' m m') :
    Alike h h' (Jit.flushFenceI m) (Jit.flushFenceI m') := by
  obtain ⟨c, jit, tick, last⟩ := m
  obtain ⟨c', jit', tick', last'⟩ := m'
  obtain ⟨rfl, hjit, rfl, rfl⟩ := halike
  rw [Jit.flushFenceI, Jit.flushFenceI]
  dsimp only
  split
  · split
    · exact ⟨rfl, sameCache_new, rfl, rfl⟩
    · exact ⟨rfl, hjit, rfl, rfl⟩
  · exact ⟨rfl, hjit, rfl, rfl⟩

/-- A round. -/
theorem round_alike (fpu : Fpu) (input : Input) (halike : Alike h h' m m') (hzero : ZeroReg m.cpu) :
    Option.Rel (Alike h h') (round h fpu input m) (round h' fpu input m') := by
  have hadv := advance_alike fpu halike.cache hzero
  rw [round, round, halike.cpu]
  generalize advance h fpu m.jit m.cpu = o at hadv
  generalize advance h' fpu m'.jit m.cpu = o' at hadv
  cases hadv with
  | none => exact .none
  | @some p p' hsame =>
      obtain ⟨c, jit, n⟩ := p
      obtain ⟨c', jit', n'⟩ := p'
      obtain ⟨rfl, hjit, rfl⟩ := hsame
      have hadvanced :
          Alike h h' { m with cpu := c', jit := jit } { m' with cpu := c', jit := jit' } :=
        ⟨rfl, hjit, halike.tick, halike.lastFenceIFlush⟩
      have hflushed := hadvanced.flushSatp.flushFenceI
      dsimp only
      rw [hflushed.tick]
      split
      · exact .some ⟨by rw [hflushed.cpu], hflushed.cache, rfl, hflushed.lastFenceIFlush⟩
      · exact .some ⟨hflushed.cpu, hflushed.cache, rfl, hflushed.lastFenceIFlush⟩

theorem Alike.cached (halike : Alike h h' m m') : Cached h m.jit := by
  intro pc code hget
  have hrel := halike.cache pc
  rw [hget] at hrel
  generalize m'.jit.get pc = o at hrel
  cases hrel with
  | some hblock =>
      obtain ⟨raws, hhandled, rfl, -⟩ := hblock
      exact ⟨raws, hhandled, rfl⟩

/-- On two hosts, with any addresses and whatever their registers and stacks hold, the loop makes
the same run from a new hart.  After the same inputs it has come to the same hart and the same tick,
with blocks of the same encodings at the same addresses, or a round has not returned on either. -/
theorem loop_alike (h h' : Host) (fpu : Fpu) (bus : Bus) (entry : U64) (inputs : List Input) :
    Option.Rel (Alike h h')
      ((loop h fpu (.new bus entry)).after inputs (.start (.new bus entry)))
      ((loop h' fpu (.new bus entry)).after inputs (.start (.new bus entry))) := by
  have hrel : Option.Rel (fun m m' => Alike h h' m m' ∧ ZeroReg m.cpu)
      ((loop h fpu (.new bus entry)).after inputs (.start (.new bus entry)))
      ((loop h' fpu (.new bus entry)).after inputs (.start (.new bus entry))) := by
    refine System.after_rel (fun m m' input hm => ?_) inputs ⟨⟨rfl, sameCache_new, rfl, rfl⟩, rfl⟩
    obtain ⟨halike, hzero⟩ := hm
    have hround := round_alike fpu input halike hzero
    change Option.Rel _ (round h fpu input m) (round h' fpu input m')
    cases hnext : round h fpu input m with
    | none =>
        rw [hnext] at hround
        generalize round h' fpu input m' = o at hround
        cases hround
        exact .none
    | some m₁ =>
        have hacts := zeroReg_runStable.acts ⟨hzero, halike.cached⟩ (round_acts hnext)
        rw [hnext] at hround
        generalize round h' fpu input m' = o at hround
        cases hround with
        | some hsame => exact .some ⟨hsame, hacts.1⟩
  generalize (loop h fpu (.new bus entry)).after inputs (.start (.new bus entry)) = o at hrel
  generalize (loop h' fpu (.new bus entry)).after inputs (.start (.new bus entry)) = o' at hrel
  cases hrel with
  | none => exact .none
  | some hsame => exact .some hsame.1

end RiscvEmu.Jit

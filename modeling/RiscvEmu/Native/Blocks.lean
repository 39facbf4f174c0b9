import RiscvEmu.Native.Compressed
import RiscvEmu.Jit.Compile
import RiscvEmu.Execution.Stable

/-!
# Code of blocks

A block is made from the encodings at consecutive addresses (`emitRaws`), and what it does is what
the instructions do one after the other (`runRaws`), up to one that leaves the block.  Whatever
`emitBlock` returns for at least one instruction is such a block.

An invariant of the hart that survives the outcome of each instruction survives a block.
-/

namespace RiscvEmu.Jit

open X86 (Reaches Returns Sticks State)

variable {h : Host} {c c' : Cpu} {code : Code} {o : Outcome} {pc guestPc nextSeq : U64}
  {raw4 : U32} {raws : List U32} {inst : Instruction}

/-! ## Instructions -/

/-- The size of an encoding in a block. -/
def sizeOf (raw4 : U32) : U64 := if raw4 &&& 0x3 ≠ 0x3 then 2 else 4

/-- The instruction the emitter takes an encoding for.  It skips the encodings the decoder rejects,
where it has code for them. -/
def instOf (raw4 : U32) : Instruction :=
  match (Cpu.decodeFetched raw4).2 with
  | .ok inst => inst
  | .error _ => .fence

/-- The emitter has code for an encoding. -/
def Handled (h : Host) (pc : U64) (raw4 : U32) : Prop := (emitRaw h raw4 pc).1.2 ≠ .unhandled

theorem emitRaw_size (h : Host) (raw4 : U32) (pc : U64) : (emitRaw h raw4 pc).2 = sizeOf raw4 := by
  unfold emitRaw sizeOf
  split
  · rfl
  · cases decode raw4 <;> rfl

theorem decodeFetched_fst (raw4 : U32) : (Cpu.decodeFetched raw4).1 = sizeOf raw4 := by
  unfold Cpu.decodeFetched sizeOf
  split <;> rfl

section

variable (hquad : raw4 &&& 0x3 ≠ 0x3)
include hquad

theorem sizeOf_compressed : sizeOf raw4 = 2 := if_pos hquad

theorem emitRaw_compressed : emitRaw h raw4 pc = (emitRvc h (raw4.setWidth 16) pc, 2) :=
  if_pos hquad

theorem instOf_compressed (hdec : decodeRvc? ((raw4.setWidth 16).setWidth 32) = some inst) :
    instOf raw4 = inst := by
  rw [instOf, Cpu.decodeFetched, if_pos hquad, decodeRvc, hdec]
  rfl

theorem instOf_rejected (hdec : decodeRvc? ((raw4.setWidth 16).setWidth 32) = none) :
    instOf raw4 = .fence := by
  rw [instOf, Cpu.decodeFetched, if_pos hquad, decodeRvc, hdec]
  rfl

end

section

variable (hquad : ¬ raw4 &&& 0x3 ≠ 0x3)
include hquad

theorem sizeOf_full : sizeOf raw4 = 4 := if_neg hquad

theorem emitRaw_full (hdec : decode raw4 = .ok inst) :
    emitRaw h raw4 pc = (emitInst h pc (pc + 4) inst, 4) := by
  rw [emitRaw, if_neg hquad, hdec]

theorem instOf_full (hdec : decode raw4 = .ok inst) : instOf raw4 = inst := by
  rw [instOf, Cpu.decodeFetched, if_neg hquad, hdec]
  rfl

theorem emitRaw_undecoded {e : IllegalInstruction} (hdec : decode raw4 = .error e) :
    emitRaw h raw4 pc = (([], .unhandled), 4) := by
  rw [emitRaw, if_neg hquad, hdec]

end

/-- The fields of a decoded instruction are in their ranges. -/
theorem decodeFetched_inRange (hdec : (Cpu.decodeFetched raw4).2 = .ok inst) : inst.InRange := by
  rw [Cpu.decodeFetched] at hdec
  split at hdec
  · cases hrvc : decodeRvc (raw4.setWidth 16) with
    | error e =>
        rw [hrvc] at hdec
        cases hdec
    | ok i =>
        rw [hrvc] at hdec
        cases hdec
        exact decodeRvc_inRange hrvc
  · cases hfull : decode raw4 with
    | error e =>
        rw [hfull] at hdec
        cases hdec
    | ok i =>
        rw [hfull] at hdec
        cases hdec
        exact decode_inRange hfull

theorem instOf_inRange (raw4 : U32) : (instOf raw4).InRange := by
  rw [instOf]
  split
  · rename_i hdec
    exact decodeFetched_inRange hdec
  · exact trivial

/-- The code of a compressed encoding has the outcome of the decoded instruction. -/
theorem Rvc.Corresponds.does {emitted : Code × Effect}
    (hcorr : Corresponds h guestPc emitted (some inst)) (hrange : inst.InRange)
    (heff : emitted.2 ≠ .unhandled) (hzero : c.regs 0 = 0) :
    emitted.2 = effectOf inst ∧
      Does h emitted.1 c (native inst guestPc (guestPc + 2) c) := by
  cases hcorr with
  | unhandled hun => exact absurd hun heff
  | full _ hcode =>
      subst hcode
      exact emitInst_does hrange heff hzero
  | own _ _ heff' hdoes => exact ⟨heff', hdoes c hzero⟩

/-- The code of an encoding has the outcome of its instruction. -/
theorem emitRaw_does (hhandled : Handled h pc raw4) (hzero : c.regs 0 = 0) :
    (emitRaw h raw4 pc).1.2 = effectOf (instOf raw4) ∧
      Does h (emitRaw h raw4 pc).1.1 c (native (instOf raw4) pc (pc + sizeOf raw4) c) := by
  rw [Handled] at hhandled
  by_cases hquad : raw4 &&& 0x3 ≠ 0x3
  · rw [emitRaw_compressed hquad] at hhandled ⊢
    rw [sizeOf_compressed hquad]
    by_cases hhint : Rvc.AddHint (raw4.setWidth 16)
    · rw [instOf_rejected hquad (decodeRvc?_hint hhint), emitRvc_hint hhint]
      exact ⟨rfl, Falls.nil⟩
    · have hcorr := emitRvc_corresponds h pc hhint
      obtain ⟨inst, hdec⟩ := hcorr.accepted hhandled
      rw [instOf_compressed hquad hdec]
      rw [hdec] at hcorr
      exact hcorr.does (decodeRvc?_inRange hdec) hhandled hzero
  · cases hdec : decode raw4 with
    | error e =>
        rw [emitRaw_undecoded hquad hdec] at hhandled
        exact absurd rfl hhandled
    | ok inst =>
        rw [emitRaw_full hquad hdec] at hhandled ⊢
        rw [sizeOf_full hquad, instOf_full hquad hdec]
        exact emitInst_does (decode_inRange hdec) hhandled hzero

/-- An encoding without code has no instructions of code. -/
def Bare (emitted : Code × Effect) : Prop := emitted.2 = .unhandled → emitted.1 = []

theorem emitInst_bare : Bare (emitInst h guestPc nextSeq inst) := by
  cases inst with
  | op op rd rs1 rs2 =>
      by_cases hop : op = .mulhsu
      · subst hop
        exact fun _ => rfl
      · obtain ⟨code, hcode⟩ := emitOp_exists rd rs1 rs2 hop
        rw [emitInst_op hcode]
        exact nofun
  | opImm | shift | lui | auipc | branch | jal | jalr | load | store | fence => exact nofun
  | _ => exact fun _ => rfl

theorem Rvc.emitQuadrant0_bare {raw f : U16} : Bare (emitQuadrant0 h raw guestPc f) := by
  unfold emitQuadrant0
  repeat' split
  all_goals first | exact fun _ => rfl | exact nofun

theorem Rvc.emitQuadrant1_bare {raw f : U16} : Bare (emitQuadrant1 raw guestPc f) := by
  unfold emitQuadrant1 emitArith
  simp only
  repeat' split
  all_goals first | exact fun _ => rfl | exact nofun

theorem Rvc.emitQuadrant2_bare {raw f : U16} : Bare (emitQuadrant2 h raw guestPc f) := by
  unfold emitQuadrant2 emitJumpOrMove
  simp only
  repeat' split
  all_goals first | exact fun _ => rfl | exact nofun

theorem emitRvc_bare {raw : U16} : Bare (emitRvc h raw guestPc) := by
  unfold emitRvc
  simp only
  split
  · exact Rvc.emitQuadrant0_bare
  · exact Rvc.emitQuadrant1_bare
  · exact Rvc.emitQuadrant2_bare
  · exact fun _ => rfl

theorem emitRaw_bare : Bare (emitRaw h raw4 pc).1 := by
  by_cases hquad : raw4 &&& 0x3 ≠ 0x3
  · rw [emitRaw_compressed hquad]
    exact emitRvc_bare
  · cases hdec : decode raw4 with
    | error e =>
        rw [emitRaw_undecoded hquad hdec]
        exact fun _ => rfl
    | ok inst =>
        rw [emitRaw_full hquad hdec]
        exact emitInst_bare

/-! ## Blocks -/

/-- The code of the encodings from an address on.  Behind the last one it leaves the block. -/
def emitRaws (h : Host) : U64 → List U32 → Code
  | pc, [] => emitReturn pc
  | pc, raw4 :: raws =>
      match (emitRaw h raw4 pc).1.2 with
      | .seq => (emitRaw h raw4 pc).1.1 ++ emitRaws h (pc + sizeOf raw4) raws
      | _ => (emitRaw h raw4 pc).1.1

/-- The instructions of the encodings from an address on. -/
def runRaws : U64 → List U32 → Cpu → Outcome
  | pc, [], c => .leave c pc
  | pc, raw4 :: raws, c =>
      (native (instOf raw4) pc (pc + sizeOf raw4) c).andThen (runRaws (pc + sizeOf raw4) raws)

/-- The emitter has code for each of the encodings from an address on. -/
def AllHandled (h : Host) : U64 → List U32 → Prop
  | _, [] => True
  | pc, raw4 :: raws => Handled h pc raw4 ∧ AllHandled h (pc + sizeOf raw4) raws

/-- An instruction that leaves the block leaves it. -/
theorem native_leaves (heff : effectOf inst = .terminal) :
    ∃ c' target, native inst guestPc nextSeq c = .leave c' target := by
  cases inst with
  | branch | jal | jalr => exact ⟨_, _, rfl⟩
  | _ => cases heff

/-! ## Invariants -/

theorem jitLoad_keeps {width : Width} {va v : U64} (hload : c.jitLoad width va = some (v, c')) :
    Cpu.OnlyMemory c c' := by
  unfold Cpu.jitLoad at hload
  split at hload
  · cases hload
  · rename_i ht
    cases hload
    exact Cpu.translate_keepsHart _ _ _ _ _ _ ht
  · rename_i ht
    have hkeep := Cpu.translate_keepsHart _ _ _ _ _ _ ht
    split at hload
    · cases hload
    · cases hload
      exact hkeep.trans (.ofBus _ _)
    · cases hload
      exact hkeep.trans (.ofBus _ _)

theorem jitStore_keeps {width : Width} {va val v : U64}
    (hstore : c.jitStore width va val = some (v, c')) : Cpu.OnlyMemory c c' := by
  unfold Cpu.jitStore at hstore
  split at hstore
  · cases hstore
  · rename_i ht
    cases hstore
    exact Cpu.translate_keepsHart _ _ _ _ _ _ ht
  · rename_i ht
    have hkeep := Cpu.translate_keepsHart _ _ _ _ _ _ ht
    split at hstore
    · cases hstore
    · cases hstore
      exact hkeep.trans (.ofBus _ _)
    · cases hstore
      exact hkeep.trans (.ofBus _ _)

/-- A property of harts, and one of the addresses of blocks, that survive the instructions of a
block. -/
structure BlockStable (P : Cpu → Prop) (A : U64 → Prop) : Prop where
  memory : ∀ {c c' : Cpu}, Cpu.OnlyMemory c c' → P c → P c'
  setReg : ∀ {c : Cpu} (rd : Reg) (v : U64), P c → P (c.setReg rd v)
  pc : ∀ {c : Cpu} {pc : U64}, A pc → P c → P { c with pc := pc }
  add : ∀ {pc n : U64}, A pc → IsEven n → A (pc + n)
  clear : ∀ v : U64, A (v &&& ~~~(1 : U64))

section

variable {P : Cpu → Prop} {A : U64 → Prop}

theorem answered_all (hI : BlockStable P A) (hpc : A guestPc) {k : U64 → Cpu → Cpu}
    (hk : ∀ v c, P c → P (k v c)) {answer : Option (U64 × Cpu)}
    (hanswer : ∀ v c', answer = some (v, c') → P c') :
    (answered guestPc k answer).All P A := by
  cases answer with
  | none => exact trivial
  | some p =>
      obtain ⟨v, c'⟩ := p
      rw [answered]
      split
      · exact hI.pc hpc (hanswer v c' rfl)
      · exact hk v c' (hanswer v c' rfl)

/-- An instruction keeps the invariant. -/
theorem native_all (hI : BlockStable P A) (hrange : inst.InRange) (hpc : A guestPc)
    (hseq : A nextSeq) (hc : P c) : (native inst guestPc nextSeq c).All P A := by
  cases inst with
  | op | opImm | shift | lui | auipc => exact hI.setReg _ _ hc
  | load =>
      exact answered_all hI hpc (fun _ _ => hI.setReg _ _) fun _ _ hload =>
        hI.memory (jitLoad_keeps hload) hc
  | store =>
      exact answered_all hI hpc (fun _ _ hc => hc) fun _ _ hstore =>
        hI.memory (jitStore_keeps hstore) hc
  | branch op rs1 rs2 imm =>
      refine ⟨hc, ?_⟩
      split
      · exact hI.add hpc hrange
      · exact hseq
  | jal rd imm => exact ⟨hI.setReg _ _ hc, hI.add hpc hrange⟩
  | jalr => exact ⟨hI.setReg _ _ hc, hI.clear _⟩
  | fence => exact hc
  | _ => exact trivial

theorem sizeOf_even (raw4 : U32) : IsEven (sizeOf raw4) := by
  rw [sizeOf]
  split <;> decide

/-- A block keeps the invariant. -/
theorem runRaws_all (hI : BlockStable P A) (hpc : A pc) (hc : P c) :
    (runRaws pc raws c).All P A := by
  induction raws generalizing pc c with
  | nil => exact ⟨hc, hpc⟩
  | cons raw4 raws ih =>
      have hseq : A (pc + sizeOf raw4) := hI.add hpc (sizeOf_even raw4)
      exact (native_all hI (instOf_inRange raw4) hpc hseq hc).andThen fun c' hc' => ih hseq hc'

end

/-- Register 0 holds zero. -/
def ZeroReg (c : Cpu) : Prop := c.regs 0 = 0

theorem zeroReg_setReg {c : Cpu} (rd : Reg) (v : U64) (hc : ZeroReg c) :
    ZeroReg (c.setReg rd v) := by
  rw [Cpu.setReg]
  split
  · rename_i hrd
    exact (Function.update_of_ne (Ne.symm hrd) _ _).trans hc
  · exact hc

theorem zeroReg_memory {c c' : Cpu} (hkeep : Cpu.OnlyMemory c c') (hc : ZeroReg c) :
    ZeroReg c' := by
  rw [ZeroReg, hkeep.regs]
  exact hc

theorem zeroReg_blockStable : BlockStable ZeroReg fun _ => True where
  memory := zeroReg_memory
  setReg := zeroReg_setReg
  pc _ hc := hc
  add _ _ := trivial
  clear _ := trivial

/-! ## Code -/

/-- The code of a block does what its instructions do. -/
theorem emitRaws_does (hhandled : AllHandled h pc raws) (hzero : ZeroReg c) :
    Does h (emitRaws h pc raws) c (runRaws pc raws c) := by
  induction raws generalizing pc c with
  | nil => exact emitReturn_leaves pc
  | cons raw4 raws ih =>
      obtain ⟨hhead, htail⟩ := hhandled
      obtain ⟨heff, hdoes⟩ := emitRaw_does hhead hzero
      rw [emitRaws, runRaws]
      cases hemit : (emitRaw h raw4 pc).1.2 with
      | unhandled => exact absurd hemit hhead
      | seq =>
          refine hdoes.append fun c' hnext => ih htail ?_
          have hall : (native (instOf raw4) pc (pc + sizeOf raw4) c).All ZeroReg fun _ => True :=
            native_all zeroReg_blockStable (instOf_inRange raw4) trivial trivial hzero
          rw [hnext] at hall
          exact hall
      | terminal =>
          obtain ⟨c', target, hleave⟩ : ∃ c' target,
              native (instOf raw4) pc (pc + sizeOf raw4) c = .leave c' target :=
            native_leaves (heff.symm.trans hemit)
          rw [hleave] at hdoes ⊢
          exact hdoes

/-- The result of a call of a block with an outcome. -/
def Outcome.returned : Outcome → Option (U64 × Cpu)
  | .leave c pc => some (pc, c)
  | .fault c => some (u64Max, c)
  | .next _ | .abort => none

/-- The prologue enters the block, with its stack frame above the return address. -/
theorem emitPrologue_reaches :
    Reaches h.env emitPrologue (entryState h c) fun s =>
      Inside h c s ∧ s.stack = [h.fresh, h.scratch .r14, h.scratch .r15, h.fresh] := by
  simp [Reaches, emitPrologue, entryState, inside_iff, Host.env]

theorem runBlock_leaves {v : U64} (hleaves : Leaves h code c c' v) :
    runBlock h (emitPrologue ++ code) c = some (v, c') := by
  have hreturns := emitPrologue_reaches.append_returns fun s hs =>
    hleaves s _ _ _ _ _ hs.1 hs.2
  obtain ⟨addr, s, hrun, -, hrax, -, -, -, hmem⟩ := hreturns.eq
  rw [runBlock, hrun]
  dsimp only
  rw [hrax, hmem]

/-- A call of a block returns its outcome. -/
theorem runBlock_does (hdoes : Does h code c o) :
    runBlock h (emitPrologue ++ code) c = o.returned := by
  cases o with
  | leave c' pc => exact runBlock_leaves hdoes
  | fault c' => exact runBlock_leaves hdoes
  | abort =>
      have hstuck := emitPrologue_reaches.append_sticks fun s hs => hdoes s hs.1
      rw [runBlock, hstuck]
      rfl
  | next c' =>
      have hreaches : Reaches h.env (emitPrologue ++ code) (entryState h c) fun _ => True :=
        emitPrologue_reaches.append fun s hs => (hdoes s hs.1).mono fun _ _ => trivial
      obtain ⟨s, hrun, -⟩ := hreaches.eq
      rw [runBlock, hrun]
      rfl

/-! ## Compilation -/

/-- The compiler fetches the encodings from an address on. -/
def FetchedAlong : U64 → List U32 → Cpu → Prop
  | _, [], _ => True
  | pc, raw4 :: raws, c =>
      ∃ c', fetchRaw pc c = some (.ok raw4, c') ∧ FetchedAlong (pc + sizeOf raw4) raws c'

theorem fetchRaw_keeps {r : Except Trap U32} (hfetch : fetchRaw pc c = some (r, c')) :
    Cpu.OnlyMemory c c' := by
  have hkeep : Cpu.KeepsHart
      (do
        let pa ← Cpu.translateOrTrap c.mode pc .fetch
        let v ← Cpu.busLoad pa .b4 ⟨1, pc⟩
        pure (v.setWidth 32) : Run Cpu Trap U32) :=
    .bind (Cpu.translateOrTrap_keepsHart _ _ _) fun _ =>
      .bind (Cpu.busLoad_keepsHart _ _ _) fun _ => .pure _
  exact hkeep _ _ _ hfetch

/-- A block with an instruction leaves before the next one. -/
theorem blockExit_pos {n : Nat} (hn : 0 < n) : blockExit pc n = emitReturn pc := if_pos hn

/-- The compiled code of at least one instruction is that of the fetched encodings. -/
theorem emitBlock_eq {left n n' : Nat} (hemit : emitBlock h left pc n c = some ((code, n'), c')) :
    Cpu.OnlyMemory c c' ∧ (0 < n' → ∃ raws, n' = n + raws.length ∧ AllHandled h pc raws ∧
      FetchedAlong pc raws c ∧ code = emitRaws h pc raws) := by
  induction left generalizing pc n c code n' with
  | zero =>
      cases hemit
      exact ⟨.refl _, fun _ => ⟨[], rfl, trivial, trivial, rfl⟩⟩
  | succ left ih =>
      rw [emitBlock] at hemit
      split at hemit
      · cases hemit
      · rename_i hfetch
        cases hemit
        exact ⟨fetchRaw_keeps hfetch, fun hn =>
          ⟨[], rfl, trivial, trivial, blockExit_pos hn⟩⟩
      · rename_i raw4 c₁ hfetch
        have hkeep := fetchRaw_keeps hfetch
        dsimp only at hemit
        cases heff : (emitRaw h raw4 pc).1.2 with
        | unhandled =>
            rw [heff] at hemit
            cases hemit
            refine ⟨hkeep, fun hn => ⟨[], rfl, trivial, trivial, ?_⟩⟩
            rw [emitRaw_bare heff, List.nil_append, blockExit_pos hn, emitRaws]
        | terminal =>
            rw [heff] at hemit
            cases hemit
            refine ⟨hkeep, fun _ => ⟨[raw4], rfl, ⟨?_, trivial⟩, ⟨_, hfetch, trivial⟩, ?_⟩⟩
            · rw [Handled, heff]
              nofun
            · rw [emitRaws, heff]
        | seq =>
            rw [heff] at hemit
            obtain ⟨⟨⟨rest, m⟩, c₂⟩, hrest, heq⟩ := Option.map_eq_some_iff.mp hemit
            simp only [Prod.mk.injEq] at heq
            obtain ⟨⟨rfl, rfl⟩, rfl⟩ := heq
            rw [emitRaw_size] at hrest
            obtain ⟨hkeep', hraws⟩ := ih hrest
            refine ⟨hkeep.trans hkeep', fun hn => ?_⟩
            obtain ⟨raws, hlen, hhandled, hfetched, hcode⟩ := hraws hn
            refine ⟨raw4 :: raws, ?_, ⟨?_, hhandled⟩, ⟨c₁, hfetch, hfetched⟩, ?_⟩
            · rw [hlen, List.length_cons]
              omega
            · rw [Handled, heff]
              nofun
            · rw [emitRaws, heff, hcode]

theorem JitCache.get_insert (jit : JitCache) (pc : U64) (code : Code) :
    (jit.insert pc code).get pc = some code := Function.update_self _ _ _

/-- The code is that of a block at an address. -/
def IsBlock (h : Host) (pc : U64) (code : Code) : Prop :=
  ∃ raws, AllHandled h pc raws ∧ code = emitPrologue ++ emitRaws h pc raws

/-- The block compiled on a hart at an address is that of the encodings. -/
structure Compiles (h : Host) (pc : U64) (raws : List U32) (c : Cpu) (code : Code) : Prop where
  nonempty : raws ≠ []
  handled : AllHandled h pc raws
  fetched : ∃ first c', fetchRaw pc c = some (.ok first, c') ∧ FetchedAlong pc raws c'
  code : code = emitPrologue ++ emitRaws h pc raws

/-- Compiling keeps the blocks there are, and may add one of fetched encodings at its address. -/
theorem compile_fetched {jit jit' : JitCache} (hcompile : compile h jit pc c = some (jit', c')) :
    Cpu.OnlyMemory c c' ∧
      (jit' = jit ∨ ∃ raws code, Compiles h pc raws c code ∧ jit' = jit.insert pc code) := by
  rw [compile] at hcompile
  split at hcompile
  · cases hcompile
    exact ⟨.refl c, Or.inl rfl⟩
  · split at hcompile
    · cases hcompile
    · rename_i hfetch
      cases hcompile
      exact ⟨fetchRaw_keeps hfetch, Or.inl rfl⟩
    · rename_i hfetch
      split at hcompile
      · cases hcompile
      · rename_i body n c₂ hemit
        have hkeep := fetchRaw_keeps hfetch
        obtain ⟨hkeep', hraws⟩ := emitBlock_eq hemit
        cases hcompile
        refine ⟨hkeep.trans hkeep', ?_⟩
        split
        · rename_i hn
          obtain ⟨raws, hlen, hhandled, hfetched, rfl⟩ := hraws hn
          refine Or.inr ⟨raws, _, ⟨?_, hhandled, ⟨_, _, hfetch, hfetched⟩, rfl⟩, rfl⟩
          rintro rfl
          rw [hlen] at hn
          exact Nat.lt_irrefl 0 hn
        · exact Or.inl rfl

/-- Compiling keeps the blocks there are, and may add one at its address. -/
theorem compile_eq {jit jit' : JitCache} (hcompile : compile h jit pc c = some (jit', c')) :
    Cpu.OnlyMemory c c' ∧
      (jit' = jit ∨ ∃ code, IsBlock h pc code ∧ jit' = jit.insert pc code) := by
  obtain ⟨hkeep, hjit⟩ := compile_fetched hcompile
  refine ⟨hkeep, hjit.imp_right ?_⟩
  rintro ⟨raws, code, hcompiles, rfl⟩
  exact ⟨code, ⟨raws, hcompiles.handled, hcompiles.code⟩, rfl⟩

end RiscvEmu.Jit

import RiscvEmu.Execution.Bytewise
import RiscvEmu.Native.Blocks
import RiscvEmu.Native.Callouts

/-!
# Restarting after a fault in a block

A block stands for its instructions, executed by the interpreter one after the other.  It returns
the address at which they go on, or all ones when a callout did not succeed.  In the second case
the hart stands in front of the load or store of that callout, which has done nothing but translate.

This holds of an entry state when each callout that succeeds makes the access of the interpreter,
and when no translation of the one that does not succeed rebuilds an entry that memory no longer
holds (`compiled_restarts`).  The block and the interpreter may cache different translations on the
way.
-/

namespace RiscvEmu.Jit

open Mmu (MarksLeaf Placed)

variable {h : Host} {fpu : Fpu} {c c' d : Cpu} {o : Outcome} {pc guestPc nextSeq size : U64}
  {raw4 : U32} {raws : List U32} {inst : Instruction} {access : AccessType} {va : U64}
  {width : Width}

/-! ## The interpreter -/

/-- The interpreter executes the encodings from an address on, one after the other and without an
exception. -/
def interpret (fpu : Fpu) : U64 → List U32 → Cpu → Option Cpu
  | _, [], c => some c
  | pc, raw4 :: raws, c =>
      if c.pc = pc then
        match Cpu.executeFetched fpu raw4 c with
        | some ⟨c', none⟩ => interpret fpu (pc + sizeOf raw4) raws c'
        | _ => none
      else none

/-- The address behind the encodings from an address on. -/
def behind : U64 → List U32 → U64
  | pc, [] => pc
  | pc, raw4 :: raws => behind (pc + sizeOf raw4) raws

/-- The second hart is the first one at another instruction. -/
def Elsewhere (c d : Cpu) : Prop := ∃ p n, d = atInst c p n

/-- It may have cached other translations as well. -/
def SameEffect (c d : Cpu) : Prop := ∃ p n cache, d = atInst { c with mmu := cache } p n

/-! ## Callouts -/

/-- What a memory instruction calls. -/
structure Callout where
  access : AccessType
  va : U64
  width : Width
  answer : Option (U64 × Cpu)

/-- The callout of an instruction. -/
def callout (inst : Instruction) (c : Cpu) : Option Callout :=
  match inst with
  | .load op _ rs1 imm =>
      some ⟨.load, c.reg rs1 + imm, op.width, c.jitLoad op.width (c.reg rs1 + imm)⟩
  | .store op rs1 rs2 imm =>
      some ⟨.store, c.reg rs1 + imm, op.width, c.jitStore op.width (c.reg rs1 + imm) (c.reg rs2)⟩
  | _ => none

/-- A callout that succeeds is the access of the interpreter on its own hart, and one that does not
has not rebuilt an entry that memory no longer holds. -/
def Callout.Regular (q : Callout) (c d : Cpu) : Prop :=
  ∀ v c', q.answer = some (v, c') →
    if v = u64Max then c.HeldAt c.mode q.access q.va
    else Cpu.SameAccess SameEffect c d q.access q.va q.width

/-- The instruction has not completed: its callout did not succeed, and it changed the hart by the
marks of the leaf of its page only. -/
def Unfinished (inst : Instruction) (c c' : Cpu) : Prop :=
  ∃ q c₁, callout inst c = some q ∧ q.answer = some (u64Max, c₁) ∧ Cpu.OnlyMemory c c' ∧
    c'.mmu = c₁.mmu ∧ c'.bus = c₁.bus ∧ MarksLeaf c.csr.satp q.va q.access c.bus c'.bus

/-! ## The law -/

/-- What a call of a block may make of a hart. -/
inductive Restarts (fpu : Fpu) (pc : U64) (raws : List U32) (d : Cpu) : Outcome → Prop
  /-- It has executed some of the instructions, and goes on where they do. -/
  | leave (done rest : List U32) (d' : Cpu) {c' : Cpu} : raws = done ++ rest →
      interpret fpu pc done d = some d' → SameEffect c' d' →
      Restarts fpu pc raws d (.leave c' d'.pc)
  /-- It has executed the instructions before one that has not completed. -/
  | fault (done rest : List U32) {raw4 : U32} {d' c' : Cpu} (cache : Mmu) :
      raws = done ++ raw4 :: rest → interpret fpu pc done d = some d' → d'.pc = behind pc done →
      c'.pc = d'.pc →
      Unfinished (instOf raw4) { d' with mmu := cache } { c' with instSize := d'.instSize } →
      Restarts fpu pc raws d (.fault c')
  /-- A callout never returns. -/
  | abort (done rest : List U32) {raw4 : U32} {d' : Cpu} {q : Callout} (cache : Mmu) :
      raws = done ++ raw4 :: rest → interpret fpu pc done d = some d' → d'.pc = behind pc done →
      callout (instOf raw4) { d' with mmu := cache } = some q → q.answer = none →
      Restarts fpu pc raws d .abort

/-- The instructions that a block reaches are accepted by the decoder, and their callouts are
regular.  The first hart is the one of the block, and the second one that of the interpreter. -/
def Regular (fpu : Fpu) : U64 → List U32 → Cpu → Cpu → Prop
  | _, [], _, _ => True
  | pc, raw4 :: raws, c, d =>
      (∃ inst, (Cpu.decodeFetched raw4).2 = .ok inst) ∧
        (∀ q, callout (instOf raw4) c = some q → q.Regular c d) ∧
        ∀ c' d', native (instOf raw4) pc (pc + sizeOf raw4) c = .next c' →
          Cpu.executeFetched fpu raw4 d = some ⟨d', none⟩ →
            Regular fpu (pc + sizeOf raw4) raws c' d'

/-! ## One instruction -/

theorem atInst_setReg (rd : Reg) (v : U64) :
    (atInst c pc size).setReg rd v = atInst (c.setReg rd v) pc size := by
  rw [Cpu.setReg, Cpu.setReg]
  split <;> rfl

theorem atInst_reg (r : Reg) : (atInst c pc size).reg r = c.reg r := rfl

/-- Translations do not look at the program counter. -/
theorem atInst_translate (mode : PrivMode) (va : U64) (access : AccessType) :
    Cpu.translate mode va access (atInst c pc size) =
      (Cpu.translate mode va access c).map fun p => (p.1, atInst p.2 pc size) := by
  simp only [Cpu.translate, Run.zoom, atInst]
  cases Mmu.translate c.csr.satp mode c.csr.mstatus va access (c.mmu, c.bus) <;> rfl

theorem atInst_jitLoad (width : Width) (va : U64) :
    (atInst c pc size).jitLoad width va =
      (c.jitLoad width va).map fun p => (p.1, atInst p.2 pc size) := by
  unfold Cpu.jitLoad
  rw [atInst_translate, show (atInst c pc size).mode = c.mode from rfl]
  cases Cpu.translate c.mode va .load c with
  | none => rfl
  | some p =>
      obtain ⟨r, c₁⟩ := p
      cases r with
      | error f => rfl
      | ok pa =>
          simp only [Option.map_some, show (atInst c₁ pc size).bus = c₁.bus from rfl]
          rcases c₁.bus.load pa width with _ | ⟨_ | _, _⟩ <;> rfl

theorem atInst_jitStore (width : Width) (va val : U64) :
    (atInst c pc size).jitStore width va val =
      (c.jitStore width va val).map fun p => (p.1, atInst p.2 pc size) := by
  unfold Cpu.jitStore
  rw [atInst_translate, show (atInst c pc size).mode = c.mode from rfl]
  cases Cpu.translate c.mode va .store c with
  | none => rfl
  | some p =>
      obtain ⟨r, c₁⟩ := p
      cases r with
      | error f => rfl
      | ok pa =>
          simp only [Option.map_some, show (atInst c₁ pc size).bus = c₁.bus from rfl]
          rcases c₁.bus.store pa width val with _ | ⟨_ | _, _⟩ <;> rfl

/-- A store callout answers zero or all ones. -/
theorem jitStore_answer {val v : U64} (hstore : c.jitStore width va val = some (v, c')) :
    v = 0 ∨ v = u64Max := by
  unfold Cpu.jitStore at hstore
  split at hstore
  · cases hstore
  · cases hstore
    exact .inr rfl
  · split at hstore <;> cases hstore
    · exact .inr rfl
    · exact .inl rfl

/-- The interpreter does what the code of an instruction does, when it goes on or leaves. -/
def Follows (fpu : Fpu) (raw4 : U32) (pc size : U64) (c : Cpu) : Outcome → Prop
  | .next c' => Cpu.executeFetched fpu raw4 (atInst c pc size) =
      some ⟨atInst c' (pc + sizeOf raw4) (sizeOf raw4), none⟩
  | .leave c' target => Cpu.executeFetched fpu raw4 (atInst c pc size) =
      some ⟨atInst c' target (sizeOf raw4), none⟩
  | .fault _ | .abort => True

theorem executeFetched_atInst (hdec : (Cpu.decodeFetched raw4).2 = .ok inst) :
    Cpu.executeFetched fpu raw4 (atInst c pc size) =
      execute fpu inst (atInst c pc (sizeOf raw4)) := by
  rw [Cpu.executeFetched]
  simp only [hdec]
  rw [decodeFetched_fst]
  rfl

theorem execWrite_atInst (rd : Reg) (v : U64) :
    (atInst c pc size).execWrite rd v = some ⟨atInst (c.setReg rd v) (pc + size) size, none⟩ := by
  rw [Cpu.execWrite, atInst_setReg]
  rfl

theorem execJump_atInst {target : U64} (heven : IsEven target) (link : Cpu → Cpu)
    (hlink : link (atInst c pc size) = atInst c' pc size) :
    (atInst c pc size).execJump target link = some ⟨atInst c' target size, none⟩ := by
  have hrun : (atInst c pc size).execJump target link =
      some ((link (atInst c pc size)).retire target) := if_neg (not_not.mpr heven)
  rw [hrun, hlink]
  rfl

/-- The interpreter follows the code of an instruction without a call. -/
theorem native_follows (hdec : (Cpu.decodeFetched raw4).2 = .ok inst)
    (hinline : inlined inst = true) (heven : IsEven pc) :
    Follows fpu raw4 pc size c (native inst pc (pc + sizeOf raw4) c) := by
  have hrange := decodeFetched_inRange hdec
  have hexec : Cpu.executeFetched fpu raw4 (atInst c pc size) = _ := executeFetched_atInst hdec
  cases inst with
  | op | opImm | shift | lui | auipc => exact hexec.trans (execWrite_atInst _ _)
  | fence => exact hexec
  | branch op rs1 rs2 imm =>
      refine hexec.trans ?_
      change (atInst c pc (sizeOf raw4)).execBranch op rs1 rs2 imm = _
      rw [Cpu.execBranch, atInst_reg, atInst_reg]
      split
      · exact execJump_atInst (heven.add hrange) id rfl
      · rfl
  | jal rd imm =>
      exact hexec.trans (execJump_atInst (heven.add hrange) _ (atInst_setReg rd _))
  | jalr rd rs1 imm =>
      exact hexec.trans (execJump_atInst (isEven_clear _) _ (atInst_setReg rd _))
  | _ => cases hinline

/-- What has code has it with a call or without one. -/
theorem Handled.compiled (hhandled : Handled h pc raw4)
    (hdec : (Cpu.decodeFetched raw4).2 = .ok inst) :
    inlined inst = true ∨ callsOut inst = true := by
  have hinst : instOf raw4 = inst := by rw [instOf, hdec]
  rw [Handled] at hhandled
  by_cases hquad : raw4 &&& 0x3 ≠ 0x3
  · rw [emitRaw_compressed hquad] at hhandled
    by_cases hhint : Rvc.AddHint (raw4.setWidth 16)
    · rw [← hinst, instOf_rejected hquad (decodeRvc?_hint hhint)]
      exact .inl rfl
    · have hcorr := emitRvc_corresponds h pc hhint
      obtain ⟨inst', hdec'⟩ := hcorr.accepted hhandled
      rw [instOf_compressed hquad hdec'] at hinst
      subst hinst
      rw [hdec'] at hcorr
      cases hcorr with
      | unhandled hun => exact absurd hun hhandled
      | own _ hinline => exact .inl hinline
      | full _ hcode =>
          rw [hcode] at hhandled
          exact (handled_iff h pc (pc + 2) inst').mp hhandled
  · cases hfull : decode raw4 with
    | error e =>
        rw [emitRaw_undecoded hquad hfull] at hhandled
        exact absurd rfl hhandled
    | ok inst' =>
        rw [instOf_full hquad hfull] at hinst
        subst hinst
        rw [emitRaw_full hquad hfull] at hhandled
        exact (handled_iff h pc (pc + 4) inst').mp hhandled

/-! ## Memory instructions -/

/-- A callout translates its address, and changes RAM only by that when it does not succeed. -/
theorem callout_translates {q : Callout} {v : U64} (hq : callout inst c = some q)
    (hanswer : q.answer = some (v, c')) :
    ∃ r c₂, Cpu.translate c.mode q.va q.access c = some (r, c₂) ∧
      c'.mmu = c₂.mmu ∧ (v = u64Max → c'.bus.ram = c₂.bus.ram) := by
  cases inst with
  | load op rd rs1 imm =>
      cases hq
      change c.jitLoad _ _ = _ at hanswer
      unfold Cpu.jitLoad at hanswer
      split at hanswer
      · cases hanswer
      · rename_i ht
        cases hanswer
        exact ⟨_, _, ht, rfl, fun _ => rfl⟩
      · rename_i ht
        split at hanswer
        · cases hanswer
        · rename_i hl
          cases hanswer
          exact ⟨_, _, ht, rfl, fun _ => (Mmu.load_keeps_ram hl).1⟩
        · rename_i hl
          cases hanswer
          exact ⟨_, _, ht, rfl, fun _ => (Mmu.load_keeps_ram hl).1⟩
  | store op rs1 rs2 imm =>
      cases hq
      change c.jitStore _ _ _ = _ at hanswer
      unfold Cpu.jitStore at hanswer
      split at hanswer
      · cases hanswer
      · rename_i ht
        cases hanswer
        exact ⟨_, _, ht, rfl, fun _ => rfl⟩
      · rename_i ht
        split at hanswer
        · cases hanswer
        · rename_i hs
          cases hanswer
          exact ⟨_, _, ht, rfl, fun _ => congrArg Bus.ram (Bus.store_error hs).2.2⟩
        · cases hanswer
          exact ⟨_, _, ht, rfl, fun hmax => absurd hmax.symm Cpu.u64Max_ne_zero⟩
  | _ => cases hq

theorem callout_placed {q : Callout} {v : U64} (hplaced : Placed c.mmu)
    (hq : callout inst c = some q) (hanswer : q.answer = some (v, c')) : Placed c'.mmu := by
  obtain ⟨r, c₂, ht, hmmu, -⟩ := callout_translates hq hanswer
  obtain ⟨r₀, s, hs, -, rfl⟩ := Run.zoom_eq_some ht
  rw [hmmu]
  exact hplaced.translate hs

/-- A callout that does not succeed marks the leaf of its page. -/
theorem callout_marks {q : Callout} (hplaced : Placed c.mmu) (hq : callout inst c = some q)
    (hanswer : q.answer = some (u64Max, c')) (hheld : c.HeldAt c.mode q.access q.va) :
    MarksLeaf c.csr.satp q.va q.access c.bus c'.bus := by
  obtain ⟨r, c₂, ht, -, hram⟩ := callout_translates hq hanswer
  obtain ⟨r₀, s, hs, -, rfl⟩ := Run.zoom_eq_some ht
  have hmarks : MarksLeaf c.csr.satp q.va q.access c.bus s.2 :=
    (hplaced.marksLeaf_iff hs).mpr hheld
  rw [MarksLeaf, hram rfl]
  exact hmarks

/-- What the code of a memory instruction makes of the answer of its callout. -/
def finish (inst : Instruction) (v : U64) (c : Cpu) : Cpu :=
  match inst with
  | .load op rd _ _ => c.setReg rd (op.extend v)
  | _ => c

theorem finish_atInst (inst : Instruction) (v : U64) :
    finish inst v (atInst c pc size) = atInst (finish inst v c) pc size := by
  cases inst with
  | load op rd rs1 imm => exact atInst_setReg rd _
  | _ => rfl

theorem setReg_cache (rd : Reg) (v : U64) (cache : Mmu) :
    Cpu.setReg { c with mmu := cache } rd v = { c.setReg rd v with mmu := cache } := by
  rw [Cpu.setReg, Cpu.setReg]
  split <;> rfl

theorem finish_cache (inst : Instruction) (v : U64) (cache : Mmu) :
    finish inst v { c with mmu := cache } = { finish inst v c with mmu := cache } := by
  cases inst with
  | load op rd rs1 imm => exact setReg_cache rd _ cache
  | _ => rfl

theorem native_callout {q : Callout} (hq : callout inst c = some q) :
    native inst pc nextSeq c = answered pc (finish inst) q.answer := by
  cases inst with
  | load | store =>
      cases hq
      rfl
  | _ => cases hq

theorem callout_atInst (inst : Instruction) :
    callout inst (atInst c pc size) = (callout inst c).map fun q =>
      { q with answer := q.answer.map fun p => (p.1, atInst p.2 pc size) } := by
  cases inst with
  | load op rd rs1 imm =>
      rw [callout, callout, Option.map_some, atInst_reg, atInst_jitLoad]
  | store op rs1 rs2 imm =>
      rw [callout, callout, Option.map_some, atInst_reg, atInst_reg, atInst_jitStore]
  | _ => rfl

theorem callout_of_callsOut (hcalls : callsOut inst = true) (c : Cpu) :
    ∃ q, callout inst c = some q := by
  cases inst with
  | load | store => exact ⟨_, rfl⟩
  | _ => cases hcalls

theorem Elsewhere.bus (h : Elsewhere c d) : d.bus = c.bus := by
  obtain ⟨p, n, rfl⟩ := h
  rfl

theorem Elsewhere.put (b : Bus) (h : Elsewhere c d) :
    Elsewhere { c with bus := b } { d with bus := b } := by
  obtain ⟨p, n, rfl⟩ := h
  exact ⟨p, n, rfl⟩

theorem Elsewhere.atInst (h : Elsewhere c d) (p n : U64) : Elsewhere c (atInst d p n) := by
  obtain ⟨_, _, rfl⟩ := h
  exact ⟨p, n, rfl⟩

theorem elsewhere_sharesBus : Cpu.SharesBus Elsewhere := ⟨(·.bus), fun b h => h.put b⟩

theorem SameEffect.bus (h : SameEffect c d) : d.bus = c.bus := by
  obtain ⟨p, n, cache, rfl⟩ := h
  rfl

theorem SameEffect.put (b : Bus) (h : SameEffect c d) :
    SameEffect { c with bus := b } { d with bus := b } := by
  obtain ⟨p, n, cache, rfl⟩ := h
  exact ⟨p, n, cache, rfl⟩

theorem SameEffect.atInst (h : SameEffect c d) (p n : U64) : SameEffect c (atInst d p n) := by
  obtain ⟨_, _, cache, rfl⟩ := h
  exact ⟨p, n, cache, rfl⟩

theorem sameEffect_sharesBus : Cpu.SharesBus SameEffect := ⟨(·.bus), fun b h => h.put b⟩

/-- Where the interpreter goes does not depend on the program counter. -/
theorem sameAccess_atInst {R : Cpu → Cpu → Prop}
    (hR : ∀ {c d : Cpu}, R c d → ∀ p n, R c (atInst d p n))
    (hsame : Cpu.SameAccess R c d access va width) :
    Cpu.SameAccess R c (atInst d pc size) access va width := by
  intro pa c₁ ht
  obtain ⟨d₁, hfirst, hrel, hnext⟩ := hsame pa c₁ ht
  refine ⟨atInst d₁ pc size, ?_, hR hrel pc size, fun hcross => ?_⟩
  · rw [atInst_translate, show (atInst d pc size).lsMode = d.lsMode from rfl, hfirst]
    rfl
  · obtain ⟨hram, d₂, hsecond, hrel₂⟩ := hnext hcross
    refine ⟨hram, atInst d₂ pc size, ?_, hR hrel₂ pc size⟩
    rw [atInst_translate, show (atInst d pc size).lsMode = d.lsMode from rfl, hsecond]
    rfl

/-- The interpreter finishes an instruction as its code does, when it makes the access of the
callout. -/
theorem executeFetched_of_sameAccess {R : Cpu → Cpu → Prop} (hR : Cpu.SharesBus R)
    (hdec : (Cpu.decodeFetched raw4).2 = .ok inst) {q : Callout} {v : U64} {c₁ : Cpu}
    (hq : callout inst c = some q) (hanswer : q.answer = some (v, c₁)) (hv : v ≠ u64Max)
    (hregs : d.regs = c.regs)
    (hsame : Cpu.SameAccess R c (atInst d pc (sizeOf raw4)) q.access q.va q.width) :
    ∃ d₁, R c₁ d₁ ∧ Cpu.OnlyMemory (atInst d pc (sizeOf raw4)) d₁ ∧
      Cpu.executeFetched fpu raw4 (atInst d pc size) =
        some ((finish inst v d₁).retire (pc + sizeOf raw4)) := by
  have hreg (r : Reg) : (atInst d pc (sizeOf raw4)).reg r = c.reg r := by
    rw [atInst_reg, Cpu.reg, Cpu.reg, hregs]
  rw [executeFetched_atInst hdec]
  cases inst with
  | load op rd rs1 imm =>
      cases hq
      obtain ⟨d₁, hrun, hrel⟩ := hsame.load hR hanswer hv
      refine ⟨d₁, hrel, Cpu.mmuLoad_keepsHart _ _ _ _ _ _ hrun, ?_⟩
      change (atInst d pc (sizeOf raw4)).execLoad rs1 imm op.width _ = _
      rw [Cpu.execLoad, Cpu.orRaise, hreg, hrun]
      rfl
  | store op rs1 rs2 imm =>
      cases hq
      have hzero : v = 0 := (jitStore_answer hanswer).resolve_right hv
      subst hzero
      obtain ⟨d₁, hrun, hrel⟩ := hsame.store hR hanswer
      refine ⟨d₁, hrel, Cpu.mmuStore_keepsHart _ _ _ _ _ _ _ hrun, ?_⟩
      change (atInst d pc (sizeOf raw4)).execStore rs1 imm op.width _ = _
      rw [Cpu.execStore, Cpu.orRaise, hreg, hreg, hrun]
      rfl
  | _ => cases hq

/-- The interpreter follows a callout that succeeds on an access that it makes on the same hart. -/
theorem callout_follows (hdec : (Cpu.decodeFetched raw4).2 = .ok inst) {q : Callout} {v : U64}
    {c₁ : Cpu} (hq : callout inst c = some q) (hanswer : q.answer = some (v, c₁)) (hv : v ≠ u64Max)
    (hsame : Cpu.SameAccess Elsewhere c (atInst c pc (sizeOf raw4)) q.access q.va q.width) :
    Follows fpu raw4 pc size c (.next (finish inst v c₁)) := by
  obtain ⟨_, ⟨p, n, rfl⟩, hkeep, hexec⟩ :=
    executeFetched_of_sameAccess elsewhere_sharesBus hdec hq hanswer hv rfl hsame
  refine hexec.trans ?_
  obtain rfl : n = sizeOf raw4 := hkeep.instSize
  rw [finish_atInst]
  rfl

/-- It follows such a callout with a cache of its own as well. -/
theorem callout_follows_cached (fpu : Fpu) {cache : Mmu} {q : Callout} {v : U64} {c₁ : Cpu}
    (hdec : (Cpu.decodeFetched raw4).2 = .ok inst) (hq : callout inst c = some q)
    (hanswer : q.answer = some (v, c₁)) (hv : v ≠ u64Max)
    (hsame : Cpu.SameAccess SameEffect c (atInst { c with mmu := cache } pc size) q.access q.va
      q.width) :
    ∃ cache₁, Cpu.executeFetched fpu raw4 (atInst { c with mmu := cache } pc size) =
      some ⟨atInst { finish inst v c₁ with mmu := cache₁ } (pc + sizeOf raw4) (sizeOf raw4),
        none⟩ := by
  have hsame' : Cpu.SameAccess SameEffect c
      (atInst (atInst { c with mmu := cache } pc size) pc (sizeOf raw4)) q.access q.va q.width :=
    sameAccess_atInst (·.atInst) hsame
  obtain ⟨_, ⟨p, n, cache₁, rfl⟩, hkeep, hexec⟩ := executeFetched_of_sameAccess
    (d := { c with mmu := cache }) sameEffect_sharesBus hdec hq hanswer hv rfl hsame'
  obtain rfl : n = sizeOf raw4 := hkeep.instSize
  refine ⟨cache₁, hexec.trans ?_⟩
  rw [finish_atInst, finish_cache]
  rfl

theorem setReg_mmu (c : Cpu) (rd : Reg) (v : U64) : (c.setReg rd v).mmu = c.mmu := by
  rw [Cpu.setReg]
  split <;> rfl

theorem finish_mmu (inst : Instruction) (v : U64) (c : Cpu) : (finish inst v c).mmu = c.mmu := by
  cases inst with
  | load => exact setReg_mmu _ _ _
  | _ => rfl

/-- Code without a call goes on, and leaves the cache alone, or leaves. -/
theorem native_inlined (hinline : inlined inst = true) (pc nextSeq : U64) :
    (∃ c', native inst pc nextSeq c = .next c' ∧ c'.mmu = c.mmu) ∨
      ∃ c' target, native inst pc nextSeq c = .leave c' target := by
  cases inst with
  | op | opImm | shift | lui | auipc => exact .inl ⟨_, rfl, setReg_mmu _ _ _⟩
  | fence => exact .inl ⟨_, rfl, rfl⟩
  | branch | jal | jalr => exact .inr ⟨_, _, rfl⟩
  | _ => cases hinline

/-- The outcome with another cache. -/
def Outcome.recached (cache : Mmu) : Outcome → Outcome
  | .next c => .next { c with mmu := cache }
  | .leave c target => .leave { c with mmu := cache } target
  | .fault c => .fault { c with mmu := cache }
  | .abort => .abort

/-- Code without a call does not look at the cache. -/
theorem native_cache (hinline : inlined inst = true) (pc nextSeq : U64) (cache : Mmu) :
    native inst pc nextSeq { c with mmu := cache } =
      (native inst pc nextSeq c).recached cache := by
  cases inst with
  | op | opImm | shift | lui | auipc => exact congrArg Outcome.next (setReg_cache _ _ _)
  | fence | branch => rfl
  | jal | jalr => exact congrArg (Outcome.leave · _) (setReg_cache _ _ _)
  | _ => cases hinline

theorem callout_keeps {q : Callout} {v : U64} (hq : callout inst c = some q)
    (hanswer : q.answer = some (v, c')) : Cpu.OnlyMemory c c' := by
  cases inst with
  | load =>
      cases hq
      exact jitLoad_keeps hanswer
  | store =>
      cases hq
      exact jitStore_keeps hanswer
  | _ => cases hq

/-! ## Blocks -/

theorem interpret_cons (hpc : d.pc = pc)
    (hexec : Cpu.executeFetched fpu raw4 d = some ⟨c', none⟩) (raws : List U32) :
    interpret fpu pc (raw4 :: raws) d = interpret fpu (pc + sizeOf raw4) raws c' := by
  rw [interpret, if_pos hpc, hexec]

theorem Restarts.cons (hpc : d.pc = pc)
    (hexec : Cpu.executeFetched fpu raw4 d = some ⟨c', none⟩)
    (hrest : Restarts fpu (pc + sizeOf raw4) raws c' o) : Restarts fpu pc (raw4 :: raws) d o := by
  have hstep := interpret_cons hpc hexec
  cases hrest with
  | leave done rest d' hraws hrun helse =>
      exact .leave (raw4 :: done) rest d' (by rw [hraws, List.cons_append]) (by rw [hstep, hrun])
        helse
  | fault done rest cache hraws hrun hbehind hpc' hunfinished =>
      exact .fault (raw4 :: done) rest cache (by rw [hraws, List.cons_append])
        (by rw [hstep, hrun]) hbehind hpc' hunfinished
  | abort done rest cache hraws hrun hbehind hq hanswer =>
      exact .abort (raw4 :: done) rest cache (by rw [hraws, List.cons_append])
        (by rw [hstep, hrun]) hbehind hq hanswer

/-- The instructions of a block restart.  The interpreter starts with a cache of its own. -/
theorem runRaws_restarts {cache : Mmu} (hhandled : AllHandled h pc raws) (heven : IsEven pc)
    (hplaced : Placed c.mmu)
    (hregular : Regular fpu pc raws c (atInst { c with mmu := cache } pc size)) :
    Restarts fpu pc raws (atInst { c with mmu := cache } pc size) (runRaws pc raws c) := by
  induction raws generalizing pc c size cache with
  | nil => exact .leave [] [] (atInst { c with mmu := cache } pc size) rfl rfl ⟨_, _, _, rfl⟩
  | cons raw4 raws ih =>
      obtain ⟨hhead, htail⟩ := hhandled
      obtain ⟨⟨inst, hdec⟩, hcallout, hrest⟩ := hregular
      have hinst : instOf raw4 = inst := by rw [instOf, hdec]
      have hnext : IsEven (pc + sizeOf raw4) := heven.add (sizeOf_even raw4)
      rw [runRaws, hinst]
      rw [hinst] at hcallout hrest
      rcases hhead.compiled hdec with hinline | hcalls
      · -- without a call the interpreter does the same
        have hfollows : Follows fpu raw4 pc size { c with mmu := cache } _ :=
          native_follows hdec hinline heven
        rw [native_cache hinline] at hfollows
        rcases native_inlined (c := c) hinline pc (pc + sizeOf raw4) with
          ⟨c₁, hnative, hmmu⟩ | ⟨c₁, target, hnative⟩
        · rw [hnative] at hfollows ⊢
          refine .cons rfl hfollows (ih htail hnext ?_ (hrest c₁ _ hnative hfollows))
          rw [hmmu]
          exact hplaced
        · rw [hnative] at hfollows ⊢
          refine .cons rfl hfollows ?_
          exact .leave [] raws (atInst { c₁ with mmu := cache } target (sizeOf raw4)) rfl rfl
            ⟨_, _, _, rfl⟩
      · obtain ⟨q, hq⟩ := callout_of_callsOut hcalls c
        have hregular' := hcallout q hq
        rw [native_callout hq] at hrest ⊢
        -- the hart of the block, at the instruction
        have hq' : callout inst (atInst c pc size) = _ := callout_atInst inst
        rw [hq, Option.map_some] at hq'
        cases hanswer : q.answer with
        | none =>
            refine .abort [] raws c.mmu rfl rfl rfl (by rw [hinst]; exact hq') ?_
            rw [hanswer]
            rfl
        | some p =>
            obtain ⟨v, c₁⟩ := p
            simp only [hanswer, Option.map_some] at hq' hrest
            have hlaw := hregular' v _ hanswer
            rw [answered] at hrest ⊢
            split
            · -- the callout has only translated
              rename_i hv
              subst hv
              rw [if_pos rfl] at hlaw
              refine .fault [] raws c.mmu rfl rfl rfl rfl ?_
              rw [hinst]
              exact ⟨_, _, hq', rfl, callout_keeps hq' rfl, rfl, rfl,
                callout_marks hplaced hq' rfl hlaw⟩
            · rename_i hv
              rw [if_neg hv] at hlaw hrest
              obtain ⟨cache₁, hfollows⟩ := callout_follows_cached fpu hdec hq hanswer hv hlaw
              refine .cons rfl hfollows (ih htail hnext ?_ (hrest _ _ rfl hfollows))
              rw [finish_mmu]
              exact callout_placed hplaced hq hanswer

/-! ## Calls of compiled blocks -/

/-- What a call of a block returns: the address at which its instructions go on, or all ones. -/
def CallRestarts (fpu : Fpu) (pc : U64) (raws : List U32) (c : Cpu) : Option (U64 × Cpu) → Prop
  | some (v, c') =>
      (v ≠ u64Max ∧ Restarts fpu pc raws { c with pc := pc } (.leave c' v)) ∨
        (v = u64Max ∧ Restarts fpu pc raws { c with pc := pc } (.fault c'))
  | none => Restarts fpu pc raws { c with pc := pc } .abort

theorem even_blockStable : BlockStable (fun _ => True) IsEven where
  memory _ _ := trivial
  setReg _ _ _ := trivial
  pc _ _ := trivial
  add hpc hn := hpc.add hn
  clear v := isEven_clear v

theorem callRestarts_of {c : Cpu} (ho : o.All (fun _ => True) IsEven)
    (hrestarts : Restarts fpu pc raws { c with pc := pc } o) :
    CallRestarts fpu pc raws c o.returned := by
  cases o with
  | next => cases hrestarts
  | abort => exact hrestarts
  | fault => exact .inr ⟨rfl, hrestarts⟩
  | leave c' v =>
      refine .inl ⟨?_, hrestarts⟩
      rintro rfl
      exact absurd ho.2 (by decide)

/-- A compiled block stands for the instructions it was compiled from, and after a fault the hart
stands in front of the instruction that has not completed, from every state in which the
instructions are regular. -/
theorem compiled_restarts {jit jit' : JitCache} {c₀ c₀' : Cpu} {code : Code}
    (hcompile : compile h jit pc c₀ = some (jit', c₀')) (hnew : jit.get pc = none)
    (hget : jit'.get pc = some code) (heven : IsEven pc) :
    (∃ raws, Compiles h pc raws c₀ code) ∧
      ∀ raws, Compiles h pc raws c₀ code → ∀ c, c.regs 0 = 0 →
        Mmu.shared.Reachable (fun _ _ => True) (c.mmu, c.bus) →
        Regular fpu pc raws c { c with pc := pc } →
        CallRestarts fpu pc raws c (runBlock h code c) := by
  refine ⟨?_, fun raws hcompiles c hzero hreach hregular => ?_⟩
  · obtain ⟨-, rfl | ⟨raws, code', hcompiles, rfl⟩⟩ := compile_fetched hcompile
    · rw [hnew] at hget
      cases hget
    · rw [JitCache.get_insert] at hget
      cases hget
      exact ⟨raws, hcompiles⟩
  · rw [hcompiles.code, runBlock_does (emitRaws_does hcompiles.handled hzero)]
    exact callRestarts_of (runRaws_all even_blockStable heven trivial)
      (runRaws_restarts hcompiles.handled heven (Mmu.shared_placed hreach) hregular)

/-- A hart in front of a load and an addition. -/
def pairHart : Cpu :=
  Cpu.new ((Bus.new 0x1000 0x8000_0000).withWords [(0, 0x0010_8193_0001_3083)]) 0x8000_0000

/-- The encodings of the load and of the addition. -/
def pairRaws : List U32 := [0x0001_3083, 0x0010_8193]

/-- The block of the two. -/
def pairCode : Code := emitPrologue ++ emitRaws layoutHost 0x8000_0000 pairRaws

theorem pairCode_handled : AllHandled layoutHost 0x8000_0000 pairRaws := by
  refine ⟨?_, ?_, trivial⟩ <;>
  · rw [Handled]
    decide

theorem pairHart_compile :
    compile layoutHost .new 0x8000_0000 pairHart =
        some (JitCache.new.insert 0x8000_0000 pairCode, pairHart) ∧
      Compiles layoutHost 0x8000_0000 pairRaws pairHart pairCode := by
  have hfirst : fetchRaw 0x8000_0000 pairHart = some (.ok 0x0001_3083, pairHart) := rfl
  have hsecond : fetchRaw 0x8000_0004 pairHart = some (.ok 0x0010_8193, pairHart) := rfl
  exact ⟨rfl, by simp [pairRaws], pairCode_handled,
    ⟨_, _, hfirst, _, hfirst, _, hsecond, trivial⟩, rfl⟩

/-- A hart whose load crosses into a page that is not cached.  The frame of that page lies behind
the other one. -/
def straddleHart : Cpu :=
  let c := Cpu.pagedHart
    [(0x0000, 0x2000_0401), (0x1000, 0x2000_0801), (0x2008, 0x2000_0C5F), (0x2010, 0x2000_105F),
      (0x3FF8, 0x4433_2211_0000_0000), (0x4000, 0x8877_6655)]
  { c with regs := Function.update c.regs 2 0x1FFC }

/-- The hart after it translated the first page. -/
def walkedHart : Cpu :=
  ((Cpu.translate .u 0x1FFC .load straddleHart).map Prod.snd).getD straddleHart

/-- The interpreter caches the second page as well. -/
theorem straddleHart_sameAccess : Cpu.SameAccess SameEffect straddleHart
    { straddleHart with pc := 0x8000_0000 } .load 0x1FFC .b8 := by
  have hc : Cpu.translate .u 0x1FFC .load straddleHart = some (.ok 0x8000_3FFC, walkedHart) := rfl
  exact .of_translations hc rfl ⟨_, _, _, rfl⟩ (by decide) rfl ⟨_, _, _, rfl⟩

theorem straddleHart_regular : Regular default 0x8000_0000 pairRaws straddleHart
    { straddleHart with pc := 0x8000_0000 } := by
  refine ⟨⟨_, rfl⟩, fun q hq v c' hanswer => ?_, fun c' d' _ _ => ⟨⟨_, rfl⟩, fun q hq => ?_,
    fun _ _ _ _ => trivial⟩⟩
  · have hcallout : callout (instOf 0x0001_3083) straddleHart =
        some ⟨.load, 0x1FFC, .b8, Cpu.jitLoad .b8 0x1FFC straddleHart⟩ := rfl
    cases hcallout.symm.trans hq
    have hv : (Cpu.jitLoad .b8 0x1FFC straddleHart).map Prod.fst = some 0x8877_6655_4433_2211 := by
      decide +kernel
    rw [show Cpu.jitLoad .b8 0x1FFC straddleHart = some (v, c') from hanswer, Option.map_some] at hv
    rw [show v = _ from Option.some.inj hv, if_neg (by decide)]
    exact straddleHart_sameAccess
  · cases hq

theorem straddleHart_restarts :
    CallRestarts default 0x8000_0000 pairRaws straddleHart
      (runBlock layoutHost pairCode straddleHart) :=
  (compiled_restarts pairHart_compile.1 rfl (JitCache.get_insert _ _ _) (by decide)).2 _
    pairHart_compile.2 straddleHart rfl (.init rfl) straddleHart_regular

/-- A hart in front of a load from RAM. -/
def loadHart : Cpu :=
  let c := Cpu.new ((Bus.new 0x1000 0x8000_0000).withWords [(0, 0x0001_3083)]) 0x8000_0000
  { c with regs := Function.update c.regs 2 0x8000_0100 }

/-- The block of the load. -/
def loadCode : Code := emitPrologue ++ emitRaws layoutHost 0x8000_0000 [0x0001_3083]

theorem loadCode_handled : AllHandled layoutHost 0x8000_0000 [0x0001_3083] := by
  refine ⟨?_, trivial⟩
  rw [Handled]
  decide

theorem loadHart_compile :
    compile layoutHost .new 0x8000_0000 loadHart =
        some (JitCache.new.insert 0x8000_0000 loadCode, loadHart) ∧
      Compiles layoutHost 0x8000_0000 [0x0001_3083] loadHart loadCode := by
  have hfetch : fetchRaw 0x8000_0000 loadHart = some (.ok 0x0001_3083, loadHart) := rfl
  exact ⟨rfl, by simp, loadCode_handled, ⟨_, _, hfetch, _, hfetch, trivial⟩, rfl⟩

/-- Firmware in M-mode that makes its loads and stores in U-mode. -/
def mprvLoadHart : Cpu :=
  { loadHart with
    csr := { loadHart.csr with mstatus := 0x2_0000, satp := 0x8000_0000_0008_0000 } }

/-- The interpreter faults at the load, and the block goes on behind it. -/
theorem mprvLoadHart_passes : ∃ h fpu pc raws c₀ jit' c₀' code c,
    compile h .new pc c₀ = some (jit', c₀') ∧ jit'.get pc = some code ∧
      Compiles h pc raws c₀ code ∧ IsEven pc ∧ c.regs 0 = 0 ∧
      Mmu.shared.Reachable (fun _ _ => True) (c.mmu, c.bus) ∧
      ¬ CallRestarts fpu pc raws c (runBlock h code c) := by
  refine ⟨layoutHost, default, 0x8000_0000, [0x0001_3083], loadHart, _, _, loadCode, mprvLoadHart,
    loadHart_compile.1, JitCache.get_insert _ _ _, loadHart_compile.2, by decide, rfl, .init rfl,
    fun hrestarts => ?_⟩
  have hzero : ZeroReg mprvLoadHart := rfl
  have hrun : ∃ c', runBlock layoutHost loadCode mprvLoadHart = some (0x8000_0004, c') := by
    rw [loadCode, runBlock_does (emitRaws_does loadCode_handled hzero)]
    exact ⟨_, rfl⟩
  obtain ⟨c', hrun⟩ := hrun
  rw [hrun] at hrestarts
  obtain ⟨-, hleave⟩ | ⟨hmax, -⟩ := hrestarts
  · generalize ho : Outcome.leave c' 0x8000_0004 = o at hleave
    cases hleave with
    | leave done rest d' hraws hinterpret _ =>
        have hpc : 0x8000_0004 = d'.pc := (Outcome.leave.inj ho).2
        cases done with
        | nil =>
            -- nothing was executed, so the hart is still in front of the load
            cases hinterpret
            exact absurd hpc (by decide)
        | cons r done =>
            -- the load raises an exception
            obtain ⟨rfl, hnil⟩ := List.cons.inj hraws
            obtain ⟨rfl, rfl⟩ := List.append_eq_nil_iff.mp hnil.symm
            have hnone : (interpret default 0x8000_0000 [0x0001_3083]
                { mprvLoadHart with pc := 0x8000_0000 }).isNone = true := by decide
            rw [hinterpret] at hnone
            cases hnone
    | fault | abort => cases ho
  · exact absurd hmax (by decide)

end RiscvEmu.Jit

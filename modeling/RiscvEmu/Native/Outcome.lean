import RiscvEmu.Native.Templates

/-!
# Outcomes of compiled code

Code of an instruction goes on to the next one, leaves the block with an address, leaves it
because a callout reported a fault, or never returns because the callout does not.  An `Outcome`
is one of these with the hart it leaves, and `Does` ties it to the code.  A sequence of code has
the outcome of its first part, followed by that of the second part where the first goes on.

Memory instructions call out.  A callout that answers with all ones leaves the block with the
address of the instruction in `pc`, and nothing else changed but by the callout.
-/

namespace RiscvEmu.Jit

open X86 (Reaches Returns Sticks State)

/-- What code makes of a hart. -/
inductive Outcome where
  /-- It goes on. -/
  | next (c : Cpu)
  /-- It leaves the block, for an address. -/
  | leave (c : Cpu) (pc : U64)
  /-- It leaves the block with all ones, after a fault. -/
  | fault (c : Cpu)
  /-- It never returns. -/
  | abort

namespace Outcome

/-- Go on with more code. -/
def andThen (o : Outcome) (k : Cpu → Outcome) : Outcome :=
  match o with
  | .next c => k c
  | o => o

/-- The hart satisfies a predicate, and so does the address the block is left for. -/
def All (P : Cpu → Prop) (Q : U64 → Prop) : Outcome → Prop
  | .next c => P c
  | .leave c pc => P c ∧ Q pc
  | .fault c => P c
  | .abort => True

theorem All.andThen {P : Cpu → Prop} {Q : U64 → Prop} {o : Outcome} {k : Cpu → Outcome}
    (ho : o.All P Q) (hk : ∀ c, P c → (k c).All P Q) : (o.andThen k).All P Q := by
  cases o with
  | next c => exact hk c ho
  | leave | fault | abort => exact ho

end Outcome

/-- Code has an outcome on a hart. -/
def Does (h : Host) (code : Code) (c : Cpu) : Outcome → Prop
  | .next c' => Falls h code c c'
  | .leave c' pc => Leaves h code c c' pc
  | .fault c' => Leaves h code c c' u64Max
  | .abort => ∀ s, Inside h c s → Sticks h.env code s

variable {h : Host} {c c' : Cpu} {code code' : Code} {o : Outcome} {rd rs1 rs2 : Reg}
  {v va imm guestPc : U64} {width : Width}

theorem Falls.append_does (hcode : Falls h code c c') (hcode' : Does h code' c' o) :
    Does h (code ++ code') c o := by
  cases o with
  | next => exact hcode.append hcode'
  | leave | fault => exact hcode.append_leaves hcode'
  | abort => exact fun s hs => (hcode s hs).append_sticks fun s' hs' => hcode' s' hs'.1

theorem Does.append {k : Cpu → Outcome} (hcode : Does h code c o)
    (hcode' : ∀ c', o = .next c' → Does h code' c' (k c')) :
    Does h (code ++ code') c (o.andThen k) := by
  cases o with
  | next c' => exact Falls.append_does hcode (hcode' c' rfl)
  | leave | fault => exact Leaves.append hcode
  | abort => exact fun s hs => (hcode s hs).append

/-! ## Callouts -/

theorem find_widths {f : Width → U64} (hf : Function.Injective f) (w : Width) :
    (Host.widths.find? fun w' => decide (f w' = f w)) = some w := by
  cases w <;> simp [Host.widths, hf.eq_iff]

theorem call_load (w : Width) (rsi rdx : U64) (c : Cpu) :
    h.env.call (h.loadHelper w) h.cpu rsi rdx c = c.jitLoad w rsi := by
  change h.call _ _ _ _ c = _
  rw [Host.call, if_neg (not_not.mpr rfl), find_widths h.load_inj]

theorem call_store (w : Width) (rsi rdx : U64) (c : Cpu) :
    h.env.call (h.storeHelper w) h.cpu rsi rdx c = c.jitStore w rsi rdx := by
  have hnone : (Host.widths.find? fun w' => decide (h.loadHelper w' = h.storeHelper w)) = none :=
    List.find?_eq_none.mpr fun w' _ => by simp [h.apart w' w]
  change h.call _ _ _ _ c = _
  rw [Host.call, if_neg (not_not.mpr rfl), hnone, find_widths h.store_inj]

/-! ## Memory instructions -/

/-- What follows a call: leave the block when it answered all ones, and go on with the code for its
result otherwise. -/
def emitAnswer (h : Host) (code : Code) (guestPc : U64) : Code :=
  .jcc .e .fault :: (code ++ [.jmp .skipFault] ++ .label .fault ::
    (emitFaultReturn h guestPc ++ [.label .skipFault]))

/-- What a call leaves. -/
@[mk_iff]
structure Called (h : Host) (c : Cpu) (st : List U64) (v : U64) (s : State Cpu) : Prop where
  inside : Inside h c s
  stack : s.stack = st
  rax : s.regs.rax = v
  flags : s.flags = some (.sub v u64Max)

theorem emitAnswer_fault {s : State Cpu} {pad r14 r15 ret : U64} {rest : List U64}
    (hcode : .label .fault ∉ code) (hs : Called h c (pad :: r14 :: r15 :: ret :: rest) u64Max s) :
    Returns h.env (emitAnswer h code guestPc) s fun addr s' => addr = ret ∧
      s'.regs.rax = u64Max ∧ s'.regs.r14 = r14 ∧ s'.regs.r15 = r15 ∧ s'.stack = rest ∧
        s'.mem = { c with pc := guestPc } := by
  refine .jcc hs.flags (by simp) (by simp [hcode]) ?_
  exact (emitFaultReturn_leaves guestPc s pad r14 r15 ret rest hs.inside hs.stack).append

theorem emitAnswer_next {s : State Cpu} {st : List U64} {P : State Cpu → Prop} (hv : v ≠ u64Max)
    (hs : Called h c st v s) (hcode : Reaches h.env code s P) :
    Reaches h.env (emitAnswer h code guestPc) s P := by
  refine .cons (t := s) ?_ ?_
  · rw [X86.step, hs.flags, X86.Cursor.ofOption, X86.holds_e_sub, if_neg (by simpa using hv)]
  · rw [List.append_assoc]
    refine hcode.append fun s' hP => ?_
    have hskip : .label .skipFault ∉ ((.label .fault :: emitFaultReturn h guestPc) : Code) := by
      simp [emitFaultReturn, restore]
    exact .jmp hskip (.nil hP)

/-- The outcome of a callout: its answer, if it is not the all-ones word. -/
def answered (guestPc : U64) (k : U64 → Cpu → Cpu) : Option (U64 × Cpu) → Outcome
  | none => .abort
  | some (v, c) => if v = u64Max then .fault { c with pc := guestPc } else .next (k v c)

/-- Code that makes a call, and the code for its result. -/
theorem emitAnswer_does {call : Code} {answer : Option (U64 × Cpu)} {k : U64 → Cpu → Cpu}
    (hlabel : .label .fault ∉ code)
    (hstuck : answer = none → ∀ s, Inside h c s → Sticks h.env call s)
    (hcall : ∀ v c', answer = some (v, c') → ∀ s, Inside h c s →
      Reaches h.env call s (Called h c' s.stack v))
    (hcode : ∀ v c' s, Inside h c' s → s.regs.rax = v →
      Reaches h.env code s fun s' => Inside h (k v c') s' ∧ s'.stack = s.stack) :
    Does h (call ++ emitAnswer h code guestPc) c (answered guestPc k answer) := by
  cases answer with
  | none => exact fun s hs => (hstuck rfl s hs).append
  | some p =>
      obtain ⟨v, c'⟩ := p
      rw [answered]
      split
      · rename_i hv
        subst hv
        intro s pad r14 r15 ret rest hs hstack
        refine (hcall _ _ rfl s hs).append_returns fun s' hs' => ?_
        exact emitAnswer_fault hlabel (hstack ▸ hs')
      · rename_i hv
        intro s hs
        refine (hcall _ _ rfl s hs).append fun s' hs' => emitAnswer_next hv hs' ?_
        exact (hcode v c' s' hs'.inside hs'.rax).mono fun s'' hs'' =>
          ⟨hs''.1, hs''.2.trans hs'.stack⟩

theorem emitLoad_does (hfit : Fits imm) :
    Does h (emitLoad h rd rs1 imm (h.loadHelper width) guestPc) c
      (answered guestPc (fun v c' => c'.setReg rd v) (c.jitLoad width (c.regs rs1 + imm))) := by
  rw [Fits, lo32] at hfit
  have hsplit : emitLoad h rd rs1 imm (h.loadHelper width) guestPc =
      ([.mov .qword .rsi (regMem rs1), .alu .add .qword .rsi (.imm (imm.setWidth 32)),
        .mov .qword .rdi (.reg .r14), .movAbs .rax (h.loadHelper width), .call .rax,
        .cmp .qword .rax (.imm (-1))] : Code) ++ emitAnswer h (writeBack rd) guestPc := by
    simp [emitLoad, emitAnswer]
  rw [hsplit]
  refine emitAnswer_does ?_ (fun hnone s hs => ?_) (fun v c' hsome s hs => ?_)
    fun v c' s hs hrax => ?_
  · rw [writeBack]
    split <;> simp
  · obtain ⟨h14, h15, hm⟩ := hs
    simp [Sticks, regMem, h14, h15, hm, hfit, X86.Alu.eval, call_load, hnone]
  · obtain ⟨h14, h15, hm⟩ := hs
    simp [Reaches, regMem, h14, h15, hm, hfit, X86.Alu.eval, call_load, hsome, inside_iff,
      called_iff, u64Max]
  · exact hrax ▸ writeBack_falls rd hs

/-- The sign of a loaded value is extended in its register. -/
theorem extendLoaded_falls (rd : Reg) (n : Nat) (v : U64) :
    Falls h (extendLoaded rd n) (c.setReg rd v) (c.setReg rd ((v.setWidth n).signExtend 64)) := by
  rw [extendLoaded, Cpu.setReg, Cpu.setReg]
  split
  · rintro s ⟨h14, h15, hm⟩
    simp [Reaches, regMem, h14, h15, hm, inside_iff]
  · exact .nil

/-- The code of a load. -/
theorem emitOpLoad_does {op : LoadOp} (hzero : c.regs 0 = 0) (hfit : Fits imm) :
    Does h (emitOpLoad h rd rs1 imm guestPc op) c
      (answered guestPc (fun v c' => c'.setReg rd (op.extend v))
        (c.jitLoad op.width (c.reg rs1 + imm))) := by
  rw [reg_of_zero hzero]
  -- the forms that extend a sign do so behind the code of the load
  have hextend : ∀ {width : Width} (n : Nat),
      Does h (emitLoad h rd rs1 imm (h.loadHelper width) guestPc ++ extendLoaded rd n) c
        (answered guestPc (fun v c' => c'.setReg rd ((v.setWidth n).signExtend 64))
          (c.jitLoad width (c.regs rs1 + imm))) := by
    intro width n
    have hload : Does h (emitLoad h rd rs1 imm (h.loadHelper width) guestPc) c _ :=
      emitLoad_does hfit
    cases hanswer : c.jitLoad width (c.regs rs1 + imm) with
    | none =>
        rw [hanswer] at hload
        exact fun s hs => Sticks.append (hload s hs)
    | some p =>
        obtain ⟨v, c'⟩ := p
        rw [hanswer, answered] at hload
        rw [answered]
        split
        · rename_i hv
          rw [if_pos hv] at hload
          exact Leaves.append hload
        · rename_i hv
          rw [if_neg hv] at hload
          exact Falls.append hload (extendLoaded_falls rd n v)
  cases op with
  | lb =>
      have hext : LoadOp.lb.extend = fun v => (v.setWidth 8).signExtend 64 :=
        funext fun v => sext_eq v (n := 8) (by decide) (by decide)
      exact hext ▸ hextend 8
  | lh =>
      have hext : LoadOp.lh.extend = fun v => (v.setWidth 16).signExtend 64 :=
        funext fun v => sext_eq v (n := 16) (by decide) (by decide)
      exact hext ▸ hextend 16
  | lw =>
      have hext : LoadOp.lw.extend = fun v => (v.setWidth 32).signExtend 64 :=
        funext fun v => sext_31 v
      exact hext ▸ hextend 32
  | ld => exact emitLoad_does hfit
  | lbu => exact emitLoad_does hfit
  | lhu => exact emitLoad_does hfit
  | lwu => exact emitLoad_does hfit

theorem emitStore_does (hfit : Fits imm) :
    Does h (emitStore h rs1 rs2 imm (h.storeHelper width) guestPc) c
      (answered guestPc (fun _ c' => c')
        (c.jitStore width (c.regs rs1 + imm) (c.regs rs2))) := by
  rw [Fits, lo32] at hfit
  have hsplit : emitStore h rs1 rs2 imm (h.storeHelper width) guestPc =
      ([.mov .qword .rsi (regMem rs1), .alu .add .qword .rsi (.imm (imm.setWidth 32)),
        .mov .qword .rdx (regMem rs2), .mov .qword .rdi (.reg .r14),
        .movAbs .rax (h.storeHelper width), .call .rax, .cmp .qword .rax (.imm (-1))] : Code) ++
          emitAnswer h [] guestPc := by
    simp [emitStore, emitAnswer]
  rw [hsplit]
  refine emitAnswer_does (by simp) (fun hnone s hs => ?_) (fun v c' hsome s hs => ?_)
    fun v c' s hs _ => .nil ⟨hs, rfl⟩
  · obtain ⟨h14, h15, hm⟩ := hs
    simp [Sticks, regMem, h14, h15, hm, hfit, X86.Alu.eval, call_store, hnone]
  · obtain ⟨h14, h15, hm⟩ := hs
    simp [Reaches, regMem, h14, h15, hm, hfit, X86.Alu.eval, call_store, hsome, inside_iff,
      called_iff, u64Max]

/-- The code of a store. -/
theorem emitOpStore_does {op : StoreOp} (hzero : c.regs 0 = 0) (hfit : Fits imm) :
    Does h (emitOpStore h rs1 rs2 imm guestPc op) c
      (answered guestPc (fun _ c' => c')
        (c.jitStore op.width (c.reg rs1 + imm) (c.reg rs2))) := by
  rw [reg_of_zero hzero, reg_of_zero hzero]
  cases op with
  | sb => exact emitStore_does hfit
  | sh => exact emitStore_does hfit
  | sw => exact emitStore_does hfit
  | sd => exact emitStore_does hfit

end RiscvEmu.Jit

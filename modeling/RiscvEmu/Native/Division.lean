import RiscvEmu.Native.Templates

/-!
# Division templates

A division jumps over two special cases, a zero divisor and the one quotient that overflows, and
in what is left the x86 instruction does not fault.  The 32-bit signed forms divide the operands
extended to 64 bits, and the 32-bit unsigned forms use the 32-bit instruction.
-/

namespace RiscvEmu.Jit

open X86 (Reaches State)

variable {h : Host} {c : Cpu} {st : List U64} {a b min : U64} {P : State Cpu → Prop}
  {z o f mid : Code} {s : State Cpu}

theorem i64Min_eq : i64Min = BitVec.intMin 64 := by decide

theorem i32Min_eq : i32Min = (BitVec.intMin 32).signExtend 64 := by decide

/-! ## Jumps over special cases -/

/-- The state with the flags of a comparison. -/
def flagged (s : State Cpu) (fl : X86.Flags) : State Cpu := { s with flags := some fl }

theorem onZero_reaches {sz : X86.Size} (hz : .label .notZero ∉ z) (hmid : .label .done ∉ mid)
    (hzero : s.reg sz .rcx = 0 → ∀ fl, Reaches h.env z (flagged s fl) P)
    (hne : s.reg sz .rcx ≠ 0 → ∀ fl, Reaches h.env (mid ++ [.label .done]) (flagged s fl) P) :
    Reaches h.env (onZero sz z ++ (mid ++ [.label .done])) s P := by
  have hsplit : onZero sz z ++ (mid ++ [.label .done]) = .test sz .rcx .rcx ::
      .jcc .ne .notZero :: ((z ++ [.jmp .done]) ++ .label .notZero :: (mid ++ [.label .done])) := by
    simp [onZero]
  rw [hsplit]
  refine .cons (t := flagged s (.logic (s.reg sz .rcx))) ?_
    (.jcc rfl (by simp [hz]) (fun ht => hne ?_ _) fun hf => ?_)
  · rw [X86.step, BitVec.and_self, flagged]
  · simpa using ht
  · rw [List.append_assoc]
    have h0 : s.reg sz .rcx = 0 := by simpa using hf
    exact (hzero h0 _).append fun s' hP =>
      .jmp (l := .label .notZero :: mid) (by simp [hmid]) (.nil hP)

theorem onOverflow_reaches (ho : .label .noOverflow ∉ o) (hmid : .label .done ∉ mid)
    (hover : s.regs.rax = min ∧ s.regs.rcx = -1 → ∀ fl,
      Reaches h.env o (flagged (s.put .rdx min s.flags) fl) P)
    (hne : ¬ (s.regs.rax = min ∧ s.regs.rcx = -1) → ∀ fl,
      Reaches h.env (mid ++ [.label .done]) (flagged (s.put .rdx min s.flags) fl) P) :
    Reaches h.env (onOverflow min o ++ (mid ++ [.label .done])) s P := by
  have hsplit : onOverflow min o ++ (mid ++ [.label .done]) = .movAbs .rdx min ::
      .cmp .qword .rax (.reg .rdx) :: .jcc .ne .noOverflow ::
        ((.cmp .qword .rcx (.imm (-1)) :: .jcc .ne .noOverflow :: (o ++ [.jmp .done]))
          ++ .label .noOverflow :: (mid ++ [.label .done])) := by
    simp [onOverflow]
  rw [hsplit]
  refine .cons rfl (.cons (t := flagged (s.put .rdx min s.flags) (.sub s.regs.rax min)) ?_
    (.jcc rfl (by simp [ho]) (fun ht => hne (fun hov => ?_) _) fun hf => ?_))
  · simp [flagged]
  · simp [hov.1] at ht
  · have hmin : s.regs.rax = min := by simpa using hf
    refine .cons (t := flagged (s.put .rdx min s.flags) (.sub s.regs.rcx (-1))) ?_
      (.jcc rfl (by simp [ho]) (fun ht => hne (fun hov => ?_) _) fun hf => ?_)
    · simp [flagged]
    · simp [hov.2] at ht
    · rw [List.append_assoc]
      have hneg : s.regs.rcx = -1 := by simpa using hf
      exact (hover ⟨hmin, hneg⟩ _).append fun s' hP =>
        .jmp (l := .label .noOverflow :: mid) (by simp [hmid]) (.nil hP)

/-! ## Division after the special cases -/

/-- The operands of a division are in their registers. -/
structure Operands (h : Host) (c : Cpu) (st : List U64) (a b : U64) (s : State Cpu) : Prop where
  inside : Inside h c s
  stack : s.stack = st
  rax : s.regs.rax = a
  rcx : s.regs.rcx = b

/-- The result of a template is in `rax`. -/
structure Result (h : Host) (c : Cpu) (st : List U64) (v : U64) (s : State Cpu) : Prop where
  inside : Inside h c s
  stack : s.stack = st
  rax : s.regs.rax = v

/-- Signed division, by the cases of the template. -/
theorem signed_reaches (hs : Operands h c st a b s)
    (hz : .label .notZero ∉ z) (hod : .label .done ∉ o) (hon : .label .noOverflow ∉ o)
    (hf : .label .done ∉ f)
    (hov : ¬ (a = min ∧ b = -1) → a ≠ BitVec.intMin 64 ∨ b ≠ -1#64)
    (hzero : b = 0 → ∀ s', Operands h c st a b s' → Reaches h.env z s' P)
    (hover : a = min ∧ b = -1 → ∀ s', Operands h c st a b s' → Reaches h.env o s' P)
    (hdiv : b ≠ 0 → ¬ (a = min ∧ b = -1) → ∀ s', Inside h c s' → s'.stack = st →
      s'.regs.rax = a.sdiv b → s'.regs.rdx = a.srem b → Reaches h.env f s' P) :
    Reaches h.env
      (onZero .qword z ++ (onOverflow min o ++ ([.cqo, .idiv .rcx] ++ f) ++ [.label .done]))
      s P := by
  obtain ⟨⟨h14, h15, hm⟩, hstack, hrax, hrcx⟩ := hs
  have hreg : s.reg .qword .rcx = b := by simp [hrcx]
  refine onZero_reaches hz (by simp [onOverflow, hod, hf]) (fun h0 fl => ?_) fun hne fl => ?_
  · exact hzero (hreg.symm.trans h0) _ ⟨⟨h14, h15, hm⟩, hstack, hrax, hrcx⟩
  · have hb : b ≠ 0 := fun h0 => hne (hreg.trans h0)
    rw [List.append_assoc]
    refine onOverflow_reaches hon (by simp [hf]) (fun hmin fl => ?_) fun hmin fl => ?_
    · exact hover (by rwa [← hrax, ← hrcx]) _ ⟨⟨h14, h15, hm⟩, hstack, hrax, hrcx⟩
    · have hmin' : ¬ (a = min ∧ b = -1) := by rwa [← hrax, ← hrcx]
      have hquot := X86.signedDivide_sign (w := 64) (by decide) hb (hov hmin')
      refine Reaches.append ?_ fun _ => Reaches.label
      refine .cons rfl (.cons (t := ((flagged (s.put .rdx min s.flags) fl).put .rax (a.sdiv b)
        none).put .rdx (a.srem b) none) ?_ (hdiv hb hmin' _ ⟨h14, h15, hm⟩ hstack rfl rfl))
      simp only [X86.step, flagged, X86.State.put, X86.Regs.set, X86.Regs.get, hrax, hrcx]
      rw [show (64 - 1 : Nat) = 63 from rfl] at hquot
      rw [hquot]
      rfl

/-- Unsigned division, by the cases of the template. -/
theorem unsigned_reaches {sz : X86.Size} (hs : Operands h c st a b s) (hz : .label .notZero ∉ z)
    (hf : .label .done ∉ f)
    (hzero : b.setWidth sz.bits = 0 → ∀ s', Operands h c st a b s' → Reaches h.env z s' P)
    (hdiv : b.setWidth sz.bits ≠ 0 → ∀ s', Inside h c s' → s'.stack = st →
      s'.regs.rax = (a.setWidth sz.bits / b.setWidth sz.bits).setWidth 64 →
      s'.regs.rdx = (a.setWidth sz.bits % b.setWidth sz.bits).setWidth 64 → Reaches h.env f s' P) :
    Reaches h.env
      (onZero sz z ++ (([.alu .xor sz .rdx (.reg .rdx), .div sz .rcx] ++ f) ++ [.label .done]))
      s P := by
  obtain ⟨⟨h14, h15, hm⟩, hstack, hrax, hrcx⟩ := hs
  have hreg : s.reg sz .rcx = b.setWidth sz.bits := by simp [hrcx]
  refine onZero_reaches hz (by simp [hf]) (fun h0 fl => ?_) fun hne fl => ?_
  · exact hzero (hreg.symm.trans h0) _ ⟨⟨h14, h15, hm⟩, hstack, hrax, hrcx⟩
  · have hb : b.setWidth sz.bits ≠ 0 := fun h0 => hne (hreg.trans h0)
    have hclear : (0 : U64).setWidth sz.bits = 0 := by cases sz <;> rfl
    have hquot := X86.unsignedDivide_zero (a := a.setWidth sz.bits) hb
    refine Reaches.append ?_ fun _ => Reaches.label
    refine .cons (t := flagged ((flagged s fl).put .rdx 0 none)
      (X86.Alu.flags .xor (s.reg sz .rdx) (s.reg sz .rdx))) ?_ (.cons ?_
        (hdiv hb (((flagged s fl).put .rax ((a.setWidth sz.bits / b.setWidth sz.bits).setWidth 64)
          none).put .rdx ((a.setWidth sz.bits % b.setWidth sz.bits).setWidth 64) none)
          ⟨h14, h15, hm⟩ hstack rfl rfl))
    · simp [flagged, X86.Alu.eval]
    · simp only [X86.step, flagged, X86.State.put, X86.State.reg, X86.Regs.set, X86.Regs.get, hrax,
        hrcx]
      rw [hclear, hquot]
      rfl

/-! ## Operands -/

section

variable {rd rs1 rs2 : Reg}

theorem load_operands (hs : Inside h c s) :
    Reaches h.env ([.mov .qword .rax (regMem rs1), .mov .qword .rcx (regMem rs2)] : Code) s
      (Operands h c s.stack (c.regs rs1) (c.regs rs2)) := by
  obtain ⟨h14, h15, hm⟩ := hs
  simp only [Reaches, regMem, X86.run_cons, X86.run_nil, X86.over_here, X86.step,
    X86.State.read_mem, X86.Regs.get, h15, hm, load_reg, X86.Cursor.ofOption, X86.Size.bits,
    Option.map_some, X86.State.put, X86.Regs.set, BitVec.setWidth_eq]
  exact ⟨⟨h14, rfl, rfl⟩, rfl, rfl, rfl⟩

theorem load_operands_signed (hs : Inside h c s) :
    Reaches h.env ([.movsx 32 .rax (regMem rs1), .movsx 32 .rcx (regMem rs2)] : Code) s
      (Operands h c s.stack ((lo32 (c.regs rs1)).signExtend 64)
        ((lo32 (c.regs rs2)).signExtend 64)) := by
  obtain ⟨h14, h15, hm⟩ := hs
  simp only [Reaches, regMem, X86.run_cons, X86.run_nil, X86.over_here, X86.step,
    X86.State.read_mem, X86.Regs.get, h15, hm, load_reg, X86.Cursor.ofOption,
    Option.map_some, X86.State.put, X86.Regs.set]
  exact ⟨⟨h14, rfl, rfl⟩, rfl, rfl, rfl⟩

theorem load_operands_unsigned (hs : Inside h c s) :
    Reaches h.env ([.mov .dword .rax (regMem rs1), .mov .dword .rcx (regMem rs2)] : Code) s
      (Operands h c s.stack ((lo32 (c.regs rs1)).setWidth 64)
        ((lo32 (c.regs rs2)).setWidth 64)) := by
  obtain ⟨h14, h15, hm⟩ := hs
  simp only [Reaches, regMem, X86.run_cons, X86.run_nil, X86.over_here, X86.step,
    X86.State.read_mem, X86.Regs.get, h15, hm, load_reg, X86.Cursor.ofOption,
    Option.map_some, X86.State.put, X86.Regs.set]
  exact ⟨⟨h14, rfl, rfl⟩, rfl, rfl, rfl⟩

/-- A division template, from its two halves. -/
theorem division_falls {load rest : Code} {v : U64}
    (hload : ∀ s, Inside h c s → Reaches h.env load s (Operands h c s.stack a b))
    (hrest : ∀ st s, Operands h c st a b s → Reaches h.env rest s (Result h c st v)) :
    Falls h (load ++ rest ++ writeBack rd) c (c.setReg rd v) := by
  refine writeBack_append fun s hs => (hload s hs).append fun s' hs' => ?_
  exact (hrest s.stack s' hs').mono fun s'' hs'' => ⟨hs''.inside, hs''.stack, hs''.rax⟩

/-! ## The 64-bit forms -/

theorem sdiv_zero {w : Nat} {a b : BitVec w} (hb : b = 0) : sdiv a b = -1 := if_pos hb

theorem srem_zero {w : Nat} {a b : BitVec w} (hb : b = 0) : srem a b = a := if_pos hb

theorem sdiv_overflow {w : Nat} {a b : BitVec w} (hb : b ≠ 0)
    (h : a = BitVec.intMin w ∧ b = -1) : sdiv a b = BitVec.intMin w := by
  rw [sdiv, if_neg hb, if_pos h]

theorem srem_overflow {w : Nat} {a b : BitVec w} (hb : b ≠ 0)
    (h : a = BitVec.intMin w ∧ b = -1) : srem a b = 0 := by
  rw [srem, if_neg hb, if_pos h]

theorem sdiv_eq {w : Nat} {a b : BitVec w} (hb : b ≠ 0)
    (h : ¬ (a = BitVec.intMin w ∧ b = -1)) : sdiv a b = a.sdiv b := by
  rw [sdiv, if_neg hb, if_neg h]

theorem srem_eq {w : Nat} {a b : BitVec w} (hb : b ≠ 0)
    (h : ¬ (a = BitVec.intMin w ∧ b = -1)) : srem a b = a.srem b := by
  rw [srem, if_neg hb, if_neg h]

theorem neg_one_ne_zero : (-1 : U64) ≠ 0 := by decide

theorem not_overflow {a b : U64} (h : ¬ (a = i64Min ∧ b = -1)) :
    a ≠ BitVec.intMin 64 ∨ b ≠ -1#64 := by
  rw [← i64Min_eq]
  exact Decidable.not_and_iff_not_or_not.mp h

theorem emitDiv_falls :
    Falls h (emitDiv rd rs1 rs2) c (c.setReg rd (sdiv (c.regs rs1) (c.regs rs2))) := by
  have hcode : emitDiv rd rs1 rs2 =
      [.mov .qword .rax (regMem rs1), .mov .qword .rcx (regMem rs2)]
      ++ (onZero .qword [.movAbs .rax u64Max]
        ++ (onOverflow i64Min [] ++ ([.cqo, .idiv .rcx] ++ []) ++ [.label .done]))
      ++ writeBack rd := by
    simp [emitDiv]
  rw [hcode]
  refine division_falls (fun s => load_operands) fun st s hs => ?_
  refine signed_reaches hs (by simp) (by simp) (by simp) (by simp) not_overflow
    (fun h0 s' hs' => ?_) (fun hov s' hs' => .nil ?_) fun h0 hov s' hin hst hq _ => .nil ?_
  · rw [sdiv_zero h0]
    exact .cons rfl (.nil ⟨⟨hs'.inside.r14, hs'.inside.r15, hs'.inside.mem⟩, hs'.stack, rfl⟩)
  · rw [sdiv_overflow (by rw [hov.2]; exact neg_one_ne_zero) (by rwa [← i64Min_eq]), ← i64Min_eq,
      ← hov.1]
    exact ⟨hs'.inside, hs'.stack, hs'.rax⟩
  · rw [sdiv_eq h0 (by rwa [← i64Min_eq])]
    exact ⟨hin, hst, hq⟩

theorem emitRem_falls :
    Falls h (emitRem rd rs1 rs2) c (c.setReg rd (srem (c.regs rs1) (c.regs rs2))) := by
  have hcode : emitRem rd rs1 rs2 =
      [.mov .qword .rax (regMem rs1), .mov .qword .rcx (regMem rs2)]
      ++ (onZero .qword []
        ++ (onOverflow i64Min [.alu .xor .dword .rax (.reg .rax)]
          ++ ([.cqo, .idiv .rcx] ++ [.mov .qword .rax (.reg .rdx)]) ++ [.label .done]))
      ++ writeBack rd := by
    simp [emitRem]
  rw [hcode]
  refine division_falls (fun s => load_operands) fun st s hs => ?_
  refine signed_reaches hs (by simp) (by simp) (by simp) (by simp) not_overflow
    (fun h0 s' hs' => .nil ?_) (fun hov s' hs' => ?_) fun h0 hov s' hin hst _ hr => ?_
  · rw [srem_zero h0]
    exact ⟨hs'.inside, hs'.stack, hs'.rax⟩
  · rw [srem_overflow (by rw [hov.2]; exact neg_one_ne_zero) (by rwa [← i64Min_eq])]
    exact .cons rfl (.nil ⟨⟨hs'.inside.r14, hs'.inside.r15, hs'.inside.mem⟩, hs'.stack,
      by simp [X86.Alu.eval]⟩)
  · rw [srem_eq h0 (by rwa [← i64Min_eq])]
    exact .cons rfl (.nil ⟨⟨hin.r14, hin.r15, hin.mem⟩, hst, by simp [hr]⟩)

theorem emitDivu_falls :
    Falls h (emitDivu rd rs1 rs2) c (c.setReg rd (udiv (c.regs rs1) (c.regs rs2))) := by
  have hcode : emitDivu rd rs1 rs2 =
      [.mov .qword .rax (regMem rs1), .mov .qword .rcx (regMem rs2)]
      ++ (onZero .qword [.movAbs .rax u64Max]
        ++ (([.alu .xor .qword .rdx (.reg .rdx), .div .qword .rcx] ++ []) ++ [.label .done]))
      ++ writeBack rd := by
    simp [emitDivu]
  rw [hcode]
  refine division_falls (fun s => load_operands) fun st s hs => ?_
  refine unsigned_reaches hs (by simp) (by simp) (fun h0 s' hs' => ?_)
    fun h0 s' hin hst hq _ => .nil ?_
  · rw [udiv, if_pos (by simpa using h0)]
    exact .cons rfl (.nil ⟨⟨hs'.inside.r14, hs'.inside.r15, hs'.inside.mem⟩, hs'.stack, rfl⟩)
  · rw [udiv, if_neg (by simpa using h0)]
    exact ⟨hin, hst, by simpa using hq⟩

theorem emitRemu_falls :
    Falls h (emitRemu rd rs1 rs2) c (c.setReg rd (urem (c.regs rs1) (c.regs rs2))) := by
  have hcode : emitRemu rd rs1 rs2 =
      [.mov .qword .rax (regMem rs1), .mov .qword .rcx (regMem rs2)]
      ++ (onZero .qword []
        ++ (([.alu .xor .qword .rdx (.reg .rdx), .div .qword .rcx]
          ++ [.mov .qword .rax (.reg .rdx)]) ++ [.label .done]))
      ++ writeBack rd := by
    simp [emitRemu]
  rw [hcode]
  refine division_falls (fun s => load_operands) fun st s hs => ?_
  refine unsigned_reaches hs (by simp) (by simp) (fun h0 s' hs' => .nil ?_)
    fun h0 s' hin hst _ hr => ?_
  · rw [urem, if_pos (by simpa using h0)]
    exact ⟨hs'.inside, hs'.stack, hs'.rax⟩
  · rw [urem, if_neg (by simpa using h0)]
    exact .cons rfl (.nil ⟨⟨hin.r14, hin.r15, hin.mem⟩, hst, by simp [hr]⟩)

/-! ## The 32-bit forms -/

theorem lo32_toInt (v : U64) : (lo32 v).toInt = v.toInt.bmod (2 ^ 32) := by
  rw [lo32, BitVec.toInt_setWidth, BitVec.toInt_eq_toNat_bmod,
    Int.bmod_bmod_of_dvd (by decide)]

theorem toInt_extend (x : U32) : (x.signExtend 64).toInt = x.toInt :=
  BitVec.toInt_signExtend_of_le (by decide)

/-- A 64-bit quotient of extended operands has the 32-bit quotient in its low half. -/
theorem lo32_sdiv (x y : U32) : lo32 ((x.signExtend 64).sdiv (y.signExtend 64)) = x.sdiv y := by
  apply BitVec.eq_of_toInt_eq
  rw [lo32_toInt, BitVec.toInt_sdiv, BitVec.toInt_sdiv, toInt_extend, toInt_extend,
    Int.bmod_bmod_of_dvd (by decide)]

theorem lo32_srem (x y : U32) : lo32 ((x.signExtend 64).srem (y.signExtend 64)) = x.srem y := by
  apply BitVec.eq_of_toInt_eq
  rw [lo32_toInt, BitVec.toInt_srem, toInt_extend, toInt_extend, ← BitVec.toInt_srem,
    BitVec.toInt_bmod_cancel]

theorem extend_inj {x y : U32} : x.signExtend 64 = y.signExtend 64 ↔ x = y := by
  refine ⟨fun heq => ?_, fun heq => by rw [heq]⟩
  rw [← lo32_signExtend x, heq, lo32_signExtend]

theorem extend_eq_zero {x : U32} : x.signExtend 64 = (0 : U64) ↔ x = 0 :=
  extend_inj (y := 0)

theorem u64Max_extend : u64Max = (-1 : U32).signExtend 64 := by decide

/-- The operands of the 32-bit quotient that overflows. -/
theorem overflow_iff {x y : U32} :
    (x.signExtend 64 = i32Min ∧ y.signExtend 64 = (-1 : U64)) ↔
      (x = BitVec.intMin 32 ∧ y = -1) := by
  have hmax : (-1 : U64) = (-1 : U32).signExtend 64 := u64Max_extend
  rw [i32Min_eq, extend_inj, hmax, extend_inj]

/-- No quotient of extended operands overflows in 64 bits. -/
theorem extend_ne_min (x : U32) : x.signExtend 64 ≠ BitVec.intMin 64 := by
  intro heq
  have hmin : lo32 (BitVec.intMin 64) = 0 := by decide
  have hx : x = 0 := by rw [← lo32_signExtend x, heq, hmin]
  rw [hx] at heq
  exact absurd heq (by decide)

theorem emitDivw_falls :
    Falls h (emitDivw rd rs1 rs2) c
      (c.setReg rd ((sdiv (lo32 (c.regs rs1)) (lo32 (c.regs rs2))).signExtend 64)) := by
  have hcode : emitDivw rd rs1 rs2 =
      [.movsx 32 .rax (regMem rs1), .movsx 32 .rcx (regMem rs2)]
      ++ (onZero .qword [.movAbs .rax u64Max]
        ++ (onOverflow i32Min [] ++ ([.cqo, .idiv .rcx] ++ [.movsx 32 .rax (.reg .rax)])
          ++ [.label .done]))
      ++ writeBack rd := by
    simp [emitDivw]
  rw [hcode]
  refine division_falls (fun s => load_operands_signed) fun st s hs => ?_
  refine signed_reaches hs (by simp) (by simp) (by simp) (by simp)
    (fun _ => Or.inl (extend_ne_min _)) (fun h0 s' hs' => ?_) (fun hov s' hs' => .nil ?_)
    fun h0 hov s' hin hst hq _ => ?_
  · rw [sdiv_zero (extend_eq_zero.mp h0)]
    exact .cons rfl (.nil ⟨⟨hs'.inside.r14, hs'.inside.r15, hs'.inside.mem⟩, hs'.stack,
      u64Max_extend⟩)
  · have hov' := overflow_iff.mp hov
    rw [sdiv_overflow (by rw [hov'.2]; decide) hov', ← i32Min_eq, ← hov.1]
    exact ⟨hs'.inside, hs'.stack, hs'.rax⟩
  · rw [sdiv_eq (fun heq => h0 (extend_eq_zero.mpr heq)) fun heq => hov (overflow_iff.mpr heq),
      ← lo32_sdiv, ← hq]
    exact .cons rfl (.nil ⟨⟨hin.r14, hin.r15, hin.mem⟩, hst, rfl⟩)

theorem emitRemw_falls :
    Falls h (emitRemw rd rs1 rs2) c
      (c.setReg rd ((srem (lo32 (c.regs rs1)) (lo32 (c.regs rs2))).signExtend 64)) := by
  have hcode : emitRemw rd rs1 rs2 =
      [.movsx 32 .rax (regMem rs1), .movsx 32 .rcx (regMem rs2)]
      ++ (onZero .qword [.movsx 32 .rax (.reg .rax)]
        ++ (onOverflow i32Min [.alu .xor .dword .rax (.reg .rax)]
          ++ ([.cqo, .idiv .rcx] ++ [.movsx 32 .rax (.reg .rdx)]) ++ [.label .done]))
      ++ writeBack rd := by
    simp [emitRemw]
  rw [hcode]
  refine division_falls (fun s => load_operands_signed) fun st s hs => ?_
  refine signed_reaches hs (by simp) (by simp) (by simp) (by simp)
    (fun _ => Or.inl (extend_ne_min _)) (fun h0 s' hs' => ?_) (fun hov s' hs' => ?_)
    fun h0 hov s' hin hst _ hr => ?_
  · rw [srem_zero (extend_eq_zero.mp h0)]
    refine .cons rfl (.nil ⟨⟨hs'.inside.r14, hs'.inside.r15, hs'.inside.mem⟩, hs'.stack, ?_⟩)
    change (lo32 s'.regs.rax).signExtend 64 = _
    rw [hs'.rax, lo32_signExtend]
  · have hov' := overflow_iff.mp hov
    rw [srem_overflow (by rw [hov'.2]; decide) hov']
    exact .cons rfl (.nil ⟨⟨hs'.inside.r14, hs'.inside.r15, hs'.inside.mem⟩, hs'.stack,
      by simp [X86.Alu.eval]⟩)
  · rw [srem_eq (fun heq => h0 (extend_eq_zero.mpr heq)) fun heq => hov (overflow_iff.mpr heq),
      ← lo32_srem, ← hr]
    exact .cons rfl (.nil ⟨⟨hin.r14, hin.r15, hin.mem⟩, hst, rfl⟩)

theorem emitDivuw_falls :
    Falls h (emitDivuw rd rs1 rs2) c
      (c.setReg rd ((udiv (lo32 (c.regs rs1)) (lo32 (c.regs rs2))).signExtend 64)) := by
  have hcode : emitDivuw rd rs1 rs2 =
      [.mov .dword .rax (regMem rs1), .mov .dword .rcx (regMem rs2)]
      ++ (onZero .dword [.movAbs .rax u64Max]
        ++ (([.alu .xor .dword .rdx (.reg .rdx), .div .dword .rcx]
          ++ [.movsx 32 .rax (.reg .rax)]) ++ [.label .done]))
      ++ writeBack rd := by
    simp [emitDivuw]
  rw [hcode]
  refine division_falls (fun s => load_operands_unsigned) fun st s hs => ?_
  refine unsigned_reaches hs (by simp) (by simp) (fun h0 s' hs' => ?_)
    fun h0 s' hin hst hq _ => ?_
  · rw [udiv, if_pos (by simpa using h0)]
    exact .cons rfl (.nil ⟨⟨hs'.inside.r14, hs'.inside.r15, hs'.inside.mem⟩, hs'.stack,
      u64Max_extend⟩)
  · rw [udiv, if_neg (by simpa using h0)]
    exact .cons rfl (.nil ⟨⟨hin.r14, hin.r15, hin.mem⟩, hst, by simp [hq]⟩)

theorem emitRemuw_falls :
    Falls h (emitRemuw rd rs1 rs2) c
      (c.setReg rd ((urem (lo32 (c.regs rs1)) (lo32 (c.regs rs2))).signExtend 64)) := by
  have hcode : emitRemuw rd rs1 rs2 =
      [.mov .dword .rax (regMem rs1), .mov .dword .rcx (regMem rs2)]
      ++ (onZero .dword [.movsx 32 .rax (.reg .rax)]
        ++ (([.alu .xor .dword .rdx (.reg .rdx), .div .dword .rcx]
          ++ [.movsx 32 .rax (.reg .rdx)]) ++ [.label .done]))
      ++ writeBack rd := by
    simp [emitRemuw]
  rw [hcode]
  refine division_falls (fun s => load_operands_unsigned) fun st s hs => ?_
  refine unsigned_reaches hs (by simp) (by simp) (fun h0 s' hs' => ?_)
    fun h0 s' hin hst _ hr => ?_
  · rw [urem, if_pos (by simpa using h0)]
    exact .cons rfl (.nil ⟨⟨hs'.inside.r14, hs'.inside.r15, hs'.inside.mem⟩, hs'.stack,
      by simp [hs'.rax]⟩)
  · rw [urem, if_neg (by simpa using h0)]
    exact .cons rfl (.nil ⟨⟨hin.r14, hin.r15, hin.mem⟩, hst, by simp [hr]⟩)

end

end RiscvEmu.Jit

import RiscvEmu.Execution.Accesses
import RiscvEmu.Execution.Extension
import Mathlib.Algebra.Order.Ring.Int

/-!
# Atomic memory operations

The eighteen read-modify-write instructions are nine operations at two widths.  The interpreter
computes the 32-bit ones on sign-extended registers, and what it stores is nevertheless the
operation on the 32-bit operands (`eval_low`).

*Rejected accesses.*  A load-reserved reports an access the bus rejects.  The other two kinds do
not: a store-conditional counts the rejected store as done, and a read-modify-write reads zero
and drops the store.
-/

namespace RiscvEmu

/-! ## The operations on words -/

/-- The operand width in bits. -/
def AmoWidth.bits : AmoWidth → Nat
  | w => 32
  | d => 64

/-- What an atomic stores, by the word in memory and the operand. -/
def AmoOp.onWords {n : Nat} : AmoOp → BitVec n → BitVec n → BitVec n
  | amoswap, _, b => b
  | amoadd, a, b => a + b
  | amoxor, a, b => a ^^^ b
  | amoand, a, b => a &&& b
  | amoor, a, b => a ||| b
  | amomin, a, b => if a.toInt ≤ b.toInt then a else b
  | amomax, a, b => if b.toInt ≤ a.toInt then a else b
  | amominu, a, b => if a.toNat ≤ b.toNat then a else b
  | amomaxu, a, b => if b.toNat ≤ a.toNat then a else b

namespace AmoWidth

theorem bits_eq (width : AmoWidth) : width.bits = 8 * width.width.bytes := by cases width <;> rfl

theorem extend_eq (width : AmoWidth) (v : U64) :
    width.extend v = (v.setWidth width.bits).signExtend 64 := by
  cases width with
  | w => exact sext_31 v
  | d => simp [extend, bits]

end AmoWidth

section Choices

variable {α β : Type} [LinearOrder β] {f : α → β} (hf : Function.Injective f) (a b : α)

include hf in
/-- A strict comparison chooses the same as the other one, since equal keys are no choice. -/
theorem choose_lt : (if f a < f b then a else b) = if f a ≤ f b then a else b := by
  rcases lt_trichotomy (f a) (f b) with hlt | heq | hgt
  · rw [if_pos hlt, if_pos hlt.le]
  · rw [if_neg heq.not_lt, if_pos heq.le, hf heq]
  · rw [if_neg hgt.not_gt, if_neg hgt.not_ge]

include hf in
theorem choose_gt : (if f b < f a then a else b) = if f b ≤ f a then a else b := by
  rcases lt_trichotomy (f b) (f a) with hlt | heq | hgt
  · rw [if_pos hlt, if_pos hlt.le]
  · rw [if_neg heq.not_lt, if_pos heq.le, hf heq]
  · rw [if_neg hgt.not_gt, if_neg hgt.not_ge]

end Choices

theorem toInt_injective (n : Nat) : Function.Injective (BitVec.toInt : BitVec n → Int) :=
  fun _ _ => BitVec.eq_of_toInt_eq

theorem toNat_injective (n : Nat) : Function.Injective (BitVec.toNat : BitVec n → Nat) :=
  fun _ _ => BitVec.eq_of_toNat_eq

/-- The 64-bit forms compute on the registers as they are. -/
theorem AmoOp.eval_d (op : AmoOp) (a b : U64) : op.eval .d a b = op.onWords a b := by
  cases op with
  | amomin =>
      rw [eval, BitVec.slt_eq_decide]
      simp only [decide_eq_true_eq]
      exact choose_lt (toInt_injective 64) a b
  | amomax =>
      rw [eval, BitVec.slt_eq_decide]
      simp only [decide_eq_true_eq]
      exact choose_gt (toInt_injective 64) a b
  | amomaxu => exact choose_gt (toNat_injective 64) a b
  | _ => rfl

/-- The 32-bit forms compute on the low halves, whatever the upper halves hold. -/
theorem AmoOp.eval_w (op : AmoOp) (a b : U64) :
    lo32 (op.eval .w a b) = op.onWords (lo32 a) (lo32 b) := by
  cases op with
  | amoswap => rfl
  | amoadd => exact lo32_add a b
  | amoxor => exact BitVec.setWidth_xor
  | amoand => exact BitVec.setWidth_and
  | amoor => exact BitVec.setWidth_or
  | amomin =>
      rw [eval, apply_ite lo32, sext_31, lo32_signExtend, BitVec.slt_eq_decide]
      simp only [decide_eq_true_eq]
      exact choose_lt (toInt_injective 32) _ _
  | amomax =>
      rw [eval, apply_ite lo32, sext_31, lo32_signExtend, BitVec.slt_eq_decide]
      simp only [decide_eq_true_eq]
      exact choose_gt (toInt_injective 32) _ _
  | amominu =>
      rw [eval, apply_ite lo32, lo32_setWidth, BitVec.ult]
      simp only [decide_eq_true_eq]
      exact choose_lt (toNat_injective 32) _ _
  | amomaxu =>
      rw [eval, apply_ite lo32, lo32_setWidth, BitVec.ult]
      simp only [decide_eq_true_eq]
      exact choose_gt (toNat_injective 32) _ _

/-- The stored value is the operation on the words, at either width. -/
theorem AmoOp.eval_low (op : AmoOp) (width : AmoWidth) (v b : U64) :
    (op.eval width (width.extend v) b).setWidth width.bits =
      op.onWords (v.setWidth width.bits) (b.setWidth width.bits) := by
  cases width with
  | d =>
      rw [AmoWidth.extend, op.eval_d]
      exact BitVec.setWidth_eq _
  | w =>
      have hv : lo32 (AmoWidth.w.extend v) = lo32 v := by
        rw [AmoWidth.extend, sext_31, lo32_signExtend]
      exact (op.eval_w (AmoWidth.w.extend v) b).trans (by rw [hv]; rfl)

namespace Cpu

variable {fpu : Fpu} {c c₁ : Cpu} {op : AmoOp} {width : AmoWidth} {rd rs1 rs2 : Reg} {pa : U64}
  {off : Nat}

/-! ## Read-modify-write on RAM -/

/-- The word in RAM at an offset. -/
def ramWord (c : Cpu) (width : AmoWidth) (off : Nat) : BitVec width.bits :=
  (Bytes.readLe c.bus.ram.byte off width.width.bytes).setWidth width.bits

/-- The operand of an atomic at its width. -/
def operand (c : Cpu) (width : AmoWidth) (rs2 : Reg) : BitVec width.bits :=
  (c.reg rs2).setWidth width.bits

/-- What an atomic on RAM does.  `c` is the hart before the instruction, `c₁` the hart its
translation leaves, and `r` the hart after it. -/
structure AmoPerformed (op : AmoOp) (width : AmoWidth) (rd rs2 : Reg) (off : Nat) (c c₁ : Cpu)
    (r : Retired) : Prop where
  no_trap : r.trap = none
  stored : r.cpu.ramWord width off = op.onWords (c₁.ramWord width off) (c.operand width rs2)
  outside : ∀ a, a < off ∨ off + width.width.bytes ≤ a →
    r.cpu.bus.ram.byte a = c₁.bus.ram.byte a
  result : r.cpu.reg rd = if rd = 0 then 0 else (c₁.ramWord width off).signExtend 64
  other_regs : ∀ x, x ≠ rd → r.cpu.reg x = c.reg x
  pc : r.cpu.pc = c.pc + c.instSize
  bus : { r.cpu.bus with ram := c₁.bus.ram } = c₁.bus
  ram_len : r.cpu.bus.ram.len = c₁.bus.ram.len
  rest : { r.cpu with regs := c.regs, pc := c.pc, bus := c₁.bus } = c₁

/-- The hart after a store to RAM. -/
def setRam (c : Cpu) (off n : Nat) (v : U64) : Cpu := { c with bus := c.bus.setBytes off n v }

theorem busLoad_ram {trap : Trap} (hr : region pa = .ram)
    (ho : c.bus.offset pa width.width = .ok off) :
    busLoad pa width.width trap c =
      some (.ok (Bytes.readLe c.bus.ram.byte off width.width.bytes), c) := by
  rw [busLoad, Run.zoom, Bus.load_ram hr ho]
  rfl

theorem busStore_ram {trap : Trap} {v : U64} (hr : region pa = .ram)
    (ho : c.bus.offset pa width.width = .ok off) :
    busStore pa width.width v trap c =
      some (.ok (), c.setRam off width.width.bytes v) := by
  rw [busStore, Run.zoom, Bus.store_ram v hr ho]
  rfl

/-- An atomic whose access is in RAM, as one update of the hart its translation left. -/
theorem execAmo_ram (ht : translateOrTrap c.lsMode (c.reg rs1) .store c = some (.ok pa, c₁))
    (hr : region pa = .ram) (ho : c₁.bus.offset pa width.width = .ok off) :
    c.execAmo op width rd rs1 rs2 =
      some (((c₁.setRam off width.width.bytes
        ((op.onWords (c₁.ramWord width off) (c.operand width rs2)).setWidth 64)).setReg rd
          ((c₁.ramWord width off).signExtend 64)).retire c.nextPc) := by
  have hregs : c₁.reg rs2 = c.reg rs2 := by
    rw [reg, reg, (translateOrTrap_keepsHart _ _ _ c _ c₁ ht).regs]
  have hstored (v : U64) : c₁.setRam off width.width.bytes (op.eval width (width.extend v)
      (c.reg rs2)) = c₁.setRam off width.width.bytes
        ((op.onWords (v.setWidth width.bits) (c.operand width rs2)).setWidth 64) := by
    rw [operand, ← op.eval_low width v (c.reg rs2), setRam, setRam, Bus.setBytes, Bus.setBytes,
      Bytes.writeLe_low _ _ _ width.bits_eq]
  simp only [execAmo, orRaise, ht, busLoad_ram hr ho, busStore_ram hr ho, hregs, hstored]
  rw [AmoWidth.extend_eq]
  rfl

/-- An atomic whose access is in RAM completes, and does what it should. -/
theorem execute_amo_ram (ht : translateOrTrap c.lsMode (c.reg rs1) .store c = some (.ok pa, c₁))
    (hr : region pa = .ram) (ho : c₁.bus.offset pa width.width = .ok off) :
    ∃ r, execute fpu (.amo op width rd rs1 rs2) c = some r ∧
      AmoPerformed op width rd rs2 off c c₁ r := by
  have hkeep := translateOrTrap_keepsHart _ _ _ c _ c₁ ht
  refine ⟨_, execAmo_ram ht hr ho, ?_⟩
  generalize hnew : op.onWords (c₁.ramWord width off) (c.operand width rs2) = new
  generalize hold : (c₁.ramWord width off).signExtend 64 = old
  have hbus : (((c₁.setRam off width.width.bytes (new.setWidth 64)).setReg rd old).retire
      c.nextPc).cpu.bus = c₁.bus.setBytes off width.width.bytes (new.setWidth 64) :=
    setReg_bus _ rd old
  constructor
  · rfl
  · rw [ramWord, hbus, hnew]
    exact Bytes.readLe_writeLe_setWidth _ off new width.width.bytes_le width.bits_eq
  · intro a ha
    rw [hbus]
    exact Bytes.writeLe_outside _ _ ha
  · rw [hold]
    exact reg_setReg _ rd old
  · intro x hx
    exact (reg_setReg_ne _ hx old).trans (by rw [setRam, reg, reg, hkeep.regs])
  · rfl
  · rw [hbus]
    rfl
  · rw [hbus]
    rfl
  · rw [retire, setReg, ← hkeep.regs, ← hkeep.pc]
    by_cases hrd : rd ≠ 0
    · rw [if_pos hrd]
      rfl
    · rw [if_neg hrd]
      rfl

/-! ## Rejected accesses -/

/-- The bus rejects an access of the given width. -/
def BusRejects (b : Bus) (pa : U64) (width : Width) : Prop :=
  region pa = .ram ∧ ∃ e, b.offset pa width = .error e

theorem busLoad_rejected {w : Width} (h : BusRejects c.bus pa w) (t : Trap) :
    busLoad pa w t c = some (.error t, c) := by
  obtain ⟨hr, e, he⟩ := h
  rw [busLoad, Run.zoom, Bus.load_ram_error hr he]
  rfl

theorem busStore_rejected {w : Width} (h : BusRejects c.bus pa w) (v : U64) (t : Trap) :
    busStore pa w v t c = some (.error t, c) := by
  obtain ⟨hr, e, he⟩ := h
  rw [busStore, Run.zoom, Bus.store_ram_error v hr he]
  rfl

section Rejected

variable (fpu) (op) (rd)

theorem execute_lr_rejected (ht : translateOrTrap c.lsMode (c.reg rs1) .load c = some (.ok pa, c₁))
    (hrej : BusRejects c₁.bus pa width.width) :
    execute fpu (.lr width rd rs1) c = some (c₁.raise ⟨5, c.reg rs1⟩) := by
  simp only [execute, execLr, orRaise, ht, busLoad_rejected hrej]

/-- A store-conditional with the reservation counts the rejected store as done. -/
theorem execute_sc_rejected (rs2 : Reg)
    (ht : translateOrTrap c.lsMode (c.reg rs1) .store c = some (.ok pa, c₁))
    (hrej : BusRejects c₁.bus pa width.width) (hres : c.reservation = some pa) :
    execute fpu (.sc width rd rs1 rs2) c =
      some ({ c₁.setReg rd 0 with reservation := none }.retire c.nextPc) := by
  have hres' : c₁.reservation = some pa :=
    (translateOrTrap_keepsHart _ _ _ c _ c₁ ht).reservation.trans hres
  simp only [execute, execSc, orRaise, ht, if_pos hres', busStore_rejected hrej]

/-- A read-modify-write reads zero and drops its store. -/
theorem execute_amo_rejected (rs2 : Reg)
    (ht : translateOrTrap c.lsMode (c.reg rs1) .store c = some (.ok pa, c₁))
    (hrej : BusRejects c₁.bus pa width.width) :
    execute fpu (.amo op width rd rs1 rs2) c =
      some ((c₁.setReg rd (width.extend 0)).retire c.nextPc) := by
  simp only [execute, execAmo, orRaise, ht, busLoad_rejected hrej, busStore_rejected hrej]

end Rejected

/-- The address register, the access type and the width of an atomic. -/
def atomicAccess : Instruction → Option (Reg × AccessType × AmoWidth)
  | .lr width _ rs1 => some (rs1, .load, width)
  | .sc width _ rs1 _ => some (rs1, .store, width)
  | .amo _ width _ rs1 _ => some (rs1, .store, width)
  | _ => none

/-- The atomic reports that the bus rejects its access at `pa`: it delivers the access fault of
its kind for its address, in the hart its translation left.  Only a store-conditional without
the reservation makes no access. -/
def ReportsRejection (fpu : Fpu) (inst : Instruction) (pa : U64) (c c₁ : Cpu) : Prop :=
  match inst with
  | .lr _ _ rs1 => execute fpu inst c = some (c₁.raise ⟨5, c.reg rs1⟩)
  | .sc _ _ rs1 _ =>
      c.reservation = some pa → execute fpu inst c = some (c₁.raise ⟨7, c.reg rs1⟩)
  | .amo _ _ _ rs1 _ => execute fpu inst c = some (c₁.raise ⟨7, c.reg rs1⟩)
  | _ => True

/-- The atomics that do: load-reserved, and store-conditional without the reservation. -/
def Reported (c : Cpu) (pa : U64) : Instruction → Prop
  | .lr _ _ _ => True
  | .sc _ _ _ _ => c.reservation ≠ some pa
  | _ => False

/-- An atomic reports a rejected access exactly when it is a load-reserved, or a
store-conditional that makes no access.  A report leaves the registers and the memory alone. -/
theorem reportsRejection_iff (fpu : Fpu) (inst : Instruction) (c c₁ : Cpu) (pa : U64)
    (rs1 : Reg) (access : AccessType) (width : AmoWidth)
    (hinst : atomicAccess inst = some (rs1, access, width))
    (ht : translateOrTrap c.lsMode (c.reg rs1) access c = some (.ok pa, c₁))
    (hrej : BusRejects c₁.bus pa width.width) :
    (ReportsRejection fpu inst pa c c₁ ↔ Reported c pa inst) ∧
      ∀ t : Trap, (c₁.raise t).cpu.regs = c.regs ∧ (c₁.raise t).cpu.bus = c₁.bus := by
  have hkeep := translateOrTrap_keepsHart _ _ _ c _ c₁ ht
  have hframe (t : Trap) : (c₁.raise t).cpu.regs = c.regs ∧ (c₁.raise t).cpu.bus = c₁.bus :=
    ⟨(deliverTrap_regs c₁ t.cause t.tval).1.trans hkeep.regs, raise_bus t⟩
  -- a retired instruction is no raised one
  have hretired {c' c'' : Cpu} {next : U64} {t : Trap} :
      some (c'.retire next) ≠ some (c''.raise t) := by
    intro h
    cases congrArg Retired.trap (Option.some.inj h)
  refine ⟨?_, hframe⟩
  cases inst with
  | lr width' rd r1 =>
      cases hinst
      exact iff_of_true (execute_lr_rejected fpu rd ht hrej) trivial
  | sc width' rd r1 rs2 =>
      cases hinst
      constructor
      · intro h hres
        exact hretired ((execute_sc_rejected fpu rd rs2 ht hrej hres).symm.trans (h hres))
      · intro hne hres
        exact absurd hres hne
  | amo op width' rd r1 rs2 =>
      cases hinst
      rw [ReportsRejection, execute_amo_rejected fpu op rd rs2 ht hrej]
      exact iff_of_false hretired id
  | _ => cases hinst

/-! ## Concrete harts -/

/-- A hart in M-mode with 64 bytes of RAM from `0x80000000`, and an address in register 1. -/
def smallHart (va : U64) (reservation : Option U64) : Cpu :=
  { (Cpu.new (Bus.new 64 0x8000_0000) 0x8000_0000).setReg 1 va with reservation }

theorem smallHart_translate (va : U64) (reservation : Option U64) (access : AccessType) :
    translateOrTrap (smallHart va reservation).lsMode ((smallHart va reservation).reg 1) access
      (smallHart va reservation) = some (.ok va, smallHart va reservation) := by
  have hlevels : Mmu.levels (smallHart va reservation).csr.satp = none :=
    show Mmu.levels 0 = none by decide
  apply translateOrTrap_ok
  rw [translate, Run.zoom, Mmu.translate_bare (Or.inl hlevels)]
  rfl

/-- `AMOADD.W` on the first word of RAM, with one register for the address, the operand and the
result. -/
theorem smallHart_amoadd :
    ∃ r, execute default (.amo .amoadd .w 1 1 1) (smallHart 0x8000_0000 none) = some r ∧
      AmoPerformed .amoadd .w 1 1 0 (smallHart 0x8000_0000 none)
        (smallHart 0x8000_0000 none) r :=
  execute_amo_ram (smallHart_translate _ none .store) (by decide) rfl

theorem smallHart_rejects : BusRejects (smallHart 0x8000_003C none).bus 0x8000_003C .b8 :=
  ⟨by decide, ⟨0x8000_003C, .b8⟩, rfl⟩

/-- `LR.D` at the last word of RAM. -/
theorem smallHart_lr :
    (ReportsRejection default (.lr .d 2 1) 0x8000_003C (smallHart 0x8000_003C none)
        (smallHart 0x8000_003C none) ↔
      Reported (smallHart 0x8000_003C none) 0x8000_003C (.lr .d 2 1)) ∧
    ∀ t : Trap,
      ((smallHart 0x8000_003C none).raise t).cpu.regs = (smallHart 0x8000_003C none).regs ∧
      ((smallHart 0x8000_003C none).raise t).cpu.bus = (smallHart 0x8000_003C none).bus :=
  reportsRejection_iff default (.lr .d 2 1) (smallHart 0x8000_003C none)
    (smallHart 0x8000_003C none) 0x8000_003C 1 .load .d rfl (smallHart_translate _ none .load)
    smallHart_rejects

/-- `SC.D` after an `LR.W` of the last word of RAM writes 0 for a store the bus rejected. -/
theorem sc_hides_rejection :
    ¬ ∀ (fpu : Fpu) (inst : Instruction) (c c₁ : Cpu) (pa : U64) (rs1 : Reg)
      (access : AccessType) (width : AmoWidth), atomicAccess inst = some (rs1, access, width) →
      translateOrTrap c.lsMode (c.reg rs1) access c = some (.ok pa, c₁) →
      BusRejects c₁.bus pa width.width → ReportsRejection fpu inst pa c c₁ := by
  intro h
  have hlaw := h default (.sc .d 2 1 3) (smallHart 0x8000_003C (some 0x8000_003C))
    (smallHart 0x8000_003C (some 0x8000_003C)) 0x8000_003C 1 .store .d rfl
    (smallHart_translate _ _ .store) smallHart_rejects rfl
  cases congrArg (Option.map Retired.trap) hlaw

end Cpu

end RiscvEmu

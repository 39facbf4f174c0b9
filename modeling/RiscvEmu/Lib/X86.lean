import Mathlib.Algebra.Group.Int.Defs
import Mathlib.Algebra.Group.Nat.Defs
import Mathlib.Tactic.Common

/-!
# Straight-line x86-64 code

A fragment of the 64-bit instruction set whose jumps all go forward.  Such code runs in one pass
over its instructions: a cursor that has jumped skips what it meets until it reaches its label,
which is the next one of that name (`Cursor.over`).  Code is therefore run by a fold, and the run
of a concatenation is the composition of the runs (`run_append`).

Memory is a parameter.  An `Env` says what the words of a memory are, and what a call does to it
and to its result.  A call leaves arbitrary values in the registers a caller has to save.

*Undefined behaviour.*  Flags that an instruction leaves undefined, or that the fragment has no
use for, are absent afterwards, and a condition that would read them is stuck.  So is a divide
error, a word that is not in memory, and a pop from an empty stack.
-/

namespace X86

/-! ## Instructions -/

/-- The registers of the fragment. -/
inductive Reg where
  | rax | rcx | rdx | rsi | rdi | r14 | r15
  deriving DecidableEq, Repr

/-- Operand sizes. -/
inductive Size where
  | dword
  | qword
  deriving DecidableEq, Repr

@[reducible, simp] def Size.bits : Size → Nat
  | dword => 32
  | qword => 64

/-- Source operands.  Immediates and displacements are sign-extended. -/
inductive Operand where
  | reg (r : Reg)
  | mem (base : Reg) (disp : BitVec 32)
  | imm (v : BitVec 32)
  deriving DecidableEq, Repr

/-- Two-operand arithmetic. -/
inductive Alu where
  | add | sub | and | or | xor
  deriving DecidableEq, Repr

inductive Shift where
  | shl | shr | sar
  deriving DecidableEq, Repr

/-- Shift counts: the low byte of `rcx`, or an immediate. -/
inductive Count where
  | cl
  | imm (v : BitVec 8)
  deriving DecidableEq, Repr

/-- Condition codes. -/
inductive Cond where
  | e | ne | l | ge | b | ae
  deriving DecidableEq, Repr

/-- Instructions, with labels from a type of names.  `movsx` sign-extends the low bits of its
source, and `subRsp` and `addRsp` move the stack by one word. -/
inductive Instr (L : Type) where
  | mov (sz : Size) (dst : Reg) (src : Operand)
  | movAbs (dst : Reg) (v : BitVec 64)
  | store (base : Reg) (disp : BitVec 32) (src : Reg)
  | movsx (n : Nat) (dst : Reg) (src : Operand)
  | movzx8 (dst src : Reg)
  | alu (op : Alu) (sz : Size) (dst : Reg) (src : Operand)
  | cmp (sz : Size) (dst : Reg) (src : Operand)
  | test (sz : Size) (dst src : Reg)
  | imul (sz : Size) (dst : Reg) (src : Operand)
  | imulWide (src : Reg)
  | mulWide (src : Reg)
  | cqo
  | idiv (src : Reg)
  | div (sz : Size) (src : Reg)
  | shift (op : Shift) (sz : Size) (dst : Reg) (count : Count)
  | setcc (cond : Cond) (dst : Reg)
  | jcc (cond : Cond) (target : L)
  | jmp (target : L)
  | label (name : L)
  | call (target : Reg)
  | push (src : Reg)
  | pop (dst : Reg)
  | subRsp
  | addRsp
  | ret

/-! ## States -/

/-- The values of the registers. -/
structure Regs where
  rax : BitVec 64
  rcx : BitVec 64
  rdx : BitVec 64
  rsi : BitVec 64
  rdi : BitVec 64
  r14 : BitVec 64
  r15 : BitVec 64

namespace Regs

@[simp] def get (g : Regs) : Reg → BitVec 64
  | .rax => g.rax
  | .rcx => g.rcx
  | .rdx => g.rdx
  | .rsi => g.rsi
  | .rdi => g.rdi
  | .r14 => g.r14
  | .r15 => g.r15

@[simp] def set (g : Regs) (r : Reg) (v : BitVec 64) : Regs :=
  match r with
  | .rax => { g with rax := v }
  | .rcx => { g with rcx := v }
  | .rdx => { g with rdx := v }
  | .rsi => { g with rsi := v }
  | .rdi => { g with rdi := v }
  | .r14 => { g with r14 := v }
  | .r15 => { g with r15 := v }

end Regs

/-- The arithmetic flags. -/
structure Flags where
  cf : Bool
  zf : Bool
  sf : Bool
  of : Bool

/-- A state of the machine.  The stack is the list of the words pushed. -/
structure State (M : Type) where
  regs : Regs
  flags : Option Flags
  stack : List (BitVec 64)
  mem : M

/-- What the fragment leaves open: the words of a memory, the functions that can be called, and
the values of the words nobody wrote. -/
structure Env (M : Type) where
  load : BitVec 64 → M → Option (BitVec 64)
  store : BitVec 64 → BitVec 64 → M → Option M
  /-- A call of a function, with its first three arguments, and its result. -/
  call : BitVec 64 → BitVec 64 → BitVec 64 → BitVec 64 → M → Option (BitVec 64 × M)
  /-- What a call leaves in the registers its caller has to save. -/
  scratch : Reg → BitVec 64
  /-- The word a lowered stack pointer uncovers. -/
  fresh : BitVec 64

/-! ## Flags -/

namespace Flags

/-- The flags of a comparison. -/
def sub {w : Nat} (a b : BitVec w) : Flags where
  cf := a.ult b
  zf := decide (a = b)
  sf := (a - b).msb
  of := (a.msb != b.msb) && (a.msb != (a - b).msb)

/-- The flags of a sum. -/
def add {w : Nat} (a b : BitVec w) : Flags where
  cf := (a + b).ult a
  zf := decide (a + b = 0)
  sf := (a + b).msb
  of := (a.msb == b.msb) && (a.msb != (a + b).msb)

/-- The flags of a bitwise result. -/
def logic {w : Nat} (v : BitVec w) : Flags where
  cf := false
  zf := decide (v = 0)
  sf := v.msb
  of := false

end Flags

/-- Whether a condition holds under the flags. -/
def Cond.holds : Cond → Flags → Bool
  | e, f => f.zf
  | ne, f => !f.zf
  | l, f => f.sf != f.of
  | ge, f => f.sf == f.of
  | b, f => f.cf
  | ae, f => !f.cf

/-! ## Operations -/

namespace Alu

def eval {w : Nat} : Alu → BitVec w → BitVec w → BitVec w
  | add, a, b => a + b
  | sub, a, b => a - b
  | and, a, b => a &&& b
  | or, a, b => a ||| b
  | xor, a, b => a ^^^ b

def flags {w : Nat} : Alu → BitVec w → BitVec w → Flags
  | add, a, b => .add a b
  | sub, a, b => .sub a b
  | and, a, b => .logic (a &&& b)
  | or, a, b => .logic (a ||| b)
  | xor, a, b => .logic (a ^^^ b)

end Alu

def Shift.eval {w : Nat} : Shift → BitVec w → Nat → BitVec w
  | shl, a, n => a <<< n
  | shr, a, n => a >>> n
  | sar, a, n => a.sshiftRight n

/-- The count of a shift, reduced as the operand size demands. -/
def Count.value (g : Regs) (sz : Size) (c : Count) : Nat :=
  let raw :=
    match c with
    | .cl => g.rcx.setWidth 8
    | .imm v => v
  raw.toNat % sz.bits

/-- Signed division of a double word.  There is no result on a divide error. -/
def signedDivide {w : Nat} (hi lo d : BitVec w) : Option (BitVec w × BitVec w) :=
  let n := hi.toInt * 2 ^ w + lo.toNat
  let q := n.tdiv d.toInt
  if d = 0 ∨ q < -2 ^ (w - 1) ∨ 2 ^ (w - 1) ≤ q then none
  else some (BitVec.ofInt w q, BitVec.ofInt w (n.tmod d.toInt))

/-- Unsigned division of a double word.  There is no result on a divide error. -/
def unsignedDivide {w : Nat} (hi lo d : BitVec w) : Option (BitVec w × BitVec w) :=
  let n := hi.toNat * 2 ^ w + lo.toNat
  let q := n / d.toNat
  if d = 0 ∨ 2 ^ w ≤ q then none
  else some (BitVec.ofNat w q, BitVec.ofNat w (n % d.toNat))

/-! ## Execution -/

namespace State

variable {M : Type}

/-- Set a register and the flags. -/
@[simp] def put (s : State M) (r : Reg) (v : BitVec 64) (f : Option Flags) : State M :=
  { s with regs := s.regs.set r v, flags := f }

/-- The value of a register at a size. -/
@[simp] def reg (s : State M) (sz : Size) (r : Reg) : BitVec sz.bits :=
  (s.regs.get r).setWidth sz.bits

/-- The value of an operand. -/
def read (env : Env M) (s : State M) (n : Nat) : Operand → Option (BitVec n)
  | .reg r => some ((s.regs.get r).setWidth n)
  | .mem base disp =>
      (env.load (s.regs.get base + disp.signExtend 64) s.mem).map (·.setWidth n)
  | .imm v => some (v.signExtend n)

section

variable (env : Env M) (s : State M) (n : Nat)

@[simp] theorem read_reg (r : Reg) : s.read env n (.reg r) = some ((s.regs.get r).setWidth n) := rfl

@[simp] theorem read_mem (base : Reg) (disp : BitVec 32) : s.read env n (.mem base disp) =
    (env.load (s.regs.get base + disp.signExtend 64) s.mem).map (·.setWidth n) := rfl

@[simp] theorem read_imm (v : BitVec 32) : s.read env n (.imm v) = some (v.signExtend n) := rfl

end

end State

/-- Where a run is: at the next instruction, on the way to a label, returned to an address, or
stuck. -/
inductive Cursor (L M : Type) where
  | here (s : State M)
  | seek (target : L) (s : State M)
  | returned (addr : BitVec 64) (s : State M)
  | stuck

variable {L M : Type}

/-- Continue with a value, if there is one. -/
@[simp] def Cursor.ofOption {α : Type} (v : Option α) (k : α → Cursor L M) : Cursor L M :=
  match v with
  | some a => k a
  | none => .stuck

/-- One instruction. -/
@[simp] def step (env : Env M) (s : State M) : Instr L → Cursor L M
  | .mov sz dst src =>
      .ofOption (s.read env sz.bits src) fun v => .here (s.put dst (v.setWidth 64) s.flags)
  | .movAbs dst v => .here (s.put dst v s.flags)
  | .store base disp src =>
      .ofOption (env.store (s.regs.get base + disp.signExtend 64) (s.regs.get src) s.mem) fun m =>
        .here { s with mem := m }
  | .movsx n dst src =>
      .ofOption (s.read env n src) fun v => .here (s.put dst (v.signExtend 64) s.flags)
  | .movzx8 dst src =>
      .here (s.put dst (((s.regs.get src).setWidth 8).setWidth 64) s.flags)
  | .alu op sz dst src =>
      .ofOption (s.read env sz.bits src) fun v =>
        .here (s.put dst ((op.eval (s.reg sz dst) v).setWidth 64)
          (some (op.flags (s.reg sz dst) v)))
  | .cmp sz dst src =>
      .ofOption (s.read env sz.bits src) fun v =>
        .here { s with flags := some (.sub (s.reg sz dst) v) }
  | .test sz dst src => .here { s with flags := some (.logic (s.reg sz dst &&& s.reg sz src)) }
  | .imul sz dst src =>
      .ofOption (s.read env sz.bits src) fun v =>
        .here (s.put dst ((s.reg sz dst * v).setWidth 64) none)
  | .imulWide src =>
      let p := s.regs.rax.signExtend 128 * (s.regs.get src).signExtend 128
      .here ((s.put .rax (p.setWidth 64) none).put .rdx (p.extractLsb' 64 64) none)
  | .mulWide src =>
      let p := s.regs.rax.setWidth 128 * (s.regs.get src).setWidth 128
      .here ((s.put .rax (p.setWidth 64) none).put .rdx (p.extractLsb' 64 64) none)
  | .cqo => .here (s.put .rdx (s.regs.rax.sshiftRight 63) s.flags)
  | .idiv src =>
      .ofOption (signedDivide s.regs.rdx s.regs.rax (s.regs.get src)) fun (q, r) =>
        .here ((s.put .rax q none).put .rdx r none)
  | .div sz src =>
      .ofOption (unsignedDivide (s.reg sz .rdx) (s.reg sz .rax) (s.reg sz src)) fun (q, r) =>
        .here ((s.put .rax (q.setWidth 64) none).put .rdx (r.setWidth 64) none)
  | .shift op sz dst count =>
      .here (s.put dst ((op.eval (s.reg sz dst) (count.value s.regs sz)).setWidth 64) none)
  | .setcc cond dst =>
      .ofOption s.flags fun f =>
        .here (s.put dst
          ((s.regs.get dst &&& ~~~0xff#64) ||| if cond.holds f then 1 else 0) s.flags)
  | .jcc cond target =>
      .ofOption s.flags fun f => if cond.holds f then .seek target s else .here s
  | .jmp target => .seek target s
  | .label _ => .here s
  | .call target =>
      .ofOption (env.call (s.regs.get target) s.regs.rdi s.regs.rsi s.regs.rdx s.mem)
        fun (v, m) => .here
          { s with
            regs := { s.regs with
              rax := v, rcx := env.scratch .rcx, rdx := env.scratch .rdx
              rsi := env.scratch .rsi, rdi := env.scratch .rdi }
            flags := none, mem := m }
  | .push src => .here { s with stack := s.regs.get src :: s.stack }
  | .pop dst =>
      match s.stack with
      | v :: rest => .here { s.put dst v s.flags with stack := rest }
      | [] => .stuck
  | .subRsp => .here { s with flags := none, stack := env.fresh :: s.stack }
  | .addRsp =>
      match s.stack with
      | _ :: rest => .here { s with flags := none, stack := rest }
      | [] => .stuck
  | .ret =>
      match s.stack with
      | addr :: rest => .returned addr { s with stack := rest }
      | [] => .stuck

/-- Pass an instruction. -/
def Cursor.over [DecidableEq L] (env : Env M) (c : Cursor L M) (i : Instr L) : Cursor L M :=
  match c with
  | .here s => step env s i
  | .seek target s =>
      match i with
      | .label name => if name = target then .here s else .seek target s
      | _ => .seek target s
  | .returned addr s => .returned addr s
  | .stuck => .stuck

/-- Run code from a cursor. -/
def run [DecidableEq L] (env : Env M) (code : List (Instr L)) (c : Cursor L M) : Cursor L M :=
  code.foldl (Cursor.over env) c

section

variable [DecidableEq L] (env : Env M)

@[simp] theorem over_here (s : State M) (i : Instr L) :
    (Cursor.here s).over env i = step env s i := rfl

@[simp] theorem over_seek_label (target name : L) (s : State M) :
    (Cursor.seek target s).over env (.label name) =
      if name = target then .here s else .seek target s := rfl

@[simp] theorem over_seek (target : L) (s : State M) {i : Instr L}
    (hi : ∀ name, i ≠ .label name) : (Cursor.seek target s).over env i = .seek target s := by
  cases i with
  | label name => exact absurd rfl (hi name)
  | _ => rfl

@[simp] theorem run_nil (c : Cursor L M) : run env [] c = c := rfl

@[simp] theorem run_cons (i : Instr L) (code : List (Instr L)) (c : Cursor L M) :
    run env (i :: code) c = run env code (c.over env i) := rfl

theorem run_append (code code' : List (Instr L)) (c : Cursor L M) :
    run env (code ++ code') c = run env code' (run env code c) :=
  List.foldl_append

/-- A jump passes over code without its label. -/
theorem run_seek {code : List (Instr L)} {target : L} (hcode : .label target ∉ code)
    (s : State M) : run env code (.seek target s) = .seek target s := by
  induction code with
  | nil => rfl
  | cons i code ih =>
      rw [List.mem_cons, not_or] at hcode
      have hover : (Cursor.seek target s).over env i = .seek target s := by
        cases i with
        | label name => exact if_neg fun h => hcode.1 (congrArg Instr.label h.symm)
        | _ => rfl
      rw [run_cons, hover]
      exact ih hcode.2

/-- Code that has returned runs no further. -/
@[simp] theorem run_returned (code : List (Instr L)) (addr : BitVec 64) (s : State M) :
    run env code (.returned addr s) = .returned addr s := by
  induction code with
  | nil => rfl
  | cons i code ih => exact ih

@[simp] theorem run_stuck (code : List (Instr L)) :
    run env code (.stuck : Cursor L M) = .stuck := by
  induction code with
  | nil => rfl
  | cons i code ih => exact ih

end

/-! ## Outcomes -/

/-- The code goes on behind its last instruction, in a state with the property. -/
def Reaches [DecidableEq L] (env : Env M) (code : List (Instr L)) (s : State M)
    (P : State M → Prop) : Prop :=
  match run env code (.here s) with
  | .here s' => P s'
  | _ => False

/-- The code returns to an address, in a state with the property. -/
def Returns [DecidableEq L] (env : Env M) (code : List (Instr L)) (s : State M)
    (P : BitVec 64 → State M → Prop) : Prop :=
  match run env code (.here s) with
  | .returned addr s' => P addr s'
  | _ => False

/-- The code gets stuck. -/
def Sticks [DecidableEq L] (env : Env M) (code : List (Instr L)) (s : State M) : Prop :=
  run env code (.here s) = .stuck

section

variable [DecidableEq L] {env : Env M} {code code' : List (Instr L)} {s : State M}
  {P Q : State M → Prop} {R : BitVec 64 → State M → Prop}

theorem Reaches.eq (h : Reaches env code s P) : ∃ s', run env code (.here s) = .here s' ∧ P s' := by
  rw [Reaches] at h
  cases hr : run env code (.here s) with
  | here s' =>
      rw [hr] at h
      exact ⟨s', rfl, h⟩
  | seek | returned | stuck => rw [hr] at h; exact h.elim

theorem Returns.eq (h : Returns env code s R) :
    ∃ addr s', run env code (.here s) = .returned addr s' ∧ R addr s' := by
  rw [Returns] at h
  cases hr : run env code (.here s) with
  | returned addr s' =>
      rw [hr] at h
      exact ⟨addr, s', rfl, h⟩
  | seek | here | stuck => rw [hr] at h; exact h.elim

theorem Reaches.nil (h : P s) : Reaches env ([] : List (Instr L)) s P := h

theorem Reaches.label {name : L} (h : P s) : Reaches env [.label name] s P := h

theorem Reaches.mono (h : Reaches env code s P) (hPQ : ∀ s', P s' → Q s') :
    Reaches env code s Q := by
  obtain ⟨s', hs', hP⟩ := h.eq
  rw [Reaches, hs']
  exact hPQ s' hP

theorem Reaches.append (h : Reaches env code s P)
    (h' : ∀ s', P s' → Reaches env code' s' Q) : Reaches env (code ++ code') s Q := by
  obtain ⟨s', hs', hP⟩ := h.eq
  rw [Reaches, run_append, hs']
  exact h' s' hP

theorem Reaches.cons {i : Instr L} {t : State M} (hi : step env s i = .here t)
    (h : Reaches env code t P) : Reaches env (i :: code) s P := by
  rw [Reaches, run_cons, over_here, hi]
  exact h

/-- A jump skips to behind its label. -/
theorem Reaches.jmp {target : L} {l : List (Instr L)} (hl : .label target ∉ l)
    (h : Reaches env code s P) :
    Reaches env (.jmp target :: (l ++ .label target :: code)) s P := by
  rw [Reaches, run_cons, over_here, step, run_append, run_seek env hl, run_cons,
    over_seek_label, if_pos rfl]
  exact h

/-- A conditional jump skips to behind its label, or goes on. -/
theorem Reaches.jcc {cond : Cond} {target : L} {f : Flags} (hf : s.flags = some f)
    (hcode : .label target ∉ code) (htaken : cond.holds f = true → Reaches env code' s P)
    (hfall : cond.holds f = false → Reaches env (code ++ .label target :: code') s P) :
    Reaches env (.jcc cond target :: (code ++ .label target :: code')) s P := by
  rw [Reaches, run_cons, over_here, step, hf, Cursor.ofOption]
  cases hc : cond.holds f with
  | true =>
      rw [if_pos rfl, run_append, run_seek env hcode, run_cons, over_seek_label, if_pos rfl]
      exact htaken hc
  | false => exact hfall hc

theorem Reaches.append_returns (h : Reaches env code s P)
    (h' : ∀ s', P s' → Returns env code' s' R) : Returns env (code ++ code') s R := by
  obtain ⟨s', hs', hP⟩ := h.eq
  rw [Returns, run_append, hs']
  exact h' s' hP

theorem Returns.append (h : Returns env code s R) : Returns env (code ++ code') s R := by
  obtain ⟨addr, s', hs', hR⟩ := h.eq
  rw [Returns, run_append, hs', run_returned]
  exact hR

/-- A conditional jump that is taken skips to behind its label. -/
theorem Returns.jcc {cond : Cond} {target : L} {f : Flags} (hf : s.flags = some f)
    (hcond : cond.holds f = true) (hcode : .label target ∉ code) (h : Returns env code' s R) :
    Returns env (.jcc cond target :: (code ++ .label target :: code')) s R := by
  rw [Returns, run_cons, over_here, step, hf, Cursor.ofOption, if_pos hcond, run_append,
    run_seek env hcode, run_cons, over_seek_label, if_pos rfl]
  exact h

theorem Reaches.append_sticks (h : Reaches env code s P)
    (h' : ∀ s', P s' → Sticks env code' s') : Sticks env (code ++ code') s := by
  obtain ⟨s', hs', hP⟩ := h.eq
  rw [Sticks, run_append, hs']
  exact h' s' hP

theorem Sticks.append (h : Sticks env code s) : Sticks env (code ++ code') s := by
  rw [Sticks, run_append, h, run_stuck]

end

/-! ## Conditions after a comparison -/

section Conditions

variable {w : Nat} (a b : BitVec w)

@[simp] theorem holds_e_sub : Cond.e.holds (.sub a b) = decide (a = b) := rfl

@[simp] theorem holds_ne_sub : Cond.ne.holds (.sub a b) = !decide (a = b) := rfl

@[simp] theorem holds_b_sub : Cond.b.holds (.sub a b) = a.ult b := rfl

@[simp] theorem holds_ae_sub : Cond.ae.holds (.sub a b) = !a.ult b := rfl

/-- The sign of the difference, corrected for overflow, is the signed order. -/
theorem sf_ne_of_sub : ((Flags.sub a b).sf != (Flags.sub a b).of) = a.slt b := by
  cases w with
  | zero =>
      rw [BitVec.eq_nil a, BitVec.eq_nil b]
      rfl
  | succ n =>
      have hpow : 2 ^ (n + 1) = 2 * 2 ^ n := by rw [Nat.pow_succ, Nat.mul_comm]
      have ha := a.isLt
      have hb := b.isLt
      have hmsb : ∀ x : BitVec (n + 1), x.msb = decide (2 ^ n ≤ x.toNat) :=
        fun x => BitVec.msb_eq_decide x
      have hint : ∀ x : BitVec (n + 1),
          x.toInt = if 2 ^ n ≤ x.toNat then (x.toNat : Int) - 2 * (2 ^ n : Nat) else x.toNat := by
        intro x
        rw [BitVec.toInt_eq_toNat_cond, hpow]
        split <;> split <;> omega
      have hdiff : (a - b).toNat =
          if b.toNat ≤ a.toNat then a.toNat - b.toNat else 2 * 2 ^ n - b.toNat + a.toNat := by
        rw [BitVec.toNat_sub, hpow]
        split
        · rw [show 2 * 2 ^ n - b.toNat + a.toNat = (a.toNat - b.toNat) + 2 * 2 ^ n by omega,
            Nat.add_mod_right, Nat.mod_eq_of_lt (by omega)]
        · exact Nat.mod_eq_of_lt (by omega)
      simp only [Flags.sub, BitVec.slt_eq_decide, hmsb, hint, hdiff]
      generalize 2 ^ n = N at *
      generalize a.toNat = x at *
      generalize b.toNat = y at *
      rw [Bool.eq_iff_iff]
      by_cases h1 : N ≤ x <;> by_cases h2 : N ≤ y <;> by_cases h3 : y ≤ x <;>
        simp [h1, h2, h3] <;> omega

@[simp] theorem holds_l_sub : Cond.l.holds (.sub a b) = a.slt b := sf_ne_of_sub a b

@[simp] theorem holds_ge_sub : Cond.ge.holds (.sub a b) = !a.slt b := by
  rw [← sf_ne_of_sub]
  exact (Bool.not_not _).symm

/-- A register tested with itself is compared with zero. -/
@[simp] theorem holds_e_logic : Cond.e.holds (.logic a) = decide (a = 0) := rfl

@[simp] theorem holds_ne_logic : Cond.ne.holds (.logic a) = !decide (a = 0) := rfl

end Conditions

/-! ## Division -/

section Division

variable {w : Nat} {a d : BitVec w}

/-- Unsigned division of a single word. -/
theorem unsignedDivide_zero (hd : d ≠ 0) : unsignedDivide 0 a d = some (a / d, a % d) := by
  have hq : a.toNat / d.toNat < 2 ^ w := Nat.lt_of_le_of_lt (Nat.div_le_self _ _) a.isLt
  have hzero : (0 : BitVec w).toNat = 0 := by simp
  rw [unsignedDivide]
  simp only [hzero, Nat.zero_mul, Nat.zero_add]
  rw [if_neg (by rintro (h | h); exacts [hd h, Nat.not_le_of_lt hq h])]
  congr 2
  · apply BitVec.eq_of_toNat_eq
    rw [BitVec.toNat_ofNat, BitVec.toNat_udiv, Nat.mod_eq_of_lt hq]
  · apply BitVec.eq_of_toNat_eq
    rw [BitVec.toNat_ofNat, BitVec.toNat_umod, Nat.mod_eq_of_lt]
    exact Nat.lt_of_le_of_lt (Nat.mod_le _ _) a.isLt

/-- The sign of a word, repeated, makes it a double word of the same value. -/
theorem double_toInt (hw : 0 < w) (a : BitVec w) :
    (a.sshiftRight (w - 1)).toInt * 2 ^ w + a.toNat = a.toInt := by
  have hpow : (2 : Int) ^ w = ((2 ^ w : Nat) : Int) := by simp
  have ha := a.isLt
  rw [BitVec.toInt_sshiftRight, hpow, BitVec.toInt_eq_toNat_cond]
  have hsplit : 2 ^ w = 2 * 2 ^ (w - 1) := by
    rw [← Nat.pow_succ', Nat.succ_eq_add_one, Nat.sub_add_cancel hw]
  rw [Int.shiftRight_eq_div_pow, hsplit]
  rw [hsplit] at ha
  generalize hN : 2 ^ (w - 1) = N at *
  have hNpos : 0 < N := by
    rw [← hN]
    exact Nat.two_pow_pos _
  split
  · rw [Int.ediv_eq_zero_of_lt (by omega) (by omega)]
    omega
  · have : ((a.toNat : Int) - ((2 * N : Nat) : Int)) / (N : Int) = -1 := by
      rw [Int.ediv_eq_iff_of_pos (by omega)]
      omega
    rw [this]
    omega

/-- Signed division of a single word that does not overflow. -/
theorem signedDivide_sign (hw : 0 < w) (hd : d ≠ 0) (hov : a ≠ BitVec.intMin w ∨ d ≠ -1#w) :
    signedDivide (a.sshiftRight (w - 1)) a d = some (a.sdiv d, a.srem d) := by
  have hq : (a.sdiv d).toInt = a.toInt.tdiv d.toInt := BitVec.toInt_sdiv_of_ne_or_ne a d hov
  have hlo : -2 ^ (w - 1) ≤ (a.sdiv d).toInt := BitVec.le_toInt _
  have hhi : (a.sdiv d).toInt < 2 ^ (w - 1) := BitVec.toInt_lt
  rw [signedDivide]
  simp only [double_toInt hw, ← hq]
  rw [if_neg (by rintro (h | h | h); exacts [hd h, Int.not_lt.mpr hlo h, Int.not_le.mpr hhi h])]
  rw [BitVec.ofInt_toInt, ← BitVec.toInt_srem, BitVec.ofInt_toInt]

end Division

end X86

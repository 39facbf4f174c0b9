import RiscvEmu.Device.Widths
import RiscvEmu.Lib.Simulation
import RiscvEmu.Native.Restart
import RiscvEmu.Refinement.Sizes
import RiscvEmu.Runs.Parity

/-!
# The interpreter with a memory of fetches

The run loop is an interpreter that takes a few liberties.  The machine of this module has them, and
nothing else.  It may fetch ahead, directly behind what it has fetched, and later execute an
encoding it has fetched instead of the one in memory.  It then takes no interrupt.  It may translate
an address to no end.  An access that crosses into another page under translation, or that `MPRV`
makes in another mode, may be done by the callouts of blocks instead.  Last, it may skip the
compressed additions that write register 0, which the decoder rejects.

A flush makes it forget what it has fetched.  The blocks of the run loop carry out such steps
(`runRaws_trail`).
-/

namespace RiscvEmu.Jit

/-- The interpreter, with what was fetched for blocks. -/
structure Fetching where
  cpu : Cpu
  /-- The address the last step of the interpreter was made at. -/
  last : U64
  /-- The encodings fetched at an address since the last flush. -/
  seen : U64 → U32 → Prop

namespace Fetching

/-- Nothing was fetched. -/
def start (c : Cpu) : Fetching := ⟨c, c.pc, fun _ _ => False⟩

/-- The addresses that are fetched: that of the last step, and those directly behind encodings that
were fetched. -/
def Near (w : Fetching) (pc : U64) : Prop :=
  pc = w.last ∨ ∃ p raw4, w.seen p raw4 ∧ pc = p + sizeOf raw4

/-- What was fetched, after one more fetch. -/
def remember (w : Fetching) (pc : U64) : Except Trap U32 → U64 → U32 → Prop
  | .ok raw4 => fun p raw => w.seen p raw ∨ (p = pc ∧ raw = raw4)
  | .error _ => w.seen

/-- What a step does that counts: it executes an instruction, or serves an input. -/
inductive Mark where
  | instruction
  | service (input : Input)

/-- The input a step serves. -/
def Mark.served : Mark → Option Input
  | instruction => none
  | service input => some input

/-- Whether a step executes an instruction. -/
def Mark.executes : Mark → Bool
  | instruction => true
  | service _ => false

/-- The marks of some instructions. -/
def executed (n : Nat) : List Mark := List.replicate n .instruction

theorem executed_add (n k : Nat) : executed (n + k) = executed n ++ executed k :=
  List.replicate_append_replicate.symm

@[simp] theorem executed_served (n : Nat) : (executed n).filterMap Mark.served = [] := by
  rw [executed, List.filterMap_replicate_of_none rfl]

@[simp] theorem executed_count (n : Nat) : (executed n).countP Mark.executes = n := by
  rw [executed, List.countP_replicate]
  rfl

/-- A step of the machine, with its marks. -/
inductive Next (fpu : Fpu) : List Mark → Fetching → Fetching → Prop
  /-- A step of the interpreter. -/
  | step {w : Fetching} {r : Retired} : Cpu.step fpu w.cpu = some r →
      Next fpu (executed 1) w { w with cpu := r.cpu, last := w.cpu.pc }
  /-- A fetch, whether it succeeds or not. -/
  | fetch {w : Fetching} {pc : U64} {r : Except Trap U32} {c : Cpu} : w.Near pc →
      fetchRaw pc w.cpu = some (r, c) →
      Next fpu (executed 0) w { w with cpu := c, seen := w.remember pc r }
  /-- An encoding that was fetched is executed, without an exception. -/
  | exec {w : Fetching} {raw4 : U32} {c : Cpu} : w.seen w.cpu.pc raw4 →
      Cpu.executeFetched fpu raw4 w.cpu = some ⟨c, none⟩ →
      Next fpu (executed 1) w { w with cpu := c }
  /-- An access of such an encoding is made by its callout, which does not cover it. -/
  | uncovered {w : Fetching} {raw4 : U32} {q : Callout} {v : U64} {c : Cpu} :
      w.seen w.cpu.pc raw4 → callout (instOf raw4) w.cpu = some q →
      ¬ w.cpu.Covered q.va q.width → q.answer = some (v, c) → v ≠ u64Max →
      Next fpu (executed 1) w { w with
        cpu := atInst (finish (instOf raw4) v c) (w.cpu.pc + sizeOf raw4) (sizeOf raw4) }
  /-- Such an encoding is an addition to register 0, and is skipped. -/
  | hint {w : Fetching} {raw4 : U32} : w.seen w.cpu.pc raw4 → raw4 &&& 0x3 ≠ 0x3 →
      Rvc.AddHint (raw4.setWidth 16) →
      Next fpu (executed 1) w { w with
        cpu := atInst w.cpu (w.cpu.pc + sizeOf raw4) (sizeOf raw4) }
  /-- A translation to no end. -/
  | walk {w : Fetching} {access : AccessType} {va : U64} {r : Except MmuFault U64} {c : Cpu} :
      Cpu.translate w.cpu.mode va access w.cpu = some (r, c) →
      Next fpu (executed 0) w { w with cpu := c }
  /-- A service of the devices. -/
  | poll {w : Fetching} (input : Input) :
      Next fpu [.service input] w { w with cpu := RiscvEmu.Jit.poll input w.cpu }
  /-- The root of the page tables has changed. -/
  | flushSatp {w : Fetching} : w.cpu.jitInvalidate = true →
      Next fpu (executed 0) w { w with
        cpu := { w.cpu with jitInvalidate := false }, seen := fun _ _ => False }
  /-- A fence for instructions, which need not forget anything. -/
  | flushFenceI {w : Fetching} {seen : U64 → U32 → Prop} : w.cpu.fenceIPending = true →
      (seen = w.seen ∨ seen = fun _ _ => False) →
      Next fpu (executed 0) w { w with cpu := { w.cpu with fenceIPending := false }, seen := seen }

end Fetching

open Fetching (Next executed executed_add)

/-- The encodings from an address on were fetched. -/
def SeenAlong (seen : U64 → U32 → Prop) : U64 → List U32 → Prop
  | _, [] => True
  | pc, raw4 :: raws => seen pc raw4 ∧ SeenAlong seen (pc + sizeOf raw4) raws

theorem SeenAlong.mono {seen seen' : U64 → U32 → Prop} (himp : ∀ p raw, seen p raw → seen' p raw)
    {pc : U64} {raws : List U32} (h : SeenAlong seen pc raws) : SeenAlong seen' pc raws := by
  induction raws generalizing pc with
  | nil => trivial
  | cons raw4 raws ih => exact ⟨himp _ _ h.1, ih h.2⟩

/-! ## Callouts that do not succeed -/

variable {h : Host} {fpu : Fpu} {c c' d : Cpu} {o : Outcome} {pc size : U64} {raw4 : U32}
  {raws : List U32} {inst : Instruction} {w : Fetching}

theorem plic_loadWidth (addr : U64) : Plic.loadWidth addr = .b1 ∨ Plic.loadWidth addr = .b4 := by
  unfold Plic.loadWidth
  dsimp only
  repeat' split
  all_goals simp

/-- No load that answers all ones changes a device. -/
theorem load_max {pa v : U64} {width : Width} {b b' : Bus} (hv : v = u64Max)
    (hload : Bus.load pa width b = some (.ok v, b')) : b' = b := by
  have hmax : v.toNat = 2 ^ 64 - 1 := by
    rw [hv]
    rfl
  cases hr : region pa with
  | clint =>
      rw [Bus.load_clint _ b hr] at hload
      cases hload
      rfl
  | plic =>
      rw [Bus.load_plic _ b hr] at hload
      have hbound := (Plic.reads pa).bound b.plic
      cases hload
      rcases plic_loadWidth pa with hw | hw
      · rw [hw, hmax] at hbound
        exact absurd hbound (by decide)
      · rw [hw, hmax] at hbound
        exact absurd hbound (by decide)
  | uart =>
      rw [Bus.load_uart _ b hr] at hload
      have hbound := (Uart16550.reads pa).bound b.uart
      cases hload
      rw [hmax] at hbound
      exact absurd hbound (by decide)
  | virtioBlk =>
      rw [Bus.load_virtioBlk _ b hr] at hload
      cases hload
      rfl
  | ram =>
      cases ho : b.offset pa width with
      | error e =>
          rw [Bus.load_ram_error hr ho] at hload
          cases hload
      | ok off =>
          rw [Bus.load_ram hr ho] at hload
          cases hload
          rfl

/-- A callout that does not succeed is a translation to no end. -/
theorem callout_walks {q : Callout} (hq : callout inst c = some q)
    (hanswer : q.answer = some (u64Max, c')) :
    ∃ r, Cpu.translate c.mode q.va q.access c = some (r, c') := by
  cases inst with
  | load op rd rs1 imm =>
      cases hq
      change c.jitLoad _ _ = _ at hanswer
      unfold Cpu.jitLoad at hanswer
      split at hanswer
      · cases hanswer
      · rename_i ht
        cases hanswer
        exact ⟨_, ht⟩
      · rename_i c₂ ht
        split at hanswer
        · cases hanswer
        · rename_i bus hl
          have hbus : bus = c₂.bus := (Bus.load_error hl).2.2
          cases hanswer
          rw [hbus]
          exact ⟨_, ht⟩
        · rename_i bus hl
          obtain ⟨hv, rfl⟩ := Prod.mk.inj (Option.some.inj hanswer)
          rw [load_max hv hl]
          exact ⟨_, ht⟩
  | store op rs1 rs2 imm =>
      cases hq
      change c.jitStore _ _ _ = _ at hanswer
      unfold Cpu.jitStore at hanswer
      split at hanswer
      · cases hanswer
      · rename_i ht
        cases hanswer
        exact ⟨_, ht⟩
      · rename_i c₂ ht
        split at hanswer
        · cases hanswer
        · rename_i bus hs
          have hbus : bus = c₂.bus := (Bus.store_error hs).2.2
          cases hanswer
          rw [hbus]
          exact ⟨_, ht⟩
        · obtain ⟨hv, -⟩ := Prod.mk.inj (Option.some.inj hanswer)
          exact absurd hv.symm Cpu.u64Max_ne_zero
  | _ => cases hq

end RiscvEmu.Jit

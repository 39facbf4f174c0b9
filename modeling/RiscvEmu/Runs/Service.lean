import Mathlib.Algebra.BigOperators.Intervals
import RiscvEmu.Jit.Loop
import RiscvEmu.Native.Straight
import RiscvEmu.RamAccess

/-!
# The service of the devices

The loop counts a step as one tick, a block in machine mode as 64 and any other block as 8, and
serves the devices in an iteration that leaves the counter at a multiple of 1024.  A block that
starts late in such a window steps over the multiple, and no service happens.  The service is
punctual exactly when every iteration has room for its ticks in the window it starts in.
-/

namespace RiscvEmu.Jit

/-! ## The counter -/

/-- The instructions of an iteration, as the counter sees them. -/
inductive Turn where
  | step
  | machineBlock
  | otherBlock
  deriving DecidableEq

def Turn.ticks : Turn → U64
  | step => 1
  | machineBlock => 64
  | otherBlock => 8

/-- The counter before an iteration. -/
def tickAt (start : U64) (turns : Nat → Turn) : Nat → U64
  | 0 => start
  | i + 1 => tickAt start turns i + (turns i).ticks

/-- The devices are served when an iteration leaves the counter so. -/
def Gate (tick : U64) : Prop := tick &&& 1023 = 0

instance (tick : U64) : Decidable (Gate tick) := inferInstanceAs (Decidable (_ = _))

/-- There is a multiple of 1024 behind the old value and not behind the new one. -/
def Passes (tick n : U64) : Prop := ∃ k, tick.toNat < 1024 * k ∧ 1024 * k ≤ tick.toNat + n.toNat

/-- The ticks from one iteration up to another. -/
def ticksBetween (turns : Nat → Turn) (i j : Nat) : Nat :=
  ∑ k ∈ Finset.Ico i j, (turns k).ticks.toNat

/-- Every multiple that is passed is served, and 1024 ticks go by at most behind a service without
another one. -/
structure Punctual (start : U64) (turns : Nat → Turn) : Prop where
  served : ∀ i, Passes (tickAt start turns i) (turns i).ticks → Gate (tickAt start turns (i + 1))
  gap : ∀ i j, i ≤ j → Gate (tickAt start turns i) →
    (∀ k, i < k → k < j → ¬ Gate (tickAt start turns k)) → ticksBetween turns i j ≤ 1024

/-- An iteration ends in the window of 1024 ticks that it starts in, or at the end of it. -/
def RoomLeft (start : U64) (turns : Nat → Turn) : Prop :=
  ∀ i, (tickAt start turns i).toNat % 1024 + (turns i).ticks.toNat ≤ 1024

theorem Turn.ticks_le (t : Turn) : t.ticks.toNat ≤ 64 := by
  cases t <;> decide

theorem gate_iff (tick : U64) : Gate tick ↔ tick.toNat % 1024 = 0 := by
  have hand : (tick &&& 1023).toNat = tick.toNat % 1024 := by
    rw [BitVec.toNat_and]
    exact Nat.and_two_pow_sub_one_eq_mod tick.toNat 10
  rw [Gate, ← BitVec.toNat_inj, hand]
  rfl

/-- The counter wraps at a multiple of the window. -/
theorem tick_add_mod (tick n : U64) :
    (tick + n).toNat % 1024 = (tick.toNat + n.toNat) % 1024 := by
  rw [BitVec.toNat_add]
  exact Nat.mod_mod_of_dvd _ (by decide)

theorem passes_iff (tick n : U64) : Passes tick n ↔ 1024 ≤ tick.toNat % 1024 + n.toNat := by
  constructor
  · rintro ⟨k, hlow, hhigh⟩
    omega
  · intro h
    exact ⟨tick.toNat / 1024 + 1, by omega, by omega⟩

/-- One iteration serves what it passes exactly when it has room. -/
theorem served_iff (tick : U64) (t : Turn) :
    (Passes tick t.ticks → Gate (tick + t.ticks)) ↔ tick.toNat % 1024 + t.ticks.toNat ≤ 1024 := by
  rw [passes_iff, gate_iff, tick_add_mod]
  have hle := t.ticks_le
  constructor
  · intro h
    by_contra hover
    have hzero := h (by omega)
    omega
  · intro hroom hpass
    omega

/-- Behind a service the residue of the counter is the number of ticks, as long as there is room
and no other service. -/
theorem residue_between {start : U64} {turns : Nat → Turn} (hroom : RoomLeft start turns) {i : Nat}
    (hgate : Gate (tickAt start turns i)) (n : Nat)
    (hnone : ∀ k, i < k → k ≤ i + n → ¬ Gate (tickAt start turns k)) :
    (tickAt start turns (i + n)).toNat % 1024 = ticksBetween turns i (i + n) := by
  induction n with
  | zero => simpa [ticksBetween] using (gate_iff _).mp hgate
  | succ n ih =>
      have hbefore := ih fun k hlow hhigh => hnone k hlow (by omega)
      have hsum : ticksBetween turns i (i + (n + 1)) =
          ticksBetween turns i (i + n) + (turns (i + n)).ticks.toNat :=
        Finset.sum_Ico_succ_top (Nat.le_add_right i n) _
      have hnot := hnone (i + (n + 1)) (by omega) (by omega)
      have hnext : (tickAt start turns (i + (n + 1))).toNat % 1024 =
          ((tickAt start turns (i + n)).toNat + (turns (i + n)).ticks.toNat) % 1024 :=
        tick_add_mod _ _
      have hfits := hroom (i + n)
      rw [gate_iff] at hnot
      omega

theorem RoomLeft.gap {start : U64} {turns : Nat → Turn} (hroom : RoomLeft start turns) {i j : Nat}
    (hij : i ≤ j) (hgate : Gate (tickAt start turns i))
    (hnone : ∀ k, i < k → k < j → ¬ Gate (tickAt start turns k)) :
    ticksBetween turns i j ≤ 1024 := by
  obtain rfl | hlt := hij.eq_or_lt
  · simp [ticksBetween]
  · obtain ⟨n, rfl⟩ : ∃ n, j = i + n + 1 := ⟨j - i - 1, by omega⟩
    have hres := residue_between hroom hgate n fun k hlow hhigh => hnone k hlow (by omega)
    have hsum : ticksBetween turns i (i + n + 1) =
        ticksBetween turns i (i + n) + (turns (i + n)).ticks.toNat :=
      Finset.sum_Ico_succ_top (Nat.le_add_right i n) _
    have hfits := hroom (i + n)
    omega

/-- The service is punctual when every iteration has room, and only then. -/
theorem punctual_iff (start : U64) (turns : Nat → Turn) :
    Punctual start turns ↔ RoomLeft start turns := by
  constructor
  · intro h i
    exact (served_iff _ _).mp (h.served i)
  · intro hroom
    exact ⟨fun i => (served_iff _ _).mpr (hroom i), fun _ _ => hroom.gap⟩

/-! ## The loop -/

/-- A round up to the service: the instructions, the flushes and the ticks. -/
def turned (h : Host) (fpu : Fpu) (m : Machine) : Option Machine :=
  (advance h fpu m.jit m.cpu).map fun (cpu, jit, tickInc) =>
    let m := flushFenceI (flushSatp { m with cpu := cpu, jit := jit })
    { m with tick := m.tick + tickInc }

/-- The service of a round. -/
def serve (input : Input) (m : Machine) : Machine :=
  if Gate m.tick then { m with cpu := poll input m.cpu } else m

theorem round_eq (h : Host) (fpu : Fpu) (input : Input) (m : Machine) :
    round h fpu input m = (turned h fpu m).map (serve input) := by
  rw [round, turned]
  split
  · rename_i hadv
    rw [hadv]
    rfl
  · rename_i cpu jit tickInc hadv
    rw [hadv]
    rfl

theorem flushSatp_tick (m : Machine) : (flushSatp m).tick = m.tick := by
  rw [flushSatp]
  split <;> rfl

theorem flushFenceI_tick (m : Machine) : (flushFenceI m).tick = m.tick := by
  rw [flushFenceI]
  split
  · dsimp only
    split <;> rfl
  · rfl

theorem advance_ticks {h : Host} {fpu : Fpu} {jit jit' : JitCache} {c c' : Cpu} {n : U64}
    (hadv : advance h fpu jit c = some (c', jit', n)) : ∃ t : Turn, n = t.ticks := by
  rw [advance] at hadv
  split at hadv
  · split at hadv
    · cases hadv
    · split at hadv
      · obtain ⟨r, -, heq⟩ := Option.map_eq_some_iff.mp hadv
        cases heq
        exact ⟨.step, rfl⟩
      · cases hadv
        cases c.mode with
        | m => exact ⟨.machineBlock, rfl⟩
        | u | s => exact ⟨.otherBlock, rfl⟩
  · split at hadv
    · cases hadv
    · split at hadv
      · obtain ⟨r, -, heq⟩ := Option.map_eq_some_iff.mp hadv
        cases heq
        exact ⟨.step, rfl⟩
      · cases hadv
        exact ⟨.step, rfl⟩

/-- The counter moves by the ticks of one turn in a round. -/
theorem turned_tick {h : Host} {fpu : Fpu} {m m' : Machine} (hturned : turned h fpu m = some m') :
    ∃ t : Turn, m'.tick = m.tick + t.ticks := by
  obtain ⟨⟨cpu, jit, n⟩, hadv, rfl⟩ := Option.map_eq_some_iff.mp hturned
  obtain ⟨t, rfl⟩ := advance_ticks hadv
  refine ⟨t, ?_⟩
  dsimp only
  rw [flushFenceI_tick, flushSatp_tick]

theorem serve_tick (input : Input) (m : Machine) : (serve input m).tick = m.tick := by
  rw [serve]
  split <;> rfl

/-- An endless run of the loop. -/
structure LoopRun (h : Host) where
  fpu : Nat → Fpu
  input : Nat → Input
  machine : Nat → Machine
  round : ∀ i, round h (fpu i) (input i) (machine i) = some (machine (i + 1))

/-- The rounds of a run are turns of the counter, each followed by the service at the gate. -/
theorem LoopRun.turns {h : Host} (run : LoopRun h) :
    ∃ turns : Nat → Turn, ∀ i,
      (run.machine i).tick = tickAt (run.machine 0).tick turns i ∧
        ∃ m, turned h (run.fpu i) (run.machine i) = some m ∧
          run.machine (i + 1) = serve (run.input i) m ∧
          m.tick = tickAt (run.machine 0).tick turns (i + 1) := by
  have hround : ∀ i, ∃ m, ∃ t : Turn, turned h (run.fpu i) (run.machine i) = some m ∧
      run.machine (i + 1) = serve (run.input i) m ∧ m.tick = (run.machine i).tick + t.ticks := by
    intro i
    have hi := run.round i
    rw [round_eq] at hi
    obtain ⟨m, hturned, hserve⟩ := Option.map_eq_some_iff.mp hi
    obtain ⟨t, ht⟩ := turned_tick hturned
    exact ⟨m, t, hturned, hserve.symm, ht⟩
  choose m t hturned hserve htick using hround
  have hall : ∀ i, (run.machine i).tick = tickAt (run.machine 0).tick t i := by
    intro i
    induction i with
    | zero => rfl
    | succ i ih => rw [hserve, serve_tick, htick, ih, tickAt]
  refine ⟨t, fun i => ⟨hall i, m i, hturned i, hserve i, ?_⟩⟩
  rw [htick, hall, tickAt]

/-- For any start and any turns of the counter the service is punctual exactly when every iteration
has room for its ticks; and an endless run of the loop is such a sequence of turns, with the
service in the iterations that end at the gate. -/
theorem service_iff (start : U64) (turns : Nat → Turn) :
    (Punctual start turns ↔ RoomLeft start turns) ∧
      ∀ (h : Host) (run : LoopRun h), ∃ turns : Nat → Turn, ∀ i,
        ∃ m, turned h (run.fpu i) (run.machine i) = some m ∧
          m.tick = tickAt (run.machine 0).tick turns (i + 1) ∧
          run.machine (i + 1) =
            if Gate m.tick then { m with cpu := poll (run.input i) m.cpu } else m := by
  refine ⟨punctual_iff start turns, fun h run => ?_⟩
  obtain ⟨turns, hturns⟩ := run.turns
  refine ⟨turns, fun i => ?_⟩
  obtain ⟨-, m, hturned, hserve, htick⟩ := hturns i
  exact ⟨m, hturned, htick, hserve⟩

/-- From a tick that is no multiple of eight, blocks alone are never followed by a service. -/
theorem blocks_starve (start : U64) (turns : Nat → Turn) (hstart : start.toNat % 8 ≠ 0)
    (hblocks : ∀ i, turns i ≠ .step) (i : Nat) : ¬ Gate (tickAt start turns i) := by
  have hmod : (tickAt start turns i).toNat % 8 = start.toNat % 8 := by
    induction i with
    | zero => rfl
    | succ i ih =>
        rw [tickAt, BitVec.toNat_add]
        have hn : (turns i).ticks.toNat % 8 = 0 := by
          cases hi : turns i with
          | step => exact absurd hi (hblocks i)
          | machineBlock | otherBlock => rfl
        omega
  rw [gate_iff]
  omega

/-- One step, and then blocks that are not in machine mode. -/
def stepThenBlocks (i : Nat) : Turn := if i = 0 then .step else .otherBlock

theorem tickAt_stepThenBlocks (i : Nat) :
    tickAt 0 stepThenBlocks (i + 1) = BitVec.ofNat 64 (8 * i + 1) := by
  induction i with
  | zero => rfl
  | succ i ih =>
      rw [tickAt, ih, stepThenBlocks, if_neg i.succ_ne_zero]
      change BitVec.ofNat 64 (8 * i + 1) + BitVec.ofNat 64 8 = _
      rw [← BitVec.ofNat_add]
      congr 1

/-- From tick 0 the first multiple of 1024 is stepped over, from 1017 to 1025. -/
theorem stepThenBlocks_notPunctual :
    ¬ ∀ (start : U64) (turns : Nat → Turn), Punctual start turns := by
  intro hall
  have hroom := (punctual_iff _ _).mp (hall 0 stepThenBlocks) (127 + 1)
  have hticks : (stepThenBlocks (127 + 1)).ticks.toNat = 8 := rfl
  rw [tickAt_stepThenBlocks, hticks] at hroom
  exact absurd hroom (by decide)

/-! ### A run that is never served -/

/-- Firmware that enters user mode and jumps to itself there. -/
def userBus : Bus :=
  (Bus.new 0x1000 0x8000_0000).withWords
    [(0, 0x0100_8093_0000_0097), (8, 0x3020_0073_3410_9073), (16, 0x0000_006F)]

/-- The rounds: five step through the firmware, and the others run the block of the jump. -/
def userRounds : Nat → Option Machine
  | 0 => some (.start (.new userBus 0x8000_0000))
  | i + 1 => (userRounds i).bind (round layoutHost default ⟨[], 0⟩)

def userMachine (i : Nat) : Machine := (userRounds i).getD (.start (.new userBus 0x8000_0000))

theorem turned_user (tick : U64) :
    turned layoutHost default { userMachine 5 with tick := tick } =
      some { userMachine 5 with tick := tick + 8 } := rfl

/-- Blocks of eight ticks do not reach the gate from an odd tick. -/
theorem odd_not_gate (n : Nat) : ¬ Gate (BitVec.ofNat 64 (8 * n + 5)) := by
  rw [gate_iff, BitVec.toNat_ofNat]
  omega

theorem round_user (n : Nat) :
    round layoutHost default ⟨[], 0⟩ { userMachine 5 with tick := BitVec.ofNat 64 (8 * n + 5) } =
      some { userMachine 5 with tick := BitVec.ofNat 64 (8 * (n + 1) + 5) } := by
  have htick : BitVec.ofNat 64 (8 * n + 5) + 8 = BitVec.ofNat 64 (8 * (n + 1) + 5) := by
    change BitVec.ofNat 64 (8 * n + 5) + BitVec.ofNat 64 8 = _
    rw [← BitVec.ofNat_add]
    congr 1
  rw [round_eq, turned_user, htick, Option.map_some, serve, if_neg (odd_not_gate _)]

theorem userRounds_jump (n : Nat) :
    userRounds (n + 5) = some { userMachine 5 with tick := BitVec.ofNat 64 (8 * n + 5) } := by
  induction n with
  | zero => rfl
  | succ n ih =>
      have hnext : userRounds (n + 1 + 5) =
          (userRounds (n + 5)).bind (round layoutHost default ⟨[], 0⟩) := rfl
      rw [hnext, ih, Option.bind_some, round_user]

theorem userRounds_eq (i : Nat) : userRounds i = some (userMachine i) := by
  have hsome : (userRounds i).isSome := by
    rcases Nat.lt_or_ge i 5 with hlow | hhigh
    · exact (by decide +kernel : ∀ i < 5, (userRounds i).isSome) i hlow
    · obtain ⟨n, rfl⟩ := Nat.exists_eq_add_of_le' hhigh
      rw [userRounds_jump, Option.isSome_some]
  obtain ⟨m, hm⟩ := Option.isSome_iff_exists.mp hsome
  rw [userMachine, hm, Option.getD_some]

theorem userMachine_round (i : Nat) :
    round layoutHost default ⟨[], 0⟩ (userMachine i) = some (userMachine (i + 1)) := by
  rw [← userRounds_eq, userRounds, userRounds_eq i, Option.bind_some]

/-- The run of the loop from the start of the firmware on. -/
def userRun : LoopRun layoutHost where
  fpu _ := default
  input _ := ⟨[], 0⟩
  machine := userMachine
  round := userMachine_round

/-- The devices are never served in it. -/
theorem userRun_starves (i : Nat) : ¬ Gate (userRun.machine (i + 1)).tick := by
  rcases Nat.lt_or_ge i 4 with hlow | hhigh
  · exact (by decide +kernel : ∀ i < 4, ¬ Gate (userMachine (i + 1)).tick) i hlow
  · obtain ⟨n, rfl⟩ := Nat.exists_eq_add_of_le' hhigh
    have hat : userMachine (n + 5) = { userMachine 5 with tick := BitVec.ofNat 64 (8 * n + 5) } :=
      Option.some.inj ((userRounds_eq (n + 5)).symm.trans (userRounds_jump n))
    change ¬ Gate (userMachine (n + 5)).tick
    rw [hat]
    exact odd_not_gate n

end RiscvEmu.Jit

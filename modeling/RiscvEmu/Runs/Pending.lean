import RiscvEmu.Execution.Privilege
import RiscvEmu.Csrs.Satp
import RiscvEmu.Runs.Interleaving

/-!
# The pending bits of the timers and the external line

A service drives three bits of `mip`: the machine timer, the external line, and the supervisor
timer.  The last has a second driver, the firmware, and so a service leaves it alone while the
compare register holds all ones, the value it has from the start.  A guest that writes all ones to
disarm the timer is treated the same: the bit stays as it was.
-/

namespace RiscvEmu.Jit

open Cpu

/-- A service up to the interrupts it delivers. -/
def drive (input : Input) (c : Cpu) : Cpu :=
  let c :=
    if c.bus.uart.stdinReady then
      { c with bus := { c.bus with uart := input.stdin.foldl .pushRx c.bus.uart } }
    else c
  let clint : Clint := { c.bus.clint with mtime := c.bus.clint.mtime + input.elapsed }
  let c := { c with bus := { c.bus with clint := clint } }
  let c := setMip c 7 (decide (clint.mtimecmp ≤ clint.mtime))
  let c :=
    if c.csr.stimecmp ≠ u64Max then setMip c 5 (decide (c.csr.stimecmp ≤ clint.mtime)) else c
  let plic := (c.bus.plic.setPending 10 c.bus.uart.irqPending).setPending 1
    (decide (c.bus.virtioBlk.irqStatus ≠ 0))
  let c := { c with bus := { c.bus with plic := plic } }
  setMip c 9 plic.hasInterrupt

theorem poll_eq_drive (input : Input) (c : Cpu) :
    poll input c = (drive input c).checkInterrupts.2 := rfl

/-! ## Bits -/

/-- A bit of `mip`. -/
def mipBit (c : Cpu) (bit : Nat) : Bool := c.csr.mip.getLsbD bit

theorem getLsbD_line (bit i : Nat) :
    (1 <<< bit : U64).getLsbD i = (decide (i < 64) && decide (i = bit)) := by
  change (BitVec.ofNat 64 (1 <<< bit)).getLsbD i = _
  rw [BitVec.getLsbD_ofNat, Nat.one_shiftLeft, Nat.testBit_two_pow]
  simp [eq_comm]

theorem mipBit_setMip (c : Cpu) (bit : Nat) (active : Bool) {i : Nat} (hi : i < 64) :
    mipBit (setMip c bit active) i = if i = bit then active else mipBit c i := by
  have hset : mipBit (setMip c bit active) i =
      if active then mipBit c i || decide (i = bit) else mipBit c i && !decide (i = bit) := by
    cases active with
    | true =>
        change (c.csr.mip ||| (1 <<< bit : U64)).getLsbD i = _
        rw [BitVec.getLsbD_or, getLsbD_line, decide_eq_true hi, Bool.true_and]
        rfl
    | false =>
        change (c.csr.mip &&& ~~~(1 <<< bit : U64)).getLsbD i = _
        rw [BitVec.getLsbD_and, BitVec.getLsbD_not, getLsbD_line, decide_eq_true hi,
          Bool.true_and, Bool.true_and]
        rfl
  rw [hset]
  by_cases heq : i = bit <;> cases active <;> simp [heq]

/-- The bits are those of their sources.  That of the supervisor timer is asked for from the first
write of its compare register on. -/
structure Tracks (written : Bool) (c : Cpu) : Prop where
  mtip : mipBit c 7 = decide (c.bus.clint.mtimecmp ≤ c.bus.clint.mtime)
  seip : mipBit c 9 = c.bus.plic.hasInterrupt
  stip : written = true → mipBit c 5 = decide (c.csr.stimecmp ≤ c.bus.clint.mtime)

/-- The compare register was not written, or does not hold all ones, or the bit already is what the
service should make it. -/
def Settled (written : Bool) (input : Input) (c : Cpu) : Prop :=
  written = true → c.csr.stimecmp = u64Max →
    mipBit c 5 = decide (c.bus.clint.mtime + input.elapsed = u64Max)

theorem u64Max_le_iff (v : U64) : u64Max ≤ v ↔ v = u64Max := by
  rw [BitVec.le_def, ← BitVec.toNat_inj]
  have hmax : u64Max.toNat = 2 ^ 64 - 1 := rfl
  have hlt := v.isLt
  omega

/-- What a service makes of the bits, the timer and the compare registers. -/
theorem drive_spec (input : Input) (c : Cpu) :
    mipBit (drive input c) 7 =
        decide (c.bus.clint.mtimecmp ≤ c.bus.clint.mtime + input.elapsed) ∧
      mipBit (drive input c) 9 = (drive input c).bus.plic.hasInterrupt ∧
      mipBit (drive input c) 5 =
        (if c.csr.stimecmp = u64Max then mipBit c 5
          else decide (c.csr.stimecmp ≤ c.bus.clint.mtime + input.elapsed)) ∧
      (drive input c).bus.clint =
        { c.bus.clint with mtime := c.bus.clint.mtime + input.elapsed } ∧
      (drive input c).csr.stimecmp = c.csr.stimecmp := by
  unfold drive
  extract_lets b rx _ clint _ timed mtip stip plic _ lines
  have hrx : rx.bus.clint = c.bus.clint ∧ rx.csr = c.csr := by
    unfold rx
    split <;> exact ⟨rfl, rfl⟩
  have hstimecmp : mtip.csr.stimecmp = c.csr.stimecmp := by
    change rx.csr.stimecmp = _
    rw [hrx.2]
  have hmtip : ∀ {i : Nat}, i < 64 → mipBit mtip i =
      if i = 7 then decide (clint.mtimecmp ≤ clint.mtime) else mipBit c i := by
    intro i hi
    rw [mipBit_setMip _ _ _ hi]
    change (if i = 7 then _ else rx.csr.mip.getLsbD i) = _
    rw [hrx.2]
    rfl
  have hclint : clint = { c.bus.clint with mtime := c.bus.clint.mtime + input.elapsed } := by
    change { rx.bus.clint with mtime := rx.bus.clint.mtime + input.elapsed } = _
    rw [hrx.1]
  have hstip : ∀ {i : Nat}, i < 64 → mipBit stip i =
      if i = 5 ∧ c.csr.stimecmp ≠ u64Max then decide (c.csr.stimecmp ≤ clint.mtime)
      else mipBit mtip i := by
    intro i hi
    unfold stip
    by_cases hmax : mtip.csr.stimecmp = u64Max
    · rw [if_neg (not_not.mpr hmax), if_neg fun h => h.2 (hstimecmp ▸ hmax)]
    · rw [if_pos hmax, mipBit_setMip _ _ _ hi, hstimecmp]
      rw [hstimecmp] at hmax
      simp only [hmax, ne_eq, not_false_eq_true, and_true]
  have hkeep : stip.bus.clint = clint ∧ stip.csr.stimecmp = c.csr.stimecmp := by
    unfold stip
    split
    · exact ⟨rfl, hstimecmp⟩
    · exact ⟨rfl, hstimecmp⟩
  have hlines : ∀ {i : Nat}, i < 64 → mipBit (setMip lines 9 plic.hasInterrupt) i =
      if i = 9 then plic.hasInterrupt else mipBit stip i := fun hi => mipBit_setMip lines 9 _ hi
  refine ⟨?_, ?_, ?_, ?_, hkeep.2⟩
  · rw [hlines (by decide), if_neg (by decide), hstip (by decide), if_neg fun h => by simp at h,
      hmtip (by decide), if_pos rfl, hclint]
  · rw [hlines (by decide), if_pos rfl]
    rfl
  · rw [hlines (by decide), if_neg (by decide), hstip (by decide), hmtip (by decide), hclint]
    by_cases hmax : c.csr.stimecmp = u64Max
    · rw [if_neg fun h => h.2 hmax, if_pos hmax, if_neg (by decide)]
    · rw [if_pos ⟨rfl, hmax⟩, if_neg hmax]
  · exact hkeep.1.trans hclint

/-- After a service the bits track their sources exactly when the supervisor timer was settled. -/
theorem tracks_drive_iff (written : Bool) (input : Input) (c : Cpu) :
    Tracks written (drive input c) ↔ Settled written input c := by
  obtain ⟨hmtip, hseip, hstip, hclint, hstimecmp⟩ := drive_spec input c
  constructor
  · intro h hwritten hmax
    have hbit := h.stip hwritten
    rw [hstip, hclint, hstimecmp, if_pos hmax, hmax] at hbit
    rw [hbit]
    exact decide_eq_decide.mpr (u64Max_le_iff _)
  · intro h
    refine ⟨?_, hseip, fun hwritten => ?_⟩
    · rw [hmtip, hclint]
    · rw [hstip, hclint, hstimecmp]
      split
      · rename_i hmax
        rw [h hwritten hmax, hmax]
        exact decide_eq_decide.mpr (u64Max_le_iff _).symm
      · rfl

/-! ## Runs -/

/-- The guest writes the compare register of the supervisor timer. -/
def writesStimecmp (m : Machine) (a : Action) : Bool :=
  match a with
  | .csrWrite addr _ => decide (addr = 0x14D)
  | .step _ =>
      match m.cpu.fetched with
      | some (.csr op _ src csr, _) => decide (csr = 0x14D ∧ writesCsr op src)
      | _ => false
  | _ => false

/-- The interleavings, with whether the guest has written the compare register. -/
def timedRuns (h : Host) (bus : Bus) (entry : U64) : System (Bool × Machine) Action :=
  (interleavings h bus entry).recording writesStimecmp

/-- If the step is a service, the bits track their sources before its interrupts are taken. -/
def TracksAt (s : Bool × Machine) (a : Action) : Prop :=
  ∀ input, a = .poll input → Tracks s.1 (drive input s.2.cpu)

/-- If the step is a service, the supervisor timer is settled before it. -/
def SettledAt (s : Bool × Machine) (a : Action) : Prop :=
  ∀ input, a = .poll input → Settled s.1 input s.2.cpu

/-- In any run, the bits track their sources at every service exactly when the supervisor timer was
settled before each.  A service takes the interrupts after it has driven the bits. -/
theorem tracks_along_iff (h : Host) (bus : Bus) (entry : U64) (actions : List Action) :
    ((timedRuns h bus entry).Along TracksAt actions (false, .start (.new bus entry)) ↔
      (timedRuns h bus entry).Along SettledAt actions (false, .start (.new bus entry))) ∧
      ∀ input c, poll input c = (drive input c).checkInterrupts.2 := by
  refine ⟨System.along_congr ?_ actions _, poll_eq_drive⟩
  intro s a
  constructor
  · intro htracks input ha
    exact (tracks_drive_iff _ _ _).mp (htracks input ha)
  · intro hsettled input ha
    exact (tracks_drive_iff _ _ _).mpr (hsettled input ha)

/-- The guest arms the supervisor timer for a time that has come, and disarms it with all ones after
the bit was set: the bit stays. -/
theorem disarm_keepsPending :
    ¬ ∀ (h : Host) (bus : Bus) (entry : U64) (actions : List Action),
      (timedRuns h bus entry).Along TracksAt actions (false, .start (.new bus entry)) := by
  intro hall
  obtain ⟨-, hrun⟩ := hall layoutHost (.new 0x1000 0x8000_0000) 0x8000_0000
    [.csrWrite 0x14D 0, .poll ⟨[], 1⟩, .csrWrite 0x14D u64Max, .poll ⟨[], 1⟩]
  obtain ⟨-, hrun⟩ := hrun _ rfl
  obtain ⟨-, hrun⟩ := hrun _ rfl
  have hbit := ((hrun _ rfl).1 ⟨[], 1⟩ rfl).stip rfl
  exact absurd hbit (by decide +kernel)

end RiscvEmu.Jit

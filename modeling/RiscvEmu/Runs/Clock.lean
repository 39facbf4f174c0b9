import RiscvEmu.Jit.Loop

/-!
# The clock of the guest

A service reads the clock of the host and advances the timer by one for every 100 nanoseconds since
the reading the timer was last advanced at.  What is left over of that time is dropped, so the timer
falls behind by the remainders of the gaps between the readings that advance it.
-/

namespace RiscvEmu.Jit

/-- The timer, and the reading of the clock it was last advanced at, in nanoseconds. -/
structure Clock where
  mtime : U64
  lastClintTick : Nat

namespace Clock

/-- The advance at a reading.  The elapsed time is cut off to 64 bits. -/
def advance (c : Clock) (now : Nat) : U64 := BitVec.ofNat 64 (now - c.lastClintTick) / 100

/-- The clock after a service. -/
def pass (c : Clock) (now : Nat) : Clock :=
  if 0 < c.advance now then ⟨c.mtime + c.advance now, now⟩ else c

/-- The clock after the services at some readings. -/
def passes (c : Clock) (readings : List Nat) : Clock := readings.foldl pass c

/-- What the services at some readings add to the timer. -/
def added (c : Clock) : List Nat → Nat
  | [] => 0
  | now :: rest => (c.advance now).toNat + (c.pass now).added rest

theorem advance_toNat (c : Clock) (now : Nat) :
    (c.advance now).toNat = (now - c.lastClintTick) % 2 ^ 64 / 100 := by
  rw [advance, BitVec.toNat_udiv, BitVec.toNat_ofNat]
  rfl

theorem pass_of_pos {c : Clock} {now : Nat} (h : 100 ≤ (now - c.lastClintTick) % 2 ^ 64) :
    c.pass now = ⟨c.mtime + c.advance now, now⟩ := by
  rw [pass, if_pos]
  rw [BitVec.lt_def, advance_toNat]
  change 0 < _
  omega

theorem pass_lastClintTick {c : Clock} {now : Nat}
    (h : 100 ≤ (now - c.lastClintTick) % 2 ^ 64) : (c.pass now).lastClintTick = now := by
  rw [pass_of_pos h]

theorem pass_of_zero {c : Clock} {now : Nat} (h : (now - c.lastClintTick) % 2 ^ 64 < 100) :
    c.pass now = c := by
  rw [pass, if_neg]
  rw [BitVec.lt_def, advance_toNat]
  change ¬ 0 < _
  omega

/-- A service adds its advance to the timer, also when that is zero. -/
theorem pass_mtime (c : Clock) (now : Nat) : (c.pass now).mtime = c.mtime + c.advance now := by
  by_cases hpos : 100 ≤ (now - c.lastClintTick) % 2 ^ 64
  · rw [pass_of_pos hpos]
  · have hzero : c.advance now = 0 := by
      apply BitVec.eq_of_toNat_eq
      rw [advance_toNat]
      change _ = 0
      omega
    rw [pass_of_zero (by omega), hzero, BitVec.ofNat_eq_ofNat, BitVec.add_zero]

/-- The services add to the timer what they say, and the timer wraps. -/
theorem passes_mtime (c : Clock) (readings : List Nat) :
    (c.passes readings).mtime = c.mtime + BitVec.ofNat 64 (c.added readings) := by
  induction readings generalizing c with
  | nil => simp [passes, added]
  | cons now rest ih =>
      change ((c.pass now).passes rest).mtime = _
      rw [ih, pass_mtime, added, BitVec.ofNat_add, BitVec.ofNat_toNat, BitVec.setWidth_eq,
        BitVec.add_assoc]

/-! ## Remainders -/

/-- The gaps between the readings that advance the timer: each lies 100 nanoseconds or more behind
the one before. -/
def gaps (ref : Nat) : List Nat → List Nat
  | [] => []
  | now :: rest => if 100 ≤ now - ref then (now - ref) :: gaps now rest else gaps ref rest

/-- The last of the readings that advance the timer. -/
def lastRef (ref : Nat) : List Nat → Nat
  | [] => ref
  | now :: rest => if 100 ≤ now - ref then lastRef now rest else lastRef ref rest

/-- No gap needs more than 64 bits, and the remainders of the gaps and the time behind the last of
them come to less than a tick. -/
def NothingLost (start : Nat) (readings : List Nat) : Prop :=
  (∀ g ∈ gaps start readings, g < 2 ^ 64) ∧
    ((gaps start readings).map (· % 100)).sum +
      (readings.getLastD start - lastRef start readings) < 100

instance (start : Nat) (readings : List Nat) : Decidable (NothingLost start readings) :=
  inferInstanceAs (Decidable (_ ∧ _))

/-- While the gaps fit, every nanosecond is added, is part of a remainder, or lies behind the last
gap. -/
theorem added_balance (c : Clock) (readings : List Nat) (d : Nat) (hd : c.lastClintTick ≤ d)
    (hsorted : (d :: readings).IsChain (· ≤ ·))
    (hfit : ∀ g ∈ gaps c.lastClintTick readings, g < 2 ^ 64) :
    lastRef c.lastClintTick readings ≤ readings.getLastD d ∧
      c.lastClintTick + 100 * c.added readings +
        ((gaps c.lastClintTick readings).map (· % 100)).sum = lastRef c.lastClintTick readings := by
  induction readings generalizing c d with
  | nil => simpa [added, gaps, lastRef] using hd
  | cons now rest ih =>
      obtain ⟨hdnow, hrest⟩ := List.isChain_cons_cons.mp hsorted
      rw [gaps] at hfit
      rw [gaps, lastRef, added, advance_toNat, List.getLastD_cons]
      by_cases hgap : 100 ≤ now - c.lastClintTick
      · rw [if_pos hgap] at hfit
        have hg := hfit _ List.mem_cons_self
        have hmod : (now - c.lastClintTick) % 2 ^ 64 = now - c.lastClintTick := Nat.mod_eq_of_lt hg
        have hpass : (c.pass now).lastClintTick = now := pass_lastClintTick (by omega)
        obtain ⟨hlast, hsum⟩ := ih (c.pass now) now (Nat.le_of_eq hpass) hrest (by
          rw [hpass]
          exact fun g hmem => hfit g (List.mem_cons_of_mem _ hmem))
        rw [hpass] at hlast hsum
        rw [if_pos hgap, if_pos hgap, hmod, List.map_cons, List.sum_cons]
        refine ⟨hlast, ?_⟩
        omega
      · rw [if_neg hgap] at hfit
        have hpass : c.pass now = c := pass_of_zero (by omega)
        obtain ⟨hlast, hsum⟩ := ih c now (Nat.le_trans hd hdnow) hrest hfit
        rw [if_neg hgap, if_neg hgap, hpass]
        refine ⟨hlast, ?_⟩
        omega

/-- The timer never runs ahead. -/
theorem added_le (c : Clock) (readings : List Nat) (d : Nat) (hd : c.lastClintTick ≤ d)
    (hsorted : (d :: readings).IsChain (· ≤ ·)) :
    c.lastClintTick + 100 * c.added readings ≤ readings.getLastD d := by
  induction readings generalizing c d with
  | nil => simpa [added] using hd
  | cons now rest ih =>
      obtain ⟨hdnow, hrest⟩ := List.isChain_cons_cons.mp hsorted
      rw [added, advance_toNat, List.getLastD_cons]
      by_cases hgap : 100 ≤ (now - c.lastClintTick) % 2 ^ 64
      · have hpass := pass_lastClintTick hgap
        have hle := ih (c.pass now) now (Nat.le_of_eq hpass) hrest
        rw [hpass] at hle
        have hmod := Nat.mod_le (now - c.lastClintTick) (2 ^ 64)
        omega
      · have hle := ih c now (Nat.le_trans hd hdnow) hrest
        rw [pass_of_zero (by omega)]
        omega

/-- A reading 2 ^ 64 nanoseconds behind the reference leaves the timer behind for good. -/
theorem added_of_far (c : Clock) (readings : List Nat) (d : Nat)
    (hfar : c.lastClintTick + 2 ^ 64 ≤ d) (hsorted : (d :: readings).IsChain (· ≤ ·)) :
    c.lastClintTick + 100 * c.added readings + 100 ≤ readings.getLastD d := by
  induction readings generalizing d with
  | nil =>
      simp only [added, List.getLastD_nil]
      omega
  | cons now rest ih =>
      obtain ⟨hdnow, hrest⟩ := List.isChain_cons_cons.mp hsorted
      rw [added, advance_toNat, List.getLastD_cons]
      by_cases hgap : 100 ≤ (now - c.lastClintTick) % 2 ^ 64
      · have hpass := pass_lastClintTick hgap
        have hle := added_le (c.pass now) rest now (Nat.le_of_eq hpass) hrest
        rw [hpass] at hle
        omega
      · have hle := ih now (by omega) hrest
        rw [pass_of_zero (by omega)]
        omega

/-- So does a gap that needs more than 64 bits. -/
theorem added_of_gap (c : Clock) (readings : List Nat) (d : Nat) (hd : c.lastClintTick ≤ d)
    (hsorted : (d :: readings).IsChain (· ≤ ·)) {g : Nat}
    (hg : g ∈ gaps c.lastClintTick readings) (hbig : 2 ^ 64 ≤ g) :
    c.lastClintTick + 100 * c.added readings + 100 ≤ readings.getLastD d := by
  induction readings generalizing c d with
  | nil => cases hg
  | cons now rest ih =>
      obtain ⟨hdnow, hrest⟩ := List.isChain_cons_cons.mp hsorted
      by_cases hfar : c.lastClintTick + 2 ^ 64 ≤ now
      · have hchain : (now :: now :: rest).IsChain (· ≤ ·) :=
          List.isChain_cons_cons.mpr ⟨Nat.le_refl now, hrest⟩
        exact added_of_far c (now :: rest) now hfar hchain
      · rw [gaps] at hg
        rw [added, advance_toNat, List.getLastD_cons]
        have hmod : (now - c.lastClintTick) % 2 ^ 64 = now - c.lastClintTick :=
          Nat.mod_eq_of_lt (by omega)
        by_cases hgap : 100 ≤ now - c.lastClintTick
        · rw [if_pos hgap] at hg
          have hpass : (c.pass now).lastClintTick = now := pass_lastClintTick (by omega)
          rcases List.mem_cons.mp hg with rfl | hmem
          · omega
          · have hle := ih (c.pass now) now (Nat.le_of_eq hpass) hrest (by rwa [hpass])
            rw [hpass] at hle
            omega
        · rw [if_neg hgap] at hg
          have hle := ih c now (Nat.le_trans hd hdnow) hrest hg
          rw [pass_of_zero (by omega)]
          omega

/-- The total is exact when nothing is lost, and only then. -/
theorem added_iff (c : Clock) (readings : List Nat)
    (hsorted : (c.lastClintTick :: readings).IsChain (· ≤ ·)) :
    c.added readings = (readings.getLastD c.lastClintTick - c.lastClintTick) / 100 ↔
      NothingLost c.lastClintTick readings := by
  have hstart : c.lastClintTick ≤ c.lastClintTick := Nat.le_refl _
  rw [NothingLost]
  by_cases hfit : ∀ g ∈ gaps c.lastClintTick readings, g < 2 ^ 64
  · obtain ⟨hlast, hsum⟩ := added_balance c readings _ hstart hsorted hfit
    rw [and_iff_right hfit]
    omega
  · refine iff_of_false ?_ fun h => hfit h.1
    obtain ⟨g, hg, hbig⟩ : ∃ g ∈ gaps c.lastClintTick readings, ¬ g < 2 ^ 64 := by
      by_contra hnone
      exact hfit fun g hg => by_contra fun hbig => hnone ⟨g, hg, hbig⟩
    have hle := added_of_gap c readings _ hstart hsorted hg (Nat.le_of_not_lt hbig)
    omega

end Clock

/-! ## The loop -/

theorem checkInterrupts_bus (c : Cpu) : c.checkInterrupts.2.bus = c.bus := by
  rw [Cpu.checkInterrupts]
  split
  · rw [Cpu.deliverTrap]
    split <;> rfl
  · rfl

/-- A service whose elapsed time is the advance of the clock leaves the timer of the clock. -/
theorem poll_mtime (clock : Clock) (stdin : List U8) (now : Nat) (c : Cpu)
    (hmtime : c.bus.clint.mtime = clock.mtime) :
    (poll ⟨stdin, clock.advance now⟩ c).bus.clint.mtime = (clock.pass now).mtime := by
  rw [clock.pass_mtime]
  unfold poll
  extract_lets b rx _ clint _ timed mtip stip plic _ lines seip
  have hstip : stip.bus = mtip.bus := by
    unfold stip
    split <;> rfl
  have hrx : rx.bus.clint = c.bus.clint := by
    unfold rx
    split <;> rfl
  rw [checkInterrupts_bus]
  change stip.bus.clint.mtime = _
  rw [hstip]
  change rx.bus.clint.mtime + clock.advance now = _
  rw [hrx, hmtime]

/-- For any start and any readings that do not go back, the services add a tick for every 100
nanoseconds from the start exactly when nothing is lost.  The timer of the loop is the timer of the
clock, and the total is what is added to it. -/
theorem clock_iff (clock : Clock) (readings : List Nat)
    (hsorted : (clock.lastClintTick :: readings).IsChain (· ≤ ·)) :
    (clock.added readings =
        (readings.getLastD clock.lastClintTick - clock.lastClintTick) / 100 ↔
      Clock.NothingLost clock.lastClintTick readings) ∧
      (clock.passes readings).mtime = clock.mtime + BitVec.ofNat 64 (clock.added readings) ∧
      ∀ (c : Cpu) (stdin : List U8) (now : Nat), c.bus.clint.mtime = clock.mtime →
        (poll ⟨stdin, clock.advance now⟩ c).bus.clint.mtime = (clock.pass now).mtime :=
  ⟨clock.added_iff readings hsorted, clock.passes_mtime readings,
    fun c stdin now => poll_mtime clock stdin now c⟩

/-- Readings on the tick: nothing is lost. -/
theorem clock_exact : (Clock.mk 0 0).added [100, 300, 350] = 3 :=
  (clock_iff ⟨0, 0⟩ [100, 300, 350] (by decide)).1.mpr (by decide)

/-- Services every 150 nanoseconds lose half a tick each: 300 nanoseconds add two ticks. -/
theorem clock_drifts :
    ¬ ∀ (clock : Clock) (readings : List Nat),
      (clock.lastClintTick :: readings).IsChain (· ≤ ·) →
        clock.added readings =
          (readings.getLastD clock.lastClintTick - clock.lastClintTick) / 100 := by
  intro hall
  exact absurd (hall ⟨0, 0⟩ [150, 300] (by decide)) (by decide)

end RiscvEmu.Jit

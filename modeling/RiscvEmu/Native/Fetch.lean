import RiscvEmu.Execution.Causes
import RiscvEmu.Native.Blocks

/-!
# The encodings the compiler fetches

A step fetches an instruction by halves, and translates the second half on its own at the end of a
page.  The compiler reads four bytes at the address of the first half.  It decodes what a step would
fetch, unless the halves of an instruction it has code for lie apart, and the place of the second
half does not hold the two bytes that lie behind the first one (`fetchAgrees_iff`).  On adjacent
frames it always does (`fetchAgrees_of_adjacent`).
-/

namespace RiscvEmu.Jit

open Cpu (translateOrTrap busLoad)

variable {h : Host} {c c' c₁ c₂ : Cpu} {mode : PrivMode} {pc pa v : U64} {raw4 : U32}

/-- The bits of an encoding that the compiler decodes. -/
def bitsOf (raw4 : U32) : U32 :=
  if raw4 &&& 0x3 ≠ 0x3 then (raw4.setWidth 16).setWidth 32 else raw4

/-- The second half of an encoding. -/
def highHalf (raw4 : U32) : U16 := (raw4 >>> 16).setWidth 16

/-- The encoding with the given halves. -/
def joinHalves (lo hi : U16) : U32 := lo.setWidth 32 ||| (hi.setWidth 32 <<< 16)

/-- The compiler keeps an instruction at an address, or it ends the block there: what it decodes is
what a step would fetch. -/
def FetchAgrees (h : Host) (c : Cpu) (pc : U64) : Prop :=
  ∀ raw4 c', fetchRaw pc c = some (.ok raw4, c') → Handled h pc raw4 →
    ∃ c'', Cpu.fetch c.mode pc c = some (.ok (bitsOf raw4), c'')

/-- The place of the second half of an instruction.  At the end of a page it is on the next page. -/
def secondPlace (mode : PrivMode) (pc pa : U64) : Run Cpu Trap U64 :=
  if pc &&& 0xfff = 0xffe then translateOrTrap mode (pc + 2) .fetch else pure (pa + 2)

/-- The second half of an instruction, as a step reads it after the first one. -/
def nextHalf (mode : PrivMode) (pc pa : U64) : Run Cpu Trap U16 := do
  let paHi ← secondPlace mode pc pa
  let hi ← busLoad paHi .b2 ⟨1, pc + 2⟩
  pure (hi.setWidth 16)

/-- The halfword that a place of the bus holds. -/
def halfAt (b : Bus) (pa : U64) : Option U16 :=
  match Bus.load pa .b2 b with
  | some (.ok v, _) => some (v.setWidth 16)
  | _ => none

/-- The two bytes that lie behind a halfword: the next ones of RAM, or the upper half of the
register of a device. -/
def halfBehind (b : Bus) (pa : U64) : Option U16 :=
  match region pa with
  | .ram =>
      match b.offset (pa + 2) .b2 with
      | .ok off => some ((Bytes.readLe b.ram.byte off 2).setWidth 16)
      | .error _ => none
  | _ =>
      match Bus.load pa .b4 b with
      | some (.ok v, _) => some (highHalf (v.setWidth 32))
      | _ => none

/-- The halves of an instruction lie apart: on two pages, or not together in RAM. -/
def Apart (pc pa : U64) : Prop :=
  pc &&& 0xfff = 0xffe ∨ region pa ≠ .ram ∨ region (pa + 2) ≠ .ram

/-- The second half of an instruction has a place, and this holds what lies behind the first half.
The first half was read in `c₁`, which left `c₂`. -/
def Meets (mode : PrivMode) (pc pa : U64) (c₁ c₂ : Cpu) : Prop :=
  ∃ pa' c₃, secondPlace mode pc pa c₂ = some (.ok pa', c₃) ∧
    halfAt c₃.bus pa' = halfBehind c₁.bus pa

/-- Where the halves of an instruction the compiler has code for lie apart, the place of the second
one holds what lies behind the first. -/
def HalvesMeet (h : Host) (c : Cpu) (pc : U64) : Prop :=
  ∀ pa c₁ v c₂, translateOrTrap c.mode pc .fetch c = some (.ok pa, c₁) →
    busLoad pa .b4 ⟨1, pc⟩ c₁ = some (.ok v, c₂) →
    Handled h pc (v.setWidth 32) → (v.setWidth 32 : U32) &&& 0x3 = 0x3 → Apart pc pa →
    Meets c.mode pc pa c₁ c₂

/-! ## Halves of a word -/

theorem joinHalves_halves (raw4 : U32) : joinHalves (raw4.setWidth 16) (highHalf raw4) = raw4 := by
  apply BitVec.eq_of_getLsbD_eq
  intro i hi
  rw [joinHalves, highHalf, BitVec.getLsbD_or, BitVec.getLsbD_shiftLeft]
  simp only [BitVec.getLsbD_setWidth, BitVec.getLsbD_ushiftRight, hi, decide_true, Bool.true_and]
  by_cases hlow : i < 16
  · simp [hlow]
  · have hadd : 16 + (i - 16) = i := by omega
    simp [hlow, hadd, show i - 16 < 16 by omega, show i - 16 < 32 by omega]

theorem highHalf_join (lo hi : U16) : highHalf (joinHalves lo hi) = hi := by
  apply BitVec.eq_of_getLsbD_eq
  intro i hlt
  rw [highHalf, joinHalves]
  simp only [BitVec.getLsbD_setWidth, BitVec.getLsbD_ushiftRight, BitVec.getLsbD_or,
    BitVec.getLsbD_shiftLeft, hlt, decide_true, Bool.true_and]
  simp [show 16 + i < 32 by omega, show i < 32 by omega]

/-- The low half tells a compressed encoding. -/
theorem lowHalf_quadrant (raw4 : U32) :
    (raw4.setWidth 16 : U16) &&& 0x3 = 0x3 ↔ raw4 &&& 0x3 = 0x3 := by
  have hmask : ∀ n : Nat, n &&& 3 = n % 4 := fun n => Nat.and_two_pow_sub_one_eq_mod n 2
  rw [← BitVec.toNat_inj, ← BitVec.toNat_inj, BitVec.toNat_and, BitVec.toNat_and,
    BitVec.toNat_setWidth]
  change raw4.toNat % 2 ^ 16 &&& 3 = 3 ↔ raw4.toNat &&& 3 = 3
  rw [hmask, hmask]
  omega

/-- A narrower load from the same address reads the low half of the value. -/
theorem load_narrow {b b' : Bus} (hload : Bus.load pa .b4 b = some (.ok v, b')) :
    ∃ v', Bus.load pa .b2 b = some (.ok v', b') ∧
      v'.setWidth 16 = (v.setWidth 32).setWidth 16 := by
  have hwide : ∀ u : U64, u.setWidth 16 = (u.setWidth 32).setWidth 16 := fun u =>
    (BitVec.setWidth_setWidth_of_le u (by decide)).symm
  cases hr : region pa with
  | clint =>
      rw [Bus.load_clint _ b hr] at hload ⊢
      cases hload
      exact ⟨_, rfl, hwide _⟩
  | plic =>
      rw [Bus.load_plic _ b hr] at hload ⊢
      cases hload
      exact ⟨_, rfl, hwide _⟩
  | uart =>
      rw [Bus.load_uart _ b hr] at hload ⊢
      cases hload
      exact ⟨_, rfl, hwide _⟩
  | virtioBlk =>
      rw [Bus.load_virtioBlk _ b hr] at hload ⊢
      cases hload
      exact ⟨_, rfl, hwide _⟩
  | ram =>
      cases ho : b.offset pa .b4 with
      | error e => rw [Bus.load_ram_error hr ho] at hload; cases hload
      | ok off =>
          rw [Bus.load_ram hr ho] at hload
          cases hload
          have ho' : b.offset pa .b2 = .ok off := by
            have hpart := Bus.offset_within ho (u := .b2) (i := 0) (by decide)
            rwa [BitVec.add_zero, Nat.add_zero] at hpart
          refine ⟨_, Bus.load_ram hr ho', ?_⟩
          rw [← hwide]
          apply BitVec.eq_of_getLsbD_eq
          intro i hi
          rw [BitVec.getLsbD_setWidth, BitVec.getLsbD_setWidth]
          rw [Bytes.getLsbD_readLe _ _ (by decide) hi,
            Bytes.getLsbD_readLe _ _ (by decide) (show i < 8 * Width.b4.bytes by
              rw [show Width.b4.bytes = 4 from rfl]; omega)]

/-- The second half of a word of RAM is read behind the first one. -/
theorem readLe_high (ram : Nat → BitVec 8) (off : Nat) :
    ((Bytes.readLe ram (off + 2) 2).setWidth 16 : U16) =
      highHalf ((Bytes.readLe ram off 4).setWidth 32) := by
  apply BitVec.eq_of_getLsbD_eq
  intro i hi
  rw [highHalf]
  simp only [BitVec.getLsbD_setWidth, BitVec.getLsbD_ushiftRight, hi, decide_true, Bool.true_and,
    show 16 + i < 32 by omega]
  rw [Bytes.getLsbD_readLe _ _ (by decide) (show i < 8 * 2 by omega),
    Bytes.getLsbD_readLe _ _ (by decide) (show 16 + i < 8 * 4 by omega)]
  rw [show off + 2 + i / 8 = off + (16 + i) / 8 by omega, show i % 8 = (16 + i) % 8 by omega]

/-- In RAM the halfword after the first one is the second half of the word. -/
theorem load_high {b b' : Bus} (hr : region pa = .ram) (hr' : region (pa + 2) = .ram)
    (hload : Bus.load pa .b4 b = some (.ok v, b')) :
    ∃ v', Bus.load (pa + 2) .b2 b' = some (.ok v', b') ∧
      v'.setWidth 16 = highHalf (v.setWidth 32) := by
  cases ho : b.offset pa .b4 with
  | error e => rw [Bus.load_ram_error hr ho] at hload; cases hload
  | ok off =>
      rw [Bus.load_ram hr ho] at hload
      cases hload
      have ho' : b.offset (pa + 2) .b2 = .ok (off + 2) :=
        Bus.offset_within ho (u := .b2) (i := 2) (by decide)
      exact ⟨_, Bus.load_ram hr' ho', readLe_high _ _⟩

/-- What lies behind the first half of a word is its second half. -/
theorem halfBehind_of_load {b b' : Bus} (hload : Bus.load pa .b4 b = some (.ok v, b')) :
    halfBehind b pa = some (highHalf (v.setWidth 32)) := by
  rw [halfBehind]
  cases hr : region pa with
  | ram =>
      cases ho : b.offset pa .b4 with
      | error e => rw [Bus.load_ram_error hr ho] at hload; cases hload
      | ok off =>
          rw [Bus.load_ram hr ho] at hload
          cases hload
          have ho' : b.offset (pa + 2) .b2 = .ok (off + 2) :=
            Bus.offset_within ho (u := .b2) (i := 2) (by decide)
          simp only [ho']
          exact congrArg some (readLe_high _ _)
  | clint => simp only [hload]
  | plic => simp only [hload]
  | uart => simp only [hload]
  | virtioBlk => simp only [hload]

theorem halfAt_eq_some {b : Bus} {hi16 : U16} :
    halfAt b pa = some hi16 ↔
      ∃ v b', Bus.load pa .b2 b = some (.ok v, b') ∧ v.setWidth 16 = hi16 := by
  rw [halfAt]
  constructor
  · intro h
    split at h
    · rename_i v b' hload
      exact ⟨v, b', hload, Option.some.inj h⟩
    · cases h
  · rintro ⟨v, b', hload, rfl⟩
    rw [hload]

/-! ## Fetches -/

/-- A fetch of the compiler is a translation and a load. -/
theorem fetchRaw_ok (hfetch : fetchRaw pc c = some (.ok raw4, c')) :
    ∃ pa c₁ v, translateOrTrap c.mode pc .fetch c = some (.ok pa, c₁) ∧
      busLoad pa .b4 ⟨1, pc⟩ c₁ = some (.ok v, c') ∧ raw4 = v.setWidth 32 := by
  obtain ⟨pa, c₁, htranslate, hrest⟩ := Run.bind_eq_ok hfetch
  obtain ⟨v, c₂, hload, hpure⟩ := Run.bind_eq_ok hrest
  cases hpure
  exact ⟨pa, c₁, v, htranslate, hload, rfl⟩

theorem fetchRaw_of (htranslate : translateOrTrap c.mode pc .fetch c = some (.ok pa, c₁))
    (hload : busLoad pa .b4 ⟨1, pc⟩ c₁ = some (.ok v, c₂)) :
    fetchRaw pc c = some (.ok (v.setWidth 32), c₂) := by
  rw [fetchRaw, Run.bind_ok htranslate, Run.bind_ok hload]
  rfl

theorem busLoad_of {b : Bus} {width : Width} {trap : Trap}
    (hbus : Bus.load pa width c.bus = some (.ok v, b)) :
    busLoad pa width trap c = some (.ok v, { c with bus := b }) := Run.zoom_of_some hbus

/-- A step reads the first half at the same address, and then the second one. -/
theorem fetch_eq (htranslate : translateOrTrap mode pc .fetch c = some (.ok pa, c₁))
    (hload : busLoad pa .b4 ⟨1, pc⟩ c₁ = some (.ok v, c₂)) :
    Cpu.fetch mode pc c =
      if (v.setWidth 32 : U32) &&& 0x3 ≠ 0x3 then
        some (.ok (((v.setWidth 32).setWidth 16).setWidth 32), c₂)
      else
        (do
          let hi16 ← nextHalf mode pc pa
          pure (joinHalves ((v.setWidth 32).setWidth 16) hi16) : Run Cpu Trap U32) c₂ := by
  obtain ⟨r, b, hbus, hr, rfl⟩ := Run.zoom_eq_some hload
  cases r with
  | error e => cases hr
  | ok v₀ =>
      cases hr
      obtain ⟨v', hnarrow, hlow⟩ := load_narrow hbus
      rw [Cpu.fetch, Run.bind_ok htranslate, Run.bind_ok (busLoad_of hnarrow), hlow]
      by_cases hquad : (v.setWidth 32 : U32) &&& 0x3 = 0x3
      · have hlo := (lowHalf_quadrant _).mpr hquad
        rw [if_neg (not_not.mpr hlo), if_neg (not_not.mpr hquad), nextHalf, secondPlace]
        split <;> simp only [Run.bind_bind] <;> rfl
      · have hlo := mt (lowHalf_quadrant _).mp hquad
        rw [if_pos hlo, if_pos hquad]
        rfl

/-- Halves that lie together in RAM meet. -/
theorem nextHalf_together (hapart : ¬ Apart pc pa)
    (hload : busLoad pa .b4 ⟨1, pc⟩ c₁ = some (.ok v, c₂)) :
    ∃ c₃, nextHalf mode pc pa c₂ = some (.ok (highHalf (v.setWidth 32)), c₃) := by
  simp only [Apart, not_or, not_not] at hapart
  obtain ⟨hpage, hr, hr'⟩ := hapart
  obtain ⟨r, b, hbus, hok, rfl⟩ := Run.zoom_eq_some hload
  cases r with
  | error e => cases hok
  | ok v₀ =>
      cases hok
      obtain ⟨v', hhigh, heq⟩ := load_high hr hr' hbus
      refine ⟨{ c₁ with bus := b }, ?_⟩
      rw [nextHalf, secondPlace, if_neg hpage]
      refine (Run.bind_ok (Run.pure_apply _ _)).trans ?_
      refine (Run.bind_ok (busLoad_of (c := { c₁ with bus := b }) hhigh)).trans ?_
      rw [heq]
      rfl

/-- A step fetches the encoding the compiler decodes, exactly when the halves meet. -/
theorem fetches_iff (htranslate : translateOrTrap mode pc .fetch c = some (.ok pa, c₁))
    (hload : busLoad pa .b4 ⟨1, pc⟩ c₁ = some (.ok v, c₂)) :
    (∃ c', Cpu.fetch mode pc c = some (.ok (bitsOf (v.setWidth 32)), c')) ↔
      ((v.setWidth 32 : U32) &&& 0x3 = 0x3 → Apart pc pa →
        ∃ c₃, nextHalf mode pc pa c₂ = some (.ok (highHalf (v.setWidth 32)), c₃)) := by
  rw [fetch_eq htranslate hload, bitsOf]
  by_cases hquad : (v.setWidth 32 : U32) &&& 0x3 = 0x3
  · rw [if_neg (not_not.mpr hquad), if_neg (not_not.mpr hquad)]
    constructor
    · rintro ⟨c', hfetch⟩ _ _
      obtain ⟨hi16, c₃, hnext, hjoin⟩ := Run.bind_eq_ok hfetch
      injection hjoin with hjoin
      injection hjoin with hjoin _
      injection hjoin with hjoin
      refine ⟨c₃, ?_⟩
      rw [hnext, ← hjoin, highHalf_join]
    · intro hmeet
      have hnext : ∃ c₃, nextHalf mode pc pa c₂ =
          some (.ok (highHalf (v.setWidth 32)), c₃) := by
        by_cases hapart : Apart pc pa
        · exact hmeet hquad hapart
        · exact nextHalf_together hapart hload
      obtain ⟨c₃, hnext⟩ := hnext
      refine ⟨c₃, ?_⟩
      rw [Run.bind_ok hnext, joinHalves_halves]
      rfl
  · rw [if_pos hquad, if_pos hquad]
    exact ⟨fun _ hfull => absurd hfull hquad, fun _ => ⟨c₂, rfl⟩⟩

/-- A step reads the second half of a word exactly when its place holds what lies behind the first
one. -/
theorem nextHalf_iff (hload : busLoad pa .b4 ⟨1, pc⟩ c₁ = some (.ok v, c₂)) :
    (∃ c₃, nextHalf mode pc pa c₂ = some (.ok (highHalf (v.setWidth 32)), c₃)) ↔
      Meets mode pc pa c₁ c₂ := by
  obtain ⟨r, b, hbus, hr, -⟩ := Run.zoom_eq_some hload
  cases r with
  | error e => cases hr
  | ok v₀ =>
      cases hr
      rw [Meets, halfBehind_of_load hbus]
      constructor
      · rintro ⟨c₃, hnext⟩
        obtain ⟨pa', c', hplace, hrest⟩ := Run.bind_eq_ok hnext
        obtain ⟨hi, c'', hhi, hpure⟩ := Run.bind_eq_ok hrest
        obtain ⟨r, b', hbus', hr', -⟩ := Run.zoom_eq_some hhi
        cases r with
        | error e => cases hr'
        | ok v' =>
            cases hr'
            injection hpure with hpure
            injection hpure with hpure _
            injection hpure with hpure
            exact ⟨pa', c', hplace, halfAt_eq_some.mpr ⟨hi, b', hbus', hpure⟩⟩
      · rintro ⟨pa', c', hplace, hhalf⟩
        obtain ⟨v', b', hbus', heq⟩ := halfAt_eq_some.mp hhalf
        refine ⟨{ c' with bus := b' }, ?_⟩
        rw [nextHalf, Run.bind_ok hplace, Run.bind_ok (busLoad_of hbus'), heq]
        rfl

/-- The compiler decodes at an address what a step would fetch there, exactly when the halves of the
instruction meet. -/
theorem fetchAgrees_iff (h : Host) (c : Cpu) (pc : U64) :
    FetchAgrees h c pc ↔ HalvesMeet h c pc := by
  constructor
  · intro hagrees pa c₁ v c₂ htranslate hload hhandled hquad hapart
    have hfetches := hagrees _ _ (fetchRaw_of htranslate hload) hhandled
    exact (nextHalf_iff hload).mp ((fetches_iff htranslate hload).mp hfetches hquad hapart)
  · intro hmeet raw4 c' hfetch hhandled
    obtain ⟨pa, c₁, v, htranslate, hload, rfl⟩ := fetchRaw_ok hfetch
    refine (fetches_iff htranslate hload).mpr fun hquad hapart => (nextHalf_iff hload).mpr ?_
    exact hmeet pa c₁ v c' htranslate hload hhandled hquad hapart

/-- On adjacent frames of RAM the second half is what lies behind the first one, where finding its
place does not mark a page table there. -/
theorem fetchAgrees_of_adjacent (h : Host) (c : Cpu) (pc : U64)
    (hadjacent : ∀ pa c₁, translateOrTrap c.mode pc .fetch c = some (.ok pa, c₁) →
      region pa = .ram ∧ region (pa + 2) = .ram ∧
        ∃ c₂, secondPlace c.mode pc pa c₁ = some (.ok (pa + 2), c₂) ∧
          halfAt c₂.bus (pa + 2) = halfAt c₁.bus (pa + 2)) :
    FetchAgrees h c pc := by
  refine (fetchAgrees_iff h c pc).mpr fun pa c₁ v c₂ htranslate hload _ _ _ => ?_
  obtain ⟨hr, hr', c₃, hplace, hkept⟩ := hadjacent pa c₁ htranslate
  obtain ⟨r, b, hbus, hok, rfl⟩ := Run.zoom_eq_some hload
  cases r with
  | error e => cases hok
  | ok v₀ =>
      cases hok
      obtain rfl : b = c₁.bus := Bus.load_ram_still hr hbus
      obtain ⟨v', hhigh, heq⟩ := load_high hr hr' hbus
      refine ⟨pa + 2, c₃, hplace, ?_⟩
      rw [hkept, halfBehind_of_load hbus, halfAt_eq_some]
      exact ⟨v', _, hhigh, heq⟩

/-- Two pages of a user whose frames are not adjacent.  The first ends with the first half of
`addi x1, x0, imm`.  The second half has the immediate 1 in the frame after the first one, and 2 in
the frame of the second page. -/
def splitHart : Cpu :=
  let bus := (Bus.new 0x6000 0x8000_0000).withWords
    [(0x0000, 0x2000_0401), (0x1000, 0x2000_0801), (0x2008, 0x2000_0CDF), (0x2010, 0x2000_14DF),
      (0x3FF8, 0x0093_0000_0000_0000), (0x4000, 0x0010), (0x5000, 0x0020)]
  let c := Cpu.new bus 0x1FFE
  { c with mode := .u, csr := { c.csr with satp := 0x8000_0000_0008_0000 } }

/-- The compiler keeps an addition of 1 where a step would add 2. -/
theorem splitHart_disagrees : ∃ c pc, pc &&& 0x1 = 0 ∧ ∀ h, ¬ FetchAgrees h c pc := by
  refine ⟨splitHart, 0x1FFE, by decide, fun h hagrees => ?_⟩
  have hraw : (fetchRaw 0x1FFE splitHart).map (fun p => p.1.toOption) =
      some (some 0x0010_0093) := by
    decide +kernel
  have hstep : (Cpu.fetch .u 0x1FFE splitHart).map (fun p => p.1.toOption) =
      some (some 0x0020_0093) := by decide +kernel
  obtain ⟨⟨r, c'⟩, hfetch, hr⟩ := Option.map_eq_some_iff.mp hraw
  cases r with
  | error t => cases hr
  | ok raw4 =>
      cases hr
      have hhandled : Handled h 0x1FFE 0x0010_0093 := by
        rw [Handled, emitRaw_full (by decide) (show decode 0x0010_0093 = .ok _ by rfl)]
        intro hnone
        cases hnone
      obtain ⟨c'', hfetch'⟩ := hagrees _ _ hfetch hhandled
      rw [show splitHart.mode = .u from rfl] at hfetch'
      rw [hfetch'] at hstep
      have hbits : bitsOf 0x0010_0093 = 0x0020_0093 := Option.some.inj (Option.some.inj hstep)
      exact absurd hbits (by decide)

/-! ## Blocks -/

/-- The encodings of a block are those steps would fetch in the states the compiler passes. -/
def SteppedAlong : U64 → List U32 → Cpu → Prop
  | _, [], _ => True
  | pc, raw4 :: raws, c =>
      (∃ c', Cpu.fetch c.mode pc c = some (.ok (bitsOf raw4), c')) ∧
        ∀ c', fetchRaw pc c = some (.ok raw4, c') → SteppedAlong (pc + sizeOf raw4) raws c'

/-- The halves of every instruction of a block meet. -/
def MeetAlong (h : Host) : U64 → List U32 → Cpu → Prop
  | _, [], _ => True
  | pc, raw4 :: raws, c =>
      HalvesMeet h c pc ∧
        ∀ c', fetchRaw pc c = some (.ok raw4, c') → MeetAlong h (pc + sizeOf raw4) raws c'

/-- A block holds what steps would fetch, exactly when the halves of its instructions meet. -/
theorem steppedAlong_iff {raws : List U32} (hhandled : AllHandled h pc raws)
    (hfetched : FetchedAlong pc raws c) : SteppedAlong pc raws c ↔ MeetAlong h pc raws c := by
  induction raws generalizing pc c with
  | nil => exact Iff.rfl
  | cons raw4 raws ih =>
      obtain ⟨c₁, hfetch, hrest⟩ := hfetched
      have hhead : (∃ c', Cpu.fetch c.mode pc c = some (.ok (bitsOf raw4), c')) ↔
          HalvesMeet h c pc := by
        obtain ⟨pa, c₀, v, htranslate, hload, rfl⟩ := fetchRaw_ok hfetch
        rw [fetches_iff htranslate hload, nextHalf_iff hload]
        constructor
        · intro hmeet pa' c' v' c'' htranslate' hload' _
          rw [htranslate] at htranslate'
          cases htranslate'
          rw [hload] at hload'
          cases hload'
          exact hmeet
        · intro hmeet
          exact hmeet pa c₀ v c₁ htranslate hload hhandled.1
      refine and_congr hhead (forall_congr' fun c' => ?_)
      constructor
      · intro hall hfetch'
        rw [hfetch] at hfetch'
        cases hfetch'
        exact (ih hhandled.2 hrest).mp (hall hfetch)
      · intro hall hfetch'
        rw [hfetch] at hfetch'
        cases hfetch'
        exact (ih hhandled.2 hrest).mpr (hall hfetch)

end RiscvEmu.Jit

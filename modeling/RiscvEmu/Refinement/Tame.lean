import RiscvEmu.Native.Fetch
import RiscvEmu.Refinement.Interpreter

/-!
# Programs on which the loop is the interpreter

The loop takes liberties an interpreter does not have: it executes encodings it has fetched earlier,
and calls out for accesses it makes in another way.  A program on which they make no difference is
*tame*.  It runs from RAM without translation, none of the code it executes ever changes, it has no
compressed addition to register 0, and its accesses stay in their page or in RAM.  All of this is
about the interpreter, and nothing about blocks.

On a tame program every run of the loop is one of the interpreter (`tame_refines`).
-/

namespace RiscvEmu

/-- The devices lie below RAM. -/
theorem region_high {addr : U64} (h : 0x1000_1200 ≤ addr.toNat) : region addr = .ram := by
  have hnot : ∀ lo hi : U64, hi.toNat < 0x1000_1200 → ¬ (lo ≤ addr ∧ addr ≤ hi) := by
    intro lo hi hhi hin
    have hle : addr.toNat ≤ hi.toNat := hin.2
    omega
  rw [region, if_neg (hnot _ _ (by decide)), if_neg (hnot _ _ (by decide)),
    if_neg (hnot _ _ (by decide)), if_neg (hnot _ _ (by decide))]

namespace Cpu

variable {c c' : Cpu} {pc : U64} {raw : U32}

/-- The encoding a step fetches at an address, or its exception. -/
def fetches (c : Cpu) (pc : U64) : Option (Except Trap U32) := (fetch c.mode pc c).map Prod.fst

theorem Untranslated.fetchAddress (hc : c.Untranslated) (pc : U64) :
    Cpu.translateOrTrap c.mode pc .fetch c = some (.ok pc, c) :=
  translateOrTrap_ok (hc.translate .fetch).1

/-- A load from RAM leaves the hart alone. -/
theorem busLoad_still {pa : U64} {width : Width} {trap : Trap} {r : Except Trap U64}
    (hr : region pa = .ram) (hload : busLoad pa width trap c = some (r, c')) : c' = c := by
  obtain ⟨r₁, b, hb, -, rfl⟩ := busLoad_eq_some hload
  rw [Bus.load_ram_still hr hb]

/-- What lies behind an address RAM has bytes at is no device. -/
theorem busLoad_behind {pa v : U64} {width : Width} {trap : Trap}
    (hlayout : 0x1000_1200 ≤ c.bus.ramBase.toNat) (hr : region pa = .ram)
    (hload : busLoad pa width trap c = some (.ok v, c')) {i : U64} (hi : i.toNat ≤ width.bytes) :
    region (pa + i) = .ram := by
  obtain ⟨r₁, b, hb, heq, -⟩ := busLoad_eq_some hload
  cases ho : c.bus.offset pa width with
  | error e =>
      rw [Bus.load_ram_error hr ho] at hb
      cases hb
      cases heq
  | ok off =>
      obtain ⟨-, hle, -, hend⟩ := Bus.offset_ok ho
      have hlt := (c.bus.ramBase + c.bus.ram.len).isLt
      apply region_high
      rw [BitVec.toNat_add]
      omega

/-- A fetch from RAM leaves the hart alone. -/
theorem fetch_still (hc : c.Untranslated) (hlayout : 0x1000_1200 ≤ c.bus.ramBase.toNat)
    (hr : region pc = .ram) (hfetch : fetch c.mode pc c = some (.ok raw, c')) : c' = c := by
  rw [fetch, Run.bind_ok (hc.fetchAddress pc)] at hfetch
  obtain ⟨lo, c₁, hlo, hrest⟩ := Run.bind_eq_ok hfetch
  have hsame := busLoad_still hr hlo
  subst hsame
  have hbehind : region (pc + 2) = .ram := busLoad_behind hlayout hr hlo (by decide)
  dsimp only at hrest
  split at hrest
  · cases hrest
    rfl
  · split at hrest
    · rw [Run.bind_ok (hc.fetchAddress (pc + 2))] at hrest
      obtain ⟨hi, c₂, hhi, hpure⟩ := Run.bind_eq_ok hrest
      cases hpure
      exact busLoad_still hbehind hhi
    · rw [Run.bind_ok (Run.pure_apply (pc + 2) c₁)] at hrest
      obtain ⟨hi, c₂, hhi, hpure⟩ := Run.bind_eq_ok hrest
      cases hpure
      exact busLoad_still hbehind hhi

end Cpu

namespace Jit

open Fetching (Next Mark executed)

variable {fpu : Fpu} {c c' c₀ : Cpu} {pc : U64} {raw4 : U32} {w w' : Fetching} {es : List Mark}

/-! ## Fetches -/

/-- The low half of an encoding counts in any case. -/
theorem bitsOf_getLsbD {i : Nat} (hi : i < 16) : (bitsOf raw4).getLsbD i = raw4.getLsbD i := by
  rw [bitsOf]
  split
  · simp [hi, show i < 32 by omega]
  · rfl

theorem bitsOf_mask {mask : U32} (hlt : mask.toNat < 2 ^ 16) :
    bitsOf raw4 &&& mask = raw4 &&& mask := by
  apply BitVec.eq_of_getLsbD_eq
  intro i hi
  rw [BitVec.getLsbD_and, BitVec.getLsbD_and]
  by_cases hlow : i < 16
  · rw [bitsOf_getLsbD hlow]
  · have hzero : mask.getLsbD i = false := by
      have hpow : 2 ^ 16 ≤ 2 ^ i := Nat.pow_le_pow_right (by decide) (by omega)
      exact Nat.testBit_lt_two_pow (by omega)
    rw [hzero, Bool.and_false, Bool.and_false]

theorem bitsOf_low : (bitsOf raw4).setWidth 16 = raw4.setWidth 16 := by
  apply BitVec.eq_of_getLsbD_eq
  intro i hi
  rw [BitVec.getLsbD_setWidth, BitVec.getLsbD_setWidth, bitsOf_getLsbD hi]

/-- The decoder sees the bits of an encoding that count. -/
theorem decodeFetched_bitsOf (raw4 : U32) :
    Cpu.decodeFetched (bitsOf raw4) = Cpu.decodeFetched raw4 := by
  rw [Cpu.decodeFetched, Cpu.decodeFetched, bitsOf_mask (show (0x3 : U32).toNat < 2 ^ 16 by decide),
    bitsOf_mask (show (0xffff : U32).toNat < 2 ^ 16 by decide), bitsOf_low]
  split
  · rfl
  · rename_i hquad
    rw [bitsOf, if_neg hquad]

theorem executeFetched_bitsOf (raw4 : U32) (c : Cpu) :
    Cpu.executeFetched fpu (bitsOf raw4) c = Cpu.executeFetched fpu raw4 c := by
  rw [Cpu.executeFetched, Cpu.executeFetched, decodeFetched_bitsOf]

theorem instOf_bitsOf (raw4 : U32) : instOf (bitsOf raw4) = instOf raw4 := by
  rw [instOf, instOf, decodeFetched_bitsOf]

/-- A fetch for a block from RAM leaves the hart alone. -/
theorem fetchRaw_still {r : Except Trap U32} (hc : c.Untranslated) (hr : region pc = .ram)
    (hfetch : fetchRaw pc c = some (r, c')) : c' = c := by
  rw [fetchRaw, Run.bind_ok (hc.fetchAddress pc)] at hfetch
  rcases Run.bind_eq_some hfetch with ⟨v, c₁, hload, hpure⟩ | ⟨t, hload, -⟩
  · cases hpure
    exact Cpu.busLoad_still hr hload
  · exact Cpu.busLoad_still hr hload

/-- Without translation the second half is read from the address behind the first one. -/
theorem nextHalf_untranslated {v : U64} {b : Bus} (hc : c.Untranslated)
    (hload : Bus.load (pc + 2) .b2 c.bus = some (.ok v, b)) :
    nextHalf c.mode pc pc c = some (.ok (v.setWidth 16), { c with bus := b }) := by
  rw [nextHalf, secondPlace]
  split
  · refine (Run.bind_ok (hc.fetchAddress (pc + 2))).trans ?_
    exact (Run.bind_ok (busLoad_of hload)).trans rfl
  · refine (Run.bind_ok (Run.pure_apply (pc + 2) c)).trans ?_
    exact (Run.bind_ok (busLoad_of hload)).trans rfl

/-- What is fetched for a block from RAM, a step fetches. -/
theorem fetchRaw_fetches (hc : c.Untranslated) (hlayout : 0x1000_1200 ≤ c.bus.ramBase.toNat)
    (hr : region pc = .ram) (hfetch : fetchRaw pc c = some (.ok raw4, c')) :
    c.fetches pc = some (.ok (bitsOf raw4)) ∧ region (pc + sizeOf raw4) = .ram := by
  obtain ⟨pa, c₁, v, htranslate, hload, rfl⟩ := fetchRaw_ok hfetch
  have haddr := htranslate
  rw [hc.fetchAddress pc] at haddr
  cases haddr
  have hbehind : ∀ {i : U64}, i.toNat ≤ Width.b4.bytes → region (pc + i) = .ram :=
    Cpu.busLoad_behind hlayout hr hload
  have hstill := Cpu.busLoad_still hr hload
  constructor
  · have hnext : (v.setWidth 32 : U32) &&& 0x3 = 0x3 → Apart pc pc →
        ∃ c₃, nextHalf c.mode pc pc c' = some (.ok (highHalf (v.setWidth 32)), c₃) := by
      intro _ _
      obtain ⟨r, b, hbus, heq, hafter⟩ := Cpu.busLoad_eq_some hload
      cases r with
      | error e => cases heq
      | ok v₀ =>
          cases heq
          obtain ⟨v', hhigh, hhalf⟩ := load_high hr (hbehind (i := 2) (by decide)) hbus
          have hb : b = c.bus := by
            rw [hstill] at hafter
            exact (congrArg Cpu.bus hafter).symm
          rw [hb] at hhigh
          rw [hstill, nextHalf_untranslated hc hhigh, hhalf]
          exact ⟨_, rfl⟩
    obtain ⟨c₂, hfetches⟩ := (fetches_iff htranslate hload).mpr hnext
    rw [Cpu.fetches, hfetches]
    rfl
  · rw [sizeOf]
    split
    · exact hbehind (by decide)
    · exact hbehind (by decide)

/-! ## Tame programs -/

/-- A hart the interpreter reaches. -/
def Interpreted (fpu : Fpu) (c₀ c : Cpu) : Prop := ∃ es, Trail (Interprets fpu) c₀ es c

/-- The program of a hart makes no difference between the loop and the interpreter. -/
structure Tame (fpu : Fpu) (c₀ : Cpu) : Prop where
  /-- RAM lies behind the devices. -/
  layout : 0x1000_1200 ≤ c₀.bus.ramBase.toNat
  /-- Nothing is translated. -/
  untranslated : ∀ c, Interpreted fpu c₀ c → c.Untranslated
  /-- No code is in a device. -/
  place : ∀ c, Interpreted fpu c₀ c → region c.pc = .ram
  /-- The code that is executed at some time is there at any time. -/
  constant : ∀ c d, Interpreted fpu c₀ c → Interpreted fpu c₀ d → c.fetches d.pc = d.fetches d.pc
  /-- It holds no addition to register 0 that the decoder rejects. -/
  decoded : ∀ c raw, Interpreted fpu c₀ c → c.fetches c.pc = some (.ok raw) →
    raw &&& 0x3 ≠ 0x3 → ¬ Rvc.AddHint (raw.setWidth 16)
  /-- Its accesses are those that callouts make in the same way. -/
  covered : ∀ c raw q, Interpreted fpu c₀ c → c.fetches c.pc = some (.ok raw) →
    callout (instOf raw) c = some q → c.Covered q.va q.width

theorem Interpreted.tail {es : List Mark} (hc : Interpreted fpu c₀ c)
    (htrail : Trail (Interprets fpu) c es c') : Interpreted fpu c₀ c' := by
  obtain ⟨fs, htrail₀⟩ := hc
  exact ⟨_, htrail₀.trans htrail⟩

theorem Tame.base (htame : Tame fpu c₀) (hc : Interpreted fpu c₀ c) :
    0x1000_1200 ≤ c.bus.ramBase.toNat := by
  obtain ⟨es, htrail⟩ := hc
  have hext : Extends c₀.bus c.bus := by
    refine htrail.invariant (I := fun c => Extends c₀.bus c.bus) ?_ (.refl _)
    intro es c c' hext hnext
    exact hext.trans hnext.extends
  rw [hext.base]
  exact htame.layout

theorem Interpreted.even (heven : Parity c₀) (hc : Interpreted fpu c₀ c) : IsEven c.pc := by
  obtain ⟨es, htrail⟩ := hc
  have hparity : Parity c := by
    refine htrail.invariant ?_ heven
    intro es c c' hc hnext
    exact hnext.keeps parity_runStable hc
  exact hparity.pc

/-- What the machine has fetched was fetched by harts of the interpreter. -/
structure Tracked (fpu : Fpu) (c₀ : Cpu) (w : Fetching) : Prop where
  cpu : Interpreted fpu c₀ w.cpu
  last : region w.last = .ram
  seen : ∀ p raw4, w.seen p raw4 → region p = .ram ∧
    ∃ c c', Interpreted fpu c₀ c ∧ fetchRaw p c = some (.ok raw4, c')

namespace Tracked

/-- A step of the interpreter, with fewer fetches in memory or as many. -/
theorem next (htracked : Tracked fpu c₀ w) {last : U64} {seen : U64 → U32 → Prop}
    (htrail : Trail (Interprets fpu) w.cpu es c) (hlast : region last = .ram)
    (hseen : ∀ p raw4, seen p raw4 → w.seen p raw4) : Tracked fpu c₀ ⟨c, last, seen⟩ :=
  ⟨htracked.cpu.tail htrail, hlast, fun p raw4 hs => htracked.seen p raw4 (hseen p raw4 hs)⟩

/-- The addresses near those that were fetched are in RAM. -/
theorem near (htame : Tame fpu c₀) (htracked : Tracked fpu c₀ w) (hnear : w.Near pc) :
    region pc = .ram := by
  rcases hnear with rfl | ⟨p, raw4, hseen, rfl⟩
  · exact htracked.last
  · obtain ⟨hr, c, c', hc, hfetch⟩ := htracked.seen p raw4 hseen
    exact (fetchRaw_fetches (htame.untranslated c hc) (htame.base hc) hr hfetch).2

/-- An encoding that was fetched at the program counter is still there. -/
theorem current (htame : Tame fpu c₀) (htracked : Tracked fpu c₀ w)
    (hseen : w.seen w.cpu.pc raw4) : w.cpu.fetches w.cpu.pc = some (.ok (bitsOf raw4)) := by
  obtain ⟨hr, c, c', hc, hfetch⟩ := htracked.seen _ raw4 hseen
  rw [← htame.constant c w.cpu hc htracked.cpu]
  exact (fetchRaw_fetches (htame.untranslated c hc) (htame.base hc) hr hfetch).1

/-- So a step executes it. -/
theorem exec (htame : Tame fpu c₀) (heven : Parity c₀) (htracked : Tracked fpu c₀ w)
    (hseen : w.seen w.cpu.pc raw4) :
    Cpu.exec fpu w.cpu = Cpu.executeFetched fpu raw4 w.cpu := by
  have hcpu := htracked.cpu
  obtain ⟨⟨r, c⟩, hfetch, hr⟩ := Option.map_eq_some_iff.mp (htracked.current htame hseen)
  cases hr
  have hsame := Cpu.fetch_still (htame.untranslated _ hcpu) (htame.base hcpu)
    (htame.place _ hcpu) hfetch
  rw [hsame] at hfetch
  have haligned : ¬ w.cpu.pc &&& 0x1 ≠ 0 := not_not.mpr (hcpu.even heven)
  rw [Cpu.exec, if_neg haligned, Cpu.orRaise, hfetch]
  exact executeFetched_bitsOf raw4 w.cpu

end Tracked

/-- On a tame program a step of the machine is one of the interpreter, or none. -/
theorem tame_next (htame : Tame fpu c₀) (heven : Parity c₀) (htracked : Tracked fpu c₀ w)
    (hnext : Next fpu es w w') :
    Trail (Interprets fpu) w.cpu es w'.cpu ∧ Tracked fpu c₀ w' := by
  have hplace := htame.place _ htracked.cpu
  cases hnext with
  | step hstep =>
      have htrail := Trail.single (Interprets.step hstep)
      exact ⟨htrail, htracked.next htrail hplace fun _ _ hs => hs⟩
  | fetch hnear hfetch =>
      rename_i pc r c
      have hr := htracked.near htame hnear
      have hsame := fetchRaw_still (htame.untranslated _ htracked.cpu) hr hfetch
      subst hsame
      refine ⟨.refl, htracked.cpu, htracked.last, fun p raw4 hs => ?_⟩
      cases r with
      | error t => exact htracked.seen p raw4 hs
      | ok raw =>
          rcases hs with hs | ⟨rfl, rfl⟩
          · exact htracked.seen p raw4 hs
          · exact ⟨hr, _, _, htracked.cpu, hfetch⟩
  | exec hseen hexec =>
      rw [← htracked.exec htame heven hseen] at hexec
      have htrail := Trail.single (Interprets.exec hexec)
      exact ⟨htrail, htracked.next htrail htracked.last fun _ _ hs => hs⟩
  | uncovered hseen hcall hnot =>
      have hfetches := htracked.current htame hseen
      rw [← instOf_bitsOf] at hcall
      exact absurd (htame.covered _ _ _ htracked.cpu hfetches hcall) hnot
  | hint hseen hquad hhint =>
      have hfetches := htracked.current htame hseen
      rw [← bitsOf_mask (show (0x3 : U32).toNat < 2 ^ 16 by decide)] at hquad
      rw [← bitsOf_low] at hhint
      exact absurd hhint (htame.decoded _ _ htracked.cpu hfetches hquad)
  | walk hwalk =>
      rw [((htame.untranslated _ htracked.cpu).translate _).1] at hwalk
      cases hwalk
      exact ⟨.refl, htracked⟩
  | poll input =>
      have htrail := Trail.single (@Interprets.poll fpu w.cpu input)
      exact ⟨htrail, htracked.next htrail htracked.last fun _ _ hs => hs⟩
  | flushSatp hflag =>
      have htrail := Trail.single (@Interprets.clear fpu w.cpu false w.cpu.fenceIPending)
      exact ⟨htrail, htracked.next htrail htracked.last fun _ _ hs => hs.elim⟩
  | flushFenceI hflag hseen =>
      have htrail := Trail.single (@Interprets.clear fpu w.cpu w.cpu.jitInvalidate false)
      refine ⟨htrail, htracked.next htrail htracked.last fun p raw4 hs => ?_⟩
      rcases hseen with rfl | rfl
      · exact hs
      · exact hs.elim

/-- On a tame program every run of the loop is one of the interpreter, with the same services and at
least one instruction for each round.  The harts are the same but for the size of the current
instruction. -/
theorem tame_refines (h : Host) (fpu : Fpu) (bus : Bus) (entry : U64) (heven : IsEven entry)
    (htame : Tame fpu (.new bus entry)) (inputs : List Input) (m : Machine)
    (hrun : (loop h fpu (.new bus entry)).after inputs (.start (.new bus entry)) = some m) :
    ∃ es c, Trail (Interprets fpu) (.new bus entry) es c ∧
      (∃ size, m.cpu = { c with instSize := size }) ∧
      es.filterMap Mark.served =
        (loop h fpu (.new bus entry)).outputs served inputs (.start (.new bus entry)) ∧
      inputs.length ≤ es.countP Mark.executes := by
  obtain ⟨es, w, htrail, hcarries, hmarks⟩ := loop_trail heven hrun
  have hstart : (Fetching.start (.new bus entry)).cpu = .new bus entry ∧
      Tracked fpu (.new bus entry) (.start (.new bus entry)) :=
    ⟨rfl, ⟨[], .refl⟩, htame.place _ ⟨[], .refl⟩, by intro p raw4 hs; exact hs.elim⟩
  have hlift : ∀ es w w' c, w.cpu = c ∧ Tracked fpu (.new bus entry) w → Next fpu es w w' →
      ∃ c', Trail (Interprets fpu) c es c' ∧ w'.cpu = c' ∧ Tracked fpu (.new bus entry) w' := by
    rintro es w w' c ⟨rfl, htracked⟩ hnext
    obtain ⟨htrail, htracked'⟩ := tame_next htame (parity_new heven) htracked hnext
    exact ⟨w'.cpu, htrail, rfl, htracked'⟩
  obtain ⟨c, htrail', rfl, -⟩ := Trail.lift hlift hstart htrail
  exact ⟨es, w.cpu, htrail', hcarries.cpu, hmarks⟩

/-! ## A loop that counts -/

/-- The places of the loop, with the encodings there. -/
inductive CountCode : U64 → U32 → Prop where
  | auipc : CountCode 0x8000_0000 0x0000_0117
  | load : CountCode 0x8000_0004 0x1001_2083
  | add : CountCode 0x8000_0008 0x0010_8093
  | store : CountCode 0x8000_000C 0x1011_2023
  | jump : CountCode 0x8000_0010 0xFF1F_F06F

/-- A hart in the loop, with all interrupts off.  The loop writes behind its code. -/
structure Counts (c : Cpu) : Prop where
  code : ∃ raw, CountCode c.pc raw
  data : c.pc ≠ 0x8000_0000 → c.reg 2 = 0x8000_0000
  mode : c.mode = .m
  lsMode : c.lsMode = .m
  mie : c.csr.mie = 0
  ram : ∀ o < 0x100, c.bus.ram.byte o = countBus.ram.byte o
  len : c.bus.ram.len = 0x1000
  base : c.bus.ramBase = 0x8000_0000

namespace Counts

/-- Nothing interrupts it. -/
theorem quiet (hc : Counts c) : c.nextInterrupt = none := by
  rw [Cpu.nextInterrupt, hc.mie]
  simp

/-- What a step of the loop has to keep. -/
theorem moved (hc : Counts c) (hcode : CountCode c'.pc raw4) (hdata : c'.reg 2 = 0x8000_0000)
    (hmode : c'.mode = c.mode) (hcsr : c'.csr = c.csr)
    (hram : ∀ o < 0x100, c'.bus.ram.byte o = c.bus.ram.byte o)
    (hlen : c'.bus.ram.len = c.bus.ram.len) (hbase : c'.bus.ramBase = c.bus.ramBase) :
    Counts c' where
  code := ⟨raw4, hcode⟩
  data _ := hdata
  mode := hmode.trans hc.mode
  lsMode := by
    rw [← hc.lsMode, Cpu.lsMode, Cpu.lsMode, hcsr, hmode]
  mie := hcsr ▸ hc.mie
  ram o ho := (hram o ho).trans (hc.ram o ho)
  len := hlen.trans hc.len
  base := hbase.trans hc.base

theorem offset (hc : Counts c) {pa : U64} {width : Width} {off : Nat}
    (ho : countBus.offset pa width = .ok off) : c.bus.offset pa width = .ok off := by
  rw [Bus.offset, hc.base, hc.len]
  exact ho

theorem loadHalf (hc : Counts c) {pa : U64} {off : Nat} (trap : Trap) (hr : region pa = .ram)
    (ho : countBus.offset pa .b2 = .ok off) (hlow : off + 2 ≤ 0x100) :
    Cpu.busLoad pa .b2 trap c = some (.ok (Bytes.readLe countBus.ram.byte off 2), c) := by
  have hload := Bus.load_ram hr (hc.offset ho)
  have hbytes : Bytes.readLe c.bus.ram.byte off 2 = Bytes.readLe countBus.ram.byte off 2 :=
    Bytes.readLe_congr fun i hi => hc.ram _ (by omega)
  rw [show Width.b2.bytes = 2 from rfl, hbytes] at hload
  exact busLoad_of hload

theorem fetchFull (hc : Counts c) (pc : U64) (off : Nat) (hpage : ¬ pc &&& 0xfff = 0xffe)
    (hr : region pc = .ram) (hr' : region (pc + 2) = .ram)
    (ho : countBus.offset pc .b2 = .ok off) (ho' : countBus.offset (pc + 2) .b2 = .ok (off + 2))
    (hlow : off + 4 ≤ 0x100)
    (hfull : ¬ (Bytes.readLe countBus.ram.byte off 2).setWidth 16 &&& 0x3 ≠ (0x3 : U16))
    (hraw : ((Bytes.readLe countBus.ram.byte off 2).setWidth 16 : U16).setWidth 32 |||
      ((Bytes.readLe countBus.ram.byte (off + 2) 2).setWidth 16 : U16).setWidth 32 <<< 16 = raw4) :
    Cpu.fetch c.mode pc c = some (.ok raw4, c) := by
  have hmode : Cpu.translateOrTrap c.mode pc .fetch c = some (.ok pc, c) := by
    rw [hc.mode]
    exact Cpu.translateOrTrap_ok (Run.zoom_of_some (Cpu.translate_machine _))
  have hlo := hc.loadHalf ⟨1, pc⟩ hr ho (by omega)
  have hhi := hc.loadHalf ⟨1, pc + 2⟩ hr' ho' (by omega)
  rw [Cpu.fetch, Run.bind_ok hmode, Run.bind_ok hlo]
  dsimp only
  rw [if_neg hfull, if_neg hpage, ← hraw]
  exact (Run.bind_ok (Run.pure_apply (pc + 2) c)).trans (Run.bind_ok hhi)

theorem fetch (hc : Counts c) (h : CountCode pc raw4) :
    Cpu.fetch c.mode pc c = some (.ok raw4, c) := by
  cases h with
  | auipc =>
      exact hc.fetchFull 0x8000_0000 0 (by decide) (by decide) (by decide) rfl rfl (by decide)
        (by decide) (by decide)
  | load =>
      exact hc.fetchFull 0x8000_0004 4 (by decide) (by decide) (by decide) rfl rfl (by decide)
        (by decide) (by decide)
  | add =>
      exact hc.fetchFull 0x8000_0008 8 (by decide) (by decide) (by decide) rfl rfl (by decide)
        (by decide) (by decide)
  | store =>
      exact hc.fetchFull 0x8000_000C 12 (by decide) (by decide) (by decide) rfl rfl (by decide)
        (by decide) (by decide)
  | jump =>
      exact hc.fetchFull 0x8000_0010 16 (by decide) (by decide) (by decide) rfl rfl (by decide)
        (by decide) (by decide)

theorem fetches (hc : Counts c) (h : CountCode pc raw4) : c.fetches pc = some (.ok raw4) := by
  rw [Cpu.fetches, hc.fetch h]
  rfl

theorem sized (hc : Counts c) (size : U64) : Counts { c with instSize := size } :=
  ⟨hc.code, hc.data, hc.mode, hc.lsMode, hc.mie, hc.ram, hc.len, hc.base⟩

theorem translated (hc : Counts c) (va : U64) (access : AccessType) :
    Cpu.translateOrTrap c.lsMode va access c = some (.ok va, c) := by
  rw [hc.lsMode]
  exact Cpu.translateOrTrap_ok (Run.zoom_of_some (Cpu.translate_machine _))

/-- An instruction that writes another register than the one the loop addresses its data by. -/
theorem write (hc : Counts c) {rd : Reg} (v : U64) {next : U64} (hcode : CountCode next raw4)
    (hdata : (c.setReg rd v).reg 2 = 0x8000_0000) :
    Counts ((c.setReg rd v).retire next).cpu := by
  refine hc.moved hcode hdata (Cpu.setReg_mode ..) (Cpu.setReg_csr ..) ?_ ?_ ?_
  · intro o _
    exact congrArg (fun b : Bus => b.ram.byte o) (Cpu.setReg_bus ..)
  · exact congrArg (fun b : Bus => b.ram.len) (Cpu.setReg_bus ..)
  · exact congrArg Bus.ramBase (Cpu.setReg_bus ..)

theorem load (hc : Counts c) (hdata : c.reg 2 = 0x8000_0000) (hpc : c.nextPc = 0x8000_0008)
    {r : Retired}
    (h : c.execLoad 2 0x100 .b4 (fun v c' => c'.setReg 1 (LoadOp.lw.extend v)) = some r) :
    Counts r.cpu := by
  have hload := Bus.load_ram (show region 0x8000_0100 = .ram by decide)
    (show c.bus.offset 0x8000_0100 .b4 = .ok 0x100 from hc.offset rfl)
  rw [Cpu.execLoad, hdata, hpc, Cpu.orRaise,
    show (0x8000_0000 : U64) + 0x100 = 0x8000_0100 from rfl,
    Cpu.mmuLoad_within fun hcross => hcross (by decide), Run.bind_ok (hc.translated _ _),
    busLoad_of hload] at h
  cases h
  exact hc.write _ .add ((Cpu.reg_setReg_ne c (by decide) _).trans hdata)

theorem store (hc : Counts c) (hdata : c.reg 2 = 0x8000_0000) (hpc : c.nextPc = 0x8000_0010)
    {r : Retired} (h : c.execStore 2 0x100 .b4 (c.reg 1) = some r) : Counts r.cpu := by
  have hstore := Bus.store_ram (c.reg 1) (show region 0x8000_0100 = .ram by decide)
    (show c.bus.offset 0x8000_0100 .b4 = .ok 0x100 from hc.offset rfl)
  have hput : Cpu.busStore 0x8000_0100 .b4 (c.reg 1) ⟨7, 0x8000_0100⟩ c =
      some (.ok (), { c with bus := c.bus.setBytes 0x100 4 (c.reg 1) }) := Run.zoom_of_some hstore
  rw [Cpu.execStore, hdata, hpc, Cpu.orRaise,
    show (0x8000_0000 : U64) + 0x100 = 0x8000_0100 from rfl,
    Cpu.mmuStore_within fun hcross => hcross (by decide), Run.bind_ok (hc.translated _ _),
    hput] at h
  cases h
  have hbytes : ∀ o < 0x100, (c.bus.setBytes 0x100 4 (c.reg 1)).ram.byte o = c.bus.ram.byte o :=
    fun o ho => Bytes.writeLe_outside _ _ (Or.inl ho)
  exact hc.moved .jump hdata rfl rfl hbytes rfl rfl

/-- One instruction of the loop. -/
theorem execute (hc : Counts c) (hsize : c.instSize = 4) {inst : Instruction} {r : Retired}
    (hcode : CountCode c.pc raw4) (hdec : (Cpu.decodeFetched raw4).2 = .ok inst)
    (h : RiscvEmu.execute fpu inst c = some r) : Counts r.cpu := by
  have hdata := hc.data
  have hnext : c.nextPc = c.pc + 4 := by rw [Cpu.nextPc, hsize]
  generalize hpc : c.pc = pc at hcode hdata hnext
  cases hcode with
  | auipc =>
      cases hdec.symm.trans (show (Cpu.decodeFetched 0x0000_0117).2 = .ok (.auipc 2 0) by decide)
      change c.execWrite 2 (c.pc + 0) = some r at h
      rw [Cpu.execWrite, hnext, hpc] at h
      cases h
      exact hc.write _ .load (Cpu.reg_setReg c 2 _)
  | load =>
      cases hdec.symm.trans
        (show (Cpu.decodeFetched 0x1001_2083).2 = .ok (.load .lw 1 2 0x100) by decide)
      exact hc.load (hdata (by decide)) hnext h
  | add =>
      cases hdec.symm.trans
        (show (Cpu.decodeFetched 0x0010_8093).2 = .ok (.opImm .addi 1 1 1) by decide)
      change c.execWrite 1 _ = some r at h
      rw [Cpu.execWrite, hnext] at h
      cases h
      exact hc.write _ .store ((Cpu.reg_setReg_ne c (by decide) _).trans (hdata (by decide)))
  | store =>
      cases hdec.symm.trans
        (show (Cpu.decodeFetched 0x1011_2023).2 = .ok (.store .sw 2 1 0x100) by decide)
      exact hc.store (hdata (by decide)) hnext h
  | jump =>
      cases hdec.symm.trans
        (show (Cpu.decodeFetched 0xFF1F_F06F).2 = .ok (.jal 0 (-16)) by decide)
      change c.execJal 0 (-16) = some r at h
      rw [Cpu.execJal, hpc, show (0x8000_0010 : U64) + -16 = 0x8000_0000 by decide, Cpu.execJump,
        if_neg (by decide)] at h
      cases h
      exact hc.moved .auipc (hdata (by decide)) rfl rfl (fun _ _ => rfl) rfl rfl

/-- The interpreter executes the instruction of the place it is at. -/
theorem exec (hc : Counts c) {r : Retired} (h : Cpu.exec fpu c = some r) : Counts r.cpu := by
  obtain ⟨raw4, hcode⟩ := hc.code
  have heven : ∀ {pc : U64}, CountCode pc raw4 → ¬ pc &&& 0x1 ≠ 0 ∧
      (Cpu.decodeFetched raw4).1 = 4 ∧ ∃ inst, (Cpu.decodeFetched raw4).2 = .ok inst := by
    intro pc hcode
    cases hcode <;> exact ⟨by decide, by decide, _, rfl⟩
  obtain ⟨heven, hsize, inst, hdec⟩ := heven hcode
  rw [Cpu.exec, if_neg heven, Cpu.orRaise, hc.fetch hcode] at h
  dsimp only at h
  rw [Cpu.executeFetched, hdec] at h
  exact (hc.sized _).execute hsize hcode hdec h

theorem poll (hc : Counts c) (input : Input) : Counts (poll input c) := by
  have hbus := poll_bus input c
  have hlines : (serviced input c).pc = c.pc ∧ (serviced input c).reg 2 = c.reg 2 ∧
      (serviced input c).mode = c.mode ∧ (serviced input c).lsMode = c.lsMode ∧
        (serviced input c).csr.mie = c.csr.mie := by
    rw [serviced, externalLines, timerLines, receive]
    dsimp only
    split <;> split <;> exact ⟨rfl, rfl, rfl, rfl, rfl⟩
  obtain ⟨hpc, hreg, hmode, hls, hmie⟩ := hlines
  have hquiet : (serviced input c).nextInterrupt = none := by
    rw [Cpu.nextInterrupt, hmie, hc.mie]
    simp
  have hpoll : RiscvEmu.Jit.poll input c = serviced input c := by
    rw [poll_eq, Cpu.checkInterrupts, hquiet]
  rw [advanceClock, receive_uart] at hbus
  refine ⟨?_, ?_, ?_, ?_, ?_, ?_, ?_, ?_⟩
  · rw [hpoll, hpc]
    exact hc.code
  · rw [hpoll, hpc, hreg]
    exact hc.data
  · rw [hpoll, hmode, hc.mode]
  · rw [hpoll, hls, hc.lsMode]
  · rw [hpoll, hmie, hc.mie]
  · rw [hbus]
    exact hc.ram
  · rw [hbus]
    exact hc.len
  · rw [hbus]
    exact hc.base

theorem interprets (hc : Counts c) (hnext : Interprets fpu es c c') : Counts c' := by
  cases hnext with
  | exec hexec => exact hc.exec hexec
  | interrupt hcode =>
      rw [hc.quiet] at hcode
      cases hcode
  | poll input => exact hc.poll input
  | clear jitInvalidate fenceIPending =>
      exact ⟨hc.code, hc.data, hc.mode, hc.lsMode, hc.mie, hc.ram, hc.len, hc.base⟩

theorem of_interpreted (hc : Interpreted fpu (.new countBus 0x8000_0000) c) : Counts c := by
  obtain ⟨es, htrail⟩ := hc
  refine htrail.invariant ?_
    ⟨⟨_, .auipc⟩, fun hne => absurd rfl hne, rfl, rfl, rfl, fun _ _ => rfl, rfl, rfl⟩
  intro es c c' hc hnext
  exact hc.interprets hnext

/-- The accesses of the loop stay in their page. -/
theorem covered (hc : Counts c) {q : Callout} (hcode : CountCode c.pc raw4)
    (hcall : callout (instOf raw4) c = some q) : c.Covered q.va q.width := by
  have hdata := hc.data
  have hin : ¬ Cpu.Crosses (0x8000_0000 + 0x100) .b4 := fun hcross => hcross (by decide)
  have hmode : c.lsMode = c.mode := hc.lsMode.trans hc.mode.symm
  generalize c.pc = pc at hcode hdata
  cases hcode with
  | auipc | add | jump => cases hcall
  | load =>
      rw [show instOf 0x1001_2083 = .load .lw 1 2 0x100 by decide] at hcall
      cases hcall
      rw [hdata (by decide)]
      exact ⟨.inl hmode, fun hcross => absurd hcross hin⟩
  | store =>
      rw [show instOf 0x1011_2023 = .store .sw 2 1 0x100 by decide] at hcall
      cases hcall
      rw [hdata (by decide)]
      exact ⟨.inl hmode, fun hcross => absurd hcross hin⟩

end Counts

theorem countBus_tame : Tame fpu (.new countBus 0x8000_0000) where
  layout := by decide
  untranslated c hc :=
    have hcounts := Counts.of_interpreted hc
    .inr ⟨hcounts.mode, hcounts.lsMode⟩
  place c hc := by
    obtain ⟨raw4, hcode⟩ := (Counts.of_interpreted hc).code
    generalize c.pc = pc at hcode
    cases hcode <;> decide
  constant c d hc hd := by
    obtain ⟨raw4, hcode⟩ := (Counts.of_interpreted hd).code
    rw [(Counts.of_interpreted hc).fetches hcode, (Counts.of_interpreted hd).fetches hcode]
  decoded c raw hc hfetches := by
    obtain ⟨raw4, hcode⟩ := (Counts.of_interpreted hc).code
    rw [(Counts.of_interpreted hc).fetches hcode] at hfetches
    cases hfetches
    intro hquad
    generalize c.pc = pc at hcode
    cases hcode <;> exact absurd (by decide) hquad
  covered c raw q hc hfetches hcall := by
    obtain ⟨raw4, hcode⟩ := (Counts.of_interpreted hc).code
    rw [(Counts.of_interpreted hc).fetches hcode] at hfetches
    cases hfetches
    exact (Counts.of_interpreted hc).covered hcode hcall

theorem countBus_tame_refines : ∃ m es c,
    (loop layoutHost default (.new countBus 0x8000_0000)).after (List.replicate 6 ⟨[], 0⟩)
      (.start (.new countBus 0x8000_0000)) = some m ∧
    m.cpu.bus.ram.byte 0x100 = 2 ∧
    Trail (Interprets default) (.new countBus 0x8000_0000) es c ∧
    (∃ size, m.cpu = { c with instSize := size }) ∧ 6 ≤ es.countP Mark.executes := by
  have hrun : ((loop layoutHost default (.new countBus 0x8000_0000)).after
      (List.replicate 6 ⟨[], 0⟩) (.start (.new countBus 0x8000_0000))).map
        (fun m => m.cpu.bus.ram.byte 0x100) = some 2 := by decide +kernel
  obtain ⟨m, hm, hbyte⟩ := Option.map_eq_some_iff.mp hrun
  obtain ⟨es, c, htrail, hcpu, -, hlen⟩ := tame_refines layoutHost default countBus 0x8000_0000
    (by decide) countBus_tame _ m hm
  exact ⟨m, es, c, hm, hbyte, htrail, hcpu, hlen⟩

end Jit

end RiscvEmu

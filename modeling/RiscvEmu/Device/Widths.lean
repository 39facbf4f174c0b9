import RiscvEmu.RamAccess
import RiscvEmu.Interrupts.Arbitration
import Mathlib.Tactic.Common

/-!
# Access widths

The bus passes the width of an access to the device, and the devices ignore it.  A load returns
the whole register, and a store takes as many bits of the value as the register has.  So an
access keeps to its width exactly when the register is no wider.  The tables below give the
width of each register, once for loads and once for stores: some registers have a direction
only, and the status register of the block device compares all 64 bits of a stored value with
zero.
-/

namespace RiscvEmu

/-! ## Widths of readings and of effects -/

/-- Two values have the same low bytes. -/
def Agree (w : Width) (x y : U64) : Prop :=
  x.toNat % 2 ^ (8 * w.bytes) = y.toNat % 2 ^ (8 * w.bytes)

theorem Width.lt_half {u w : Width} (h : u.bytes < w.bytes) : 2 * u.bytes ≤ w.bytes := by
  cases u <;> cases w <;> simp only [Width.bytes] at h ⊢ <;> omega

theorem Agree.narrow {u w : Width} {x y : U64} (huw : u.bytes ≤ w.bytes) (h : Agree w x y) :
    Agree u x y := by
  have hdvd : 2 ^ (8 * u.bytes) ∣ 2 ^ (8 * w.bytes) := Nat.pow_dvd_pow 2 (by omega)
  calc x.toNat % 2 ^ (8 * u.bytes)
      = x.toNat % 2 ^ (8 * w.bytes) % 2 ^ (8 * u.bytes) := (Nat.mod_mod_of_dvd _ hdvd).symm
    _ = y.toNat % 2 ^ (8 * w.bytes) % 2 ^ (8 * u.bytes) := by rw [h]
    _ = y.toNat % 2 ^ (8 * u.bytes) := Nat.mod_mod_of_dvd _ hdvd

theorem Agree.setWidth {w : Width} {x y : U64} (h : Agree w x y) {n : Nat}
    (hn : n ≤ 8 * w.bytes) : x.setWidth n = y.setWidth n := by
  have hdvd : 2 ^ n ∣ 2 ^ (8 * w.bytes) := Nat.pow_dvd_pow 2 hn
  apply BitVec.eq_of_toNat_eq
  rw [BitVec.toNat_setWidth, BitVec.toNat_setWidth, ← Nat.mod_mod_of_dvd _ hdvd, h,
    Nat.mod_mod_of_dvd _ hdvd]

/-- A reading fits a width, and takes a value that fits no smaller one. -/
structure Reads {σ : Type} (f : σ → U64) (w : Width) : Prop where
  bound : ∀ s, (f s).toNat < 2 ^ (8 * w.bytes)
  attained : w = .b1 ∨ ∃ s, 2 ^ (4 * w.bytes) ≤ (f s).toNat

theorem Reads.fits_iff {σ : Type} {f : σ → U64} {w : Width} (h : Reads f w) (u : Width) :
    (∀ s, (f s).toNat < 2 ^ (8 * u.bytes)) ↔ w.bytes ≤ u.bytes := by
  constructor
  · intro hu
    by_contra hlt
    rcases h.attained with rfl | ⟨s, hs⟩
    · exact hlt u.bytes_pos
    · have hpow : 2 ^ (8 * u.bytes) ≤ 2 ^ (4 * w.bytes) :=
        Nat.pow_le_pow_right (by decide) (by have := Width.lt_half (Nat.lt_of_not_le hlt); omega)
      exact absurd (hu s) (by omega)
  · intro hle s
    exact Nat.lt_of_lt_of_le (h.bound s) (Nat.pow_le_pow_right (by decide) (by omega))

/-- An effect depends on the low bytes of a value, and on no fewer. -/
structure Consumes {σ τ : Type} (f : U64 → σ → τ) (w : Width) : Prop where
  enough : ∀ x y, Agree w x y → ∀ s, f x s = f y s
  needed : w = .b1 ∨ ∃ x y s, (∀ u : Width, u.bytes < w.bytes → Agree u x y) ∧ f x s ≠ f y s

theorem Consumes.ignores_iff {σ τ : Type} {f : U64 → σ → τ} {w : Width} (h : Consumes f w)
    (u : Width) :
    (∀ x y, Agree u x y → ∀ s, f x s = f y s) ↔ w.bytes ≤ u.bytes := by
  constructor
  · intro hu
    by_contra hlt
    rcases h.needed with rfl | ⟨x, y, s, hagree, hne⟩
    · exact hlt u.bytes_pos
    · exact hne (hu x y (hagree u (Nat.lt_of_not_le hlt)) s)
  · intro hle x y hxy
    exact h.enough x y (hxy.narrow hle)

/-- The values 0 and `2 ^ (4 * n)` agree on the low half of `n` bytes. -/
theorem agree_zero_half {u w : Width} (h : u.bytes < w.bytes) :
    Agree u 0 (BitVec.twoPow 64 (4 * w.bytes)) := by
  cases u <;> cases w <;> first | rfl | (simp only [Width.bytes] at h; omega)

/-- A zero-extended word fits four bytes. -/
theorem word_lt (v : U32) : (v.setWidth 64).toNat < 2 ^ (8 * Width.b4.bytes) := by
  have h := v.isLt
  rw [BitVec.toNat_setWidth_of_le (by decide)]
  exact h

/-! ## The timer -/

namespace Clint

def loadWidth (addr : U64) : Width :=
  if addr = 0x0200_BFF8#64 ∨ addr = 0x0200_4000#64 then .b8 else .b1

def storeWidth (addr : U64) : Width := if addr = 0x0200_4000#64 then .b8 else .b1

theorem reads (addr : U64) : Reads (fun c : Clint => c.load addr) (loadWidth addr) := by
  have hfull : 2 ^ (4 * Width.b8.bytes) ≤ u64Max.toNat := by decide
  rw [loadWidth]
  by_cases h : addr = 0x0200_BFF8#64 ∨ addr = 0x0200_4000#64
  · rw [if_pos h]
    refine ⟨fun c => (c.load addr).isLt, Or.inr ⟨⟨u64Max, u64Max⟩, ?_⟩⟩
    rcases h with rfl | rfl <;> exact hfull
  · rw [if_neg h]
    refine ⟨fun c => ?_, Or.inl rfl⟩
    simp only [load]
    split
    · exact absurd (Or.inl rfl) h
    · exact absurd (Or.inr rfl) h
    · decide

theorem consumes (addr : U64) :
    Consumes (fun v (c : Clint) => c.store addr v) (storeWidth addr) := by
  rw [storeWidth]
  by_cases h : addr = 0x0200_4000#64
  · rw [if_pos h]
    refine ⟨fun x y hxy c => ?_, Or.inr ⟨0, _, .new, fun u hu => agree_zero_half hu, ?_⟩⟩
    · have hval : x = y := by simpa using hxy.setWidth (n := 64) (by decide)
      rw [hval]
    · simp only [store, if_pos h]
      exact fun heq => absurd (congrArg mtimecmp heq) (by decide)
  · rw [if_neg h]
    refine ⟨fun x y _ c => ?_, Or.inl rfl⟩
    simp only [store, if_neg h]

end Clint

/-! ## The serial port -/

namespace Uart16550

theorem reads (addr : U64) : Reads (fun u : Uart16550 => (u.load addr).1) .b1 := by
  have hbyte (b : U8) : (b.setWidth 64).toNat < 2 ^ (8 * Width.b1.bytes) := by
    have h := b.isLt
    rw [BitVec.toNat_setWidth_of_le (by decide)]
    exact h
  refine ⟨fun u => ?_, Or.inl rfl⟩
  simp only [load]
  split
  · exact hbyte _
  · exact hbyte _
  · split
    · exact hbyte 0x04
    · split
      · exact hbyte 0x02
      · exact hbyte 0x01
  · split
    · exact hbyte 0x61
    · exact hbyte 0x60
  · exact hbyte 0x30
  · exact hbyte 0

theorem consumes (addr : U64) : Consumes (fun v (u : Uart16550) => u.store addr v) .b1 := by
  refine ⟨fun x y hxy u => ?_, Or.inl rfl⟩
  have hval : x.setWidth 8 = y.setWidth 8 := hxy.setWidth (by decide)
  simp only [store, hval]

end Uart16550

/-! ## The interrupt controller -/

namespace Plic

/-- A claim returns one byte, the number of a source. -/
def loadWidth (addr : U64) : Width :=
  let off := (addr - base).toNat
  if off ≤ 0x0001FF then .b4
  else if 0x001000 ≤ off ∧ off ≤ 0x00107F then
    if (off - 0x001000) / 4 < 2 then .b4 else .b1
  else if 0x002000 ≤ off ∧ off ≤ 0x003FFF then
    if (enableIndex off).isSome then .b4 else .b1
  else if 0x200000 ≤ off ∧ off ≤ 0x20FFFF then
    if (contextIndex off).isSome ∧ (off - 0x200000) % 0x1000 = 0 then .b4 else .b1
  else .b1

def storeWidth (addr : U64) : Width :=
  let off := (addr - base).toNat
  if off ≤ 0x0001FF then .b4
  else if 0x002000 ≤ off ∧ off ≤ 0x003FFF then
    if (enableIndex off).isSome then .b4 else .b1
  else if 0x200000 ≤ off ∧ off ≤ 0x20FFFF then
    if (contextIndex off).isSome ∧
      ((off - 0x200000) % 0x1000 = 0 ∨ (off - 0x200000) % 0x1000 = 4) then .b4 else .b1
  else .b1

/-- A controller with every bit of every register set. -/
def ones : Plic where
  priority := fun _ => 0xFFFF_FFFF
  enable := fun _ _ => 0xFFFF_FFFF
  threshold := fun _ => 0xFFFF_FFFF
  pending := u64Max

theorem reads (addr : U64) : Reads (fun p : Plic => (p.load addr).1) (loadWidth addr) := by
  have hzero : (0 : U64).toNat < 2 ^ (8 * Width.b1.bytes) := by decide
  have hones : 2 ^ (4 * Width.b4.bytes) ≤ ((0xFFFF_FFFF : U32).setWidth 64).toNat := by decide
  generalize hoff : (addr - base).toNat = off
  simp only [load, loadWidth, hoff]
  by_cases h1 : off ≤ 0x0001FF
  · simp only [if_pos h1]
    exact ⟨fun p => word_lt _, Or.inr ⟨ones, hones⟩⟩
  simp only [if_neg h1]
  by_cases h2 : 0x001000 ≤ off ∧ off ≤ 0x00107F
  · simp only [if_pos h2]
    generalize (off - 0x001000) / 4 = n
    match n with
    | 0 => exact ⟨fun p => word_lt _, Or.inr ⟨ones, by decide⟩⟩
    | 1 =>
        refine ⟨fun p => ?_, Or.inr ⟨ones, by decide⟩⟩
        have h := p.pending.isLt
        show (p.pending >>> 32).toNat < 2 ^ 32
        rw [BitVec.toNat_ushiftRight, Nat.shiftRight_eq_div_pow]
        omega
    | n + 2 =>
        rw [if_neg (by omega)]
        exact ⟨fun p => hzero, Or.inl rfl⟩
  simp only [if_neg h2]
  by_cases h3 : 0x002000 ≤ off ∧ off ≤ 0x003FFF
  · simp only [if_pos h3]
    cases enableIndex off with
    | none => exact ⟨fun p => hzero, Or.inl rfl⟩
    | some i => exact ⟨fun p => word_lt _, Or.inr ⟨ones, hones⟩⟩
  simp only [if_neg h3]
  by_cases h4 : 0x200000 ≤ off ∧ off ≤ 0x20FFFF
  · simp only [if_pos h4]
    cases contextIndex off with
    | none => exact ⟨fun p => hzero, Or.inl rfl⟩
    | some ctx =>
        generalize (off - 0x200000) % 0x1000 = n
        simp only [Option.isSome_some, true_and]
        by_cases hthreshold : n = 0
        · subst hthreshold
          exact ⟨fun p => word_lt _, Or.inr ⟨ones, hones⟩⟩
        rw [if_neg hthreshold]
        refine ⟨fun p => ?_, Or.inl rfl⟩
        by_cases hclaim : n = 4
        · subst hclaim
          have h := p.bestIrq_lt ctx
          show (BitVec.ofNat 64 (p.bestIrq ctx)).toNat < 2 ^ 8
          rw [BitVec.toNat_ofNat]
          omega
        · split
          · exact absurd rfl hthreshold
          · exact absurd rfl hclaim
          · exact hzero
  · simp only [if_neg h4]
    exact ⟨fun p => hzero, Or.inl rfl⟩

section Store

variable {addr : U64} (v : U64) (p : Plic)

theorem store_priority (h1 : (addr - base).toNat ≤ 0x0001FF) :
    p.store addr v =
      { p with
        priority := Function.update p.priority (Fin.ofNat 128 ((addr - base).toNat / 4))
          (v.setWidth 32) } :=
  if_pos h1

theorem store_enable (h1 : ¬ (addr - base).toNat ≤ 0x0001FF)
    (h3 : 0x002000 ≤ (addr - base).toNat ∧ (addr - base).toNat ≤ 0x003FFF) :
    p.store addr v =
      match enableIndex (addr - base).toNat with
      | some (ctx, word) =>
          { p with
            enable := Function.update p.enable ctx
              (Function.update (p.enable ctx) word (v.setWidth 32)) }
      | none => p :=
  (if_neg h1).trans (if_pos h3)

/-- A store to a register of a context, by its place in the block of the context. -/
def storeLocal (p : Plic) (ctx : Fin 2) (v : U64) (n : Nat) : Plic :=
  match n with
  | 0 => { p with threshold := Function.update p.threshold ctx (v.setWidth 32) }
  | 4 =>
      let irq := v.setWidth 32
      if 0 < irq.toNat ∧ irq.toNat < 64 then
        { p with pending := p.pending &&& ~~~(1#64 <<< irq.toNat) }
      else p
  | _ => p

theorem store_context (h1 : ¬ (addr - base).toNat ≤ 0x0001FF)
    (h3 : ¬ (0x002000 ≤ (addr - base).toNat ∧ (addr - base).toNat ≤ 0x003FFF))
    (h4 : 0x200000 ≤ (addr - base).toNat ∧ (addr - base).toNat ≤ 0x20FFFF) :
    p.store addr v =
      match contextIndex (addr - base).toNat with
      | none => p
      | some ctx => p.storeLocal ctx v (((addr - base).toNat - 0x200000) % 0x1000) := by
  refine (if_neg h1).trans ((if_neg h3).trans ((if_pos h4).trans ?_))
  cases contextIndex (addr - base).toNat with
  | none => rfl
  | some ctx =>
      generalize ((addr - base).toNat - 0x200000) % 0x1000 = n
      rfl

theorem store_nowhere (h1 : ¬ (addr - base).toNat ≤ 0x0001FF)
    (h3 : ¬ (0x002000 ≤ (addr - base).toNat ∧ (addr - base).toNat ≤ 0x003FFF))
    (h4 : ¬ (0x200000 ≤ (addr - base).toNat ∧ (addr - base).toNat ≤ 0x20FFFF)) :
    p.store addr v = p :=
  (if_neg h1).trans ((if_neg h3).trans (if_neg h4))

end Store

/-- Two values that agree on two bytes complete different sources. -/
theorem agree_one {u : Width} (hu : u.bytes < Width.b4.bytes) : Agree u 1 0x10001 := by
  cases u <;> first | rfl | (simp only [Width.bytes] at hu; omega)

theorem storeLocal_consumes (ctx : Fin 2) (n : Nat) :
    Consumes (fun v (p : Plic) => p.storeLocal ctx v n) (if n = 0 ∨ n = 4 then .b4 else .b1) := by
  have hword {x y : U64} (hxy : Agree .b4 x y) : (x.setWidth 32 : U32) = y.setWidth 32 :=
    hxy.setWidth (by decide)
  by_cases hthreshold : n = 0
  · subst hthreshold
    refine ⟨fun x y hxy p => by simp only [storeLocal, hword hxy],
      Or.inr ⟨0, _, ones, fun u hu => agree_zero_half hu, fun heq => ?_⟩⟩
    have hval := congrFun (congrArg threshold heq) ctx
    simp only [storeLocal, Function.update_self] at hval
    exact absurd hval (by decide)
  by_cases hcomplete : n = 4
  · subst hcomplete
    refine ⟨fun x y hxy p => by simp only [storeLocal, hword hxy],
      Or.inr ⟨1, 0x10001, ones, fun u hu => agree_one hu, fun heq => ?_⟩⟩
    have hval := congrArg pending heq
    change ones.pending &&& ~~~(1#64 <<< 1) = ones.pending at hval
    exact absurd hval (by decide)
  rw [if_neg (by omega)]
  refine ⟨fun x y _ p => ?_, Or.inl rfl⟩
  simp only [storeLocal]

theorem consumes (addr : U64) :
    Consumes (fun v (p : Plic) => p.store addr v) (storeWidth addr) := by
  have hagree (u : Width) (hu : u.bytes < Width.b4.bytes) := agree_zero_half hu
  have hword {x y : U64} (hxy : Agree .b4 x y) : (x.setWidth 32 : U32) = y.setWidth 32 :=
    hxy.setWidth (by decide)
  by_cases h1 : (addr - base).toNat ≤ 0x0001FF
  · simp only [store_priority _ _ h1, storeWidth, if_pos h1]
    refine ⟨fun x y hxy p => by rw [hword hxy], Or.inr ⟨0, _, ones, hagree, fun heq => ?_⟩⟩
    have hval := congrFun (congrArg priority heq) (Fin.ofNat 128 ((addr - base).toNat / 4))
    simp only [Function.update_self] at hval
    exact absurd hval (by decide)
  by_cases h3 : 0x002000 ≤ (addr - base).toNat ∧ (addr - base).toNat ≤ 0x003FFF
  · simp only [store_enable _ _ h1 h3, storeWidth, if_neg h1, if_pos h3]
    cases enableIndex (addr - base).toNat with
    | none => exact ⟨fun x y _ p => rfl, Or.inl rfl⟩
    | some i =>
        refine ⟨fun x y hxy p => by simp only [hword hxy], Or.inr ⟨0, _, ones, hagree,
          fun heq => ?_⟩⟩
        have hval := congrFun (congrFun (congrArg enable heq) i.1) i.2
        simp only [Function.update_self] at hval
        exact absurd hval (by decide)
  by_cases h4 : 0x200000 ≤ (addr - base).toNat ∧ (addr - base).toNat ≤ 0x20FFFF
  · simp only [store_context _ _ h1 h3 h4, storeWidth, if_neg h1, if_neg h3, if_pos h4]
    cases contextIndex (addr - base).toNat with
    | none => exact ⟨fun x y _ p => rfl, Or.inl rfl⟩
    | some ctx =>
        generalize ((addr - base).toNat - 0x200000) % 0x1000 = n
        simp only [Option.isSome_some, true_and]
        exact storeLocal_consumes ctx n
  · simp only [store_nowhere _ _ h1 h3 h4, storeWidth, if_neg h1, if_neg h3, if_neg h4]
    exact ⟨fun x y _ p => rfl, Or.inl rfl⟩

end Plic

/-! ## The block device -/

namespace VirtioBlk

def loadWidth (off : U64) : Width :=
  if off ∈ [0x000#64, 0x00C#64, 0x038#64, 0x044#64, 0x060#64, 0x070#64, 0x100#64, 0x104#64]
  then .b4
  else if off = 0x034#64 then .b2
  else .b1

/-- The offsets of the 32-bit registers a store can change. -/
def wordRegisters : List U64 :=
  [0x014#64, 0x020#64, 0x024#64, 0x038#64, 0x044#64, 0x064#64, 0x080#64, 0x084#64, 0x090#64,
    0x094#64, 0x0a0#64, 0x0a4#64]

/-- The reset compares the whole value with zero, and not only the stored word. -/
def storeWidth (off : U64) : Width :=
  if off ∈ wordRegisters then .b4
  else if off = 0x070#64 then .b8
  else .b1

/-- A device with every bit set that a load can return. -/
def ones : VirtioBlk :=
  { new none with
    capacity := u64Max
    queueNum := 0xFFFF_FFFF
    queueReady := 0xFFFF_FFFF
    irqStatus := 0xFFFF_FFFF
    deviceStatus := 0xFFFF_FFFF }

theorem reads (off : U64) : Reads (fun v : VirtioBlk => v.load off) (loadWidth off) := by
  rw [loadWidth]
  by_cases hword : off ∈ [0x000#64, 0x00C#64, 0x038#64, 0x044#64, 0x060#64, 0x070#64, 0x100#64,
    0x104#64]
  · rw [if_pos hword]
    simp only [List.mem_cons, List.not_mem_nil, or_false] at hword
    rcases hword with rfl | rfl | rfl | rfl | rfl | rfl | rfl | rfl
    · exact ⟨fun v => show virtioMagic.toNat < 2 ^ 32 by decide, Or.inr ⟨ones, by decide⟩⟩
    · exact ⟨fun v => show virtioVendor.toNat < 2 ^ 32 by decide, Or.inr ⟨ones, by decide⟩⟩
    · exact ⟨fun v => word_lt v.queueNum, Or.inr ⟨ones, by decide⟩⟩
    · exact ⟨fun v => word_lt v.queueReady, Or.inr ⟨ones, by decide⟩⟩
    · exact ⟨fun v => word_lt v.irqStatus, Or.inr ⟨ones, by decide⟩⟩
    · exact ⟨fun v => word_lt v.deviceStatus, Or.inr ⟨ones, by decide⟩⟩
    · exact ⟨fun v => word_lt (v.capacity.setWidth 32), Or.inr ⟨ones, by decide⟩⟩
    · refine ⟨fun v => ?_, Or.inr ⟨ones, by decide⟩⟩
      have h := v.capacity.isLt
      show (v.capacity >>> 32).toNat < 2 ^ 32
      rw [BitVec.toNat_ushiftRight, Nat.shiftRight_eq_div_pow]
      omega
  rw [if_neg hword]
  by_cases hmax : off = 0x034#64
  · rw [if_pos hmax, hmax]
    exact ⟨fun v => show (BitVec.ofNat 64 queueSize).toNat < 2 ^ 16 by decide,
      Or.inr ⟨ones, by decide⟩⟩
  rw [if_neg hmax]
  refine ⟨fun v => ?_, Or.inl rfl⟩
  simp only [load]
  split
  all_goals first
    | exact absurd (by decide) hword
    | exact absurd rfl hmax
    | exact (show (2#64).toNat < 2 ^ 8 by decide)
    | exact (show (0#64).toNat < 2 ^ 8 by decide)
    | skip
  rw [deviceFeatures]
  split <;> decide

theorem setLow_eq (reg val : U64) :
    setLow reg val =
      (reg &&& 0xFFFF_FFFF_0000_0000) ||| ((val.setWidth 32 : U32).setWidth 64) := by
  rw [setLow]
  congr 1
  apply BitVec.eq_of_toNat_eq
  rw [BitVec.toNat_and, show (0xFFFF_FFFF : U64).toNat = 2 ^ 32 - 1 from rfl,
    Nat.and_two_pow_sub_one_eq_mod, BitVec.toNat_setWidth, BitVec.toNat_setWidth]
  omega

theorem setHigh_eq (reg val : U64) :
    setHigh reg val =
      (reg &&& 0x0000_0000_FFFF_FFFF) ||| (((val.setWidth 32 : U32).setWidth 64) <<< 32) := by
  have hshift : val <<< 32 = ((val.setWidth 32 : U32).setWidth 64) <<< 32 := by
    apply BitVec.eq_of_toNat_eq
    rw [BitVec.toNat_shiftLeft, BitVec.toNat_shiftLeft, BitVec.toNat_setWidth,
      BitVec.toNat_setWidth, Nat.shiftLeft_eq, Nat.shiftLeft_eq]
    omega
  rw [setHigh, hshift]

/-- The registers a store can change. -/
def registers (v : VirtioBlk) : List U64 :=
  [v.deviceFeaturesSel.setWidth 64, (v.driverFeatures 0).setWidth 64,
    v.driverFeaturesSel.setWidth 64, v.queueNum.setWidth 64, v.queueReady.setWidth 64,
    v.irqStatus.setWidth 64, v.descAddr, v.availAddr, v.usedAddr]

/-- Any other store does not look at the value, and at most notifies the queue. -/
theorem store_other (v : VirtioBlk) (val : U64) {off : U64} (hreg : off ∉ wordRegisters)
    (hstatus : off ≠ 0x070#64) : v.store off val = (decide (off = 0x050#64), v) := by
  by_cases hnotify : off = 0x050#64
  · rw [hnotify]
    rfl
  rw [decide_eq_false hnotify]
  unfold store
  dsimp only
  split
  all_goals first
    | exact absurd (by decide) hreg
    | exact absurd rfl hstatus
    | exact absurd rfl hnotify
    | rfl

theorem consumes (off : U64) :
    Consumes (fun val (v : VirtioBlk) => v.store off val) (storeWidth off) := by
  have hword {x y : U64} (hxy : Agree .b4 x y) : (x.setWidth 32 : U32) = y.setWidth 32 :=
    hxy.setWidth (by decide)
  have hhalf {w : Width} (u : Width) (hu : u.bytes < w.bytes) := agree_zero_half hu
  rw [storeWidth]
  by_cases hreg : off ∈ wordRegisters
  · rw [if_pos hreg]
    constructor
    · intro x y hxy v
      simp only [wordRegisters, List.mem_cons, List.not_mem_nil, or_false] at hreg
      rcases hreg with rfl | rfl | rfl | rfl | rfl | rfl | rfl | rfl | rfl | rfl | rfl | rfl <;>
        simp only [store, setLow_eq, setHigh_eq, hword hxy]
    · refine Or.inr ⟨0, _, ones, hhalf, fun heq => ?_⟩
      simp only [wordRegisters, List.mem_cons, List.not_mem_nil, or_false] at hreg
      rcases hreg with rfl | rfl | rfl | rfl | rfl | rfl | rfl | rfl | rfl | rfl | rfl | rfl <;>
        exact absurd (congrArg (fun r => r.2.registers) heq) (by decide)
  rw [if_neg hreg]
  by_cases hstatus : off = 0x070#64
  · rw [if_pos hstatus, hstatus]
    refine ⟨fun x y hxy v => ?_, Or.inr ⟨0, _, ones, hhalf, fun heq => ?_⟩⟩
    · have hval : x = y := by simpa using hxy.setWidth (n := 64) (by decide)
      rw [hval]
    · exact absurd (congrArg (fun r => r.2.registers) heq) (by decide)
  rw [if_neg hstatus]
  refine ⟨fun x y _ v => ?_, Or.inl rfl⟩
  exact (store_other v x hreg hstatus).trans (store_other v y hreg hstatus).symm

end VirtioBlk

/-! ## The bus -/

/-- The width of what a load from a device returns.  RAM returns as much as it is asked for. -/
def loadWidth (addr : U64) : Width :=
  match region addr with
  | .clint => Clint.loadWidth addr
  | .plic => Plic.loadWidth addr
  | .uart => .b1
  | .virtioBlk => VirtioBlk.loadWidth (addr - 0x1000_1000#64)
  | .ram => .b1

/-- The width of what a device takes of a stored value.  RAM takes as much as it is told to. -/
def storeWidth (addr : U64) : Width :=
  match region addr with
  | .clint => Clint.storeWidth addr
  | .plic => Plic.storeWidth addr
  | .uart => .b1
  | .virtioBlk => VirtioBlk.storeWidth (addr - 0x1000_1000#64)
  | .ram => .b1

namespace Bus

/-- A load of the width from the address fits it, whatever the state of the machine. -/
def LoadFits (addr : U64) (w : Width) : Prop :=
  ∀ b v b', load addr w b = some (.ok v, b') → v.toNat < 2 ^ (8 * w.bytes)

/-- A store of the width to the address looks at the low bytes of the value only. -/
def StoreFits (addr : U64) (w : Width) : Prop :=
  ∀ x y, Agree w x y → ∀ b, store addr w x b = store addr w y b

theorem loadFits_of_reads {σ : Type} {addr : U64} {w u : Width} {f : σ → U64} (get : Bus → σ)
    (set : Bus → Bus) (hget : ∀ s, ∃ b, get b = s) (hf : Reads f u)
    (hload : ∀ b, load addr w b = some (.ok (f (get b)), set b)) :
    LoadFits addr w ↔ u.bytes ≤ w.bytes := by
  rw [← hf.fits_iff w]
  constructor
  · intro h s
    obtain ⟨b, rfl⟩ := hget s
    exact h b _ _ (hload b)
  · intro h b v b' hb
    rw [hload b] at hb
    cases hb
    exact h (get b)

theorem loadFits_iff (addr : U64) (w : Width) :
    LoadFits addr w ↔ (loadWidth addr).bytes ≤ w.bytes := by
  rw [loadWidth]
  cases hr : region addr with
  | clint =>
      exact loadFits_of_reads clint id (fun s => ⟨{ new 0 0 with clint := s }, rfl⟩)
        (Clint.reads addr) fun b => load_clint w b hr
  | plic =>
      exact loadFits_of_reads plic (fun b => { b with plic := (b.plic.load addr).2 })
        (fun s => ⟨{ new 0 0 with plic := s }, rfl⟩) (Plic.reads addr) fun b => load_plic w b hr
  | uart =>
      exact loadFits_of_reads uart (fun b => { b with uart := (b.uart.load addr).2 })
        (fun s => ⟨{ new 0 0 with uart := s }, rfl⟩) (Uart16550.reads addr)
        fun b => load_uart w b hr
  | virtioBlk =>
      exact loadFits_of_reads virtioBlk id (fun s => ⟨{ new 0 0 with virtioBlk := s }, rfl⟩)
        (VirtioBlk.reads _) fun b => load_virtioBlk w b hr
  | ram =>
      refine iff_of_true (fun b v b' hb => ?_) w.bytes_pos
      cases ho : b.offset addr w with
      | error e => rw [load_ram_error hr ho] at hb; cases hb
      | ok off =>
          rw [load_ram hr ho] at hb
          cases hb
          exact Bytes.readLe_lt _ _ w.bytes_le

theorem storeFits_of_consumes {σ τ : Type} {addr : U64} {w u : Width} {f : U64 → σ → τ}
    (get : Bus → σ) (put : Bus → τ → Option (Except BusFault Unit × Bus))
    (hget : ∀ s, ∃ b, get b = s) (hput : ∀ b, Function.Injective (put b)) (hf : Consumes f u)
    (hstore : ∀ v b, store addr w v b = put b (f v (get b))) :
    StoreFits addr w ↔ u.bytes ≤ w.bytes := by
  rw [← hf.ignores_iff w]
  constructor
  · intro h x y hxy s
    obtain ⟨b, rfl⟩ := hget s
    have hb := h x y hxy b
    rw [hstore, hstore] at hb
    exact hput b hb
  · intro h x y hxy b
    rw [hstore, hstore, h x y hxy (get b)]

/-- A store that does not notify the block device, as one of its registers. -/
theorem virtio_consumes {off : U64} (hn : off ≠ 0x050#64) :
    Consumes (fun val (v : VirtioBlk) => (v.store off val).2) (VirtioBlk.storeWidth off) := by
  have h := VirtioBlk.consumes off
  refine ⟨fun x y hxy v => congrArg Prod.snd (h.enough x y hxy v), ?_⟩
  rcases h.needed with hw | ⟨x, y, v, hagree, hne⟩
  · exact Or.inl hw
  · refine Or.inr ⟨x, y, v, hagree, fun heq => hne (Prod.ext ?_ heq)⟩
    exact (virtio_store_fst v x hn).trans (virtio_store_fst v y hn).symm

theorem setBytes_agree {w : Width} {x y : U64} (hxy : Agree w x y) (b : Bus) (off : Nat) :
    b.setBytes off w.bytes x = b.setBytes off w.bytes y := by
  have hlow : x.setWidth (8 * w.bytes) = y.setWidth (8 * w.bytes) := hxy.setWidth (Nat.le_refl _)
  rw [setBytes, setBytes, ← Bytes.writeLe_low _ _ x rfl, hlow, Bytes.writeLe_low _ _ y rfl]

theorem storeFits_iff (addr : U64) (w : Width) :
    StoreFits addr w ↔ (storeWidth addr).bytes ≤ w.bytes := by
  rw [storeWidth]
  cases hr : region addr with
  | clint =>
      exact storeFits_of_consumes clint (fun b c => some (.ok (), { b with clint := c }))
        (fun s => ⟨{ new 0 0 with clint := s }, rfl⟩) (fun b c c' h => by cases h; rfl)
        (Clint.consumes addr) fun v b => store_clint w b v hr
  | plic =>
      exact storeFits_of_consumes plic (fun b p => some (.ok (), { b with plic := p }))
        (fun s => ⟨{ new 0 0 with plic := s }, rfl⟩) (fun b c c' h => by cases h; rfl)
        (Plic.consumes addr) fun v b => store_plic w b v hr
  | uart =>
      exact storeFits_of_consumes uart (fun b u => some (.ok (), { b with uart := u }))
        (fun s => ⟨{ new 0 0 with uart := s }, rfl⟩) (fun b c c' h => by cases h; rfl)
        (Uart16550.consumes addr) fun v b => store_uart w b v hr
  | virtioBlk =>
      by_cases hn : addr - 0x1000_1000#64 = 0x050#64
      · rw [hn]
        refine iff_of_true (fun x y _ b => ?_) w.bytes_pos
        simp only [store, hr, hn]
        rfl
      · exact storeFits_of_consumes virtioBlk
          (fun b v => some (.ok (), { b with virtioBlk := v }))
          (fun s => ⟨{ new 0 0 with virtioBlk := s }, rfl⟩) (fun b c c' h => by cases h; rfl)
          (virtio_consumes hn) fun v b => store_virtioBlk w b v hr fun h => hn h.2
  | ram =>
      refine iff_of_true (fun x y hxy b => ?_) w.bytes_pos
      cases ho : b.offset addr w with
      | error e => rw [store_ram_error x hr ho, store_ram_error y hr ho]
      | ok off => rw [store_ram x hr ho, store_ram y hr ho, setBytes_agree hxy]

end Bus

end RiscvEmu

import RiscvEmu.Device.Widths
import RiscvEmu.Execution.Accesses

/-!
# Widths of guest accesses

A load that stays in its page is one load of the bus, so its value fits the width exactly when
the register of the device does.  A load that crosses a page is assembled from single bytes, of
which only the low eight bits are kept, and always fits.  Stores are alike: one store of the
bus, or single bytes cut out of the value.
-/

namespace RiscvEmu

namespace Cpu

variable {c c' : Cpu} {mode : PrivMode} {va : U64} {w : Width}

/-! ## Loads -/

/-- Byte `j` put in its place leaves a value of `j` bytes with `j + 1` of them. -/
theorem or_byte_lt {v b : U64} {j : Nat} (hv : v.toNat < 2 ^ (8 * j)) :
    (v ||| ((b &&& 0xff) <<< (j * 8))).toNat < 2 ^ (8 * (j + 1)) := by
  rw [BitVec.toNat_or]
  refine Nat.or_lt_two_pow (Nat.lt_of_lt_of_le hv (Nat.pow_le_pow_right (by decide) (by omega))) ?_
  have hb : (b &&& 0xff).toNat < 2 ^ 8 := by
    rw [BitVec.toNat_and]
    exact Nat.lt_of_le_of_lt Nat.and_le_right (by decide)
  rw [BitVec.toNat_shiftLeft, Nat.shiftLeft_eq]
  calc (b &&& 0xff).toNat * 2 ^ (j * 8) % 2 ^ 64
      ≤ (b &&& 0xff).toNat * 2 ^ (j * 8) := Nat.mod_le _ _
    _ < 2 ^ 8 * 2 ^ (j * 8) := Nat.mul_lt_mul_of_pos_right hb (Nat.two_pow_pos _)
    _ = 2 ^ (8 * (j + 1)) := by rw [← Nat.pow_add]; congr 1; omega

theorem loadBytes_lt {pa va' : U64} {k : Nat} :
    ∀ {n i : Nat} {v v' : U64} {c c' : Cpu}, v.toNat < 2 ^ (8 * (k + i)) →
      loadBytes pa va' k n i v c = some (.ok v', c') → v'.toNat < 2 ^ (8 * (k + i + n))
  | 0, i, v, v', c, c', hv, h => by
      cases h
      exact hv
  | n + 1, i, v, v', c, c', hv, h => by
      obtain ⟨b, c₁, _, h⟩ := Run.bind_eq_ok h
      have hlt := loadBytes_lt (n := n) (i := i + 1) (or_byte_lt hv) h
      rwa [show k + i + (n + 1) = k + (i + 1) + n by omega]

/-- A load fits its width if the register it reads does.  One that crosses a page always does. -/
theorem mmuLoad_fits {v : U64} (h : mmuLoad mode va w c = some (.ok v, c'))
    (hw : ¬ Crosses va w → ∀ pa c₁, translateOrTrap mode va .load c = some (.ok pa, c₁) →
      (loadWidth pa).bytes ≤ w.bytes) : v.toNat < 2 ^ (8 * w.bytes) := by
  rw [mmuLoad] at h
  by_cases hin : pageOff va + w.bytes ≤ 0x1000
  · rw [if_pos hin] at h
    obtain ⟨pa, c₁, ht, h⟩ := Run.bind_eq_ok h
    obtain ⟨r, b, hb, hr, _⟩ := busLoad_eq_some h
    cases r with
    | error e => cases hr
    | ok v' =>
        cases hr
        exact (Bus.loadFits_iff pa w).mpr (hw (not_not.mpr hin) pa c₁ ht) _ _ _ hb
  · rw [if_neg hin] at h
    obtain ⟨pa₁, c₁, _, h⟩ := Run.bind_eq_ok h
    obtain ⟨pa₂, c₂, _, h⟩ := Run.bind_eq_ok h
    obtain ⟨v₁, c₃, h₁, h⟩ := Run.bind_eq_ok h
    have hfirst : v₁.toNat < 2 ^ (8 * (0 + 0 + (0x1000 - pageOff va))) :=
      loadBytes_lt (by decide) h₁
    rw [show 0 + 0 + (0x1000 - pageOff va) = 0x1000 - pageOff va + 0 by omega] at hfirst
    have hall := loadBytes_lt hfirst h
    rwa [show 0x1000 - pageOff va + 0 + (w.bytes - (0x1000 - pageOff va)) = w.bytes by
      have hoff := pageOff_lt va
      omega] at hall

/-! ## Stores -/

/-- A byte below the width is one of the bytes that agree. -/
theorem agree_byte {x y : U64} (hxy : Agree w x y) {j : Nat} (hj : j < w.bytes) :
    (x >>> (j * 8)) &&& 0xff = (y >>> (j * 8)) &&& 0xff := by
  have hlow : x.setWidth (8 * w.bytes) = y.setWidth (8 * w.bytes) := hxy.setWidth (Nat.le_refl _)
  apply BitVec.eq_of_getLsbD_eq
  intro i hi
  rw [BitVec.getLsbD_and, BitVec.getLsbD_and, BitVec.getLsbD_ushiftRight,
    BitVec.getLsbD_ushiftRight]
  by_cases h8 : i < 8
  · have hbit := congrArg (fun v => v.getLsbD (j * 8 + i)) hlow
    simp only [BitVec.getLsbD_setWidth, show j * 8 + i < 8 * w.bytes by omega, decide_true,
      Bool.true_and] at hbit
    rw [hbit]
  · have hmask : (0xff : U64).getLsbD i = false := by
      rw [show (0xff : U64) = (0xff : U8).setWidth 64 from rfl, BitVec.getLsbD_setWidth,
        BitVec.getLsbD_of_ge _ i (by omega), Bool.and_false]
    rw [hmask, Bool.and_false, Bool.and_false]

theorem storeBytes_agree {x y pa va' : U64} (hxy : Agree w x y) {k : Nat} :
    ∀ {n i : Nat}, k + i + n ≤ w.bytes → storeBytes pa va' k x n i = storeBytes pa va' k y n i
  | 0, _, _ => rfl
  | n + 1, i, h => by
      rw [storeBytes, storeBytes, agree_byte hxy (show k + i < w.bytes by omega),
        storeBytes_agree hxy (show k + (i + 1) + n ≤ w.bytes by omega)]

/-- Two values that agree on the width of a store have the same effect if the register it writes
is no wider.  A store that crosses a page takes the low bytes only. -/
theorem mmuStore_agree {x y : U64} (hxy : Agree w x y)
    (hw : ¬ Crosses va w → ∀ pa c₁, translateOrTrap mode va .store c = some (.ok pa, c₁) →
      (storeWidth pa).bytes ≤ w.bytes) :
    mmuStore mode va w x c = mmuStore mode va w y c := by
  rw [mmuStore, mmuStore]
  by_cases hin : pageOff va + w.bytes ≤ 0x1000
  · rw [if_pos hin, if_pos hin, Run.bind_apply, Run.bind_apply]
    cases ht : translateOrTrap mode va .store c with
    | none => rfl
    | some p =>
        obtain ⟨r, c₁⟩ := p
        cases r with
        | error t => rfl
        | ok pa =>
            have hfits := (Bus.storeFits_iff pa w).mpr (hw (not_not.mpr hin) pa c₁ ht)
            dsimp only
            rw [busStore, busStore, Run.zoom, Run.zoom, hfits x y hxy]
  · have hoff := pageOff_lt va
    have hfirst (pa va' : U64) : storeBytes pa va' 0 x (0x1000 - pageOff va) 0 =
        storeBytes pa va' 0 y (0x1000 - pageOff va) 0 := storeBytes_agree hxy (by omega)
    have hrest (pa va' : U64) :
        storeBytes pa va' (0x1000 - pageOff va) x (w.bytes - (0x1000 - pageOff va)) 0 =
          storeBytes pa va' (0x1000 - pageOff va) y (w.bytes - (0x1000 - pageOff va)) 0 :=
      storeBytes_agree hxy (by omega)
    simp only [if_neg hin, hfirst, hrest]

end Cpu

/-- What an access of the width at the address keeps to, and when.  Loads and stores of the
guest keep to their width whenever the accesses of the bus they make do. -/
theorem widthLaw_iff (addr : U64) (w : Width) :
    (Bus.LoadFits addr w ↔ (loadWidth addr).bytes ≤ w.bytes) ∧
    (Bus.StoreFits addr w ↔ (storeWidth addr).bytes ≤ w.bytes) ∧
    (∀ (mode : PrivMode) (va : U64) (c c' : Cpu) (v : U64),
      (∀ pa c₁, Cpu.translateOrTrap mode va .load c = some (.ok pa, c₁) →
        (loadWidth pa).bytes ≤ w.bytes) →
      Cpu.mmuLoad mode va w c = some (.ok v, c') → v.toNat < 2 ^ (8 * w.bytes)) ∧
    ∀ (mode : PrivMode) (va x y : U64) (c : Cpu), Agree w x y →
      (∀ pa c₁, Cpu.translateOrTrap mode va .store c = some (.ok pa, c₁) →
        (storeWidth pa).bytes ≤ w.bytes) →
      Cpu.mmuStore mode va w x c = Cpu.mmuStore mode va w y c :=
  ⟨Bus.loadFits_iff addr w, Bus.storeFits_iff addr w,
    fun _ _ _ _ _ hw h => Cpu.mmuLoad_fits h fun _ => hw,
    fun _ _ _ _ _ hxy hw => Cpu.mmuStore_agree hxy fun _ => hw⟩

/-- A one-byte load of the timer's compare register returns all eight bytes. -/
theorem timer_ignores_width :
    ¬ ∀ (addr : U64) (w : Width), Bus.LoadFits addr w ∧ Bus.StoreFits addr w := by
  intro h
  have hfits := (h 0x0200_4000 .b1).1 (Bus.new 0 0) u64Max (Bus.new 0 0)
    (Bus.load_clint .b1 (Bus.new 0 0) (by decide))
  exact absurd hfits (by decide)

end RiscvEmu

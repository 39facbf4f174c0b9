import RiscvEmu.Lib.Bytes

/-!
# Bytes put in places

A store that is made byte by byte puts each byte of a value in a place of its own, or in none.  What
it leaves for every value tells where the bytes go: if it is the value as a whole, the bytes are put
one behind the other (`scattered_run`), and if it is the same for all values, they are put nowhere
(`scattered_nowhere`).
-/

namespace Bytes

/-- The second memory is the first one with the bytes from `lo` up to `hi` of a value put in their
places.  Where several bytes have the same place, it holds one of them. -/
def Scattered (place : Nat → Option Nat) (lo hi : Nat) (v : BitVec 64) (m m' : Nat → BitVec 8) :
    Prop :=
  ∀ a, (∃ i, lo ≤ i ∧ i < hi ∧ place i = some a ∧ m' a = byteAt v i) ∨
    ((∀ i, lo ≤ i → i < hi → place i ≠ some a) ∧ m' a = m a)

namespace Scattered

variable {place : Nat → Option Nat} {lo mid hi i : Nat} {v : BitVec 64}
  {m m₁ m' : Nat → BitVec 8}

theorem refl (lo : Nat) (m : Nat → BitVec 8) : Scattered place lo lo v m m :=
  fun _ => .inr ⟨fun _ hle hlt => absurd hle (Nat.not_le.mpr hlt), rfl⟩

theorem trans (h : Scattered place lo mid v m m₁) (h' : Scattered place mid hi v m₁ m')
    (hlo : lo ≤ mid) (hhi : mid ≤ hi) : Scattered place lo hi v m m' := by
  intro a
  rcases h' a with ⟨i, hle, hlt, hplace, hbyte⟩ | ⟨hlate, hkeep⟩
  · exact .inl ⟨i, Nat.le_trans hlo hle, hlt, hplace, hbyte⟩
  · rcases h a with ⟨i, hle, hlt, hplace, hbyte⟩ | ⟨hearly, hkeep'⟩
    · exact .inl ⟨i, hle, Nat.lt_of_lt_of_le hlt hhi, hplace, hkeep.trans hbyte⟩
    · refine .inr ⟨fun i hle hlt => ?_, hkeep.trans hkeep'⟩
      rcases Nat.lt_or_ge i mid with hin | hin
      · exact hearly i hle hin
      · exact hlate i hin hlt

/-- A byte that is put nowhere. -/
theorem none (hplace : place i = .none) : Scattered place i (i + 1) v m m := by
  intro a
  refine .inr ⟨fun j hle hlt => ?_, rfl⟩
  obtain rfl : j = i := by omega
  rw [hplace]
  exact (Option.some_ne_none a).symm

/-- A byte that is put in its place. -/
theorem one {a : Nat} (hplace : place i = some a) :
    Scattered place i (i + 1) v m (writeLe m a 1 (v >>> (i * 8))) := by
  intro a'
  by_cases ha : a' = a
  · subst ha
    refine .inl ⟨i, Nat.le_refl i, Nat.lt_succ_self i, hplace, ?_⟩
    have hin := writeLe_inside m (o := a') (v >>> (i * 8)) Nat.one_pos
    rw [Nat.add_zero, byteAt_ushiftRight, Nat.add_zero] at hin
    exact hin
  · refine .inr ⟨fun j hle hlt hj => ?_, writeLe_outside _ _ (by omega)⟩
    obtain rfl : j = i := by omega
    rw [hplace] at hj
    exact ha (Option.some.inj hj).symm

/-- Bytes whose places lie one behind the other. -/
theorem run {n off : Nat} (hplace : ∀ i < n, place i = some (off + i)) :
    Scattered place 0 n v m (writeLe m off n v) := by
  intro a
  by_cases ha : off ≤ a ∧ a < off + n
  · obtain ⟨i, rfl⟩ := Nat.exists_eq_add_of_le ha.1
    exact .inl ⟨i, Nat.zero_le i, by omega, hplace i (by omega), writeLe_inside _ _ (by omega)⟩
  · refine .inr ⟨fun i _ hi hat => ?_, writeLe_outside _ _ (by omega)⟩
    rw [hplace i hi] at hat
    have heq := Option.some.inj hat
    omega

end Scattered

section

variable {place : Nat → Option Nat} {n : Nat} {m m' : Nat → BitVec 8}

/-- The value with the given bytes. -/
def ofBytes (f : Nat → BitVec 8) : BitVec 64 := readLe f 0 8

theorem byteAt_ofBytes (f : Nat → BitVec 8) {i : Nat} (hi : i < 8) :
    byteAt (ofBytes f) i = f i := by
  rw [ofBytes, byteAt_readLe _ _ _ _ (Nat.le_refl 8), if_pos hi, Nat.zero_add]

/-- If every value is left as a whole, its bytes are put one behind the other. -/
theorem scattered_run {m₁ : Nat → BitVec 8} {off : Nat} (hn : n ≤ 8)
    (h : ∀ v, Scattered place 0 n v m (writeLe m₁ off n v)) :
    (∀ i < n, place i = some (off + i)) ∧ ∀ a, a < off ∨ off + n ≤ a → m a = m₁ a := by
  have hrun : ∀ i < n, place i = some (off + i) := by
    intro i hi
    -- the values differ in byte `i` only
    have hone := h (ofBytes fun j => if j = i then 0xFF else 0) (off + i)
    have hzero := h (ofBytes fun _ => 0) (off + i)
    rw [writeLe_inside _ _ hi, byteAt_ofBytes _ (by omega)] at hone hzero
    rw [if_pos rfl] at hone
    rcases hone with ⟨j, -, hj, hplace, hbyte⟩ | ⟨hnone, hkeep⟩
    · rw [byteAt_ofBytes _ (by omega)] at hbyte
      by_cases hji : j = i
      · rw [← hji] at hplace ⊢
        exact hplace
      · rw [if_neg hji] at hbyte
        exact absurd hbyte (by decide)
    · rcases hzero with ⟨j, hle, hj, hplace, -⟩ | ⟨-, hkeep'⟩
      · exact absurd hplace (hnone j hle hj)
      · rw [← hkeep] at hkeep'
        exact absurd hkeep' (by decide)
  refine ⟨hrun, fun a ha => ?_⟩
  rcases h 0 a with ⟨j, -, hj, hplace, -⟩ | ⟨-, hkeep⟩
  · rw [hrun j hj] at hplace
    have heq := Option.some.inj hplace
    omega
  · rw [← hkeep, writeLe_outside _ _ ha]

/-- If the same is left for all values, their bytes are put nowhere. -/
theorem scattered_nowhere (hn : n ≤ 8) (h : ∀ v, Scattered place 0 n v m m') :
    (∀ i < n, place i = none) ∧ m' = m := by
  have hnone : ∀ i < n, place i = none := by
    intro i hi
    cases hplace : place i with
    | none => rfl
    | some a =>
        have hsome : ∀ x, m' a = x := by
          intro x
          rcases h (ofBytes fun _ => x) a with ⟨j, -, hj, -, hbyte⟩ | ⟨hno, -⟩
          · rw [hbyte, byteAt_ofBytes _ (by omega)]
          · exact absurd hplace (hno i (Nat.zero_le i) hi)
        exact absurd ((hsome 0).symm.trans (hsome 1)) (by decide)
  refine ⟨hnone, funext fun a => ?_⟩
  rcases h 0 a with ⟨j, -, hj, hplace, -⟩ | ⟨-, hkeep⟩
  · rw [hnone j hj] at hplace
    cases hplace
  · exact hkeep

end

end Bytes

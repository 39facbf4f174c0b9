import Mathlib.Algebra.Group.Nat.Defs
import Mathlib.Logic.Function.Basic
import Mathlib.Tactic.Common

/-!
# Little-endian words in a byte memory

A memory is a function from addresses to bytes.  `readLe m o n` is the little-endian value of
the `n` bytes from `o`, zero-extended to 64 bits, and `writeLe m o n v` puts the low `n` bytes
of `v` there.  A 64-bit value is determined by its eight bytes (`eq_of_byteAt`), so the facts
about words are all read off the bytes.
-/

namespace Bytes

/-- Byte `i` of a 64-bit value, counted from the least significant one. -/
def byteAt (v : BitVec 64) (i : Nat) : BitVec 8 := v.extractLsb' (8 * i) 8

/-- The little-endian value of the `n` bytes from `o`. -/
def readLe (m : Nat → BitVec 8) (o : Nat) : Nat → BitVec 64
  | 0 => 0
  | n + 1 => (m o).setWidth 64 ||| (readLe m (o + 1) n <<< 8)

/-- The memory with the low `n` bytes of `v` at `o`. -/
def writeLe (m : Nat → BitVec 8) (o n : Nat) (v : BitVec 64) : Nat → BitVec 8 :=
  fun a => if o ≤ a ∧ a < o + n then byteAt v (a - o) else m a

/-- The low `n` bytes of a value, the least significant one first. -/
def leBytes (n : Nat) (v : BitVec 64) : List (BitVec 8) := (List.range n).map (byteAt v)

/-! ## Bytes of a value -/

theorem leBytes_length (n : Nat) (v : BitVec 64) : (leBytes n v).length = n := by
  rw [leBytes, List.length_map, List.length_range]

theorem byteAt_getElem (v : BitVec 64) (i : Nat) {j : Nat} (hj : j < 8) :
    (byteAt v i).getLsbD j = v.getLsbD (8 * i + j) := by
  simp [byteAt, hj]

/-- A 64-bit value is determined by its eight bytes. -/
theorem eq_of_byteAt {v w : BitVec 64} (h : ∀ i < 8, byteAt v i = byteAt w i) : v = w := by
  apply BitVec.eq_of_getLsbD_eq
  intro k hk
  have hb := congrArg (fun b => b.getLsbD (k % 8)) (h (k / 8) (by omega))
  simp only [byteAt_getElem _ _ (show k % 8 < 8 by omega)] at hb
  rwa [show 8 * (k / 8) + k % 8 = k by omega] at hb

theorem byteAt_of_le (v : BitVec 64) {i : Nat} (h : 8 ≤ i) : byteAt v i = 0 := by
  apply BitVec.eq_of_getLsbD_eq
  intro j hj
  rw [byteAt_getElem _ _ hj, BitVec.getLsbD_of_ge _ _ (by omega)]
  simp

theorem byteAt_or (v w : BitVec 64) (i : Nat) :
    byteAt (v ||| w) i = byteAt v i ||| byteAt w i := by
  apply BitVec.eq_of_getLsbD_eq
  intro j hj
  simp [byteAt_getElem _ _ hj]

theorem byteAt_setWidth (b : BitVec 8) (i : Nat) :
    byteAt (b.setWidth 64) i = if i = 0 then b else 0 := by
  apply BitVec.eq_of_getLsbD_eq
  intro j hj
  rw [byteAt_getElem _ _ hj]
  by_cases hi : i = 0
  · subst hi
    simp
    omega
  · simp only [BitVec.getLsbD_setWidth, hi, if_false]
    rw [BitVec.getLsbD_of_ge b _ (by omega)]
    simp

theorem byteAt_shiftLeft_eight (v : BitVec 64) (i : Nat) :
    byteAt (v <<< 8) i = if i = 0 ∨ 8 ≤ i then 0 else byteAt v (i - 1) := by
  apply BitVec.eq_of_getLsbD_eq
  intro j hj
  by_cases hi : i = 0 ∨ 8 ≤ i
  · rw [if_pos hi, byteAt_getElem _ _ hj]
    simp only [BitVec.getLsbD_shiftLeft]
    rcases hi with rfl | hi
    · simp [hj]
    · simp; omega
  · rw [if_neg hi, byteAt_getElem _ _ hj, byteAt_getElem _ _ hj]
    simp only [BitVec.getLsbD_shiftLeft]
    rw [show 8 * (i - 1) + j = 8 * i + j - 8 by omega]
    simp; omega

/-- A byte shifted to position `m` is byte `m` of the result, and the only one. -/
theorem byteAt_shiftLeft_byte (v : BitVec 64) {m : Nat} (hm : m < 8) (i : Nat) :
    byteAt ((v &&& 0xff) <<< (m * 8)) i = if i = m then byteAt v 0 else 0 := by
  have hmask : ∀ k < 64, (0xff : BitVec 64).getLsbD k = decide (k < 8) := by decide
  apply BitVec.eq_of_getLsbD_eq
  intro j hj
  rw [byteAt_getElem _ _ hj, BitVec.getLsbD_shiftLeft]
  by_cases hi : i = m
  · subst hi
    rw [if_pos rfl, byteAt_getElem _ _ hj, show 8 * i + j - i * 8 = j by omega, BitVec.getLsbD_and,
      hmask j (by omega)]
    simp [hj, show 8 * i + j < 64 by omega, show i * 8 ≤ 8 * i + j by omega]
  · rw [if_neg hi]
    by_cases hlt : 8 * i + j < 64
    · by_cases hlow : 8 * i + j < m * 8
      · simp [hlow]
      · rw [BitVec.getLsbD_and, hmask (8 * i + j - m * 8) (by omega)]
        simp [show ¬ 8 * i + j - m * 8 < 8 by omega]
    · simp [hlt]

theorem byteAt_ushiftRight (v : BitVec 64) (m i : Nat) :
    byteAt (v >>> (m * 8)) i = byteAt v (m + i) := by
  apply BitVec.eq_of_getLsbD_eq
  intro j hj
  rw [byteAt_getElem _ _ hj, byteAt_getElem _ _ hj, BitVec.getLsbD_ushiftRight]
  congr 1
  omega

/-! ## Reading -/

/-- The bytes of a value read from memory are the bytes of the memory. -/
theorem byteAt_readLe (m : Nat → BitVec 8) :
    ∀ (n o i : Nat), n ≤ 8 → byteAt (readLe m o n) i = if i < n then m (o + i) else 0
  | 0, o, i, _ => by
      simp only [readLe, Nat.not_lt_zero, if_false]
      apply BitVec.eq_of_getLsbD_eq
      intro j hj
      simp [byteAt_getElem _ _ hj]
  | n + 1, o, i, hn => by
      rw [readLe, byteAt_or, byteAt_setWidth, byteAt_shiftLeft_eight]
      by_cases hi : i = 0
      · subst hi
        simp
      · by_cases h8 : 8 ≤ i
        · simp [hi, h8, show ¬ i < n + 1 by omega]
        · rw [if_neg hi, if_neg (by omega), byteAt_readLe m n (o + 1) (i - 1) (by omega),
            show o + 1 + (i - 1) = o + i by omega]
          by_cases hlt : i < n + 1
          · simp [hlt, show i - 1 < n by omega]
          · simp [hlt, show ¬ i - 1 < n by omega]

/-- The bits of a value read from memory are those of the bytes. -/
theorem getLsbD_readLe (m : Nat → BitVec 8) (o : Nat) {n k : Nat} (hn : n ≤ 8) (hk : k < 8 * n) :
    (readLe m o n).getLsbD k = (m (o + k / 8)).getLsbD (k % 8) := by
  have hbyte := byteAt_readLe m n o (k / 8) hn
  rw [if_pos (by omega)] at hbyte
  rw [← hbyte, byteAt_getElem _ _ (Nat.mod_lt k (by decide)), Nat.div_add_mod]

/-- A value read from memory has no bits beyond its bytes. -/
theorem readLe_lt (m : Nat → BitVec 8) (o : Nat) {n : Nat} (hn : n ≤ 8) :
    (readLe m o n).toNat < 2 ^ (8 * n) := by
  apply Nat.lt_pow_two_of_testBit
  intro k hk
  have hbyte := byteAt_readLe m n o (k / 8) hn
  rw [if_neg (by omega)] at hbyte
  have hbit := byteAt_getElem (readLe m o n) (k / 8) (Nat.mod_lt k (by decide))
  rw [hbyte, Nat.div_add_mod] at hbit
  exact hbit.symm.trans BitVec.getLsbD_zero

/-- The low bytes of a value, read from its own bytes. -/
theorem readLe_byteAt (v : BitVec 64) {n : Nat} (hn : n ≤ 8) :
    readLe (byteAt v) 0 n = BitVec.ofNat 64 (v.toNat % 2 ^ (8 * n)) := by
  apply BitVec.eq_of_getLsbD_eq
  intro k hk
  rw [BitVec.getLsbD_ofNat, Nat.testBit_mod_two_pow, decide_eq_true hk, Bool.true_and]
  by_cases hin : k < 8 * n
  · rw [getLsbD_readLe _ _ hn hin, Nat.zero_add, byteAt_getElem _ _ (Nat.mod_lt k (by decide)),
      Nat.div_add_mod, decide_eq_true hin, Bool.true_and]
    rfl
  · have hbyte := byteAt_readLe (byteAt v) n 0 (k / 8) hn
    rw [if_neg (by omega)] at hbyte
    have hbit := byteAt_getElem (readLe (byteAt v) 0 n) (k / 8) (Nat.mod_lt k (by decide))
    rw [hbyte, Nat.div_add_mod] at hbit
    rw [← hbit, decide_eq_false hin, Bool.false_and]
    exact BitVec.getLsbD_zero

/-- A value read depends only on the bytes it covers. -/
theorem readLe_congr {m m' : Nat → BitVec 8} :
    ∀ {n o : Nat}, (∀ i < n, m (o + i) = m' (o + i)) → readLe m o n = readLe m' o n
  | 0, _, _ => rfl
  | n + 1, o, h => by
      have hhead := h 0 (by omega)
      have htail : readLe m (o + 1) n = readLe m' (o + 1) n :=
        readLe_congr fun i hi => by
          have := h (i + 1) (by omega)
          rwa [show o + (i + 1) = o + 1 + i by omega] at this
      simp only [Nat.add_zero] at hhead
      rw [readLe, readLe, hhead, htail]

/-- Zero bytes are the value zero. -/
theorem readLe_of_zero {m : Nat → BitVec 8} :
    ∀ {n o : Nat}, (∀ i < n, m (o + i) = 0) → readLe m o n = 0
  | 0, _, _ => rfl
  | n + 1, o, h => by
      have hhead := h 0 (Nat.succ_pos n)
      have htail : readLe m (o + 1) n = 0 :=
        readLe_of_zero fun i hi => by
          have := h (i + 1) (Nat.succ_lt_succ hi)
          rwa [show o + (i + 1) = o + 1 + i by omega] at this
      simp only [Nat.add_zero] at hhead
      rw [readLe, hhead, htail]
      rfl

/-! ## Writing -/

theorem writeLe_inside (m : Nat → BitVec 8) {o n : Nat} (v : BitVec 64) {i : Nat} (h : i < n) :
    writeLe m o n v (o + i) = byteAt v i := by
  rw [writeLe, if_pos (by omega), Nat.add_sub_cancel_left]

theorem writeLe_outside (m : Nat → BitVec 8) {o n a : Nat} (v : BitVec 64)
    (h : a < o ∨ o + n ≤ a) : writeLe m o n v a = m a := by
  rw [writeLe, if_neg (by omega)]

@[simp] theorem writeLe_zero (m : Nat → BitVec 8) (o : Nat) (v : BitVec 64) :
    writeLe m o 0 v = m :=
  funext fun _ => if_neg (by omega)

/-- Two neighbouring parts of a value, written one after the other. -/
theorem writeLe_append (m : Nat → BitVec 8) (o a b : Nat) (v : BitVec 64) :
    writeLe (writeLe m o a v) (o + a) b (v >>> (a * 8)) = writeLe m o (a + b) v := by
  funext k
  simp only [writeLe]
  by_cases hlow : k < o + a
  · rw [if_neg (by omega)]
    by_cases hin : o ≤ k
    · rw [if_pos ⟨hin, hlow⟩, if_pos (by omega)]
    · rw [if_neg (by omega), if_neg (by omega)]
  · rw [if_neg (show ¬ (o ≤ k ∧ k < o + a) by omega)]
    by_cases hin : k < o + a + b
    · rw [if_pos (by omega), if_pos (by omega), byteAt_ushiftRight]
      congr 1
      omega
    · rw [if_neg (by omega), if_neg (by omega)]

/-- A byte is written from the low bits alone. -/
theorem writeLe_mask_one (m : Nat → BitVec 8) (o : Nat) (v : BitVec 64) :
    writeLe m o 1 (v &&& 0xff) = writeLe m o 1 v := by
  have hmask := byteAt_shiftLeft_byte v (show 0 < 8 by decide) 0
  rw [if_pos rfl, Nat.zero_mul, BitVec.shiftLeft_zero] at hmask
  funext k
  simp only [writeLe]
  by_cases hin : o ≤ k ∧ k < o + 1
  · rw [if_pos hin, if_pos hin, show k - o = 0 by omega, hmask]
  · rw [if_neg hin, if_neg hin]

/-- A write takes the low bytes of a value only. -/
theorem writeLe_low (m : Nat → BitVec 8) (o : Nat) {w n : Nat} (v : BitVec 64) (hw : w = 8 * n) :
    writeLe m o n ((v.setWidth w).setWidth 64) = writeLe m o n v := by
  funext k
  simp only [writeLe]
  by_cases hin : o ≤ k ∧ k < o + n
  · rw [if_pos hin, if_pos hin]
    apply BitVec.eq_of_getLsbD_eq
    intro j hj
    rw [byteAt_getElem _ _ hj, byteAt_getElem _ _ hj, BitVec.getLsbD_setWidth,
      BitVec.getLsbD_setWidth]
    by_cases h64 : 8 * (k - o) + j < 64
    · simp [h64, show 8 * (k - o) + j < w by omega]
    · rw [BitVec.getLsbD_of_ge v _ (by omega)]
      simp
  · rw [if_neg hin, if_neg hin]

/-- A value with no bytes beyond the ones written reads back as it was written. -/
theorem readLe_writeLe_of_byteAt (m : Nat → BitVec 8) (o : Nat) {n : Nat} {v : BitVec 64}
    (hn : n ≤ 8) (hv : ∀ i, n ≤ i → byteAt v i = 0) : readLe (writeLe m o n v) o n = v := by
  apply eq_of_byteAt
  intro i _
  rw [byteAt_readLe _ _ _ _ hn]
  by_cases hi : i < n
  · rw [if_pos hi, writeLe_inside m v hi]
  · rw [if_neg hi, hv i (by omega)]

/-- A full word reads back as it was written. -/
theorem readLe_writeLe (m : Nat → BitVec 8) (o : Nat) (v : BitVec 64) :
    readLe (writeLe m o 8 v) o 8 = v :=
  readLe_writeLe_of_byteAt m o (Nat.le_refl 8) fun _ hi => byteAt_of_le v hi

/-- A narrow value has no bytes beyond its width. -/
theorem byteAt_setWidth_of_le {w : Nat} (x : BitVec w) {i : Nat} (h : w ≤ 8 * i) :
    byteAt (x.setWidth 64) i = 0 := by
  apply BitVec.eq_of_getLsbD_eq
  intro j hj
  rw [byteAt_getElem _ _ hj, BitVec.getLsbD_setWidth, BitVec.getLsbD_of_ge x _ (by omega)]
  simp

/-- A narrow value reads back as it was written. -/
theorem readLe_writeLe_setWidth (m : Nat → BitVec 8) (o : Nat) {w n : Nat} (x : BitVec w)
    (hn : n ≤ 8) (hw : w = 8 * n) :
    (readLe (writeLe m o n (x.setWidth 64)) o n).setWidth w = x := by
  rw [readLe_writeLe_of_byteAt m o hn fun i hi => byteAt_setWidth_of_le x (by omega)]
  exact (BitVec.setWidth_setWidth_of_le x (by omega)).trans (BitVec.setWidth_eq x)

/-- A write leaves a disjoint range alone. -/
theorem readLe_writeLe_disjoint (m : Nat → BitVec 8) {o n o' n' : Nat} (v : BitVec 64)
    (h : o' + n' ≤ o ∨ o + n ≤ o') : readLe (writeLe m o n v) o' n' = readLe m o' n' :=
  readLe_congr fun i hi => writeLe_outside m v (by omega)

end Bytes

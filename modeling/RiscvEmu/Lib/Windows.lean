import Mathlib.Algebra.Group.Nat.Defs
import Mathlib.Data.BitVec

/-!
# Windows on a file of words

A file holds a word for each of its fields.  An address names a field and a *window* on it: some
bits of the word are shown, some are set by a store, some are kept by it, and some are always
shown as one.  Several addresses may have windows on one field, and a store through one of them is
seen through the others, but at no address of another field.
-/

/-- A window on a word of `n` bits.  What it stores it shows. -/
structure Window (n : Nat) where
  readable : BitVec n
  writable : BitVec n
  kept : BitVec n
  fixed : BitVec n
  shown : writable &&& readable = writable

namespace Window

variable {n : Nat} (w : Window n) (old v : BitVec n)

/-- What a load shows of the word. -/
def view : BitVec n := (old ||| w.fixed) &&& w.readable

/-- The word that a store leaves. -/
def put : BitVec n := (old &&& w.kept) ||| (v &&& w.writable)

/-- The bits shown that a store does not change. -/
def retained : BitVec n := w.kept &&& w.readable &&& ~~~w.fixed

/-- A load after a store: the bits stored, the fixed ones, and the retained ones of the load
before. -/
theorem view_put :
    w.view (w.put old v) =
      (v &&& w.writable) ||| (w.fixed &&& w.readable) ||| (w.view old &&& w.retained) := by
  apply BitVec.eq_of_getLsbD_eq
  intro i hi
  have hshown : (w.writable.getLsbD i && w.readable.getLsbD i) = w.writable.getLsbD i := by
    rw [← BitVec.getLsbD_and, w.shown]
  simp only [view, put, retained, BitVec.getLsbD_and, BitVec.getLsbD_or, BitVec.getLsbD_not, hi]
  revert hshown
  cases w.writable.getLsbD i <;> cases w.readable.getLsbD i <;> cases w.fixed.getLsbD i <;>
    cases w.kept.getLsbD i <;> simp [Bool.or_comm]

/-- Outside the bits it sets, a store leaves no other bits than the kept ones. -/
theorem put_outside (hall : w.kept ||| w.writable = BitVec.allOnes n) :
    w.put old v &&& ~~~w.writable = old &&& ~~~w.writable := by
  apply BitVec.eq_of_getLsbD_eq
  intro i hi
  have hor : (w.kept.getLsbD i || w.writable.getLsbD i) = true := by
    rw [← BitVec.getLsbD_or, hall]
    simp [hi]
  simp only [put, BitVec.getLsbD_and, BitVec.getLsbD_or, BitVec.getLsbD_not, hi]
  revert hor
  cases w.writable.getLsbD i <;> cases w.kept.getLsbD i <;> simp

end Window

/-- A file of words over the fields `F`. -/
structure WordFile (S F : Type) (n : Nat) where
  get : S → F → BitVec n
  set : S → F → BitVec n → S
  get_set_self : ∀ s f v, get (set s f v) f = v
  get_set_of_ne : ∀ s v {f g}, g ≠ f → get (set s f v) g = get s g

namespace WordFile

variable {S F A : Type} {n : Nat} (file : WordFile S F n) (place : A → Option (F × Window n))

/-- A load at an address: zero where there is no field. -/
def load (s : S) (a : A) : BitVec n :=
  match place a with
  | some (f, w) => w.view (file.get s f)
  | none => 0

/-- A store at an address: nothing where there is no field. -/
def store (s : S) (a : A) (v : BitVec n) : S :=
  match place a with
  | some (f, w) => file.set s f (w.put (file.get s f) v)
  | none => s

variable {place}

theorem get_store {s : S} {a : A} {f : F} {w : Window n} (v : BitVec n)
    (ha : place a = some (f, w)) :
    file.get (file.store place s a v) f = w.put (file.get s f) v := by
  simp only [store, ha]
  exact file.get_set_self s f _

/-- A store changes the field of its address only. -/
theorem get_store_of_ne (s : S) {a : A} {g : F} (v : BitVec n)
    (hne : (place a).map Prod.fst ≠ some g) :
    file.get (file.store place s a v) g = file.get s g := by
  cases ha : place a with
  | none => simp only [store, ha]
  | some p =>
      have hg : g ≠ p.1 := by
        intro h
        exact hne (by simp [ha, h])
      simp only [store, ha]
      exact file.get_set_of_ne s _ hg

/-- A store is not seen at an address of another field. -/
theorem load_store_of_ne (s : S) {a b : A} (v : BitVec n)
    (hne : ∀ f, (place a).map Prod.fst = some f → (place b).map Prod.fst ≠ some f) :
    file.load place (file.store place s a v) b = file.load place s b := by
  cases hb : place b with
  | none => simp only [load, hb]
  | some p =>
      have hp : (place a).map Prod.fst ≠ some p.1 := by
        intro h
        exact hne p.1 h (by simp [hb])
      simp only [load, hb]
      rw [file.get_store_of_ne s v hp]

/-- A store is seen at its own address through the window. -/
theorem load_store_self (s : S) {a : A} {f : F} {w : Window n} (v : BitVec n)
    (ha : place a = some (f, w)) :
    file.load place (file.store place s a v) a =
      (v &&& w.writable) ||| (w.fixed &&& w.readable) |||
        (file.load place s a &&& w.retained) := by
  have hload : ∀ s', file.load place s' a = w.view (file.get s' f) := by
    intro s'
    simp only [load, ha]
  rw [hload, hload, file.get_store v ha, w.view_put]

end WordFile

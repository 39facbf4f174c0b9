import Mathlib.Data.List.Basic
import RiscvEmu.Lib.Bytes

/-!
# Images placed in memory

A memory is a function on addresses.  Putting a list at a position replaces what was there; of
several lists put one after the other, each address holds what the last to cover it has there.  So
all of them can be read back exactly when any two agree where both are.
-/

namespace Overlay

variable {α : Type*}

/-- The memory with the elements of a list from a position on. -/
def put (m : Nat → α) (p : Nat) (bs : List α) : Nat → α := fun a =>
  if p ≤ a then (bs[a - p]?).getD (m a) else m a

/-- The memory with some images, put one after the other. -/
def putAll (m : Nat → α) (ps : List (Nat × List α)) : Nat → α :=
  ps.foldl (fun m p => put m p.1 p.2) m

/-- An address is one of those of an image. -/
def Covers (p : Nat × List α) (a : Nat) : Prop := p.1 ≤ a ∧ a < p.1 + p.2.length

instance (p : Nat × List α) (a : Nat) : Decidable (Covers p a) :=
  inferInstanceAs (Decidable (_ ∧ _))

/-- The memory holds an image. -/
def Shows (m : Nat → α) (p : Nat × List α) : Prop :=
  ∀ a, Covers p a → p.2[a - p.1]? = some (m a)

/-- Two images have the same element wherever both are. -/
def Agree (p q : Nat × List α) : Prop :=
  ∀ a, Covers p a → Covers q a → p.2[a - p.1]? = q.2[a - q.1]?

variable {m : Nat → α} {p q : Nat × List α} {ps pre post : List (Nat × List α)} {a : Nat}

theorem putAll_cons : putAll m (p :: ps) = putAll (put m p.1 p.2) ps := List.foldl_cons ..

theorem putAll_append : putAll m (pre ++ post) = putAll (putAll m pre) post := List.foldl_append

/-- An image that was put is there. -/
theorem put_shows (m : Nat → α) (p : Nat × List α) : Shows (put m p.1 p.2) p := by
  rintro a ⟨hlow, hhigh⟩
  have hlt : a - p.1 < p.2.length := by omega
  rw [put, if_pos hlow, List.getElem?_eq_getElem hlt, Option.getD_some]

theorem put_outside (h : ¬ Covers p a) : put m p.1 p.2 a = m a := by
  rw [put]
  split
  · rename_i hlow
    rw [List.getElem?_eq_none (by rw [Covers] at h; omega), Option.getD_none]
  · rfl

/-- Writing a word is putting its bytes. -/
theorem put_leBytes (m : Nat → BitVec 8) (o n : Nat) (v : BitVec 64) :
    put m o (Bytes.leBytes n v) = Bytes.writeLe m o n v := by
  funext a
  rw [put, Bytes.writeLe, Bytes.leBytes]
  by_cases hlow : o ≤ a
  · rw [if_pos hlow]
    by_cases hhigh : a < o + n
    · rw [if_pos ⟨hlow, hhigh⟩, List.getElem?_map, List.getElem?_range (by omega)]
      rfl
    · rw [if_neg fun hin => hhigh hin.2, List.getElem?_eq_none (by simp; omega)]
      rfl
  · rw [if_neg hlow, if_neg fun hin => hlow hin.1]

/-- An address that no image covers is as it was. -/
theorem putAll_uncovered (h : ∀ p ∈ ps, ¬ Covers p a) : putAll m ps a = m a := by
  induction ps generalizing m with
  | nil => rfl
  | cons p ps ih =>
      obtain ⟨hhead, htail⟩ := List.forall_mem_cons.mp h
      rw [putAll_cons, ih htail, put_outside hhead]

/-- An address holds what the last image to cover it has there. -/
theorem putAll_last (hcovers : Covers p a) (hpost : ∀ q ∈ post, ¬ Covers q a) :
    p.2[a - p.1]? = some (putAll m (pre ++ p :: post) a) := by
  rw [putAll_append, putAll_cons, putAll_uncovered hpost]
  exact put_shows _ p a hcovers

/-- Some image covers an address last, or none does. -/
theorem exists_last (ps : List (Nat × List α)) (a : Nat) : (∀ p ∈ ps, ¬ Covers p a) ∨
    ∃ pre p post, ps = pre ++ p :: post ∧ Covers p a ∧ ∀ q ∈ post, ¬ Covers q a := by
  induction ps with
  | nil => exact Or.inl nofun
  | cons p ps ih =>
      rcases ih with hnone | ⟨pre, q, post, rfl, hcovers, hpost⟩
      · by_cases hcovers : Covers p a
        · exact Or.inr ⟨[], p, ps, rfl, hcovers, hnone⟩
        · exact Or.inl (List.forall_mem_cons.mpr ⟨hcovers, hnone⟩)
      · exact Or.inr ⟨p :: pre, q, post, rfl, hcovers, hpost⟩

theorem Shows.agree (hp : Shows m p) (hq : Shows m q) : Agree p q := fun a hpa hqa =>
  (hp a hpa).trans (hq a hqa).symm

/-- Images that have no address in common agree. -/
theorem agree_of_apart (h : p.1 + p.2.length ≤ q.1 ∨ q.1 + q.2.length ≤ p.1) : Agree p q := by
  rintro a ⟨hlow, hhigh⟩ ⟨hlow', hhigh'⟩
  omega

/-- Images that were put one after the other can all be read back exactly when any two of them
agree where both are. -/
theorem shows_all_iff (m : Nat → α) (ps : List (Nat × List α)) :
    (∀ p ∈ ps, Shows (putAll m ps) p) ↔ ps.Pairwise Agree := by
  constructor
  · exact fun h => List.pairwise_of_forall_mem_list fun p hp q hq => (h p hp).agree (h q hq)
  · intro h
    induction ps generalizing m with
    | nil => exact nofun
    | cons p ps ih =>
        obtain ⟨hhead, htail⟩ := List.pairwise_cons.mp h
        rw [putAll_cons]
        refine List.forall_mem_cons.mpr ⟨fun a hcovers => ?_, ih _ htail⟩
        rcases exists_last ps a with hnone | ⟨pre, q, post, rfl, hq, hpost⟩
        · rw [putAll_uncovered hnone]
          exact put_shows m p a hcovers
        · have hmem : q ∈ pre ++ q :: post := List.mem_append_right _ (List.mem_cons_self ..)
          rw [hhead q hmem a hcovers hq]
          exact putAll_last hq hpost

end Overlay

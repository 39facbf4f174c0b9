import Mathlib.Algebra.Group.Nat.Defs
import Mathlib.Logic.Function.Basic

/-!
# Radix searches in a word memory

A table of a radix tree is a block of words.  A search for one key looks at one word of each
table on its way down: the word is bad, or it is a leaf, or it names the next table.  The depth
of the tree is fixed, and a search that is not done at the last level finds nothing.

*Congruence.*  What a search finds depends on a word only through its view.  So two memories
whose words agree up to a relation that respects the view give outcomes that agree up to it
(`Search.find_rel`), and a memory in which a leaf was replaced by a related word finds related
leaves everywhere.  Only the words at the slots the search visits matter (`Search.find_rel_on`).
-/

namespace Radix

variable {T A W : Type}

/-- What a word means to a search. -/
inductive View (T : Type) where
  | bad
  | leaf
  | next (table : T)

/-- The search for one key: its slot in a table above the given number of further levels, and
the meaning of a word. -/
structure Search (T A W : Type) where
  slot : Nat → T → A
  view : W → View T

/-- The outcome of a search. -/
inductive Outcome (A W : Type) where
  /-- A slot on the way could not be read. -/
  | unreadable
  /-- A bad word, or no leaf at the last level. -/
  | bad
  /-- A leaf: the levels below it, where it is, and the word. -/
  | leaf (rem : Nat) (addr : A) (word : W)

/-- Outcomes that agree up to a relation on words. -/
inductive Outcome.Rel (R : W → W → Prop) : Outcome A W → Outcome A W → Prop
  | unreadable : Rel R .unreadable .unreadable
  | bad : Rel R .bad .bad
  | leaf {rem : Nat} {a : A} {w w' : W} : R w w' → Rel R (.leaf rem a w) (.leaf rem a w')

theorem Outcome.Rel.eq {o o' : Outcome A W} (h : Outcome.Rel Eq o o') : o = o' := by
  cases h with
  | unreadable | bad => rfl
  | leaf hw => rw [hw]

namespace Search

variable (S : Search T A W)

/-- Search the given number of levels from a table. -/
def find (read : A → Option W) : Nat → T → Outcome A W
  | 0, _ => .bad
  | rem + 1, t =>
      match read (S.slot rem t) with
      | none => .unreadable
      | some w =>
          match S.view w with
          | .bad => .bad
          | .leaf => .leaf rem (S.slot rem t) w
          | .next t' => find read rem t'

/-- Every slot the search looks at can be read. -/
def Readable (read : A → Option W) : Nat → T → Prop
  | 0, _ => True
  | rem + 1, t =>
      ∃ w, read (S.slot rem t) = some w ∧ ∀ t', S.view w = .next t' → Readable read rem t'

/-- The slots the search looks at, from the root down. -/
def visits (read : A → Option W) : Nat → T → List A
  | 0, _ => []
  | rem + 1, t =>
      S.slot rem t ::
        match read (S.slot rem t) with
        | none => []
        | some w =>
            match S.view w with
            | .next t' => visits read rem t'
            | _ => []

variable {S}

theorem find_of_next {read : A → Option W} {rem : Nat} {t t' : T} {w : W}
    (hw : read (S.slot rem t) = some w) (hv : S.view w = .next t') :
    S.find read (rem + 1) t = S.find read rem t' := by
  simp only [find, hw, hv]

theorem find_of_leaf {read : A → Option W} {rem : Nat} {t : T} {w : W}
    (hw : read (S.slot rem t) = some w) (hv : S.view w = .leaf) :
    S.find read (rem + 1) t = .leaf rem (S.slot rem t) w := by
  simp only [find, hw, hv]

theorem find_of_bad {read : A → Option W} {rem : Nat} {t : T} {w : W}
    (hw : read (S.slot rem t) = some w) (hv : S.view w = .bad) :
    S.find read (rem + 1) t = .bad := by
  simp only [find, hw, hv]

theorem visits_of_next {read : A → Option W} {rem : Nat} {t t' : T} {w : W}
    (hw : read (S.slot rem t) = some w) (hv : S.view w = .next t') :
    S.visits read (rem + 1) t = S.slot rem t :: S.visits read rem t' := by
  simp only [visits, hw, hv]

theorem slot_mem_visits (read : A → Option W) (rem : Nat) (t : T) :
    S.slot rem t ∈ S.visits read (rem + 1) t := by
  rw [visits]
  exact List.mem_cons_self

/-- A leaf that is found is stored where the search says, and it is a leaf. -/
theorem find_leaf {read : A → Option W} :
    ∀ {n : Nat} {t : T} {rem : Nat} {a : A} {w : W}, S.find read n t = .leaf rem a w →
      read a = some w ∧ S.view w = .leaf ∧ rem < n
  | 0, _, _, _, _, h => by cases h
  | n + 1, t, rem, a, w, h => by
      rw [find] at h
      cases hr : read (S.slot n t) with
      | none => rw [hr] at h; cases h
      | some w₀ =>
          cases hv : S.view w₀ with
          | bad => simp only [hr, hv] at h; cases h
          | leaf =>
              simp only [hr, hv] at h
              cases h
              exact ⟨hr, hv, Nat.lt_succ_self _⟩
          | next t' =>
              simp only [hr, hv] at h
              obtain ⟨h₁, h₂, h₃⟩ := find_leaf h
              exact ⟨h₁, h₂, Nat.lt_succ_of_lt h₃⟩

/-- A leaf that is found is at a slot the search visits. -/
theorem find_leaf_mem_visits {read : A → Option W} :
    ∀ {n : Nat} {t : T} {rem : Nat} {a : A} {w : W}, S.find read n t = .leaf rem a w →
      a ∈ S.visits read n t
  | 0, _, _, _, _, h => by cases h
  | n + 1, t, rem, a, w, h => by
      rw [find] at h
      cases hr : read (S.slot n t) with
      | none => rw [hr] at h; cases h
      | some w₀ =>
          cases hv : S.view w₀ with
          | bad => simp only [hr, hv] at h; cases h
          | leaf =>
              simp only [hr, hv] at h
              cases h
              exact slot_mem_visits read _ t
          | next t' =>
              simp only [hr, hv] at h
              rw [visits_of_next hr hv]
              exact List.mem_cons_of_mem _ (find_leaf_mem_visits h)

theorem readable_iff_visits {read : A → Option W} :
    ∀ {n : Nat} {t : T}, S.Readable read n t ↔ ∀ a ∈ S.visits read n t, (read a).isSome = true
  | 0, _ => by simp [Readable, visits]
  | n + 1, t => by
      simp only [Readable, visits, List.forall_mem_cons]
      cases hw : read (S.slot n t) with
      | none => simp
      | some w =>
          cases hv : S.view w with
          | next t' =>
              have ih : S.Readable read n t' ↔ _ := readable_iff_visits
              simp [hv, ih]
          | _ => simp [hv]

/-- A search over readable slots reads them all. -/
theorem Readable.find_ne_unreadable {read : A → Option W} :
    ∀ {n : Nat} {t : T}, S.Readable read n t → S.find read n t ≠ .unreadable
  | 0, _, _ => fun h => by cases h
  | n + 1, t, ⟨w, hw, hnext⟩ => by
      cases hv : S.view w with
      | bad => rw [find_of_bad hw hv]; exact fun h => by cases h
      | leaf => rw [find_of_leaf hw hv]; exact fun h => by cases h
      | next t' => rw [find_of_next hw hv]; exact (hnext t' hv).find_ne_unreadable

/-! ## Congruence -/

section Congruence

variable {R : W → W → Prop} {read read' : A → Option W}

/-- Memories that agree at the slots a search visits, up to a relation that respects the view, give
outcomes that agree. -/
theorem find_rel_on (hview : ∀ w w', R w w' → S.view w = S.view w') :
    ∀ {n : Nat} {t : T}, (∀ a ∈ S.visits read n t, Option.Rel R (read a) (read' a)) →
      Outcome.Rel R (S.find read n t) (S.find read' n t)
  | 0, _, _ => .bad
  | n + 1, t, hread => by
      have h := hread _ (slot_mem_visits read n t)
      rw [find, find]
      cases hx : read (S.slot n t) with
      | none =>
          rw [hx] at h
          cases hy : read' (S.slot n t) with
          | none => exact .unreadable
          | some w' => rw [hy] at h; cases h
      | some w =>
          rw [hx] at h
          cases hy : read' (S.slot n t) with
          | none => rw [hy] at h; cases h
          | some w' =>
              rw [hy] at h
              cases h with
              | some hw =>
                  have hv := hview w w' hw
                  cases hview' : S.view w with
                  | bad => simp only [hview', ← hv]; exact .bad
                  | leaf => simp only [hview', ← hv]; exact .leaf hw
                  | next t' =>
                      simp only [hview', ← hv]
                      rw [visits_of_next hx hview'] at hread
                      exact find_rel_on hview fun a ha => hread a (List.mem_cons_of_mem _ ha)

/-- Memories that agree up to a relation that respects the view give outcomes that agree. -/
theorem find_rel (hview : ∀ w w', R w w' → S.view w = S.view w')
    (hread : ∀ a, Option.Rel R (read a) (read' a)) (n : Nat) (t : T) :
    Outcome.Rel R (S.find read n t) (S.find read' n t) :=
  find_rel_on hview fun a _ => hread a

/-- In such memories a search visits the same slots. -/
theorem visits_rel (hview : ∀ w w', R w w' → S.view w = S.view w') :
    ∀ {n : Nat} {t : T}, (∀ a ∈ S.visits read n t, Option.Rel R (read a) (read' a)) →
      S.visits read' n t = S.visits read n t
  | 0, _, _ => rfl
  | n + 1, t, hread => by
      have h := hread _ (slot_mem_visits read n t)
      cases hx : read (S.slot n t) with
      | none =>
          rw [hx] at h
          cases hy : read' (S.slot n t) with
          | none => simp only [visits, hx, hy]
          | some w' => rw [hy] at h; cases h
      | some w =>
          rw [hx] at h
          cases hy : read' (S.slot n t) with
          | none => rw [hy] at h; cases h
          | some w' =>
              rw [hy] at h
              cases h with
              | some hw =>
                  have hv := hview w w' hw
                  cases hview' : S.view w with
                  | bad => simp only [visits, hx, hy, hview', ← hv]
                  | leaf => simp only [visits, hx, hy, hview', ← hv]
                  | next t' =>
                      rw [visits_of_next hx hview'] at hread ⊢
                      rw [visits_of_next hy (hv.symm.trans hview'),
                        visits_rel hview fun a ha => hread a (List.mem_cons_of_mem _ ha)]

/-- Slots stay readable when the words visited change up to such a relation. -/
theorem Readable.rel_on (hview : ∀ w w', R w w' → S.view w = S.view w') :
    ∀ {n : Nat} {t : T}, (∀ a ∈ S.visits read n t, Option.Rel R (read a) (read' a)) →
      S.Readable read n t → S.Readable read' n t
  | 0, _, _, _ => trivial
  | n + 1, t, hread, ⟨w, hw, hnext⟩ => by
      have h := hread _ (slot_mem_visits read n t)
      rw [hw] at h
      cases hy : read' (S.slot n t) with
      | none => rw [hy] at h; cases h
      | some w' =>
          rw [hy] at h
          cases h with
          | some hR =>
              refine ⟨w', hy, fun t' hv => ?_⟩
              have hv' := (hview w w' hR).trans hv
              rw [visits_of_next hw hv'] at hread
              exact Readable.rel_on hview (fun a ha => hread a (List.mem_cons_of_mem _ ha))
                (hnext t' hv')

theorem rel_of_eq {n : Nat} {t : T} (hsame : ∀ a ∈ S.visits read n t, read a = read' a) :
    ∀ a ∈ S.visits read n t, Option.Rel Eq (read a) (read' a) := by
  intro a ha
  rw [← hsame a ha]
  cases read a with
  | none => exact .none
  | some w => exact .some rfl

/-- Memories that are the same at the slots a search visits give the same outcome. -/
theorem find_congr {n : Nat} {t : T} (hsame : ∀ a ∈ S.visits read n t, read a = read' a) :
    S.find read n t = S.find read' n t :=
  (find_rel_on (fun _ _ h => congrArg S.view h) (rel_of_eq hsame)).eq

theorem Readable.congr {n : Nat} {t : T} (hsame : ∀ a ∈ S.visits read n t, read a = read' a)
    (h : S.Readable read n t) : S.Readable read' n t :=
  h.rel_on (fun _ _ h => congrArg S.view h) (rel_of_eq hsame)

/-- Slots stay readable when the memory changes up to such a relation. -/
theorem Readable.rel (hview : ∀ w w', R w w' → S.view w = S.view w')
    (hread : ∀ a, Option.Rel R (read a) (read' a)) {n : Nat} {t : T}
    (h : S.Readable read n t) : S.Readable read' n t :=
  h.rel_on hview fun a _ => hread a

end Congruence

end Search

end Radix

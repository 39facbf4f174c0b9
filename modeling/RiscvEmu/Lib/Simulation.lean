import Mathlib.Data.Option.Basic
import RiscvEmu.Lib.System

/-!
# Simulations

A *trail* of a relation whose steps carry marks has the marks of its steps, in order.  A system
simulates along such trails when each of its steps is a trail between related states, and then each
of its runs is.  Some marks are observed: a run and the trail it stands for have the same
observations.  Others count as progress: when each step makes some, a trail makes at least as much
as the run has steps, so a run that goes on forever stands for a trail that does.

Two systems with the same labels agree when each label takes related states to related results.
-/

/-- A trail, with the marks of its steps. -/
inductive Trail {A E : Type} (next : List E → A → A → Prop) (a : A) : List E → A → Prop where
  | refl : Trail next a [] a
  | tail {es fs : List E} {b c : A} : Trail next a es b → next fs b c → Trail next a (es ++ fs) c

namespace Trail

variable {A E : Type} {next : List E → A → A → Prop} {a b c : A} {es fs : List E}

theorem single (h : next es a b) : Trail next a es b := by
  have htail := Trail.refl.tail h
  rwa [List.nil_append] at htail

theorem trans (h : Trail next a es b) (h' : Trail next b fs c) : Trail next a (es ++ fs) c := by
  induction h' with
  | refl =>
      rw [List.append_nil]
      exact h
  | tail _ hnext ih =>
      rw [← List.append_assoc]
      exact ih.tail hnext

theorem head (h : next es a b) (h' : Trail next b fs c) : Trail next a (es ++ fs) c :=
  (single h).trans h'

/-- What the steps of a trail keep, the trail keeps. -/
theorem invariant {I : A → Prop} (hstep : ∀ es b c, I b → next es b c → I c) (ha : I a)
    (h : Trail next a es b) : I b := by
  induction h with
  | refl => exact ha
  | tail _ hnext ih => exact hstep _ _ _ ih hnext

/-- A trail of one relation is a trail of another one with the same marks, when its steps are. -/
theorem lift {B : Type} {next' : List E → B → B → Prop} {R : A → B → Prop}
    (hstep : ∀ es a a' b, R a b → next es a a' → ∃ b', Trail next' b es b' ∧ R a' b') {b : B}
    (hab : R a b) {a' : A} (h : Trail next a es a') : ∃ b', Trail next' b es b' ∧ R a' b' := by
  induction h with
  | refl => exact ⟨b, .refl, hab⟩
  | tail _ hnext ih =>
      obtain ⟨b₁, htrail, hrel⟩ := ih
      obtain ⟨b', htrail', hrel'⟩ := hstep _ _ _ _ hrel hnext
      exact ⟨b', htrail.trans htrail', hrel'⟩

end Trail

namespace System

variable {S T L A E O : Type}

/-- The state behind the steps of some labels, if each of them comes to an end. -/
def after (M : System S L) : List L → S → Option S
  | [], s => some s
  | l :: ls, s => (M.step l s).bind (M.after ls)

/-- What the steps of some labels put out.  A step puts out something that depends on its label and
on the state it leads to. -/
def outputs (M : System S L) (out : L → S → List O) : List L → S → List O
  | [], _ => []
  | l :: ls, s =>
      match M.step l s with
      | none => []
      | some s' => out l s' ++ M.outputs out ls s'

variable {M : System S L} {N : System T L}

theorem after_cons {l : L} {ls : List L} {s s' : S} (h : M.after (l :: ls) s = some s') :
    ∃ t, M.step l s = some t ∧ M.after ls t = some s' := Option.bind_eq_some_iff.mp h

theorem outputs_cons {out : L → S → List O} {l : L} {s s' : S} (h : M.step l s = some s')
    (ls : List L) : M.outputs out (l :: ls) s = out l s' ++ M.outputs out ls s' := by
  rw [outputs, h]

/-- What the steps keep, a run keeps. -/
theorem after_invariant {I : S → Prop} (hstep : ∀ s l s', I s → M.step l s = some s' → I s')
    {ls : List L} {s s' : S} (hs : I s) (h : M.after ls s = some s') : I s' := by
  induction ls generalizing s with
  | nil =>
      cases h
      exact hs
  | cons l ls ih =>
      obtain ⟨t, hfirst, hrest⟩ := after_cons h
      exact ih (hstep s l t hs hfirst) hrest

/-- A system whose steps are trails between related states, with the same observations and with some
progress, simulates along trails, with the same observations and at least as much progress as it
makes steps. -/
theorem after_trail {next : List E → A → A → Prop} {R : S → A → Prop} {out : L → S → List O}
    {observe : E → Option O} {progress : E → Bool}
    (hstep : ∀ s l s' a, R s a → M.step l s = some s' → ∃ es a', Trail next a es a' ∧ R s' a' ∧
      es.filterMap observe = out l s' ∧ 1 ≤ es.countP progress)
    {ls : List L} {s s' : S} {a : A} (hs : R s a) (h : M.after ls s = some s') :
    ∃ es a', Trail next a es a' ∧ R s' a' ∧ es.filterMap observe = M.outputs out ls s ∧
      ls.length ≤ es.countP progress := by
  induction ls generalizing s a with
  | nil =>
      cases h
      exact ⟨[], a, .refl, hs, rfl, Nat.le_refl 0⟩
  | cons l ls ih =>
      obtain ⟨t, hfirst, hrest⟩ := after_cons h
      obtain ⟨es, b, htrail, hb, hout, hpos⟩ := hstep s l t a hs hfirst
      obtain ⟨fs, a', htrail', ha', hout', hlen⟩ := ih hb hrest
      refine ⟨es ++ fs, a', htrail.trans htrail', ha', ?_, ?_⟩
      · rw [List.filterMap_append, hout, hout', outputs_cons hfirst]
      · rw [List.countP_append, List.length_cons, Nat.add_comm]
        exact Nat.add_le_add hpos hlen

/-- A change of the state that the steps of a run neither see nor undo is neither seen nor undone by
the run. -/
theorem after_map {I : S → Prop} {P : S → L → Prop} {f : S → S}
    (hstep : ∀ s l s', I s → P s l → M.step l s = some s' → I s')
    (hmap : ∀ s l, I s → P s l → M.step l (f s) = (M.step l s).map f) {ls : List L} {s : S}
    (hs : I s) (hrun : M.Along P ls s) : M.after ls (f s) = (M.after ls s).map f := by
  induction ls generalizing s with
  | nil => rfl
  | cons l ls ih =>
      obtain ⟨hp, hrest⟩ := hrun
      rw [after, after, hmap s l hs hp]
      cases hnext : M.step l s with
      | none => rfl
      | some s' => exact ih (hstep s l s' hs hp hnext) (hrest s' hnext)

/-- Systems that take related states to related results do so over whole runs. -/
theorem after_rel {R : S → T → Prop}
    (hstep : ∀ s t l, R s t → Option.Rel R (M.step l s) (N.step l t)) (ls : List L) {s : S} {t : T}
    (h : R s t) : Option.Rel R (M.after ls s) (N.after ls t) := by
  induction ls generalizing s t with
  | nil => exact .some h
  | cons l ls ih =>
      have hrel := hstep s t l h
      rw [after, after]
      cases hs : M.step l s with
      | none =>
          rw [hs] at hrel
          cases ht : N.step l t with
          | none => exact .none
          | some t' =>
              rw [ht] at hrel
              cases hrel
      | some s' =>
          rw [hs] at hrel
          cases ht : N.step l t with
          | none =>
              rw [ht] at hrel
              cases hrel
          | some t' =>
              rw [ht] at hrel
              cases hrel with
              | some hnext => exact ih hnext

end System

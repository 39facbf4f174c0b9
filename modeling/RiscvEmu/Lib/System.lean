import Mathlib.Logic.Function.Basic

/-!
# Systems and their runs

A system has initial states and a partial step for each label.  A run is *guarded* when every
step it takes, from whatever state, meets a condition on the state and the label.  What holds
initially and survives every guarded step holds in every state a guarded run reaches.

A run can also be given by its labels, and a condition asked of each of its steps; and a system can
record what its steps were, as a list of marks or as a flag.
-/

/-- A labelled system. -/
structure System (S L : Type) where
  init : S → Prop
  step : L → S → Option S

namespace System

variable {S L : Type} (M : System S L) (guard : S → L → Prop)

/-- The states that guarded runs reach. -/
inductive Reachable : S → Prop where
  | init {s : S} : M.init s → Reachable s
  | step {s s' : S} {l : L} : Reachable s → guard s l → M.step l s = some s' → Reachable s'

variable {M guard}

/-- The induction over a run. -/
theorem Reachable.invariant {I : S → Prop} (hinit : ∀ s, M.init s → I s)
    (hstep : ∀ s l s', I s → guard s l → M.step l s = some s' → I s') {s : S}
    (h : M.Reachable guard s) : I s := by
  induction h with
  | init hs => exact hinit _ hs
  | step _ hg hs ih => exact hstep _ _ _ ih hg hs

/-! ## Steps along a run -/

variable (M) in
/-- Every step of a run with the given labels meets a condition on the state before it. -/
def Along (P : S → L → Prop) : List L → S → Prop
  | [], _ => True
  | l :: ls, s => P s l ∧ ∀ s', M.step l s = some s' → Along P ls s'

theorem Along.mono {P Q : S → L → Prop} (himp : ∀ s l, P s l → Q s l) {ls : List L} {s : S}
    (h : M.Along P ls s) : M.Along Q ls s := by
  induction ls generalizing s with
  | nil => trivial
  | cons l ls ih => exact ⟨himp s l h.1, fun s' hs => ih (h.2 s' hs)⟩

theorem along_congr {P Q : S → L → Prop} (hiff : ∀ s l, P s l ↔ Q s l) (ls : List L) (s : S) :
    M.Along P ls s ↔ M.Along Q ls s :=
  ⟨.mono fun s l => (hiff s l).mp, .mono fun s l => (hiff s l).mpr⟩

/-- Conditions that agree where an invariant holds agree along a run. -/
theorem along_congr_on {I : S → Prop} {P Q : S → L → Prop}
    (hstep : ∀ s l s', I s → M.step l s = some s' → I s')
    (hiff : ∀ s l, I s → (P s l ↔ Q s l)) (ls : List L) {s : S} (hs : I s) :
    M.Along P ls s ↔ M.Along Q ls s := by
  induction ls generalizing s with
  | nil => exact Iff.rfl
  | cons l ls ih =>
      refine and_congr (hiff s l hs) (forall_congr' fun s' => ?_)
      exact forall_congr' fun hnext => ih (hstep s l s' hs hnext)

/-- So do conditions that agree where an invariant holds, when each of them keeps the invariant. -/
theorem along_congr_while {I : S → Prop} {P Q : S → L → Prop}
    (hstep : ∀ s l s', I s → Q s l → M.step l s = some s' → I s')
    (hiff : ∀ s l, I s → (P s l ↔ Q s l)) (ls : List L) {s : S} (hs : I s) :
    M.Along P ls s ↔ M.Along Q ls s := by
  induction ls generalizing s with
  | nil => exact Iff.rfl
  | cons l ls ih =>
      constructor
      · rintro ⟨hp, hrest⟩
        have hq := (hiff s l hs).mp hp
        exact ⟨hq, fun s' hnext => (ih (hstep s l s' hs hq hnext)).mp (hrest s' hnext)⟩
      · rintro ⟨hq, hrest⟩
        refine ⟨(hiff s l hs).mpr hq, fun s' hnext => ?_⟩
        exact (ih (hstep s l s' hs hq hnext)).mpr (hrest s' hnext)

/-! ## Records -/

variable (M) in
/-- The system with the list of the marks its steps leave, the newest first. -/
def tracing {H : Type} (mark : S → L → Option H) : System (List H × S) L where
  init s := s.1 = [] ∧ M.init s.2
  step l s := (M.step l s.2).map fun s' => ((mark s.2 l).toList ++ s.1, s')

variable (M) in
/-- The system with a flag that tells whether some step was an event. -/
def recording (event : S → L → Bool) : System (Bool × S) L where
  init s := s.1 = false ∧ M.init s.2
  step l s := (M.step l s.2).map fun s' => (s.1 || event s.2 l, s')

end System

import Mathlib.Order.Basic

/-!
# Loops that poll

A loop polls its state.  While the poll asks for a round, the state is replaced by the one its
body leaves; either may abort, which is `none`.  A run is given by the states in which its rounds
begin, so that what the rounds did can be read off it.

*Variants.*  A loop whose rounds never abort and lower a measure exits, after at most as many
rounds as the measure says.  When only the rounds that pass a test do, and by one each, the loop
exits in time exactly when the rounds that fail it end in time (`exits_within_iff`).  A loop with
an invariant under which every poll asks for a round never exits.
-/

/-- A loop: whether a round follows, and what a round does. -/
structure PollLoop (S : Type) where
  poll : S → Option Bool
  body : S → Option S

namespace PollLoop

variable {S : Type} (L : PollLoop S)

/-- A run of rounds, with the states in which they begin. -/
inductive Rounds : List S → S → S → Prop where
  | nil (s : S) : Rounds [] s s
  | cons {s t u : S} {ss : List S} :
      L.poll s = some true → L.body s = some t → Rounds ss t u → Rounds (s :: ss) s u

/-- The loop runs these rounds and is done. -/
def Exits (ss : List S) (s t : S) : Prop := L.Rounds ss s t ∧ L.poll t = some false

/-- The loop aborts in a state. -/
def Aborts (s : S) : Prop := L.poll s = none ∨ L.poll s = some true ∧ L.body s = none

/-- No run from a state aborts. -/
def Safe (s : S) : Prop := ∀ ss t, L.Rounds ss s t → ¬ L.Aborts t

variable {L} {s t u : S} {ss : List S}

namespace Rounds

/-- What every round preserves holds after a run. -/
theorem invariant {I : S → Prop}
    (hstep : ∀ s t, I s → L.poll s = some true → L.body s = some t → I t)
    (h : L.Rounds ss s t) (hs : I s) : I t := by
  induction h with
  | nil => exact hs
  | cons hp hb _ ih => exact ih (hstep _ _ hs hp hb)

/-- A run ends where it was cut, behind the last of its rounds that fails a test. -/
theorem cut_last {P : S → Prop} (h : L.Rounds ss s t) :
    ∃ pre post u, ss = pre ++ post ∧ L.Rounds pre s u ∧ L.Rounds post u t ∧
      (∀ w ∈ pre.getLast?, ¬ P w) ∧ ∀ w ∈ post, P w := by
  induction h with
  | nil s => exact ⟨[], [], s, rfl, .nil s, .nil s, nofun, nofun⟩
  | @cons s t u ss hp hb hrun ih =>
      obtain ⟨pre, post, w, rfl, hpre, hpost, hlast, hpass⟩ := ih
      cases pre with
      | cons r pre =>
          exact ⟨s :: r :: pre, post, w, rfl, .cons hp hb hpre, hpost, hlast, hpass⟩
      | nil =>
          cases hpre
          rcases Classical.em (P s) with hs | hs
          · exact ⟨[], s :: post, s, rfl, .nil s, .cons hp hb hpost, nofun,
              List.forall_mem_cons.mpr ⟨hs, hpass⟩⟩
          · refine ⟨[s], post, t, rfl, .cons hp hb (.nil t), hpost, ?_, hpass⟩
            rintro _ ⟨⟩
            exact hs

/-- Rounds after rounds. -/
theorem append {ss' : List S} (h : L.Rounds ss s t) (h' : L.Rounds ss' t u) :
    L.Rounds (ss ++ ss') s u := by
  induction h with
  | nil => exact h'
  | cons hp hb _ ih => exact .cons hp hb (ih h')

end Rounds

/-- A loop that is done is done at the same round in every run. -/
theorem Exits.length_le (h : L.Exits ss s t) {ss' : List S} {t' : S} (h' : L.Rounds ss' s t') :
    ss'.length ≤ ss.length := by
  obtain ⟨hrun, hdone⟩ := h
  induction hrun generalizing ss' with
  | nil =>
      cases h' with
      | nil => exact Nat.le_refl _
      | cons hp => cases hdone.symm.trans hp
  | cons _ hb _ ih =>
      cases h' with
      | nil => exact Nat.zero_le _
      | cons _ hb' hrun' =>
          obtain rfl := Option.some.inj (hb.symm.trans hb')
          exact Nat.succ_le_succ (ih hrun' hdone)

/-- The variant rule.  The induction is on the measure of the state that was reached. -/
theorem exits_of_variant (hsafe : L.Safe s) (μ : S → Nat)
    (hfall : ∀ ss t u, L.Rounds ss s t → L.poll t = some true → L.body t = some u → μ u < μ t) :
    ∃ ss t, ss.length ≤ μ s ∧ L.Exits ss s t := by
  induction hn : μ s using Nat.strongRecOn generalizing s with
  | ind n ih =>
      cases hpoll : L.poll s with
      | none => exact absurd (Or.inl hpoll) (hsafe [] s (.nil s))
      | some again =>
          cases again with
          | false => exact ⟨[], s, Nat.zero_le _, .nil s, hpoll⟩
          | true =>
              cases hbody : L.body s with
              | none => exact absurd (Or.inr ⟨hpoll, hbody⟩) (hsafe [] s (.nil s))
              | some u =>
                  have hlt : μ u < n := hn ▸ hfall [] s u (.nil s) hpoll hbody
                  obtain ⟨ss, t, hlen, hrun, hdone⟩ := ih (μ u) hlt
                    (fun ss t h => hsafe _ t (.cons hpoll hbody h))
                    (fun ss t w h => hfall _ t w (.cons hpoll hbody h)) rfl
                  exact ⟨s :: ss, t, Nat.le_trans (Nat.succ_le_succ hlen) hlt,
                    .cons hpoll hbody hrun, hdone⟩

/-- A state that an exiting loop comes to, with a round to follow, is one its rounds begin in. -/
theorem Exits.mem (h : L.Exits ss s t) {ss' : List S} {w : S} (h' : L.Rounds ss' s w)
    (hw : L.poll w = some true) : w ∈ ss := by
  obtain ⟨hrun, hdone⟩ := h
  induction hrun generalizing ss' with
  | nil =>
      cases h' with
      | nil => cases hdone.symm.trans hw
      | cons hp => cases hdone.symm.trans hp
  | cons _ hb _ ih =>
      cases h' with
      | nil => exact List.mem_cons_self ..
      | cons _ hb' hrun' =>
          obtain rfl := Option.some.inj (hb.symm.trans hb')
          exact List.mem_cons_of_mem _ (ih hrun' hdone)

/-- A measure that falls by one with every round counts them. -/
theorem Exits.length_eq (h : L.Exits ss s t) {P : S → Prop} {μ : S → Nat}
    (hfall : ∀ t u, P t → L.poll t = some true → L.body t = some u → μ t = μ u + 1)
    (hzero : ∀ t, L.poll t = some false → μ t = 0) (hpass : ∀ w ∈ ss, P w) :
    ss.length = μ s := by
  obtain ⟨hrun, hdone⟩ := h
  induction hrun with
  | nil => exact (hzero _ hdone).symm
  | cons hp hb _ ih =>
      obtain ⟨hs, hrest⟩ := List.forall_mem_cons.mp hpass
      rw [hfall _ _ hs hp hb, List.length_cons, ih hrest hdone]

/-- From a state on, every round passes a test. -/
def Always (L : PollLoop S) (P : S → Prop) (s : S) : Prop :=
  ∀ ss t, L.Rounds ss s t → L.poll t = some true → P t

/-- The exact variant rule, for a measure that falls by one with every round that passes a test.
The loop exits in time when, after the last round that fails the test, what has been run and what
the measure says together are few enough; and only then. -/
theorem exits_within_iff (hsafe : L.Safe s) (P : S → Prop) (μ : S → Nat)
    (hfall : ∀ t u, P t → L.poll t = some true → L.body t = some u → μ t = μ u + 1)
    (hzero : ∀ t, L.poll t = some false → μ t = 0) (n : Nat) :
    (∃ ss t, ss.length ≤ n ∧ L.Exits ss s t) ↔
      ∃ pre u, L.Rounds pre s u ∧ (∀ w ∈ pre.getLast?, ¬ P w) ∧ L.Always P u ∧
        pre.length + μ u ≤ n := by
  constructor
  · rintro ⟨ss, t, hlen, hrun, hdone⟩
    obtain ⟨pre, post, u, rfl, hpre, hpost, hlast, hpass⟩ := hrun.cut_last (P := P)
    have hexit : L.Exits post u t := ⟨hpost, hdone⟩
    refine ⟨pre, u, hpre, hlast, fun ss w hw hpoll => hpass w (hexit.mem hw hpoll), ?_⟩
    rw [← hexit.length_eq hfall hzero hpass, ← List.length_append]
    exact hlen
  · rintro ⟨pre, u, hpre, -, hpass, hlen⟩
    obtain ⟨post, t, hpost, hrun, hdone⟩ := exits_of_variant
      (fun ss w hw => hsafe _ w (hpre.append hw)) μ fun ss w x hw hpoll hbody =>
        Nat.lt_of_lt_of_eq (Nat.lt_succ_self _) (hfall w x (hpass ss w hw hpoll) hpoll hbody).symm
    refine ⟨pre ++ post, t, ?_, hpre.append hrun, hdone⟩
    rw [List.length_append]
    exact Nat.le_trans (Nat.add_le_add_left hpost _) hlen

/-- A loop that always asks for one more round runs any number of rounds. -/
theorem endless {I : S → Prop}
    (hstep : ∀ s, I s → L.poll s = some true ∧ ∃ t, L.body s = some t ∧ I t) (hs : I s) (n : Nat) :
    ∃ ss t, ss.length = n ∧ L.Rounds ss s t := by
  induction n generalizing s with
  | zero => exact ⟨[], s, rfl, .nil s⟩
  | succ n ih =>
      obtain ⟨hpoll, t, hbody, ht⟩ := hstep s hs
      obtain ⟨ss, u, hlen, hrun⟩ := ih ht
      exact ⟨s :: ss, u, congrArg _ hlen, .cons hpoll hbody hrun⟩

/-- Such a loop never exits. -/
theorem not_exits_of_endless {I : S → Prop}
    (hstep : ∀ s, I s → L.poll s = some true ∧ ∃ t, L.body s = some t ∧ I t) (hs : I s) :
    ¬ L.Exits ss s t := by
  intro hexit
  obtain ⟨ss', t', hlen, hrun⟩ := endless hstep hs (ss.length + 1)
  have hle := hexit.length_le hrun
  omega

/-- A loop that asks for a round and can take it, for ever, aborts in no state. -/
theorem safe_of_endless {I : S → Prop}
    (hstep : ∀ s, I s → L.poll s = some true ∧ ∃ t, L.body s = some t ∧ I t) (hs : I s) :
    L.Safe s := by
  intro ss t hrun
  have ht : I t := hrun.invariant (fun s t hI hpoll hbody => by
    obtain ⟨_, t', hbody', ht'⟩ := hstep s hI
    obtain rfl := Option.some.inj (hbody.symm.trans hbody')
    exact ht') hs
  obtain ⟨hpoll, u, hbody, _⟩ := hstep t ht
  rintro (habort | ⟨_, habort⟩)
  · cases hpoll.symm.trans habort
  · cases hbody.symm.trans habort

end PollLoop

import Mathlib.Order.Lattice

/-!
# Scanning for the best entry

A scan goes through a list once and remembers the best entry so far with its key.  An entry without
a key is passed over, and one with a key replaces the best only if its key is strictly greater, also
than the key to start from.  So the entry that remains is the first one among those of the greatest
key.
-/

namespace Scan

variable {ι κ : Type} [LinearOrder κ] (key : ι → Option κ)

/-- One entry. -/
def step (best : ι × κ) (i : ι) : ι × κ :=
  match key i with
  | some k => if best.2 < k then (i, k) else best
  | none => best

/-- The entry of a list with the greatest key above a bound, the first one on ties. -/
structure First (bound : κ) (l : List ι) (i : ι) (k : κ) : Prop where
  key_eq : key i = some k
  above : bound < k
  place : ∃ pre post, l = pre ++ i :: post ∧ (∀ j ∈ pre, ∀ k', key j = some k' → k' < k) ∧
    ∀ j ∈ post, ∀ k', key j = some k' → k' ≤ k

variable {key} {bound bound' : κ} {l : List ι} {i j : ι} {k k' : κ}

/-- No entry after a list's head is better than it. -/
theorem First.head (hkey : key i = some k) (habove : bound < k)
    (hrest : ∀ j ∈ l, ∀ k', key j = some k' → k' ≤ k) : First key bound (i :: l) i k :=
  ⟨hkey, habove, [], l, rfl, nofun, hrest⟩

/-- The best entry stays the best when a lower one is put in front. -/
theorem First.cons (h : First key bound' l i k) (hbound : bound < k)
    (hfront : ∀ k', key j = some k' → k' < k) : First key bound (j :: l) i k := by
  obtain ⟨pre, post, rfl, hpre, hpost⟩ := h.place
  refine ⟨h.key_eq, hbound, j :: pre, post, rfl, ?_, hpost⟩
  intro j' hj'
  rcases List.mem_cons.mp hj' with rfl | hj'
  · exact hfront
  · exact hpre j' hj'

theorem step_beaten {d : ι} (hkey : key j = some k) (hlt : bound < k) :
    step key (d, bound) j = (j, k) := by
  rw [step, hkey]
  exact if_pos hlt

theorem step_passed {d : ι} (hle : ∀ k, key j = some k → k ≤ bound) :
    step key (d, bound) j = (d, bound) := by
  rw [step]
  split
  · rename_i k hkey
    exact if_neg (not_lt.mpr (hle k hkey))
  · rfl

/-- A scan leaves what it started from when no entry is above the bound, and otherwise the first of
the best. -/
theorem foldl_step (l : List ι) (d : ι) (bound : κ) :
    (l.foldl (step key) (d, bound) = (d, bound) ∧ ∀ i ∈ l, ∀ k, key i = some k → k ≤ bound) ∨
      First key bound l (l.foldl (step key) (d, bound)).1 (l.foldl (step key) (d, bound)).2 := by
  induction l generalizing d bound with
  | nil => exact Or.inl ⟨rfl, nofun⟩
  | cons j l ih =>
      rw [List.foldl_cons]
      by_cases hbeaten : ∃ k, key j = some k ∧ bound < k
      · obtain ⟨k, hkey, hlt⟩ := hbeaten
        rw [step_beaten hkey hlt]
        rcases ih j k with ⟨heq, hle⟩ | hfirst
        · rw [heq]
          exact Or.inr (.head hkey hlt hle)
        · refine Or.inr (hfirst.cons (hlt.trans hfirst.above) fun k' hk' => ?_)
          rw [← Option.some.inj (hkey.symm.trans hk')]
          exact hfirst.above
      · have hle : ∀ k, key j = some k → k ≤ bound := fun k hk =>
          not_lt.mp fun hlt => hbeaten ⟨k, hk, hlt⟩
        rw [step_passed hle]
        rcases ih d bound with ⟨heq, hrest⟩ | hfirst
        · exact Or.inl ⟨heq, List.forall_mem_cons.mpr ⟨hle, hrest⟩⟩
        · exact Or.inr (hfirst.cons hfirst.above fun k hk => (hle k hk).trans_lt hfirst.above)

/-- The first of the best is in the list. -/
theorem First.mem (h : First key bound l i k) : i ∈ l := by
  obtain ⟨pre, post, rfl, -⟩ := h.place
  exact List.mem_append_right pre (List.mem_cons_self ..)

/-- In an increasing list it is the least of the best. -/
theorem First.least [LinearOrder ι] (h : First key bound l i k) (hl : l.Pairwise (· < ·))
    (hj : j ∈ l) (hkey : key j = some k') : k' < k ∨ k' = k ∧ i ≤ j := by
  obtain ⟨pre, post, rfl, hpre, hpost⟩ := h.place
  rcases List.mem_append.mp hj with hj | hj
  · exact Or.inl (hpre j hj k' hkey)
  · rcases List.mem_cons.mp hj with rfl | hj
    · rw [h.key_eq] at hkey
      exact Or.inr ⟨(Option.some.inj hkey).symm, le_rfl⟩
    · rcases (hpost j hj k' hkey).lt_or_eq with hlt | heq
      · exact Or.inl hlt
      · have htail := (List.pairwise_append.mp hl).2.1
        exact Or.inr ⟨heq, ((List.pairwise_cons.mp htail).1 j hj).le⟩

end Scan

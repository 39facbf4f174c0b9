import Mathlib.Logic.Function.Basic

/-!
# Fallible state transformers

The shape of a method that takes its receiver by mutable reference, may return an error, and
may also not return at all.  A `Run σ ε α` reads a state `σ`.  It gives `none` when the
computation never returns, because it aborts or because it loops.  Otherwise it gives a result,
`.ok a` or `.error e`, together with the state it leaves.  An error does not roll the state
back: what was written before it stays written.

*Frames.*  `Run.Keeps R m` says that every run of `m` that returns leaves a state related to
the one it started from, whichever result it returns.  For a relation that is reflexive and
transitive the property is closed under sequencing, so a frame condition of a long method is
assembled from those of its calls.
-/

/-- A computation on a state `σ` that returns an `α`, fails with an `ε`, or never returns. -/
def Run (σ ε α : Type) : Type := σ → Option (Except ε α × σ)

namespace Run

variable {σ τ ε ε' α β : Type}

/-! ## The operations -/

protected def pure (a : α) : Run σ ε α := fun s => some (.ok a, s)

/-- Sequencing.  An error skips the continuation and keeps the state it was raised in. -/
protected def bind (m : Run σ ε α) (f : α → Run σ ε β) : Run σ ε β := fun s =>
  match m s with
  | none => none
  | some (.error e, s') => some (.error e, s')
  | some (.ok a, s') => f a s'

instance : Monad (Run σ ε) where
  pure := Run.pure
  bind := Run.bind

/-- Return an error in the current state. -/
def throw (e : ε) : Run σ ε α := fun s => some (.error e, s)

/-- Run a computation on a part of the state, and translate its error. -/
def zoom (get : σ → τ) (set : τ → σ → σ) (err : ε → ε') (m : Run τ ε α) : Run σ ε' α := fun s =>
  match m (get s) with
  | none => none
  | some (r, t) => some (r.mapError err, set t s)

/-! ## Equations -/

@[simp] theorem pure_apply (a : α) (s : σ) : (pure a : Run σ ε α) s = some (.ok a, s) := rfl

theorem bind_apply (m : Run σ ε α) (f : α → Run σ ε β) (s : σ) :
    (m >>= f) s = match m s with
      | none => none
      | some (.error e, s') => some (.error e, s')
      | some (.ok a, s') => f a s' := rfl

/-- Sequencing is associative. -/
theorem bind_bind (m : Run σ ε α) (f : α → Run σ ε β) {γ : Type} (g : β → Run σ ε γ) :
    m >>= f >>= g = m >>= fun a => f a >>= g := by
  funext s
  rw [bind_apply, bind_apply, bind_apply]
  cases m s with
  | none => rfl
  | some p =>
      obtain ⟨r, s'⟩ := p
      cases r <;> rfl

theorem bind_ok {m : Run σ ε α} {f : α → Run σ ε β} {s s' : σ} {a : α}
    (h : m s = some (.ok a, s')) : (m >>= f) s = f a s' := by
  rw [bind_apply, h]

theorem bind_error {m : Run σ ε α} {f : α → Run σ ε β} {s s' : σ} {e : ε}
    (h : m s = some (.error e, s')) : (m >>= f) s = some (.error e, s') := by
  rw [bind_apply, h]

/-- A sequence that returns came through its first half, or stopped there with an error. -/
theorem bind_eq_some {m : Run σ ε α} {f : α → Run σ ε β} {s s' : σ} {r : Except ε β}
    (h : (m >>= f) s = some (r, s')) :
    (∃ a t, m s = some (.ok a, t) ∧ f a t = some (r, s')) ∨
      (∃ e, m s = some (.error e, s') ∧ r = .error e) := by
  rw [bind_apply] at h
  cases hm : m s with
  | none => rw [hm] at h; cases h
  | some p =>
      obtain ⟨r₀, t⟩ := p
      cases r₀ with
      | error e =>
          rw [hm] at h
          cases h
          exact Or.inr ⟨e, rfl, rfl⟩
      | ok a =>
          rw [hm] at h
          exact Or.inl ⟨a, t, rfl, h⟩

/-- A sequence that succeeds came through both halves. -/
theorem bind_eq_ok {m : Run σ ε α} {f : α → Run σ ε β} {s s' : σ} {b : β}
    (h : (m >>= f) s = some (.ok b, s')) :
    ∃ a t, m s = some (.ok a, t) ∧ f a t = some (.ok b, s') := by
  rcases bind_eq_some h with h | ⟨e, _, he⟩
  · exact h
  · cases he

theorem zoom_eq_some {get : σ → τ} {set : τ → σ → σ} {err : ε → ε'} {m : Run τ ε α}
    {s s' : σ} {r : Except ε' α} (h : zoom get set err m s = some (r, s')) :
    ∃ r₀ t, m (get s) = some (r₀, t) ∧ r = r₀.mapError err ∧ s' = set t s := by
  unfold zoom at h
  cases hm : m (get s) with
  | none => rw [hm] at h; cases h
  | some p =>
      obtain ⟨r₀, t⟩ := p
      rw [hm] at h
      cases h
      exact ⟨r₀, t, rfl, rfl, rfl⟩

theorem zoom_of_some {get : σ → τ} {set : τ → σ → σ} {err : ε → ε'} {m : Run τ ε α}
    {s : σ} {t : τ} {r : Except ε α} (h : m (get s) = some (r, t)) :
    zoom get set err m s = some (r.mapError err, set t s) := by
  rw [zoom, h]

/-! ## Frames -/

/-- Every run of `m` that returns leaves a state related to the one it started from. -/
def Keeps (R : σ → σ → Prop) (m : Run σ ε α) : Prop :=
  ∀ s r s', m s = some (r, s') → R s s'

section Frames

variable {R : σ → σ → Prop}

theorem Keeps.pure (hrefl : ∀ s, R s s) (a : α) : Keeps R (pure a : Run σ ε α) := by
  intro s r s' h
  cases h
  exact hrefl s

theorem Keeps.throw (hrefl : ∀ s, R s s) (e : ε) : Keeps R (throw e : Run σ ε α) := by
  intro s r s' h
  cases h
  exact hrefl s

theorem Keeps.bind (htrans : ∀ a b c, R a b → R b c → R a c) {m : Run σ ε α}
    {f : α → Run σ ε β} (hm : Keeps R m) (hf : ∀ a, Keeps R (f a)) : Keeps R (m >>= f) := by
  intro s r s' h
  rcases bind_eq_some h with ⟨a, t, hma, hfa⟩ | ⟨e, hme, _⟩
  · exact htrans _ _ _ (hm s _ t hma) (hf a t r s' hfa)
  · exact hm s _ s' hme

/-- A frame of the part is a frame of the whole when writing the part back respects it. -/
theorem Keeps.zoom {S : τ → τ → Prop} {get : σ → τ} {set : τ → σ → σ} {err : ε → ε'}
    {m : Run τ ε α} (hm : Keeps S m) (hset : ∀ s t, S (get s) t → R s (set t s)) :
    Keeps R (zoom get set err m) := by
  intro s r s' h
  obtain ⟨r₀, t, hrun, _, rfl⟩ := zoom_eq_some h
  exact hset s t (hm _ _ _ hrun)

end Frames

/-! ## What a computation does not see -/

/-- A change of the state that a computation neither sees nor undoes. -/
def Ignores (f : σ → σ) (m : Run σ ε α) : Prop := ∀ s, m (f s) = (m s).map fun p => (p.1, f p.2)

section Ignores

variable {f : σ → σ}

theorem Ignores.pure (a : α) : Ignores f (pure a : Run σ ε α) := fun _ => rfl

theorem Ignores.bind {m : Run σ ε α} {k : α → Run σ ε β} (hm : Ignores f m)
    (hk : ∀ a, Ignores f (k a)) : Ignores f (m >>= k) := by
  intro s
  rw [bind_apply, bind_apply, hm s]
  cases m s with
  | none => rfl
  | some p =>
      obtain ⟨r, t⟩ := p
      cases r with
      | error e => rfl
      | ok a => exact hk a t

/-- A computation on a part does not see a change of the rest. -/
theorem Ignores.zoom {get : σ → τ} {set : τ → σ → σ} {err : ε → ε'} (m : Run τ ε α)
    (hget : ∀ s, get (f s) = get s) (hset : ∀ s t, set t (f s) = f (set t s)) :
    Ignores f (zoom get set err m) := by
  intro s
  rw [Run.zoom, Run.zoom, hget]
  cases m (get s) with
  | none => rfl
  | some p =>
      rw [Option.map_some]
      dsimp only
      rw [hset]

theorem Ignores.mapError {err : ε → ε'} {m : Run σ ε α} (hm : Ignores f m) :
    Ignores f (Run.zoom id (fun s _ => s) err m) := by
  intro s
  rw [Run.zoom, Run.zoom, id_eq, id_eq, hm s]
  cases m s <;> rfl

end Ignores

/-! ## Errors -/

/-- Every error of `m` satisfies a predicate. -/
def Throws (P : ε → Prop) (m : Run σ ε α) : Prop :=
  ∀ s e s', m s = some (.error e, s') → P e

section Errors

variable {P : ε → Prop}

theorem Throws.pure (a : α) : Throws P (pure a : Run σ ε α) := by
  intro s e s' h
  cases h

theorem Throws.bind {m : Run σ ε α} {f : α → Run σ ε β} (hm : Throws P m)
    (hf : ∀ a, Throws P (f a)) : Throws P (m >>= f) := by
  intro s e s' h
  rcases bind_eq_some h with ⟨a, t, _, hfa⟩ | ⟨e', hme, he⟩
  · exact hf a t e s' hfa
  · cases he
    exact hm s e s' hme

end Errors

/-! ## Aborts -/

/-- A sequence does not return where one of its halves does not. -/
theorem bind_eq_none {m : Run σ ε α} {f : α → Run σ ε β} {s : σ} :
    (m >>= f) s = none ↔ m s = none ∨ ∃ a t, m s = some (.ok a, t) ∧ f a t = none := by
  rw [bind_apply]
  cases hm : m s with
  | none => simp
  | some p =>
      obtain ⟨r, t⟩ := p
      cases r with
      | error e => simp
      | ok a =>
          constructor
          · intro h
            exact .inr ⟨a, t, rfl, h⟩
          · rintro (h | ⟨a', t', heq, h⟩)
            · cases h
            · cases heq
              exact h

theorem zoom_eq_none {get : σ → τ} {set : τ → σ → σ} {err : ε → ε'} {m : Run τ ε α} {s : σ} :
    zoom get set err m s = none ↔ m (get s) = none := by
  rw [zoom]
  cases m (get s) with
  | none => simp
  | some p => simp

/-- The computation returns from the states with a property. -/
def Returns (P : σ → Prop) (m : Run σ ε α) : Prop := ∀ s, P s → m s ≠ none

section Returns

variable {P : σ → Prop}

theorem Returns.pure (a : α) : Returns P (pure a : Run σ ε α) := by
  intro s _ h
  cases h

/-- A property that the first half of a sequence keeps. -/
theorem Returns.bind {m : Run σ ε α} {f : α → Run σ ε β} (hm : Returns P m)
    (hkeep : Keeps (fun s s' => P s → P s') m) (hf : ∀ a, Returns P (f a)) :
    Returns P (m >>= f) := by
  intro s hs h
  rcases bind_eq_none.mp h with hnone | ⟨a, t, hrun, hrest⟩
  · exact hm s hs hnone
  · exact hf a t (hkeep s _ t hrun hs) hrest

theorem Returns.zoom {Q : τ → Prop} {get : σ → τ} {set : τ → σ → σ} {err : ε → ε'}
    {m : Run τ ε α} (hm : Returns Q m) (hget : ∀ s, P s → Q (get s)) :
    Returns P (Run.zoom get set err m) :=
  fun s hs h => hm (get s) (hget s hs) (zoom_eq_none.mp h)

end Returns

/-! ## Results -/

/-- From the states with a property the computation ends in one, and its value has another. -/
def Ensures (I : σ → Prop) (P : α → Prop) (m : Run σ ε α) : Prop :=
  ∀ s r s', I s → m s = some (r, s') → I s' ∧ ∀ a, r = .ok a → P a

section Ensures

variable {I : σ → Prop} {P : α → Prop}

theorem Ensures.pure {a : α} (ha : P a) : Ensures I P (pure a : Run σ ε α) := by
  intro s r s' hs h
  cases h
  refine ⟨hs, fun a' heq => ?_⟩
  cases heq
  exact ha

theorem Ensures.bind {Q : β → Prop} {m : Run σ ε α} {f : α → Run σ ε β} (hm : Ensures I P m)
    (hf : ∀ a, P a → Ensures I Q (f a)) : Ensures I Q (m >>= f) := by
  intro s r s' hs h
  rcases bind_eq_some h with ⟨a, t, hma, hfa⟩ | ⟨e, hme, rfl⟩
  · obtain ⟨ht, ha⟩ := hm s _ t hs hma
    exact hf a (ha a rfl) t r s' ht hfa
  · refine ⟨(hm s _ s' hs hme).1, fun b heq => ?_⟩
    cases heq

end Ensures

/-- From states with a property the computation neither sees nor undoes a change of the state. -/
def IgnoresFrom (I : σ → Prop) (f : σ → σ) (m : Run σ ε α) : Prop :=
  ∀ s, I s → m (f s) = (m s).map fun p => (p.1, f p.2)

section IgnoresFrom

variable {I : σ → Prop} {P : α → Prop} {f : σ → σ}

theorem IgnoresFrom.pure (a : α) : IgnoresFrom I f (pure a : Run σ ε α) := fun _ _ => rfl

/-- What the first half of a sequence ensures is there for the second one. -/
theorem IgnoresFrom.bind {m : Run σ ε α} {k : α → Run σ ε β} (hm : IgnoresFrom I f m)
    (hensures : Ensures I P m) (hk : ∀ a, P a → IgnoresFrom I f (k a)) :
    IgnoresFrom I f (m >>= k) := by
  intro s hs
  rw [bind_apply, bind_apply, hm s hs]
  cases hrun : m s with
  | none => rfl
  | some p =>
      obtain ⟨r, t⟩ := p
      obtain ⟨ht, ha⟩ := hensures s r t hs hrun
      cases r with
      | error e => rfl
      | ok a => exact hk a (ha a rfl) t ht

/-- A computation on a part that does not see the change of the part. -/
theorem IgnoresFrom.zoom {J : τ → Prop} {g : τ → τ} {get : σ → τ} {set : τ → σ → σ} {err : ε → ε'}
    {m : Run τ ε α} (hm : IgnoresFrom J g m) (hJ : ∀ s, I s → J (get s))
    (hget : ∀ s, get (f s) = g (get s)) (hset : ∀ s t, set (g t) (f s) = f (set t s)) :
    IgnoresFrom I f (Run.zoom get set err m) := by
  intro s hs
  rw [Run.zoom, Run.zoom, hget, hm _ (hJ s hs)]
  cases m (get s) with
  | none => rfl
  | some p =>
      rw [Option.map_some]
      dsimp only
      rw [hset]
      rfl

end IgnoresFrom

end Run

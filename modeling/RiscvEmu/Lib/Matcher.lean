import Mathlib.Data.List.Infix

/-!
# Matching a marked pattern

A pattern is *marked* when its first symbol does not occur again in it.  Two occurrences of such a
pattern do not overlap, and at most one proper part of it, besides the empty one, can be what a list
ends with.  So a matcher needs no failure table: on a mismatch it starts over, with one symbol
matched if that symbol is the mark.

*Streams.*  The matchers here go through a stream symbol by symbol.  `Tracks` ties the state of a
matcher to what the stream ends with.  `Follows` also ties to it what a matcher has let through that
holds back partial matches and drops complete ones.
-/

namespace Matcher

variable {α : Type}

/-! ## Patterns -/

/-- The first symbol of a pattern is the only one of its kind. -/
structure Marked (p : List α) (e : α) : Prop where
  head : p[0]? = some e
  alone : ∀ i, p[i]? = some e → i = 0
  long : 2 ≤ p.length

/-- The longest part of a pattern, short of the whole, that a list ends with. -/
structure Partial (p xs h : List α) : Prop where
  start : h <+: p
  proper : h ≠ p
  ends : h <:+ xs
  longest : ∀ h', h' <+: p → h' ≠ p → h' <:+ xs → h'.length ≤ h.length

/-- The number of occurrences of a pattern, by where they end. -/
def occurrences [DecidableEq α] (p xs : List α) : Nat :=
  (List.range (xs.length + 1)).countP fun n => decide (p <:+ xs.take n)

/-- A list without the occurrences of a pattern.  The number is what is left of one. -/
def strip [DecidableEq α] (p : List α) : Nat → List α → List α
  | _, [] => []
  | k + 1, _ :: xs => strip p k xs
  | 0, x :: xs => if p <+: x :: xs then strip p (p.length - 1) xs else x :: strip p 0 xs

/-- A matcher that has seen a stream has the given number of symbols matched. -/
structure Tracks (p xs : List α) (k : Nat) : Prop where
  lt : k < p.length
  ends : p.take k <:+ xs
  longest : ∀ j < p.length, p.take j <:+ xs → j ≤ k

/-- A matcher that has seen a stream has the given number of symbols matched, has let some symbols
through, and has found the pattern the given number of times. -/
structure Follows [DecidableEq α] (p xs : List α) (k : Nat) (out : List α) (found : Nat) : Prop
    extends Tracks p xs k where
  passed : ∀ rest, strip p 0 (xs ++ rest) = out ++ strip p 0 (p.take k ++ rest)
  counted : found = occurrences p xs
  length : out.length + k + p.length * found = xs.length

variable {p xs : List α} {e b : α} {j k : Nat}

/-! ## Parts of a pattern -/

theorem marked_cons (he : e ∉ p) (hne : p ≠ []) : Marked (e :: p) e := by
  refine ⟨rfl, fun i hi => ?_, ?_⟩
  · cases i with
    | zero => rfl
    | succ i =>
        rw [List.getElem?_cons_succ] at hi
        exact absurd (List.mem_of_getElem? hi) he
  · rw [List.length_cons]
    exact Nat.succ_le_succ (List.length_pos_of_ne_nil hne)

theorem take_concat (h : p[k]? = some b) : p.take (k + 1) = p.take k ++ [b] := by
  rw [List.take_add_one, h, Option.toList_some]

/-- A part of a pattern ends an extended list when it is extended in the same way. -/
theorem take_suffix_concat (hj : j < p.length) :
    p.take (j + 1) <:+ xs ++ [b] ↔ p[j]? = some b ∧ p.take j <:+ xs := by
  obtain ⟨x, hx⟩ : ∃ x, p[j]? = some x := ⟨p[j], List.getElem?_eq_getElem hj⟩
  rw [take_concat hx, List.suffix_concat_iff, hx]
  constructor
  · rintro (hnil | ⟨t, heq, ht⟩)
    · exact absurd hnil (List.append_ne_nil_of_right_ne_nil _ (List.cons_ne_nil _ _))
    · obtain ⟨rfl, hsymbol⟩ := List.append_inj' heq rfl
      cases hsymbol
      exact ⟨rfl, ht⟩
  · rintro ⟨hsymbol, hends⟩
    cases hsymbol
    exact Or.inr ⟨_, rfl, hends⟩

/-- A list ends with at most one part of a marked pattern, besides the empty one. -/
theorem Marked.unique (hp : Marked p e) (hk : k < p.length) (hjk : j ≤ k)
    (hj : p.take j <:+ xs) (hxs : p.take k <:+ xs) : j = 0 ∨ j = k := by
  rcases Nat.eq_zero_or_pos j with hzero | hpos
  · exact Or.inl hzero
  right
  have hjlen : (p.take j).length = j := List.length_take_of_le (by omega)
  have hklen : (p.take k).length = k := List.length_take_of_le (by omega)
  obtain ⟨t, ht⟩ := List.suffix_of_suffix_length_le hj hxs (by omega)
  have htlen : t.length + j = k := by
    rw [← hklen, ← ht, List.length_append, hjlen]
  have hsymbol : p[t.length]? = some e := by
    have htake : (p.take k)[t.length]? = p[t.length]? := List.getElem?_take_of_lt (by omega)
    rw [← htake, ← ht, List.getElem?_append_right (Nat.le_refl _), Nat.sub_self,
      List.getElem?_take_of_lt hpos]
    exact hp.head
  have := hp.alone _ hsymbol
  omega

/-- A list ends with one longest part of a pattern. -/
theorem Partial.unique {h h' : List α} (hh : Partial p xs h) (hh' : Partial p xs h') : h = h' := by
  have hle := hh.longest h' hh'.start hh'.proper hh'.ends
  have hge := hh'.longest h hh.start hh.proper hh.ends
  rw [List.prefix_iff_eq_take.mp hh.start, List.prefix_iff_eq_take.mp hh'.start,
    Nat.le_antisymm hge hle]

/-! ## Tracks -/

namespace Tracks

theorem nil (hp : Marked p e) : Tracks p [] 0 := by
  refine ⟨by have := hp.long; omega, List.nil_suffix, fun j hj hends => ?_⟩
  have hlen := hends.length_le
  rw [List.length_take_of_le (by omega)] at hlen
  exact hlen

/-- What the matcher holds is the partial match of the stream. -/
theorem partial_take (h : Tracks p xs k) : Partial p xs (p.take k) := by
  have hk := h.lt
  refine ⟨List.take_prefix _ _, fun heq => ?_, h.ends, fun h' hstart hne hends => ?_⟩
  · have hlen := congrArg List.length heq
    rw [List.length_take_of_le (by omega)] at hlen
    omega
  · have heq := List.prefix_iff_eq_take.mp hstart
    have hlt : h'.length < p.length := by
      refine Nat.lt_of_le_of_ne hstart.length_le fun hlen => hne ?_
      rw [heq, hlen, List.take_length]
    rw [List.length_take_of_le (by omega)]
    exact h.longest _ hlt (heq ▸ hends)

/-- A longer part that ends the stream comes from what was matched, or from the mark alone. -/
theorem cases_concat (hp : Marked p e) (h : Tracks p xs k) (hj : j < p.length)
    (hends : p.take (j + 1) <:+ xs ++ [b]) : p[j]? = some b ∧ (j = 0 ∧ b = e ∨ j = k) := by
  obtain ⟨hsymbol, hprev⟩ := (take_suffix_concat hj).mp hends
  refine ⟨hsymbol, ?_⟩
  rcases hp.unique h.lt (h.longest j hj hprev) hprev h.ends with rfl | rfl
  · left
    rw [hp.head] at hsymbol
    exact ⟨rfl, (Option.some.inj hsymbol).symm⟩
  · exact Or.inr rfl

/-- The stream ends with the pattern exactly when its last symbol was awaited. -/
theorem complete_iff (hp : Marked p e) (h : Tracks p xs k) :
    p <:+ xs ++ [b] ↔ k + 1 = p.length ∧ p[k]? = some b := by
  have hlong := hp.long
  obtain ⟨n, hn⟩ := Nat.exists_eq_add_of_le' hlong
  have hwhole : p.take (n + 1 + 1) = p := List.take_of_length_le (by omega)
  constructor
  · intro hends
    rw [← hwhole] at hends
    rcases (h.cases_concat hp (by omega) hends) with ⟨hsymbol, ⟨hzero, -⟩ | rfl⟩
    · omega
    · exact ⟨by omega, hsymbol⟩
  · rintro ⟨hlen, hsymbol⟩
    have hends := (take_suffix_concat h.lt).mpr ⟨hsymbol, h.ends⟩
    rwa [hlen, List.take_length] at hends

theorem extend (hp : Marked p e) (h : Tracks p xs k) (hsymbol : p[k]? = some b)
    (hlt : k + 1 < p.length) : Tracks p (xs ++ [b]) (k + 1) := by
  refine ⟨hlt, (take_suffix_concat h.lt).mpr ⟨hsymbol, h.ends⟩, fun j hj hends => ?_⟩
  cases j with
  | zero => exact Nat.zero_le _
  | succ j =>
      rcases h.cases_concat hp (by omega) hends with ⟨-, ⟨rfl, -⟩ | rfl⟩ <;> omega

/-- Without the mark, and unless another symbol of the pattern was awaited, nothing is matched. -/
theorem reset (hp : Marked p e) (h : Tracks p xs k) (hmark : b ≠ e)
    (hsymbol : k + 1 < p.length → p[k]? ≠ some b) : Tracks p (xs ++ [b]) 0 := by
  have hlong := hp.long
  refine ⟨by omega, List.nil_suffix, fun j hj hends => ?_⟩
  cases j with
  | zero => exact Nat.le_refl _
  | succ j =>
      rcases h.cases_concat hp (by omega) hends with ⟨hj', ⟨-, heq⟩ | rfl⟩
      · exact absurd heq hmark
      · exact absurd hj' (hsymbol (by omega))

/-- The mark starts over. -/
theorem restart (hp : Marked p e) (h : Tracks p xs k) : Tracks p (xs ++ [e]) 1 := by
  have hlong := hp.long
  refine ⟨by omega, (take_suffix_concat (by omega)).mpr ⟨hp.head, List.nil_suffix⟩,
    fun j hj hends => ?_⟩
  cases j with
  | zero => exact Nat.zero_le _
  | succ j =>
      obtain ⟨hsymbol, -⟩ := h.cases_concat hp (by omega) hends
      have := hp.alone _ hsymbol
      omega

end Tracks

/-! ## Streams -/

section Streams

variable [DecidableEq α] {out : List α} {found : Nat}

theorem occurrences_concat (p xs : List α) (b : α) :
    occurrences p (xs ++ [b]) = occurrences p xs + if p <:+ xs ++ [b] then 1 else 0 := by
  have hinit : (List.range (xs.length + 1)).countP (fun n => decide (p <:+ (xs ++ [b]).take n)) =
      occurrences p xs := by
    refine List.countP_congr fun n hn => ?_
    rw [List.mem_range] at hn
    rw [List.take_append_of_le_length (by omega)]
  have hlast : (xs ++ [b]).take (xs.length + 1) = xs ++ [b] :=
    List.take_of_length_le (by rw [List.length_append, List.length_singleton])
  rw [occurrences, List.length_append, List.length_singleton, List.range_succ, List.countP_append,
    hinit, List.countP_singleton, hlast]
  simp only [decide_eq_true_eq]

theorem strip_append (p xs ys : List α) (k : Nat) (h : xs.length = k) :
    strip p k (xs ++ ys) = strip p 0 ys := by
  induction xs generalizing k with
  | nil =>
      subst h
      rfl
  | cons x xs ih =>
      subst h
      rw [List.cons_append, List.length_cons, strip]
      exact ih _ rfl

/-- An occurrence in front is dropped. -/
theorem strip_occurrence (hp : Marked p e) (ys : List α) : strip p 0 (p ++ ys) = strip p 0 ys := by
  match p, hp.long with
  | x :: xs, _ =>
      have hprefix : x :: xs <+: x :: (xs ++ ys) := List.prefix_append (x :: xs) ys
      rw [List.cons_append, strip, if_pos hprefix]
      exact strip_append _ _ _ _ rfl

/-- A symbol that the pattern does not have is dropped nowhere. -/
theorem mem_strip (hp : Marked p e) {x : α} (hx : x ∉ p) (xs : List α) (k : Nat)
    (hskip : ∀ y ∈ xs.take k, y ∈ p) : x ∈ strip p k xs ↔ x ∈ xs := by
  induction xs generalizing k with
  | nil => cases k <;> exact Iff.rfl
  | cons y ys ih =>
      cases k with
      | succ k =>
          rw [List.take_succ_cons] at hskip
          have hy : x ≠ y := fun heq => hx (heq ▸ hskip y (List.mem_cons_self ..))
          rw [strip, ih k fun z hz => hskip z (List.mem_cons_of_mem _ hz), List.mem_cons,
            or_iff_right hy]
      | zero =>
          rw [strip]
          split
          · rename_i hprefix
            obtain ⟨z, zs, rfl⟩ :=
              List.exists_cons_of_length_pos (Nat.lt_of_lt_of_le Nat.two_pos hp.long)
            obtain ⟨rfl, hrest⟩ := List.cons_prefix_cons.mp hprefix
            have hy : x ≠ z := fun heq => hx (heq ▸ List.mem_cons_self ..)
            have htake : ys.take zs.length = zs := (List.prefix_iff_eq_take.mp hrest).symm
            rw [List.mem_cons, or_iff_right hy]
            refine ih _ fun w hw => List.mem_cons_of_mem _ ?_
            exact htake ▸ hw
          · rw [List.mem_cons, List.mem_cons, ih 0 nofun]

/-- Symbols at which no occurrence begins are let through. -/
theorem strip_pass {ys : List α} : ∀ {zs : List α},
    (∀ n < zs.length, ¬ p <+: zs.drop n ++ ys) → strip p 0 (zs ++ ys) = zs ++ strip p 0 ys
  | [], _ => rfl
  | z :: zs, h => by
      have hhead : ¬ p <+: z :: (zs ++ ys) := h 0 (Nat.zero_lt_succ _)
      rw [List.cons_append, strip, if_neg hhead, List.cons_append]
      exact congrArg _ (strip_pass fun n hn => h (n + 1) (Nat.succ_lt_succ hn))

/-- A part of a marked pattern is let through when its continuation is another one. -/
theorem strip_mismatch (hp : Marked p e) (hk : k < p.length) {ys : List α}
    (hsymbol : ys[0]? ≠ p[k]?) : strip p 0 (p.take k ++ ys) = p.take k ++ strip p 0 ys := by
  have hlen : (p.take k).length = k := List.length_take_of_le (Nat.le_of_lt hk)
  refine strip_pass fun n hn hprefix => ?_
  rw [hlen] at hn
  obtain ⟨t, ht⟩ := hprefix
  have hat (i : Nat) (hi : i < p.length) : p[i]? = ((p.take k).drop n ++ ys)[i]? := by
    rw [← ht, List.getElem?_append_left hi]
  rcases Nat.eq_zero_or_pos n with rfl | hpos
  · refine hsymbol ?_
    rw [hat k hk, List.drop_zero, List.getElem?_append_right (by omega), hlen, Nat.sub_self]
  · -- the mark would stand inside the pattern
    have hmark := hat 0 (by omega)
    rw [hp.head, List.getElem?_append_left (by rw [List.length_drop]; omega), List.getElem?_drop,
      List.getElem?_take_of_lt (by omega)] at hmark
    have := hp.alone _ hmark.symm
    omega

namespace Follows

theorem nil (hp : Marked p e) : Follows p [] 0 [] 0 := by
  refine ⟨.nil hp, fun rest => rfl, ?_, rfl⟩
  have hne : ¬ p <:+ [] := fun h => by
    have := h.length_le
    have := hp.long
    rw [List.length_nil] at *
    omega
  simp [occurrences, hne]

/-- What was let through and what is held make up the stream without the occurrences. -/
theorem strip_eq (hp : Marked p e) (h : Follows p xs k out found) :
    strip p 0 xs = out ++ p.take k := by
  have hheld : strip p 0 (p.take k ++ []) = p.take k ++ strip p 0 [] :=
    strip_mismatch hp h.lt (by
      rw [List.getElem?_eq_getElem h.lt]
      nofun)
  have hpassed := h.passed []
  rw [List.append_nil, List.append_nil] at hpassed
  rw [List.append_nil] at hheld
  rw [hpassed, hheld, strip, List.append_nil]

/-- The awaited symbol is held. -/
theorem extend (hp : Marked p e) (h : Follows p xs k out found) (hsymbol : p[k]? = some b)
    (hlt : k + 1 < p.length) : Follows p (xs ++ [b]) (k + 1) out found := by
  refine ⟨h.toTracks.extend hp hsymbol hlt, fun rest => ?_, ?_, ?_⟩
  · rw [List.append_assoc, h.passed, take_concat hsymbol, List.append_assoc]
  · rw [occurrences_concat, if_neg fun hends => ?_, Nat.add_zero, h.counted]
    have := ((h.complete_iff hp).mp hends).1
    omega
  · have := h.length
    rw [List.length_append, List.length_singleton]
    omega

/-- The last symbol completes the pattern, which is dropped. -/
theorem complete (hp : Marked p e) (h : Follows p xs k out found) (hsymbol : p[k]? = some b)
    (hlast : k + 1 = p.length) : Follows p (xs ++ [b]) 0 out (found + 1) := by
  have hmark : b ≠ e := by
    rintro rfl
    have := hp.alone _ hsymbol
    have := hp.long
    omega
  refine ⟨h.toTracks.reset hp hmark (by omega), fun rest => ?_, ?_, ?_⟩
  · have hwhole : p.take k ++ [b] = p := by
      rw [← take_concat hsymbol, hlast, List.take_length]
    rw [List.append_assoc, h.passed, ← List.append_assoc, hwhole, strip_occurrence hp]
    rfl
  · rw [occurrences_concat, if_pos ((h.complete_iff hp).mpr ⟨hlast, hsymbol⟩), h.counted]
  · have := h.length
    rw [List.length_append, List.length_singleton, Nat.mul_add]
    omega

/-- The mark lets what was held through, and is held itself. -/
theorem restart (hp : Marked p e) (h : Follows p xs k out found) :
    Follows p (xs ++ [e]) 1 (out ++ p.take k) found := by
  have hlong := hp.long
  rcases Nat.eq_zero_or_pos k with rfl | hpos
  · rw [List.take_zero, List.append_nil]
    exact h.extend hp hp.head (by omega)
  · have hsymbol : p[k]? ≠ some e := fun heq => Nat.ne_of_gt hpos (hp.alone k heq)
    have hone : p.take 1 = [e] := take_concat hp.head
    refine ⟨h.toTracks.restart hp, fun rest => ?_, ?_, ?_⟩
    · rw [List.append_assoc, h.passed, strip_mismatch hp h.lt fun heq => hsymbol heq.symm, hone,
        List.append_assoc]
    · rw [occurrences_concat, if_neg fun hends => hsymbol ((h.complete_iff hp).mp hends).2,
        Nat.add_zero, h.counted]
    · have := h.length
      have := h.lt
      rw [List.length_append, List.length_append, List.length_take, List.length_singleton]
      omega

/-- Any other symbol is let through after what was held. -/
theorem pass (hp : Marked p e) (h : Follows p xs k out found) (hmark : b ≠ e)
    (hsymbol : p[k]? ≠ some b) : Follows p (xs ++ [b]) 0 (out ++ p.take k ++ [b]) found := by
  refine ⟨h.toTracks.reset hp hmark fun _ => hsymbol, fun rest => ?_, ?_, ?_⟩
  · have hpass : strip p 0 ([b] ++ rest) = [b] ++ strip p 0 rest := by
      refine strip_pass fun n hn hprefix => hmark ?_
      obtain rfl : n = 0 := by
        rw [List.length_singleton] at hn
        omega
      obtain ⟨t, ht⟩ := hprefix
      have hhead : p[0]? = some b := by
        have hat : (p ++ t)[0]? = some b := by rw [ht]; rfl
        rwa [List.getElem?_append_left (by have := hp.long; omega)] at hat
      exact (Option.some.inj (hp.head.symm.trans hhead)).symm
    have hmismatch : ([b] ++ rest)[0]? ≠ p[k]? := fun heq => hsymbol heq.symm
    rw [List.append_assoc, h.passed, strip_mismatch hp h.lt hmismatch, hpass, List.take_zero,
      List.nil_append]
    simp only [List.append_assoc]
  · rw [occurrences_concat, if_neg fun hends => hsymbol ((h.complete_iff hp).mp hends).2,
      Nat.add_zero, h.counted]
  · have := h.length
    have := h.lt
    simp only [List.length_append, List.length_take, List.length_singleton]
    omega

end Follows

end Streams

end Matcher

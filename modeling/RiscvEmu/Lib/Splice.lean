import Mathlib.Data.List.Basic

/-!
# Replacing a part of a list

`splice xs p bs` is the list `xs` with the elements from position `p` on replaced by those of `bs`.
Two splices side by side are one of the concatenation, and what was spliced in can be taken out
again, in any division into parts.  `overwrite` is the same for positions past the end: the list
grows, and a gap is filled.
-/

namespace Splice

variable {α : Type*}

/-- The list with its elements from a position on replaced. -/
def splice (xs : List α) (p : Nat) (bs : List α) : List α :=
  xs.take p ++ bs ++ xs.drop (p + bs.length)

variable {xs bs bs' : List α} {p : Nat}

theorem splice_nil : splice xs p [] = xs := by
  rw [splice, List.append_nil, List.length_nil, Nat.add_zero, List.take_append_drop]

theorem length_splice (h : p + bs.length ≤ xs.length) : (splice xs p bs).length = xs.length := by
  simp only [splice, List.length_append, List.length_take, List.length_drop]
  omega

/-- A splice that starts where another ends. -/
theorem splice_splice (h : p + bs.length + bs'.length ≤ xs.length) :
    splice (splice xs p bs) (p + bs.length) bs' = splice xs p (bs ++ bs') := by
  have hhead : (xs.take p ++ bs).length = p + bs.length := by
    rw [List.length_append, List.length_take]
    omega
  have htake : (splice xs p bs).take (p + bs.length) = xs.take p ++ bs := by
    rw [splice, ← hhead, List.take_left]
  have hdrop : (splice xs p bs).drop (p + bs.length + bs'.length) =
      xs.drop (p + (bs.length + bs'.length)) := by
    rw [splice, ← List.drop_drop, ← hhead, List.drop_left, hhead, List.drop_drop, Nat.add_assoc]
  rw [splice, htake, hdrop, splice, List.length_append, List.append_assoc (xs.take p)]

/-- What was spliced in is there. -/
theorem take_drop_splice (h : p + bs.length ≤ xs.length) :
    ((splice xs p bs).drop p).take bs.length = bs := by
  have hhead : (xs.take p).length = p := by
    rw [List.length_take]
    omega
  rw [splice, List.append_assoc, List.drop_left' hhead, List.take_left]

/-- Outside the part that was replaced nothing changed. -/
theorem getElem?_splice (h : p + bs.length ≤ xs.length) {i : Nat}
    (hi : i < p ∨ p + bs.length ≤ i) : (splice xs p bs)[i]? = xs[i]? := by
  have hhead : (xs.take p ++ bs).length = p + bs.length := by
    rw [List.length_append, List.length_take]
    omega
  rcases hi with hi | hi
  · rw [splice, List.append_assoc, List.getElem?_append_left (by rw [List.length_take]; omega),
      List.getElem?_take_of_lt hi]
  · rw [splice, List.getElem?_append_right (by omega), hhead, List.getElem?_drop]
    congr 1
    omega

/-! ## Past the end -/

/-- The list with its elements from a position on replaced, longer where there are none. -/
def overwrite (z : α) (xs : List α) (p : Nat) (bs : List α) : List α :=
  if bs.length = 0 then xs
  else (xs ++ List.replicate (p - xs.length) z).take p ++ bs ++ xs.drop (p + bs.length)

variable {z : α}

theorem overwrite_nil : overwrite z xs p [] = xs := rfl

theorem getElem?_overwrite (h : bs.length ≠ 0) (i : Nat) : (overwrite z xs p bs)[i]? =
    if i < p then if i < xs.length then xs[i]? else some z
    else if i < p + bs.length then bs[i - p]? else xs[i]? := by
  have hhead : ((xs ++ List.replicate (p - xs.length) z).take p).length = p := by
    simp only [List.length_take, List.length_append, List.length_replicate]
    omega
  rw [overwrite, if_neg h, List.append_assoc]
  split
  · rename_i hi
    rw [List.getElem?_append_left (by omega), List.getElem?_take_of_lt hi]
    split
    · rename_i hold
      rw [List.getElem?_append_left hold]
    · rename_i hgap
      rw [List.getElem?_append_right (by omega), List.getElem?_replicate, if_pos (by omega)]
  · rename_i hi
    rw [List.getElem?_append_right (by omega), hhead]
    split
    · rw [List.getElem?_append_left (by omega)]
    · rw [List.getElem?_append_right (by omega), List.getElem?_drop]
      congr 1
      omega

theorem length_overwrite (h : bs.length ≠ 0) :
    (overwrite z xs p bs).length = max xs.length (p + bs.length) := by
  rw [overwrite, if_neg h]
  simp only [List.length_append, List.length_take, List.length_replicate, List.length_drop]
  omega

/-- An overwriting that starts where another ends. -/
theorem overwrite_overwrite : overwrite z (overwrite z xs p bs) (p + bs.length) bs' =
    overwrite z xs p (bs ++ bs') := by
  by_cases hbs' : bs'.length = 0
  · rw [List.eq_nil_of_length_eq_zero hbs', overwrite_nil, List.append_nil]
  by_cases hbs : bs.length = 0
  · rw [List.eq_nil_of_length_eq_zero hbs, overwrite_nil, List.nil_append, List.length_nil,
      Nat.add_zero]
  · refine List.ext_getElem? fun i => ?_
    rw [getElem?_overwrite hbs', getElem?_overwrite hbs, length_overwrite hbs,
      getElem?_overwrite (by rw [List.length_append]; omega), List.length_append]
    rcases Nat.lt_or_ge i p with hlow | hlow
    · simp only [if_pos hlow, if_pos (show i < p + bs.length by omega),
        if_pos (show i < max xs.length (p + bs.length) by omega)]
    simp only [if_neg (Nat.not_lt.mpr hlow)]
    rcases Nat.lt_or_ge i (p + bs.length) with hmid | hmid
    · rw [if_pos hmid, if_pos (by omega), if_pos hmid, if_pos (by omega),
        List.getElem?_append_left (by omega)]
    · simp only [if_neg (Nat.not_lt.mpr hmid), Nat.add_assoc]
      rw [List.getElem?_append_right (by omega), Nat.sub_sub]

/-- A list does not change when it is overwritten with what it holds, and only then. -/
theorem overwrite_eq_self_iff :
    overwrite z xs p bs = xs ↔ (xs.drop p).take bs.length = bs := by
  by_cases hbs : bs.length = 0
  · rw [List.eq_nil_of_length_eq_zero hbs]
    exact iff_of_true overwrite_nil List.take_zero
  constructor
  · intro h
    have hlen : (overwrite z xs p bs).length = _ := length_overwrite hbs
    rw [h] at hlen
    refine List.ext_getElem? fun i => ?_
    have hat : (overwrite z xs p bs)[p + i]? = _ := getElem?_overwrite hbs (p + i)
    rw [h, if_neg (by omega), Nat.add_sub_cancel_left] at hat
    rcases Nat.lt_or_ge i bs.length with hi | hi
    · rw [if_pos (by omega)] at hat
      rw [List.getElem?_take_of_lt hi, List.getElem?_drop, hat]
    · rw [List.getElem?_eq_none (by rw [List.length_take]; omega), List.getElem?_eq_none hi]
  · intro h
    have hlen := congrArg List.length h
    rw [List.length_take, List.length_drop] at hlen
    refine List.ext_getElem? fun i => ?_
    rw [getElem?_overwrite hbs]
    split
    · rw [if_pos (by omega)]
    · rename_i hlow
      split
      · rename_i hmid
        rw [← h, List.getElem?_take_of_lt (by omega), List.getElem?_drop,
          Nat.add_sub_cancel' (Nat.le_of_not_lt hlow)]
      · rfl

end Splice

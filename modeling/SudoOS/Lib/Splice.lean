import Mathlib

/-! Lists in which a part is replaced by as many new elements. -/

namespace Splice

variable {α : Type*} {l input : List α} {o : Nat}

theorem length_splice (h : o + input.length ≤ l.length) :
    (l.take o ++ input ++ l.drop (o + input.length)).length = l.length := by
  rw [List.length_append, List.length_append, List.length_take, List.length_drop]
  omega

/-- The replaced part comes from the new elements, the rest from the old ones. -/
theorem getD_splice (h : o + input.length ≤ l.length) (i : Nat) (d : α) :
    (l.take o ++ input ++ l.drop (o + input.length)).getD i d =
      if o ≤ i ∧ i < o + input.length then input.getD (i - o) d else l.getD i d := by
  have htake : (l.take o).length = o := by rw [List.length_take]; omega
  split
  case isTrue hin =>
    rw [List.getD_append _ _ _ _ (by rw [List.length_append, htake]; omega), List.getD_append_right _ _ _ _ (by omega),
      htake]
  case isFalse hout =>
    by_cases hlow : i < o
    · rw [List.append_assoc, List.getD_append _ _ _ _ (by omega), List.getD_eq_getElem?_getD, List.getD_eq_getElem?_getD,
        List.getElem?_take_of_lt hlow]
    · rw [List.getD_append_right _ _ _ _ (by rw [List.length_append, htake]; omega), List.length_append, htake,
        List.getD_eq_getElem?_getD, List.getD_eq_getElem?_getD, List.getElem?_drop]
      congr 2
      omega

theorem ext_getD {m : List α} (d : α) (hlen : l.length = m.length) (h : ∀ i < l.length, l.getD i d = m.getD i d) :
    l = m := by
  refine List.ext_getElem hlen fun i hl hm => ?_
  have := h i hl
  rwa [List.getD_eq_getElem _ _ hl, List.getD_eq_getElem _ _ hm] at this

end Splice

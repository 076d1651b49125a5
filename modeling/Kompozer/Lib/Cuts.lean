import Mathlib

/-! Cutting a stretch out of a list: where two cuts leave the same list, the stretches between their
places are the same. -/

namespace Kompozer.Lib

variable {α : Type*}

/-- What is left without the stretch from the one place to the other. -/
def cut (l : List α) (i j : ℕ) : List α := l.take i ++ l.drop j

theorem length_cut {l : List α} {i j : ℕ} (hi : i ≤ l.length) :
    (cut l i j).length = i + (l.length - j) := by
  rw [cut, List.length_append, List.length_take, List.length_drop, min_eq_left hi]

theorem getElem?_cut_left {l : List α} {i j k : ℕ} (hk : k < i) (hi : i ≤ l.length) :
    (cut l i j)[k]? = l[k]? := by
  rw [cut, List.getElem?_append_left (by rw [List.length_take]; omega),
    List.getElem?_take_of_lt hk]

theorem getElem?_cut_right {l : List α} {i j k : ℕ} (hk : i ≤ k) (hi : i ≤ l.length) :
    (cut l i j)[k]? = l[j + (k - i)]? := by
  rw [cut, List.getElem?_append_right (by rw [List.length_take]; omega), List.length_take,
    min_eq_left hi, List.getElem?_drop]

variable {l : List α} {i j i' j' : ℕ}

/-- Two cuts that leave the same list are as long as each other. -/
theorem cut_shift (h : cut l i j = cut l i' j') (hj : j ≤ j') (hj' : j' ≤ l.length)
    (hi : i ≤ l.length) (hi' : i' ≤ l.length) : i + (j' - j) = i' := by
  have hlength := congrArg List.length h
  rw [length_cut hi, length_cut hi'] at hlength
  omega

/-- The first elements behind the two beginnings agree. -/
theorem cut_head (h : cut l i j = cut l i' j') (hj : j < j') (hj' : j' ≤ l.length)
    (hi : i ≤ l.length) (hi' : i' ≤ l.length) : l[i]? = l[j]? := by
  have hshift := cut_shift h hj.le hj' hi hi'
  have hleft := getElem?_cut_right (j := j) (le_refl i) hi
  have hright := getElem?_cut_left (j := j') (show i < i' by omega) hi'
  rw [← h, hleft] at hright
  simpa using hright.symm

/-- The last elements before the two ends agree. -/
theorem cut_last (h : cut l i j = cut l i' j') (hj : j < j') (hj' : j' ≤ l.length)
    (hi : i ≤ l.length) (hi' : i' ≤ l.length) : l[i' - 1]? = l[j' - 1]? := by
  have hshift := cut_shift h hj.le hj' hi hi'
  have hleft := getElem?_cut_right (j := j) (show i ≤ i' - 1 by omega) hi
  have hright := getElem?_cut_left (j := j') (show i' - 1 < i' by omega) hi'
  rw [← h, hleft, show j + (i' - 1 - i) = j' - 1 by omega] at hright
  exact hright.symm

theorem cut_append (a b c : List α) :
    cut (a ++ b ++ c) a.length (a.length + b.length) = a ++ c := by
  rw [cut, List.append_assoc, List.take_left, ← List.append_assoc, ← List.length_append,
    List.drop_left]

end Kompozer.Lib

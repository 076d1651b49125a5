import Mathlib

/-! What is taken off the end of a list, and what stays, for a list that is put together. -/

namespace Kompozer.Lib

variable {α : Type*} {p : α → Bool} {c : α}

theorem rdropWhile_append_cons (hc : p c = false) (a b : List α) :
    (a ++ c :: b).rdropWhile p = a ++ c :: b.rdropWhile p := by
  induction b using List.reverseRecOn with
  | nil => rw [List.rdropWhile_concat_neg _ _ _ (by simp [hc]), List.rdropWhile_nil]
  | append_singleton b d ih =>
    rw [← List.cons_append, ← List.append_assoc]
    by_cases hd : p d = true
    · rw [List.rdropWhile_concat_pos _ _ _ hd, List.rdropWhile_concat_pos _ _ _ hd, ih]
    · rw [List.rdropWhile_concat_neg _ _ _ hd, List.rdropWhile_concat_neg _ _ _ hd]
      simp

theorem rtakeWhile_append_cons (hc : p c = false) (a b : List α) :
    (a ++ c :: b).rtakeWhile p = b.rtakeWhile p := by
  induction b using List.reverseRecOn with
  | nil => rw [List.rtakeWhile_concat_neg _ _ _ (by simp [hc]), List.rtakeWhile_nil]
  | append_singleton b d ih =>
    rw [← List.cons_append, ← List.append_assoc]
    by_cases hd : p d = true
    · rw [List.rtakeWhile_concat_pos _ _ _ hd, List.rtakeWhile_concat_pos _ _ _ hd, ih]
    · rw [List.rtakeWhile_concat_neg _ _ _ hd, List.rtakeWhile_concat_neg _ _ _ hd]

theorem rdropWhile_append_of_pos {b : List α} (hb : ∀ d ∈ b, p d = true) (a : List α) :
    (a ++ b).rdropWhile p = a.rdropWhile p := by
  induction b using List.reverseRecOn with
  | nil => rw [List.append_nil]
  | append_singleton b d ih =>
    rw [← List.append_assoc, List.rdropWhile_concat_pos _ _ _ (hb d (by simp)),
      ih fun x hx => hb x (by simp [hx])]

theorem rtakeWhile_append_of_pos {b : List α} (hb : ∀ d ∈ b, p d = true) (a : List α) :
    (a ++ b).rtakeWhile p = a.rtakeWhile p ++ b := by
  induction b using List.reverseRecOn with
  | nil => simp
  | append_singleton b d ih =>
    rw [← List.append_assoc, List.rtakeWhile_concat_pos _ _ _ (hb d (by simp)),
      ih fun x hx => hb x (by simp [hx]), List.append_assoc]

theorem dropWhile_append_cons (hc : p c = false) (a b : List α) :
    (a ++ c :: b).dropWhile p = a.dropWhile p ++ c :: b := by
  induction a with
  | nil => exact List.dropWhile_cons_of_neg (by simp [hc])
  | cons d a ih =>
    rw [List.cons_append]
    by_cases hd : p d = true
    · rw [List.dropWhile_cons_of_pos hd, List.dropWhile_cons_of_pos hd, ih]
    · rw [List.dropWhile_cons_of_neg hd, List.dropWhile_cons_of_neg hd, List.cons_append]

theorem drop_length_takeWhile (p : α → Bool) (a : List α) :
    a.drop (a.takeWhile p).length = a.dropWhile p := by
  calc a.drop (a.takeWhile p).length
      = (a.takeWhile p ++ a.dropWhile p).drop (a.takeWhile p).length := by
        rw [List.takeWhile_append_dropWhile]
    _ = a.dropWhile p := List.drop_left

/-- The last character that stays. -/
theorem eq_nil_or_getLast_rdropWhile (p : α → Bool) (a : List α) :
    a.rdropWhile p = [] ∨ ∃ front c, a.rdropWhile p = front ++ [c] ∧ p c = false := by
  rcases List.eq_nil_or_concat (a.rdropWhile p) with hnil | ⟨front, c, hc⟩
  · exact .inl hnil
  · rw [List.concat_eq_append] at hc
    have hne : a.rdropWhile p ≠ [] := by simp [hc]
    have hlast := List.rdropWhile_last_not p a hne
    exact .inr ⟨front, c, hc, by simpa [hc] using hlast⟩

/-- The first character that stays. -/
theorem eq_nil_or_head_dropWhile (p : α → Bool) (a : List α) :
    a.dropWhile p = [] ∨ ∃ c rest, a.dropWhile p = c :: rest ∧ p c = false := by
  cases h : a.dropWhile p with
  | nil => exact .inl rfl
  | cons c rest =>
    have hhead := List.head?_dropWhile_not p a
    rw [h] at hhead
    exact .inr ⟨c, rest, rfl, hhead⟩

/-- A list up to an element, which stands behind it if it is there. -/
theorem takeWhile_ne_cut [DecidableEq α] (d : α) (a : List α) :
    a.takeWhile (· ≠ d) = a ∨ ∃ rest, a = a.takeWhile (· ≠ d) ++ d :: rest := by
  rcases eq_nil_or_head_dropWhile (· ≠ d) a with hnil | ⟨c, rest, hrest, hc⟩
  · left
    have hall := List.takeWhile_append_dropWhile (p := (· ≠ d)) (l := a)
    rwa [hnil, List.append_nil] at hall
  · obtain rfl : c = d := by simpa using hc
    exact .inr ⟨rest, by rw [← hrest, List.takeWhile_append_dropWhile]⟩

end Kompozer.Lib

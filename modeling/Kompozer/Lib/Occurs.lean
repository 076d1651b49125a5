import Mathlib

/-! Where one list occurs in another. -/

namespace Kompozer

universe u
variable {α : Type u} {w l front back : List α} {p k : ℕ}

/-- `w` is in `l`, from the place `p` on. -/
def OccursAt (w l : List α) (p : ℕ) : Prop := w <+: l.drop p

instance [DecidableEq α] : Decidable (OccursAt w l p) :=
  inferInstanceAs (Decidable (w <+: l.drop p))

/-- No occurrence of `w` in `l` begins before the place `p`. -/
def NoneBefore (w l : List α) (p : ℕ) : Prop := ∀ k < p, ¬OccursAt w l k

/-- The first place where `w` is in `l`. -/
def FirstAt (w l : List α) (p : ℕ) : Prop := OccursAt w l p ∧ NoneBefore w l p

theorem OccursAt.le (h : OccursAt w l p) (hw : w ≠ []) : p + w.length ≤ l.length := by
  have hle := h.length_le
  have hpos := List.length_pos_iff.mpr hw
  rw [List.length_drop] at hle
  omega

theorem OccursAt.append (h : OccursAt w l p) (back : List α) : OccursAt w (l ++ back) p := by
  refine h.trans ?_
  rw [List.drop_append]
  exact List.prefix_append _ _

theorem OccursAt.isInfix (h : OccursAt w l p) : w <:+: l :=
  (List.IsPrefix.isInfix h).trans (List.drop_suffix p l).isInfix

theorem exists_occursAt (h : w <:+: l) : ∃ p, OccursAt w l p := by
  obtain ⟨front, back, rfl⟩ := h
  refine ⟨front.length, ?_⟩
  rw [OccursAt, List.append_assoc, List.drop_left]
  exact List.prefix_append w back

theorem occursAt_append_right : OccursAt w (front ++ l) (front.length + p) ↔ OccursAt w l p := by
  rw [OccursAt, List.drop_append, List.drop_eq_nil_of_le (by omega), Nat.add_sub_cancel_left]
  rfl

/-- What is behind an occurrence does not matter to it. -/
theorem occursAt_append_left (h : p + w.length ≤ l.length) :
    OccursAt w (l ++ back) p ↔ OccursAt w l p := by
  refine ⟨fun hocc => ?_, fun hocc => hocc.append back⟩
  rw [OccursAt, List.drop_append_of_le_length (by omega)] at hocc
  exact List.prefix_of_prefix_length_le hocc (List.prefix_append _ _)
    (by rw [List.length_drop]; omega)

/-- An occurrence that begins in one list and ends in the next. -/
theorem occursAt_append_iff (hp : p + k = l.length) (hk : k ≤ w.length) :
    OccursAt w (l ++ back) p ↔ w.take k <+: l.drop p ∧ w.drop k <+: back := by
  have hlen : (l.drop p).length = k := by
    rw [List.length_drop]
    omega
  have htake : (w.take k).length = k := List.length_take_of_le hk
  rw [OccursAt, List.drop_append_of_le_length (by omega)]
  constructor
  · rintro ⟨t, ht⟩
    rw [← List.take_append_drop k w, List.append_assoc] at ht
    obtain ⟨hfirst, hrest⟩ := List.append_inj ht (htake.trans hlen.symm)
    exact ⟨hfirst ▸ List.prefix_rfl, hrest ▸ List.prefix_append _ _⟩
  · rintro ⟨hfirst, t, ht⟩
    have heq : w.take k = l.drop p := hfirst.eq_of_length (htake.trans hlen.symm)
    refine ⟨t, ?_⟩
    rw [← ht, ← heq, ← List.append_assoc, List.take_append_drop]

/-- One more stretch of places is looked at. -/
theorem NoneBefore.extend {q : ℕ} (h : NoneBefore w l p)
    (hmore : ∀ k, p ≤ k → k < q → ¬OccursAt w l k) : NoneBefore w l q := by
  intro k hk
  by_cases hkp : k < p
  · exact h k hkp
  · exact hmore k (by omega) hk

/-- Where no occurrence fits anymore, there is none. -/
theorem NoneBefore.not_isInfix (h : NoneBefore w (l ++ back) p) (hw : w ≠ [])
    (hp : l.length < p + w.length) : ¬w <:+: l := by
  intro hocc
  obtain ⟨k, hk⟩ := exists_occursAt hocc
  have hle := hk.le hw
  exact h k (by omega) (hk.append back)

/-- What is behind the list does not bring an occurrence before the last places. -/
theorem NoneBefore.append (h : NoneBefore w l p) (hp : p + w.length ≤ l.length + 1)
    (back : List α) : NoneBefore w (l ++ back) p := by
  intro k hk hocc
  exact h k hk ((occursAt_append_left (by omega)).mp hocc)

end Kompozer

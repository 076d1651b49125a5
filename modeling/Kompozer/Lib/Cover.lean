import Mathlib

/-! Sets of points described by lists of shapes: the union of the shapes' points, lists
whose shapes have no point in common, and how many shapes lie over a point. -/

namespace Kompozer

universe u v

section Cover
variable {α : Type u} {P : Type v} (f : α → Set P)

/-- The points of the shapes of a list. -/
def cover (l : List α) : Set P := {p | ∃ a ∈ l, p ∈ f a}

variable {f}

@[simp] theorem cover_nil : cover f [] = ∅ := by
  ext p
  simp [cover]

@[simp] theorem cover_cons (a : α) (l : List α) : cover f (a :: l) = f a ∪ cover f l := by
  ext p
  simp [cover]

@[simp] theorem cover_append (l r : List α) : cover f (l ++ r) = cover f l ∪ cover f r := by
  ext p
  simp only [cover, List.mem_append, Set.mem_ofPred_eq, Set.mem_union]
  constructor
  · rintro ⟨a, ha | ha, hp⟩
    · exact .inl ⟨a, ha, hp⟩
    · exact .inr ⟨a, ha, hp⟩
  · rintro (⟨a, ha, hp⟩ | ⟨a, ha, hp⟩)
    · exact ⟨a, .inl ha, hp⟩
    · exact ⟨a, .inr ha, hp⟩

theorem subset_cover {a : α} {l : List α} (h : a ∈ l) : f a ⊆ cover f l :=
  fun _ hp => ⟨a, h, hp⟩

theorem cover_mono {l r : List α} (h : ∀ a ∈ l, a ∈ r) : cover f l ⊆ cover f r :=
  fun _ ⟨a, ha, hp⟩ => ⟨a, h a ha, hp⟩

theorem cover_subset {l : List α} {s : Set P} (h : ∀ a ∈ l, f a ⊆ s) : cover f l ⊆ s :=
  fun _ ⟨a, ha, hp⟩ => h a ha hp

theorem cover_perm {l r : List α} (h : l.Perm r) : cover f l = cover f r := by
  ext p
  simp [cover, h.mem_iff]

variable (f)

/-- No two shapes of the list share a point. -/
def Apart (l : List α) : Prop := l.Pairwise fun a b => Disjoint (f a) (f b)

variable {f}

theorem disjoint_cover {s : Set P} {l : List α} (h : ∀ a ∈ l, Disjoint s (f a)) :
    Disjoint s (cover f l) := by
  rw [Set.disjoint_left]
  rintro p hp ⟨a, ha, hpa⟩
  exact Set.disjoint_left.mp (h a ha) hp hpa

theorem Apart.disjoint_cons {a : α} {l : List α} (h : Apart f (a :: l)) :
    Disjoint (f a) (cover f l) :=
  disjoint_cover (List.pairwise_cons.mp h).1

theorem Apart.perm {l r : List α} (h : Apart f l) (hp : l.Perm r) : Apart f r :=
  (hp.pairwise_iff fun h => h.symm).mp h

end Cover

section Layers
variable {α : Type u} {P : Type v} (f : α → Set P)

open Classical in
/-- How many shapes of a list lie over a point. -/
noncomputable def layers : List α → P → ℕ
  | [], _ => 0
  | a :: l, p => (if p ∈ f a then 1 else 0) + layers l p

variable {f} {l r : List α} {p : P}

@[simp] theorem layers_nil : layers f [] p = 0 := rfl

open Classical in
theorem layers_cons (a : α) (l : List α) :
    layers f (a :: l) p = (if p ∈ f a then 1 else 0) + layers f l p := rfl

@[simp] theorem layers_append : layers f (l ++ r) p = layers f l p + layers f r p := by
  induction l with
  | nil => rw [List.nil_append, layers_nil, Nat.zero_add]
  | cons a l ih => rw [List.cons_append, layers_cons, layers_cons, ih, Nat.add_assoc]

theorem layers_perm (h : l.Perm r) : layers f l p = layers f r p := by
  induction h with
  | nil => rfl
  | cons a _ ih => rw [layers_cons, layers_cons, ih]
  | swap a b l =>
    simp only [layers_cons]
    omega
  | trans _ _ ih ih' => exact ih.trans ih'

open Classical in
/-- A list of at most one shape. -/
theorem layers_ite (q : Prop) [Decidable q] (a : α) :
    layers f (if q then [a] else []) p = if q ∧ p ∈ f a then 1 else 0 := by
  by_cases hq : q
  · simp [hq, layers_cons]
  · simp [hq]

/-- The points under at least one shape. -/
theorem layers_pos : 0 < layers f l p ↔ p ∈ cover f l := by
  induction l with
  | nil => simp
  | cons a l ih =>
    rw [layers_cons, cover_cons, Set.mem_union, ← ih]
    split_ifs with h
    · exact iff_of_true (by omega) (.inl h)
    · simp [h]

theorem layers_eq_zero : layers f l p = 0 ↔ p ∉ cover f l := by
  rw [← layers_pos]
  omega

/-- Shapes are apart when no point lies under two of them. -/
theorem apart_iff_layers : Apart f l ↔ ∀ p, layers f l p ≤ 1 := by
  induction l with
  | nil => simp [Apart]
  | cons a l ih =>
    constructor
    · intro h p
      have hl := ih.mp (List.pairwise_cons.mp h).2 p
      rw [layers_cons]
      split_ifs with hp
      · have := layers_eq_zero.mpr (Set.disjoint_left.mp h.disjoint_cons hp)
        omega
      · omega
    · intro h
      refine List.pairwise_cons.mpr ⟨fun b hb => Set.disjoint_left.mpr fun p hp hpb => ?_,
        ih.mpr fun p => ?_⟩
      · have := h p
        have := layers_pos.mpr (subset_cover hb hpb)
        rw [layers_cons, if_pos hp] at *
        omega
      · have := h p
        rw [layers_cons] at this
        omega

end Layers

end Kompozer

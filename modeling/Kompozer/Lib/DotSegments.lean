import Mathlib.Data.List.Basic

/-! Relative names: a list of segments in which one stands for the place itself and one for the
place above. It is reduced with a stack of the segments in force, the innermost first. Above the
root the second one is dropped, or retained as a segment of its own. -/

namespace Kompozer.Lib

/-- The segments that are no names: for the place itself, for the place above, and the empty one
behind a separator at the end. -/
structure DotNames (σ : Type*) where
  here : σ
  above : σ
  unnamed : σ

namespace DotNames

variable {σ : Type*} [DecidableEq σ] (N : DotNames σ) (retain : Bool)

/-- There is a segment to take away. -/
def canPop (stack : List σ) : Bool := stack ≠ [] && stack.head? ≠ some N.above

def step (stack : List σ) (s : σ) : List σ :=
  if s = N.here then stack
  else if s = N.above then
    if !retain || N.canPop stack then stack.tail else s :: stack
  else s :: stack

/-- The last segment leaves its separator behind. -/
def close (stack : List σ) (s : σ) : List σ :=
  if s = N.here then N.unnamed :: stack
  else if s = N.above then
    if !retain || N.canPop stack then N.unnamed :: stack.tail else s :: stack
  else s :: stack

/-- The segments in front of the last one, and the last one. -/
def reduce (segs : List σ) (last : σ) : List σ :=
  (N.close retain (segs.foldl (N.step retain) []) last).reverse

theorem close_ne_nil (stack : List σ) (s : σ) : N.close retain stack s ≠ [] := by
  rw [close]
  split_ifs <;> exact List.cons_ne_nil _ _

theorem reduce_ne_nil (segs : List σ) (last : σ) : N.reduce retain segs last ≠ [] := by
  rw [reduce, Ne, List.reverse_eq_nil_iff]
  exact close_ne_nil N retain _ _

/-- Above the root nothing is retained: what is left are names. -/
theorem forall_reduce {P : σ → Prop} {segs : List σ} {last : σ} (hsegs : ∀ s ∈ segs, P s)
    (hlast : P last) (hunnamed : P N.unnamed ∧ N.unnamed ≠ N.here ∧ N.unnamed ≠ N.above) :
    ∀ s ∈ N.reduce false segs last, P s ∧ s ≠ N.here ∧ s ≠ N.above := by
  have hstack : ∀ (segs : List σ) (stack : List σ), (∀ s ∈ segs, P s) →
      (∀ s ∈ stack, P s ∧ s ≠ N.here ∧ s ≠ N.above) →
      ∀ s ∈ segs.foldl (N.step false) stack, P s ∧ s ≠ N.here ∧ s ≠ N.above := by
    intro segs
    induction segs with
    | nil => exact fun _ _ h => h
    | cons s segs ih =>
      intro stack hsegs h
      obtain ⟨hs, hsegs⟩ := List.forall_mem_cons.mp hsegs
      refine ih _ hsegs ?_
      rw [step, Bool.not_false, Bool.true_or, if_pos rfl]
      split_ifs with hhere habove
      · exact h
      · exact fun x hx => h x (List.mem_of_mem_tail hx)
      · exact List.forall_mem_cons.mpr ⟨⟨hs, hhere, habove⟩, h⟩
  have h := hstack segs [] hsegs (by simp)
  simp only [reduce, List.mem_reverse]
  rw [close, Bool.not_false, Bool.true_or, if_pos rfl]
  split_ifs with hhere habove
  · exact List.forall_mem_cons.mpr ⟨hunnamed, h⟩
  · exact List.forall_mem_cons.mpr ⟨hunnamed, fun x hx => h x (List.mem_of_mem_tail hx)⟩
  · exact List.forall_mem_cons.mpr ⟨⟨hlast, hhere, habove⟩, h⟩

end DotNames

/-! ### Separators -/

section Separators
variable {α : Type*}

/-- Two strings are the same up to the first character of a kind, and from there on. -/
theorem append_inj_of_first {P : α → Prop} {x y a b : List α} (hx : ∀ c ∈ x, ¬ P c)
    (hy : ∀ c ∈ y, ¬ P c) (ha : ∀ c ∈ a.head?, P c) (hb : ∀ c ∈ b.head?, P c)
    (h : x ++ a = y ++ b) : x = y ∧ a = b := by
  have hnil {z u v : List α} (hz : ∀ c ∈ z, ¬ P c) (hu : ∀ c ∈ u.head?, P c)
      (huv : u = z ++ v) : z = [] := by
    cases z with
    | nil => rfl
    | cons c z => exact absurd (hu c (by rw [huv]; rfl)) (hz c (by simp))
  rcases List.append_eq_append_iff.mp h with ⟨z, rfl, hab⟩ | ⟨z, rfl, hab⟩
  · obtain rfl := hnil (fun c hc => hy c (by simp [hc])) ha hab
    exact ⟨(List.append_nil x).symm, hab⟩
  · obtain rfl := hnil (fun c hc => hx c (by simp [hc])) hb hab
    exact ⟨List.append_nil y, hab.symm⟩

theorem flatMap_cons_inj {sep : α} {xs ys : List (List α)} (hx : ∀ x ∈ xs, sep ∉ x)
    (hy : ∀ y ∈ ys, sep ∉ y) (h : xs.flatMap (sep :: ·) = ys.flatMap (sep :: ·)) : xs = ys := by
  have hhead (zs : List (List α)) : ∀ c ∈ (zs.flatMap (sep :: ·)).head?, c = sep := by
    intro c hc
    cases zs with
    | nil => exact absurd hc (by simp)
    | cons z zs => exact (Option.some.inj hc).symm
  have hfree {z : List α} (hz : sep ∉ z) : ∀ c ∈ z, ¬ c = sep := fun c hc hs => hz (hs ▸ hc)
  induction xs generalizing ys with
  | nil =>
    cases ys with
    | nil => rfl
    | cons y ys => exact absurd h (by simp)
  | cons x xs ih =>
    cases ys with
    | nil => exact absurd h (by simp)
    | cons y ys =>
      rw [List.flatMap_cons, List.flatMap_cons, List.cons_append, List.cons_append,
        List.cons.injEq] at h
      obtain ⟨hxy, hrest⟩ := append_inj_of_first (hfree (hx x (by simp)))
        (hfree (hy y (by simp))) (hhead xs) (hhead ys) h.2
      rw [hxy, ih (fun z hz => hx z (by simp [hz])) (fun z hz => hy z (by simp [hz])) hrest]

end Separators

end Kompozer.Lib

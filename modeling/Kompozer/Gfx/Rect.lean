import Kompozer.Lib.Cover
import Mathlib.Data.Int.Notation
import Mathlib.Tactic.Linarith

/-! Rectangles (`nsRect.h`, `nsRect.cpp` and the `nsRectFast` of `nsRegion.cpp`).
Coordinates are integers; where a result depends on the range of `PRInt32` it says
so. -/

namespace Kompozer.Gfx

def MIN_INT32 : ℤ := -2147483648
def MAX_INT32 : ℤ := 2147483647

/-- `nsRect`. -/
structure NsRect where
  x : ℤ
  y : ℤ
  width : ℤ
  height : ℤ
  deriving DecidableEq, Repr

namespace NsRect

def xMost (r : NsRect) : ℤ := r.x + r.width
def yMost (r : NsRect) : ℤ := r.y + r.height

/-- `IsEmpty`. -/
def isEmpty (r : NsRect) : Bool := decide (r.height ≤ 0 ∨ r.width ≤ 0)

/-- `nsRectFast::Contains`. -/
def contains (r aRect : NsRect) : Bool :=
  decide (r.x ≤ aRect.x ∧ r.y ≤ aRect.y ∧ aRect.xMost ≤ r.xMost ∧ aRect.yMost ≤ r.yMost)

/-- `nsRectFast::Intersects`. -/
def intersects (r aRect : NsRect) : Bool :=
  decide (r.x < aRect.xMost ∧ r.y < aRect.yMost ∧ aRect.x < r.xMost ∧ aRect.y < r.yMost)

/-- `nsRectFast::IntersectRect`: the fields of `self` that the early returns do not
reach keep their values. -/
def intersectRect (self aRect1 aRect2 : NsRect) : NsRect × Bool :=
  let xmost := min aRect1.xMost aRect2.xMost
  let r := { self with x := max aRect1.x aRect2.x, width := xmost - max aRect1.x aRect2.x }
  if r.width ≤ 0 then (r, false)
  else
    let ymost := min aRect1.yMost aRect2.yMost
    let r := { r with y := max aRect1.y aRect2.y, height := ymost - max aRect1.y aRect2.y }
    if r.height ≤ 0 then (r, false) else (r, true)

/-- The points of a rectangle, its right and lower edges excluded. -/
def points (r : NsRect) : Set (ℤ × ℤ) :=
  {p | r.x ≤ p.1 ∧ p.1 < r.xMost ∧ r.y ≤ p.2 ∧ p.2 < r.yMost}

/-- The order of the list of a region: by `y`, then by `x`. -/
def Before (r s : NsRect) : Prop := r.y < s.y ∨ r.y = s.y ∧ r.x < s.x

/-- Neither side is empty. -/
def Solid (r : NsRect) : Prop := 0 < r.width ∧ 0 < r.height

theorem mem_points {r : NsRect} {p : ℤ × ℤ} :
    p ∈ r.points ↔ r.x ≤ p.1 ∧ p.1 < r.x + r.width ∧ r.y ≤ p.2 ∧ p.2 < r.y + r.height :=
  Iff.rfl

theorem solid_iff {r : NsRect} : r.Solid ↔ r.isEmpty = false := by
  simp only [Solid, isEmpty, decide_eq_false_iff_not, not_or, not_le]
  exact and_comm

theorem Solid.corner_mem {r : NsRect} (h : r.Solid) : (r.x, r.y) ∈ r.points := by
  obtain ⟨hw, hh⟩ := h
  rw [mem_points]
  dsimp only
  omega

theorem points_of_isEmpty {r : NsRect} (h : r.isEmpty = true) : r.points = ∅ := by
  simp only [isEmpty, decide_eq_true_eq] at h
  ext p
  simp only [mem_points, Set.mem_empty_iff_false, iff_false]
  omega

theorem Before.trans {r s t : NsRect} (h : r.Before s) (h' : s.Before t) : r.Before t := by
  simp only [Before] at *
  omega

/-- Two rectangles that share no point have different corners. -/
theorem before_or_before {r s : NsRect} (hr : r.Solid) (hs : s.Solid)
    (hd : Disjoint r.points s.points) (h : ¬ r.Before s) : s.Before r := by
  by_contra h'
  have hx : r.x = s.x := by
    simp only [Before] at h h'
    omega
  have hy : r.y = s.y := by
    simp only [Before] at h h'
    omega
  refine Set.disjoint_left.mp hd hr.corner_mem ?_
  have := hs.corner_mem
  rwa [← hx, ← hy] at this

theorem points_subset_of_contains {r s : NsRect} (h : r.contains s = true) :
    s.points ⊆ r.points := by
  have h := of_decide_eq_true h
  simp only [xMost, yMost] at h
  intro p hp
  rw [mem_points] at hp ⊢
  omega

theorem disjoint_of_intersects {r s : NsRect} (h : r.intersects s = false) :
    Disjoint r.points s.points := by
  have h := of_decide_eq_false h
  simp only [xMost, yMost] at h
  rw [Set.disjoint_left]
  intro p hr hs
  rw [mem_points] at hr hs
  omega

/-- `IntersectRect` says whether there is an intersection and then computes it. -/
theorem intersectRect_spec (self r s : NsRect) :
    ((intersectRect self r s).2 = true → (intersectRect self r s).1.Solid ∧
      (intersectRect self r s).1.points = r.points ∩ s.points ∧
      (intersectRect self r s).1.y = max r.y s.y ∧
      (intersectRect self r s).1.yMost = min r.yMost s.yMost) ∧
    ((intersectRect self r s).2 = false → (intersectRect self r s).1.isEmpty = true ∧
      r.points ∩ s.points = ∅) := by
  simp only [intersectRect]
  split_ifs with hw hh
  · refine ⟨by simp, fun _ => ⟨by simp [isEmpty, hw], ?_⟩⟩
    ext p
    simp only [xMost] at hw
    simp only [Set.mem_inter_iff, mem_points, Set.mem_empty_iff_false, iff_false]
    omega
  · refine ⟨by simp, fun _ => ⟨by simp [isEmpty, hh], ?_⟩⟩
    ext p
    simp only [yMost] at hh
    simp only [Set.mem_inter_iff, mem_points, Set.mem_empty_iff_false, iff_false]
    omega
  · refine ⟨fun _ => ⟨⟨not_le.mp hw, not_le.mp hh⟩, ?_, rfl, by simp [yMost]⟩, by simp⟩
    ext p
    simp only [xMost, yMost] at *
    simp only [Set.mem_inter_iff, mem_points]
    omega

end NsRect

end Kompozer.Gfx

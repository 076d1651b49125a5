import Kompozer.Gfx.Union

/-! Regions put together by many operations (`nsRegion.cpp`). What is computed step by step is the
set that the same operations on sets give. -/

namespace Kompozer.Gfx

open NsRect

/-- `nsRect::MoveBy`. -/
def NsRect.moveBy (aDx aDy : ℤ) (r : NsRect) : NsRect := { r with x := r.x + aDx, y := r.y + aDy }

namespace Region

/-- `MoveBy`. -/
def moveBy (x y : ℤ) (a : Region) : Region :=
  if x ≠ 0 ∨ y ≠ 0 then
    { a with rects := a.rects.map (·.moveBy x y), mBoundRect := a.mBoundRect.moveBy x y }
  else a

variable {a b : Region}

theorem mem_moveBy {r : NsRect} {x y : ℤ} {p : ℤ × ℤ} :
    p ∈ (r.moveBy x y).points ↔ (p.1 - x, p.2 - y) ∈ r.points := by
  simp only [mem_points, NsRect.moveBy]
  omega

/-- A region that is not empty is moved with its bounds. -/
theorem Valid.moveBy (ha : a.Valid) (hc : a.mRectCount ≠ 0) (x y : ℤ) :
    (a.moveBy x y).Valid ∧ (a.moveBy x y).points = {p | (p.1 - x, p.2 - y) ∈ a.points} := by
  rw [Region.moveBy]
  split_ifs with hxy
  · have hne : a.rects ≠ [] := fun h => hc (ha.count.trans (by rw [h]; rfl))
    have htight := ha.tight
    rw [Tight, if_neg hne] at htight
    refine ⟨⟨?_, ?_, ?_, ?_, ?_⟩, ?_⟩
    · intro r hr
      obtain ⟨s, hs, rfl⟩ := List.mem_map.mp hr
      exact ha.solid s hs
    · refine List.pairwise_map.mpr (ha.apart.imp fun h => Set.disjoint_left.mpr fun p hr hs => ?_)
      exact Set.disjoint_left.mp h (mem_moveBy.mp hr) (mem_moveBy.mp hs)
    · refine List.pairwise_map.mpr (ha.sorted.imp fun h => ?_)
      simp only [Before, NsRect.moveBy] at h ⊢
      omega
    · rw [List.length_map]
      exact ha.count
    · obtain ⟨hin, ⟨r₁, h₁, e₁⟩, ⟨r₂, h₂, e₂⟩, ⟨r₃, h₃, e₃⟩, r₄, h₄, e₄⟩ := htight
      rw [Tight, if_neg (by simpa using hne)]
      refine ⟨List.forall_mem_map.mpr fun r hr => ?_, ⟨_, List.mem_map_of_mem h₁, ?_⟩,
        ⟨_, List.mem_map_of_mem h₂, ?_⟩, ⟨_, List.mem_map_of_mem h₃, ?_⟩,
        _, List.mem_map_of_mem h₄, ?_⟩
      · have h := contains_iff.mp (hin r hr)
        simp only [contains_iff, xMost, yMost, NsRect.moveBy] at h ⊢
        omega
      all_goals
        simp only [xMost, yMost, NsRect.moveBy] at e₁ e₂ e₃ e₄ ⊢
        omega
    · ext p
      simp only [points, cover, List.mem_map, Set.mem_ofPred_eq]
      constructor
      · rintro ⟨_, ⟨r, hr, rfl⟩, hp⟩
        exact ⟨r, hr, mem_moveBy.mp hp⟩
      · rintro ⟨r, hr, hp⟩
        exact ⟨_, ⟨r, hr, rfl⟩, mem_moveBy.mpr hp⟩
  · obtain ⟨rfl, rfl⟩ : x = 0 ∧ y = 0 := by omega
    exact ⟨ha, by simp⟩

theorem Valid.fits_iff (ha : a.Valid) :
    a.Fits ↔ ∀ p ∈ a.points, MIN_INT32 < p.2 ∧ p.2 < MAX_INT32 := by
  constructor
  · rintro h p ⟨r, hr, hp⟩
    have hfits := h r hr
    rw [mem_points] at hp
    simp only [NsRect.Fits, yMost] at hfits
    omega
  · intro h r hr
    obtain ⟨hw, hh⟩ := ha.solid r hr
    have hfirst := h (r.x, r.y) ⟨r, hr, (ha.solid r hr).corner_mem⟩
    have hlast := h (r.x, r.yMost - 1) ⟨r, hr, by rw [mem_points, yMost]; dsimp only; omega⟩
    rw [NsRect.Fits]
    dsimp only at hfirst hlast
    omega

/-! ### Expressions -/

/-- The operations on two regions. -/
inductive Op
  | and | or | xor | sub

namespace Op

/-- The result in a third region. -/
def run (aRgn1 aRgn2 : Region) : Op → Option Region
  | and => Region.and false aRgn1 aRgn2
  | or => Region.or .other 0 false aRgn1 aRgn2
  | xor => Region.xor .other 0 false aRgn1 aRgn2
  | sub => Region.sub .other false aRgn1 aRgn2

def points (s t : Set (ℤ × ℤ)) : Op → Set (ℤ × ℤ)
  | and => s ∩ t
  | or => s ∪ t
  | xor => symmDiff s t
  | sub => s \ t

/-- No rectangle is cut off an equal one or the inside of one. -/
def Careful (a b : Region) : Op → Prop
  | and => True
  | or => a.mRectCount = 1 ∧ a.mBoundRect.contains b.mBoundRect = true ∨ Subtractable false a b
  | xor => Subtractable false a b ∧ Subtractable false b a
  | sub => Subtractable false a b

theorem exact_run {o : Op} (ha : a.Valid) (hb : b.Valid) (hfa : a.Fits) (hfb : b.Fits)
    (h : o.Careful a b) : Exact (o.run a b) (o.points a.points b.points) := by
  cases o with
  | and => exact and_valid ha hb hfa hfb (by simp)
  | or => exact (or_iff ha hb hfa hfb (by simp)).mpr (.inr h)
  | xor => exact (xor_iff ha hb hfa hfb (by simp)).mpr (.inr h)
  | sub => exact (sub_iff ha hb hfa hfb (by simp)).mpr (.inr h)

theorem points_subset {o : Op} {s t : Set (ℤ × ℤ)} : o.points s t ⊆ s ∪ t := by
  cases o with
  | and => exact fun _ h => .inl h.1
  | or => exact subset_rfl
  | xor => exact symmDiff_le_sup
  | sub => exact fun _ h => .inl h.1

end Op

/-- Rectangles, regions that are moved, and regions put together of two others. -/
inductive Expr
  | rect (aRect : NsRect)
  | moveBy (x y : ℤ) (e : Expr)
  | op (o : Op) (e f : Expr)

namespace Expr

def eval : Expr → Option Region
  | rect aRect => some (copyRect aRect)
  | moveBy x y e => e.eval.map (Region.moveBy x y)
  | op o e f => e.eval.bind fun a => f.eval.bind fun b => o.run a b

def points : Expr → Set (ℤ × ℤ)
  | rect aRect => aRect.points
  | moveBy x y e => {p | (p.1 - x, p.2 - y) ∈ e.points}
  | op o e f => o.points e.points f.points

/-- The coordinates stay in range, no empty region is moved, and each operation is careful. -/
def Careful : Expr → Prop
  | rect aRect => aRect.Fits
  | moveBy x y e => e.Careful ∧
      ∀ a, e.eval = some a → a.mRectCount ≠ 0 ∧ (a.moveBy x y).Fits
  | op o e f => e.Careful ∧ f.Careful ∧
      ∀ a b, e.eval = some a → f.eval = some b → o.Careful a b

/-- Every careful expression gives a valid region of the points it stands for. -/
theorem eval_exact (e : Expr) (h : e.Careful) :
    ∃ a, e.eval = some a ∧ a.Valid ∧ a.Fits ∧ a.points = e.points := by
  induction e with
  | rect aRect =>
    obtain ⟨c, hc, hvalid, hpoints⟩ := @exact_copyRect aRect
    refine ⟨c, hc, hvalid, hvalid.fits_iff.mpr fun p hp => ?_, hpoints⟩
    rw [hpoints, mem_points] at hp
    have hfits : aRect.Fits := h
    simp only [NsRect.Fits, yMost] at hfits
    omega
  | moveBy x y e ih =>
    obtain ⟨he, hmove⟩ := h
    obtain ⟨a, ha, hvalid, -, hpoints⟩ := ih he
    obtain ⟨hc, hfits⟩ := hmove a ha
    obtain ⟨hvalid', hpoints'⟩ := hvalid.moveBy hc x y
    exact ⟨_, by rw [eval, ha]; rfl, hvalid', hfits, by rw [hpoints', hpoints]; rfl⟩
  | op o e f ihe ihf =>
    obtain ⟨he, hf, hcareful⟩ := h
    obtain ⟨a, ha, hva, hfa, hpa⟩ := ihe he
    obtain ⟨b, hb, hvb, hfb, hpb⟩ := ihf hf
    obtain ⟨c, hc, hvc, hpc⟩ := Op.exact_run hva hvb hfa hfb (hcareful a b ha hb)
    refine ⟨c, by rw [eval, ha, hb]; exact hc, hvc, hvc.fits_iff.mpr fun p hp => ?_, ?_⟩
    · rw [hpc] at hp
      exact (Op.points_subset hp).elim (hva.fits_iff.mp hfa p) (hvb.fits_iff.mp hfb p)
    · rw [hpc, hpa, hpb]
      rfl

/-- A bar that is moved to the right loses its left end. -/
theorem eval_exact_bar : ∃ a,
    (op .sub (moveBy 1 0 (rect ⟨0, 0, 4, 2⟩)) (rect ⟨0, 0, 2, 5⟩)).eval = some a ∧ a.Valid ∧
      a.Fits ∧
        a.points = (op .sub (moveBy 1 0 (rect ⟨0, 0, 4, 2⟩)) (rect ⟨0, 0, 2, 5⟩)).points := by
  refine eval_exact _ ⟨⟨by simp [Careful, NsRect.Fits, yMost, MIN_INT32, MAX_INT32], ?_⟩,
    by simp [Careful, NsRect.Fits, yMost, MIN_INT32, MAX_INT32], ?_⟩
  · rintro a ⟨⟩
    exact ⟨by decide, by
      simp [Region.moveBy, NsRect.moveBy, copyRect, isEmpty, Region.Fits, NsRect.Fits, yMost,
        MIN_INT32, MAX_INT32]⟩
  · rintro a b ⟨⟩ ⟨⟩
    exact .inr ⟨by decide, by simp⟩

end Expr

end Region

end Kompozer.Gfx

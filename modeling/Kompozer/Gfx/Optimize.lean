import Kompozer.Gfx.Insertion

/-! `Optimize` joins rectangles without changing the points of the region, and finds the
tight bounding rectangle of what is left. -/

namespace Kompozer.Gfx

open NsRect

/-- `l.foldl` with the smaller of two values. -/
theorem foldl_least {α β : Type} [LinearOrder β] (g : α → β) (l : List α) (m : β) :
    let v := l.foldl (fun m a => if g a < m then g a else m) m
    v ≤ m ∧ (∀ a ∈ l, v ≤ g a) ∧ (v = m ∨ ∃ a ∈ l, g a = v) := by
  induction l generalizing m with
  | nil => simp
  | cons a l ih =>
    dsimp only [List.foldl_cons]
    obtain ⟨h₁, h₂, h₃⟩ := ih (if g a < m then g a else m)
    have hm : (if g a < m then g a else m) ≤ m ∧ (if g a < m then g a else m) ≤ g a := by
      split_ifs with h
      · exact ⟨h.le, le_refl _⟩
      · exact ⟨le_refl _, not_lt.mp h⟩
    refine ⟨h₁.trans hm.1, ?_, ?_⟩
    · intro b hb
      rcases List.mem_cons.mp hb with rfl | hb
      · exact h₁.trans hm.2
      · exact h₂ b hb
    · rcases h₃ with h | ⟨b, hb, h⟩
      · rw [h]
        split_ifs with hlt
        · exact .inr ⟨a, by simp, rfl⟩
        · exact .inl rfl
      · exact .inr ⟨b, by simp [hb], h⟩

/-- With the larger one. -/
theorem foldl_greatest {α β : Type} [LinearOrder β] (g : α → β) (l : List α) (m : β) :
    let v := l.foldl (fun m a => if g a > m then g a else m) m
    m ≤ v ∧ (∀ a ∈ l, g a ≤ v) ∧ (v = m ∨ ∃ a ∈ l, g a = v) :=
  @foldl_least α βᵒᵈ _ g l m

theorem NsRect.contains_iff {r s : NsRect} : r.contains s = true ↔
    r.x ≤ s.x ∧ r.y ≤ s.y ∧ s.xMost ≤ r.xMost ∧ s.yMost ≤ r.yMost :=
  decide_eq_true_iff

theorem NsRect.contains_refl (r : NsRect) : r.contains r = true := by
  simp [contains_iff]

theorem NsRect.contains_trans {r s t : NsRect} (h : r.contains s = true)
    (h' : s.contains t = true) : r.contains t = true := by
  rw [contains_iff] at *
  omega

namespace Region

/-- Two rectangles side by side. -/
theorem points_of_joinsRight {r s : NsRect} (hr : r.Solid) (hs : s.Solid)
    (h : joinsRight r s = true) :
    points { r with width := r.width + s.width } = r.points ∪ s.points := by
  have h := of_decide_eq_true h
  obtain ⟨hr, -⟩ := hr
  obtain ⟨hs, -⟩ := hs
  simp only [xMost] at h
  ext p
  simp only [Set.mem_union, mem_points]
  omega

/-- One rectangle above the other. -/
theorem points_of_joinsBelow {r s : NsRect} (hr : r.Solid) (hs : s.Solid)
    (h : joinsBelow r s = true) :
    points { r with height := r.height + s.height } = r.points ∪ s.points := by
  have h := of_decide_eq_true h
  obtain ⟨-, hr⟩ := hr
  obtain ⟨-, hs⟩ := hs
  simp only [yMost] at h
  ext p
  simp only [Set.mem_union, mem_points]
  omega

/-- What the loops of `Optimize` do to the list from a rectangle on: they join it with
the next, to a rectangle at its corner with the points of both, or keep it. -/
inductive Joined : NsRect → List NsRect → List NsRect → Prop
  | single (p : NsRect) : p.Solid → Joined p [] [p]
  | join (p p' next : NsRect) (rest l : List NsRect) : p'.Solid → p'.x = p.x → p'.y = p.y →
      p'.points = p.points ∪ next.points → p'.contains p = true → p'.contains next = true →
      Joined p' rest l → Joined p (next :: rest) l
  | keep (p next : NsRect) (rest l : List NsRect) : p.Solid → Joined next rest l →
      Joined p (next :: rest) (p :: l)

theorem solid_widen {p next : NsRect} (hp : p.Solid) (hn : next.Solid) :
    Solid { p with width := p.width + next.width } :=
  ⟨add_pos hp.1 hn.1, hp.2⟩

theorem solid_heighten {p next : NsRect} (hp : p.Solid) (hn : next.Solid) :
    Solid { p with height := p.height + next.height } :=
  ⟨hp.1, add_pos hp.2 hn.2⟩

theorem Joined.widen {p next : NsRect} {rest l : List NsRect} (hp : p.Solid) (hn : next.Solid)
    (hj : joinsRight p next = true) (h : Joined { p with width := p.width + next.width } rest l) :
    Joined p (next :: rest) l := by
  have hj' := of_decide_eq_true hj
  have hp' := hp
  have hn' := hn
  simp only [Solid] at hp' hn'
  refine .join p _ next rest _ (solid_widen hp hn) rfl rfl (points_of_joinsRight hp hn hj) ?_ ?_ h
  all_goals
    simp only [contains_iff, xMost, yMost] at hj' ⊢
    omega

theorem Joined.heighten {p next : NsRect} {rest l : List NsRect} (hp : p.Solid) (hn : next.Solid)
    (hj : joinsBelow p next = true) (h : Joined { p with height := p.height + next.height } rest l) :
    Joined p (next :: rest) l := by
  have hj' := of_decide_eq_true hj
  have hp' := hp
  have hn' := hn
  simp only [Solid] at hp' hn'
  refine .join p _ next rest _ (solid_heighten hp hn) rfl rfl (points_of_joinsBelow hp hn hj) ?_ ?_ h
  all_goals
    simp only [contains_iff, xMost, yMost] at hj' ⊢
    omega

theorem combine_joined (below : Bool) (p : NsRect) (rest : List NsRect)
    (hs : ∀ r ∈ p :: rest, r.Solid) : Joined p rest (combine below p rest) := by
  induction rest generalizing below p with
  | nil => exact .single p (hs p (by simp))
  | cons next rest ih =>
    obtain ⟨hp, hn, hrest⟩ : p.Solid ∧ next.Solid ∧ ∀ r ∈ rest, r.Solid := by simpa using hs
    rw [combine]
    split_ifs with h₁ h₂
    · exact .widen hp hn (Bool.and_eq_true_iff.mp h₁).2
        (ih false _ (List.forall_mem_cons.mpr ⟨solid_widen hp hn, hrest⟩))
    · exact .heighten hp hn h₂ (ih true _ (List.forall_mem_cons.mpr ⟨solid_heighten hp hn, hrest⟩))
    · exact .keep p next rest _ hp (ih false next (List.forall_mem_cons.mpr ⟨hn, hrest⟩))

namespace Joined
variable {p : NsRect} {rest l : List NsRect}

theorem solid (h : Joined p rest l) : ∀ r ∈ l, r.Solid := by
  induction h with
  | single p hp => simpa using hp
  | join _ _ _ _ _ _ _ _ _ _ _ _ ih => exact ih
  | keep p next rest l hp _ ih => exact List.forall_mem_cons.mpr ⟨hp, ih⟩

theorem cover_eq (h : Joined p rest l) : cover points l = cover points (p :: rest) := by
  induction h with
  | single p hp => rfl
  | join p p' next rest l _ _ _ hpoints _ _ _ ih =>
    rw [ih, cover_cons, hpoints, cover_cons, cover_cons, Set.union_assoc]
  | keep p next rest l hp _ ih => rw [cover_cons, ih, ← cover_cons]

/-- What is left stands at corners that were there, the first one's first. -/
theorem corner (h : Joined p rest l) : ∃ q qs, l = q :: qs ∧ q.x = p.x ∧ q.y = p.y ∧
    ∀ s ∈ qs, ∃ t ∈ rest, t.x = s.x ∧ t.y = s.y := by
  induction h with
  | single p hp => exact ⟨p, [], rfl, rfl, rfl, by simp⟩
  | join p p' next rest l _ hx hy _ _ _ _ ih =>
    obtain ⟨q, qs, rfl, hqx, hqy, hqs⟩ := ih
    refine ⟨q, qs, rfl, hqx.trans hx, hqy.trans hy, fun s hs => ?_⟩
    obtain ⟨t, ht, h⟩ := hqs s hs
    exact ⟨t, by simp [ht], h⟩
  | keep p next rest l hp _ ih =>
    obtain ⟨q, qs, rfl, hqx, hqy, hqs⟩ := ih
    refine ⟨p, q :: qs, rfl, rfl, rfl, fun s hs => ?_⟩
    rcases List.mem_cons.mp hs with rfl | hs
    · exact ⟨next, by simp, hqx.symm, hqy.symm⟩
    · obtain ⟨t, ht, h⟩ := hqs s hs
      exact ⟨t, by simp [ht], h⟩

theorem sorted (h : Joined p rest l) (hs : Sorted (p :: rest)) : Sorted l := by
  induction h with
  | single p hp => exact hs
  | join p p' next rest l _ hx hy _ _ _ _ ih =>
    have ⟨h₁, h₂⟩ := List.pairwise_cons.mp hs
    refine ih (List.pairwise_cons.mpr ⟨fun t ht => ?_, (List.pairwise_cons.mp h₂).2⟩)
    have := h₁ t (by simp [ht])
    rwa [Before, hx, hy]
  | keep p next rest l hp h ih =>
    have ⟨h₁, h₂⟩ := List.pairwise_cons.mp hs
    refine List.pairwise_cons.mpr ⟨fun s hs => ?_, ih h₂⟩
    obtain ⟨q, qs, rfl, hqx, hqy, hqs⟩ := h.corner
    rcases List.mem_cons.mp hs with rfl | hs
    · rw [Before, hqx, hqy]
      exact h₁ next (by simp)
    · obtain ⟨t, ht, hx, hy⟩ := hqs s hs
      rw [Before, ← hx, ← hy]
      exact h₁ t (by simp [ht])

theorem apart (h : Joined p rest l) (ha : Apart points (p :: rest)) : Apart points l := by
  induction h with
  | single p hp => exact ha
  | join p p' next rest l _ _ _ hpoints _ _ _ ih =>
    have ⟨h₁, h₂⟩ := List.pairwise_cons.mp ha
    have ⟨h₃, h₄⟩ := List.pairwise_cons.mp h₂
    have hp' : ∀ t ∈ rest, Disjoint p'.points t.points := by
      intro t ht
      rw [hpoints, Set.disjoint_union_left]
      exact ⟨h₁ t (by simp [ht]), h₃ t ht⟩
    exact ih (List.pairwise_cons.mpr ⟨hp', h₄⟩)
  | keep p next rest l hp h ih =>
    have ⟨_, h₂⟩ := List.pairwise_cons.mp ha
    have hdisj : Disjoint p.points (cover points l) := by
      rw [h.cover_eq]
      exact ha.disjoint_cons
    have hp' : ∀ s ∈ l, Disjoint p.points s.points := fun s hs =>
      hdisj.mono_right (subset_cover hs)
    exact List.pairwise_cons.mpr ⟨hp', ih h₂⟩

theorem length_le (h : Joined p rest l) : l.length ≤ (p :: rest).length := by
  induction h with
  | single p hp => exact Nat.le_refl _
  | join _ _ _ _ _ _ _ _ _ _ _ _ ih => exact Nat.le_succ_of_le ih
  | keep _ _ _ _ _ _ ih => exact Nat.succ_le_succ ih

/-- Every rectangle lies in one of those that are left. -/
theorem contained (h : Joined p rest l) : ∀ t ∈ p :: rest, ∃ s ∈ l, s.contains t = true := by
  induction h with
  | single p hp => simp [contains_refl]
  | join p p' next rest l _ _ _ _ hp hnext _ ih =>
    obtain ⟨s, hs, hsp⟩ := ih p' (by simp)
    intro t ht
    simp only [List.mem_cons] at ht
    rcases ht with rfl | rfl | ht
    · exact ⟨s, hs, contains_trans hsp hp⟩
    · exact ⟨s, hs, contains_trans hsp hnext⟩
    · exact ih t (by simp [ht])
  | keep p next rest l hp _ ih =>
    intro t ht
    rcases List.mem_cons.mp ht with rfl | ht
    · exact ⟨t, by simp, contains_refl t⟩
    · obtain ⟨s, hs, hst⟩ := ih t ht
      exact ⟨s, by simp [hs], hst⟩

end Joined

/-- The tight bounding rectangle: it contains the rectangles, and each of its sides is
one of theirs. -/
def Tight (bound : NsRect) (l : List NsRect) : Prop :=
  if l = [] then bound = ⟨0, 0, 0, 0⟩
  else (∀ r ∈ l, bound.contains r = true) ∧ (∃ r ∈ l, r.x = bound.x) ∧ (∃ r ∈ l, r.y = bound.y) ∧
    (∃ r ∈ l, r.xMost = bound.xMost) ∧ ∃ r ∈ l, r.yMost = bound.yMost

/-- A largest value that is that of an original rectangle, or of one that is left, is
that of one that is left. -/
theorem Joined.reached {p : NsRect} {rest l : List NsRect} (h : Joined p rest l)
    (g : NsRect → ℤ) (hg : ∀ r s : NsRect, r.contains s = true → g s ≤ g r) {last : NsRect}
    (hlast : last ∈ p :: rest) {v : ℤ} (hv : ∀ r ∈ l, g r ≤ v)
    (hv' : v = g last ∨ ∃ r ∈ l, g r = v) : ∃ r ∈ l, g r = v := by
  rcases hv' with rfl | hr
  · obtain ⟨s, hs, hst⟩ := h.contained last hlast
    exact ⟨s, hs, le_antisymm (hv s hs) (hg s last hst)⟩
  · exact hr

/-- The bounding rectangle `Optimize` computes. -/
theorem Joined.tight {p : NsRect} {rest l : List NsRect} (h : Joined p rest l)
    (hs : Sorted (p :: rest)) {last : NsRect} (hlast : last ∈ p :: rest) :
    let x := l.foldl (fun x r => if r.x < x then r.x else x) p.x
    let xmost := l.foldl (fun m r => if r.xMost > m then r.xMost else m) last.xMost
    let ymost := l.foldl (fun m r => if r.yMost > m then r.yMost else m) last.yMost
    Tight ⟨x, p.y, xmost - x, ymost - p.y⟩ l := by
  intro x xmost ymost
  obtain ⟨q, qs, hl, hqx, hqy, hqs⟩ := h.corner
  have hq : q ∈ l := by simp [hl]
  obtain ⟨-, hx, hx'⟩ := foldl_least NsRect.x l p.x
  obtain ⟨-, hxm, hxm'⟩ := foldl_greatest NsRect.xMost l last.xMost
  obtain ⟨-, hym, hym'⟩ := foldl_greatest NsRect.yMost l last.yMost
  have hy : ∀ r ∈ l, p.y ≤ r.y := by
    intro r hr
    rw [hl] at hr
    rcases List.mem_cons.mp hr with rfl | hr
    · exact hqy.ge
    · obtain ⟨t, ht, -, hty⟩ := hqs r hr
      have := (List.pairwise_cons.mp hs).1 t ht
      simp only [Before] at this
      omega
  have hxmost : (⟨x, p.y, xmost - x, ymost - p.y⟩ : NsRect).xMost = xmost :=
    add_sub_cancel x xmost
  have hymost : (⟨x, p.y, xmost - x, ymost - p.y⟩ : NsRect).yMost = ymost :=
    add_sub_cancel p.y ymost
  rw [Tight, if_neg (List.ne_nil_of_mem hq)]
  refine ⟨fun r hr => contains_iff.mpr ⟨hx r hr, hy r hr, ?_, ?_⟩, ?_, ⟨q, hq, hqy⟩, ?_, ?_⟩
  · rw [hxmost]
    exact hxm r hr
  · rw [hymost]
    exact hym r hr
  · rcases hx' with hx' | hx'
    · exact ⟨q, hq, hqx.trans hx'.symm⟩
    · exact hx'
  · rw [hxmost]
    exact h.reached xMost (fun r s h => (contains_iff.mp h).2.2.1) hlast hxm hxm'
  · rw [hymost]
    exact h.reached yMost (fun r s h => (contains_iff.mp h).2.2.2) hlast hym hym'

/-- What `nsRegion.h` says of a region. -/
structure Valid (a : Region) : Prop where
  solid : ∀ r ∈ a.rects, r.Solid
  apart : Apart NsRect.points a.rects
  sorted : Sorted a.rects
  count : a.mRectCount = a.rects.length
  tight : Tight a.mBoundRect a.rects

/-- The points of a region. -/
def points (a : Region) : Set (ℤ × ℤ) := cover NsRect.points a.rects

end Region

/-- What holds of the destination between two calls of `InsertInPlace`. -/
structure Building.Good (b : Building) : Prop where
  solid : ∀ r ∈ b.rects, r.Solid
  apart : Apart points b.rects
  sorted : Sorted b.rects
  count : b.mRectCount = b.rects.length

namespace Region

theorem setEmpty_valid : setEmpty.Valid :=
  ⟨by simp [setEmpty], List.Pairwise.nil, List.Pairwise.nil, rfl, rfl⟩

@[simp] theorem setEmpty_points : setEmpty.points = ∅ := cover_nil

/-- `Optimize` makes a valid region of the same points. -/
theorem optimize_valid {b : Building} (hb : b.Good) :
    (optimize b).Valid ∧ (optimize b).points = cover NsRect.points b.rects := by
  rw [optimize]
  split_ifs with hc
  · have hnil : b.rects = [] := List.eq_nil_of_length_eq_zero (hb.count.symm.trans hc)
    rw [hnil]
    exact ⟨setEmpty_valid, rfl⟩
  · split
    · rename_i hnil
      exact absurd (hb.count.trans (by rw [hnil]; rfl)) hc
    · rename_i first rest hrects
      have hj := combine_joined false first rest (hrects ▸ hb.solid)
      refine ⟨⟨hj.solid, hj.apart (hrects ▸ hb.apart), hj.sorted (hrects ▸ hb.sorted), ?_, ?_⟩, ?_⟩
      · have := hj.length_le
        dsimp only
        rw [hb.count, hrects]
        omega
      · exact hj.tight (hrects ▸ hb.sorted) (List.getLast_mem _)
      · rw [hrects]
        exact hj.cover_eq

end Region

end Kompozer.Gfx

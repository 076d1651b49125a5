import Kompozer.Gfx.Optimize

/-! `And` computes the intersection. A rectangle of the second region leaves the check
list when it lies above the current rectangle of the first, or inside it; the later
rectangles of the first region share no point with what was left out. -/

namespace Kompozer.Gfx

open NsRect

/-- The coordinates of a rectangle are small enough for the `y` of the list head to be
beyond them. -/
def NsRect.Fits (r : NsRect) : Prop := MIN_INT32 < r.y ∧ r.yMost ≤ MAX_INT32

def Region.Fits (a : Region) : Prop := ∀ r ∈ a.rects, r.Fits

namespace Building
variable {b : Building} {r s : NsRect}

theorem empty_good : empty.Good :=
  ⟨by simp [empty, rects], List.Pairwise.nil, List.Pairwise.nil, rfl⟩

/-- `InsertInPlace` adds the points of a rectangle. -/
theorem insertInPlace_good (hb : b.Good) (hr : r.Solid) (hfit : r.Fits)
    (hd : Disjoint r.points (cover points b.rects)) :
    ∃ b', b.insertInPlace r = some b' ∧ b'.Good ∧
      cover points b'.rects = cover points b.rects ∪ r.points := by
  obtain ⟨hmin, hmax⟩ := hfit
  have hlt : r.y < MAX_INT32 := by
    have := hr.2
    simp only [yMost] at hmax
    omega
  have hdisj : ∀ s ∈ b.rects, Disjoint r.points s.points := fun s hs =>
    hd.mono_right (subset_cover hs)
  by_cases hc : b.mRectCount = 0
  · have hnil : b.rects = [] := List.eq_nil_of_length_eq_zero (hb.count.symm.trans hc)
    refine ⟨⟨some ⟨[], r, []⟩, 1⟩, if_pos hc, ⟨?_, ?_, ?_, rfl⟩, ?_⟩
    · simpa [rects, Chain.rects] using hr
    · exact List.pairwise_singleton _ _
    · exact List.pairwise_singleton _ _
    · rw [hnil]
      simp [rects, Chain.rects]
  · cases hchain : b.chain with
    | none => exact absurd (by rw [hb.count, rects, hchain]; rfl) hc
    | some c =>
      have hrects : b.rects = c.rects := by
        rw [rects, hchain]
        rfl
      rw [hrects] at hdisj
      obtain ⟨c', hc', hsorted, hperm⟩ := Chain.insertInPlace_spec (hrects ▸ hb.sorted)
        ⟨hr, hrects ▸ hb.solid, hdisj, hmin, hlt⟩
      refine ⟨⟨some c', b.mRectCount + 1⟩, ?_, ⟨?_, ?_, hsorted, ?_⟩, ?_⟩
      · rw [insertInPlace, if_neg hc, hchain, Option.bind_eq_bind, Option.bind_some, hc']
        rfl
      · intro s hs
        rcases List.mem_cons.mp (hperm.mem_iff.mp hs) with rfl | hs
        · exact hr
        · exact hb.solid s (hrects ▸ hs)
      · exact (hperm.pairwise_iff fun h => h.symm).mpr
          (List.pairwise_cons.mpr ⟨hdisj, hrects ▸ hb.apart⟩)
      · show b.mRectCount + 1 = c'.rects.length
        rw [hperm.length_eq, List.length_cons, hb.count, hrects]
      · show cover points c'.rects = _
        rw [cover_perm hperm, cover_cons, hrects, Set.union_comm]

theorem insertIntersection_good (hb : b.Good) (hfit : r.Fits)
    (hd : Disjoint (r.points ∩ s.points) (cover points b.rects)) :
    ∃ b', b.insertIntersection r s = some b' ∧ b'.Good ∧
      cover points b'.rects = cover points b.rects ∪ (r.points ∩ s.points) := by
  obtain ⟨hsome, hnone⟩ := intersectRect_spec ⟨0, 0, 0, 0⟩ r s
  rw [insertIntersection]
  split_ifs with h
  · obtain ⟨hsolid, hpoints, hy, hym⟩ := hsome h
    rw [← hpoints] at hd ⊢
    refine insertInPlace_good hb hsolid ⟨?_, ?_⟩ hd
    · rw [hy]
      exact hfit.1.trans_le (le_max_left _ _)
    · rw [hym]
      exact (min_le_left _ _).trans hfit.2
  · rw [(hnone (by simpa using h)).2, Set.union_empty]
    exact ⟨b, rfl, hb, rfl⟩

end Building

namespace Region
variable {r : NsRect} {l : List NsRect} {b : Building}

/-- No point of the rectangles from a row on lies above the row. -/
theorem below_of_sorted (hs : Sorted (r :: l)) : ∀ p ∈ cover NsRect.points (r :: l), r.y ≤ p.2 := by
  rintro p ⟨s, hs', hp⟩
  have hy : r.y ≤ s.y := by
    rcases List.mem_cons.mp hs' with rfl | hs'
    · exact le_refl _
    · have := (List.pairwise_cons.mp hs).1 s hs'
      simp only [Before] at this
      omega
  exact hy.trans hp.2.2.1

theorem inter_eq_empty_of_row (hs : Sorted (r :: l)) {q : NsRect} (h : ¬ r.y < q.yMost) :
    q.points ∩ cover NsRect.points (r :: l) = ∅ := by
  ext p
  simp only [Set.mem_inter_iff, Set.mem_empty_iff_false, iff_false]
  rintro ⟨hq, hp⟩
  have := below_of_sorted hs p hp
  have := hq.2.2.2
  omega

/-- The inner loop: the points in common with `rect1` are added, and what leaves the
check list is above `rect1` or in it. -/
theorem andInner_spec {rect1 : NsRect} (hfit : rect1.Fits) {list : List NsRect}
    (hsolid : ∀ r ∈ list, r.Solid) (hapart : Apart NsRect.points list) (hsorted : Sorted list)
    (hb : b.Good)
    (hd : Disjoint (rect1.points ∩ cover NsRect.points list) (cover NsRect.points b.rects)) :
    ∃ list' b', andInner rect1 list b = some (list', b') ∧ list'.Sublist list ∧
      (∀ p ∈ cover NsRect.points list, p ∈ cover NsRect.points list' ∨ p.2 < rect1.y ∨
        p ∈ rect1.points) ∧
      b'.Good ∧ cover NsRect.points b'.rects =
        cover NsRect.points b.rects ∪ (rect1.points ∩ cover NsRect.points list) := by
  induction list generalizing b with
  | nil => exact ⟨[], b, if_neg hfit.2.not_gt, .refl _, by simp, hb, by simp⟩
  | cons rect2 rest ih =>
    have hsolid' : ∀ r ∈ rest, r.Solid := fun r hr => hsolid r (by simp [hr])
    have hapart' := (List.pairwise_cons.mp hapart).2
    have hsorted' := (List.pairwise_cons.mp hsorted).2
    rw [cover_cons, Set.inter_union_distrib_left, Set.disjoint_union_left] at hd
    rw [andInner]
    split_ifs with hrow habove hin
    · -- above `rect1`
      obtain ⟨list', b', h, hsub, hlost, hgood, hcover⟩ := ih hsolid' hapart' hsorted' hb hd.2
      have hout : ∀ p ∈ rect2.points, p.2 < rect1.y := fun p hp => by
        have := hp.2.2.2
        omega
      refine ⟨list', b', h, hsub.cons _, ?_, hgood, ?_⟩
      · rintro p hp
        rw [cover_cons] at hp
        rcases hp with hp | hp
        · exact .inr (.inl (hout p hp))
        · exact hlost p hp
      · have hempty : rect1.points ∩ rect2.points = ∅ := by
          ext p
          simp only [Set.mem_inter_iff, Set.mem_empty_iff_false, iff_false]
          rintro ⟨h₁, h₂⟩
          exact absurd (hout p h₂) h₁.2.2.1.not_gt
        rw [hcover, cover_cons, Set.inter_union_distrib_left, hempty, Set.empty_union]
    · -- inside `rect1`
      have hsub2 : rect2.points ⊆ rect1.points := points_subset_of_contains hin
      have hinter : rect1.points ∩ rect2.points = rect2.points := Set.inter_eq_right.mpr hsub2
      have hin' := NsRect.contains_iff.mp hin
      obtain ⟨b₁, h₁, hgood₁, hcover₁⟩ := Building.insertInPlace_good hb (hsolid rect2 (by simp))
        ⟨hfit.1.trans_le hin'.2.1, hin'.2.2.2.trans hfit.2⟩ (hinter ▸ hd.1)
      have hd₁ : Disjoint (rect1.points ∩ cover NsRect.points rest)
          (cover NsRect.points b₁.rects) := by
        rw [hcover₁, Set.disjoint_union_right]
        exact ⟨hd.2, (hapart.disjoint_cons.mono_right Set.inter_subset_right).symm⟩
      obtain ⟨list', b', h, hsub, hlost, hgood, hcover⟩ := ih hsolid' hapart' hsorted' hgood₁ hd₁
      refine ⟨list', b', ?_, hsub.cons _, ?_, hgood, ?_⟩
      · rw [h₁, Option.bind_eq_bind, Option.bind_some, h]
      · rintro p hp
        rw [cover_cons] at hp
        rcases hp with hp | hp
        · exact .inr (.inr (hsub2 hp))
        · exact hlost p hp
      · rw [hcover, hcover₁, cover_cons, Set.inter_union_distrib_left, hinter, Set.union_assoc]
    · -- it stays in the check list
      obtain ⟨b₁, h₁, hgood₁, hcover₁⟩ := Building.insertIntersection_good hb hfit hd.1
      have hd₁ : Disjoint (rect1.points ∩ cover NsRect.points rest)
          (cover NsRect.points b₁.rects) := by
        rw [hcover₁, Set.disjoint_union_right]
        exact ⟨hd.2, (hapart.disjoint_cons.mono Set.inter_subset_right
          Set.inter_subset_right).symm⟩
      obtain ⟨list', b', h, hsub, hlost, hgood, hcover⟩ := ih hsolid' hapart' hsorted' hgood₁ hd₁
      refine ⟨rect2 :: list', b', ?_, hsub.cons_cons _, ?_, hgood, ?_⟩
      · rw [h₁, Option.bind_eq_bind, Option.bind_some, h]
        rfl
      · rintro p hp
        rw [cover_cons] at hp ⊢
        rcases hp with hp | hp
        · exact .inl (.inl hp)
        · exact (hlost p hp).imp_left .inr
      · rw [hcover, hcover₁, cover_cons, Set.inter_union_distrib_left, Set.union_assoc]
    · -- the rest is below `rect1`
      refine ⟨rect2 :: rest, b, rfl, .refl _, fun p hp => .inl hp, hb, ?_⟩
      rw [inter_eq_empty_of_row hsorted hrow, Set.union_empty]

/-- The outer loop adds the points the two regions have in common. -/
theorem andOuter_spec {bound2 : NsRect} (hbound : bound2.yMost ≤ MAX_INT32)
    {rects1 list : List NsRect} (hfit : ∀ r ∈ rects1, r.Fits) (hapart1 : Apart NsRect.points rects1)
    (hsorted1 : Sorted rects1) (hsolid : ∀ r ∈ list, r.Solid) (hapart : Apart NsRect.points list)
    (hsorted : Sorted list) (hin : cover NsRect.points list ⊆ bound2.points) (hb : b.Good)
    (hd : Disjoint (cover NsRect.points rects1) (cover NsRect.points b.rects)) :
    ∃ b', andOuter bound2 rects1 list b = some b' ∧ b'.Good ∧ cover NsRect.points b'.rects =
      cover NsRect.points b.rects ∪ (cover NsRect.points rects1 ∩ cover NsRect.points list) := by
  induction rects1 generalizing list b with
  | nil => exact ⟨b, if_neg hbound.not_gt, hb, by simp⟩
  | cons rect1 rest ih =>
    have hfit' : ∀ r ∈ rest, r.Fits := fun r hr => hfit r (by simp [hr])
    have hapart1' := (List.pairwise_cons.mp hapart1).2
    have hsorted1' := (List.pairwise_cons.mp hsorted1).2
    rw [cover_cons, Set.disjoint_union_left] at hd
    rw [andOuter]
    split_ifs with hrow hmeet
    · obtain ⟨list', b₁, h₁, hsub, hlost, hgood₁, hcover₁⟩ := andInner_spec (hfit rect1 (by simp))
        hsolid hapart hsorted hb (hd.1.mono_left Set.inter_subset_left)
      have hd₁ : Disjoint (cover NsRect.points rest) (cover NsRect.points b₁.rects) := by
        rw [hcover₁, Set.disjoint_union_right]
        exact ⟨hd.2, (hapart1.disjoint_cons.mono_left Set.inter_subset_left).symm⟩
      have hsame : cover NsRect.points rest ∩ cover NsRect.points list' =
          cover NsRect.points rest ∩ cover NsRect.points list := by
        refine Set.Subset.antisymm ?_ ?_
        · exact Set.inter_subset_inter_right _ (cover_mono fun _ hr => hsub.subset hr)
        · rintro p ⟨hp, hl⟩
          refine ⟨hp, ?_⟩
          have hy := below_of_sorted hsorted1 p (by rw [cover_cons]; exact .inr hp)
          rcases hlost p hl with h | h | h
          · exact h
          · exact absurd h hy.not_gt
          · exact absurd hp (Set.disjoint_left.mp hapart1.disjoint_cons h)
      obtain ⟨b', h, hgood, hcover⟩ := ih hfit' hapart1' hsorted1' (fun r hr => hsolid r
        (hsub.subset hr)) (hapart.sublist hsub) (hsorted.sublist hsub)
        ((cover_mono fun _ hr => hsub.subset hr).trans hin) hgood₁ hd₁
      refine ⟨b', ?_, hgood, ?_⟩
      · rw [h₁, Option.bind_eq_bind, Option.bind_some]
        exact h
      · rw [hcover, hcover₁, hsame, cover_cons, Set.union_inter_distrib_right, Set.union_assoc]
    · have hempty : rect1.points ∩ cover NsRect.points list = ∅ :=
        Set.disjoint_iff_inter_eq_empty.mp
          ((disjoint_of_intersects (by simpa using hmeet)).mono_right hin)
      obtain ⟨b', h, hgood, hcover⟩ := ih hfit' hapart1' hsorted1' hsolid hapart hsorted hin hb hd.2
      refine ⟨b', h, hgood, ?_⟩
      rw [hcover, cover_cons, Set.union_inter_distrib_right, hempty, Set.empty_union]
    · refine ⟨b, rfl, hb, ?_⟩
      have hempty := inter_eq_empty_of_row hsorted1 hrow
      have : cover NsRect.points (rect1 :: rest) ∩ cover NsRect.points list = ∅ := by
        rw [Set.inter_comm]
        exact Set.subset_empty_iff.mp ((Set.inter_subset_inter_left _ hin).trans hempty.subset)
      rw [this, Set.union_empty]

/-- The loop of `And` with a rectangle. -/
theorem andRectLoop_spec {aRect : NsRect} (hrect : aRect.yMost ≤ MAX_INT32) {rects : List NsRect}
    (hfit : ∀ r ∈ rects, r.Fits) (hapart : Apart NsRect.points rects) (hsorted : Sorted rects)
    (hb : b.Good)
    (hd : Disjoint (cover NsRect.points rects) (cover NsRect.points b.rects)) :
    ∃ b', andRectLoop aRect rects b = some b' ∧ b'.Good ∧ cover NsRect.points b'.rects =
      cover NsRect.points b.rects ∪ (cover NsRect.points rects ∩ aRect.points) := by
  induction rects generalizing b with
  | nil => exact ⟨b, if_neg hrect.not_gt, hb, by simp⟩
  | cons rect rest ih =>
    rw [cover_cons, Set.disjoint_union_left] at hd
    rw [andRectLoop]
    split_ifs with hrow
    · obtain ⟨b₁, h₁, hgood₁, hcover₁⟩ := Building.insertIntersection_good hb (hfit rect (by simp))
        (hd.1.mono_left (Set.inter_subset_left (t := aRect.points)))
      have hd₁ : Disjoint (cover NsRect.points rest) (cover NsRect.points b₁.rects) := by
        rw [hcover₁, Set.disjoint_union_right]
        exact ⟨hd.2, (hapart.disjoint_cons.mono_left Set.inter_subset_left).symm⟩
      obtain ⟨b', h, hgood, hcover⟩ := ih (fun r hr => hfit r (by simp [hr]))
        (List.pairwise_cons.mp hapart).2 (List.pairwise_cons.mp hsorted).2 hgood₁ hd₁
      refine ⟨b', ?_, hgood, ?_⟩
      · rw [h₁, Option.bind_eq_bind, Option.bind_some, h]
      · rw [hcover, hcover₁, cover_cons, Set.union_inter_distrib_right, Set.union_assoc]
    · refine ⟨b, rfl, hb, ?_⟩
      rw [Set.inter_comm, inter_eq_empty_of_row hsorted hrow, Set.union_empty]

/-! ### The short cuts -/

section Valid
variable {a b : Region}

theorem copyRect_valid {r : NsRect} (h : r.Solid) :
    (copyRect r).Valid ∧ (copyRect r).points = r.points := by
  rw [copyRect, if_neg (by simp [solid_iff.mp h])]
  refine ⟨⟨by simpa using h, List.pairwise_singleton _ _, List.pairwise_singleton _ _, rfl, ?_⟩, ?_⟩
  · simp [Tight, contains_refl]
  · simp [points]

/-- Copying the result of `IntersectRect`, whatever it says. -/
theorem copyRect_intersectRect (r s : NsRect) :
    (copyRect (intersectRect ⟨0, 0, 0, 0⟩ r s).1).Valid ∧
      (copyRect (intersectRect ⟨0, 0, 0, 0⟩ r s).1).points = r.points ∩ s.points := by
  obtain ⟨hsome, hnone⟩ := intersectRect_spec ⟨0, 0, 0, 0⟩ r s
  cases h : (intersectRect ⟨0, 0, 0, 0⟩ r s).2 with
  | true =>
    obtain ⟨hsolid, hpoints, -⟩ := hsome h
    rw [← hpoints]
    exact copyRect_valid hsolid
  | false =>
    obtain ⟨hempty, hinter⟩ := hnone h
    rw [copyRect, if_pos hempty, hinter]
    exact ⟨setEmpty_valid, setEmpty_points⟩

namespace Valid

theorem rects_eq_nil (ha : a.Valid) (hc : a.mRectCount = 0) : a.rects = [] :=
  List.eq_nil_of_length_eq_zero (ha.count.symm.trans hc)

theorem points_eq_empty (ha : a.Valid) (hc : a.mRectCount = 0) : a.points = ∅ := by
  rw [points, ha.rects_eq_nil hc, cover_nil]

theorem copy (ha : a.Valid) : (copy a).Valid ∧ (Region.copy a).points = a.points := by
  rw [Region.copy]
  split_ifs with hc
  · exact ⟨setEmpty_valid, by rw [setEmpty_points, ha.points_eq_empty hc]⟩
  · exact ⟨ha, rfl⟩

theorem points_subset (ha : a.Valid) : a.points ⊆ a.mBoundRect.points := by
  refine cover_subset fun r hr => ?_
  have ht := ha.tight
  rw [Tight, if_neg (List.ne_nil_of_mem hr)] at ht
  exact points_subset_of_contains (ht.1 r hr)

/-- A region of one rectangle is its bounding rectangle. -/
theorem points_of_single (ha : a.Valid) (hc : a.mRectCount = 1) :
    a.points = a.mBoundRect.points := by
  obtain ⟨r, hr⟩ := List.length_eq_one_iff.mp (ha.count.symm.trans hc)
  have ht := ha.tight
  rw [Tight, hr, if_neg (by simp)] at ht
  obtain ⟨-, hx, hy, hxm, hym⟩ := ht
  simp only [List.mem_singleton, exists_eq_left] at hx hy hxm hym
  rw [points, hr, cover_cons, cover_nil, Set.union_empty]
  ext p
  simp only [NsRect.points, Set.mem_ofPred_eq, hx, hy, hxm, hym]

theorem yMost_le (ha : a.Valid) (hf : a.Fits) (hc : a.mRectCount ≠ 0) :
    a.mBoundRect.yMost ≤ MAX_INT32 := by
  have ht := ha.tight
  rw [Tight, if_neg fun h => hc (by rw [ha.count, h]; rfl)] at ht
  obtain ⟨r, hr, h⟩ := ht.2.2.2.2
  rw [← h]
  exact (hf r hr).2

end Valid

/-- The loops of `And`, whichever of the two regions is the outer one. -/
theorem andLoops_valid (ha : a.Valid) (hb : b.Valid) (hfa : a.Fits) (hfb : b.Fits)
    (hcb : b.mRectCount ≠ 0) :
    ∃ r, (andOuter b.mBoundRect a.rects b.rects .empty).map optimize = some r ∧ r.Valid ∧
      r.points = a.points ∩ b.points := by
  obtain ⟨b', h, hgood, hcover⟩ := andOuter_spec (hb.yMost_le hfb hcb) hfa ha.apart ha.sorted
    hb.solid hb.apart hb.sorted hb.points_subset Building.empty_good
    (by simp [Building.empty, Building.rects])
  have ⟨hvalid, hpoints⟩ := optimize_valid hgood
  refine ⟨optimize b', by rw [h]; rfl, hvalid, ?_⟩
  rw [hpoints, hcover]
  simp [Building.empty, Building.rects, points]

/-- `And` of two regions. -/
theorem and_valid {same : Bool} (ha : a.Valid) (hb : b.Valid) (hfa : a.Fits) (hfb : b.Fits)
    (hsame : same = true → a = b) :
    ∃ r, Region.and same a b = some r ∧ r.Valid ∧ r.points = a.points ∩ b.points := by
  rw [Region.and]
  by_cases h : same = true
  · rw [if_pos h, ← hsame h, Set.inter_self]
    exact ⟨Region.copy a, rfl, ha.copy⟩
  rw [if_neg h]
  by_cases hempty : a.mRectCount = 0 ∨ b.mRectCount = 0
  · rw [if_pos hempty]
    refine ⟨setEmpty, rfl, setEmpty_valid, ?_⟩
    rw [setEmpty_points]
    rcases hempty with h | h
    · rw [ha.points_eq_empty h, Set.empty_inter]
    · rw [hb.points_eq_empty h, Set.inter_empty]
  · rw [if_neg hempty]
    obtain ⟨hca, hcb⟩ := not_or.mp hempty
    obtain ⟨first1, rest1, ea⟩ := List.exists_cons_of_length_pos
      (Nat.pos_of_ne_zero (ha.count ▸ hca))
    obtain ⟨first2, rest2, eb⟩ := List.exists_cons_of_length_pos
      (Nat.pos_of_ne_zero (hb.count ▸ hcb))
    have hloops := andLoops_valid ha hb hfa hfb hcb
    have hloops' := andLoops_valid hb ha hfb hfa hca
    rw [ea, eb] at hloops hloops' ⊢
    dsimp only
    split_ifs with hone hout h₁ h₂ hswap
    · have hone1 : rest1 = [] := by
        have := ha.count.symm.trans hone.1
        rw [ea] at this
        simpa using this
      have hone2 : rest2 = [] := by
        have := hb.count.symm.trans hone.2
        rw [eb] at this
        simpa using this
      have hpa : a.points = first1.points := by simp [points, ea, hone1]
      have hpb : b.points = first2.points := by simp [points, eb, hone2]
      rw [hpa, hpb]
      exact ⟨_, rfl, copyRect_intersectRect first1 first2⟩
    · have hdisj := disjoint_of_intersects (by simpa using hout)
      refine ⟨setEmpty, rfl, setEmpty_valid, ?_⟩
      rw [setEmpty_points, Set.disjoint_iff_inter_eq_empty.mp
        (hdisj.mono ha.points_subset hb.points_subset)]
    · have hsub : b.points ⊆ a.points := by
        rw [ha.points_of_single h₁.1]
        exact hb.points_subset.trans (points_subset_of_contains h₁.2)
      rw [Set.inter_eq_right.mpr hsub]
      exact ⟨copy b, rfl, hb.copy⟩
    · have hsub : a.points ⊆ b.points := by
        rw [hb.points_of_single h₂.1]
        exact ha.points_subset.trans (points_subset_of_contains h₂.2)
      rw [Set.inter_eq_left.mpr hsub]
      exact ⟨copy a, rfl, ha.copy⟩
    · rw [Set.inter_comm]
      simpa only [ea, eb] using hloops'
    · simpa only [ea, eb] using hloops

/-- `And` of a region and a rectangle. -/
theorem andRect_valid {aRect : NsRect} (ha : a.Valid) (hfa : a.Fits) (hfit : aRect.Fits) :
    ∃ r, andRect a aRect = some r ∧ r.Valid ∧ r.points = a.points ∩ aRect.points := by
  rw [andRect]
  by_cases hempty : a.mRectCount = 0 ∨ aRect.isEmpty = true
  · rw [if_pos hempty]
    refine ⟨setEmpty, rfl, setEmpty_valid, ?_⟩
    rw [setEmpty_points]
    rcases hempty with h | h
    · rw [ha.points_eq_empty h, Set.empty_inter]
    · rw [points_of_isEmpty h, Set.inter_empty]
  · rw [if_neg hempty]
    obtain ⟨hca, -⟩ := not_or.mp hempty
    obtain ⟨first, rest, ea⟩ := List.exists_cons_of_length_pos
      (Nat.pos_of_ne_zero (ha.count ▸ hca))
    rw [ea]
    dsimp only
    split_ifs with hone hout hin
    · have hone' : rest = [] := by
        have := ha.count.symm.trans hone
        rw [ea] at this
        simpa using this
      have hpa : a.points = first.points := by simp [points, ea, hone']
      rw [hpa]
      exact ⟨_, rfl, copyRect_intersectRect first aRect⟩
    · have hdisj := disjoint_of_intersects (by simpa using hout)
      refine ⟨setEmpty, rfl, setEmpty_valid, ?_⟩
      rw [setEmpty_points, Set.inter_comm, Set.disjoint_iff_inter_eq_empty.mp
        (hdisj.mono_right ha.points_subset)]
    · rw [Set.inter_eq_left.mpr (ha.points_subset.trans (points_subset_of_contains hin))]
      exact ⟨copy a, rfl, ha.copy⟩
    · rw [← ea]
      obtain ⟨b', h, hgood, hcover⟩ := andRectLoop_spec hfit.2 hfa ha.apart ha.sorted
        Building.empty_good (by simp [Building.empty, Building.rects])
      have ⟨hvalid, hpoints⟩ := optimize_valid hgood
      refine ⟨optimize b', by rw [h]; rfl, hvalid, ?_⟩
      rw [hpoints, hcover]
      simp [Building.empty, Building.rects, points]

/-- Both forms of `And` compute the intersection. -/
theorem and_exact (ha : a.Valid) (hfa : a.Fits) :
    (∀ (b : Region) (same : Bool), b.Valid → b.Fits → (same = true → a = b) →
      ∃ r, Region.and same a b = some r ∧ r.Valid ∧ r.points = a.points ∩ b.points) ∧
    ∀ aRect : NsRect, aRect.Fits →
      ∃ r, andRect a aRect = some r ∧ r.Valid ∧ r.points = a.points ∩ aRect.points :=
  ⟨fun _ _ hb hfb hsame => and_valid ha hb hfa hfb hsame, fun _ hfit => andRect_valid ha hfa hfit⟩

/-- Three rows of steps. -/
def stairs : Region := ⟨[⟨0, 0, 4, 2⟩, ⟨0, 2, 6, 2⟩, ⟨2, 4, 4, 2⟩], 3, ⟨0, 0, 6, 6⟩⟩

/-- Two columns across the steps. -/
def columns : Region := ⟨[⟨1, 1, 2, 4⟩, ⟨4, 1, 1, 4⟩], 2, ⟨1, 1, 4, 4⟩⟩

theorem stairs_valid : stairs.Valid where
  solid := by simp [stairs, Solid]
  apart := by
    have h₁ := disjoint_of_intersects (r := ⟨0, 0, 4, 2⟩) (s := ⟨0, 2, 6, 2⟩) (by decide)
    have h₂ := disjoint_of_intersects (r := ⟨0, 0, 4, 2⟩) (s := ⟨2, 4, 4, 2⟩) (by decide)
    have h₃ := disjoint_of_intersects (r := ⟨0, 2, 6, 2⟩) (s := ⟨2, 4, 4, 2⟩) (by decide)
    simp [stairs, Apart, h₁, h₂, h₃]
  sorted := by simp [stairs, Sorted, Before]
  count := rfl
  tight := by simp [Tight, stairs, contains_iff, xMost, yMost]

theorem columns_valid : columns.Valid where
  solid := by simp [columns, Solid]
  apart := by
    have h := disjoint_of_intersects (r := ⟨1, 1, 2, 4⟩) (s := ⟨4, 1, 1, 4⟩) (by decide)
    simp [columns, Apart, h]
  sorted := by simp [columns, Sorted, Before]
  count := rfl
  tight := by simp [Tight, columns, contains_iff, xMost, yMost]

theorem and_exact_stairs :
    (∃ r, Region.and false stairs columns = some r ∧ r.Valid ∧
      r.points = stairs.points ∩ columns.points) ∧
    ∃ r, andRect stairs ⟨1, 1, 4, 4⟩ = some r ∧ r.Valid ∧
      r.points = stairs.points ∩ NsRect.points ⟨1, 1, 4, 4⟩ :=
  have h := and_exact stairs_valid
    (by simp [Region.Fits, stairs, NsRect.Fits, yMost, MIN_INT32, MAX_INT32])
  ⟨h.1 columns false columns_valid
      (by simp [Region.Fits, columns, NsRect.Fits, yMost, MIN_INT32, MAX_INT32]) (by simp),
    h.2 ⟨1, 1, 4, 4⟩ (by simp [NsRect.Fits, yMost, MIN_INT32, MAX_INT32])⟩

example : Region.and false stairs columns = some ⟨[⟨1, 1, 2, 3⟩, ⟨4, 2, 1, 2⟩, ⟨2, 4, 1, 1⟩,
    ⟨4, 4, 1, 1⟩], 4, ⟨1, 1, 4, 4⟩⟩ := by decide

end Valid

end Region

end Kompozer.Gfx

import Kompozer.Gfx.SubRect

/-! `Sub` computes the difference, except where `SubRect` leaves its loop at a rectangle
that it has cut up: that rectangle is not skipped, and is inserted again with the rest. The
other exception is a destination that is the second region: the rectangle to be subtracted
is freed first, and overwritten by the first one that is inserted. -/

namespace Kompozer.Gfx

open NsRect

/-! ### The model -/

/-- `MoveInto` of the rectangles of a list. -/
def Building.moveInto : List NsRect → Building → Option Building
  | [], aDestRegion => some aDestRegion
  | pRect :: rest, aDestRegion => do
    let b ← aDestRegion.insertInPlace pRect
    moveInto rest b

/-- `SubRect` with one rectangle after the other. -/
def subRects : List NsRect → Sinks → Option Sinks
  | [], s => some s
  | pSubRect :: rest, s => do
    let s ← subRect false pSubRect s.aResult.rects s.aCompleted
    subRects rest s

namespace Sinks

/-- The rectangles of `aCompleted`. -/
def completed (s : Sinks) : List NsRect := (s.aCompleted.map Building.rects).getD []

def rects (s : Sinks) : List NsRect := s.aResult.rects ++ s.completed

end Sinks

/-- The operand, if any, that is the destination itself. -/
inductive Dest
  | other
  | first
  | second
  deriving DecidableEq, Repr

namespace Region

/-- `SubRegion`. The source is copied where it is the destination. With `freed` the
destination is `aRegion`, and a single rectangle of it is freed before it is read. -/
def subRegion (freed : Bool) (rgn aRegion : Region) : Option Building :=
  match aRegion.rects with
  | [] => none
  | first :: rest =>
    if aRegion.mRectCount = 1 then
      if aRegion.mBoundRect.contains rgn.mBoundRect then some .empty
      else (subRect freed first rgn.rects none).map Sinks.aResult
    else do
      let s ← subRect false first rgn.rects (some .empty)
      let s ← subRects rest s
      s.aResult.moveInto s.completed

/-- `Sub` of two regions. -/
def sub (dest : Dest) (same : Bool) (aRgn1 aRgn2 : Region) : Option Region :=
  if same then some setEmpty
  else if aRgn1.mRectCount = 0 then some setEmpty
  else if aRgn2.mRectCount = 0 then some (copy aRgn1)
  else if !aRgn1.mBoundRect.intersects aRgn2.mBoundRect then some (copy aRgn1)
  else (subRegion (dest = .second) aRgn1 aRgn2).map optimize

/-- `Sub` of a region and a rectangle. -/
def subRectangle (aRegion : Region) (aRect : NsRect) : Option Region :=
  if aRegion.mRectCount = 0 then some setEmpty
  else if aRect.isEmpty then some (copy aRegion)
  else if !aRect.intersects aRegion.mBoundRect then some (copy aRegion)
  else if aRect.contains aRegion.mBoundRect then some setEmpty
  else (subRect false aRect aRegion.rects none).map fun s => optimize s.aResult

end Region

/-! ### What is inserted -/

section Plan
variable {b : NsRect} {src : List NsRect} {p : ℤ × ℤ}

/-- The rectangles that `SubRect` inserts. -/
def inserted (freed : Bool) (b : NsRect) (src : List NsRect) : List NsRect :=
  (plan freed b src).map Prod.snd

theorem inserted_cons_of_row {freed : Bool} {r : NsRect} (h : ¬ r.y < b.yMost) (rest : List NsRect) :
    inserted freed b (r :: rest) = r :: rest := by
  rw [inserted, plan, if_neg h, List.map_map]
  exact List.map_id _

theorem inserted_cons_of_encloses {freed : Bool} {r : NsRect} (h : r.y < b.yMost)
    (henc : r.Encloses b) (rest : List NsRect) :
    inserted freed b (r :: rest) = cut b r ++ r :: rest := by
  rw [inserted, plan, if_pos h, if_pos henc, List.map_append, List.map_map, List.map_map]
  congr 1
  · exact List.map_id _
  · exact List.map_id _

theorem inserted_cons {r : NsRect} (h : r.y < b.yMost) (henc : ¬ r.Encloses b)
    (rest : List NsRect) :
    inserted false b (r :: rest) = cut b r ++ inserted false b rest := by
  rw [inserted, plan, if_pos h, if_neg henc, List.map_append, List.map_map]
  congr 1
  · exact List.map_id _
  · cases cut b r <;> rfl

/-- With the storage of `b` freed the first rectangle that is inserted takes its place. -/
theorem inserted_cons_freed {r : NsRect} (h : r.y < b.yMost) (henc : ¬ r.Encloses b)
    (rest : List NsRect) :
    inserted true b (r :: rest) = cut b r ++
      match cut b r with
      | [] => inserted true b rest
      | first :: _ => inserted false first rest := by
  rw [inserted, plan, if_pos h, if_neg henc, List.map_append, List.map_map]
  congr 1
  · exact List.map_id _
  · cases cut b r <;> rfl

/-- The points of the rectangles from a row on. -/
theorem disjoint_of_row (hs : Sorted src) {r : NsRect} (hr : src.head? = some r)
    (h : ¬ r.y < b.yMost) : ∀ a ∈ src, Disjoint a.points b.points := by
  intro a ha
  obtain ⟨rest, rfl⟩ : ∃ rest, src = r :: rest := by
    cases src with
    | nil => simp at hr
    | cons q rest => exact ⟨rest, by rw [Option.some.inj hr]⟩
  have hempty := Region.inter_eq_empty_of_row hs h
  rw [disjoint_comm, Set.disjoint_iff_inter_eq_empty]
  exact Set.subset_empty_iff.mp
    ((Set.inter_subset_inter_right _ (subset_cover ha)).trans hempty.subset)

/-- Every rectangle is cut when none encloses `b`. -/
theorem inserted_eq (hs : Sorted src) (henc : ∀ r ∈ src, ¬ r.Encloses b) :
    inserted false b src = src.flatMap (cut b) := by
  induction src with
  | nil => rfl
  | cons r rest ih =>
    by_cases hrow : r.y < b.yMost
    · rw [inserted_cons hrow (henc r (by simp)), List.flatMap_cons,
        ih (List.pairwise_cons.mp hs).2 fun q hq => henc q (by simp [hq])]
    · rw [inserted_cons_of_row hrow, flatMap_cut_of_disjoint (disjoint_of_row hs rfl hrow)]

/-- A rectangle that encloses `b` is inserted whole. -/
theorem exists_inserted_of_encloses (hs : Sorted src) (hb : b.Solid) {R : NsRect} (hR : R ∈ src)
    (henc : R.Encloses b) : ∃ Q ∈ inserted false b src, Q ∈ src ∧ Q.Encloses b := by
  induction src with
  | nil => simp at hR
  | cons r rest ih =>
    by_cases hrow : r.y < b.yMost
    · by_cases hr : r.Encloses b
      · rw [inserted_cons_of_encloses hrow hr]
        exact ⟨r, by simp, by simp, hr⟩
      · rcases List.mem_cons.mp hR with rfl | hR
        · exact absurd henc hr
        · obtain ⟨Q, hQ, hmem, hQenc⟩ := ih (List.pairwise_cons.mp hs).2 hR
          rw [inserted_cons hrow hr]
          exact ⟨Q, List.mem_append_right _ hQ, List.mem_cons_of_mem r hmem, hQenc⟩
    · exact absurd (disjoint_of_row hs rfl hrow R hR) (henc.not_disjoint hb)

/-- What lies over a point outside `b` is inserted again. -/
theorem layers_le_inserted (hp : p ∉ b.points) :
    layers points src p ≤ layers points (inserted false b src) p := by
  induction src with
  | nil => exact Nat.le_refl _
  | cons r rest ih =>
    by_cases hrow : r.y < b.yMost
    · by_cases hr : r.Encloses b
      · rw [inserted_cons_of_encloses hrow hr, layers_append]
        exact Nat.le_add_left _ _
      · rw [inserted_cons hrow hr, layers_append, layers_cut_of_not_mem hp, ← List.singleton_append,
          layers_append]
        exact Nat.add_le_add_left ih _
    · rw [inserted_cons_of_row hrow]

/-- What is inserted lies in the rows of a rectangle of the source. -/
theorem plan_within {freed : Bool} (hsrc : ∀ r ∈ src, r.Solid) :
    ∀ e ∈ plan freed b src, e.2.Solid ∧ ∃ a ∈ src, a.y ≤ e.2.y ∧ e.2.yMost ≤ a.yMost := by
  induction src generalizing freed b with
  | nil => simp [plan]
  | cons r rest ih =>
    have hwhole : ∀ e ∈ (r :: rest).map (Prod.mk false), e.2.Solid ∧
        ∃ a ∈ r :: rest, a.y ≤ e.2.y ∧ e.2.yMost ≤ a.yMost := by
      intro e he
      obtain ⟨a, ha, rfl⟩ := List.mem_map.mp he
      exact ⟨hsrc a ha, a, ha, le_refl _, le_refl _⟩
    have hrest : ∀ (freed : Bool) (b : NsRect), ∀ e ∈ plan freed b rest, e.2.Solid ∧
        ∃ a ∈ r :: rest, a.y ≤ e.2.y ∧ e.2.yMost ≤ a.yMost := by
      intro freed b e he
      obtain ⟨hsolid, a, ha, hrows⟩ := ih (fun q hq => hsrc q (by simp [hq])) e he
      exact ⟨hsolid, a, by simp [ha], hrows⟩
    intro e he
    rw [plan] at he
    by_cases hrow : r.y < b.yMost
    swap
    · rw [if_neg hrow] at he
      exact hwhole e he
    rw [if_pos hrow] at he
    rcases List.mem_append.mp he with he | he
    · obtain ⟨q, hq, rfl⟩ := List.mem_map.mp he
      obtain ⟨hsolid, hrows⟩ := cut_within (hsrc r (by simp)) q hq
      exact ⟨hsolid, r, by simp, hrows⟩
    by_cases henc : r.Encloses b
    · rw [if_pos henc] at he
      exact hwhole e he
    · rw [if_neg henc] at he
      split at he
      · exact hrest _ _ e he
      · exact hrest _ _ e he

/-- What is completed lies above `b`. -/
theorem plan_completed (hsrc : ∀ r ∈ src, r.Solid) {q : NsRect} (hq : (true, q) ∈ plan false b src) :
    q.yMost ≤ b.y := by
  induction src with
  | nil => simp [plan] at hq
  | cons r rest ih =>
    have hwhole : (true, q) ∉ (r :: rest).map (Prod.mk false) := by
      intro h
      obtain ⟨a, -, ha⟩ := List.mem_map.mp h
      simp at ha
    have hcut : (true, q) ∈ (cut b r).map (Prod.mk (decide (r.yMost ≤ b.y))) → q.yMost ≤ b.y := by
      intro h
      obtain ⟨a, ha, heq⟩ := List.mem_map.mp h
      obtain ⟨habove, rfl⟩ := Prod.mk.inj heq
      exact (cut_within (hsrc r (by simp)) a ha).2.2.trans (of_decide_eq_true habove)
    rw [plan] at hq
    by_cases hrow : r.y < b.yMost
    swap
    · rw [if_neg hrow] at hq
      exact absurd hq hwhole
    rw [if_pos hrow] at hq
    rcases List.mem_append.mp hq with hq | hq
    · exact hcut hq
    by_cases henc : r.Encloses b
    · rw [if_pos henc] at hq
      exact absurd hq hwhole
    · rw [if_neg henc] at hq
      refine ih (fun r hr => hsrc r (by simp [hr])) ?_
      cases hparts : cut b r with
      | nil =>
        rw [hparts] at hq
        exact hq
      | cons first l =>
        rw [hparts] at hq
        exact hq

/-! ### A freed rectangle -/

/-- A rectangle of the source cuts nothing but itself. -/
theorem inserted_of_apart {r first : NsRect} {rest : List NsRect}
    (ha : Apart points (r :: rest)) (hs : Sorted rest) (hfirst : first.Solid)
    (hsub : first.points ⊆ r.points) : inserted false first rest = rest := by
  have hd : ∀ q ∈ rest, Disjoint q.points first.points := fun q hq =>
    ((List.pairwise_cons.mp ha).1 q hq).symm.mono_right hsub
  rw [inserted_eq hs fun q hq henc => henc.not_disjoint hfirst (hd q hq),
    flatMap_cut_of_disjoint hd]

theorem points_cut_subset {r q : NsRect} (hq : q ∈ cut b r) : q.points ⊆ r.points := by
  intro p hp
  have hpos : 0 < layers points (cut b r) p := layers_pos.mpr (subset_cover hq hp)
  by_cases hpb : p ∈ b.points
  · rw [layers_cut_of_mem hpb] at hpos
    exact absurd hpos (Nat.lt_irrefl 0)
  · rw [layers_cut_of_not_mem hpb, layers_pos] at hpos
    simpa using hpos

theorem contains_of_subset {r : NsRect} (hr : r.Solid) (h : r.points ⊆ b.points) :
    b.contains r = true := by
  have hlast : (r.xMost - 1, r.yMost - 1) ∈ r.points := by
    obtain ⟨hw, hh⟩ := hr
    simp only [mem_points, xMost, yMost]
    omega
  have hfirst := h hr.corner_mem
  replace hlast := h hlast
  rw [mem_points] at hfirst hlast
  rw [contains_iff]
  simp only [xMost, yMost] at *
  omega

/-- Nothing is left of a rectangle only where it is contained. -/
theorem contains_of_cut {r : NsRect} (hr : r.Solid) (h : cut b r = []) : b.contains r = true := by
  apply contains_of_subset hr
  intro p hp
  by_contra hpb
  have hlayers := layers_cut_of_not_mem (a := r) hpb
  rw [h, layers_nil, layers_cons, if_pos hp] at hlayers
  simp at hlayers

/-- A freed rectangle cuts up to the first rectangle that it does not contain. -/
theorem inserted_freed_cons {r : NsRect} {rest : List NsRect} (hr : r.Solid)
    (ha : Apart points (r :: rest)) (hs : Sorted (r :: rest)) (henc : ¬ r.Encloses b)
    (hrow : r.y < b.yMost) :
    inserted true b (r :: rest) =
      if b.contains r then inserted true b rest else cut b r ++ rest := by
  rw [inserted_cons_freed hrow henc]
  by_cases hin : b.contains r = true
  · rw [cut_of_contains hin hr, if_pos hin]
    rfl
  · rw [if_neg hin]
    cases hcut : cut b r with
    | nil => exact absurd (contains_of_cut hr hcut) hin
    | cons first l =>
      have hmem : first ∈ cut b r := hcut ▸ List.mem_cons_self
      dsimp only
      rw [inserted_of_apart ha (List.pairwise_cons.mp hs).2 (cut_within hr first hmem).1
        (points_cut_subset hmem)]

theorem not_disjoint_of_intersects {r : NsRect} (hr : r.Solid) (hb : b.Solid)
    (h : r.intersects b = true) : ¬ Disjoint r.points b.points := by
  have h := of_decide_eq_true h
  rw [Set.not_disjoint_iff]
  refine ⟨(max r.x b.x, max r.y b.y), ?_, ?_⟩
  all_goals
    simp only [mem_points, Solid, xMost, yMost] at *
    omega

/-- `b` cuts what it should: no rectangle encloses it and, if it is freed, it meets none
behind the first one that it does not contain. -/
structure Clean (freed : Bool) (b : NsRect) (src : List NsRect) : Prop where
  encloses : ∀ r ∈ src, ¬ r.Encloses b
  freed : freed = true → ∀ r ∈ (src.dropWhile b.contains).tail, r.intersects b = false

theorem Clean.inserted_freed (h : Clean true b src) (hsrc : ∀ r ∈ src, r.Solid)
    (ha : Apart points src) (hs : Sorted src) : inserted true b src = src.flatMap (cut b) := by
  obtain ⟨henc, hfreed⟩ := h
  replace hfreed := hfreed rfl
  induction src with
  | nil => rfl
  | cons r rest ih =>
    have hr := hsrc r (by simp)
    by_cases hrow : r.y < b.yMost
    swap
    · rw [inserted_cons_of_row hrow, flatMap_cut_of_disjoint (disjoint_of_row hs rfl hrow)]
    rw [inserted_freed_cons hr ha hs (henc r (by simp)) hrow, List.flatMap_cons]
    rw [List.dropWhile_cons] at hfreed
    by_cases hin : b.contains r = true
    · rw [if_pos hin] at hfreed ⊢
      rw [cut_of_contains hin hr, List.nil_append]
      exact ih (fun q hq => hsrc q (by simp [hq])) (List.pairwise_cons.mp ha).2
        (List.pairwise_cons.mp hs).2 (fun q hq => henc q (by simp [hq])) hfreed
    · rw [if_neg hin] at hfreed ⊢
      rw [List.tail_cons] at hfreed
      rw [flatMap_cut_of_disjoint fun q hq => disjoint_of_intersects (hfreed q hq)]

theorem Clean.inserted {freed : Bool} (h : Clean freed b src) (hsrc : ∀ r ∈ src, r.Solid)
    (ha : Apart points src) (hs : Sorted src) : inserted freed b src = src.flatMap (cut b) := by
  cases freed with
  | false => exact inserted_eq hs h.encloses
  | true => exact h.inserted_freed hsrc ha hs

/-- A rectangle that meets `b` is inserted whole. -/
def Spoilt (freed : Bool) (b : NsRect) (src : List NsRect) : Prop :=
  ∃ Q ∈ inserted freed b src, Q ∈ src ∧ ¬ Disjoint Q.points b.points

theorem spoilt_freed (hsrc : ∀ r ∈ src, r.Solid) (hb : b.Solid) (ha : Apart points src)
    (hs : Sorted src) (h : ¬ Clean true b src) : Spoilt true b src := by
  -- the first rectangle that is not cut as it should be
  have hbad : (∃ R ∈ src, R.Encloses b) ∨
      ∃ R ∈ (src.dropWhile b.contains).tail, ¬ Disjoint R.points b.points := by
    by_contra hnot
    refine h ⟨fun r hr henc => hnot (.inl ⟨r, hr, henc⟩), fun _ r hr => ?_⟩
    by_contra hmeet
    have hmem : r ∈ src := (List.dropWhile_suffix _).subset (List.mem_of_mem_tail hr)
    exact hnot (.inr ⟨r, hr, not_disjoint_of_intersects (hsrc r hmem) hb (by simpa using hmeet)⟩)
  clear h
  induction src with
  | nil => simp at hbad
  | cons r rest ih =>
    have hr := hsrc r (by simp)
    by_cases hrow : r.y < b.yMost
    swap
    · rw [Spoilt, inserted_cons_of_row hrow]
      rcases hbad with ⟨R, hR, henc⟩ | ⟨R, hR, hmeet⟩
      · exact ⟨R, hR, hR, henc.not_disjoint hb⟩
      · have hmem := (List.dropWhile_suffix _).subset (List.mem_of_mem_tail hR)
        exact ⟨R, hmem, hmem, hmeet⟩
    by_cases henc : r.Encloses b
    · rw [Spoilt, inserted_cons_of_encloses hrow henc]
      exact ⟨r, by simp, by simp, henc.not_disjoint hb⟩
    replace hbad : (∃ R ∈ rest, R.Encloses b) ∨
        ∃ R ∈ ((r :: rest).dropWhile b.contains).tail, ¬ Disjoint R.points b.points := by
      refine hbad.imp_left ?_
      rintro ⟨R, hR, hRenc⟩
      rcases List.mem_cons.mp hR with rfl | hR
      · exact absurd hRenc henc
      · exact ⟨R, hR, hRenc⟩
    rw [List.dropWhile_cons] at hbad
    rw [Spoilt, inserted_freed_cons hr ha hs henc hrow]
    by_cases hin : b.contains r = true
    · rw [if_pos hin] at hbad ⊢
      obtain ⟨Q, hQ, hmem, hmeet⟩ := ih (fun q hq => hsrc q (by simp [hq]))
        (List.pairwise_cons.mp ha).2 (List.pairwise_cons.mp hs).2 hbad
      exact ⟨Q, hQ, by simp [hmem], hmeet⟩
    · rw [if_neg hin] at hbad ⊢
      rcases hbad with ⟨R, hR, hRenc⟩ | ⟨R, hR, hmeet⟩
      · exact ⟨R, by simp [hR], by simp [hR], hRenc.not_disjoint hb⟩
      · rw [List.tail_cons] at hR
        exact ⟨R, by simp [hR], by simp [hR], hmeet⟩

theorem spoilt_of_not_clean {freed : Bool} (hsrc : ∀ r ∈ src, r.Solid) (hb : b.Solid)
    (ha : Apart points src) (hs : Sorted src) (h : ¬ Clean freed b src) : Spoilt freed b src := by
  cases freed with
  | false =>
    obtain ⟨R, hR, henc⟩ : ∃ R ∈ src, R.Encloses b := by
      by_contra hnot
      exact h ⟨fun r hr henc => hnot ⟨r, hr, henc⟩, fun hf => absurd hf (by simp)⟩
    obtain ⟨Q, hQ, hmem, hQenc⟩ := exists_inserted_of_encloses hs hb hR henc
    exact ⟨Q, hQ, hmem, hQenc.not_disjoint hb⟩
  | true => exact spoilt_freed hsrc hb ha hs h

end Plan

/-! ### The destination -/

namespace Building
variable {b b' : Building} {r : NsRect}

/-- `mRectCount` is right. -/
def Counted (b : Building) : Prop := b.mRectCount = b.rects.length

theorem insertInPlace_perm (hb : b.Counted) (h : b.insertInPlace r = some b') :
    b'.Counted ∧ b'.rects.Perm (r :: b.rects) := by
  rw [insertInPlace] at h
  by_cases hc : b.mRectCount = 0
  · have hnil : b.rects = [] := List.eq_nil_of_length_eq_zero (hb.symm.trans hc)
    rw [if_pos hc] at h
    rw [hnil, ← Option.some.inj h]
    exact ⟨rfl, .refl _⟩
  · rw [if_neg hc] at h
    obtain ⟨c, hchain, h⟩ := Option.bind_eq_some_iff.mp h
    obtain ⟨c', hc', h⟩ := Option.bind_eq_some_iff.mp h
    have hrects : b.rects = c.rects := by
      rw [rects, hchain]
      rfl
    have hperm := Chain.insertInPlace_perm hc'
    rw [← Option.some.inj h, hrects]
    refine ⟨?_, hperm⟩
    show b.mRectCount + 1 = c'.rects.length
    rw [hperm.length_eq, hb, hrects, List.length_cons]

theorem moveInto_perm {l : List NsRect} (hb : b.Counted) (h : b.moveInto l = some b') :
    b'.Counted ∧ b'.rects.Perm (l ++ b.rects) := by
  induction l generalizing b with
  | nil =>
    rw [← Option.some.inj h]
    exact ⟨hb, .refl _⟩
  | cons r l ih =>
    obtain ⟨b₁, h₁, h⟩ := Option.bind_eq_some_iff.mp h
    obtain ⟨hcount₁, hperm₁⟩ := insertInPlace_perm hb h₁
    obtain ⟨hcount, hperm⟩ := ih hcount₁ h
    exact ⟨hcount, hperm.trans ((hperm₁.append_left _).trans List.perm_middle)⟩

theorem moveInto_good {l : List NsRect} (hb : b.Good) (hl : ∀ r ∈ l, r.Solid ∧ r.Fits)
    (ha : Apart points (l ++ b.rects)) : ∃ b', b.moveInto l = some b' ∧ b'.Good := by
  induction l generalizing b with
  | nil => exact ⟨b, rfl, hb⟩
  | cons r l ih =>
    obtain ⟨hr, hfit⟩ := hl r (by simp)
    have hd : Disjoint r.points (cover points b.rects) :=
      ha.disjoint_cons.mono_right (cover_mono fun q hq => List.mem_append_right _ hq)
    obtain ⟨b₁, h₁, hgood₁, -⟩ := insertInPlace_good hb hr hfit hd
    have hperm := (insertInPlace_perm hb.count h₁).2
    obtain ⟨b', h', hgood⟩ := ih hgood₁ (fun q hq => hl q (by simp [hq]))
      (ha.perm (List.perm_middle.symm.trans (hperm.symm.append_left _)))
    exact ⟨b', by rw [moveInto, h₁]; exact h', hgood⟩

end Building

namespace Sinks
variable {s s' : Sinks} {e : Bool × NsRect} {l : List (Bool × NsRect)}

structure Counted (s : Sinks) : Prop where
  result : s.aResult.Counted
  completed : ∀ c ∈ s.aCompleted, c.Counted

theorem insertResult_perm {r : NsRect} (hs : s.Counted) (h : s.insertResult r = some s') :
    s'.Counted ∧ s'.rects.Perm (r :: s.rects) ∧ s'.completed = s.completed := by
  obtain ⟨b, hb, h⟩ := Option.bind_eq_some_iff.mp h
  obtain ⟨hcount, hperm⟩ := Building.insertInPlace_perm hs.result hb
  rw [← Option.some.inj h]
  exact ⟨⟨hcount, hs.completed⟩, hperm.append_right s.completed, rfl⟩

/-- An insertion loses no rectangle. -/
theorem put_perm (hs : s.Counted) (h : s.put e = some s') :
    s'.Counted ∧ s'.rects.Perm (e.2 :: s.rects) ∧
      ∀ q ∈ s'.completed, q ∈ s.completed ∨ e = (true, q) := by
  obtain ⟨done, r⟩ := e
  cases done with
  | false =>
    obtain ⟨hcount, hperm, hcompleted⟩ := insertResult_perm hs h
    exact ⟨hcount, hperm, fun q hq => .inl (hcompleted ▸ hq)⟩
  | true =>
    rw [put_true, insertCompleted] at h
    cases hc : s.aCompleted with
    | none =>
      rw [hc] at h
      obtain ⟨hcount, hperm, hcompleted⟩ := insertResult_perm hs h
      exact ⟨hcount, hperm, fun q hq => .inl (hcompleted ▸ hq)⟩
    | some c =>
      rw [hc] at h
      obtain ⟨c', hc', h⟩ := Option.bind_eq_some_iff.mp h
      obtain ⟨hcount, hperm⟩ := Building.insertInPlace_perm (hs.completed c hc) hc'
      have hcompleted : s.completed = c.rects := by simp [completed, hc]
      rw [← Option.some.inj h]
      refine ⟨⟨hs.result, ?_⟩, ?_, ?_⟩
      · rintro _ ⟨⟩
        exact hcount
      · rw [rects, rects, hcompleted]
        exact (hperm.append_left _).trans List.perm_middle
      · intro q hq
        rw [hcompleted]
        rcases List.mem_cons.mp (hperm.mem_iff.mp hq) with rfl | hq
        · exact .inr rfl
        · exact .inl hq

theorem putAll_perm (hs : s.Counted) (h : s.putAll l = some s') :
    s'.Counted ∧ s'.rects.Perm (l.map Prod.snd ++ s.rects) ∧
      ∀ q ∈ s'.completed, q ∈ s.completed ∨ (true, q) ∈ l := by
  induction l generalizing s with
  | nil =>
    rw [← Option.some.inj h]
    exact ⟨hs, .refl _, fun q hq => .inl hq⟩
  | cons e l ih =>
    obtain ⟨s₁, h₁, h⟩ := Option.bind_eq_some_iff.mp h
    obtain ⟨hcount₁, hperm₁, hcompleted₁⟩ := put_perm hs h₁
    obtain ⟨hcount, hperm, hcompleted⟩ := ih hcount₁ h
    refine ⟨hcount, hperm.trans ((hperm₁.append_left _).trans List.perm_middle), fun q hq => ?_⟩
    rcases hcompleted q hq with hq | hq
    · rcases hcompleted₁ q hq with hq | rfl
      · exact .inl hq
      · exact .inr (by simp)
    · exact .inr (by simp [hq])

theorem putAll_aCompleted (h : s.aCompleted = none) (hs' : s.putAll l = some s') :
    s'.completed = [] := by
  induction l generalizing s with
  | nil => rw [← Option.some.inj hs', completed, h]; rfl
  | cons e l ih =>
    obtain ⟨s₁, h₁, hs'⟩ := Option.bind_eq_some_iff.mp hs'
    refine ih ?_ hs'
    have hput : s.put e = s.insertResult e.2 := by
      rw [put, insertCompleted, h, ite_self]
    rw [hput] at h₁
    obtain ⟨b, -, h₁⟩ := Option.bind_eq_some_iff.mp h₁
    rw [← Option.some.inj h₁, h]

/-- What holds of the regions between two insertions. -/
structure Good (s : Sinks) : Prop where
  result : s.aResult.Good
  completed : ∀ c ∈ s.aCompleted, c.Good
  apart : Apart points s.rects

theorem Good.counted (hs : s.Good) : s.Counted :=
  ⟨hs.result.count, fun c hc => (hs.completed c hc).count⟩

theorem put_good (hs : s.Good) (hr : e.2.Solid) (hfit : e.2.Fits)
    (hd : Disjoint e.2.points (cover points s.rects)) : ∃ s', s.put e = some s' ∧ s'.Good := by
  obtain ⟨done, r⟩ := e
  rw [rects, cover_append, Set.disjoint_union_right] at hd
  have hresult : ∃ s', s.insertResult r = some s' ∧ s'.aResult.Good ∧
      ∀ c ∈ s'.aCompleted, c.Good := by
    obtain ⟨b, hb, hgood, -⟩ := Building.insertInPlace_good hs.result hr hfit hd.1
    exact ⟨⟨b, s.aCompleted⟩, by rw [insertResult, hb]; rfl, hgood, hs.completed⟩
  have hput : ∃ s', s.put (done, r) = some s' ∧ s'.aResult.Good ∧ ∀ c ∈ s'.aCompleted, c.Good := by
    cases done with
    | false => exact hresult
    | true =>
      rw [put_true, insertCompleted]
      cases hc : s.aCompleted with
      | none => exact hresult
      | some c =>
        have hcompleted : s.completed = c.rects := by simp [completed, hc]
        obtain ⟨c', hc', hgood, -⟩ := Building.insertInPlace_good (hs.completed c hc) hr hfit
          (hcompleted ▸ hd.2)
        dsimp only at hc' ⊢
        refine ⟨⟨s.aResult, some c'⟩, by rw [hc']; rfl, hs.result, ?_⟩
        rintro _ ⟨⟩
        exact hgood
  obtain ⟨s', hs', hgood, hcompleted⟩ := hput
  have hperm := (put_perm hs.counted hs').2.1
  refine ⟨s', hs', hgood, hcompleted, .perm ?_ hperm.symm⟩
  refine List.pairwise_cons.mpr ⟨fun q hq => ?_, hs.apart⟩
  rcases List.mem_append.mp hq with hq | hq
  · exact hd.1.mono_right (subset_cover hq)
  · exact hd.2.mono_right (subset_cover hq)

theorem putAll_good (hs : s.Good) (hl : ∀ e ∈ l, e.2.Solid ∧ e.2.Fits)
    (ha : Apart points (l.map Prod.snd ++ s.rects)) : ∃ s', s.putAll l = some s' ∧ s'.Good := by
  induction l generalizing s with
  | nil => exact ⟨s, rfl, hs⟩
  | cons e l ih =>
    obtain ⟨hr, hfit⟩ := hl e (by simp)
    have hd : Disjoint e.2.points (cover points s.rects) :=
      ha.disjoint_cons.mono_right (cover_mono fun q hq => List.mem_append_right _ hq)
    obtain ⟨s₁, h₁, hgood₁⟩ := put_good hs hr hfit hd
    have hperm := (put_perm hs.counted h₁).2.1
    obtain ⟨s', h', hgood⟩ := ih hgood₁ (fun e he => hl e (by simp [he]))
      (ha.perm (List.perm_middle.symm.trans (hperm.symm.append_left _)))
    exact ⟨s', by rw [putAll, h₁]; exact h', hgood⟩

end Sinks

/-! ### One rectangle after the other -/

section Steps
variable {b : NsRect} {src m : List NsRect} {s s' : Sinks} {c : Option Building}

/-- What the loop needs of the coordinates. -/
def Usable (r : NsRect) : Prop := r.Solid ∧ r.Fits

theorem usable_of_cut {a q : NsRect} (ha : Usable a) (hq : q ∈ cut b a) : Usable q := by
  obtain ⟨hsolid, htop, hbottom⟩ := cut_within ha.1 q hq
  exact ⟨hsolid, ha.2.1.trans_le htop, hbottom.trans ha.2.2⟩

theorem usable_of_plan {freed : Bool} (hsrc : ∀ r ∈ src, Usable r) :
    ∀ e ∈ plan freed b src, Usable e.2 := by
  intro e he
  obtain ⟨hsolid, a, ha, htop, hbottom⟩ := plan_within (fun r hr => (hsrc r hr).1) e he
  obtain ⟨-, hmin, hmax⟩ := hsrc a ha
  exact ⟨hsolid, hmin.trans_le htop, hbottom.trans hmax⟩

theorem subRect_eq_putAll {freed : Bool} (hsrc : ∀ r ∈ src, Usable r) (hb : Usable b) :
    subRect freed b src c = Sinks.putAll (plan freed b src) ⟨.empty, c⟩ :=
  subRect_eq hb.1 hb.2.2 (fun r hr => ⟨(hsrc r hr).1, (hsrc r hr).2.2⟩) c

/-- Whatever it does, `SubRect` inserts what it says. -/
theorem subRect_perm {freed : Bool} (hsrc : ∀ r ∈ src, Usable r) (hb : Usable b)
    (hc : ∀ d ∈ c, d.Counted) (h : subRect freed b src c = some s') :
    s'.Counted ∧ s'.rects.Perm (inserted freed b src ++ (⟨.empty, c⟩ : Sinks).completed) ∧
      ∀ q ∈ s'.completed, q ∈ (⟨.empty, c⟩ : Sinks).completed ∨ (true, q) ∈ plan freed b src := by
  rw [subRect_eq_putAll hsrc hb] at h
  exact Sinks.putAll_perm (s := ⟨.empty, c⟩) ⟨rfl, hc⟩ h

/-- It succeeds where it cuts what it should. -/
theorem subRect_good {freed : Bool} (hsrc : ∀ r ∈ src, Usable r) (hs : Sorted src)
    (hb : Usable b) (hc : ∀ d ∈ c, d.Good)
    (ha : Apart points (src ++ (⟨.empty, c⟩ : Sinks).completed)) (hclean : Clean freed b src) :
    ∃ s', subRect freed b src c = some s' ∧ s'.Good ∧
      s'.rects.Perm (src.flatMap (cut b) ++ (⟨.empty, c⟩ : Sinks).completed) := by
  have hins : inserted freed b src = src.flatMap (cut b) :=
    hclean.inserted (fun r hr => (hsrc r hr).1) (List.pairwise_append.mp ha).1 hs
  have hapart : Apart points (inserted freed b src ++ (⟨.empty, c⟩ : Sinks).completed) := by
    rw [apart_iff_layers] at ha ⊢
    intro p
    have hp := ha p
    rw [hins, layers_append]
    rw [layers_append] at hp
    by_cases hpb : p ∈ b.points
    · rw [layers_flatMap_cut_of_mem src hpb]
      omega
    · rw [layers_flatMap_cut_of_not_mem src hpb]
      exact hp
  have hstart : (⟨.empty, c⟩ : Sinks).Good :=
    ⟨Building.empty_good, hc, (List.pairwise_append.mp ha).2.1⟩
  obtain ⟨s', hs', hgood⟩ := Sinks.putAll_good hstart (usable_of_plan hsrc) hapart
  rw [← subRect_eq_putAll hsrc hb] at hs'
  obtain ⟨-, hperm, -⟩ := subRect_perm hsrc hb hstart.counted.completed hs'
  exact ⟨s', hs', hgood, hins ▸ hperm⟩

/-- No rectangle of `m` is met by one that encloses it when the rectangles of `l` are cut
by those before it. -/
def Clear : List NsRect → List NsRect → Prop
  | _, [] => True
  | l, b :: m => (∀ r ∈ l, ¬ r.Encloses b) ∧ Clear (l.flatMap (cut b)) m

instance instDecidableClear : (l m : List NsRect) → Decidable (Clear l m)
  | _, [] => inferInstanceAs (Decidable True)
  | l, b :: m =>
    let _ := instDecidableClear (l.flatMap (cut b)) m
    inferInstanceAs (Decidable ((∀ r ∈ l, ¬ r.Encloses b) ∧ Clear (l.flatMap (cut b)) m))

theorem Clear.perm {l l' : List NsRect} (h : Clear l m) (hp : l.Perm l') : Clear l' m := by
  induction m generalizing l l' with
  | nil => trivial
  | cons b m ih =>
    obtain ⟨henc, hrest⟩ := h
    exact ⟨fun r hr => henc r (hp.mem_iff.mpr hr), ih hrest (hp.flatMap_right _)⟩

/-- Between two rectangles: the regions are good, and what is completed lies above the
rectangles that are to come. -/
structure Ready (m : List NsRect) (s : Sinks) : Prop where
  good : s.Good
  usable : ∀ r ∈ s.rects, Usable r
  above : ∀ q ∈ s.completed, ∀ b ∈ m, q.yMost ≤ b.y

theorem Ready.step (h : Ready (b :: m) s) (hm : ∀ r ∈ b :: m, Usable r) (hsorted : Sorted (b :: m))
    (henc : ∀ r ∈ s.rects, ¬ r.Encloses b) :
    ∃ s', subRect false b s.aResult.rects s.aCompleted = some s' ∧ Ready m s' ∧
      s'.rects.Perm (s.rects.flatMap (cut b)) := by
  have hb := hm b (by simp)
  have hsrc : ∀ r ∈ s.aResult.rects, Usable r := fun r hr =>
    h.usable r (List.mem_append_left _ hr)
  have hclean : Clean false b s.aResult.rects :=
    ⟨fun r hr => henc r (List.mem_append_left _ hr), fun h => absurd h (by simp)⟩
  obtain ⟨s', hs', hgood, hperm⟩ := subRect_good hsrc h.good.result.sorted hb h.good.completed
    h.good.apart hclean
  obtain ⟨-, -, hcompleted⟩ := subRect_perm hsrc hb h.good.counted.completed hs'
  have hdone : s.completed.flatMap (cut b) = s.completed := by
    refine flatMap_cut_of_disjoint fun q hq => Set.disjoint_left.mpr fun p hp hpb => ?_
    have hrow := h.above q hq b (by simp)
    rw [mem_points] at hp hpb
    simp only [yMost] at hrow
    omega
  have hperm' : s'.rects.Perm (s.rects.flatMap (cut b)) := by
    have hrects : s.rects.flatMap (cut b) = s.aResult.rects.flatMap (cut b) ++ s.completed := by
      rw [Sinks.rects, List.flatMap_append, hdone]
    rw [hrects]
    exact hperm
  refine ⟨s', hs', ⟨hgood, fun r hr => ?_, fun q hq b' hb' => ?_⟩, hperm'⟩
  · obtain ⟨a, ha, hr⟩ := List.mem_flatMap.mp (hperm'.mem_iff.mp hr)
    exact usable_of_cut (h.usable a ha) hr
  · rcases hcompleted q hq with hq | hq
    · exact h.above q hq b' (by simp [hb'])
    · have hrow := plan_completed (fun r hr => (hsrc r hr).1) hq
      have hbefore := (List.pairwise_cons.mp hsorted).1 b' hb'
      simp only [Before] at hbefore
      omega

/-- The rectangles of `m` are cut off where none of them is enclosed. -/
theorem Ready.run (h : Ready m s) (hm : ∀ r ∈ m, Usable r) (hsorted : Sorted m)
    (hclear : Clear s.rects m) : ∃ s', subRects m s = some s' ∧ Ready [] s' ∧
      cover points s'.rects = cover points s.rects \ cover points m := by
  induction m generalizing s with
  | nil => exact ⟨s, rfl, h, by simp⟩
  | cons b m ih =>
    obtain ⟨s₁, h₁, hready, hperm⟩ := h.step hm hsorted hclear.1
    obtain ⟨s', h', hready', hcover⟩ := ih hready (fun r hr => hm r (by simp [hr]))
      (List.pairwise_cons.mp hsorted).2 (hclear.2.perm hperm.symm)
    refine ⟨s', by rw [subRects, h₁]; exact h', hready', ?_⟩
    rw [hcover, cover_perm hperm, cover_flatMap_cut, cover_cons, Set.sdiff_sdiff]

/-- The state of the regions after any number of rectangles. -/
structure Sound (s : Sinks) : Prop where
  counted : s.Counted
  usable : ∀ r ∈ s.rects, Usable r

theorem Sound.step {freed : Bool} (hsrc : ∀ r ∈ src, Usable r) (hb : Usable b)
    (hc : ∀ d ∈ c, d.Counted) (hdone : ∀ r ∈ (⟨.empty, c⟩ : Sinks).completed, Usable r)
    (h : subRect freed b src c = some s') : Sound s' := by
  obtain ⟨hcount, hperm, -⟩ := subRect_perm hsrc hb hc h
  refine ⟨hcount, fun r hr => ?_⟩
  rcases List.mem_append.mp (hperm.mem_iff.mp hr) with hr | hr
  · obtain ⟨e, he, rfl⟩ := List.mem_map.mp hr
    exact usable_of_plan hsrc e he
  · exact hdone r hr

/-- What is covered outside the rectangles of `m` stays so, even where the loop goes wrong. -/
theorem Sound.run (h : Sound s) (hm : ∀ r ∈ m, Usable r) (hrun : subRects m s = some s') :
    Sound s' ∧ cover points s.rects \ cover points m ⊆ cover points s'.rects := by
  induction m generalizing s with
  | nil =>
    rw [← Option.some.inj hrun]
    exact ⟨h, Set.sdiff_subset⟩
  | cons b m ih =>
    obtain ⟨s₁, h₁, hrun⟩ := Option.bind_eq_some_iff.mp hrun
    have hb := hm b (by simp)
    have hsrc : ∀ r ∈ s.aResult.rects, Usable r := fun r hr =>
      h.usable r (List.mem_append_left _ hr)
    obtain ⟨-, hperm, -⟩ := subRect_perm hsrc hb h.counted.completed h₁
    have hsound := Sound.step hsrc hb h.counted.completed
      (fun r hr => h.usable r (List.mem_append_right _ hr)) h₁
    obtain ⟨hsound', hcover⟩ := ih hsound (fun r hr => hm r (by simp [hr])) hrun
    refine ⟨hsound', fun p hp => hcover ⟨?_, fun hpm => hp.2 ?_⟩⟩
    · have hpb : p ∉ b.points := fun hpb => hp.2 (by rw [cover_cons]; exact .inl hpb)
      have hpos := layers_pos.mpr hp.1
      have hle := @layers_le_inserted _ s.aResult.rects _ hpb
      rw [Sinks.rects, layers_append] at hpos
      rw [← layers_pos, layers_perm hperm, layers_append]
      exact hpos.trans_le (Nat.add_le_add_right hle _)
    · rw [cover_cons]
      exact .inr hpm

/-- A rectangle of `m` that is enclosed stays covered. -/
theorem Ready.spoilt (h : Ready m s) (hm : ∀ r ∈ m, Usable r) (hsorted : Sorted m)
    (hapart : Apart points m) (hclear : ¬ Clear s.rects m) (hrun : subRects m s = some s') :
    Sound s' ∧ ∃ p ∈ cover points s.rects ∩ cover points m, p ∈ cover points s'.rects := by
  induction m generalizing s with
  | nil => exact absurd trivial hclear
  | cons b m ih =>
    have hb := hm b (by simp)
    have hm' : ∀ r ∈ m, Usable r := fun r hr => hm r (by simp [hr])
    by_cases henc : ∀ r ∈ s.rects, ¬ r.Encloses b
    · obtain ⟨s₁, h₁, hready, hperm⟩ := h.step hm hsorted henc
      have hclear' : ¬ Clear s₁.rects m := fun hc => hclear ⟨henc, hc.perm hperm⟩
      rw [subRects, h₁] at hrun
      obtain ⟨hsound, p, hp, hp'⟩ := ih hready hm' (List.pairwise_cons.mp hsorted).2
        (List.pairwise_cons.mp hapart).2 hclear' hrun
      rw [cover_perm hperm, cover_flatMap_cut] at hp
      exact ⟨hsound, p, ⟨hp.1.1, by rw [cover_cons]; exact .inr hp.2⟩, hp'⟩
    · obtain ⟨s₁, h₁, hrun⟩ := Option.bind_eq_some_iff.mp hrun
      have hsrc : ∀ r ∈ s.aResult.rects, Usable r := fun r hr =>
        h.usable r (List.mem_append_left _ hr)
      have hclean : ¬ Clean false b s.aResult.rects := by
        intro hclean
        refine henc fun r hr henc => ?_
        rcases List.mem_append.mp hr with hr | hr
        · exact hclean.encloses r hr henc
        · -- what is completed cannot enclose anything below it
          refine henc.not_disjoint hb.1 (Set.disjoint_left.mpr fun p hp hpb => ?_)
          have hrow := h.above r hr b (by simp)
          rw [mem_points] at hp hpb
          simp only [yMost] at hrow
          omega
      obtain ⟨Q, hQ, hmem, hmeet⟩ := spoilt_of_not_clean (fun r hr => (hsrc r hr).1) hb.1
        h.good.result.apart h.good.result.sorted hclean
      obtain ⟨p, hpQ, hpb⟩ := Set.not_disjoint_iff.mp hmeet
      obtain ⟨-, hperm, -⟩ := subRect_perm hsrc hb h.good.counted.completed h₁
      have hsound := Sound.step hsrc hb h.good.counted.completed
        (fun r hr => h.usable r (List.mem_append_right _ hr)) h₁
      obtain ⟨hsound', hcover⟩ := hsound.run hm' hrun
      refine ⟨hsound', p, ⟨subset_cover (List.mem_append_left _ hmem) hpQ,
        subset_cover (by simp) hpb⟩, hcover ⟨?_, ?_⟩⟩
      · rw [cover_perm hperm]
        exact subset_cover (List.mem_append_left _ hQ) hpQ
      · exact Set.disjoint_left.mp hapart.disjoint_cons hpb

end Steps

/-! ### Regions -/

/-- A copy of a list, with `mCurRect` at its first rectangle. -/
def Building.ofList (l : List NsRect) : Building :=
  ⟨l.head?.map fun r => ⟨[], r, l.tail⟩, l.length⟩

@[simp] theorem Building.rects_ofList (l : List NsRect) : (Building.ofList l).rects = l := by
  cases l <;> rfl

namespace Region
variable {a b : Region} {freed : Bool} {r : Building}

/-- `Optimize` changes no points, whatever the rectangles. -/
theorem optimize_points {b : Building} (hc : b.Counted) (hs : ∀ r ∈ b.rects, r.Solid) :
    (optimize b).points = cover NsRect.points b.rects := by
  rw [optimize]
  split_ifs with h
  · rfl
  · split
    · rename_i hnil
      exact absurd (hc.trans (by rw [hnil]; rfl)) h
    · rename_i first rest hrects
      rw [hrects]
      exact (combine_joined false first rest (hrects ▸ hs)).cover_eq

/-- `b` can be subtracted from `a`: it is one rectangle around `a`; or its rectangles, cut
off one after the other, are not enclosed, and if `b` is one rectangle that is freed, it
meets no rectangle behind the first one that it does not contain. -/
def Subtractable (freed : Bool) (a b : Region) : Prop :=
  b.mRectCount = 1 ∧ b.mBoundRect.contains a.mBoundRect = true ∨
    Clear a.rects b.rects ∧ (freed = true → ∀ r, b.rects = [r] →
      ∀ q ∈ (a.rects.dropWhile r.contains).tail, q.intersects r = false)

theorem Valid.usable (ha : a.Valid) (hfa : a.Fits) : ∀ r ∈ a.rects, Usable r := fun r hr =>
  ⟨ha.solid r hr, hfa r hr⟩

/-- All of a region is there and nothing is completed. -/
def start (a : Region) : Sinks := ⟨Building.ofList a.rects, some .empty⟩

@[simp] theorem rects_start (a : Region) : a.start.rects = a.rects := by
  rw [Sinks.rects, start, Building.rects_ofList]
  exact List.append_nil _

theorem Valid.ready (ha : a.Valid) (hfa : a.Fits) (m : List NsRect) : Ready m a.start := by
  have hgood : (Building.ofList a.rects).Good := by
    refine ⟨?_, ?_, ?_, ?_⟩
    all_goals rw [Building.rects_ofList]
    · exact ha.solid
    · exact ha.apart
    · exact ha.sorted
    · rfl
  refine ⟨⟨hgood, ?_, ?_⟩, ?_, ?_⟩
  · rintro _ ⟨⟩
    exact Building.empty_good
  · rw [rects_start]
    exact ha.apart
  · rw [rects_start]
    exact ha.usable hfa
  · simp [start, Sinks.completed, Building.rects, Building.empty]

/-- `SubRegion` with more than one rectangle. -/
theorem subRegion_eq (hc : b.mRectCount ≠ 1) (hb : b.rects ≠ []) :
    subRegion freed a b =
      (subRects b.rects a.start).bind fun s => s.aResult.moveInto s.completed := by
  rw [subRegion]
  split
  · rename_i hnil
    exact absurd hnil hb
  · rename_i first rest hrects
    rw [if_neg hc, hrects, subRects, start, Building.rects_ofList]
    cases subRect false first a.rects (some .empty) <;> rfl

/-- With one rectangle that is not around the region. -/
theorem subRegion_single {first : NsRect} (hrects : b.rects = [first]) (hc : b.mRectCount = 1)
    (hin : ¬ b.mBoundRect.contains a.mBoundRect = true) :
    subRegion freed a b = (subRect freed first a.rects none).map Sinks.aResult := by
  rw [subRegion, hrects]
  dsimp only
  rw [if_pos hc, if_neg hin]

theorem exists_single (hb : b.Valid) (hc : b.mRectCount = 1) : ∃ first, b.rects = [first] :=
  List.length_eq_one_iff.mp (hb.count.symm.trans hc)

/-- One rectangle cuts what it should where it can be subtracted. -/
theorem clean_iff {first : NsRect} (hrects : b.rects = [first])
    (hin : ¬ (b.mRectCount = 1 ∧ b.mBoundRect.contains a.mBoundRect = true)) :
    Clean freed first a.rects ↔ Subtractable freed a b := by
  rw [Subtractable, or_iff_right hin, hrects]
  constructor
  · rintro ⟨henc, hfreed⟩
    refine ⟨⟨henc, trivial⟩, fun hf r hr => ?_⟩
    rw [← (List.cons.inj hr).1]
    exact hfreed hf
  · rintro ⟨⟨henc, -⟩, hfreed⟩
    exact ⟨henc, fun hf => hfreed hf first rfl⟩

/-- One rectangle is cut off. -/
theorem subRect_alone_good {first : NsRect} (ha : a.Valid) (hfa : a.Fits) (hfirst : Usable first)
    (hclean : Clean freed first a.rects) :
    ∃ s, subRect freed first a.rects none = some s ∧ s.aResult.Good ∧
      (∀ q ∈ s.aResult.rects, Usable q) ∧
      cover NsRect.points s.aResult.rects = a.points \ first.points := by
  obtain ⟨s, hs, hgood, hperm⟩ := subRect_good (c := none) (ha.usable hfa) ha.sorted hfirst
    (by simp) (by simpa [Sinks.completed] using ha.apart) hclean
  have hdone : s.completed = [] := by
    rw [subRect_eq_putAll (ha.usable hfa) hfirst] at hs
    exact Sinks.putAll_aCompleted rfl hs
  rw [Sinks.rects, hdone, List.append_nil] at hperm
  replace hperm : s.aResult.rects.Perm (a.rects.flatMap (cut first)) := by
    simpa [Sinks.completed] using hperm
  refine ⟨s, hs, hgood.result, fun q hq => ?_, ?_⟩
  · obtain ⟨r, hr, hq⟩ := List.mem_flatMap.mp (hperm.mem_iff.mp hq)
    exact usable_of_cut (ha.usable hfa r hr) hq
  · rw [cover_perm hperm, cover_flatMap_cut]
    rfl

/-- Or a point of it stays covered. -/
theorem subRect_alone_spoilt {first : NsRect} {s : Sinks} (ha : a.Valid) (hfa : a.Fits)
    (hfirst : Usable first) (hclean : ¬ Clean freed first a.rects)
    (hs : subRect freed first a.rects none = some s) :
    s.aResult.Counted ∧ (∀ q ∈ s.aResult.rects, Usable q) ∧
      ∃ p ∈ a.points ∩ first.points, p ∈ cover NsRect.points s.aResult.rects := by
  have hsound := Sound.step (ha.usable hfa) hfirst (by simp) (by simp [Sinks.completed]) hs
  obtain ⟨-, hperm, -⟩ := subRect_perm (ha.usable hfa) hfirst (by simp) hs
  have hdone : s.completed = [] := by
    rw [subRect_eq_putAll (ha.usable hfa) hfirst] at hs
    exact Sinks.putAll_aCompleted rfl hs
  rw [Sinks.rects, hdone, List.append_nil] at hperm
  obtain ⟨Q, hQ, hmem, hmeet⟩ := spoilt_of_not_clean ha.solid hfirst.1 ha.apart ha.sorted hclean
  obtain ⟨p, hpQ, hpb⟩ := Set.not_disjoint_iff.mp hmeet
  refine ⟨hsound.counted.result, fun q hq => hsound.usable q (List.mem_append_left _ hq), p,
    ⟨subset_cover hmem hpQ, hpb⟩, ?_⟩
  rw [cover_perm hperm]
  exact subset_cover (List.mem_append_left _ hQ) hpQ

/-- `SubRegion` computes the difference where the region can be subtracted. -/
theorem subRegion_good (ha : a.Valid) (hb : b.Valid) (hfa : a.Fits) (hfb : b.Fits)
    (hcb : b.mRectCount ≠ 0) (h : Subtractable freed a b) :
    ∃ r, subRegion freed a b = some r ∧ r.Good ∧ (∀ q ∈ r.rects, Usable q) ∧
      cover NsRect.points r.rects = a.points \ b.points := by
  by_cases hc : b.mRectCount = 1
  · obtain ⟨first, hrects⟩ := exists_single hb hc
    have hfirst : Usable first := hb.usable hfb first (by simp [hrects])
    have hpoints : b.points = first.points := by simp [points, hrects]
    by_cases hin : b.mBoundRect.contains a.mBoundRect = true
    · refine ⟨.empty, ?_, Building.empty_good, by simp [Building.rects, Building.empty], ?_⟩
      · rw [subRegion, hrects]
        dsimp only
        rw [if_pos hc, if_pos hin]
      · have hsub : a.points ⊆ b.points := by
          rw [hb.points_of_single hc]
          exact ha.points_subset.trans (points_subset_of_contains hin)
        rw [Set.sdiff_eq_empty.mpr hsub]
        exact cover_nil
    · have hclean := (clean_iff hrects fun h => hin h.2).mpr h
      obtain ⟨s, hs, hgood, husable, hcover⟩ := subRect_alone_good ha hfa hfirst hclean
      exact ⟨s.aResult, by rw [subRegion_single hrects hc hin, hs]; rfl, hgood, husable,
        hpoints ▸ hcover⟩
  · have hne : b.rects ≠ [] := fun hnil => hcb (hb.count.trans (by rw [hnil]; rfl))
    have hclear : Clear a.rects b.rects := by
      rcases h with h | h
      · exact absurd h.1 hc
      · exact h.1
    have hready := ha.ready hfa b.rects
    obtain ⟨s, hs, hready', hcover⟩ := hready.run (hb.usable hfb) hb.sorted
      (by rwa [rects_start])
    have hperm : (s.completed ++ s.aResult.rects).Perm s.rects := List.perm_append_comm
    obtain ⟨r, hr, hgood⟩ := Building.moveInto_good hready'.good.result
      (fun q hq => hready'.usable q (List.mem_append_right _ hq)) (hready'.good.apart.perm hperm.symm)
    have hperm' := (Building.moveInto_perm hready'.good.result.count hr).2.trans hperm
    refine ⟨r, by rw [subRegion_eq hc hne, hs]; exact hr, hgood, fun q hq => ?_, ?_⟩
    · exact hready'.usable q (hperm'.mem_iff.mp hq)
    · rw [cover_perm hperm', hcover, rects_start]
      rfl

/-- Elsewhere a point of both regions stays covered. -/
theorem subRegion_spoilt (ha : a.Valid) (hb : b.Valid) (hfa : a.Fits) (hfb : b.Fits)
    (hcb : b.mRectCount ≠ 0) (h : ¬ Subtractable freed a b) (hr : subRegion freed a b = some r) :
    r.Counted ∧ (∀ q ∈ r.rects, Usable q) ∧
      ∃ p ∈ a.points ∩ b.points, p ∈ cover NsRect.points r.rects := by
  by_cases hc : b.mRectCount = 1
  · obtain ⟨first, hrects⟩ := exists_single hb hc
    have hfirst : Usable first := hb.usable hfb first (by simp [hrects])
    have hpoints : b.points = first.points := by simp [points, hrects]
    have hin : ¬ (b.mRectCount = 1 ∧ b.mBoundRect.contains a.mBoundRect = true) := fun hin =>
      h (.inl hin)
    have hclean := mt (clean_iff hrects hin).mp h
    rw [subRegion_single hrects hc fun h => hin ⟨hc, h⟩] at hr
    obtain ⟨s, hs, rfl⟩ := Option.map_eq_some_iff.mp hr
    rw [hpoints]
    exact subRect_alone_spoilt ha hfa hfirst hclean hs
  · have hne : b.rects ≠ [] := fun hnil => hcb (hb.count.trans (by rw [hnil]; rfl))
    have hclear : ¬ Clear a.rects b.rects := by
      intro hclear
      refine h (.inr ⟨hclear, fun _ r hr => absurd ?_ hc⟩)
      rw [hb.count, hr]
      rfl
    rw [subRegion_eq hc hne] at hr
    obtain ⟨s, hs, hr⟩ := Option.bind_eq_some_iff.mp hr
    obtain ⟨hsound, p, hp, hp'⟩ := (ha.ready hfa b.rects).spoilt (hb.usable hfb) hb.sorted hb.apart
      (by rwa [rects_start]) hs
    rw [rects_start] at hp
    obtain ⟨hcount, hperm⟩ := Building.moveInto_perm hsound.counted.result hr
    have hperm' : r.rects.Perm s.rects := hperm.trans List.perm_append_comm
    refine ⟨hcount, fun q hq => hsound.usable q (hperm'.mem_iff.mp hq), p, hp, ?_⟩
    rw [cover_perm hperm']
    exact hp'

/-! ### The difference -/

/-- A valid region of exactly these points. -/
def Exact (r : Option Region) (s : Set (ℤ × ℤ)) : Prop :=
  ∃ c, r = some c ∧ c.Valid ∧ c.points = s

theorem clear_of_disjoint {l m : List NsRect} (hm : ∀ r ∈ m, r.Solid)
    (h : Disjoint (cover NsRect.points l) (cover NsRect.points m)) : Clear l m := by
  induction m with
  | nil => trivial
  | cons b m ih =>
    rw [cover_cons, Set.disjoint_union_right] at h
    have hd : ∀ r ∈ l, Disjoint r.points b.points := fun r hr => h.1.mono_left (subset_cover hr)
    refine ⟨fun r hr henc => henc.not_disjoint (hm b (by simp)) (hd r hr), ?_⟩
    rw [flatMap_cut_of_disjoint hd]
    exact ih (fun r hr => hm r (by simp [hr])) h.2

/-- Regions without a common point. -/
theorem subtractable_of_disjoint (ha : a.Valid) (hb : b.Valid) (h : Disjoint a.points b.points) :
    Subtractable freed a b := by
  refine .inr ⟨clear_of_disjoint hb.solid h, fun _ r hr q hq => ?_⟩
  have hr : r ∈ b.rects := by simp [hr]
  have hq : q ∈ a.rects := (List.dropWhile_suffix _).subset (List.mem_of_mem_tail hq)
  by_contra hmeet
  exact not_disjoint_of_intersects (ha.solid q hq) (hb.solid r hr) (by simpa using hmeet)
    (h.mono (subset_cover hq) (subset_cover hr))

theorem exact_copy (ha : a.Valid) {s : Set (ℤ × ℤ)} (h : a.points = s) :
    Exact (some (copy a)) s :=
  ⟨copy a, rfl, ha.copy.1, ha.copy.2.trans h⟩

theorem exact_setEmpty {s : Set (ℤ × ℤ)} (h : s = ∅) : Exact (some setEmpty) s :=
  ⟨setEmpty, rfl, setEmpty_valid, setEmpty_points.trans h.symm⟩

theorem exact_optimize {s : Set (ℤ × ℤ)} (hr : r.Good) (h : cover NsRect.points r.rects = s) :
    Exact (some (optimize r)) s :=
  ⟨optimize r, rfl, (optimize_valid hr).1, (optimize_valid hr).2.trans h⟩

/-- A point outside the result would be in it. -/
theorem not_exact_optimize {s : Set (ℤ × ℤ)} (hc : r.Counted) (hr : ∀ q ∈ r.rects, Usable q)
    {p : ℤ × ℤ} (hp : p ∈ cover NsRect.points r.rects) (hs : p ∉ s) :
    ¬ Exact (some (optimize r)) s := by
  rintro ⟨c, hopt, -, hpoints⟩
  rw [← Option.some.inj hopt, optimize_points hc fun q hq => (hr q hq).1] at hpoints
  exact hs (hpoints ▸ hp)

/-- `SubRegion` and `Optimize`. -/
theorem exact_subRegion_iff (ha : a.Valid) (hb : b.Valid) (hfa : a.Fits) (hfb : b.Fits)
    (hcb : b.mRectCount ≠ 0) :
    Exact ((subRegion freed a b).map optimize) (a.points \ b.points) ↔ Subtractable freed a b := by
  constructor
  · intro hexact
    by_contra h
    obtain ⟨c, hc, -⟩ := id hexact
    obtain ⟨r, hr, -⟩ := Option.map_eq_some_iff.mp hc
    obtain ⟨hcount, husable, p, hp, hpr⟩ := subRegion_spoilt ha hb hfa hfb hcb h hr
    rw [hr] at hexact
    exact not_exact_optimize hcount husable hpr (fun hs => hs.2 hp.2) hexact
  · intro h
    obtain ⟨r, hr, hgood, -, hcover⟩ := subRegion_good ha hb hfa hfb hcb h
    rw [hr]
    exact exact_optimize hgood hcover

/-- `SubRect` and `Optimize`. -/
theorem exact_subRect_iff {first : NsRect} (ha : a.Valid) (hfa : a.Fits) (hfirst : Usable first) :
    Exact ((subRect false first a.rects none).map fun s => optimize s.aResult)
      (a.points \ first.points) ↔ ∀ r ∈ a.rects, ¬ r.Encloses first := by
  constructor
  · intro hexact
    by_contra h
    have hclean : ¬ Clean false first a.rects := fun hclean => h hclean.encloses
    obtain ⟨c, hc, -⟩ := id hexact
    obtain ⟨s, hs, -⟩ := Option.map_eq_some_iff.mp hc
    obtain ⟨hcount, husable, p, hp, hps⟩ := subRect_alone_spoilt ha hfa hfirst hclean hs
    rw [hs] at hexact
    exact not_exact_optimize hcount husable hps (fun h => h.2 hp.2) hexact
  · intro h
    have hclean : Clean false first a.rects := ⟨h, fun hf => absurd hf (by simp)⟩
    obtain ⟨s, hs, hgood, -, hcover⟩ := subRect_alone_good ha hfa hfirst hclean
    rw [hs]
    exact exact_optimize hgood hcover

theorem sub_iff {dest : Dest} {same : Bool} (ha : a.Valid) (hb : b.Valid) (hfa : a.Fits)
    (hfb : b.Fits) (hsame : same = true → a = b) :
    Exact (sub dest same a b) (a.points \ b.points) ↔
      same = true ∨ Subtractable (dest = .second) a b := by
  rw [sub]
  by_cases h : same = true
  · rw [if_pos h, ← hsame h]
    exact iff_of_true (exact_setEmpty (Set.sdiff_self)) (.inl h)
  rw [if_neg h, or_iff_right h]
  by_cases hdisj : Disjoint a.points b.points
  · have hpoints : a.points \ b.points = a.points := hdisj.sdiff_eq_left
    refine iff_of_true ?_ (subtractable_of_disjoint ha hb hdisj)
    split_ifs with hca hcb hout
    · exact exact_setEmpty (hpoints.trans (ha.points_eq_empty hca))
    · exact exact_copy ha hpoints.symm
    · exact exact_copy ha hpoints.symm
    · exact (exact_subRegion_iff ha hb hfa hfb hcb).mpr (subtractable_of_disjoint ha hb hdisj)
  · split_ifs with hca hcb hout
    · exact absurd (ha.points_eq_empty hca ▸ Set.empty_disjoint _) hdisj
    · exact absurd (hb.points_eq_empty hcb ▸ Set.disjoint_empty _) hdisj
    · exact absurd ((disjoint_of_intersects (by simpa using hout)).mono ha.points_subset
        hb.points_subset) hdisj
    · exact exact_subRegion_iff ha hb hfa hfb hcb

/-- A rectangle as a region. -/
def ofRect (aRect : NsRect) : Region := ⟨[aRect], 1, aRect⟩

theorem rects_ofRect (aRect : NsRect) : (ofRect aRect).rects = [aRect] := rfl

theorem ofRect_valid {aRect : NsRect} (h : aRect.Solid) : (ofRect aRect).Valid := by
  have hcopy := (copyRect_valid h).1
  rwa [copyRect, if_neg (by simp [solid_iff.mp h])] at hcopy

theorem points_ofRect (aRect : NsRect) : (ofRect aRect).points = aRect.points := by
  simp [points, ofRect]

/-- `SubRect` is `SubRegion` with a region of one rectangle. -/
theorem subRectangle_eq {aRect : NsRect} (hc : a.mRectCount ≠ 0) (hr : ¬ aRect.isEmpty = true)
    (hmeet : aRect.intersects a.mBoundRect = true) :
    subRectangle a aRect =
      if aRect.contains a.mBoundRect then some setEmpty
      else (subRegion false a (ofRect aRect)).map optimize := by
  rw [subRectangle, if_neg hc, if_neg hr, if_neg (by simp [hmeet])]
  by_cases hin : aRect.contains a.mBoundRect = true
  · rw [if_pos hin, if_pos hin]
  · rw [if_neg hin, if_neg hin, subRegion_single (rects_ofRect aRect) rfl hin, Option.map_map]
    rfl

theorem subtractable_ofRect {aRect : NsRect} :
    Subtractable false a (ofRect aRect) ↔
      aRect.contains a.mBoundRect = true ∨ ∀ r ∈ a.rects, ¬ r.Encloses aRect := by
  simp [Subtractable, ofRect, Clear]

theorem subRectangle_iff {aRect : NsRect} (ha : a.Valid) (hfa : a.Fits) (hfit : aRect.Fits) :
    Exact (subRectangle a aRect) (a.points \ aRect.points) ↔
      aRect.isEmpty = true ∨ aRect.contains a.mBoundRect = true ∨
        ∀ r ∈ a.rects, ¬ r.Encloses aRect := by
  by_cases hr : aRect.isEmpty = true
  · rw [subRectangle, points_of_isEmpty hr, Set.sdiff_empty]
    refine iff_of_true ?_ (.inl hr)
    split_ifs with hc
    · exact exact_setEmpty (ha.points_eq_empty hc)
    · exact exact_copy ha rfl
  have hb := ofRect_valid (solid_iff.mpr (by simpa using hr))
  rw [or_iff_right hr, ← subtractable_ofRect, ← points_ofRect]
  by_cases hmeet : a.mRectCount ≠ 0 ∧ aRect.intersects a.mBoundRect = true
  · rw [subRectangle_eq hmeet.1 hr hmeet.2]
    by_cases hin : aRect.contains a.mBoundRect = true
    · have hsub : a.points ⊆ (ofRect aRect).points := by
        rw [points_ofRect]
        exact ha.points_subset.trans (points_subset_of_contains hin)
      rw [if_pos hin]
      exact iff_of_true (exact_setEmpty (Set.sdiff_eq_empty.mpr hsub)) (.inl ⟨rfl, hin⟩)
    · rw [if_neg hin]
      exact exact_subRegion_iff ha hb hfa (by simpa [Fits, ofRect] using hfit) (by simp [ofRect])
  · have hdisj : Disjoint a.points (ofRect aRect).points := by
      rw [points_ofRect]
      by_cases hc : a.mRectCount = 0
      · rw [ha.points_eq_empty hc]
        exact Set.empty_disjoint _
      · exact (disjoint_of_intersects (by simpa [hc] using hmeet)).symm.mono_left ha.points_subset
    have hpoints : a.points \ (ofRect aRect).points = a.points := hdisj.sdiff_eq_left
    refine iff_of_true ?_ (subtractable_of_disjoint ha hb hdisj)
    rw [subRectangle]
    split_ifs with hc hout
    · exact exact_setEmpty (hpoints.trans (ha.points_eq_empty hc))
    · exact exact_copy ha hpoints.symm
    · exact absurd ⟨hc, by simpa using hout⟩ hmeet
    · exact absurd ⟨hc, by simpa using hout⟩ hmeet

/-- Both forms of `Sub` compute the difference exactly where no rectangle of the region is
found around what is to be cut off. -/
theorem sub_exact_iff (ha : a.Valid) (hfa : a.Fits) :
    (∀ (b : Region) (dest : Dest) (same : Bool), b.Valid → b.Fits → (same = true → a = b) →
      (Exact (sub dest same a b) (a.points \ b.points) ↔
        same = true ∨ Subtractable (dest = .second) a b)) ∧
    ∀ aRect : NsRect, aRect.Fits →
      (Exact (subRectangle a aRect) (a.points \ aRect.points) ↔
        aRect.isEmpty = true ∨ aRect.contains a.mBoundRect = true ∨
          ∀ r ∈ a.rects, ¬ r.Encloses aRect) :=
  ⟨fun _ _ _ hb hfb hsame => sub_iff ha hb hfa hfb hsame, fun _ hfit => subRectangle_iff ha hfa hfit⟩

theorem stairs_fits : stairs.Fits := by
  simp [Fits, stairs, NsRect.Fits, yMost, MIN_INT32, MAX_INT32]

theorem columns_fits : columns.Fits := by
  simp [Fits, columns, NsRect.Fits, yMost, MIN_INT32, MAX_INT32]

theorem sub_exact_stairs :
    Exact (sub .other false stairs columns) (stairs.points \ columns.points) ∧
      Exact (subRectangle stairs ⟨1, 1, 4, 4⟩) (stairs.points \ NsRect.points ⟨1, 1, 4, 4⟩) :=
  have h := sub_exact_iff stairs_valid stairs_fits
  ⟨(h.1 columns .other false columns_valid columns_fits (by simp)).mpr
      (.inr (.inr ⟨by decide, by simp⟩)),
    (h.2 ⟨1, 1, 4, 4⟩ (by simp [NsRect.Fits, yMost, MIN_INT32, MAX_INT32])).mpr
      (.inr (.inr (by decide)))⟩

/-- A rectangle inside another one is not cut out of it. -/
theorem not_exact_sub_inner : (ofRect ⟨0, 0, 10, 10⟩).Valid ∧ (ofRect ⟨3, 3, 4, 4⟩).Valid ∧
    ¬ Exact (sub .other false (ofRect ⟨0, 0, 10, 10⟩) (ofRect ⟨3, 3, 4, 4⟩))
      ((ofRect ⟨0, 0, 10, 10⟩).points \ (ofRect ⟨3, 3, 4, 4⟩).points) := by
  have ha : (ofRect ⟨0, 0, 10, 10⟩).Valid := ofRect_valid ⟨by decide, by decide⟩
  have hb : (ofRect ⟨3, 3, 4, 4⟩).Valid := ofRect_valid ⟨by decide, by decide⟩
  have hfa : (ofRect ⟨0, 0, 10, 10⟩).Fits := by
    simp [Fits, ofRect, NsRect.Fits, yMost, MIN_INT32, MAX_INT32]
  have hfb : (ofRect ⟨3, 3, 4, 4⟩).Fits := by
    simp [Fits, ofRect, NsRect.Fits, yMost, MIN_INT32, MAX_INT32]
  refine ⟨ha, hb, ?_⟩
  rw [sub_iff ha hb hfa hfb (by simp)]
  rintro (h | h | h)
  · cases h
  · exact absurd h.2 (by decide)
  · exact absurd h.1 (by decide)

end Region

end Kompozer.Gfx

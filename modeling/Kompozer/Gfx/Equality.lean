import Kompozer.Gfx.Union

/-! `IsEqual` compares two regions through their symmetric difference. Where `SubRect` leaves a
rectangle of both regions behind, the difference of two regions of the same points is not empty,
and they are taken for different. -/

namespace Kompozer.Gfx

open NsRect

/-! ### The model -/

/-- `IsEqual`; `same` says that the two regions are one object. -/
def Region.isEqual (same : Bool) (rgn aRegion : Region) : Option Bool :=
  if rgn.mRectCount = 0 then some (decide (aRegion.mRectCount = 0))
  else if aRegion.mRectCount = 0 then some (decide (rgn.mRectCount = 0))
  else match rgn.rects, aRegion.rects with
    | first1 :: _, first2 :: _ =>
      if rgn.mRectCount = 1 ∧ aRegion.mRectCount = 1 then some (first1.eq first2)
      else if !(rgn.mBoundRect.eq aRegion.mBoundRect) then some false
      else (Region.xor .other 0 same rgn aRegion).map fun tmpRegion =>
        decide (tmpRegion.mRectCount = 0)
    | _, _ => none

/-! ### Every insertion ends -/

namespace Chain

theorem exists_insertInPlace {r : NsRect} (hmin : MIN_INT32 < r.y) (hmax : r.y < MAX_INT32)
    (c : Chain) : ∃ c', c.insertInPlace r = some c' := by
  have hrows : decide (r.y > (listHead MAX_INT32).y) = false := decide_eq_false hmax.le.not_gt
  have hrow : decide (r.y = (listHead MAX_INT32).y ∧ r.x > (listHead MAX_INT32).x) = false :=
    decide_eq_false fun h => hmax.ne h.1
  have hrows' : decide (r.y < (listHead MIN_INT32).y) = false := decide_eq_false hmin.le.not_gt
  have hrow' : decide (r.y = (listHead MIN_INT32).y ∧ r.x < (listHead MIN_INT32).x) = false :=
    decide_eq_false fun h => hmin.ne' h.1
  rw [insertInPlace]
  split_ifs
  · obtain ⟨c₁, -, h₁, -⟩ := forward_spec (fun next => decide (r.y > next.y)) (listHead MAX_INT32)
      hrows c.prevs c.mCurRect c.nexts
    obtain ⟨c₂, -, h₂, -⟩ := forward_spec (fun next => decide (r.y = next.y ∧ r.x > next.x))
      (listHead MAX_INT32) hrow c₁.prevs c₁.mCurRect c₁.nexts
    exact ⟨c₂.insertAfter r, by rw [h₁, Option.bind_eq_bind, Option.bind_some, h₂]; rfl⟩
  · obtain ⟨c₁, -, h₁, -⟩ := backward_spec (fun prev => decide (r.y < prev.y)) (listHead MIN_INT32)
      hrows' c.prevs c.mCurRect c.nexts
    obtain ⟨c₂, -, h₂, -⟩ := backward_spec (fun prev => decide (r.y = prev.y ∧ r.x < prev.x))
      (listHead MIN_INT32) hrow' c₁.prevs c₁.mCurRect c₁.nexts
    exact ⟨c₂.insertBefore r, by rw [h₁, Option.bind_eq_bind, Option.bind_some, h₂]; rfl⟩
  · obtain ⟨c₁, -, h₁, -⟩ := forward_spec (fun next => decide (r.y = next.y ∧ r.x > next.x))
      (listHead MAX_INT32) hrow c.prevs c.mCurRect c.nexts
    exact ⟨c₁.insertAfter r, by rw [h₁]; rfl⟩
  · obtain ⟨c₁, -, h₁, -⟩ := backward_spec (fun prev => decide (r.y = prev.y ∧ r.x < prev.x))
      (listHead MIN_INT32) hrow' c.prevs c.mCurRect c.nexts
    exact ⟨c₁.insertBefore r, by rw [h₁]; rfl⟩

end Chain

theorem Usable.lt_max {r : NsRect} (hr : Usable r) : r.y < MAX_INT32 := by
  obtain ⟨⟨-, hheight⟩, -, hmax⟩ := hr
  simp only [yMost] at hmax
  omega

namespace Building
variable {b : Building} {r : NsRect}

theorem exists_insertInPlace (hb : b.Counted) (hr : Usable r) :
    ∃ b', b.insertInPlace r = some b' := by
  rw [insertInPlace]
  split_ifs with hc
  · exact ⟨_, rfl⟩
  · cases hchain : b.chain with
    | none => exact absurd (hb.trans (by rw [rects, hchain]; rfl)) hc
    | some c =>
      obtain ⟨c', hc'⟩ := c.exists_insertInPlace hr.2.1 hr.lt_max
      exact ⟨⟨some c', b.mRectCount + 1⟩, by rw [Option.bind_eq_bind, Option.bind_some, hc']; rfl⟩

theorem exists_moveInto {l : List NsRect} (hb : b.Counted) (hl : ∀ r ∈ l, Usable r) :
    ∃ b', b.moveInto l = some b' := by
  induction l generalizing b with
  | nil => exact ⟨b, rfl⟩
  | cons r l ih =>
    obtain ⟨hr, hl⟩ := List.forall_mem_cons.mp hl
    obtain ⟨b₁, h₁⟩ := exists_insertInPlace hb hr
    obtain ⟨b', h'⟩ := ih (insertInPlace_perm hb h₁).1 hl
    exact ⟨b', by rw [moveInto, h₁]; exact h'⟩

end Building

namespace Sinks
variable {s : Sinks}

theorem exists_put {e : Bool × NsRect} (hs : s.Counted) (he : Usable e.2) :
    ∃ s', s.put e = some s' := by
  obtain ⟨done, r⟩ := e
  have hresult : ∃ s', s.insertResult r = some s' := by
    obtain ⟨b, hb⟩ := Building.exists_insertInPlace hs.result he
    exact ⟨_, by rw [insertResult, hb]; rfl⟩
  cases done with
  | false => exact hresult
  | true =>
    rw [put_true, insertCompleted]
    cases hc : s.aCompleted with
    | none => exact hresult
    | some c =>
      obtain ⟨c', hc'⟩ := Building.exists_insertInPlace (hs.completed c hc) he
      exact ⟨_, by dsimp only; rw [hc']; rfl⟩

theorem exists_putAll {l : List (Bool × NsRect)} (hs : s.Counted) (hl : ∀ e ∈ l, Usable e.2) :
    ∃ s', s.putAll l = some s' := by
  induction l generalizing s with
  | nil => exact ⟨s, rfl⟩
  | cons e l ih =>
    obtain ⟨he, hl⟩ := List.forall_mem_cons.mp hl
    obtain ⟨s₁, h₁⟩ := exists_put hs he
    obtain ⟨s', h'⟩ := ih (put_perm hs h₁).1 hl
    exact ⟨s', by rw [putAll, h₁]; exact h'⟩

end Sinks

section Steps
variable {b : NsRect} {src m : List NsRect} {s : Sinks} {c : Option Building}

theorem exists_subRect (freed : Bool) (hsrc : ∀ r ∈ src, Usable r) (hb : Usable b)
    (hc : ∀ d ∈ c, d.Counted) : ∃ s', subRect freed b src c = some s' := by
  rw [subRect_eq_putAll hsrc hb]
  exact Sinks.exists_putAll (s := ⟨.empty, c⟩) ⟨rfl, hc⟩ (usable_of_plan hsrc)

theorem Sound.exists_subRects (h : Sound s) (hm : ∀ r ∈ m, Usable r) :
    ∃ s', subRects m s = some s' := by
  induction m generalizing s with
  | nil => exact ⟨s, rfl⟩
  | cons b m ih =>
    obtain ⟨hb, hm⟩ := List.forall_mem_cons.mp hm
    have hsrc : ∀ r ∈ s.aResult.rects, Usable r := fun r hr =>
      h.usable r (List.mem_append_left _ hr)
    obtain ⟨s₁, h₁⟩ := exists_subRect false hsrc hb h.counted.completed
    have hsound := Sound.step hsrc hb h.counted.completed
      (fun r hr => h.usable r (List.mem_append_right _ hr)) h₁
    obtain ⟨s', h'⟩ := ih hsound hm
    exact ⟨s', by rw [subRects, h₁]; exact h'⟩

end Steps

namespace Region
variable {a b : Region}

theorem Valid.sound (ha : a.Valid) (hfa : a.Fits) : Sound a.start :=
  ⟨(ha.ready hfa []).good.counted, (ha.ready hfa []).usable⟩

theorem exists_subRegion (ha : a.Valid) (hb : b.Valid) (hfa : a.Fits) (hfb : b.Fits)
    (hcb : b.mRectCount ≠ 0) : ∃ r, subRegion false a b = some r := by
  by_cases hc : b.mRectCount = 1
  · obtain ⟨first, hrects⟩ := exists_single hb hc
    by_cases hin : b.mBoundRect.contains a.mBoundRect = true
    · obtain ⟨r, hr, -⟩ := @subRegion_good a b false ha hb hfa hfb hcb (.inl ⟨hc, hin⟩)
      exact ⟨r, hr⟩
    · have hfirst : Usable first := hb.usable hfb first (by simp [hrects])
      obtain ⟨s, hs⟩ := exists_subRect (c := none) false (ha.usable hfa) hfirst (by simp)
      exact ⟨s.aResult, by rw [subRegion_single hrects hc hin, hs]; rfl⟩
  · have hne : b.rects ≠ [] := fun hnil => hcb (hb.count.trans (by rw [hnil]; rfl))
    have hsound := ha.sound hfa
    obtain ⟨s, hs⟩ := hsound.exists_subRects (hb.usable hfb)
    obtain ⟨hsound', -⟩ := hsound.run (hb.usable hfb) hs
    obtain ⟨r, hr⟩ := Building.exists_moveInto hsound'.counted.result
      fun q hq => hsound'.usable q (List.mem_append_right _ hq)
    exact ⟨r, by rw [subRegion_eq hc hne, hs]; exact hr⟩

/-! ### The empty difference -/

theorem Valid.mRectCount_eq_zero_iff (ha : a.Valid) : a.mRectCount = 0 ↔ a.points = ∅ := by
  refine ⟨ha.points_eq_empty, fun h => ?_⟩
  rw [ha.count, List.length_eq_zero_iff, List.eq_nil_iff_forall_not_mem]
  intro r hr
  have hcorner : (r.x, r.y) ∈ a.points := subset_cover hr (ha.solid r hr).corner_mem
  rw [h] at hcorner
  exact hcorner

theorem mRectCount_optimize {d : Building} (hc : d.Counted) (hs : ∀ r ∈ d.rects, r.Solid)
    {q : ℤ × ℤ} (hq : q ∈ cover NsRect.points d.rects) : (optimize d).mRectCount ≠ 0 := by
  rw [optimize]
  split_ifs with h
  · rw [List.eq_nil_of_length_eq_zero (hc.symm.trans h)] at hq
    simp at hq
  · split
    · rename_i hnil
      rw [hnil] at hq
      simp at hq
    · rename_i first rest hrects
      obtain ⟨p, l, hl, -⟩ := (combine_joined false first rest (hrects ▸ hs)).corner
      have hlength := (combine_joined false first rest (hrects ▸ hs)).length_le
      rw [hl] at hlength ⊢
      rw [hc, hrects]
      simp only [List.length_cons] at hlength ⊢
      omega

/-- A point of both regions is left by a subtraction that goes wrong. -/
theorem mRectCount_subRegion {r : Building} (ha : a.Valid) (hb : b.Valid) (hfa : a.Fits)
    (hfb : b.Fits) (hcb : b.mRectCount ≠ 0) (h : ¬ Subtractable false a b)
    (hr : subRegion false a b = some r) : (optimize r).mRectCount ≠ 0 := by
  obtain ⟨hcount, husable, q, -, hq⟩ := subRegion_spoilt ha hb hfa hfb hcb h hr
  exact mRectCount_optimize hcount (fun s hs => (husable s hs).1) hq

/-- The difference is empty when the regions have the same points and each can be subtracted
from the other. -/
theorem xor_mRectCount (ha : a.Valid) (hb : b.Valid) (hfa : a.Fits) (hfb : b.Fits)
    (hca : a.mRectCount ≠ 0) (hcb : b.mRectCount ≠ 0) :
    ∃ c, xor .other 0 false a b = some c ∧ (c.mRectCount = 0 ↔
      a.points = b.points ∧ Subtractable false a b ∧ Subtractable false b a) := by
  by_cases hboth : Subtractable false a b ∧ Subtractable false b a
  · have hexact : Exact (xor .other 0 false a b) (symmDiff a.points b.points) :=
      (xor_iff ha hb hfa hfb (by simp)).mpr (.inr hboth)
    obtain ⟨c, hc, hvalid, hpoints⟩ := hexact
    refine ⟨c, hc, ?_⟩
    rw [hvalid.mRectCount_eq_zero_iff, hpoints, and_iff_left hboth]
    exact symmDiff_eq_bot
  · suffices h : ∃ c, xor .other 0 false a b = some c ∧ c.mRectCount ≠ 0 by
      obtain ⟨c, hc, hcount⟩ := h
      exact ⟨c, hc, iff_of_false hcount fun h => hboth h.2⟩
    obtain ⟨r, hr⟩ := exists_subRegion ha hb hfa hfb hcb
    obtain ⟨d, hd⟩ := exists_subRegion hb ha hfb hfa hca
    rw [xor, if_neg (by simp), if_neg hca, if_neg hcb]
    split_ifs with hout h₁ h₂
    · have hdisj : Disjoint a.points b.points :=
        (disjoint_of_intersects (by simpa using hout)).mono ha.points_subset hb.points_subset
      exact absurd ⟨subtractable_of_disjoint ha hb hdisj, subtractable_of_disjoint hb ha hdisj.symm⟩
        hboth
    · have h : ¬ Subtractable false a b := fun h =>
        hboth ⟨h, subtractable_of_inside h₁.1 h₁.2⟩
      exact ⟨optimize r, congrArg (Option.map optimize) hr,
        mRectCount_subRegion ha hb hfa hfb hcb h hr⟩
    · have h : ¬ Subtractable false b a := fun h =>
        hboth ⟨subtractable_of_inside h₂.1 h₂.2, h⟩
      exact ⟨optimize d, congrArg (Option.map optimize) hd,
        mRectCount_subRegion hb ha hfb hfa hca h hd⟩
    · obtain ⟨hrc, hru⟩ := subRegion_sound ha hb hfa hfb hcb hr
      obtain ⟨hdc, hdu⟩ := subRegion_sound hb ha hfb hfa hca hd
      obtain ⟨e, he⟩ := Building.exists_moveInto hdc hru
      obtain ⟨hec, hperm⟩ := Building.moveInto_perm hdc he
      have hsolid : ∀ q ∈ e.rects, q.Solid := by
        intro q hq
        rcases List.mem_append.mp (hperm.mem_iff.mp hq) with hq | hq
        · exact (hru q hq).1
        · exact (hdu q hq).1
      -- one of the two subtractions leaves a point that it should not
      have hleft : ∃ q, q ∈ cover NsRect.points e.rects := by
        rw [cover_perm hperm, cover_append]
        rcases not_and_or.mp hboth with h | h
        · obtain ⟨-, -, q, -, hq⟩ := subRegion_spoilt ha hb hfa hfb hcb h hr
          exact ⟨q, .inl hq⟩
        · obtain ⟨-, -, q, -, hq⟩ := subRegion_spoilt hb ha hfb hfa hca h hd
          exact ⟨q, .inr hq⟩
      obtain ⟨q, hq⟩ := hleft
      refine ⟨optimize e, ?_, mRectCount_optimize hec hsolid hq⟩
      have hd' : subRegion (decide False) b a = some d := hd
      simp only [hr, hd', he, Option.bind_eq_bind, Option.bind_some]

/-! ### Equality -/

theorem Tight.unique {l : List NsRect} {bound bound' : NsRect} (h : Tight bound l)
    (h' : Tight bound' l) : bound = bound' := by
  by_cases hnil : l = []
  · rw [Tight, if_pos hnil] at h h'
    rw [h, h']
  · rw [Tight, if_neg hnil] at h h'
    obtain ⟨hin, ⟨rx, hrx, hx⟩, ⟨ry, hry, hy⟩, ⟨rxm, hrxm, hxm⟩, ⟨rym, hrym, hym⟩⟩ := h
    obtain ⟨hin', ⟨sx, hsx, hx'⟩, ⟨sy, hsy, hy'⟩, ⟨sxm, hsxm, hxm'⟩, ⟨sym, hsym, hym'⟩⟩ := h'
    have h₁ := contains_iff.mp (hin sx hsx)
    have h₂ := contains_iff.mp (hin sy hsy)
    have h₃ := contains_iff.mp (hin sxm hsxm)
    have h₄ := contains_iff.mp (hin sym hsym)
    have h₁' := contains_iff.mp (hin' rx hrx)
    have h₂' := contains_iff.mp (hin' ry hry)
    have h₃' := contains_iff.mp (hin' rxm hrxm)
    have h₄' := contains_iff.mp (hin' rym hrym)
    simp only [xMost, yMost] at *
    rw [NsRect.mk.injEq]
    omega

theorem mBoundRect_eq (ha : a.Valid) (hb : b.Valid) (h : a.points = b.points) :
    a.mBoundRect = b.mBoundRect :=
  (ha.tight.congr ha.solid hb.solid h).unique hb.tight

/-- Where the answer of `IsEqual` is right. -/
theorem isEqual_exact_iff {same : Bool} (ha : a.Valid) (hb : b.Valid) (hfa : a.Fits) (hfb : b.Fits)
    (hsame : same = true → a = b) :
    (∃ v, isEqual same a b = some v ∧ (v = true ↔ a.points = b.points)) ↔
      same = true ∨ a.points ≠ b.points ∨ Subtractable false a b ∧ Subtractable false b a := by
  have hboth : Disjoint a.points b.points →
      Subtractable false a b ∧ Subtractable false b a := fun hd =>
    ⟨subtractable_of_disjoint ha hb hd, subtractable_of_disjoint hb ha hd.symm⟩
  rw [isEqual]
  by_cases hca : a.mRectCount = 0
  · have hpoints := ha.points_eq_empty hca
    rw [if_pos hca]
    refine iff_of_true ⟨_, rfl, ?_⟩ (.inr (.inr (hboth (hpoints ▸ Set.empty_disjoint _))))
    rw [decide_eq_true_iff, hb.mRectCount_eq_zero_iff, hpoints, eq_comm]
  rw [if_neg hca]
  by_cases hcb : b.mRectCount = 0
  · have hpoints := hb.points_eq_empty hcb
    rw [if_pos hcb]
    refine iff_of_true ⟨_, rfl, ?_⟩ (.inr (.inr (hboth (hpoints ▸ Set.disjoint_empty _))))
    rw [decide_eq_true_iff, ha.mRectCount_eq_zero_iff, hpoints]
  rw [if_neg hcb]
  obtain ⟨first1, rest1, ea⟩ := List.exists_cons_of_ne_nil (l := a.rects) fun hnil =>
    hca (ha.count.trans (by rw [hnil]; rfl))
  obtain ⟨first2, rest2, eb⟩ := List.exists_cons_of_ne_nil (l := b.rects) fun hnil =>
    hcb (hb.count.trans (by rw [hnil]; rfl))
  rw [ea, eb]
  dsimp only
  by_cases hone : a.mRectCount = 1 ∧ b.mRectCount = 1
  · have hbound : ∀ {c : Region}, c.Valid → c.mRectCount = 1 → ∀ {r l}, c.rects = r :: l →
        c.mBoundRect = r ∧ c.points = r.points := by
      intro c hc hcount r l hrects
      obtain ⟨first, hsingle⟩ := exists_single hc hcount
      obtain ⟨rfl, rfl⟩ := List.cons.inj (hrects.symm.trans hsingle)
      refine ⟨?_, by simp [points, hsingle]⟩
      have hr : (ofRect r).Valid := ofRect_valid (hc.solid r (by simp [hsingle]))
      exact mBoundRect_eq hc hr (by simp [points, hsingle, ofRect])
    obtain ⟨hba, hpa⟩ := hbound ha hone.1 ea
    obtain ⟨hbb, hpb⟩ := hbound hb hone.2 eb
    have heq : first1.eq first2 = true ↔ a.points = b.points := by
      have hsolid := solid_iff.mp (ha.solid first1 (by simp [ea]))
      rw [eq, hsolid, Bool.false_and, Bool.false_or, decide_eq_true_iff]
      refine ⟨fun h => by rw [hpa, hpb, h], fun h => ?_⟩
      rw [← hba, ← hbb]
      exact mBoundRect_eq ha hb h
    rw [if_pos hone]
    refine iff_of_true ⟨_, rfl, heq⟩ (.inr ?_)
    by_cases h : a.points = b.points
    · have hsides := mBoundRect_eq ha hb h
      refine .inr ⟨subtractable_of_inside hone.2 ?_, subtractable_of_inside hone.1 ?_⟩
      · rw [hsides]
        exact contains_refl _
      · rw [hsides]
        exact contains_refl _
    · exact .inl h
  rw [if_neg hone]
  have hbound : a.mBoundRect.eq b.mBoundRect = true ↔ a.mBoundRect = b.mBoundRect := by
    have hsolid : a.mBoundRect.isEmpty = false := by
      rw [← Bool.not_eq_true]
      intro hempty
      have hcorner := (ha.solid first1 (by simp [ea])).corner_mem
      have hin := ha.points_subset (subset_cover (by simp [ea]) hcorner)
      rw [points_of_isEmpty hempty] at hin
      exact hin
    rw [eq, hsolid, Bool.false_and, Bool.false_or, decide_eq_true_iff]
  by_cases hdiff : (!a.mBoundRect.eq b.mBoundRect) = true
  · have hne : a.points ≠ b.points := fun h => by
      rw [hbound.mpr (mBoundRect_eq ha hb h)] at hdiff
      exact absurd hdiff (by simp)
    rw [if_pos hdiff]
    exact iff_of_true ⟨_, rfl, iff_of_false (by simp) hne⟩ (.inr (.inl hne))
  rw [if_neg hdiff]
  cases same with
  | true =>
    refine iff_of_true ⟨true, ?_, ?_⟩ (.inl rfl)
    · rfl
    · rw [hsame rfl]
      simp
  | false =>
    obtain ⟨c, hc, hcount⟩ := xor_mRectCount ha hb hfa hfb hca hcb
    rw [hc, or_iff_right (by simp)]
    have hv : ∀ v, Option.map (fun tmpRegion : Region => decide (tmpRegion.mRectCount = 0))
        (some c) = some v ↔ (v = true ↔ c.mRectCount = 0) := by
      intro v
      rw [Option.map_some, Option.some.injEq]
      cases v <;> simp
    simp only [hv]
    constructor
    · rintro ⟨v, hv, hright⟩
      by_contra h
      rw [not_or, not_not] at h
      exact h.2 (hcount.mp (hv.mp (hright.mpr h.1))).2
    · intro h
      refine ⟨decide (c.mRectCount = 0), decide_eq_true_iff, ?_⟩
      rw [decide_eq_true_iff, hcount]
      rcases h with h | h
      · exact iff_of_false (fun h' => h h'.1) h
      · exact and_iff_left h

/-- A square cut into two rows, and the same square cut into two columns. -/
def halves : Region := ⟨[⟨0, 0, 4, 2⟩, ⟨0, 2, 4, 2⟩], 2, ⟨0, 0, 4, 4⟩⟩

def sides : Region := ⟨[⟨0, 0, 2, 4⟩, ⟨2, 0, 2, 4⟩], 2, ⟨0, 0, 4, 4⟩⟩

theorem halves_valid : halves.Valid where
  solid := by simp [halves, Solid]
  apart := by
    have h := disjoint_of_intersects (r := ⟨0, 0, 4, 2⟩) (s := ⟨0, 2, 4, 2⟩) (by decide)
    simp [halves, Apart, h]
  sorted := by simp [halves, Sorted, Before]
  count := rfl
  tight := by simp [Tight, halves, contains_iff, xMost, yMost]

theorem sides_valid : sides.Valid where
  solid := by simp [sides, Solid]
  apart := by
    have h := disjoint_of_intersects (r := ⟨0, 0, 2, 4⟩) (s := ⟨2, 0, 2, 4⟩) (by decide)
    simp [sides, Apart, h]
  sorted := by simp [sides, Sorted, Before]
  count := rfl
  tight := by simp [Tight, sides, contains_iff, xMost, yMost]

theorem isEqual_exact_halves :
    ∃ v, isEqual false halves sides = some v ∧ (v = true ↔ halves.points = sides.points) :=
  (isEqual_exact_iff halves_valid sides_valid
      (by simp [Fits, halves, NsRect.Fits, yMost, MIN_INT32, MAX_INT32])
      (by simp [Fits, sides, NsRect.Fits, yMost, MIN_INT32, MAX_INT32]) (by simp)).mpr
    (.inr (.inr ⟨.inr ⟨by decide, by simp⟩, .inr ⟨by decide, by simp⟩⟩))

example : isEqual false halves sides = some true := by decide

/-- Three rectangles in steps are not found equal to a copy. -/
theorem not_isEqual_stairs : stairs.Valid ∧
    ¬ (isEqual false stairs stairs = some true ↔ stairs.points = stairs.points) :=
  ⟨stairs_valid, fun h => absurd (h.mpr rfl) (by decide)⟩

end Region

end Kompozer.Gfx

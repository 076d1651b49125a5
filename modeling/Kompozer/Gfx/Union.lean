import Kompozer.Gfx.Subtraction

/-! `Or` and `Xor` subtract one operand from the other and put the rest back. They are
exact where the subtractions are; where one of them leaves a rectangle of both operands
behind, `Or` covers its points twice and `Xor` covers points that it should not. -/

namespace Kompozer.Gfx

open NsRect

/-! ### The model -/

/-- `nsRectFast::UnionRect`. -/
def NsRect.unionRect (aRect1 aRect2 : NsRect) : NsRect :=
  let xmost := max aRect1.xMost aRect2.xMost
  let ymost := max aRect1.yMost aRect2.yMost
  let x := min aRect1.x aRect2.x
  let y := min aRect1.y aRect2.y
  ⟨x, y, xmost - x, ymost - y⟩

namespace Region

/-- The two loops at the end of `InsertInPlace`, from `mCurRect` on. -/
def join (below : Bool) (mCurRect : NsRect) : List NsRect → NsRect × List NsRect
  | [] => (mCurRect, [])
  | next :: rest =>
    if !below && joinsRight mCurRect next then
      join false { mCurRect with width := mCurRect.width + next.width } rest
    else if joinsBelow mCurRect next then
      join true { mCurRect with height := mCurRect.height + next.height } rest
    else (mCurRect, next :: rest)

/-- The rectangles after `aOptimizeOnFly`, which goes left or up at most once. No
rectangle joins the list head. -/
def joinAround (c : Chain) : List NsRect :=
  match c.prevs with
  | [] =>
    let (cur, nexts) := join false c.mCurRect c.nexts
    cur :: nexts
  | prev :: prevs =>
    if joinsRight prev c.mCurRect || joinsBelow prev c.mCurRect then
      let (cur, nexts) := join false prev (c.mCurRect :: c.nexts)
      prevs.reverse ++ cur :: nexts
    else
      let (cur, nexts) := join false c.mCurRect c.nexts
      c.prevs.reverse ++ cur :: nexts

/-- `InsertInPlace` with `aOptimizeOnFly`. -/
def insertOptimized (aRect mBoundRect : NsRect) (b : Building) : Option Region := do
  let b ← b.insertInPlace aRect
  let c ← b.chain
  if b.mRectCount = 1 then some ⟨c.rects, 1, c.mCurRect⟩
  else
    let rects := joinAround c
    -- every `Remove` takes one off the count
    some ⟨rects, b.mRectCount - (c.rects.length - rects.length), mBoundRect.unionRect c.mCurRect⟩

/-- The rectangles of a region to which others are added, `mCurRect` standing at one of
them. -/
def building (cur : ℕ) (a : Region) : Building :=
  ⟨match a.rects.drop (cur % a.rects.length) with
    | [] => none
    | r :: rest => some ⟨(a.rects.take (cur % a.rects.length)).reverse, r, rest⟩, a.mRectCount⟩

/-- `Copy` of an operand. Where the operand is the destination nothing happens, and
`mCurRect` stays where it was; elsewhere it is at the first rectangle. -/
def copied (self : Bool) (cur : ℕ) (a : Region) : Building := a.building (if self then cur else 0)

/-- `Merge` of two regions that are not empty. -/
def merge (dest : Dest) (cur : ℕ) (aRgn1 aRgn2 : Region) : Option Region :=
  match aRgn1.rects, aRgn2.rects with
  | first1 :: _, first2 :: _ =>
    if aRgn1.mRectCount = 1 then
      insertOptimized first1 aRgn2.mBoundRect (copied (dest = .second) cur aRgn2)
    else if aRgn2.mRectCount = 1 then
      insertOptimized first2 aRgn1.mBoundRect (copied (dest = .first) cur aRgn1)
    else
      -- the larger region is copied, unless the smaller one is the destination
      let larger := if aRgn1.mRectCount ≥ aRgn2.mRectCount then aRgn1 else aRgn2
      let smaller := if aRgn1.mRectCount ≥ aRgn2.mRectCount then aRgn2 else aRgn1
      let here := if aRgn1.mRectCount ≥ aRgn2.mRectCount then Dest.first else .second
      let there := if aRgn1.mRectCount ≥ aRgn2.mRectCount then Dest.second else .first
      if dest = there then ((copied true cur smaller).moveInto larger.rects).map optimize
      else ((copied (dest = here) cur larger).moveInto smaller.rects).map optimize
  | _, _ => none

/-- `Or` of two regions. -/
def or (dest : Dest) (cur : ℕ) (same : Bool) (aRgn1 aRgn2 : Region) : Option Region :=
  if same then some (copy aRgn1)
  else if aRgn1.mRectCount = 0 then some (copy aRgn2)
  else if aRgn2.mRectCount = 0 then some (copy aRgn1)
  else if !aRgn1.mBoundRect.intersects aRgn2.mBoundRect then merge dest cur aRgn1 aRgn2
  else if aRgn1.mRectCount = 1 ∧ aRgn1.mBoundRect.contains aRgn2.mBoundRect then
    some (copy aRgn1)
  else if aRgn2.mRectCount = 1 ∧ aRgn2.mBoundRect.contains aRgn1.mBoundRect then
    some (copy aRgn2)
  else do
    let tmpRegion ← subRegion false aRgn1 aRgn2
    let b ← (copied (dest = .second) cur aRgn2).moveInto tmpRegion.rects
    some (optimize b)

/-- `Or` of a region and a rectangle; `self` says that the region is the destination. -/
def orRect (self : Bool) (cur : ℕ) (aRegion : Region) (aRect : NsRect) : Option Region :=
  if aRegion.mRectCount = 0 then some (copyRect aRect)
  else if aRect.isEmpty then some (copy aRegion)
  else if !aRect.intersects aRegion.mBoundRect then
    insertOptimized aRect aRegion.mBoundRect (copied self cur aRegion)
  else if aRegion.mRectCount = 1 ∧ aRegion.mBoundRect.contains aRect then some (copy aRegion)
  else if aRect.contains aRegion.mBoundRect then some (copyRect aRect)
  else do
    let s ← subRect false aRect aRegion.rects none
    let b ← s.aResult.insertInPlace aRect
    some (optimize b)

/-- `Xor` of two regions. -/
def xor (dest : Dest) (cur : ℕ) (same : Bool) (aRgn1 aRgn2 : Region) : Option Region :=
  if same then some setEmpty
  else if aRgn1.mRectCount = 0 then some (copy aRgn2)
  else if aRgn2.mRectCount = 0 then some (copy aRgn1)
  else if !aRgn1.mBoundRect.intersects aRgn2.mBoundRect then merge dest cur aRgn1 aRgn2
  else if aRgn1.mRectCount = 1 ∧ aRgn1.mBoundRect.contains aRgn2.mBoundRect then
    (subRegion (dest = .second) aRgn1 aRgn2).map optimize
  else if aRgn2.mRectCount = 1 ∧ aRgn2.mBoundRect.contains aRgn1.mBoundRect then
    (subRegion (dest = .first) aRgn2 aRgn1).map optimize
  else do
    let tmpRegion ← subRegion false aRgn1 aRgn2
    let b ← subRegion (dest = .first) aRgn2 aRgn1
    let b ← b.moveInto tmpRegion.rects
    some (optimize b)

/-- `Xor` of a region and a rectangle. -/
def xorRect (self : Bool) (cur : ℕ) (aRegion : Region) (aRect : NsRect) : Option Region :=
  if aRegion.mRectCount = 0 then some (copyRect aRect)
  else if aRect.isEmpty then some (copy aRegion)
  else if !aRect.intersects aRegion.mBoundRect then
    insertOptimized aRect aRegion.mBoundRect (copied self cur aRegion)
  else if aRegion.mRectCount = 1 ∧ aRegion.mBoundRect.contains aRect then
    (subRect false aRect aRegion.rects none).map fun s => optimize s.aResult
  else if aRect.contains aRegion.mBoundRect then
    (subRegion self (ofRect aRect) aRegion).map optimize
  else do
    let tmpRegion ← subRegion false (ofRect aRect) aRegion
    let s ← subRect false aRect aRegion.rects none
    let b ← s.aResult.moveInto tmpRegion.rects
    some (optimize b)

/-! ### Optimizing on the fly -/

variable {a b : Region} {p : NsRect} {rest : List NsRect}

theorem Joined.refl (hs : ∀ r ∈ p :: rest, r.Solid) : Joined p rest (p :: rest) := by
  induction rest generalizing p with
  | nil => exact .single p (hs p (by simp))
  | cons next rest ih =>
    exact .keep p next rest _ (hs p (by simp)) (ih fun r hr => hs r (by simp [hr]))

theorem join_joined (below : Bool) (hs : ∀ r ∈ p :: rest, r.Solid) :
    Joined p rest ((join below p rest).1 :: (join below p rest).2) := by
  induction rest generalizing below p with
  | nil => exact .single p (hs p (by simp))
  | cons next rest ih =>
    obtain ⟨hp, hn, hrest⟩ : p.Solid ∧ next.Solid ∧ ∀ r ∈ rest, r.Solid := by simpa using hs
    rw [join]
    split_ifs with h₁ h₂
    · exact .widen hp hn (Bool.and_eq_true_iff.mp h₁).2
        (ih false (List.forall_mem_cons.mpr ⟨solid_widen hp hn, hrest⟩))
    · exact .heighten hp hn h₂ (ih true (List.forall_mem_cons.mpr ⟨solid_heighten hp hn, hrest⟩))
    · exact Joined.refl hs

/-- The rectangles in front of those that are joined stay as they are. -/
theorem joinAround_joined {c : Chain} (hs : ∀ r ∈ c.rects, r.Solid) : ∃ A p rest l,
    c.rects = A ++ p :: rest ∧ Joined p rest l ∧ joinAround c = A ++ l := by
  obtain ⟨prevs, cur, nexts⟩ := c
  rw [joinAround]
  cases prevs with
  | nil => exact ⟨[], cur, nexts, _, rfl, join_joined false hs, rfl⟩
  | cons prev prevs =>
    have hrects : Chain.rects ⟨prev :: prevs, cur, nexts⟩ =
        prevs.reverse ++ prev :: cur :: nexts := by simp [Chain.rects]
    dsimp only
    split_ifs
    · refine ⟨prevs.reverse, prev, cur :: nexts, _, hrects, join_joined false fun r hr => ?_, rfl⟩
      exact hs r (hrects ▸ List.mem_append_right _ hr)
    · refine ⟨(prev :: prevs).reverse, cur, nexts, _, rfl, join_joined false fun r hr => ?_, rfl⟩
      exact hs r (List.mem_append_right _ hr)

namespace Joined
variable {A l : List NsRect}

theorem append_sorted (h : Joined p rest l) (hs : Sorted (A ++ p :: rest)) : Sorted (A ++ l) := by
  obtain ⟨hA, hp, hcross⟩ := List.pairwise_append.mp hs
  refine List.pairwise_append.mpr ⟨hA, h.sorted hp, fun r hr s hs => ?_⟩
  obtain ⟨q, qs, rfl, hqx, hqy, hqs⟩ := h.corner
  rcases List.mem_cons.mp hs with rfl | hs
  · rw [Before, hqx, hqy]
    exact hcross r hr p (by simp)
  · obtain ⟨t, ht, hx, hy⟩ := hqs s hs
    rw [Before, ← hx, ← hy]
    exact hcross r hr t (by simp [ht])

theorem append_apart (h : Joined p rest l) (ha : Apart NsRect.points (A ++ p :: rest)) :
    Apart NsRect.points (A ++ l) := by
  obtain ⟨hA, hp, hcross⟩ := List.pairwise_append.mp ha
  refine List.pairwise_append.mpr ⟨hA, h.apart hp, fun r hr s hs => ?_⟩
  have hd : Disjoint r.points (cover NsRect.points (p :: rest)) := disjoint_cover fun t ht =>
    hcross r hr t ht
  rw [← h.cover_eq] at hd
  exact hd.mono_right (subset_cover hs)

theorem append_cover (h : Joined p rest l) :
    cover NsRect.points (A ++ l) = cover NsRect.points (A ++ p :: rest) := by
  rw [cover_append, cover_append, h.cover_eq]

theorem append_solid (h : Joined p rest l) (hs : ∀ r ∈ A ++ p :: rest, r.Solid) :
    ∀ r ∈ A ++ l, r.Solid := by
  intro r hr
  rcases List.mem_append.mp hr with hr | hr
  · exact hs r (List.mem_append_left _ hr)
  · exact h.solid r hr

end Joined

/-! ### Bounding rectangles -/

/-- The sides of the bounding rectangle are determined by the points. -/
theorem Tight.congr {bound : NsRect} {l l' : List NsRect} (h : Tight bound l)
    (hs : ∀ r ∈ l, r.Solid) (hs' : ∀ r ∈ l', r.Solid)
    (heq : cover NsRect.points l = cover NsRect.points l') : Tight bound l' := by
  by_cases hnil : l = []
  · have hnil' : l' = [] := by
      cases l' with
      | nil => rfl
      | cons r l' =>
        have hcorner : (r.x, r.y) ∈ cover NsRect.points l := by
          rw [heq]
          exact subset_cover (by simp) (hs' r (by simp)).corner_mem
        simp [hnil] at hcorner
    rwa [hnil', ← hnil]
  rw [Tight, if_neg hnil] at h
  obtain ⟨hin, hx, hy, hxm, hym⟩ := h
  have hnil' : l' ≠ [] := by
    rintro rfl
    obtain ⟨r, hr, -⟩ := hx
    have hcorner := subset_cover hr (hs r hr).corner_mem
    simp [heq] at hcorner
  have hin' : ∀ r ∈ l', bound.contains r = true := by
    intro r hr
    apply contains_of_subset (hs' r hr)
    have hsub : cover NsRect.points l ⊆ bound.points :=
      cover_subset fun r hr => points_subset_of_contains (hin r hr)
    exact (subset_cover hr).trans (heq ▸ hsub)
  -- a rectangle with a point at the side of another one reaches that side
  have hreach : ∀ r ∈ l, ∀ q ∈ r.points, ∃ s ∈ l', q ∈ s.points ∧ bound.contains s = true := by
    intro r hr q hq
    obtain ⟨s, hs, hqs⟩ : q ∈ cover NsRect.points l' := heq ▸ subset_cover hr hq
    exact ⟨s, hs, hqs, hin' s hs⟩
  have hlast : ∀ r ∈ l, (r.xMost - 1, r.yMost - 1) ∈ r.points := by
    intro r hr
    obtain ⟨hw, hh⟩ := hs r hr
    simp only [mem_points, xMost, yMost]
    omega
  rw [Tight, if_neg hnil']
  refine ⟨hin', ?_, ?_, ?_, ?_⟩
  · obtain ⟨r, hr, hside⟩ := hx
    obtain ⟨s, hs, hq, hb⟩ := hreach r hr _ (hs r hr).corner_mem
    exact ⟨s, hs, le_antisymm (hq.1.trans_eq hside) (contains_iff.mp hb).1⟩
  · obtain ⟨r, hr, hside⟩ := hy
    obtain ⟨s, hs, hq, hb⟩ := hreach r hr _ (hs r hr).corner_mem
    exact ⟨s, hs, le_antisymm (hq.2.2.1.trans_eq hside) (contains_iff.mp hb).2.1⟩
  · obtain ⟨r, hr, hside⟩ := hxm
    obtain ⟨s, hs, hq, hb⟩ := hreach r hr _ (hlast r hr)
    refine ⟨s, hs, le_antisymm (contains_iff.mp hb).2.2.1 ?_⟩
    have := hq.2.1
    omega
  · obtain ⟨r, hr, hside⟩ := hym
    obtain ⟨s, hs, hq, hb⟩ := hreach r hr _ (hlast r hr)
    refine ⟨s, hs, le_antisymm (contains_iff.mp hb).2.2.2 ?_⟩
    have := hq.2.2.2
    omega

theorem Tight.unionRect {bound r : NsRect} {l : List NsRect} (h : Tight bound l) (hl : l ≠ []) :
    Tight (bound.unionRect r) (r :: l) := by
  rw [Tight, if_neg hl] at h
  obtain ⟨hin, ⟨sx, hsx, hx⟩, ⟨sy, hsy, hy⟩, ⟨sxm, hsxm, hxm⟩, ⟨sym, hsym, hym⟩⟩ := h
  rw [Tight, if_neg (by simp)]
  have hxmost : (bound.unionRect r).xMost = max bound.xMost r.xMost := add_sub_cancel _ _
  have hymost : (bound.unionRect r).yMost = max bound.yMost r.yMost := add_sub_cancel _ _
  refine ⟨fun s hs => ?_, ?_, ?_, ?_, ?_⟩
  · rw [contains_iff, hxmost, hymost]
    rcases List.mem_cons.mp hs with rfl | hs
    · exact ⟨min_le_right _ _, min_le_right _ _, le_max_right _ _, le_max_right _ _⟩
    · obtain ⟨h₁, h₂, h₃, h₄⟩ := contains_iff.mp (hin s hs)
      exact ⟨(min_le_left _ _).trans h₁, (min_le_left _ _).trans h₂, h₃.trans (le_max_left _ _),
        h₄.trans (le_max_left _ _)⟩
  · rcases min_choice bound.x r.x with h | h
    · exact ⟨sx, by simp [hsx], hx.trans h.symm⟩
    · exact ⟨r, by simp, h.symm⟩
  · rcases min_choice bound.y r.y with h | h
    · exact ⟨sy, by simp [hsy], hy.trans h.symm⟩
    · exact ⟨r, by simp, h.symm⟩
  · rw [hxmost]
    rcases max_choice bound.xMost r.xMost with h | h
    · exact ⟨sxm, by simp [hsxm], hxm.trans h.symm⟩
    · exact ⟨r, by simp, h.symm⟩
  · rw [hymost]
    rcases max_choice bound.yMost r.yMost with h | h
    · exact ⟨sym, by simp [hsym], hym.trans h.symm⟩
    · exact ⟨r, by simp, h.symm⟩

/-! ### Regions to which rectangles are added -/

theorem rects_building (a : Region) (cur : ℕ) : (a.building cur).rects = a.rects := by
  rw [building, Building.rects]
  cases hrects : a.rects with
  | nil => simp
  | cons r rest =>
    have hlt : cur % (r :: rest).length < (r :: rest).length := Nat.mod_lt _ (by simp)
    have hdrop := List.drop_eq_getElem_cons hlt
    rw [hdrop]
    show (List.reverse _).reverse ++ _ :: _ = _
    rw [List.reverse_reverse, ← hdrop, List.take_append_drop]

theorem building_good (ha : a.Valid) (cur : ℕ) : (a.building cur).Good := by
  refine ⟨?_, ?_, ?_, ?_⟩
  all_goals rw [rects_building]
  · exact ha.solid
  · exact ha.apart
  · exact ha.sorted
  · exact ha.count

theorem chain_insertInPlace {r : NsRect} {b b' : Building} (h : b.insertInPlace r = some b') :
    ∃ c, b'.chain = some c ∧ c.mCurRect = r := by
  rw [Building.insertInPlace] at h
  split_ifs at h
  · rw [← Option.some.inj h]
    exact ⟨_, rfl, rfl⟩
  · obtain ⟨c, -, h⟩ := Option.bind_eq_some_iff.mp h
    obtain ⟨c', hc', h⟩ := Option.bind_eq_some_iff.mp h
    rw [← Option.some.inj h]
    exact ⟨c', rfl, Chain.mCurRect_insertInPlace hc'⟩

/-- A rectangle outside the region is added, and joined to its neighbours. -/
theorem insertOptimized_exact {r : NsRect} (ha : a.Valid) (hc : a.mRectCount ≠ 0) (hr : Usable r)
    (hd : Disjoint r.points a.points) (cur : ℕ) :
    Exact (insertOptimized r a.mBoundRect (a.building cur)) (a.points ∪ r.points) := by
  have hne : a.rects ≠ [] := fun hnil => hc (ha.count.trans (by rw [hnil]; rfl))
  obtain ⟨b, hb, hgood, hcover⟩ := Building.insertInPlace_good (building_good ha cur) hr.1 hr.2
    (by rwa [rects_building])
  obtain ⟨-, hperm⟩ := Building.insertInPlace_perm (building_good ha cur).count hb
  obtain ⟨c, hchain, hcur⟩ := chain_insertInPlace hb
  have hrects : b.rects = c.rects := by
    rw [Building.rects, hchain]
    rfl
  have hcount : b.mRectCount ≠ 1 := by
    have := List.length_pos_of_ne_nil hne
    rw [hgood.count, hperm.length_eq, rects_building, List.length_cons]
    omega
  have htight : Tight (a.mBoundRect.unionRect r) (r :: a.rects) := ha.tight.unionRect hne
  have hsolid : ∀ s ∈ r :: a.rects, s.Solid := List.forall_mem_cons.mpr ⟨hr.1, ha.solid⟩
  rw [rects_building, hrects] at hperm
  rw [hrects] at hcover
  obtain ⟨A, p, rest, l, hsplit, hj, hjoin⟩ := joinAround_joined fun s hs => hgood.solid s (hrects ▸ hs)
  have hsame : cover NsRect.points (joinAround c) = cover NsRect.points (r :: a.rects) := by
    rw [hjoin, hj.append_cover, ← hsplit, cover_perm hperm]
  have hsolid' : ∀ s ∈ joinAround c, s.Solid := by
    rw [hjoin]
    exact hj.append_solid fun s hs => hgood.solid s (hrects ▸ hsplit ▸ hs)
  have hlen : (joinAround c).length ≤ c.rects.length := by
    rw [hjoin, hsplit, List.length_append, List.length_append]
    exact Nat.add_le_add_left hj.length_le _
  refine ⟨⟨joinAround c, b.mRectCount - (c.rects.length - (joinAround c).length),
    a.mBoundRect.unionRect c.mCurRect⟩, ?_, ⟨hsolid', ?_, ?_, ?_, ?_⟩, ?_⟩
  · rw [insertOptimized, hb]
    simp only [Option.bind_eq_bind, Option.bind_some, hchain, if_neg hcount]
  · rw [hjoin]
    exact hj.append_apart (hsplit ▸ hrects ▸ hgood.apart)
  · rw [hjoin]
    exact hj.append_sorted (hsplit ▸ hrects ▸ hgood.sorted)
  · show b.mRectCount - (c.rects.length - (joinAround c).length) = (joinAround c).length
    rw [hgood.count, hrects]
    omega
  · rw [hcur]
    exact htight.congr hsolid hsolid' hsame.symm
  · show cover NsRect.points (joinAround c) = _
    rw [hsame, cover_cons, Set.union_comm]
    rfl

/-- The first rectangle of an empty region. -/
theorem insertOptimized_empty {r : NsRect} (ha : a.Valid) (hc : a.mRectCount = 0) (hr : r.Solid)
    (cur : ℕ) : insertOptimized r a.mBoundRect (a.building cur) = some (ofRect r) ∧
      Exact (some (ofRect r)) (a.points ∪ r.points) := by
  refine ⟨?_, ofRect r, rfl, ofRect_valid hr, ?_⟩
  · have hzero : (a.building cur).mRectCount = 0 := hc
    rw [insertOptimized, Building.insertInPlace, if_pos hzero]
    rfl
  · rw [points_ofRect, ha.points_eq_empty hc, Set.empty_union]

example : insertOptimized ⟨4, 0, 2, 2⟩ stairs.mBoundRect (stairs.building 1) =
    some ⟨[⟨0, 0, 6, 4⟩, ⟨2, 4, 4, 2⟩], 2, ⟨0, 0, 6, 6⟩⟩ := by decide

/-- Rectangles outside a region are added. -/
theorem exact_moveInto {d : Building} {l : List NsRect} {s : Set (ℤ × ℤ)} (hd : d.Good)
    (hl : ∀ r ∈ l, Usable r)
    (hdisj : Disjoint (cover NsRect.points l) (cover NsRect.points d.rects))
    (hapart : Apart NsRect.points l)
    (hs : cover NsRect.points l ∪ cover NsRect.points d.rects = s) :
    Exact ((d.moveInto l).map optimize) s := by
  have hall : Apart NsRect.points (l ++ d.rects) :=
    List.pairwise_append.mpr ⟨hapart, hd.apart, fun _ hr _ hq =>
      hdisj.mono (subset_cover hr) (subset_cover hq)⟩
  obtain ⟨b, hb, hgood⟩ := Building.moveInto_good hd hl hall
  obtain ⟨-, hperm⟩ := Building.moveInto_perm hd.count hb
  rw [hb]
  refine exact_optimize hgood ?_
  rw [cover_perm hperm, cover_append, hs]

/-- The rectangles of another region are added. -/
theorem moveInto_exact {cur : ℕ} (ha : a.Valid) (hb : b.Valid) (hfb : b.Fits)
    (hd : Disjoint a.points b.points) :
    Exact (((a.building cur).moveInto b.rects).map optimize) (a.points ∪ b.points) := by
  refine exact_moveInto (building_good ha cur) (hb.usable hfb) ?_ hb.apart ?_
  · rw [rects_building]
    exact hd.symm
  · rw [rects_building, Set.union_comm]
    rfl

/-! ### Points under two rectangles -/

theorem layers_widen {r next : NsRect} (hr : r.Solid) (hn : next.Solid)
    (hj : joinsRight r next = true) (l : List NsRect) (q : ℤ × ℤ) :
    layers NsRect.points ({ r with width := r.width + next.width } :: l) q =
      layers NsRect.points (r :: next :: l) q := by
  have hj := of_decide_eq_true hj
  simp only [Solid, xMost] at *
  simp only [layers_cons, mem_points]
  split_ifs <;> omega

theorem layers_heighten {r next : NsRect} (hr : r.Solid) (hn : next.Solid)
    (hj : joinsBelow r next = true) (l : List NsRect) (q : ℤ × ℤ) :
    layers NsRect.points ({ r with height := r.height + next.height } :: l) q =
      layers NsRect.points (r :: next :: l) q := by
  have hj := of_decide_eq_true hj
  simp only [Solid, yMost] at *
  simp only [layers_cons, mem_points]
  split_ifs <;> omega

/-- Joining rectangles hides no point that lies under two of them. -/
theorem layers_combine (below : Bool) (hs : ∀ r ∈ p :: rest, r.Solid) (q : ℤ × ℤ) :
    layers NsRect.points (combine below p rest) q = layers NsRect.points (p :: rest) q := by
  induction rest generalizing below p with
  | nil => rfl
  | cons next rest ih =>
    obtain ⟨hp, hn, hrest⟩ : p.Solid ∧ next.Solid ∧ ∀ r ∈ rest, r.Solid := by simpa using hs
    rw [combine]
    split_ifs with h₁ h₂
    · have hj := (Bool.and_eq_true_iff.mp h₁).2
      rw [ih false (List.forall_mem_cons.mpr ⟨solid_widen hp hn, hrest⟩), layers_widen hp hn hj]
    · rw [ih true (List.forall_mem_cons.mpr ⟨solid_heighten hp hn, hrest⟩),
        layers_heighten hp hn h₂]
    · rw [layers_cons, ih false (List.forall_mem_cons.mpr ⟨hn, hrest⟩), ← layers_cons]

theorem layers_optimize {d : Building} (hc : d.Counted) (hs : ∀ r ∈ d.rects, r.Solid) (q : ℤ × ℤ) :
    layers NsRect.points (optimize d).rects q = layers NsRect.points d.rects q := by
  rw [optimize]
  split_ifs with h
  · rfl
  · split
    · rename_i hnil
      exact absurd (hc.trans (by rw [hnil]; rfl)) h
    · rename_i first rest hrects
      rw [hrects]
      exact layers_combine false (hrects ▸ hs) q

/-- Where a point is covered twice the result is no valid region. -/
theorem not_exact_moveInto {d : Building} {l : List NsRect} {s : Set (ℤ × ℤ)} (hc : d.Counted)
    (hd : ∀ r ∈ d.rects, Usable r) (hl : ∀ r ∈ l, Usable r) {q : ℤ × ℤ}
    (hq : q ∈ cover NsRect.points d.rects) (hq' : q ∈ cover NsRect.points l) :
    ¬ Exact ((d.moveInto l).map optimize) s := by
  rintro ⟨c, hopt, hvalid, -⟩
  obtain ⟨b, hb, rfl⟩ := Option.map_eq_some_iff.mp hopt
  obtain ⟨hcount, hperm⟩ := Building.moveInto_perm hc hb
  have hsolid : ∀ r ∈ b.rects, r.Solid := by
    intro r hr
    rcases List.mem_append.mp (hperm.mem_iff.mp hr) with hr | hr
    · exact (hl r hr).1
    · exact (hd r hr).1
  have hone := apart_iff_layers.mp hvalid.apart q
  rw [layers_optimize hcount hsolid, layers_perm hperm, layers_append] at hone
  have := layers_pos.mpr hq
  have := layers_pos.mpr hq'
  omega

/-- `Merge` of regions without a common point. -/
theorem merge_exact {dest : Dest} {cur : ℕ} (ha : a.Valid) (hb : b.Valid) (hfa : a.Fits)
    (hfb : b.Fits) (hca : a.mRectCount ≠ 0) (hcb : b.mRectCount ≠ 0)
    (hd : Disjoint a.points b.points) :
    Exact (merge dest cur a b) (a.points ∪ b.points) := by
  have hab : ∀ cur, Exact (((a.building cur).moveInto b.rects).map optimize)
      (a.points ∪ b.points) := fun cur =>
    moveInto_exact ha hb hfb hd
  have hba : ∀ cur, Exact (((b.building cur).moveInto a.rects).map optimize)
      (a.points ∪ b.points) := fun cur => by
    rw [Set.union_comm]
    exact moveInto_exact hb ha hfa hd.symm
  rw [merge]
  split
  · rename_i first1 rest1 first2 rest2 ea eb
    by_cases hone1 : a.mRectCount = 1
    · have hrest : rest1 = [] := by
        have := ha.count.symm.trans hone1
        rw [ea] at this
        simpa using this
      have hpoints : a.points = first1.points := by simp [points, ea, hrest]
      rw [hpoints] at hd ⊢
      rw [if_pos hone1, Set.union_comm]
      exact insertOptimized_exact hb hcb (ha.usable hfa first1 (by simp [ea])) hd _
    rw [if_neg hone1]
    by_cases hone2 : b.mRectCount = 1
    · have hrest : rest2 = [] := by
        have := hb.count.symm.trans hone2
        rw [eb] at this
        simpa using this
      have hpoints : b.points = first2.points := by simp [points, eb, hrest]
      rw [hpoints] at hd ⊢
      rw [if_pos hone2]
      exact insertOptimized_exact ha hca (hb.usable hfb first2 (by simp [eb])) hd.symm _
    rw [if_neg hone2]
    by_cases hle : a.mRectCount ≥ b.mRectCount
    · simp only [if_pos hle]
      split_ifs
      · exact hba cur
      · exact hab _
    · simp only [if_neg hle]
      split_ifs
      · exact hab cur
      · exact hba _
  · rename_i hne
    obtain ⟨first1, rest1, ea⟩ := List.exists_cons_of_ne_nil (l := a.rects) fun hnil =>
      hca (ha.count.trans (by rw [hnil]; rfl))
    obtain ⟨first2, rest2, eb⟩ := List.exists_cons_of_ne_nil (l := b.rects) fun hnil =>
      hcb (hb.count.trans (by rw [hnil]; rfl))
    exact absurd eb (hne first1 rest1 first2 rest2 ea)

/-! ### The union -/

theorem subRegion_sound {freed : Bool} {r : Building} (ha : a.Valid) (hb : b.Valid) (hfa : a.Fits)
    (hfb : b.Fits) (hcb : b.mRectCount ≠ 0) (hr : subRegion freed a b = some r) :
    r.Counted ∧ ∀ q ∈ r.rects, Usable q := by
  by_cases h : Subtractable freed a b
  · obtain ⟨r', hr', hgood, husable, -⟩ := subRegion_good ha hb hfa hfb hcb h
    rw [hr'] at hr
    rw [← Option.some.inj hr]
    exact ⟨hgood.count, husable⟩
  · obtain ⟨hcount, husable, -⟩ := subRegion_spoilt ha hb hfa hfb hcb h hr
    exact ⟨hcount, husable⟩

/-- The rest of one region beside the other. -/
theorem exact_rest_iff {cur : ℕ} (ha : a.Valid) (hb : b.Valid) (hfa : a.Fits) (hfb : b.Fits)
    (hcb : b.mRectCount ≠ 0) :
    Exact ((subRegion false a b).bind fun tmpRegion =>
      ((b.building cur).moveInto tmpRegion.rects).map optimize) (a.points ∪ b.points) ↔
      Subtractable false a b := by
  constructor
  · intro hexact
    by_contra h
    obtain ⟨c, hc, -⟩ := id hexact
    obtain ⟨r, hr, -⟩ := Option.bind_eq_some_iff.mp hc
    obtain ⟨-, husable, p, hp, hpr⟩ := subRegion_spoilt ha hb hfa hfb hcb h hr
    rw [hr] at hexact
    refine not_exact_moveInto (building_good hb cur).count ?_ husable ?_ hpr hexact
    · rw [rects_building]
      exact hb.usable hfb
    · rw [rects_building]
      exact hp.2
  · intro h
    obtain ⟨r, hr, hgood, husable, hcover⟩ := subRegion_good ha hb hfa hfb hcb h
    rw [hr]
    refine exact_moveInto (building_good hb cur) husable ?_ hgood.apart ?_
    · rw [rects_building, hcover]
      exact disjoint_sdiff_self_left
    · rw [rects_building, hcover]
      exact Set.sdiff_union_self

theorem or_iff {dest : Dest} {cur : ℕ} {same : Bool} (ha : a.Valid) (hb : b.Valid)
    (hfa : a.Fits) (hfb : b.Fits) (hsame : same = true → a = b) :
    Exact (or dest cur same a b) (a.points ∪ b.points) ↔
      same = true ∨ a.mRectCount = 1 ∧ a.mBoundRect.contains b.mBoundRect = true ∨
        Subtractable false a b := by
  rw [or]
  by_cases h : same = true
  · rw [if_pos h, ← hsame h, Set.union_self]
    exact iff_of_true (exact_copy ha rfl) (.inl h)
  rw [if_neg h, or_iff_right h]
  by_cases hca : a.mRectCount = 0
  · have hpoints := ha.points_eq_empty hca
    rw [if_pos hca, hpoints, Set.empty_union]
    exact iff_of_true (exact_copy hb rfl)
      (.inr (subtractable_of_disjoint ha hb (hpoints ▸ Set.empty_disjoint _)))
  rw [if_neg hca]
  by_cases hcb : b.mRectCount = 0
  · have hpoints := hb.points_eq_empty hcb
    rw [if_pos hcb, hpoints, Set.union_empty]
    exact iff_of_true (exact_copy ha rfl)
      (.inr (subtractable_of_disjoint ha hb (hpoints ▸ Set.disjoint_empty _)))
  rw [if_neg hcb]
  by_cases hout : (!a.mBoundRect.intersects b.mBoundRect) = true
  · have hd : Disjoint a.points b.points :=
      (disjoint_of_intersects (by simpa using hout)).mono ha.points_subset hb.points_subset
    rw [if_pos hout]
    exact iff_of_true (merge_exact ha hb hfa hfb hca hcb hd)
      (.inr (subtractable_of_disjoint ha hb hd))
  rw [if_neg hout]
  by_cases h₁ : a.mRectCount = 1 ∧ a.mBoundRect.contains b.mBoundRect = true
  · have hsub : b.points ⊆ a.points := by
      rw [ha.points_of_single h₁.1]
      exact hb.points_subset.trans (points_subset_of_contains h₁.2)
    rw [if_pos h₁]
    exact iff_of_true (exact_copy ha (Set.union_eq_left.mpr hsub).symm) (.inl h₁)
  rw [if_neg h₁, or_iff_right h₁]
  by_cases h₂ : b.mRectCount = 1 ∧ b.mBoundRect.contains a.mBoundRect = true
  · have hsub : a.points ⊆ b.points := by
      rw [hb.points_of_single h₂.1]
      exact ha.points_subset.trans (points_subset_of_contains h₂.2)
    rw [if_pos h₂]
    exact iff_of_true (exact_copy hb (Set.union_eq_right.mpr hsub).symm) (.inl h₂)
  rw [if_neg h₂, ← exact_rest_iff ha hb hfa hfb hcb]
  simp only [Option.map_eq_bind]
  rfl

/-- What is left of a region with a rectangle that was subtracted put back. -/
theorem exact_back_iff {aRect : NsRect} (ha : a.Valid) (hfa : a.Fits) (hr : aRect.Solid)
    (hfit : aRect.Fits) :
    Exact ((subRegion false a (ofRect aRect)).bind fun r => (r.moveInto [aRect]).map optimize)
      (a.points ∪ aRect.points) ↔ Subtractable false a (ofRect aRect) := by
  have hb := ofRect_valid hr
  have hfb : (ofRect aRect).Fits := by simpa [Fits, ofRect] using hfit
  have hone : ∀ q ∈ [aRect], Usable q := by simpa using ⟨hr, hfit⟩
  have hcover : cover NsRect.points [aRect] = aRect.points := by simp
  constructor
  · intro hexact
    by_contra h
    obtain ⟨c, hc, -⟩ := id hexact
    obtain ⟨r, hsub, -⟩ := Option.bind_eq_some_iff.mp hc
    obtain ⟨hcount, husable, p, hp, hpr⟩ := subRegion_spoilt ha hb hfa hfb (by simp [ofRect]) h hsub
    rw [points_ofRect] at hp
    rw [hsub] at hexact
    exact not_exact_moveInto hcount husable hone hpr (hcover ▸ hp.2) hexact
  · intro h
    obtain ⟨r, hsub, hgood, husable, hrest⟩ := subRegion_good ha hb hfa hfb (by simp [ofRect]) h
    rw [points_ofRect] at hrest
    rw [hsub]
    refine exact_moveInto hgood hone ?_ (List.pairwise_singleton _ _) ?_
    · rw [hcover, hrest]
      exact disjoint_sdiff_self_right
    · rw [hcover, hrest, Set.union_comm]
      exact Set.sdiff_union_self

/-- A region and a rectangle that does not meet it. -/
theorem beside_exact {aRect : NsRect} {self : Bool} {cur : ℕ} (ha : a.Valid)
    (hc : a.mRectCount ≠ 0) (hr : aRect.Solid) (hfit : aRect.Fits)
    (hout : aRect.intersects a.mBoundRect = false) :
    Exact (insertOptimized aRect a.mBoundRect (copied self cur a)) (a.points ∪ aRect.points) :=
  insertOptimized_exact ha hc ⟨hr, hfit⟩
    ((disjoint_of_intersects hout).mono_right ha.points_subset) _

theorem exact_copyRect {aRect : NsRect} : Exact (some (copyRect aRect)) aRect.points := by
  by_cases hr : aRect.isEmpty = true
  · rw [copyRect, if_pos hr]
    exact exact_setEmpty (points_of_isEmpty hr)
  · have hcopy := copyRect_valid (solid_iff.mpr (by simpa using hr))
    exact ⟨_, rfl, hcopy.1, hcopy.2⟩

theorem orRect_iff {aRect : NsRect} {self : Bool} {cur : ℕ} (ha : a.Valid) (hfa : a.Fits)
    (hfit : aRect.Fits) :
    Exact (orRect self cur a aRect) (a.points ∪ aRect.points) ↔
      aRect.isEmpty = true ∨ a.mRectCount = 1 ∧ a.mBoundRect.contains aRect = true ∨
        aRect.contains a.mBoundRect = true ∨ ∀ r ∈ a.rects, ¬ r.Encloses aRect := by
  rw [orRect, ← subtractable_ofRect]
  by_cases hca : a.mRectCount = 0
  · rw [if_pos hca, ha.points_eq_empty hca, Set.empty_union]
    refine iff_of_true exact_copyRect (.inr (.inr (subtractable_ofRect.mpr (.inr ?_))))
    simp [ha.rects_eq_nil hca]
  rw [if_neg hca]
  by_cases hr : aRect.isEmpty = true
  · rw [if_pos hr, points_of_isEmpty hr, Set.union_empty]
    exact iff_of_true (exact_copy ha rfl) (.inl hr)
  have hsolid : aRect.Solid := solid_iff.mpr (by simpa using hr)
  rw [if_neg hr, or_iff_right hr]
  by_cases hout : (!aRect.intersects a.mBoundRect) = true
  · have hout' : aRect.intersects a.mBoundRect = false := by simpa using hout
    have hd : Disjoint a.points (ofRect aRect).points := by
      rw [points_ofRect]
      exact ((disjoint_of_intersects hout').mono_right ha.points_subset).symm
    rw [if_pos hout]
    exact iff_of_true (beside_exact ha hca hsolid hfit hout')
      (.inr (subtractable_of_disjoint ha (ofRect_valid hsolid) hd))
  rw [if_neg hout]
  by_cases h₁ : a.mRectCount = 1 ∧ a.mBoundRect.contains aRect = true
  · have hsub : aRect.points ⊆ a.points := by
      rw [ha.points_of_single h₁.1]
      exact points_subset_of_contains h₁.2
    rw [if_pos h₁]
    exact iff_of_true (exact_copy ha (Set.union_eq_left.mpr hsub).symm) (.inl h₁)
  rw [if_neg h₁, or_iff_right h₁]
  by_cases hin : aRect.contains a.mBoundRect = true
  · have hsub : a.points ⊆ aRect.points :=
      ha.points_subset.trans (points_subset_of_contains hin)
    rw [if_pos hin, Set.union_eq_right.mpr hsub]
    exact iff_of_true exact_copyRect (subtractable_ofRect.mpr (.inl hin))
  rw [if_neg hin, ← exact_back_iff ha hfa hsolid hfit, subRegion_single (rects_ofRect aRect) rfl hin]
  cases subRect false aRect a.rects none with
  | none => rfl
  | some s =>
    simp only [Option.bind_eq_bind, Option.bind_some, Option.map_some, Building.moveInto]
    cases s.aResult.insertInPlace aRect <;> rfl

/-! ### The symmetric difference -/

/-- What is left of each of two regions, together. -/
theorem exact_rests_iff {freed : Bool} (ha : a.Valid) (hb : b.Valid) (hfa : a.Fits)
    (hfb : b.Fits) (hca : a.mRectCount ≠ 0) (hcb : b.mRectCount ≠ 0) :
    Exact ((subRegion false a b).bind fun tmpRegion => (subRegion freed b a).bind fun d =>
      (d.moveInto tmpRegion.rects).map optimize) (symmDiff a.points b.points) ↔
      Subtractable false a b ∧ Subtractable freed b a := by
  constructor
  · intro hexact
    obtain ⟨c, hc, -⟩ := id hexact
    obtain ⟨r, hr, hc⟩ := Option.bind_eq_some_iff.mp hc
    obtain ⟨d, hd, hc⟩ := Option.bind_eq_some_iff.mp hc
    obtain ⟨e, he, -⟩ := Option.map_eq_some_iff.mp hc
    obtain ⟨hrc, hru⟩ := subRegion_sound ha hb hfa hfb hcb hr
    obtain ⟨hdc, hdu⟩ := subRegion_sound hb ha hfb hfa hca hd
    obtain ⟨hec, hperm⟩ := Building.moveInto_perm hdc he
    have heu : ∀ q ∈ e.rects, Usable q := by
      intro q hq
      rcases List.mem_append.mp (hperm.mem_iff.mp hq) with hq | hq
      · exact hru q hq
      · exact hdu q hq
    -- a point of both regions has no place in the result
    have hnone : ∀ q ∈ a.points ∩ b.points, q ∉ cover NsRect.points r.rects ∧
        q ∉ cover NsRect.points d.rects := by
      intro q hq
      rw [← not_or, ← Set.mem_union, ← cover_append, ← cover_perm hperm]
      intro hqe
      have hopt : Exact (some (optimize e)) (symmDiff a.points b.points) := by
        rw [hr, Option.bind_some, hd, Option.bind_some, he] at hexact
        exact hexact
      refine not_exact_optimize hec heu hqe ?_ hopt
      rintro (h | h)
      · exact h.2 hq.2
      · exact h.2 hq.1
    refine ⟨?_, ?_⟩
    · by_contra h
      obtain ⟨-, -, q, hq, hqr⟩ := subRegion_spoilt ha hb hfa hfb hcb h hr
      exact (hnone q hq).1 hqr
    · by_contra h
      obtain ⟨-, -, q, hq, hqd⟩ := subRegion_spoilt hb ha hfb hfa hca h hd
      exact (hnone q hq.symm).2 hqd
  · rintro ⟨hab, hba⟩
    obtain ⟨r, hr, hgood, husable, hcover⟩ := subRegion_good ha hb hfa hfb hcb hab
    obtain ⟨d, hd, hgood', -, hcover'⟩ := subRegion_good hb ha hfb hfa hca hba
    rw [hr, Option.bind_some, hd, Option.bind_some]
    refine exact_moveInto hgood' husable ?_ hgood.apart ?_
    · rw [hcover, hcover']
      exact disjoint_sdiff_sdiff
    · rw [hcover, hcover']
      rfl

/-- A single rectangle is subtracted from as if nothing was freed. -/
theorem subtractable_of_single {freed : Bool} {first : NsRect} (hrects : a.rects = [first]) :
    Subtractable freed a b ↔ Subtractable false a b := by
  have htail : ∀ r : NsRect, ([first].dropWhile r.contains).tail = [] := by
    intro r
    rw [List.dropWhile_cons]
    split_ifs <;> rfl
  simp [Subtractable, hrects, htail]

/-- A region inside a single rectangle. -/
theorem subtractable_of_inside {freed : Bool} (hc : a.mRectCount = 1)
    (hin : a.mBoundRect.contains b.mBoundRect = true) : Subtractable freed b a :=
  .inl ⟨hc, hin⟩

theorem xor_iff {dest : Dest} {cur : ℕ} {same : Bool} (ha : a.Valid) (hb : b.Valid)
    (hfa : a.Fits) (hfb : b.Fits) (hsame : same = true → a = b) :
    Exact (xor dest cur same a b) (symmDiff a.points b.points) ↔
      same = true ∨ Subtractable false a b ∧ Subtractable (dest = .first) b a := by
  rw [xor]
  by_cases h : same = true
  · rw [if_pos h, ← hsame h, symmDiff_self]
    exact iff_of_true (exact_setEmpty rfl) (.inl h)
  rw [if_neg h, or_iff_right h]
  have hboth : Disjoint a.points b.points →
      Subtractable false a b ∧ Subtractable (dest = .first) b a := fun hd =>
    ⟨subtractable_of_disjoint ha hb hd, subtractable_of_disjoint hb ha hd.symm⟩
  by_cases hca : a.mRectCount = 0
  · have hpoints := ha.points_eq_empty hca
    rw [if_pos hca, hpoints]
    refine iff_of_true (exact_copy hb ?_) (hboth (hpoints ▸ Set.empty_disjoint _))
    simp [Set.symmDiff_def]
  rw [if_neg hca]
  by_cases hcb : b.mRectCount = 0
  · have hpoints := hb.points_eq_empty hcb
    rw [if_pos hcb, hpoints]
    refine iff_of_true (exact_copy ha ?_) (hboth (hpoints ▸ Set.disjoint_empty _))
    simp [Set.symmDiff_def]
  rw [if_neg hcb]
  by_cases hout : (!a.mBoundRect.intersects b.mBoundRect) = true
  · have hd : Disjoint a.points b.points :=
      (disjoint_of_intersects (by simpa using hout)).mono ha.points_subset hb.points_subset
    rw [if_pos hout, hd.symmDiff_eq_sup]
    exact iff_of_true (merge_exact ha hb hfa hfb hca hcb hd) (hboth hd)
  rw [if_neg hout]
  by_cases h₁ : a.mRectCount = 1 ∧ a.mBoundRect.contains b.mBoundRect = true
  · have hsub : b.points ⊆ a.points := by
      rw [ha.points_of_single h₁.1]
      exact hb.points_subset.trans (points_subset_of_contains h₁.2)
    obtain ⟨first, hrects⟩ := exists_single ha h₁.1
    rw [if_pos h₁, symmDiff_of_ge hsub, and_iff_left (subtractable_of_inside h₁.1 h₁.2),
      ← subtractable_of_single hrects]
    exact exact_subRegion_iff ha hb hfa hfb hcb
  rw [if_neg h₁]
  by_cases h₂ : b.mRectCount = 1 ∧ b.mBoundRect.contains a.mBoundRect = true
  · have hsub : a.points ⊆ b.points := by
      rw [hb.points_of_single h₂.1]
      exact ha.points_subset.trans (points_subset_of_contains h₂.2)
    rw [if_pos h₂, symmDiff_of_le hsub, and_iff_right (subtractable_of_inside h₂.1 h₂.2)]
    exact exact_subRegion_iff hb ha hfb hfa hca
  rw [if_neg h₂, ← exact_rests_iff ha hb hfa hfb hca hcb]
  simp only [Option.map_eq_bind]
  rfl

theorem xorRect_iff {aRect : NsRect} {self : Bool} {cur : ℕ} (ha : a.Valid) (hfa : a.Fits)
    (hfit : aRect.Fits) :
    Exact (xorRect self cur a aRect) (symmDiff a.points aRect.points) ↔
      aRect.isEmpty = true ∨ Subtractable false (ofRect aRect) a ∧
        ((aRect.contains a.mBoundRect = true ∧
          ¬ (a.mRectCount = 1 ∧ a.mBoundRect.contains aRect = true)) ∨
            ∀ r ∈ a.rects, ¬ r.Encloses aRect) := by
  rw [xorRect]
  by_cases hr : aRect.isEmpty = true
  · have hpoints := points_of_isEmpty hr
    rw [hpoints]
    refine iff_of_true ?_ (.inl hr)
    by_cases hca : a.mRectCount = 0
    · rw [if_pos hca, ha.points_eq_empty hca, symmDiff_self, Set.bot_eq_empty, ← hpoints]
      exact exact_copyRect
    · rw [if_neg hca, if_pos hr]
      exact exact_copy ha (by simp [Set.symmDiff_def])
  have hsolid : aRect.Solid := solid_iff.mpr (by simpa using hr)
  have hb := ofRect_valid hsolid
  have hfb : (ofRect aRect).Fits := by simpa [Fits, ofRect] using hfit
  rw [or_iff_right hr]
  by_cases hca : a.mRectCount = 0
  · rw [if_pos hca, ha.points_eq_empty hca]
    refine iff_of_true ?_ ⟨.inr ⟨?_, fun h => absurd h (by simp)⟩, .inr ?_⟩
    · have hdiff : symmDiff ∅ aRect.points = aRect.points := by simp [Set.symmDiff_def]
      rw [hdiff]
      exact exact_copyRect
    · rw [ha.rects_eq_nil hca]
      trivial
    · simp [ha.rects_eq_nil hca]
  rw [if_neg hca, if_neg hr]
  by_cases hout : (!aRect.intersects a.mBoundRect) = true
  · have hout' : aRect.intersects a.mBoundRect = false := by simpa using hout
    have hd : Disjoint a.points aRect.points :=
      ((disjoint_of_intersects hout').mono_right ha.points_subset).symm
    have hd' : Disjoint (ofRect aRect).points a.points := by
      rw [points_ofRect]
      exact hd.symm
    have hnone : ∀ r ∈ a.rects, ¬ r.Encloses aRect := fun r hmem henc =>
      henc.not_disjoint hsolid (hd.mono_left (subset_cover hmem))
    rw [if_pos hout, hd.symmDiff_eq_sup]
    exact iff_of_true (beside_exact ha hca hsolid hfit hout')
      ⟨subtractable_of_disjoint hb ha hd', .inr hnone⟩
  rw [if_neg hout]
  by_cases h₁ : a.mRectCount = 1 ∧ a.mBoundRect.contains aRect = true
  · have hsub : aRect.points ⊆ a.points := by
      rw [ha.points_of_single h₁.1]
      exact points_subset_of_contains h₁.2
    have hnot : ¬ (aRect.contains a.mBoundRect = true ∧
        ¬ (a.mRectCount = 1 ∧ a.mBoundRect.contains aRect = true)) := fun h => h.2 h₁
    rw [if_pos h₁, symmDiff_of_ge hsub, and_iff_right (subtractable_of_inside h₁.1 h₁.2),
      or_iff_right hnot]
    exact exact_subRect_iff ha hfa ⟨hsolid, hfit⟩
  rw [if_neg h₁]
  by_cases hin : aRect.contains a.mBoundRect = true
  · have hsub : a.points ⊆ aRect.points := ha.points_subset.trans (points_subset_of_contains hin)
    rw [if_pos hin, symmDiff_of_le hsub, and_iff_left (.inl ⟨hin, h₁⟩), ← points_ofRect,
      ← subtractable_of_single (rects_ofRect aRect)]
    exact exact_subRegion_iff hb ha hfb hfa hca
  have hiff : (aRect.contains a.mBoundRect = true ∧
      ¬ (a.mRectCount = 1 ∧ a.mBoundRect.contains aRect = true)) ∨
        (∀ r ∈ a.rects, ¬ r.Encloses aRect) ↔ Subtractable false a (ofRect aRect) := by
    rw [subtractable_ofRect, or_iff_right hin, or_iff_right fun h => hin h.1]
  rw [if_neg hin, hiff, symmDiff_comm, ← points_ofRect,
    ← exact_rests_iff hb ha hfb hfa (by simp [ofRect]) hca,
    @subRegion_single a _ false aRect (rects_ofRect aRect) rfl hin]
  cases subRegion false (ofRect aRect) a with
  | none => rfl
  | some tmpRegion =>
    cases subRect false aRect a.rects none with
    | none => rfl
    | some s =>
      simp only [Option.bind_eq_bind, Option.bind_some, Option.map_eq_bind]
      rfl

/-- All forms of `Or` and `Xor` are exact where the subtractions are that they make. -/
theorem or_xor_exact_iff (ha : a.Valid) (hfa : a.Fits) (cur : ℕ) :
    (∀ (b : Region) (dest : Dest) (same : Bool), b.Valid → b.Fits → (same = true → a = b) →
      (Exact (or dest cur same a b) (a.points ∪ b.points) ↔
        same = true ∨ a.mRectCount = 1 ∧ a.mBoundRect.contains b.mBoundRect = true ∨
          Subtractable false a b) ∧
      (Exact (xor dest cur same a b) (symmDiff a.points b.points) ↔
        same = true ∨ Subtractable false a b ∧ Subtractable (dest = .first) b a)) ∧
    ∀ (aRect : NsRect) (self : Bool), aRect.Fits →
      (Exact (orRect self cur a aRect) (a.points ∪ aRect.points) ↔
        aRect.isEmpty = true ∨ a.mRectCount = 1 ∧ a.mBoundRect.contains aRect = true ∨
          aRect.contains a.mBoundRect = true ∨ ∀ r ∈ a.rects, ¬ r.Encloses aRect) ∧
      (Exact (xorRect self cur a aRect) (symmDiff a.points aRect.points) ↔
        aRect.isEmpty = true ∨ Subtractable false (ofRect aRect) a ∧
          ((aRect.contains a.mBoundRect = true ∧
            ¬ (a.mRectCount = 1 ∧ a.mBoundRect.contains aRect = true)) ∨
              ∀ r ∈ a.rects, ¬ r.Encloses aRect)) :=
  ⟨fun _ _ _ hb hfb hsame => ⟨or_iff ha hb hfa hfb hsame, xor_iff ha hb hfa hfb hsame⟩,
    fun _ _ hfit => ⟨orRect_iff ha hfa hfit, xorRect_iff ha hfa hfit⟩⟩

theorem or_xor_exact_stairs :
    Exact (or .other 0 false stairs columns) (stairs.points ∪ columns.points) ∧
      Exact (xor .other 0 false stairs columns) (symmDiff stairs.points columns.points) ∧
      Exact (orRect false 0 stairs ⟨1, 1, 4, 4⟩) (stairs.points ∪ NsRect.points ⟨1, 1, 4, 4⟩) :=
  have h := or_xor_exact_iff stairs_valid stairs_fits 0
  have hb := h.1 columns .other false columns_valid columns_fits (by simp)
  have hr := h.2 ⟨1, 1, 4, 4⟩ false (by simp [NsRect.Fits, yMost, MIN_INT32, MAX_INT32])
  ⟨hb.1.mpr (.inr (.inr (.inr ⟨by decide, by simp⟩))),
    hb.2.mpr (.inr ⟨.inr ⟨by decide, by simp⟩, .inr ⟨by decide, by simp⟩⟩),
    hr.1.mpr (.inr (.inr (.inr (by decide))))⟩

/-- The points of an inner rectangle stay in a symmetric difference, and a union with one of
a region's own rectangles has it twice. -/
theorem not_exact_xor_or_inner :
    (ofRect ⟨0, 0, 10, 10⟩).Valid ∧ (ofRect ⟨3, 3, 4, 4⟩).Valid ∧
      ¬ Exact (xor .other 0 false (ofRect ⟨0, 0, 10, 10⟩) (ofRect ⟨3, 3, 4, 4⟩))
        (symmDiff (ofRect ⟨0, 0, 10, 10⟩).points (ofRect ⟨3, 3, 4, 4⟩).points) ∧
      stairs.Valid ∧ (ofRect ⟨0, 2, 6, 2⟩).Valid ∧
      ¬ Exact (or .other 0 false stairs (ofRect ⟨0, 2, 6, 2⟩))
        (stairs.points ∪ (ofRect ⟨0, 2, 6, 2⟩).points) := by
  have hfits : ∀ r : NsRect, r.Fits → (ofRect r).Fits := fun r hr => by simpa [Fits, ofRect] using hr
  have h₁ : (ofRect ⟨0, 0, 10, 10⟩).Valid := ofRect_valid ⟨by decide, by decide⟩
  have h₂ : (ofRect ⟨3, 3, 4, 4⟩).Valid := ofRect_valid ⟨by decide, by decide⟩
  have h₃ : (ofRect ⟨0, 2, 6, 2⟩).Valid := ofRect_valid ⟨by decide, by decide⟩
  have h : NsRect.Fits ⟨0, 0, 10, 10⟩ ∧ NsRect.Fits ⟨3, 3, 4, 4⟩ ∧ NsRect.Fits ⟨0, 2, 6, 2⟩ := by
    simp [NsRect.Fits, yMost, MIN_INT32, MAX_INT32]
  refine ⟨h₁, h₂, ?_, stairs_valid, h₃, ?_⟩
  · rw [xor_iff h₁ h₂ (hfits _ h.1) (hfits _ h.2.1) (by simp)]
    rintro (h | ⟨h | h, -⟩)
    · cases h
    · exact absurd h.2 (by decide)
    · exact absurd h.1 (by decide)
  · rw [or_iff stairs_valid h₃ stairs_fits (hfits _ h.2.2) (by simp)]
    rintro (h | h | h | h)
    · cases h
    · exact absurd h.1 (by decide)
    · exact absurd h.2 (by decide)
    · exact absurd h.1 (by decide)

end Region

end Kompozer.Gfx

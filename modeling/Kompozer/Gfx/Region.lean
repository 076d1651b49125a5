import Kompozer.Gfx.Rect

/-! Regions (`nsRegion.h`, `nsRegion.cpp`): lists of rectangles in `(y, x)` order.
While a region is built its circular list is seen from `mCurRect`, where the next
insertion starts to look for its place; the loops that walk the list stop at the
list head, to which they give an extreme `y`. -/

namespace Kompozer.Gfx

/-- `nsRegion`. The rectangles are those from `mRectListHead.next` on. -/
structure Region where
  rects : List NsRect
  mRectCount : ℕ
  mBoundRect : NsRect
  deriving DecidableEq, Repr

/-- The list head with the `y` it was given. -/
def listHead (y : ℤ) : NsRect := ⟨0, y, 0, 0⟩

/-- The list seen from `mCurRect`: the rectangles before it, the nearest first, and
those after it. -/
structure Chain where
  prevs : List NsRect
  mCurRect : NsRect
  nexts : List NsRect
  deriving DecidableEq, Repr

namespace Chain

def rects (c : Chain) : List NsRect := c.prevs.reverse ++ c.mCurRect :: c.nexts

/-- `InsertAfter (aRect, mCurRect)`. -/
def insertAfter (aRect : NsRect) (c : Chain) : Chain := ⟨c.mCurRect :: c.prevs, aRect, c.nexts⟩

/-- `InsertBefore (aRect, mCurRect)`. -/
def insertBefore (aRect : NsRect) (c : Chain) : Chain := ⟨c.prevs, aRect, c.mCurRect :: c.nexts⟩

/-- `while (test (mCurRect->next)) mCurRect = mCurRect->next;`, or nothing when that
walks onto the list head. -/
def forward (test : NsRect → Bool) (head : NsRect) : List NsRect → NsRect → List NsRect →
    Option Chain
  | prevs, cur, [] => if test head then none else some ⟨prevs, cur, []⟩
  | prevs, cur, next :: nexts =>
    if test next then forward test head (cur :: prevs) next nexts
    else some ⟨prevs, cur, next :: nexts⟩

/-- The same with `prev`. -/
def backward (test : NsRect → Bool) (head : NsRect) : List NsRect → NsRect → List NsRect →
    Option Chain
  | [], cur, nexts => if test head then none else some ⟨[], cur, nexts⟩
  | prev :: prevs, cur, nexts =>
    if test prev then backward test head prevs prev (cur :: nexts)
    else some ⟨prev :: prevs, cur, nexts⟩

/-- The search of `InsertInPlace` and the insertion. -/
def insertInPlace (aRect : NsRect) (c : Chain) : Option Chain :=
  if aRect.y > c.mCurRect.y then do
    let c ← forward (fun next => decide (aRect.y > next.y)) (listHead MAX_INT32)
      c.prevs c.mCurRect c.nexts
    let c ← forward (fun next => decide (aRect.y = next.y ∧ aRect.x > next.x))
      (listHead MAX_INT32) c.prevs c.mCurRect c.nexts
    some (c.insertAfter aRect)
  else if aRect.y < c.mCurRect.y then do
    let c ← backward (fun prev => decide (aRect.y < prev.y)) (listHead MIN_INT32)
      c.prevs c.mCurRect c.nexts
    let c ← backward (fun prev => decide (aRect.y = prev.y ∧ aRect.x < prev.x))
      (listHead MIN_INT32) c.prevs c.mCurRect c.nexts
    some (c.insertBefore aRect)
  else if aRect.x > c.mCurRect.x then do
    let c ← forward (fun next => decide (aRect.y = next.y ∧ aRect.x > next.x))
      (listHead MAX_INT32) c.prevs c.mCurRect c.nexts
    some (c.insertAfter aRect)
  else do
    let c ← backward (fun prev => decide (aRect.y = prev.y ∧ aRect.x < prev.x))
      (listHead MIN_INT32) c.prevs c.mCurRect c.nexts
    some (c.insertBefore aRect)

end Chain

/-- A region under construction: its list, if it is not empty, and `mRectCount`. -/
structure Building where
  chain : Option Chain
  mRectCount : ℕ
  deriving DecidableEq, Repr

namespace Building

/-- `SetToElements (0)`. -/
def empty : Building := ⟨none, 0⟩

def rects (b : Building) : List NsRect := (b.chain.map Chain.rects).getD []

/-- `InsertInPlace` without optimizing. -/
def insertInPlace (aRect : NsRect) (b : Building) : Option Building :=
  if b.mRectCount = 0 then some ⟨some ⟨[], aRect, []⟩, 1⟩
  else do
    let c ← b.chain
    let c ← c.insertInPlace aRect
    some ⟨some c, b.mRectCount + 1⟩

/-- `if (TmpRect.IntersectRect (aRect1, aRect2)) InsertInPlace (new RgnRect (TmpRect));` -/
def insertIntersection (aRect1 aRect2 : NsRect) (b : Building) : Option Building :=
  let tmp := NsRect.intersectRect ⟨0, 0, 0, 0⟩ aRect1 aRect2
  if tmp.2 then b.insertInPlace tmp.1 else some b

end Building

namespace Region

/-- The neighbour on the right side continues the rectangle. -/
def joinsRight (r next : NsRect) : Bool :=
  decide (r.y = next.y ∧ r.height = next.height ∧ r.xMost = next.x)

/-- The rectangle under this one continues it. -/
def joinsBelow (r next : NsRect) : Bool :=
  decide (r.x = next.x ∧ r.width = next.width ∧ r.yMost = next.y)

/-- The loops of `Optimize` on the list from `pRect` on: join the following rectangles
to it on the right, then below, then go on with the next one. The list head has
neither width nor height, so no rectangle of a region joins it. -/
def combine (below : Bool) (pRect : NsRect) : List NsRect → List NsRect
  | [] => [pRect]
  | next :: rest =>
    if !below && joinsRight pRect next then
      combine false { pRect with width := pRect.width + next.width } rest
    else if joinsBelow pRect next then
      combine true { pRect with height := pRect.height + next.height } rest
    else pRect :: combine false next rest

/-- `SetEmpty`. -/
def setEmpty : Region := ⟨[], 0, ⟨0, 0, 0, 0⟩⟩

/-- `Optimize`. The bounding box starts from the first rectangle and the right and
lower edges of the last one, and every rectangle that is left can only extend it. -/
def optimize (b : Building) : Region :=
  if b.mRectCount = 0 then ⟨b.rects, 0, ⟨0, 0, 0, 0⟩⟩
  else match b.rects with
    | [] => ⟨[], b.mRectCount, ⟨0, 0, 0, 0⟩⟩
    | first :: rest =>
      let last := (first :: rest).getLast (by simp)
      let rects := combine false first rest
      let x := rects.foldl (fun x r => if r.x < x then r.x else x) first.x
      let xmost := rects.foldl (fun m r => if r.xMost > m then r.xMost else m) last.xMost
      let ymost := rects.foldl (fun m r => if r.yMost > m then r.yMost else m) last.yMost
      -- every `Remove` takes one off the count
      ⟨rects, b.mRectCount - ((first :: rest).length - rects.length),
        ⟨x, first.y, xmost - x, ymost - first.y⟩⟩

/-- `Copy (const nsRect&)`. -/
def copyRect (aRect : NsRect) : Region :=
  if aRect.isEmpty then setEmpty else ⟨[aRect], 1, aRect⟩

/-- `Copy (const nsRegion&)`. -/
def copy (aRegion : Region) : Region := if aRegion.mRectCount = 0 then setEmpty else aRegion

/-- The inner loop of `And`, over the check list of the second region. It leaves the
check list without the rectangles no later rectangle of the first region can
intersect. -/
def andInner (rect1 : NsRect) : List NsRect → Building → Option (List NsRect × Building)
  | [], b => if (listHead MAX_INT32).y < rect1.yMost then none else some ([], b)
  | rect2 :: rest, b =>
    if rect2.y < rect1.yMost then
      if rect2.yMost ≤ rect1.y then andInner rect1 rest b
      else if rect1.contains rect2 then do
        let b ← b.insertInPlace rect2
        andInner rect1 rest b
      else do
        let b ← b.insertIntersection rect1 rect2
        let (list, b) ← andInner rect1 rest b
        some (rect2 :: list, b)
    else some (rect2 :: rest, b)

/-- The outer loop, over the first region. -/
def andOuter (bound2 : NsRect) : List NsRect → List NsRect → Building → Option Building
  | [], _, b => if (listHead MAX_INT32).y < bound2.yMost then none else some b
  | rect1 :: rest, list, b =>
    if rect1.y < bound2.yMost then
      if rect1.intersects bound2 then do
        let (list, b) ← andInner rect1 list b
        andOuter bound2 rest list b
      else andOuter bound2 rest list b
    else some b

/-- `nsRegion::And` of two regions into a third. The flag says that the two are the
same object. -/
def and (same : Bool) (aRgn1 aRgn2 : Region) : Option Region :=
  if same then some (copy aRgn1)
  else if aRgn1.mRectCount = 0 ∨ aRgn2.mRectCount = 0 then some setEmpty
  else match aRgn1.rects, aRgn2.rects with
    | first1 :: rest1, first2 :: rest2 =>
      if aRgn1.mRectCount = 1 ∧ aRgn2.mRectCount = 1 then
        some (copyRect (NsRect.intersectRect ⟨0, 0, 0, 0⟩ first1 first2).1)
      else if !aRgn1.mBoundRect.intersects aRgn2.mBoundRect then some setEmpty
      else if aRgn1.mRectCount = 1 ∧ aRgn1.mBoundRect.contains aRgn2.mBoundRect then
        some (copy aRgn2)
      else if aRgn2.mRectCount = 1 ∧ aRgn2.mBoundRect.contains aRgn1.mBoundRect then
        some (copy aRgn1)
      else
        -- the outer loop prefers the region that reaches below the other
        let swap := ((first2 :: rest2).getLast (by simp)).y ≥ aRgn1.mBoundRect.yMost
        let src1 := if swap then aRgn2 else aRgn1
        let src2 := if swap then aRgn1 else aRgn2
        (andOuter src2.mBoundRect src1.rects src2.rects .empty).map optimize
    | _, _ => none

/-- The loop of `And` with a rectangle. -/
def andRectLoop (aRect : NsRect) : List NsRect → Building → Option Building
  | [], b => if (listHead MAX_INT32).y < aRect.yMost then none else some b
  | rect :: rest, b =>
    if rect.y < aRect.yMost then do
      let b ← b.insertIntersection rect aRect
      andRectLoop aRect rest b
    else some b

/-- `nsRegion::And` of a region and a rectangle into another region. -/
def andRect (aRegion : Region) (aRect : NsRect) : Option Region :=
  if aRegion.mRectCount = 0 ∨ aRect.isEmpty then some setEmpty
  else match aRegion.rects with
    | [] => none
    | first :: _ =>
      if aRegion.mRectCount = 1 then
        some (copyRect (NsRect.intersectRect ⟨0, 0, 0, 0⟩ first aRect).1)
      else if !aRect.intersects aRegion.mBoundRect then some setEmpty
      else if aRect.contains aRegion.mBoundRect then some (copy aRegion)
      else (andRectLoop aRect aRegion.rects .empty).map optimize

end Region

end Kompozer.Gfx

import Kompozer.Gfx.Rect

/-! The space manager (`nsSpaceManager.cpp`): the rects that floats occupy, in bands from top to
bottom. Coordinates (`nscoord`) are integers; the header of the circular list is the end of the list, its
`mTop` (`NSCOORD_MIN`) is the top of no rect. -/

namespace Kompozer.Layout

open Gfx

def NSCOORD_MIN : ℤ := -2147483648
def NSCOORD_MAX : ℤ := 2147483647
def NS_UNCONSTRAINEDSIZE : ℤ := 1073741824

/-- A frame, told apart by its address. -/
abbrev nsIFrame := ℕ

inductive nsresult
  | NS_OK
  | NS_ERROR_FAILURE
  | NS_ERROR_INVALID_ARG
deriving DecidableEq, Repr

/-! ### Band rects -/

/-- `BandRect`. `mNumFrames` is the length of the list, a single frame is a list of one. -/
structure BandRect where
  mLeft : ℤ
  mTop : ℤ
  mRight : ℤ
  mBottom : ℤ
  mFrames : List nsIFrame
deriving DecidableEq, Repr

namespace BandRect

def mNumFrames (r : BandRect) : ℕ := r.mFrames.length

/-- The top part and the new rect for the bottom part. -/
def SplitVertically (r : BandRect) (aBottom : ℤ) : BandRect × BandRect :=
  ({ r with mBottom := aBottom }, { r with mTop := aBottom })

/-- The left part and the new rect for the right part. -/
def SplitHorizontally (r : BandRect) (aRight : ℤ) : BandRect × BandRect :=
  ({ r with mRight := aRight }, { r with mLeft := aRight })

def IsOccupiedBy (r : BandRect) (aFrame : nsIFrame) : Bool := r.mFrames.contains aFrame

def AddFrame (r : BandRect) (aFrame : nsIFrame) : BandRect :=
  { r with mFrames := r.mFrames ++ [aFrame] }

def RemoveFrame (r : BandRect) (aFrame : nsIFrame) : BandRect :=
  { r with mFrames := r.mFrames.erase aFrame }

def HasSameFrameList (r aBandRect : BandRect) : Bool :=
  if r.mNumFrames ≠ aBandRect.mNumFrames then false
  else r.mFrames.all fun f => aBandRect.mFrames.contains f

end BandRect

/-! ### Bands -/

/-- The rects of the band a list of rects begins with: those with the top of the first. -/
def bandOf : List BandRect → List BandRect
  | [] => []
  | r :: l => r :: l.takeWhile fun s => s.mTop = r.mTop

/-- What follows that band, empty for a null pointer. -/
def GetNextBand : List BandRect → List BandRect
  | [] => []
  | r :: l => l.dropWhile fun s => s.mTop = r.mTop

theorem length_getNextBand_lt {l : List BandRect} (h : l ≠ []) :
    (GetNextBand l).length < l.length := by
  cases l with
  | nil => exact absurd rfl h
  | cons r l => exact Nat.lt_succ_of_le (List.dropWhile_suffix _).length_le

def YMost (mBandList : List BandRect) : Option ℤ := mBandList.getLast?.map (·.mBottom)

/-- The two bands that take the place of a band. -/
def DivideBand (aBand : List BandRect) (aBottom : ℤ) : List BandRect × List BandRect :=
  (aBand.map fun r => (r.SplitVertically aBottom).1, aBand.map fun r => (r.SplitVertically aBottom).2)

/-- The loop of `CanJoinBands` over the rects of both bands. -/
def canJoinLoop : List BandRect → List BandRect → Bool
  | [], [] => true
  | aBand :: l, aPrevBand :: l' =>
    if aBand.mLeft ≠ aPrevBand.mLeft ∨ aBand.mRight ≠ aPrevBand.mRight then false
    else if !aBand.HasSameFrameList aPrevBand then false
    else canJoinLoop l l'
  | _, _ => false

def CanJoinBands (aBand aPrevBand : List BandRect) : Bool :=
  match aBand, aPrevBand with
  | b :: _, p :: _ => if p.mBottom = b.mTop then canJoinLoop aBand aPrevBand else false
  | _, _ => false

/-- The kept band when the bands are joined, none when they are not. -/
def JoinBands (aBand aPrevBand : List BandRect) : Option (List BandRect) :=
  if CanJoinBands aBand aPrevBand then
    some (aBand.zipWith (fun b p => { b with mTop := p.mTop }) aPrevBand)
  else none

/-! ### Adding a rect -/

/-- The end of a round of `AddRectToBand`, where the left edges of the rects are the same. -/
def addAligned (aBand aBandRect : BandRect) (next : List BandRect)
    (go : BandRect → List BandRect) : List BandRect :=
  let f := aBandRect.mFrames.headD 0
  if aBand.mRight > aBandRect.mRight then
    -- case 6
    let (aBand, r1) := aBand.SplitHorizontally aBandRect.mRight
    aBand.AddFrame f :: r1 :: next
  else if aBand.mRight = aBandRect.mRight then aBand.AddFrame f :: next
  -- case 5
  else aBand.AddFrame f :: go { aBandRect with mLeft := aBand.mRight }

/-- `AddRectToBand`, on the rects of the band from `aBand` on. -/
def AddRectToBand : List BandRect → BandRect → List BandRect
  | [], aBandRect => [aBandRect]
  | aBand :: next, aBandRect =>
    let f := aBandRect.mFrames.headD 0
    if aBandRect.mLeft < aBand.mLeft then
      -- case 1
      if aBandRect.mRight ≤ aBand.mLeft then aBandRect :: aBand :: next
      -- case 3
      else if aBandRect.mRight > aBand.mRight then
        let (aBandRect, r1) := aBandRect.SplitHorizontally aBand.mLeft
        aBandRect :: addAligned aBand r1 next fun r => AddRectToBand next r
      -- case 2
      else if aBand.mRight > aBandRect.mRight then
        let (left, r1) := aBand.SplitHorizontally aBandRect.mRight
        { aBandRect with mRight := aBand.mLeft } :: left.AddFrame f :: r1 :: next
      else { aBandRect with mRight := aBand.mLeft } :: aBand.AddFrame f :: next
    else if aBandRect.mLeft > aBand.mLeft then
      -- case 4
      if aBandRect.mLeft ≥ aBand.mRight then aBand :: AddRectToBand next aBandRect
      else
        let (left, r1) := aBand.SplitHorizontally aBandRect.mLeft
        left :: addAligned r1 aBandRect next fun r => AddRectToBand next r
    else addAligned aBand aBandRect next fun r => AddRectToBand next r

/-- The end of a round of `InsertBandRect`, where the tops of band and rect are the same. -/
def insertAligned (band : List BandRect) (aBandRect : BandRect) (next : List BandRect)
    (go : BandRect → List BandRect) : List BandRect :=
  match band with
  | [] => next
  | b :: _ =>
    if b.mBottom > aBandRect.mBottom then
      let (top, bottom) := DivideBand band aBandRect.mBottom
      AddRectToBand top aBandRect ++ (bottom ++ next)
    else if aBandRect.mBottom = b.mBottom then AddRectToBand band aBandRect ++ next
    else
      -- case 4 and case 7
      let bandRect1 := { aBandRect with mBottom := b.mBottom }
      let aBandRect := { aBandRect with mTop := b.mBottom }
      AddRectToBand band bandRect1 ++ if next = [] then [aBandRect] else go aBandRect

/-- The loop of `InsertBandRect`. -/
def insertLoop (bands : List BandRect) (aBandRect : BandRect) : List BandRect :=
  match bands with
  | [] => []
  | b :: l =>
    let band := bandOf (b :: l)
    let next := GetNextBand (b :: l)
    if aBandRect.mTop < b.mTop then
      -- case 1
      if aBandRect.mBottom ≤ b.mTop then aBandRect :: b :: l
      else
        -- case 2 and case 7
        { aBandRect with mBottom := b.mTop } ::
          insertAligned band { aBandRect with mTop := b.mTop } next fun r => insertLoop next r
    else if aBandRect.mTop > b.mTop then
      -- case 5
      if aBandRect.mTop ≥ b.mBottom then band ++ insertLoop next aBandRect
      else
        -- case 3 and case 4
        let (top, bottom) := DivideBand band aBandRect.mTop
        top ++ insertAligned bottom aBandRect next fun r => insertLoop next r
    else insertAligned band aBandRect next fun r => insertLoop next r
termination_by bands.length
decreasing_by all_goals exact length_getNextBand_lt (by simp)

def InsertBandRect (mBandList : List BandRect) (aBandRect : BandRect) : List BandRect :=
  match YMost mBandList with
  | none => mBandList ++ [aBandRect]
  | some yMost =>
    if aBandRect.mTop ≥ yMost then mBandList ++ [aBandRect] else insertLoop mBandList aBandRect

/-! ### Removing a frame -/

/-- The inner loop of `RemoveRegion` over the rects of a band, `prevRect` still to come. The result
are the rects that stay and whether a rect was found. -/
def removeInBand (aFrame : nsIFrame) (prevRect : Option BandRect) (prevIsSharedRect : Bool) :
    List BandRect → List BandRect × Bool
  | [] => (prevRect.toList, false)
  | rect :: l =>
    if rect.IsOccupiedBy aFrame && !decide (rect.mNumFrames > 1) then
      (prevRect.toList ++ (removeInBand aFrame none false l).1, true)
    else
      let isSharedRect := rect.IsOccupiedBy aFrame
      let rect := if isSharedRect then rect.RemoveFrame aFrame else rect
      match prevRect with
      | none =>
        let (out, found) := removeInBand aFrame (some rect) isSharedRect l
        (out, isSharedRect || found)
      | some prev =>
        if (prevIsSharedRect || isSharedRect) && (prev.mRight = rect.mLeft) &&
            prev.HasSameFrameList rect then
          let (out, found) :=
            removeInBand aFrame (some { rect with mLeft := prev.mLeft }) isSharedRect l
          (out, isSharedRect || found)
        else
          let (out, found) := removeInBand aFrame (some rect) isSharedRect l
          (prev :: out, isSharedRect || found)

/-- The outer loop of `RemoveRegion`, the rects of `prevBand` still to come. -/
def removeLoop (aFrame : nsIFrame) (prevBand : List BandRect) (prevFoundMatchingRect : Bool)
    (bands : List BandRect) : List BandRect :=
  match bands with
  | [] => prevBand
  | b :: l =>
    let (band, foundMatchingRect) := removeInBand aFrame none false (bandOf (b :: l))
    let joined :=
      if band ≠ [] ∧ prevBand ≠ [] ∧ (foundMatchingRect || prevFoundMatchingRect) = true then
        JoinBands band prevBand
      else none
    match joined with
    | some kept => removeLoop aFrame kept foundMatchingRect (GetNextBand (b :: l))
    | none => prevBand ++ removeLoop aFrame band foundMatchingRect (GetNextBand (b :: l))
termination_by bands.length
decreasing_by all_goals exact length_getNextBand_lt (by simp)

/-! ### The manager -/

structure FrameInfo where
  mFrame : nsIFrame
  mRect : NsRect
deriving DecidableEq, Repr

structure SpaceManagerState where
  mX : ℤ
  mY : ℤ
  mLastFrame : Option nsIFrame
  mLowestTop : ℤ
deriving DecidableEq, Repr

structure nsSpaceManager where
  mX : ℤ
  mY : ℤ
  mBandList : List BandRect
  mLowestTop : ℤ
  mFrameInfoMap : List FrameInfo
  mSavedStates : List SpaceManagerState

namespace nsSpaceManager

def new : nsSpaceManager := ⟨0, 0, [], NSCOORD_MIN, [], []⟩

def GetFrameInfoFor (m : nsSpaceManager) (aFrame : nsIFrame) : Option FrameInfo :=
  m.mFrameInfoMap.find? fun info => info.mFrame = aFrame

/-- The region of a frame, in world coordinates. -/
def worldRect (m : nsSpaceManager) (r : NsRect) : NsRect :=
  ⟨r.x + m.mX, r.y + m.mY, r.width, r.height⟩

def AddRectRegion (m : nsSpaceManager) (aFrame : nsIFrame) (aUnavailableSpace : NsRect) :
    nsresult × nsSpaceManager :=
  if (m.GetFrameInfoFor aFrame).isSome then (.NS_ERROR_FAILURE, m)
  else
    let rect := m.worldRect aUnavailableSpace
    let m := { m with
      mLowestTop := if rect.y > m.mLowestTop then rect.y else m.mLowestTop
      mFrameInfoMap := ⟨aFrame, rect⟩ :: m.mFrameInfoMap }
    if aUnavailableSpace.height ≤ 0 then (.NS_OK, m)
    else
      (.NS_OK, { m with
        mBandList := InsertBandRect m.mBandList ⟨rect.x, rect.y, rect.xMost, rect.yMost, [aFrame]⟩ })

/-- `DestroyFrameInfo`, of the first entry of the frame. -/
def DestroyFrameInfo (m : nsSpaceManager) (aFrame : nsIFrame) : nsSpaceManager :=
  { m with mFrameInfoMap := m.mFrameInfoMap.eraseP fun info => info.mFrame = aFrame }

def RemoveRegion (m : nsSpaceManager) (aFrame : nsIFrame) : nsresult × nsSpaceManager :=
  match m.GetFrameInfoFor aFrame with
  | none => (.NS_ERROR_INVALID_ARG, m)
  | some info =>
    let m :=
      if info.mRect.height > 0 then
        { m with mBandList := removeLoop aFrame [] false m.mBandList }
      else m
    (.NS_OK, m.DestroyFrameInfo aFrame)

def PushState (m : nsSpaceManager) : nsSpaceManager :=
  { m with mSavedStates :=
      ⟨m.mX, m.mY, m.mFrameInfoMap.head?.map (·.mFrame), m.mLowestTop⟩ :: m.mSavedStates }

/-- The loop of `PopState`; every round destroys a frame info, so their number bounds the rounds. -/
def popLoop (mLastFrame : Option nsIFrame) : ℕ → nsSpaceManager → nsSpaceManager
  | 0, m => m
  | k + 1, m =>
    match m.mFrameInfoMap with
    | [] => m
    | info :: _ =>
      if some info.mFrame ≠ mLastFrame then popLoop mLastFrame k (m.RemoveRegion info.mFrame).2
      else m

def PopState (m : nsSpaceManager) : nsSpaceManager :=
  match m.mSavedStates with
  | [] => m
  | state :: states =>
    { popLoop state.mLastFrame m.mFrameInfoMap.length m with
      mX := state.mX, mY := state.mY, mLowestTop := state.mLowestTop, mSavedStates := states }

def Translate (m : nsSpaceManager) (aDx aDy : ℤ) : nsSpaceManager :=
  { m with mX := m.mX + aDx, mY := m.mY + aDy }

end nsSpaceManager

/-! ### Band data -/

inductive TrapezoidState
  | Available
  | Occupied (mFrame : nsIFrame)
  | OccupiedMultiple (mFrames : List nsIFrame)
deriving DecidableEq, Repr

/-- A trapezoid, only ever a rectangle. -/
structure nsBandTrapezoid where
  mState : TrapezoidState
  rect : NsRect
deriving DecidableEq, Repr

/-- What a query sets: its result, `mCount` and the trapezoids. -/
structure BandData where
  result : nsresult
  mCount : ℕ
  mTrapezoids : List nsBandTrapezoid
deriving DecidableEq, Repr

/-- The values `GetBandAvailableSpace` computes before its loop, and the size of the buffer. -/
structure BandQuery where
  mX : ℤ
  localY : ℤ
  height : ℤ
  rightEdge : ℤ
  mSize : ℕ

namespace BandQuery

variable (q : BandQuery)

def available (left right : ℤ) : nsBandTrapezoid :=
  ⟨.Available, left - q.mX, q.localY, right - left, q.height⟩

def occupied (r : BandRect) : nsBandTrapezoid :=
  let x := if r.mLeft < q.mX then q.mX else r.mLeft
  ⟨if r.mNumFrames = 1 then .Occupied (r.mFrames.headD 0) else .OccupiedMultiple r.mFrames,
    x - q.mX, q.localY, r.mRight - x, q.height⟩

/-- Behind the loop of `GetBandAvailableSpace`. -/
def finish (left : ℤ) (data : List nsBandTrapezoid) : BandData :=
  if left < q.rightEdge ∨ data.length = 0 then
    if data.length ≥ q.mSize then ⟨.NS_ERROR_FAILURE, data.length + 1, data⟩
    else ⟨.NS_OK, data.length + 1, data ++ [q.available left q.rightEdge]⟩
  else ⟨.NS_OK, data.length, data⟩

/-- The loop of `GetBandAvailableSpace` over the rects within the clip width. -/
def spaceLoop (left : ℤ) (data : List nsBandTrapezoid) : List BandRect → BandData
  | [] => q.finish left data
  | r :: l =>
    if r.mLeft < q.rightEdge then
      if r.mLeft > left ∧ data.length ≥ q.mSize then
        ⟨.NS_ERROR_FAILURE, data.length + (2 * (r :: l).length + 2), data⟩
      else
        let data := if r.mLeft > left then data ++ [q.available left r.mLeft] else data
        if data.length ≥ q.mSize then
          ⟨.NS_ERROR_FAILURE, data.length + (2 * (r :: l).length + 1), data⟩
        else spaceLoop r.mRight (data ++ [q.occupied r]) l
    else q.finish left data

end BandQuery

namespace nsSpaceManager

def GetBandAvailableSpace (m : nsSpaceManager) (aBand : List BandRect) (aY : ℤ)
    (aMaxWidth aMaxHeight : ℤ) (mSize : ℕ) : BandData :=
  let bottom := (aBand.head?.map (·.mBottom)).getD 0
  let q : BandQuery :=
    ⟨m.mX, aY - m.mY, min (bottom - aY) aMaxHeight, m.mX + aMaxWidth, mSize⟩
  -- skip the rects to the left of the local coordinate space
  q.spaceLoop m.mX [] (aBand.dropWhile fun r => !decide (r.mRight > m.mX))

/-- The loop of `GetBandData` over the bands. -/
def bandDataLoop (m : nsSpaceManager) (aYOffset aMaxWidth maxHeight : ℤ) (mSize : ℕ)
    (bands : List BandRect) : BandData :=
  let y := m.mY + aYOffset
  match bands with
  | [] => ⟨.NS_OK, 0, []⟩
  | b :: l =>
    if b.mTop > y then
      ⟨.NS_OK, 1, [⟨.Available, 0, aYOffset, aMaxWidth, min (b.mTop - y) maxHeight⟩]⟩
    else if y < b.mBottom then
      m.GetBandAvailableSpace (bandOf (b :: l)) y aMaxWidth maxHeight mSize
    else m.bandDataLoop aYOffset aMaxWidth maxHeight mSize (GetNextBand (b :: l))
termination_by bands.length
decreasing_by exact length_getNextBand_lt (by simp)

def GetBandData (m : nsSpaceManager) (aYOffset aMaxWidth aMaxHeight : ℤ) (mSize : ℕ) :
    BandData :=
  let y := m.mY + aYOffset
  let maxHeight :=
    if aMaxHeight = NS_UNCONSTRAINEDSIZE then NS_UNCONSTRAINEDSIZE
    else max 0 (aMaxHeight - aYOffset)
  match YMost m.mBandList with
  | none => ⟨.NS_OK, 1, [⟨.Available, 0, aYOffset, aMaxWidth, maxHeight⟩]⟩
  | some yMost =>
    if y ≥ yMost then ⟨.NS_OK, 1, [⟨.Available, 0, aYOffset, aMaxWidth, maxHeight⟩]⟩
    else m.bandDataLoop aYOffset aMaxWidth maxHeight mSize m.mBandList

end nsSpaceManager

end Kompozer.Layout

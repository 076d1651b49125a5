import Kompozer.Editor.Txns
import Kompozer.Lib.Splice

/-! Registered ranges (`nsSelectionState.cpp`) and what the editor's operations do to them. A
range store has two endpoints, each a node and an offset in it, and the range updater shifts
them when the tree changes. -/

namespace Kompozer.Editor

open Dom NsResult Gaps

/-- `nsEditor::GetNodeLocation`. A node in no tree has no parent and leaves the offset alone. -/
def getNodeLocation (d : Document) (inChild : NodeId) : Option NodeId × ℤ :=
  match d.mParent inChild with
  | none => (none, 0)
  | some outParent =>
    match (d.children outParent).idxOf? inChild with
    | none => (some outParent, -1)
    | some i => (some outParent, i)

/-- `nsRangeStore`. -/
structure nsRangeStore where
  startNode : NodeId
  startOffset : ℤ
  endNode : NodeId
  endOffset : ℤ
  deriving DecidableEq

abbrev Endpoint := NodeId × ℤ

namespace nsRangeStore

def start (item : nsRangeStore) : Endpoint := (item.startNode, item.startOffset)

def stop (item : nsRangeStore) : Endpoint := (item.endNode, item.endOffset)

/-- The same change of both endpoints. -/
def adjust (f : Endpoint → Endpoint) (item : nsRangeStore) : nsRangeStore :=
  ⟨(f item.start).1, (f item.start).2, (f item.stop).1, (f item.stop).2⟩

end nsRangeStore

/-- `nsRangeUpdater`. The lock is set while an operation does its own adjusting. -/
structure nsRangeUpdater where
  mArray : List nsRangeStore
  mLock : Bool
  deriving DecidableEq

namespace nsRangeUpdater

variable (ru : nsRangeUpdater)

def adjustAll (f : Endpoint → Endpoint) : nsRangeUpdater :=
  { ru with mArray := ru.mArray.map (nsRangeStore.adjust f) }

/-- The gravity methods do nothing while the lock is set. -/
def selAdj (f : Endpoint → Endpoint) : nsRangeUpdater := if ru.mLock then ru else ru.adjustAll f

/-! ### Gravity methods -/

def selAdjCreateNode (aParent : NodeId) (aPosition : ℤ) : nsRangeUpdater :=
  ru.selAdj fun e => if e.1 = aParent ∧ e.2 > aPosition then (e.1, e.2 + 1) else e

def selAdjInsertNode (aParent : NodeId) (aPosition : ℤ) : nsRangeUpdater :=
  ru.selAdjCreateNode aParent aPosition

/-- The node is still in the tree. -/
def selAdjDeleteNode (d : Document) (aNode : NodeId) : nsRangeUpdater :=
  match getNodeLocation d aNode with
  | (none, _) => ru
  | (some parent, offset) =>
    ru.selAdj fun e =>
      -- endpoints that are after the node and in the same parent
      let e := if e.1 = parent ∧ e.2 > offset then (e.1, e.2 - 1) else e
      -- endpoints in the node or in descendants of it
      if e.1 = aNode ∨ d.contentIsDescendantOf e.1 aNode then (parent, offset) else e

def selAdjDeleteText (aTextNode : NodeId) (aOffset aLength : ℤ) : nsRangeUpdater :=
  ru.selAdj fun e =>
    if e.1 = aTextNode ∧ e.2 > aOffset then
      (e.1, if e.2 - aLength < 0 then 0 else e.2 - aLength)
    else e

def willMoveNode : nsRangeUpdater := { ru with mLock := true }

def didMoveNode (aOldParent : NodeId) (aOldOffset : ℤ) (aNewParent : NodeId) (aNewOffset : ℤ) :
    nsRangeUpdater :=
  if !ru.mLock then ru
  else { ru with mLock := false }.adjustAll fun e =>
    -- like a delete in the old parent
    let e := if e.1 = aOldParent ∧ e.2 > aOldOffset then (e.1, e.2 - 1) else e
    -- and like an insert in the new one
    if e.1 = aNewParent ∧ e.2 > aNewOffset then (e.1, e.2 + 1) else e

end nsRangeUpdater

/-! ### Operations of the editor -/

/-- `DeleteTextTxn::DoTransaction` with its range updater. -/
def DeleteTextTxn.doTracked (t : DeleteTextTxn) (d : Document) (ru : nsRangeUpdater) :
    NsResult × Document × nsRangeUpdater :=
  let r := t.doTransaction d
  (r.1, r.2.2,
    if r.1.failed then ru else ru.selAdjDeleteText t.mElement t.mOffset t.mNumCharsToDelete)

/-- `DeleteElementTxn::DoTransaction` with its range updater, which comes first. -/
def DeleteElementTxn.doTracked (t : DeleteElementTxn) (d : Document) (ru : nsRangeUpdater) :
    NsResult × Document × nsRangeUpdater :=
  let r := t.doTransaction d
  (r.1, r.2.2, ru.selAdjDeleteNode d t.mElement)

/-- `nsEditor::CreateNode`. The transaction takes the position as a `PRUint32`. -/
def createNode (aTag : String) (aParent : NodeId) (aPosition : ℤ) (d : Document)
    (ru : nsRangeUpdater) : NsResult × Document × nsRangeUpdater :=
  let r := CreateElementTxn.doTransaction ⟨aTag, aParent, (aPosition % 2 ^ 32).toNat, none, none⟩ d
  (r.1, r.2.2, ru.selAdjCreateNode aParent aPosition)

/-- `nsEditor::InsertNode`. -/
def insertNode (aNode aParent : NodeId) (aPosition : ℤ) (d : Document) (ru : nsRangeUpdater) :
    NsResult × Document × nsRangeUpdater :=
  let r := InsertElementTxn.doTransaction ⟨aNode, aParent, aPosition⟩ d
  (r.1, r.2.2, ru.selAdjInsertNode aParent aPosition)

/-- `nsEditor::DeleteNode`. -/
def deleteNode (aElement : NodeId) (d : Document) (ru : nsRangeUpdater) :
    NsResult × Document × nsRangeUpdater :=
  DeleteElementTxn.doTracked ⟨aElement, none, none⟩ d ru

/-- The magic value -1 means "move to end of aParent". -/
def moveOffset (d : Document) (aParent : NodeId) (aOffset : ℤ) : ℤ :=
  if aOffset = -1 then d.length aParent else aOffset

/-- `nsEditor::MoveNode`. -/
def moveNode (aNode aParent : NodeId) (aOffset : ℤ) (d : Document) (ru : nsRangeUpdater) :
    NsResult × Document × nsRangeUpdater :=
  let oldParent := (getNodeLocation d aNode).1
  let oldOffset := (getNodeLocation d aNode).2
  let aOffset := moveOffset d aParent aOffset
  -- don't do anything if it's already in right place
  if oldParent = some aParent ∧ oldOffset = aOffset then (.ok, d, ru)
  else
    let notify (ru : nsRangeUpdater) : nsRangeUpdater :=
      match oldParent with
      | none => { ru with mLock := false }
      | some oldParent => ru.didMoveNode oldParent oldOffset aParent aOffset
    -- when we delete aNode, it will make the offsets after it off by one
    let target := if oldParent = some aParent ∧ oldOffset < aOffset then aOffset - 1 else aOffset
    let r := deleteNode aNode d ru.willMoveNode
    if r.1.failed then (r.1, r.2.1, notify r.2.2)
    else
      let r := insertNode aNode aParent target r.2.1 r.2.2
      (r.1, r.2.1, notify r.2.2)

/-! ### Endpoints before and after -/

namespace nsRangeUpdater

/-- The registered endpoints. -/
def endpoints (ru : nsRangeUpdater) : List Endpoint :=
  ru.mArray.flatMap fun item => [item.start, item.stop]

/-- Every registered endpoint and the one it becomes are related. -/
def Tracks (P : Endpoint → Endpoint → Prop) (ru ru' : nsRangeUpdater) : Prop :=
  List.Forall₂ (fun item item' : nsRangeStore =>
    P item.start item'.start ∧ P item.stop item'.stop) ru.mArray ru'.mArray

variable {ru : nsRangeUpdater} {P : Endpoint → Endpoint → Prop} {f : Endpoint → Endpoint}

theorem tracks_map_iff {ru' : nsRangeUpdater}
    (h : ru'.mArray = ru.mArray.map (nsRangeStore.adjust f)) :
    ru.Tracks P ru' ↔ ∀ e ∈ ru.endpoints, P e (f e) := by
  rw [Tracks, h, List.forall₂_map_right_iff, List.forall₂_same]
  simp only [endpoints, List.mem_flatMap, List.mem_cons, List.not_mem_nil, or_false]
  constructor
  · rintro hall e ⟨item, hi, rfl | rfl⟩
    · exact (hall item hi).1
    · exact (hall item hi).2
  · intro hall item hi
    exact ⟨hall _ ⟨item, hi, .inl rfl⟩, hall _ ⟨item, hi, .inr rfl⟩⟩

/-- The endpoints do not change while the lock is set. -/
theorem selAdj_mArray : (ru.selAdj f).mArray =
    ru.mArray.map (nsRangeStore.adjust fun e => if ru.mLock then e else f e) := by
  rw [selAdj]
  split_ifs with h
  · exact (List.map_id _).symm
  · rfl

theorem tracks_selAdj_iff :
    ru.Tracks P (ru.selAdj f) ↔ ∀ e ∈ ru.endpoints, P e (if ru.mLock then e else f e) :=
  tracks_map_iff selAdj_mArray

theorem selAdj_of_lock (h : ru.mLock = true) : ru.selAdj f = ru := if_pos h

end nsRangeUpdater

end Kompozer.Editor

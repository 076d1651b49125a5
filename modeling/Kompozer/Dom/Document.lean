import Kompozer.Xpcom
import Mathlib

/-! The tree of elements and text nodes (`nsGenericElement.cpp`,
`nsGenericDOMDataNode.cpp`). Nodes are identities in a store that gives each its parent
and its contents; nodes are created but never destroyed, so a removed subtree stays in the
store. Attributes, mutation events and the notifications of observers are not part of it. -/

namespace Kompozer.Dom

open NsResult

abbrev NodeId := ℕ

abbrev PRUnichar := UInt16

/-- What a node contains. -/
inductive Body
  | text (mText : List PRUnichar)
  | element (mTag : String) (mAttrsAndChildren : List NodeId)
  deriving DecidableEq, Repr

namespace Body

def isText : Body → Bool
  | text _ => true
  | element _ _ => false

def children : Body → List NodeId
  | text _ => []
  | element _ cs => cs

def data : Body → List PRUnichar
  | text t => t
  | element _ _ => []

/-- `nsEditor::GetLengthOfDOMNode` and `nsRange::GetNodeLength`. -/
def length : Body → ℕ
  | text t => t.length
  | element _ cs => cs.length

def withChildren (cs : List NodeId) : Body → Body
  | text t => text t
  | element tag _ => element tag cs

def withData (t : List PRUnichar) : Body → Body
  | text _ => text t
  | element tag cs => element tag cs

/-- `CloneNode (PR_FALSE)`. -/
def cloneNode : Body → Body
  | text t => text t
  | element tag _ => element tag []

end Body

/-- A store of nodes. `fresh` is the identity the next created node gets. -/
@[ext] structure Document where
  mParent : NodeId → Option NodeId
  body : NodeId → Body
  fresh : NodeId

namespace Document

variable (d : Document)

def isText (n : NodeId) : Bool := (d.body n).isText
def children (n : NodeId) : List NodeId := (d.body n).children
def data (n : NodeId) : List PRUnichar := (d.body n).data
def length (n : NodeId) : ℕ := (d.body n).length

def setParent (n : NodeId) (p : Option NodeId) : Document :=
  { d with mParent := Function.update d.mParent n p }

def setBody (n : NodeId) (b : Body) : Document :=
  { d with body := Function.update d.body n b }

def setChildren (n : NodeId) (cs : List NodeId) : Document :=
  d.setBody n ((d.body n).withChildren cs)

/-- `SetText`. -/
def setText (n : NodeId) (t : List PRUnichar) : Document :=
  d.setBody n ((d.body n).withData t)

/-- A new node with the given contents, in no tree. -/
def create (b : Body) : Document :=
  { (d.setBody d.fresh b).setParent d.fresh none with fresh := d.fresh + 1 }

/-! ### Children -/

/-- Put a node into the list of children. -/
def link (aKid aParent : NodeId) (aIndex : ℕ) : Document :=
  (d.setChildren aParent ((d.children aParent).insertIdx aIndex aKid)).setParent aKid (some aParent)

/-- Take a node out of the list of children. -/
def unlink (aKid aParent : NodeId) (aIndex : ℕ) : Document :=
  (d.setChildren aParent ((d.children aParent).eraseIdx aIndex)).setParent aKid none

/-- `InsertChildAt`. -/
def insertChildAt (aKid aParent : NodeId) (aIndex : ℕ) : NsResult × Document :=
  if aIndex ≤ (d.children aParent).length then (.ok, d.link aKid aParent aIndex)
  else (NS_ERROR_ILLEGAL_VALUE, d)

/-- `RemoveChildAt`. -/
def removeChildAt (aParent : NodeId) (aIndex : ℕ) : Document :=
  match (d.children aParent)[aIndex]? with
  | none => d
  | some oldKid => d.unlink oldKid aParent aIndex

/-- The loop of `ContentIsDescendantOf` for at most `k` nodes. -/
def isDescendantWithin (aPossibleAncestor : NodeId) : ℕ → NodeId → Bool
  | 0, _ => false
  | k + 1, n =>
    if n = aPossibleAncestor then true
    else match d.mParent n with
      | none => false
      | some p => isDescendantWithin aPossibleAncestor k p

/-- `nsContentUtils::ContentIsDescendantOf`. A chain of parents visits no node twice, so
it is never longer than the number of nodes. -/
def contentIsDescendantOf (aPossibleDescendant aPossibleAncestor : NodeId) : Bool :=
  d.isDescendantWithin aPossibleAncestor d.fresh aPossibleDescendant

/-- The index in front of a child, or at the end. -/
def insertPosition (aParent : NodeId) : Option NodeId → Option ℕ
  | none => some (d.children aParent).length
  | some ref => (d.children aParent).idxOf? ref

/-- `InsertBefore`, for a new child that is not a document fragment. -/
def insertBefore (aParent aNewChild : NodeId) (aRefChild : Option NodeId) : NsResult × Document :=
  if d.isText aParent then (NS_ERROR_DOM_HIERARCHY_REQUEST_ERR, d)
  else match d.insertPosition aParent aRefChild with
    | none => (NS_ERROR_DOM_NOT_FOUND_ERR, d)
    | some insPos =>
      if aRefChild = some aNewChild then (.ok, d)
      else if d.contentIsDescendantOf aParent aNewChild then
        (NS_ERROR_DOM_HIERARCHY_REQUEST_ERR, d)
      else match d.mParent aNewChild with
        | none => d.insertChildAt aNewChild aParent insPos
        | some oldParent =>
          match (d.children oldParent).idxOf? aNewChild with
          | none => (NS_ERROR_DOM_NOT_SUPPORTED_ERR, d)
          | some removeIndex =>
            -- the index moves when the node was a sibling in front of it
            let insPos :=
              if oldParent = aParent ∧ removeIndex < insPos then insPos - 1 else insPos
            (d.removeChildAt oldParent removeIndex).insertChildAt aNewChild aParent insPos

/-- `AppendChild`. -/
def appendChild (aParent aNewChild : NodeId) : NsResult × Document :=
  d.insertBefore aParent aNewChild none

/-- `RemoveChild`. -/
def removeChild (aParent aOldChild : NodeId) : NsResult × Document :=
  match (d.children aParent).idxOf? aOldChild with
  | none => (NS_ERROR_DOM_NOT_FOUND_ERR, d)
  | some pos => (.ok, d.removeChildAt aParent pos)

/-- `GetNextSibling`. -/
def getNextSibling (n : NodeId) : Option NodeId := do
  let p ← d.mParent n
  let i ← (d.children p).idxOf? n
  (d.children p)[i + 1]?

/-! ### Text -/

/-- `SubstringData`. -/
def substringData (n : NodeId) (aStart aCount : ℕ) : NsResult × List PRUnichar :=
  let textLength := (d.data n).length
  if aStart > textLength then (NS_ERROR_DOM_INDEX_SIZE_ERR, [])
  else
    let amount := if aCount > textLength - aStart then textLength - aStart else aCount
    (.ok, ((d.data n).drop aStart).take amount)

/-- `AppendData`. -/
def appendData (n : NodeId) (aData : List PRUnichar) : Document :=
  d.setText n (d.data n ++ aData)

/-- `ReplaceData`. The sum of the two arguments is a `PRUint32`. -/
def replaceData (n : NodeId) (aOffset aCount : ℕ) (aData : List PRUnichar) : NsResult × Document :=
  let textLength := (d.data n).length
  if aOffset > textLength then (NS_ERROR_DOM_INDEX_SIZE_ERR, d)
  else if aOffset = textLength then (.ok, d.appendData n aData)
  else
    let endOffset := (aOffset + aCount) % 2 ^ 32
    let endOffset := if endOffset > textLength then textLength else endOffset
    (.ok, d.setText n ((d.data n).take aOffset ++ aData ++ (d.data n).drop endOffset))

/-- `InsertData`. -/
def insertData (n : NodeId) (aOffset : ℕ) (aData : List PRUnichar) : NsResult × Document :=
  d.replaceData n aOffset 0 aData

/-- `DeleteData`. -/
def deleteData (n : NodeId) (aOffset aCount : ℕ) : NsResult × Document :=
  d.replaceData n aOffset aCount []

/-- `SetData`. -/
def setData (n : NodeId) (aData : List PRUnichar) : Document := d.setText n aData

/-- The texts are short enough for the 29 bits a text fragment has for its length. -/
def Fits : Prop := ∀ n, (d.data n).length < 2 ^ 29

end Document

end Kompozer.Dom

import Kompozer.Dom.Operations

/-! The primitive edit transactions (`InsertTextTxn.cpp`, `DeleteTextTxn.cpp`,
`InsertElementTxn.cpp`, `CreateElementTxn.cpp`, `DeleteElementTxn.cpp`) with the members they keep
between their methods, and what doing them makes of the tree. -/

namespace Kompozer.Editor

open Dom NsResult

/-- `childNodes->Item (i)`: a negative index becomes a large one. -/
def item (childNodes : List NodeId) (i : ℤ) : Option NodeId :=
  if 0 ≤ i then childNodes[i.toNat]? else none

/-! ### Text -/

structure InsertTextTxn where
  mElement : NodeId
  mOffset : ℕ
  mStringToInsert : List PRUnichar
  deriving DecidableEq

namespace InsertTextTxn

def doTransaction (t : InsertTextTxn) (d : Document) : NsResult × Document :=
  d.insertData t.mElement t.mOffset t.mStringToInsert

def undoTransaction (t : InsertTextTxn) (d : Document) : NsResult × Document :=
  d.deleteData t.mElement t.mOffset t.mStringToInsert.length

end InsertTextTxn

structure DeleteTextTxn where
  mElement : NodeId
  mOffset : ℕ
  mNumCharsToDelete : ℕ
  mDeletedText : List PRUnichar
  deriving DecidableEq

namespace DeleteTextTxn

def doTransaction (t : DeleteTextTxn) (d : Document) : NsResult × DeleteTextTxn × Document :=
  let mDeletedText := (d.substringData t.mElement t.mOffset t.mNumCharsToDelete).2
  let r := d.deleteData t.mElement t.mOffset t.mNumCharsToDelete
  (r.1, { t with mDeletedText := mDeletedText }, r.2)

end DeleteTextTxn

/-! ### Nodes -/

structure InsertElementTxn where
  mNode : NodeId
  mParent : NodeId
  mOffset : ℤ
  deriving DecidableEq

namespace InsertElementTxn

def doTransaction (t : InsertElementTxn) (d : Document) : NsResult × InsertElementTxn × Document :=
  let childNodes := d.children t.mParent
  let mOffset := if t.mOffset > childNodes.length then ↑childNodes.length else t.mOffset
  -- -1 is sentinel value meaning "append at end"
  let mOffset := if mOffset = -1 then ↑childNodes.length else mOffset
  let refNode := item childNodes mOffset
  let r := d.insertBefore t.mParent t.mNode refNode
  (r.1, { t with mOffset := mOffset }, r.2)

end InsertElementTxn

/-- `nsEditor::GetTextNodeTag`. -/
def textNodeTag : String := "special text node tag"

/-- `CreateElementTxn`. The offset is a `PRUint32`. -/
structure CreateElementTxn where
  mTag : String
  mParent : NodeId
  mOffsetInParent : ℕ
  mNewNode : Option NodeId
  mRefNode : Option NodeId
  deriving DecidableEq

namespace CreateElementTxn

/-- -1 as a `PRUint32`. -/
def eAppend : ℕ := 4294967295

/-- The contents of the new node. -/
def newBody (mTag : String) : Body := if mTag = textNodeTag then .text [] else .element mTag []

def doTransaction (t : CreateElementTxn) (d : Document) : NsResult × CreateElementTxn × Document :=
  -- `CreateHTMLContent` refuses an empty tag
  if t.mTag = "" then (NS_ERROR_FAILURE, t, d)
  else
    let mNewNode := d.fresh
    let t := { t with mNewNode := some mNewNode }
    let d := d.create (newBody t.mTag)
    if t.mOffsetInParent = eAppend then
      let r := d.appendChild t.mParent mNewNode
      (r.1, t, r.2)
    else
      let childNodes := d.children t.mParent
      let mOffsetInParent :=
        if t.mOffsetInParent > childNodes.length then childNodes.length else t.mOffsetInParent
      let mRefNode := item childNodes mOffsetInParent
      let r := d.insertBefore t.mParent mNewNode mRefNode
      (r.1, { t with mOffsetInParent := mOffsetInParent, mRefNode := mRefNode }, r.2)

end CreateElementTxn

structure DeleteElementTxn where
  mElement : NodeId
  mParent : Option NodeId
  mRefNode : Option NodeId
  deriving DecidableEq

namespace DeleteElementTxn

def doTransaction (t : DeleteElementTxn) (d : Document) : NsResult × DeleteElementTxn × Document :=
  let t := { t with mParent := d.mParent t.mElement }
  match t.mParent with
  | none => (.ok, t, d)
  | some mParent =>
    let t := { t with mRefNode := d.getNextSibling t.mElement }
    let r := d.removeChild mParent t.mElement
    (r.1, t, r.2)

end DeleteElementTxn

structure SplitElementTxn where
  mExistingRightNode : NodeId
  mOffset : ℤ
  mNewLeftNode : Option NodeId
  mParent : Option NodeId
  deriving DecidableEq

structure JoinElementTxn where
  mLeftNode : NodeId
  mRightNode : NodeId
  mOffset : ℕ
  mParent : Option NodeId
  deriving DecidableEq

/-! ### Any of them -/

/-- The primitive transactions and `EditAggregateTxn`. -/
inductive EditTxn
  | insertText (t : InsertTextTxn)
  | deleteText (t : DeleteTextTxn)
  | insertElement (t : InsertElementTxn)
  | createElement (t : CreateElementTxn)
  | deleteElement (t : DeleteElementTxn)
  | splitElement (t : SplitElementTxn)
  | joinElement (t : JoinElementTxn)
  | aggregate (mChildren : List EditTxn)

end Kompozer.Editor

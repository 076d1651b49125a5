import Kompozer.TxtSvc.Nodes

/-! The text services document (`nsTextServicesDocument.cpp`): block after block of a document, each
with the table of its text nodes. The iterator passes over all nodes and skips none; the document
has no extent. -/

namespace Kompozer.TxtSvc

inductive nsresult
  | NS_OK
  | NS_ERROR_FAILURE
  | NS_ERROR_NULL_POINTER
deriving DecidableEq, Repr

/-! ### The content iterator -/

/-- The node the iterator is on, none when it is done. -/
abbrev Iterator := Option (Place nsIContent)

namespace Iterator

def First : List nsIContent → Iterator
  | [] => none
  | n :: ns => some ⟨[], n, ns⟩

def Last (nodes : List nsIContent) : Iterator :=
  match nodes.reverse with
  | [] => none
  | n :: ns => some ⟨ns, n, []⟩

def Next (it : Iterator) : Iterator := it.bind Place.next

def Prev (it : Iterator) : Iterator := it.bind Place.prev

def IsDone (it : Iterator) : Bool := it.isNone

def PositionAt (it : Iterator) : Option (Place nsIContent) → nsresult × Iterator
  | none => (.NS_ERROR_NULL_POINTER, it)
  | some content => (.NS_OK, some content)

/-- What a loop that calls `Next` comes to. -/
def ahead (it : Iterator) : List (Place nsIContent) := it.elim [] Place.ahead

/-- What a loop that calls `Prev` comes to. -/
def back (it : Iterator) : List (Place nsIContent) := it.elim [] Place.back

end Iterator

/-! ### Text nodes and blocks -/

inductive TSDIteratorStatus
  | eIsDone
  | eValid
  | ePrev
  | eNext
deriving DecidableEq, Repr

/-- The loop of `FirstTextNode` and of `LastTextNode`. -/
def textNodeLoop : List (Place nsIContent) → Iterator × TSDIteratorStatus
  | [] => (none, .eIsDone)
  | p :: ps => if IsTextNode p.node then (some p, .eValid) else textNodeLoop ps

def FirstTextNode (nodes : List nsIContent) : Iterator × TSDIteratorStatus :=
  textNodeLoop (Iterator.First nodes).ahead

def LastTextNode (nodes : List nsIContent) : Iterator × TSDIteratorStatus :=
  textNodeLoop (Iterator.Last nodes).back

/-- The loop of `FirstTextNodeInCurrentBlock` and the `PositionAt(last)` behind it. Without a
`last` the loop runs until the iterator is done. -/
def currentBlockLoop (last : Option (Place nsIContent)) : List (Place nsIContent) → Iterator
  | [] => last
  | p :: ps =>
    if IsTextNode p.node then
      if last.all fun l => HasSameBlockNodeParent p.node l.node then currentBlockLoop (some p) ps
      else last
    else if last.isSome && IsBlockNode p.node then last
    else currentBlockLoop last ps

def FirstTextNodeInCurrentBlock (iter : Iterator) : nsresult × Iterator :=
  (.NS_OK, currentBlockLoop none iter.back)

def FirstTextNodeInPrevBlock (iter : Iterator) : nsresult × Iterator :=
  let (result, iter) := FirstTextNodeInCurrentBlock iter
  if result ≠ .NS_OK then (.NS_ERROR_FAILURE, iter)
  else
    let iter := iter.Prev
    if iter.IsDone then (.NS_ERROR_FAILURE, iter) else FirstTextNodeInCurrentBlock iter

/-- The loop of `FirstTextNodeInNextBlock`. -/
def nextBlockLoop (prev : Option nsIContent) (crossedBlockBoundary : Bool) :
    List (Place nsIContent) → Iterator
  | [] => none
  | p :: ps =>
    if IsTextNode p.node then
      if !crossedBlockBoundary && prev.all fun c => HasSameBlockNodeParent c p.node then
        nextBlockLoop (some p.node) crossedBlockBoundary ps
      else some p
    else nextBlockLoop prev (crossedBlockBoundary || IsBlockNode p.node) ps

def FirstTextNodeInNextBlock (iter : Iterator) : nsresult × Iterator :=
  (.NS_OK, nextBlockLoop none false iter.ahead)

/-- Moves with `find`, tells where that led to, and puts the iterator back. -/
def getFirstTextNode (find : Iterator → nsresult × Iterator) (mIterator : Iterator) :
    nsresult × Option (Place nsIContent) × Iterator :=
  let content := mIterator
  let (result, iter) := find mIterator
  if result ≠ .NS_OK then (result, none, (iter.PositionAt content).2)
  else
    let (result, iter') := iter.PositionAt content
    (result, iter, iter')

def GetFirstTextNodeInPrevBlock := getFirstTextNode FirstTextNodeInPrevBlock

def GetFirstTextNodeInNextBlock := getFirstTextNode FirstTextNodeInNextBlock

/-! ### Offset tables -/

structure OffsetEntry where
  mNode : nsIContent
  mNodeOffset : ℕ
  mStrOffset : ℕ
  mLength : ℕ
  mIsInsertedText : Bool
  mIsValid : Bool
deriving DecidableEq, Repr

def OffsetEntry.new (aNode : nsIContent) (aOffset aLength : ℕ) : OffsetEntry :=
  ⟨aNode, 0, aOffset, aLength, false, true⟩

/-- The loop of `CreateOffsetTable`: the entries, the string and the first text node. -/
def offsetTableLoop (prev : Option nsIContent) (offset : ℕ) :
    List (Place nsIContent) → List OffsetEntry × List UInt16 × Option (Place nsIContent)
  | [] => ([], [], none)
  | p :: ps =>
    match p.node.kind with
    | .text str =>
      if prev.all fun c => HasSameBlockNodeParent c p.node then
        let (table, aStr, _) := offsetTableLoop (some p.node) (offset + str.length) ps
        (.new p.node offset str.length :: table, str ++ aStr, some p)
      else ([], [], none)
    | _ => if IsBlockNode p.node then ([], [], none) else offsetTableLoop prev offset ps

/-- What `CreateOffsetTable` returns and sets. -/
structure TableResult where
  result : nsresult
  aOffsetTable : List OffsetEntry
  aIterator : Iterator
  aIteratorStatus : TSDIteratorStatus
  aStr : List UInt16

def CreateOffsetTable (aIterator : Iterator) (aIteratorStatus : TSDIteratorStatus) : TableResult :=
  if aIteratorStatus = .eIsDone then ⟨.NS_OK, [], aIterator, aIteratorStatus, []⟩
  else
    let (result, iter) := FirstTextNodeInCurrentBlock aIterator
    if result ≠ .NS_OK then ⟨result, [], iter, aIteratorStatus, []⟩
    else
      let (table, aStr, first) := offsetTableLoop none 0 iter.ahead
      match first with
      | some first => ⟨result, table, (iter.PositionAt (some first)).2, aIteratorStatus, aStr⟩
      -- the iterator was done before the loop: it is on a text node or nowhere
      | none => ⟨result, table, none, .eIsDone, aStr⟩

/-! ### The document -/

structure nsTextServicesDocument where
  mIterator : Iterator
  mIteratorStatus : TSDIteratorStatus
  mPrevTextBlock : Option (Place nsIContent)
  mNextTextBlock : Option (Place nsIContent)
  mOffsetTable : List OffsetEntry

namespace nsTextServicesDocument

/-- The document with its iterator, before `FirstBlock`. -/
def init (nodes : List nsIContent) : nsTextServicesDocument :=
  ⟨Iterator.First nodes, .eIsDone, none, none, []⟩

def GetCurrentTextBlock (d : nsTextServicesDocument) :
    nsresult × List UInt16 × nsTextServicesDocument :=
  let t := CreateOffsetTable d.mIterator d.mIteratorStatus
  (t.result, t.aStr, { d with
    mOffsetTable := t.aOffsetTable, mIterator := t.aIterator, mIteratorStatus := t.aIteratorStatus })

def FirstBlock (nodes : List nsIContent) (d : nsTextServicesDocument) :
    nsresult × nsTextServicesDocument :=
  let (iter, status) := FirstTextNode nodes
  if status = .eValid then
    let (result, next, iter) := GetFirstTextNodeInNextBlock iter
    (result, { d with
      mIterator := iter, mIteratorStatus := status, mPrevTextBlock := none, mNextTextBlock := next })
  else
    (.NS_OK, { d with
      mIterator := iter, mIteratorStatus := status, mPrevTextBlock := none, mNextTextBlock := none })

def LastBlock (nodes : List nsIContent) (d : nsTextServicesDocument) :
    nsresult × nsTextServicesDocument :=
  let (iter, status) := LastTextNode nodes
  let (result, iter) := FirstTextNodeInCurrentBlock iter
  let status := if result ≠ .NS_OK then .eIsDone else status
  if status = .eValid then
    let (result, prev, iter) := GetFirstTextNodeInPrevBlock iter
    (result, { d with
      mIterator := iter, mIteratorStatus := status, mPrevTextBlock := prev, mNextTextBlock := none })
  else
    (result, { d with
      mIterator := iter, mIteratorStatus := status, mPrevTextBlock := none, mNextTextBlock := none })

/-- "Keep track of prev and next blocks", the end of `PrevBlock` and `NextBlock`. -/
def keepTrack (iter : Iterator) (status : TSDIteratorStatus) (d : nsTextServicesDocument) :
    nsresult × nsTextServicesDocument :=
  if status = .eValid then
    let (_, prev, iter) := GetFirstTextNodeInPrevBlock iter
    let (result, next, iter) := GetFirstTextNodeInNextBlock iter
    (result, { d with
      mIterator := iter, mIteratorStatus := status, mPrevTextBlock := prev, mNextTextBlock := next })
  else
    (.NS_OK, { d with
      mIterator := iter, mIteratorStatus := status, mPrevTextBlock := none, mNextTextBlock := none })

/-- The branch of `PrevBlock` and `NextBlock` that moves the iterator. -/
def moveBlock (find : Iterator → nsresult × Iterator) (d : nsTextServicesDocument) :
    nsresult × nsTextServicesDocument :=
  let (result, iter) := find d.mIterator
  if result ≠ .NS_OK then (result, { d with mIterator := iter, mIteratorStatus := .eIsDone })
  else if iter.IsDone then (.NS_OK, { d with mIterator := iter, mIteratorStatus := .eIsDone })
  else d.keepTrack iter .eValid

def PrevBlock (d : nsTextServicesDocument) : nsresult × nsTextServicesDocument :=
  match d.mIteratorStatus with
  | .eIsDone => (.NS_OK, d)
  | .eValid | .eNext => d.moveBlock FirstTextNodeInPrevBlock
  | .ePrev => d.keepTrack d.mIterator .eValid

def NextBlock (d : nsTextServicesDocument) : nsresult × nsTextServicesDocument :=
  match d.mIteratorStatus with
  | .eIsDone => (.NS_OK, d)
  | .eValid => d.moveBlock FirstTextNodeInNextBlock
  | .eNext => d.keepTrack d.mIterator .eValid
  | .ePrev => d.keepTrack d.mIterator .eIsDone

def IsDone (d : nsTextServicesDocument) : Bool := d.mIteratorStatus = .eIsDone

/-- The loop of a client (`mozSpellChecker::Replace`): `GetCurrentTextBlock` and `NextBlock` until
`IsDone`. The result are the offset tables; the number bounds the rounds. -/
def blocksLoop : ℕ → nsTextServicesDocument → Option (List (List OffsetEntry))
  | 0, _ => none
  | k + 1, d =>
    if d.IsDone then some []
    else
      let (_, _, d) := d.GetCurrentTextBlock
      (blocksLoop k d.NextBlock.2).map (d.mOffsetTable :: ·)

/-- The calls of a client that does not edit. -/
inductive Call
  | firstBlock
  | lastBlock
  | prevBlock
  | nextBlock
  | getCurrentTextBlock

def Call.run (nodes : List nsIContent) (d : nsTextServicesDocument) :
    Call → nsTextServicesDocument
  | .firstBlock => (d.FirstBlock nodes).2
  | .lastBlock => (d.LastBlock nodes).2
  | .prevBlock => d.PrevBlock.2
  | .nextBlock => d.NextBlock.2
  | .getCurrentTextBlock => d.GetCurrentTextBlock.2.2

def run (nodes : List nsIContent) (d : nsTextServicesDocument) (calls : List Call) :
    nsTextServicesDocument :=
  calls.foldl (Call.run nodes) d

end nsTextServicesDocument

end Kompozer.TxtSvc

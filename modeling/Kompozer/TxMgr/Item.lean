import Kompozer.Xpcom
import Mathlib.Data.List.Basic
import Mathlib.Tactic.Common

/-! Transaction items (`nsTransactionItem.cpp`). An item holds a transaction, or
none when it stands for a batch, and the two stacks of its children; the top of
a stack is the head of its list, and a stack that was never allocated is empty.
Undoing an item undoes its children and then its transaction, redoing it goes
the other way, and each recovers from a failure by running the other loop. -/

namespace Kompozer.TxMgr

universe u

/-- An `nsITransaction` once its `DoTransaction` has run: the object's identity
and the methods the manager calls on it later. What the object remembered while
it was done is part of these functions. -/
structure Transaction (D : Type u) where
  id : ℕ
  undoTransaction : D → D × NsResult
  redoTransaction : D → D × NsResult
  getIsTransient : Bool × NsResult := (false, .ok)

/-- What a listener is told about. The transaction of a batch is null. -/
inductive Notice
  | doing (t : ℕ)
  | undoing (t : Option ℕ)
  | redoing (t : Option ℕ)
  | beginBatch
  | endBatch
  | merging (top t : ℕ)
  deriving DecidableEq, Repr

/-- Which function made a call of a notifier. -/
inductive Caller
  | manager | undoChildren | redoChildren
  deriving DecidableEq, Repr

/-- A completed call of a `Will…Notify` or `Did…Notify` function. A `will` is
stopped when a listener fails it or asks for an interruption. -/
inductive Event
  | will (caller : Caller) (notice : Notice) (stopped : Bool)
  | did (caller : Caller) (notice : Notice) (result : NsResult)
  deriving DecidableEq, Repr

/-- `nsITransactionListener`: its answers may depend on everything that was
notified before. -/
structure Listener where
  will : List Event → Notice → NsResult × Bool
  did : List Event → Notice → NsResult → NsResult

/-- The document and the notifications made so far. -/
structure World (D : Type u) where
  doc : D
  log : List Event

variable {D : Type u}

/-! ### Notifiers -/

/-- The loop of the `Will…Notify` functions. -/
def askWill : List Listener → List Event → Notice → NsResult × Bool
  | [], _, _ => (.ok, false)
  | l :: ls, h, n =>
    let r := l.will h n
    if r.1.failed || r.2 then r else askWill ls h n

/-- The loop of the `Did…Notify` functions. -/
def askDid : List Listener → List Event → Notice → NsResult → NsResult
  | [], _, _, _ => .ok
  | l :: ls, h, n, res =>
    let r := l.did h n res
    if r.failed then r else askDid ls h n res

/-- The world after a `will` notification, its result and the interrupt flag. -/
structure Asked (D : Type u) where
  world : World D
  result : NsResult
  doInterrupt : Bool

def willNotify (ls : List Listener) (c : Caller) (n : Notice) (w : World D) : Asked D :=
  let r := askWill ls w.log n
  ⟨{ w with log := w.log ++ [.will c n (r.1.failed || r.2)] }, r.1, r.2⟩

def didNotify (ls : List Listener) (c : Caller) (n : Notice) (res : NsResult) (w : World D) :
    World D × NsResult :=
  ({ w with log := w.log ++ [.did c n res] }, askDid ls w.log n res)

def willDoNotify (ls : List Listener) (t : ℕ) (w : World D) := willNotify ls .manager (.doing t) w
def didDoNotify (ls : List Listener) (t : ℕ) (res : NsResult) (w : World D) :=
  didNotify ls .manager (.doing t) res w
def willUndoNotify (ls : List Listener) (c : Caller) (t : Option ℕ) (w : World D) :=
  willNotify ls c (.undoing t) w
def didUndoNotify (ls : List Listener) (c : Caller) (t : Option ℕ) (res : NsResult) (w : World D) :=
  didNotify ls c (.undoing t) res w
def willRedoNotify (ls : List Listener) (c : Caller) (t : Option ℕ) (w : World D) :=
  willNotify ls c (.redoing t) w
def didRedoNotify (ls : List Listener) (c : Caller) (t : Option ℕ) (res : NsResult) (w : World D) :=
  didNotify ls c (.redoing t) res w
def willBeginBatchNotify (ls : List Listener) (w : World D) := willNotify ls .manager .beginBatch w
def didBeginBatchNotify (ls : List Listener) (res : NsResult) (w : World D) :=
  didNotify ls .manager .beginBatch res w
def willEndBatchNotify (ls : List Listener) (w : World D) := willNotify ls .manager .endBatch w
def didEndBatchNotify (ls : List Listener) (res : NsResult) (w : World D) :=
  didNotify ls .manager .endBatch res w
def willMergeNotify (ls : List Listener) (top t : ℕ) (w : World D) :=
  willNotify ls .manager (.merging top t) w
def didMergeNotify (ls : List Listener) (top t : ℕ) (res : NsResult) (w : World D) :=
  didNotify ls .manager (.merging top t) res w

/-! ### Items -/

/-- `nsTransactionItem`. -/
structure TransactionItem (D : Type u) where
  transaction : Option (Transaction D)
  undoStack : List (TransactionItem D)
  redoStack : List (TransactionItem D)

namespace TransactionItem

/-- What `GetTransaction` hands to the listeners. -/
def txId (item : TransactionItem D) : Option ℕ := item.transaction.map (·.id)

/-- `AddChild`. -/
def addChild (item child : TransactionItem D) : TransactionItem D :=
  { item with undoStack := child :: item.undoStack }

/-- `GetNumberOfChildren`. -/
def numberOfChildren (item : TransactionItem D) : ℕ :=
  item.undoStack.length + item.redoStack.length

/-- What `GetIsTransient` says; a batch is not asked. -/
def getIsTransient (item : TransactionItem D) : Bool × NsResult :=
  match item.transaction with
  | none => (false, .ok)
  | some tint => tint.getIsTransient

mutual
/-- Levels of nesting, the item itself included. -/
def height : TransactionItem D → ℕ
  | ⟨_, us, rs⟩ => max (heights us) (heights rs) + 1
def heights : List (TransactionItem D) → ℕ
  | [] => 0
  | item :: items => max item.height (heights items)
end

/-- What an undo or redo of an item leaves. -/
structure Run (D : Type u) where
  world : World D
  item : TransactionItem D
  result : NsResult

/-- What the loops over the children leave: the stack they take from, the stack
they push on, and their result. -/
structure Moved (D : Type u) where
  world : World D
  src : List (TransactionItem D)
  dst : List (TransactionItem D)
  result : NsResult

/-- The loop `while (sz-- > 0)` of `UndoChildren` and `RedoChildren`: peek, ask
the listeners, run the child, move it to the other stack when that succeeded,
and tell the listeners. A failed child stays on top and is tried again. -/
def moveChildren (will : Option ℕ → World D → Asked D)
    (run : TransactionItem D → World D → Run D)
    (did : Option ℕ → NsResult → World D → World D × NsResult) :
    ℕ → World D → List (TransactionItem D) → List (TransactionItem D) → NsResult → Moved D
  | 0, w, src, dst, result => ⟨w, src, dst, result⟩
  -- not reached: each turn takes at most one of the `sz` items
  | _ + 1, w, [], dst, result => ⟨w, [], dst, result⟩
  | sz + 1, w, item :: src, dst, _ =>
    let asked := will item.txId w
    if asked.result.failed then ⟨asked.world, item :: src, dst, asked.result⟩
    else if asked.doInterrupt then ⟨asked.world, item :: src, dst, .ok⟩
    else
      let r := run item asked.world
      let told := did item.txId r.result r.world
      if r.result.failed then
        moveChildren will run did sz told.1 (r.item :: src) dst r.result
      else
        moveChildren will run did sz told.1 src (r.item :: dst) told.2

/-- `UndoChildren`, given how a child is undone. -/
def undoChildren (ls : List Listener) (undo : TransactionItem D → World D → Run D)
    (us rs : List (TransactionItem D)) (w : World D) : Moved D :=
  moveChildren (willUndoNotify ls .undoChildren) undo (didUndoNotify ls .undoChildren)
    us.length w us rs .ok

/-- `RedoChildren`, given how a child is redone. It tells the listeners of a
redone child through `DidUndoNotify`. -/
def redoChildren (ls : List Listener) (redo : TransactionItem D → World D → Run D)
    (us rs : List (TransactionItem D)) (w : World D) : Moved D :=
  moveChildren (willRedoNotify ls .redoChildren) redo (didUndoNotify ls .redoChildren)
    rs.length w rs us .ok

/-- `if (!mTransaction) return NS_OK; return mTransaction->UndoTransaction();` -/
def ownUndo (t : Option (Transaction D)) (w : World D) : World D × NsResult :=
  match t with
  | none => (w, .ok)
  | some tx => ({ w with doc := (tx.undoTransaction w.doc).1 }, (tx.undoTransaction w.doc).2)

/-- The same for `RedoTransaction`. -/
def ownRedo (t : Option (Transaction D)) (w : World D) : World D × NsResult :=
  match t with
  | none => (w, .ok)
  | some tx => ({ w with doc := (tx.redoTransaction w.doc).1 }, (tx.redoTransaction w.doc).2)

/-- `RecoverFromUndoError`: redo the children. -/
def recoverFromUndoError (ls : List Listener) (redo : TransactionItem D → World D → Run D)
    (t : Option (Transaction D)) (us rs : List (TransactionItem D)) (w : World D)
    (result : NsResult) : Run D :=
  let m := redoChildren ls redo us rs w
  ⟨m.world, ⟨t, m.dst, m.src⟩, result⟩

/-- `RecoverFromRedoError`: undo the children, then the transaction. -/
def recoverFromRedoError (ls : List Listener) (undo : TransactionItem D → World D → Run D)
    (t : Option (Transaction D)) (us rs : List (TransactionItem D)) (w : World D)
    (result : NsResult) : Run D :=
  let m := undoChildren ls undo us rs w
  if m.result.failed then ⟨m.world, ⟨t, m.src, m.dst⟩, result⟩
  else ⟨(ownUndo t m.world).1, ⟨t, m.src, m.dst⟩, result⟩

mutual
/-- `nsTransactionItem::UndoTransaction`. The first argument bounds the nesting;
the height of the item is always enough. -/
def undoTransaction (ls : List Listener) : ℕ → TransactionItem D → World D → Run D
  | 0, item, w => ⟨w, item, .ok⟩
  | n + 1, ⟨t, us, rs⟩, w =>
    let m := undoChildren ls (undoTransaction ls n) us rs w
    if m.result.failed then
      recoverFromUndoError ls (redoTransaction ls n) t m.src m.dst m.world m.result
    else
      let own := ownUndo t m.world
      if own.2.failed then
        recoverFromUndoError ls (redoTransaction ls n) t m.src m.dst own.1 own.2
      else ⟨own.1, ⟨t, m.src, m.dst⟩, .ok⟩

/-- `nsTransactionItem::RedoTransaction`. -/
def redoTransaction (ls : List Listener) : ℕ → TransactionItem D → World D → Run D
  | 0, item, w => ⟨w, item, .ok⟩
  | n + 1, ⟨t, us, rs⟩, w =>
    let own := ownRedo t w
    if own.2.failed then ⟨own.1, ⟨t, us, rs⟩, own.2⟩
    else
      let m := redoChildren ls (redoTransaction ls n) us rs own.1
      if m.result.failed then
        recoverFromRedoError ls (undoTransaction ls n) t m.dst m.src m.world m.result
      else ⟨m.world, ⟨t, m.dst, m.src⟩, .ok⟩
end

end TransactionItem

end Kompozer.TxMgr

import Kompozer.TxMgr.Item

/-! The transaction manager (`nsTransactionManager.cpp`) and the calls made on
it. A transaction's `DoTransaction` is code of the embedder: here it is the list
of what it does, which may itself call the manager to any depth. -/

namespace Kompozer.TxMgr

universe u

/-- The result of `Merge`: the object it was called on as it is afterwards, its
`aDidMerge`, and its return value. -/
structure Merged (D : Type u) where
  top : Transaction D
  didMerge : Bool
  result : NsResult

/-- What surrounds the manager: its listeners and the transactions' `Merge`. -/
structure Env (D : Type u) where
  listeners : List Listener
  merge : Transaction D → Transaction D → Merged D

/-- One thing that code does: change the document itself, or call the manager. A
call of `DoTransaction` names the transaction, what its `DoTransaction` does and
what it returns. -/
inductive Act (D : Type u)
  | change (f : D → D)
  | doTransaction (t : Transaction D) (body : List (Act D)) (result : NsResult)
  | undoTransaction
  | redoTransaction
  | beginBatch
  | endBatch
  | clear
  | setMaxTransactionCount (aMaxCount : ℤ)

/-- `nsTransactionManager`, with the world it works in. The top of each stack is
the head of its list. -/
structure State (D : Type u) where
  world : World D
  maxTransactionCount : ℤ
  doStack : List (TransactionItem D)
  undoStack : List (TransactionItem D)
  redoStack : List (TransactionItem D)

variable {D : Type u}

namespace State

/-- A new manager on a document. -/
def init (d : D) (aMaxTransactionCount : ℤ) : State D :=
  ⟨⟨d, []⟩, aMaxTransactionCount, [], [], []⟩

abbrev doc (s : State D) : D := s.world.doc

/-! ### `BeginTransaction` and `EndTransaction` -/

/-- `BeginTransaction`: push an item, run `DoTransaction`, and pop the top of the
do stack when that failed. -/
def beginTransaction (t : Option (Transaction D)) (body : State D → State D) (result : NsResult)
    (s : State D) : State D × NsResult :=
  let s1 := body { s with doStack := ⟨t, [], []⟩ :: s.doStack }
  if result.failed then ({ s1 with doStack := s1.doStack.tail }, result) else (s1, .ok)

/-- The end of `EndTransaction`: at the maximum level pop the bottom of the undo
stack, then push the new item. -/
def pushUndo (tx : TransactionItem D) (s : State D) : State D :=
  let us := if 0 < s.maxTransactionCount ∧ s.maxTransactionCount ≤ s.undoStack.length
    then s.undoStack.dropLast else s.undoStack
  { s with undoStack := tx :: us }

/-- `EndTransaction` for an item that is not nested: clear the redo stack, try to
merge with the top of the undo stack, and push. -/
def finishTopLevel (env : Env D) (tx : TransactionItem D) (s : State D) : State D × NsResult :=
  let s := { s with redoStack := [] }
  match tx.transaction, s.undoStack with
  | some tint, top :: us =>
    match top.transaction with
    | none => (s.pushUndo tx, .ok)
    | some topTransaction =>
      let asked := willMergeNotify env.listeners topTransaction.id tint.id s.world
      let s := { s with world := asked.world }
      if asked.result.failed then (s, asked.result)
      else if asked.doInterrupt then (s.pushUndo tx, .ok)
      else
        let m := env.merge topTransaction tint
        let s := { s with undoStack := { top with transaction := some m.top } :: us }
        let told := didMergeNotify env.listeners topTransaction.id tint.id m.result s.world
        let s := { s with world := told.1 }
        if m.didMerge then (s, m.result.orElse told.2) else (s.pushUndo tx, .ok)
  | _, _ => (s.pushUndo tx, .ok)

/-- `EndTransaction`. -/
def endTransaction (env : Env D) (s : State D) : State D × NsResult :=
  match s.doStack with
  | [] => (s, .ok)
  | tx :: rest =>
    let s := { s with doStack := rest }
    let transient := tx.getIsTransient
    if tx.transaction.isNone ∧ tx.numberOfChildren = 0 then (s, .ok)
    else if transient.2.failed ∨ transient.1 ∨ s.maxTransactionCount = 0 then (s, transient.2)
    else match rest with
      | top :: rest' => ({ s with doStack := top.addChild tx :: rest' }, .ok)
      | [] => s.finishTopLevel env tx

/-! ### The interface -/

/-- `DoTransaction`. -/
def doTransaction (env : Env D) (t : Transaction D) (body : State D → State D) (result : NsResult)
    (s : State D) : State D × NsResult :=
  let asked := willDoNotify env.listeners t.id s.world
  let s := { s with world := asked.world }
  if asked.result.failed then (s, asked.result)
  else if asked.doInterrupt then (s, .ok)
  else
    let b := s.beginTransaction (some t) body result
    if b.2.failed then
      let told := didDoNotify env.listeners t.id b.2 b.1.world
      ({ b.1 with world := told.1 }, b.2)
    else
      let e := b.1.endTransaction env
      let told := didDoNotify env.listeners t.id e.2 e.1.world
      ({ e.1 with world := told.1 }, e.2.orElse told.2)

/-- `UndoTransaction`. -/
def undoTransaction (env : Env D) (s : State D) : State D × NsResult :=
  match s.doStack, s.undoStack with
  | _ :: _, _ => (s, .NS_ERROR_FAILURE)
  | [], [] => (s, .ok)
  | [], tx :: us =>
    let asked := willUndoNotify env.listeners .manager tx.txId s.world
    if asked.result.failed then ({ s with world := asked.world }, asked.result)
    else if asked.doInterrupt then ({ s with world := asked.world }, .ok)
    else
      let r := tx.undoTransaction env.listeners tx.height asked.world
      let told := didUndoNotify env.listeners .manager tx.txId r.result r.world
      if r.result.failed then
        ({ s with world := told.1, undoStack := r.item :: us }, r.result)
      else
        ({ s with world := told.1, undoStack := us, redoStack := r.item :: s.redoStack }, told.2)

/-- `RedoTransaction`. -/
def redoTransaction (env : Env D) (s : State D) : State D × NsResult :=
  match s.doStack, s.redoStack with
  | _ :: _, _ => (s, .NS_ERROR_FAILURE)
  | [], [] => (s, .ok)
  | [], tx :: rs =>
    let asked := willRedoNotify env.listeners .manager tx.txId s.world
    if asked.result.failed then ({ s with world := asked.world }, asked.result)
    else if asked.doInterrupt then ({ s with world := asked.world }, .ok)
    else
      let r := tx.redoTransaction env.listeners tx.height asked.world
      let told := didRedoNotify env.listeners .manager tx.txId r.result r.world
      if r.result.failed then
        ({ s with world := told.1, redoStack := r.item :: rs }, r.result)
      else
        ({ s with world := told.1, undoStack := r.item :: s.undoStack, redoStack := rs }, told.2)

/-- `Clear`. -/
def clear (s : State D) : State D × NsResult :=
  ({ s with undoStack := [], redoStack := [] }, .ok)

/-- `BeginBatch`: a batch is an item without a transaction. -/
def beginBatch (env : Env D) (s : State D) : State D × NsResult :=
  let asked := willBeginBatchNotify env.listeners s.world
  let s := { s with world := asked.world }
  if asked.result.failed then (s, asked.result)
  else if asked.doInterrupt then (s, .ok)
  else
    let b := s.beginTransaction none id .ok
    let told := didBeginBatchNotify env.listeners b.2 b.1.world
    ({ b.1 with world := told.1 }, b.2.orElse told.2)

/-- `EndBatch`: refused unless the top of the do stack is a batch. -/
def endBatch (env : Env D) (s : State D) : State D × NsResult :=
  match s.doStack with
  | ⟨none, _, _⟩ :: _ =>
    let asked := willEndBatchNotify env.listeners s.world
    let s := { s with world := asked.world }
    if asked.result.failed then (s, asked.result)
    else if asked.doInterrupt then (s, .ok)
    else
      let e := s.endTransaction env
      let told := didEndBatchNotify env.listeners e.2 e.1.world
      ({ e.1 with world := told.1 }, e.2.orElse told.2)
  | _ => (s, .NS_ERROR_FAILURE)

/-- The pruning loops of `SetMaxTransactionCount`: pop the bottom of a stack while
it is not empty and the two stacks hold more than `aMaxCount` items. -/
def prune (aMaxCount : ℤ) (other : ℕ) : ℕ → List (TransactionItem D) → List (TransactionItem D)
  | 0, stack => stack
  | n + 1, stack =>
    if aMaxCount < other + (n + 1 : ℕ) then prune aMaxCount other n stack.dropLast else stack

/-- `SetMaxTransactionCount`. -/
def setMaxTransactionCount (aMaxCount : ℤ) (s : State D) : State D × NsResult :=
  match s.doStack with
  | _ :: _ => (s, .NS_ERROR_FAILURE)
  | [] =>
    if aMaxCount < 0 then ({ s with maxTransactionCount := -1 }, .ok)
    else if aMaxCount > (s.undoStack.length + s.redoStack.length : ℕ) then
      ({ s with maxTransactionCount := aMaxCount }, .ok)
    else
      let us := prune aMaxCount s.redoStack.length s.undoStack.length s.undoStack
      let rs := prune aMaxCount us.length s.redoStack.length s.redoStack
      ({ s with undoStack := us, redoStack := rs, maxTransactionCount := aMaxCount }, .ok)

end State

/-! ### Runs -/

mutual
/-- Carry out one act. -/
def Act.run (env : Env D) : Act D → State D → State D × NsResult
  | .change f, s => ({ s with world := { s.world with doc := f s.doc } }, .ok)
  | .doTransaction t body result, s => s.doTransaction env t (Act.runAll env body) result
  | .undoTransaction, s => s.undoTransaction env
  | .redoTransaction, s => s.redoTransaction env
  | .beginBatch, s => s.beginBatch env
  | .endBatch, s => s.endBatch env
  | .clear, s => s.clear
  | .setMaxTransactionCount n, s => s.setMaxTransactionCount n
/-- Carry out acts one after the other. -/
def Act.runAll (env : Env D) : List (Act D) → State D → State D
  | [], s => s
  | a :: as, s => Act.runAll env as (a.run env s).1
end

mutual
/-- Every transaction an act executes, at any depth, is one of `C`. -/
def Act.All (C : Transaction D → Prop) : Act D → Prop
  | .doTransaction t body _ => C t ∧ Act.AllIn C body
  | _ => True
def Act.AllIn (C : Transaction D → Prop) : List (Act D) → Prop
  | [] => True
  | a :: as => a.All C ∧ Act.AllIn C as
end

/-- A relation that every call of the manager and every change of the document
establishes between the states before and after it, `DoTransaction` under the
assumption that the transaction's own code does. -/
structure Steps (env : Env D) (C : Transaction D → Prop) (R : State D → State D → Prop) :
    Prop where
  refl : ∀ s, R s s
  trans : ∀ {s s' s''}, R s s' → R s' s'' → R s s''
  change : ∀ f s, R s (Act.run env (.change f) s).1
  doTransaction : ∀ t body result, C t → (∀ s, R s (body s)) →
    ∀ s, R s (s.doTransaction env t body result).1
  undoTransaction : ∀ s, R s (s.undoTransaction env).1
  redoTransaction : ∀ s, R s (s.redoTransaction env).1
  beginBatch : ∀ s, R s (s.beginBatch env).1
  endBatch : ∀ s, R s (s.endBatch env).1
  clear : ∀ s, R s s.clear.1
  setMaxTransactionCount : ∀ n s, R s (s.setMaxTransactionCount n).1

section Steps
variable {env : Env D} {C : Transaction D → Prop} {R : State D → State D → Prop}

mutual
theorem Steps.run (h : Steps env C R) : ∀ a : Act D, a.All C → ∀ s, R s (a.run env s).1
  | .change f, _, s => h.change f s
  | .doTransaction t body result, ha, s => by
    rw [Act.run]
    rw [Act.All] at ha
    exact h.doTransaction t _ result ha.1 (Steps.runAll h body ha.2) s
  | .undoTransaction, _, s => h.undoTransaction s
  | .redoTransaction, _, s => h.redoTransaction s
  | .beginBatch, _, s => h.beginBatch s
  | .endBatch, _, s => h.endBatch s
  | .clear, _, s => h.clear s
  | .setMaxTransactionCount n, _, s => h.setMaxTransactionCount n s
theorem Steps.runAll (h : Steps env C R) :
    ∀ as : List (Act D), Act.AllIn C as → ∀ s, R s (Act.runAll env as s)
  | [], _, s => h.refl s
  | a :: as, ha, s => by
    rw [Act.AllIn] at ha
    rw [Act.runAll]
    exact h.trans (Steps.run h a ha.1 s) (Steps.runAll h as ha.2 _)
end

end Steps

mutual
theorem Act.all_true : ∀ a : Act D, a.All fun _ => True
  | .doTransaction _ body _ => by
    rw [Act.All]
    exact ⟨trivial, Act.allIn_true body⟩
  | .change _ | .undoTransaction | .redoTransaction | .beginBatch | .endBatch | .clear
  | .setMaxTransactionCount _ => trivial
theorem Act.allIn_true : ∀ as : List (Act D), Act.AllIn (fun _ => True) as
  | [] => trivial
  | a :: as => by
    rw [Act.AllIn]
    exact ⟨Act.all_true a, Act.allIn_true as⟩
end

end Kompozer.TxMgr

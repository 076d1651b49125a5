import Kompozer.TxMgr.Item
import Mathlib.Algebra.Order.Ring.Int
import Mathlib.Data.List.Count
import Mathlib.Data.List.Perm.Basic
import Mathlib.Data.List.Nodup
import Mathlib.Logic.Function.Basic
import Mathlib.Tactic.Ring
import Mathlib.Tactic.SplitIfs

/-! What a successful undo of an item leaves undone. A child that fails stays on top and takes the
turn of the next one, and the last turn alone says how the loop ended. So a loop that goes on
behind a failed child succeeds with its last child where it was. -/

namespace Kompozer.TxMgr

universe u
variable {D : Type u}

/-- No listener asks for an interruption. Listeners may fail. -/
def NoInterrupt (ls : List Listener) : Prop := ∀ l ∈ ls, ∀ h n, (l.will h n).2 = false

/-- The transaction, with a count for every transaction of how often it was undone less how often
it was redone. -/
def Transaction.counted (t : Transaction D) : Transaction (D × (ℕ → ℤ)) where
  id := t.id
  undoTransaction p :=
    let r := t.undoTransaction p.1
    ((r.1, if r.2.failed then p.2 else Function.update p.2 t.id (p.2 t.id + 1)), r.2)
  redoTransaction p :=
    let r := t.redoTransaction p.1
    ((r.1, if r.2.failed then p.2 else Function.update p.2 t.id (p.2 t.id - 1)), r.2)
  getIsTransient := t.getIsTransient

namespace TransactionItem

mutual
def counted : TransactionItem D → TransactionItem (D × (ℕ → ℤ))
  | ⟨t, us, rs⟩ => ⟨t.map Transaction.counted, countedAll us, countedAll rs⟩
def countedAll : List (TransactionItem D) → List (TransactionItem (D × (ℕ → ℤ)))
  | [] => []
  | item :: items => item.counted :: countedAll items
end

mutual
/-- The transaction of an item and those of its descendants. -/
def transactions : TransactionItem D → List (Transaction D)
  | ⟨t, us, rs⟩ => t.toList ++ (transactionsAll us ++ transactionsAll rs)
def transactionsAll : List (TransactionItem D) → List (Transaction D)
  | [] => []
  | item :: items => item.transactions ++ transactionsAll items
end

def ids (item : TransactionItem D) : List ℕ := item.transactions.map (·.id)
def idsAll (items : List (TransactionItem D)) : List ℕ := (transactionsAll items).map (·.id)

mutual
/-- No item is a batch without children. `EndTransaction` gets rid of such a batch. -/
def NoEmptyBatch : TransactionItem D → Prop
  | ⟨t, us, rs⟩ => (t = none → us ++ rs ≠ []) ∧ NoEmptyBatches us ∧ NoEmptyBatches rs
def NoEmptyBatches : List (TransactionItem D) → Prop
  | [] => True
  | item :: items => item.NoEmptyBatch ∧ NoEmptyBatches items
end

/-! ### Straight calls -/

section Loop
variable (will : Option ℕ → World D → Asked D) (run : TransactionItem D → World D → Run D)
  (did : Option ℕ → NsResult → World D → World D × NsResult)

/-- The children are called one after the other, and none of them fails. -/
def EachTurn (P : TransactionItem D → World D → Prop) :
    List (TransactionItem D) → World D → Prop
  | [], _ => True
  | item :: src, w =>
    let asked := will item.txId w
    let r := run item asked.world
    r.result.failed = false ∧ P item asked.world ∧
      EachTurn P src (did item.txId r.result r.world).1

end Loop

/-- No child that the loops call fails, on any level, and none was undone before. -/
def StraightUndo (ls : List Listener) : ℕ → TransactionItem D → World D → Prop
  | 0, _, _ => True
  | n + 1, ⟨_, us, rs⟩, w => rs = [] ∧
    EachTurn (willUndoNotify ls .undoChildren) (undoTransaction ls n)
      (didUndoNotify ls .undoChildren) (StraightUndo ls n) us w

def StraightRedo (ls : List Listener) : ℕ → TransactionItem D → World D → Prop
  | 0, _, _ => True
  | n + 1, ⟨t, us, rs⟩, w => us = [] ∧
    EachTurn (willRedoNotify ls .redoChildren) (redoTransaction ls n)
      (didUndoNotify ls .redoChildren) (StraightRedo ls n) rs (ownRedo t w).1

/-- Every child is on the redo stack, in its order, and every transaction of the item was undone
once more than it was redone. -/
def UndoComplete (item : TransactionItem (D × (ℕ → ℤ))) (w : World (D × (ℕ → ℤ)))
    (r : Run (D × (ℕ → ℤ))) : Prop :=
  r.item.undoStack = [] ∧
    r.item.redoStack.map txId =
      (item.undoStack.map txId).reverse ++ item.redoStack.map txId ∧
    ∀ i, r.world.doc.2 i = w.doc.2 i + item.ids.count i

def RedoComplete (item : TransactionItem (D × (ℕ → ℤ))) (w : World (D × (ℕ → ℤ)))
    (r : Run (D × (ℕ → ℤ))) : Prop :=
  r.item.redoStack = [] ∧
    r.item.undoStack.map txId =
      (item.redoStack.map txId).reverse ++ item.undoStack.map txId ∧
    ∀ i, r.world.doc.2 i = w.doc.2 i - item.ids.count i

/-! ### Transactions of an item -/

theorem transactionsAll_eq (items : List (TransactionItem D)) :
    transactionsAll items = items.flatMap transactions := by
  induction items with
  | nil => rfl
  | cons item items ih => rw [transactionsAll, ih, List.flatMap_cons]

@[simp] theorem transactionsAll_nil : transactionsAll ([] : List (TransactionItem D)) = [] := rfl

@[simp] theorem transactionsAll_cons (item : TransactionItem D) (items : List (TransactionItem D)) :
    transactionsAll (item :: items) = item.transactions ++ transactionsAll items := rfl

theorem idsAll_cons (item : TransactionItem D) (items : List (TransactionItem D)) :
    idsAll (item :: items) = item.ids ++ idsAll items := by
  rw [idsAll, transactionsAll_cons, List.map_append]
  rfl

theorem idsAll_concat (items : List (TransactionItem D)) (z : TransactionItem D) :
    idsAll (items ++ [z]) = idsAll items ++ z.ids := by
  induction items with
  | nil => simp [idsAll, ids]
  | cons item items ih => rw [List.cons_append, idsAll_cons, idsAll_cons, ih, List.append_assoc]

theorem nodup_ids_of_mem {items : List (TransactionItem D)} (h : (idsAll items).Nodup)
    {item : TransactionItem D} (hitem : item ∈ items) : item.ids.Nodup := by
  induction items with
  | nil => simp at hitem
  | cons x items ih =>
    rw [idsAll_cons, List.nodup_append'] at h
    rcases List.mem_cons.mp hitem with rfl | hitem
    · exact h.1
    · exact ih h.2.1 hitem

theorem ids_mk (t : Option (Transaction D)) (us rs : List (TransactionItem D)) :
    ids ⟨t, us, rs⟩ = t.toList.map (·.id) ++ (idsAll us ++ idsAll rs) := by
  rw [ids, transactions, List.map_append, List.map_append]
  rfl

theorem noEmptyBatches_iff (items : List (TransactionItem D)) :
    NoEmptyBatches items ↔ ∀ item ∈ items, item.NoEmptyBatch := by
  induction items with
  | nil => simp [NoEmptyBatches]
  | cons item items ih => simp [NoEmptyBatches, ih]

theorem transactions_mk (t : Option (Transaction D)) (us rs : List (TransactionItem D)) :
    transactions ⟨t, us, rs⟩ = t.toList ++ (transactionsAll us ++ transactionsAll rs) := rfl

mutual
theorem exists_transaction : (item : TransactionItem D) → item.NoEmptyBatch →
    ∃ t, t ∈ item.transactions
  | ⟨some t, us, rs⟩, _ => ⟨t, by simp [transactions_mk]⟩
  | ⟨none, us, rs⟩, h => by
    have hchild := h.1 rfl
    rcases exists_transaction_all us h.2.1 with rfl | ⟨t, ht⟩
    · rcases exists_transaction_all rs h.2.2 with rfl | ⟨t, ht⟩
      · exact absurd rfl hchild
      · exact ⟨t, by simp [transactions_mk, ht]⟩
    · exact ⟨t, by simp [transactions_mk, ht]⟩
theorem exists_transaction_all : (items : List (TransactionItem D)) → NoEmptyBatches items →
    items = [] ∨ ∃ t, t ∈ transactionsAll items
  | [], _ => .inl rfl
  | item :: items, h => by
    obtain ⟨t, ht⟩ := exists_transaction item h.1
    exact .inr ⟨t, by simp [ht]⟩
end

/-! ### What the runs leave alone -/

/-- The transactions never change what `f` sees of the document. -/
def LeftBy {S : Type*} (f : D → S) (ts : List (Transaction D)) : Prop :=
  ∀ t ∈ ts, ∀ d, f (t.undoTransaction d).1 = f d ∧ f (t.redoTransaction d).1 = f d

section Leave
variable {S : Type*} {f : D → S}

theorem leftBy_append {ts ts' : List (Transaction D)} :
    LeftBy f (ts ++ ts') ↔ LeftBy f ts ∧ LeftBy f ts' := by
  simp only [LeftBy, List.mem_append]
  exact ⟨fun h => ⟨fun t ht => h t (.inl ht), fun t ht => h t (.inr ht)⟩,
    fun h t ht => ht.elim (h.1 t) (h.2 t)⟩

/-- Calls of the items leave alone what their transactions leave alone. -/
def RunLeaves (f : D → S) (run : TransactionItem D → World D → Run D) : Prop :=
  ∀ item w, LeftBy f item.transactions →
    f (run item w).world.doc = f w.doc ∧ LeftBy f (run item w).item.transactions

/-- Only the children on the stack that the loop takes from are called. -/
theorem RunLeaves.moveChildren {will : Option ℕ → World D → Asked D}
    {run : TransactionItem D → World D → Run D}
    {did : Option ℕ → NsResult → World D → World D × NsResult} (hrun : RunLeaves f run)
    (hwill : ∀ t w, (will t w).world.doc = w.doc) (hdid : ∀ t r w, (did t r w).1.doc = w.doc)
    (sz : ℕ) :
    ∀ (w : World D) (src dst : List (TransactionItem D)) (res : NsResult),
      LeftBy f (transactionsAll src) →
      let m := moveChildren will run did sz w src dst res
      f m.world.doc = f w.doc ∧ LeftBy f (transactionsAll m.src) ∧
        (LeftBy f (transactionsAll dst) → LeftBy f (transactionsAll m.dst)) := by
  induction sz with
  | zero => exact fun _ _ _ _ h => ⟨rfl, h, id⟩
  | succ sz ih =>
    intro w src dst res h
    cases src with
    | nil => exact ⟨rfl, h, id⟩
    | cons item src =>
      obtain ⟨hitem, hsrc⟩ := leftBy_append.mp h
      obtain ⟨hdoc, hleft⟩ := hrun item (will item.txId w).world hitem
      simp only [TransactionItem.moveChildren]
      set r := run item (will item.txId w).world
      set told := did item.txId r.result r.world with htold
      have hstep : f told.1.doc = f w.doc := by rw [htold, hdid, hdoc, hwill]
      split_ifs
      · exact ⟨congrArg f (hwill ..), h, id⟩
      · exact ⟨congrArg f (hwill ..), h, id⟩
      · obtain ⟨hdoc', hrest⟩ := ih told.1 (r.item :: src) dst r.result
          (leftBy_append.mpr ⟨hleft, hsrc⟩)
        exact ⟨hdoc'.trans hstep, hrest⟩
      · obtain ⟨hdoc', hsrc', hdst'⟩ := ih told.1 src (r.item :: dst) told.2 hsrc
        exact ⟨hdoc'.trans hstep, hsrc',
          fun hdst => hdst' (leftBy_append.mpr ⟨hleft, hdst⟩)⟩

theorem ownUndo_left {t : Option (Transaction D)} (h : LeftBy f t.toList) (w : World D) :
    f (ownUndo t w).1.doc = f w.doc := by
  cases t with
  | none => rfl
  | some tx => exact (h tx (by simp) w.doc).1

theorem ownRedo_left {t : Option (Transaction D)} (h : LeftBy f t.toList) (w : World D) :
    f (ownRedo t w).1.doc = f w.doc := by
  cases t with
  | none => rfl
  | some tx => exact (h tx (by simp) w.doc).2

theorem RunLeaves.undoChildren {undo : TransactionItem D → World D → Run D}
    (h : RunLeaves f undo) (ls : List Listener) {us : List (TransactionItem D)}
    (rs : List (TransactionItem D))
    (hus : LeftBy f (transactionsAll us)) (w : World D) :
    let m := undoChildren ls undo us rs w
    f m.world.doc = f w.doc ∧ LeftBy f (transactionsAll m.src) ∧
      (LeftBy f (transactionsAll rs) → LeftBy f (transactionsAll m.dst)) :=
  h.moveChildren (fun _ _ => rfl) (fun _ _ _ => rfl) us.length w us rs .ok hus

theorem RunLeaves.redoChildren {redo : TransactionItem D → World D → Run D}
    (h : RunLeaves f redo) (ls : List Listener) {rs : List (TransactionItem D)}
    (us : List (TransactionItem D))
    (hrs : LeftBy f (transactionsAll rs)) (w : World D) :
    let m := redoChildren ls redo us rs w
    f m.world.doc = f w.doc ∧ LeftBy f (transactionsAll m.src) ∧
      (LeftBy f (transactionsAll us) → LeftBy f (transactionsAll m.dst)) :=
  h.moveChildren (fun _ _ => rfl) (fun _ _ _ => rfl) rs.length w rs us .ok hrs

theorem leftBy_mk {t : Option (Transaction D)} {us rs : List (TransactionItem D)} :
    LeftBy f (transactions ⟨t, us, rs⟩) ↔
      LeftBy f t.toList ∧ LeftBy f (transactionsAll us) ∧ LeftBy f (transactionsAll rs) := by
  rw [transactions_mk, leftBy_append, leftBy_append]

theorem runLeaves (ls : List Listener) (f : D → S) (n : ℕ) :
    RunLeaves f (undoTransaction ls n) ∧ RunLeaves f (redoTransaction ls n) := by
  induction n with
  | zero => exact ⟨fun _ _ h => ⟨rfl, h⟩, fun _ _ h => ⟨rfl, h⟩⟩
  | succ n ih =>
    obtain ⟨hu, hr⟩ := ih
    refine ⟨fun ⟨t, us, rs⟩ w h => ?_, fun ⟨t, us, rs⟩ w h => ?_⟩
    · obtain ⟨ht, hus, hrs⟩ := leftBy_mk.mp h
      obtain ⟨hdoc, hsrc, hdst⟩ := hu.undoChildren ls rs hus w
      simp only [undoTransaction, recoverFromUndoError]
      set m := TransactionItem.undoChildren ls (undoTransaction ls n) us rs w
      split_ifs
      · obtain ⟨hdoc', hsrc', hdst'⟩ := hr.redoChildren ls m.src (hdst hrs) m.world
        exact ⟨hdoc'.trans hdoc, leftBy_mk.mpr ⟨ht, hdst' hsrc, hsrc'⟩⟩
      · obtain ⟨hdoc', hsrc', hdst'⟩ := hr.redoChildren ls m.src (hdst hrs)
          (ownUndo t m.world).1
        exact ⟨hdoc'.trans ((ownUndo_left ht _).trans hdoc), leftBy_mk.mpr ⟨ht, hdst' hsrc, hsrc'⟩⟩
      · exact ⟨(ownUndo_left ht _).trans hdoc, leftBy_mk.mpr ⟨ht, hsrc, hdst hrs⟩⟩
    · obtain ⟨ht, hus, hrs⟩ := leftBy_mk.mp h
      have hown := ownRedo_left ht w
      obtain ⟨hdoc, hsrc, hdst⟩ := hr.redoChildren ls us hrs (ownRedo t w).1
      simp only [redoTransaction, recoverFromRedoError]
      set m := TransactionItem.redoChildren ls (redoTransaction ls n) us rs (ownRedo t w).1
      obtain ⟨hdoc', hsrc', hdst'⟩ := hu.undoChildren ls m.src (hdst hus) m.world
      split_ifs
      · exact ⟨hown, h⟩
      · exact ⟨hdoc'.trans (hdoc.trans hown), leftBy_mk.mpr ⟨ht, hsrc', hdst' hsrc⟩⟩
      · exact ⟨(ownUndo_left ht _).trans (hdoc'.trans (hdoc.trans hown)),
          leftBy_mk.mpr ⟨ht, hsrc', hdst' hsrc⟩⟩
      · exact ⟨hdoc.trans hown, leftBy_mk.mpr ⟨ht, hdst hus, hsrc⟩⟩

end Leave

/-! ### The loops -/

section Turns
variable {will : Option ℕ → World (D × (ℕ → ℤ)) → Asked (D × (ℕ → ℤ))}
  {run : TransactionItem (D × (ℕ → ℤ)) → World (D × (ℕ → ℤ)) → Run (D × (ℕ → ℤ))}
  {did : Option ℕ → NsResult → World (D × (ℕ → ℤ)) → World (D × (ℕ → ℤ)) × NsResult}
  {P : TransactionItem (D × (ℕ → ℤ)) → World (D × (ℕ → ℤ)) → Prop} {σ : ℤ}

/-- What a loop that ends with success did when no child failed. -/
theorem moveChildren_complete
    (hwill : ∀ t w, (will t w).world.doc = w.doc ∧ (will t w).doInterrupt = false)
    (hdid : ∀ t r w, (did t r w).1.doc = w.doc)
    {src : List (TransactionItem (D × (ℕ → ℤ)))}
    (hrun : ∀ item ∈ src, ∀ w, (run item w).result.failed = false → P item w →
      (run item w).item.txId = item.txId ∧
        ∀ i, (run item w).world.doc.2 i = w.doc.2 i + σ * item.ids.count i) :
    ∀ {w : World (D × (ℕ → ℤ))} {dst : List (TransactionItem (D × (ℕ → ℤ)))} {res : NsResult},
      EachTurn will run did P src w →
      let m := moveChildren will run did src.length w src dst res
      m.result.failed = false →
      m.src = [] ∧ m.dst.map txId = (src.map txId).reverse ++ dst.map txId ∧
        ∀ i, m.world.doc.2 i = w.doc.2 i + σ * (idsAll src).count i := by
  induction src with
  | nil =>
    intro w dst res _ m _
    exact ⟨rfl, rfl, fun i => by simp [m, moveChildren, idsAll]⟩
  | cons item src ih =>
    intro w dst res hturn
    obtain ⟨hok, hP, hrest⟩ := hturn
    obtain ⟨hid, hcount⟩ := hrun item (by simp) _ hok hP
    simp only [List.length_cons, moveChildren, (hwill _ _).2, Bool.false_eq_true, if_false, hok]
    split_ifs with hasked
    · intro hfalse
      exact absurd hasked (by simp [hfalse])
    · intro hres
      obtain ⟨hsrc, hdst, hcounts⟩ := ih (fun y hy => hrun y (by simp [hy])) hrest hres
      refine ⟨hsrc, ?_, fun i => ?_⟩
      · rw [hdst, List.map_cons, List.map_cons, List.reverse_cons, List.append_assoc, hid]
        rfl
      · rw [hcounts, hdid, hcount, (hwill _ _).1, idsAll_cons, List.count_append]
        push_cast
        ring

/-- With no more turns than children the last child is not called. -/
theorem moveChildren_last {S : Type*} {f : D × (ℕ → ℤ) → S} (hleaves : RunLeaves f run)
    (hwill : ∀ t w, (will t w).world.doc = w.doc) (hdid : ∀ t r w, (did t r w).1.doc = w.doc)
    (z : TransactionItem (D × (ℕ → ℤ))) (sz : ℕ) :
    ∀ (w : World (D × (ℕ → ℤ))) (src dst : List (TransactionItem (D × (ℕ → ℤ))))
      (res : NsResult), sz ≤ src.length → LeftBy f (transactionsAll src) →
      f (moveChildren will run did sz w (src ++ [z]) dst res).world.doc = f w.doc := by
  induction sz with
  | zero => exact fun _ _ _ _ _ _ => rfl
  | succ sz ih =>
    intro w src dst res hlen h
    cases src with
    | nil => simp at hlen
    | cons item src =>
      rw [List.length_cons, Nat.succ_le_succ_iff] at hlen
      obtain ⟨hitem, hsrc⟩ := leftBy_append.mp h
      obtain ⟨hdoc, hleft⟩ := hleaves item (will item.txId w).world hitem
      simp only [List.cons_append, moveChildren]
      split_ifs
      · rw [hwill]
      · rw [hwill]
      · rw [← List.cons_append, ih _ (_ :: src) _ _ (Nat.le_succ_of_le hlen)
          (leftBy_append.mpr ⟨hleft, hsrc⟩), hdid, hdoc, hwill]
      · rw [ih _ _ _ _ hlen hsrc, hdid, hdoc, hwill]

/-- The transactions of these items count themselves. -/
def Counting (ts : List (Transaction (D × (ℕ → ℤ)))) : Prop :=
  ∀ t ∈ ts, ∃ t' : Transaction D, t = t'.counted

/-- A transaction does not count another one. -/
theorem Counting.leftBy {ts : List (Transaction (D × (ℕ → ℤ)))} (h : Counting ts) {i : ℕ}
    (hi : i ∉ ts.map (·.id)) : LeftBy (fun d => d.2 i) ts := by
  intro t ht d
  obtain ⟨t', rfl⟩ := h t ht
  have hne : i ≠ t'.id := by
    rintro rfl
    exact hi (List.mem_map.mpr ⟨_, ht, rfl⟩)
  simp only [Transaction.counted]
  constructor <;> split_ifs <;> simp [Function.update_of_ne hne]

/-- A loop that ends with success and has counted every transaction of its children once went on
behind no failed child: it would have left the last one alone. -/
theorem eachTurn_of_moveChildren
    (hleaves : ∀ i, RunLeaves (fun d : D × (ℕ → ℤ) => d.2 i) run)
    (hwill : ∀ t w, (will t w).world.doc = w.doc ∧ (will t w).doInterrupt = false)
    (hdid : ∀ t r w, (did t r w).1.doc = w.doc) (hσ : σ ≠ 0)
    {src : List (TransactionItem (D × (ℕ → ℤ)))}
    (hsome : ∀ item ∈ src, ∃ t, t ∈ item.transactions)
    (hrun : ∀ item ∈ src, ∀ w, (run item w).result.failed = false →
      (∀ i ∈ item.ids, (run item w).world.doc.2 i = w.doc.2 i + σ) → P item w)
    (hcounting : Counting (transactionsAll src)) (hnodup : (idsAll src).Nodup) :
    ∀ {w : World (D × (ℕ → ℤ))} {dst : List (TransactionItem (D × (ℕ → ℤ)))} {res : NsResult},
      let m := moveChildren will run did src.length w src dst res
      m.result.failed = false → (∀ i ∈ idsAll src, m.world.doc.2 i = w.doc.2 i + σ) →
      EachTurn will run did P src w := by
  induction src with
  | nil => exact fun _ _ => trivial
  | cons item src ih =>
    intro w dst res
    rw [idsAll_cons, List.nodup_append'] at hnodup
    obtain ⟨hnodupItem, hnodupSrc, hdisjoint⟩ := hnodup
    have hcountItem : Counting item.transactions := fun t ht => hcounting t (by simp [ht])
    have hcountSrc : Counting (transactionsAll src) := fun t ht => hcounting t (by simp [ht])
    simp only [List.length_cons, moveChildren, (hwill _ _).2, Bool.false_eq_true, if_false]
    set r := run item (will item.txId w).world
    set told := did item.txId r.result r.world with htold
    -- what is not of this child is left alone by its turn
    have hother : ∀ i, i ∉ item.ids → told.1.doc.2 i = w.doc.2 i ∧
        LeftBy (fun d => d.2 i) r.item.transactions := by
      intro i hi
      obtain ⟨hdoc, hleft⟩ := hleaves i item (will item.txId w).world (hcountItem.leftBy hi)
      rw [(hwill _ _).1] at hdoc
      rw [htold, hdid]
      exact ⟨hdoc, hleft⟩
    split_ifs with hstop hfail
    · intro hfalse
      exact absurd hstop (by simp [hfalse])
    · intro hres hcount
      exfalso
      rcases List.eq_nil_or_concat' src with rfl | ⟨init, z, rfl⟩
      · exact absurd hfail (by simpa [moveChildren] using hres)
      · obtain ⟨t, ht⟩ := hsome z (by simp)
        have hz : t.id ∈ z.ids := List.mem_map.mpr ⟨t, ht, rfl⟩
        rw [idsAll_cons, idsAll_concat] at hcount
        rw [idsAll_concat] at hnodupSrc hdisjoint
        have hitem : t.id ∉ item.ids := fun hi => hdisjoint hi (by simp [hz])
        have hinit : t.id ∉ idsAll init := fun hi =>
          (List.nodup_append'.mp hnodupSrc).2.2 hi hz
        obtain ⟨hdoc, hleft⟩ := hother _ hitem
        have hinit' : LeftBy (fun d : D × (ℕ → ℤ) => d.2 t.id) (transactionsAll init) :=
          Counting.leftBy (fun t ht => hcountSrc t (by simp [transactionsAll_eq] at ht ⊢; grind)) hinit
        have hlast := moveChildren_last (hleaves t.id) (fun t w => (hwill t w).1) hdid z
          (init ++ [z]).length told.1 (r.item :: init) dst r.result (by simp)
          (leftBy_append.mpr ⟨hleft, hinit'⟩)
        have hmoved := hcount t.id (by simp [hz])
        rw [← List.cons_append] at hmoved
        rw [hlast, hdoc] at hmoved
        omega
    · intro hres hcount
      have hturn : ∀ i ∈ item.ids, r.world.doc.2 i = w.doc.2 i + σ := by
        intro i hi
        have hrest := ((hleaves i).moveChildren (fun t w => (hwill t w).1) hdid src.length told.1
          src (r.item :: dst) told.2 (hcountSrc.leftBy fun hmem => hdisjoint hi hmem)).1
        rw [← hcount i (by simp [idsAll_cons, hi]), hrest, htold, hdid]
      refine ⟨by simpa using hfail, hrun item (by simp) _ (by simpa using hfail) ?_, ?_⟩
      · intro i hi
        rw [hturn i hi, (hwill _ _).1]
      · apply ih (fun y hy => hsome y (by simp [hy])) (fun y hy => hrun y (by simp [hy])) hcountSrc
          hnodupSrc hres
        intro i hi
        rw [hcount i (by simp [idsAll_cons, hi]), (hother i fun hmem => hdisjoint hmem hi).1]

end Turns

/-! ### Calls -/

theorem NoInterrupt_askWill {ls : List Listener} (h : NoInterrupt ls) (l : List Event)
    (n : Notice) : (askWill ls l n).2 = false := by
  induction ls with
  | nil => rfl
  | cons x ls ih =>
    have hx := h x (by simp) l n
    have hrest := ih fun y hy => h y (by simp [hy])
    simp only [askWill]
    split_ifs
    · exact hx
    · exact hrest

theorem heights_le {items : List (TransactionItem D)} {n : ℕ} (h : heights items ≤ n) :
    ∀ item ∈ items, item.height ≤ n := by
  induction items with
  | nil => simp
  | cons item items ih =>
    rw [heights, Nat.max_le] at h
    intro x hx
    rcases List.mem_cons.mp hx with rfl | hx
    · exact h.1
    · exact ih h.2 x hx

theorem undoTransaction_txId (ls : List Listener) (n : ℕ) (item : TransactionItem D) (w : World D) :
    (undoTransaction ls n item w).item.txId = item.txId := by
  cases n with
  | zero => rfl
  | succ n =>
    obtain ⟨t, us, rs⟩ := item
    simp only [undoTransaction, recoverFromUndoError]
    split_ifs <;> rfl

theorem redoTransaction_txId (ls : List Listener) (n : ℕ) (item : TransactionItem D) (w : World D) :
    (redoTransaction ls n item w).item.txId = item.txId := by
  cases n with
  | zero => rfl
  | succ n =>
    obtain ⟨t, us, rs⟩ := item
    simp only [redoTransaction, recoverFromRedoError]
    split_ifs <;> rfl

section Calls
variable {ls : List Listener}

/-- A successful undo: the loop over the children and the transaction of the item succeed. -/
theorem undoTransaction_ok {n : ℕ} {t : Option (Transaction D)} {us rs : List (TransactionItem D)}
    {w : World D} (h : (undoTransaction ls (n + 1) ⟨t, us, rs⟩ w).result.failed = false) :
    let m := undoChildren ls (undoTransaction ls n) us rs w
    m.result.failed = false ∧ (ownUndo t m.world).2.failed = false ∧
      undoTransaction ls (n + 1) ⟨t, us, rs⟩ w =
        ⟨(ownUndo t m.world).1, ⟨t, m.src, m.dst⟩, .ok⟩ := by
  intro m
  simp only [undoTransaction, recoverFromUndoError] at h ⊢
  split_ifs at h ⊢ with hm hown
  · exact absurd hm (by simpa using h)
  · exact absurd hown (by simpa using h)
  · exact ⟨by simpa using hm, by simpa using hown, rfl⟩

theorem redoTransaction_ok {n : ℕ} {t : Option (Transaction D)} {us rs : List (TransactionItem D)}
    {w : World D} (h : (redoTransaction ls (n + 1) ⟨t, us, rs⟩ w).result.failed = false) :
    let m := redoChildren ls (redoTransaction ls n) us rs (ownRedo t w).1
    m.result.failed = false ∧ (ownRedo t w).2.failed = false ∧
      redoTransaction ls (n + 1) ⟨t, us, rs⟩ w = ⟨m.world, ⟨t, m.dst, m.src⟩, .ok⟩ := by
  intro m
  simp only [redoTransaction, recoverFromRedoError] at h ⊢
  split_ifs at h ⊢ with hown hm hrecover
  · exact absurd hown (by simpa using h)
  · exact absurd hm (by simpa using h)
  · exact absurd hm (by simpa using h)
  · exact ⟨by simpa using hm, by simpa using hown, rfl⟩

/-- The transaction of an item counts a call that succeeds. -/
theorem ownUndo_count {t : Option (Transaction (D × (ℕ → ℤ)))} (ht : Counting t.toList)
    {w : World (D × (ℕ → ℤ))} (h : (ownUndo t w).2.failed = false) (i : ℕ) :
    (ownUndo t w).1.doc.2 i = w.doc.2 i + (t.toList.map (·.id)).count i := by
  cases t with
  | none => simp [ownUndo]
  | some tx =>
    obtain ⟨tx', rfl⟩ := ht tx (by simp)
    simp only [ownUndo, Transaction.counted] at h ⊢
    rw [if_neg (by simp [h])]
    by_cases hi : i = tx'.id
    · subst hi
      simp
    · simp [Function.update_of_ne hi, Ne.symm hi]

theorem ownRedo_count {t : Option (Transaction (D × (ℕ → ℤ)))} (ht : Counting t.toList)
    {w : World (D × (ℕ → ℤ))} (h : (ownRedo t w).2.failed = false) (i : ℕ) :
    (ownRedo t w).1.doc.2 i = w.doc.2 i - (t.toList.map (·.id)).count i := by
  cases t with
  | none => simp [ownRedo]
  | some tx =>
    obtain ⟨tx', rfl⟩ := ht tx (by simp)
    simp only [ownRedo, Transaction.counted] at h ⊢
    rw [if_neg (by simp [h])]
    by_cases hi : i = tx'.id
    · subst hi
      simp
    · simp [Function.update_of_ne hi, Ne.symm hi]

theorem Counting.mk {t : Option (Transaction (D × (ℕ → ℤ)))}
    {us rs : List (TransactionItem (D × (ℕ → ℤ)))} (h : Counting (transactions ⟨t, us, rs⟩)) :
    Counting t.toList ∧ Counting (transactionsAll us) ∧ Counting (transactionsAll rs) := by
  simp only [Counting, transactions_mk, List.mem_append] at h
  exact ⟨fun t ht => h t (.inl ht), fun t ht => h t (.inr (.inl ht)),
    fun t ht => h t (.inr (.inr ht))⟩

theorem Counting.item {items : List (TransactionItem (D × (ℕ → ℤ)))}
    (h : Counting (transactionsAll items)) {item : TransactionItem (D × (ℕ → ℤ))}
    (hitem : item ∈ items) : Counting item.transactions := by
  intro t ht
  rw [transactionsAll_eq] at h
  exact h t (List.mem_flatMap.mpr ⟨item, hitem, ht⟩)

theorem undo_complete (hls : NoInterrupt ls) (n : ℕ) :
    ∀ (item : TransactionItem (D × (ℕ → ℤ))) (w : World (D × (ℕ → ℤ))),
      item.height ≤ n → Counting item.transactions →
      (undoTransaction ls n item w).result.failed = false → StraightUndo ls n item w →
      UndoComplete item w (undoTransaction ls n item w) := by
  induction n with
  | zero =>
    intro ⟨t, us, rs⟩ w hn
    simp [height] at hn
  | succ n ih =>
    intro ⟨t, us, rs⟩ w hn hcounting hok ⟨hrs, hturns⟩
    subst hrs
    rw [height, Nat.succ_le_succ_iff, Nat.max_le] at hn
    obtain ⟨hcountOwn, hcountUs, -⟩ := hcounting.mk
    obtain ⟨hm, hown, heq⟩ := undoTransaction_ok hok
    have hrun : ∀ item ∈ us, ∀ w, (undoTransaction ls n item w).result.failed = false →
        StraightUndo ls n item w → (undoTransaction ls n item w).item.txId = item.txId ∧
        ∀ i, (undoTransaction ls n item w).world.doc.2 i = w.doc.2 i + 1 * item.ids.count i := by
      intro item hitem w hres hstraight
      refine ⟨undoTransaction_txId .., fun i => ?_⟩
      rw [one_mul]
      exact (ih item w (heights_le hn.1 item hitem) (hcountUs.item hitem) hres hstraight).2.2 i
    obtain ⟨hsrc, hdst, hcount⟩ := moveChildren_complete
      (fun _ _ => ⟨rfl, NoInterrupt_askWill hls _ _⟩) (fun _ _ _ => rfl) hrun hturns hm
    rw [heq]
    refine ⟨hsrc, hdst, fun i => ?_⟩
    have := hcount i
    rw [ownUndo_count hcountOwn hown, ids_mk, List.count_append, List.count_append]
    simp only [idsAll, transactionsAll_nil, List.map_nil, List.count_nil, undoChildren] at this ⊢
    omega

theorem redo_complete (hls : NoInterrupt ls) (n : ℕ) :
    ∀ (item : TransactionItem (D × (ℕ → ℤ))) (w : World (D × (ℕ → ℤ))),
      item.height ≤ n → Counting item.transactions →
      (redoTransaction ls n item w).result.failed = false → StraightRedo ls n item w →
      RedoComplete item w (redoTransaction ls n item w) := by
  induction n with
  | zero =>
    intro ⟨t, us, rs⟩ w hn
    simp [height] at hn
  | succ n ih =>
    intro ⟨t, us, rs⟩ w hn hcounting hok ⟨hus, hturns⟩
    subst hus
    rw [height, Nat.succ_le_succ_iff, Nat.max_le] at hn
    obtain ⟨hcountOwn, -, hcountRs⟩ := hcounting.mk
    obtain ⟨hm, hown, heq⟩ := redoTransaction_ok hok
    have hrun : ∀ item ∈ rs, ∀ w, (redoTransaction ls n item w).result.failed = false →
        StraightRedo ls n item w → (redoTransaction ls n item w).item.txId = item.txId ∧
        ∀ i, (redoTransaction ls n item w).world.doc.2 i = w.doc.2 i + -1 * item.ids.count i := by
      intro item hitem w hres hstraight
      refine ⟨redoTransaction_txId .., fun i => ?_⟩
      rw [neg_one_mul, ← sub_eq_add_neg]
      exact (ih item w (heights_le hn.2 item hitem) (hcountRs.item hitem) hres hstraight).2.2 i
    obtain ⟨hsrc, hdst, hcount⟩ := moveChildren_complete
      (fun _ _ => ⟨rfl, NoInterrupt_askWill hls _ _⟩) (fun _ _ _ => rfl) hrun hturns hm
    rw [heq]
    refine ⟨hsrc, hdst, fun i => ?_⟩
    have := hcount i
    have hfirst := ownRedo_count hcountOwn hown i
    rw [ids_mk, List.count_append, List.count_append]
    simp only [idsAll, transactionsAll_nil, List.map_nil, List.count_nil, redoChildren] at this ⊢
    omega

/-- A stack whose transactions are left alone although all were to be counted is empty. -/
theorem eq_nil_of_left {items : List (TransactionItem (D × (ℕ → ℤ)))} (h : NoEmptyBatches items)
    {c c' : ℕ → ℤ} {σ : ℤ} (hσ : σ ≠ 0) (hcount : ∀ i ∈ idsAll items, c' i = c i + σ)
    (hleft : ∀ i ∈ idsAll items, c' i = c i) : items = [] := by
  rcases exists_transaction_all items h with hnil | ⟨t, ht⟩
  · exact hnil
  · have hmem : t.id ∈ idsAll items := List.mem_map.mpr ⟨t, ht, rfl⟩
    have := hcount _ hmem
    have := hleft _ hmem
    omega

theorem straightUndo (hls : NoInterrupt ls) (n : ℕ) :
    ∀ (item : TransactionItem (D × (ℕ → ℤ))) (w : World (D × (ℕ → ℤ))),
      Counting item.transactions → item.ids.Nodup → item.NoEmptyBatch →
      (undoTransaction ls n item w).result.failed = false →
      (∀ i ∈ item.ids, (undoTransaction ls n item w).world.doc.2 i = w.doc.2 i + 1) →
      StraightUndo ls n item w := by
  induction n with
  | zero => exact fun _ _ _ _ _ _ _ => trivial
  | succ n ih =>
    intro ⟨t, us, rs⟩ w hcounting hnodup ⟨_, hbatchUs, hbatchRs⟩ hok hcount
    obtain ⟨hcountOwn, hcountUs, -⟩ := hcounting.mk
    obtain ⟨hm, hown, heq⟩ := undoTransaction_ok hok
    rw [ids_mk, List.nodup_append', List.nodup_append'] at hnodup
    obtain ⟨-, ⟨hnodupUs, -, hdisjoint⟩, hdisjointOwn⟩ := hnodup
    rw [heq, ids_mk] at hcount
    set m := undoChildren ls (undoTransaction ls n) us rs w with hmdef
    -- the item's own transaction does not count the others
    have hchildren : ∀ i ∈ idsAll us ++ idsAll rs, m.world.doc.2 i = w.doc.2 i + 1 := by
      intro i hi
      rw [← hcount i (List.mem_append_right _ hi)]
      exact (ownUndo_left (hcountOwn.leftBy fun hmem => hdisjointOwn hmem hi) m.world).symm
    refine ⟨?_, ?_⟩
    · apply eq_nil_of_left hbatchRs one_ne_zero fun i hi => hchildren i (List.mem_append_right _ hi)
      intro i hi
      exact ((runLeaves ls _ n).1.undoChildren ls rs
        (hcountUs.leftBy fun hmem => hdisjoint hmem hi) w).1
    · rw [noEmptyBatches_iff] at hbatchUs
      apply eachTurn_of_moveChildren (fun i => (runLeaves ls _ n).1)
        (fun _ _ => ⟨rfl, NoInterrupt_askWill hls _ _⟩) (fun _ _ _ => rfl) one_ne_zero
        (fun item hitem => exists_transaction item (hbatchUs item hitem)) _ hcountUs hnodupUs hm
        fun i hi => hchildren i (List.mem_append_left _ hi)
      intro item hitem w hres hall
      exact ih item w (hcountUs.item hitem) (nodup_ids_of_mem hnodupUs hitem)
        (hbatchUs item hitem) hres hall

theorem straightRedo (hls : NoInterrupt ls) (n : ℕ) :
    ∀ (item : TransactionItem (D × (ℕ → ℤ))) (w : World (D × (ℕ → ℤ))),
      Counting item.transactions → item.ids.Nodup → item.NoEmptyBatch →
      (redoTransaction ls n item w).result.failed = false →
      (∀ i ∈ item.ids, (redoTransaction ls n item w).world.doc.2 i = w.doc.2 i + -1) →
      StraightRedo ls n item w := by
  induction n with
  | zero => exact fun _ _ _ _ _ _ _ => trivial
  | succ n ih =>
    intro ⟨t, us, rs⟩ w hcounting hnodup ⟨_, hbatchUs, hbatchRs⟩ hok hcount
    obtain ⟨hcountOwn, -, hcountRs⟩ := hcounting.mk
    obtain ⟨hm, hown, heq⟩ := redoTransaction_ok hok
    rw [ids_mk, List.nodup_append', List.nodup_append'] at hnodup
    obtain ⟨-, ⟨-, hnodupRs, hdisjoint⟩, hdisjointOwn⟩ := hnodup
    rw [heq, ids_mk] at hcount
    set m := redoChildren ls (redoTransaction ls n) us rs (ownRedo t w).1 with hmdef
    have hchildren : ∀ i ∈ idsAll us ++ idsAll rs,
        m.world.doc.2 i = (ownRedo t w).1.doc.2 i + -1 := by
      intro i hi
      have hleft := ownRedo_left (hcountOwn.leftBy fun hmem => hdisjointOwn hmem hi) w
      rw [hcount i (List.mem_append_right _ hi), ← hleft]
    refine ⟨?_, ?_⟩
    · apply eq_nil_of_left hbatchUs (by omega : (-1 : ℤ) ≠ 0)
        fun i hi => hchildren i (List.mem_append_left _ hi)
      intro i hi
      exact ((runLeaves ls _ n).2.redoChildren ls us
        (hcountRs.leftBy fun hmem => hdisjoint hi hmem) (ownRedo t w).1).1
    · rw [noEmptyBatches_iff] at hbatchRs
      apply eachTurn_of_moveChildren (fun i => (runLeaves ls _ n).2)
        (fun _ _ => ⟨rfl, NoInterrupt_askWill hls _ _⟩) (fun _ _ _ => rfl)
        (by omega : (-1 : ℤ) ≠ 0)
        (fun item hitem => exists_transaction item (hbatchRs item hitem)) _ hcountRs hnodupRs hm
        fun i hi => hchildren i (List.mem_append_right _ hi)
      intro item hitem w hres hall
      exact ih item w (hcountRs.item hitem) (nodup_ids_of_mem hnodupRs hitem)
        (hbatchRs item hitem) hres hall

end Calls

mutual
theorem counted_transactions : (item : TransactionItem D) →
    item.counted.transactions = item.transactions.map Transaction.counted
  | ⟨t, us, rs⟩ => by
    simp only [counted, transactions_mk, List.map_append, countedAll_transactions us,
      countedAll_transactions rs]
    cases t <;> rfl
theorem countedAll_transactions : (items : List (TransactionItem D)) →
    transactionsAll (countedAll items) = (transactionsAll items).map Transaction.counted
  | [] => rfl
  | item :: items => by
    simp only [countedAll, transactionsAll_cons, List.map_append, counted_transactions item,
      countedAll_transactions items]
end

theorem counted_ids (item : TransactionItem D) : item.counted.ids = item.ids := by
  rw [ids, counted_transactions, List.map_map]
  rfl

theorem countedAll_eq_nil {items : List (TransactionItem D)} :
    countedAll items = [] ↔ items = [] := by
  cases items <;> simp [countedAll]

mutual
theorem NoEmptyBatch.counted : (item : TransactionItem D) → item.NoEmptyBatch →
    item.counted.NoEmptyBatch
  | ⟨t, us, rs⟩, h => by
    refine ⟨fun ht => ?_, NoEmptyBatch.countedAll us h.2.1, NoEmptyBatch.countedAll rs h.2.2⟩
    have := h.1 (by simpa using ht)
    simpa [countedAll_eq_nil] using this
theorem NoEmptyBatch.countedAll : (items : List (TransactionItem D)) → NoEmptyBatches items →
    NoEmptyBatches (countedAll items)
  | [], _ => trivial
  | item :: items, h => ⟨NoEmptyBatch.counted item h.1, NoEmptyBatch.countedAll items h.2⟩
end

theorem counting_counted (item : TransactionItem D) : Counting item.counted.transactions := by
  intro t ht
  rw [counted_transactions] at ht
  obtain ⟨t', -, rfl⟩ := List.mem_map.mp ht
  exact ⟨t', rfl⟩

/-- A call that succeeds is complete when no child failed on the way. The other way round, a
complete call met no failed child: in an item of different transactions and without empty batches,
success and a child that failed leave something as it was. -/
theorem complete_iff_straight {ls : List Listener} (hls : NoInterrupt ls) (item : TransactionItem D)
    (w : World (D × (ℕ → ℤ))) :
    let x := item.counted
    let u := undoTransaction ls x.height x w
    let r := redoTransaction ls x.height x w
    (u.result.failed = false →
      (StraightUndo ls x.height x w → UndoComplete x w u) ∧
      (item.ids.Nodup → item.NoEmptyBatch → UndoComplete x w u →
        StraightUndo ls x.height x w)) ∧
    (r.result.failed = false →
      (StraightRedo ls x.height x w → RedoComplete x w r) ∧
      (item.ids.Nodup → item.NoEmptyBatch → RedoComplete x w r →
        StraightRedo ls x.height x w)) := by
  intro x u r
  have hcounting := counting_counted item
  refine ⟨fun hok => ⟨undo_complete hls _ x w (Nat.le_refl _) hcounting hok, ?_⟩,
    fun hok => ⟨redo_complete hls _ x w (Nat.le_refl _) hcounting hok, ?_⟩⟩
  · intro hnodup hbatch hcomplete
    rw [← counted_ids] at hnodup
    apply straightUndo hls _ x w hcounting hnodup (NoEmptyBatch.counted item hbatch) hok
    intro i hi
    have := hcomplete.2.2 i
    rwa [List.count_eq_one_of_mem hnodup hi] at this
  · intro hnodup hbatch hcomplete
    rw [← counted_ids] at hnodup
    apply straightRedo hls _ x w hcounting hnodup (NoEmptyBatch.counted item hbatch) hok
    intro i hi
    have := hcomplete.2.2 i
    rwa [List.count_eq_one_of_mem hnodup hi] at this

/-- The document is the number of calls so far, and only the first `n` calls fail. -/
def failsFirst (n id : ℕ) : Transaction ℕ where
  id := id
  undoTransaction d := (d + 1, if d < n then NsResult.NS_ERROR_FAILURE else .ok)
  redoTransaction d := (d + 1, if d < n then NsResult.NS_ERROR_FAILURE else .ok)

/-- A batch of two transactions that is done. -/
def doneBatch (n : ℕ) : TransactionItem ℕ :=
  ⟨none, [⟨some (failsFirst n 1), [], []⟩, ⟨some (failsFirst n 2), [], []⟩], []⟩

def undoneBatch (n : ℕ) : TransactionItem ℕ :=
  ⟨none, [], [⟨some (failsFirst n 1), [], []⟩, ⟨some (failsFirst n 2), [], []⟩]⟩

theorem complete_iff_straight_doneBatch :
    let x := (doneBatch 0).counted
    UndoComplete x ⟨(0, fun _ => 0), []⟩ (undoTransaction [] x.height x ⟨(0, fun _ => 0), []⟩) :=
  ((@complete_iff_straight ℕ [] (by simp [NoInterrupt]) (doneBatch 0)
    ⟨(0, fun _ => 0), []⟩).1 rfl).1 ⟨rfl, rfl, ⟨rfl, trivial⟩, rfl, ⟨rfl, trivial⟩, trivial⟩

/-- The first child fails once, takes both turns, and the second child stays. -/
theorem not_complete :
    (¬∀ (item : TransactionItem ℕ) (w : World (ℕ × (ℕ → ℤ))),
      (undoTransaction [] item.counted.height item.counted w).result.failed = false →
      UndoComplete item.counted w (undoTransaction [] item.counted.height item.counted w)) ∧
    ¬∀ (item : TransactionItem ℕ) (w : World (ℕ × (ℕ → ℤ))),
      (redoTransaction [] item.counted.height item.counted w).result.failed = false →
      RedoComplete item.counted w (redoTransaction [] item.counted.height item.counted w) := by
  refine ⟨fun h => ?_, fun h => ?_⟩
  · have hstack := (h (doneBatch 1) ⟨(0, fun _ => 0), []⟩ rfl).1
    exact absurd (congrArg List.length hstack) (by decide)
  · have hstack := (h (undoneBatch 1) ⟨(0, fun _ => 0), []⟩ rfl).1
    exact absurd (congrArg List.length hstack) (by decide)

end TransactionItem

end Kompozer.TxMgr

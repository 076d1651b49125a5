import Kompozer.Lib.Timeline
import Kompozer.TxMgr.Item

/-! Undoing and redoing an executed item. A deed is what was executed: a
transaction, or a batch, and the children it executed in their order. Done, its
children are on the undo stacks, and undone on the redo stacks. When no listener
interferes an undo takes the done item at the document it left to the undone item
at the document it started from, a redo goes back, and where a transaction of the
tree refuses to go, the recovery puts the item and the document back. -/

namespace Kompozer.TxMgr

universe u
variable {D : Type u}

/-! ### What transactions promise -/

inductive Direction
  | undo | redo
  deriving DecidableEq, Repr

/-- A choice of transactions that refuse to go one way. -/
structure Refusal (D : Type u) where
  direction : Direction
  refuses : Transaction D → Bool

namespace Refusal

/-- No transaction refuses. -/
def nobody : Refusal D := ⟨.undo, fun _ => false⟩

def blocks (ρ : Refusal D) (dir : Direction) (t : Transaction D) : Bool :=
  decide (ρ.direction = dir) && ρ.refuses t

theorem blocks_undo_or_redo (ρ : Refusal D) :
    (∀ t, ρ.blocks .undo t = false) ∨ ∀ t, ρ.blocks .redo t = false := by
  obtain ⟨_ | _, refuses⟩ := ρ
  · exact .inr fun t => rfl
  · exact .inl fun t => rfl

end Refusal

/-- The transaction, which is to be recorded, took the first document to the second:
it undoes and redoes that, unless it refuses, and then it always fails and leaves the
document alone. -/
structure Transaction.Keeps (ρ : Refusal D) (t : Transaction D) (d d' : D) : Prop where
  notTransient : t.getIsTransient = (false, .ok)
  undo : ρ.blocks .undo t = false → t.undoTransaction d' = (d, .ok)
  undoBlocked : ρ.blocks .undo t = true →
    ∀ x, (t.undoTransaction x).1 = x ∧ (t.undoTransaction x).2.failed = true
  redo : ρ.blocks .redo t = false → t.redoTransaction d = (d', .ok)
  redoBlocked : ρ.blocks .redo t = true →
    ∀ x, (t.redoTransaction x).1 = x ∧ (t.redoTransaction x).2.failed = true

/-- The same for what an item holds; a batch itself does nothing. -/
def Kept (ρ : Refusal D) : Option (Transaction D) → D → D → Prop
  | none, d, d' => d = d'
  | some t, d, d' => t.Keeps ρ d d'

/-- No listener stops a notification or fails. -/
def Quiet (ls : List Listener) : Prop :=
  ∀ l ∈ ls, (∀ h n, l.will h n = (.ok, false)) ∧ ∀ h n res, l.did h n res = .ok

namespace Quiet
variable {ls : List Listener}

theorem askWill (hq : Quiet ls) (h : List Event) (n : Notice) :
    askWill ls h n = (.ok, false) := by
  induction ls with
  | nil => rfl
  | cons l ls ih =>
    rw [TxMgr.askWill, (hq l (by simp)).1]
    simpa using ih fun l' hl' => hq l' (by simp [hl'])

theorem askDid (hq : Quiet ls) (h : List Event) (n : Notice) (res : NsResult) :
    askDid ls h n res = .ok := by
  induction ls with
  | nil => rfl
  | cons l ls ih =>
    rw [TxMgr.askDid, (hq l (by simp)).2]
    simpa using ih fun l' hl' => hq l' (by simp [hl'])

theorem willNotify (hq : Quiet ls) (c : Caller) (n : Notice) (w : World D) :
    willNotify ls c n w = ⟨{ w with log := w.log ++ [.will c n false] }, .ok, false⟩ := by
  simp [TxMgr.willNotify, hq.askWill]

theorem didNotify (hq : Quiet ls) (c : Caller) (n : Notice) (res : NsResult) (w : World D) :
    didNotify ls c n res w = ({ w with log := w.log ++ [.did c n res] }, .ok) := by
  simp [TxMgr.didNotify, hq.askDid]

end Quiet

/-! ### The loop over the children -/

namespace TransactionItem

section Loop
variable {X : Type*} {S : Type*} (view : World D → S) {f g : X → TransactionItem D}
  {step : X → S → S → Prop} (will : Option ℕ → World D → Asked D)
  (run : TransactionItem D → World D → Run D)
  (did : Option ℕ → NsResult → World D → World D × NsResult)

/-- Turns of the loop that go through follow a walk of what is seen of the world. -/
theorem moveChildren_walk
    (hwill : ∀ t w, (will t w).result = .ok ∧ (will t w).doInterrupt = false)
    {L : List X} {a b : S} (hL : Walk step L a b)
    (hturn : ∀ x ∈ L, ∀ a b w, step x a b → view w = a →
      (run (f x) (will (f x).txId w).world).result = .ok ∧
      (run (f x) (will (f x).txId w).world).item = g x ∧
      (did (f x).txId .ok (run (f x) (will (f x).txId w).world).world).2 = .ok ∧
      view (did (f x).txId .ok (run (f x) (will (f x).txId w).world).world).1 = b)
    (k : ℕ) {w : World D} (hw : view w = a) (rest dst : List (TransactionItem D))
    {res : NsResult} (hres : res = .ok) :
    ∃ w', view w' = b ∧
      moveChildren will run did (L.length + k) w (L.map f ++ rest) dst res =
        moveChildren will run did k w' rest ((L.map g).reverse ++ dst) .ok := by
  induction L generalizing a w dst res with
  | nil => exact ⟨w, hw.trans hL, by simp [hres]⟩
  | cons x L ih =>
    obtain ⟨c, hx, hL⟩ := hL
    obtain ⟨hok, hitem, htold, hview⟩ := hturn x (by simp) a c w hx hw
    obtain ⟨w', hw', heq⟩ := ih hL (fun y hy => hturn y (by simp [hy])) hview (g x :: dst) htold
    refine ⟨w', hw', ?_⟩
    rw [show (x :: L).length + k = (L.length + k) + 1 by simp; omega]
    simp only [List.map_cons, List.cons_append, moveChildren, hwill, hok, hitem, NsResult.failed_ok,
      Bool.false_eq_true, if_false]
    rw [heq]
    simp

/-- A child that refuses is tried again to the end. -/
theorem moveChildren_stuck
    (hwill : ∀ t w, (will t w).result = .ok ∧ (will t w).doInterrupt = false)
    (item : TransactionItem D) {a : S}
    (hstay : ∀ w, view w = a →
      (run item (will item.txId w).world).result.failed = true ∧
      (run item (will item.txId w).world).item = item ∧
      ∀ res, view (did item.txId res (run item (will item.txId w).world).world).1 = a)
    (k : ℕ) {w : World D} (hw : view w = a) (rest dst : List (TransactionItem D))
    (res : NsResult) :
    let m := moveChildren will run did (k + 1) w (item :: rest) dst res
    view m.world = a ∧ m.src = item :: rest ∧ m.dst = dst ∧ m.result.failed = true := by
  induction k generalizing w res with
  | zero =>
    obtain ⟨hf, hitem, hview⟩ := hstay w hw
    simp only [moveChildren, hwill, NsResult.failed_ok, Bool.false_eq_true, if_false, hf, if_true,
      hitem]
    exact ⟨hview _, trivial, trivial, trivial⟩
  | succ k ih =>
    obtain ⟨hf, hitem, hview⟩ := hstay w hw
    rw [moveChildren]
    simp only [hwill, NsResult.failed_ok, Bool.false_eq_true, if_false, hf, if_true, hitem]
    exact ih (hview _) _

end Loop

end TransactionItem

/-! ### Deeds -/

/-- A transaction, or a batch, and the children it executed, in their order. -/
structure Deed (D : Type u) where
  transaction : Option (Transaction D)
  children : List (Deed D)

namespace Deed

mutual
/-- The item of a deed that is done. -/
def done : Deed D → TransactionItem D
  | ⟨t, cs⟩ => ⟨t, (doneAll cs).reverse, []⟩
def doneAll : List (Deed D) → List (TransactionItem D)
  | [] => []
  | c :: cs => c.done :: doneAll cs
end

mutual
/-- The item of a deed that is undone. -/
def undone : Deed D → TransactionItem D
  | ⟨t, cs⟩ => ⟨t, [], undoneAll cs⟩
def undoneAll : List (Deed D) → List (TransactionItem D)
  | [] => []
  | c :: cs => c.undone :: undoneAll cs
end

mutual
/-- The deed takes the first document to the second: its transaction first, and then
its children one after the other. -/
def Takes (ρ : Refusal D) : Deed D → D → D → Prop
  | ⟨t, cs⟩, a, c => ∃ b, Kept ρ t a b ∧ TakesAll ρ cs b c
def TakesAll (ρ : Refusal D) : List (Deed D) → D → D → Prop
  | [], a, b => a = b
  | x :: xs, a, c => ∃ b, x.Takes ρ a b ∧ TakesAll ρ xs b c
end

mutual
/-- Some transaction of the deed refuses to go the given way. -/
def blocks (ρ : Refusal D) (dir : Direction) : Deed D → Bool
  | ⟨t, cs⟩ => t.any (ρ.blocks dir) || blocksAny ρ dir cs
def blocksAny (ρ : Refusal D) (dir : Direction) : List (Deed D) → Bool
  | [] => false
  | c :: cs => c.blocks ρ dir || blocksAny ρ dir cs
end

mutual
/-- The transactions of a deed in the order in which they were executed. -/
def ids : Deed D → List ℕ
  | ⟨t, cs⟩ => (t.map (·.id)).toList ++ idsAll cs
def idsAll : List (Deed D) → List ℕ
  | [] => []
  | c :: cs => c.ids ++ idsAll cs
end

theorem takesAll_iff (ρ : Refusal D) (cs : List (Deed D)) (a b : D) :
    TakesAll ρ cs a b ↔ Walk (Takes ρ) cs a b := by
  induction cs generalizing a with
  | nil => rfl
  | cons c cs ih => simp only [TakesAll, Walk.cons_iff, ih]

theorem takes_mk (ρ : Refusal D) (t : Option (Transaction D)) (cs : List (Deed D)) (a c : D) :
    Takes ρ ⟨t, cs⟩ a c ↔ ∃ b, Kept ρ t a b ∧ Walk (Takes ρ) cs b c := by
  simp only [Takes, takesAll_iff]

theorem idsAll_eq (cs : List (Deed D)) : idsAll cs = cs.flatMap ids := by
  induction cs with
  | nil => rfl
  | cons c cs ih => rw [idsAll, ih, List.flatMap_cons]

theorem doneAll_eq (cs : List (Deed D)) : doneAll cs = cs.map done := by
  induction cs with
  | nil => rfl
  | cons c cs ih => rw [doneAll, ih, List.map_cons]

theorem undoneAll_eq (cs : List (Deed D)) : undoneAll cs = cs.map undone := by
  induction cs with
  | nil => rfl
  | cons c cs ih => rw [undoneAll, ih, List.map_cons]

theorem blocksAny_eq (ρ : Refusal D) (dir : Direction) (cs : List (Deed D)) :
    blocksAny ρ dir cs = cs.any (blocks ρ dir) := by
  induction cs with
  | nil => rfl
  | cons c cs ih => rw [blocksAny, ih, List.any_cons]

theorem done_mk (t : Option (Transaction D)) (cs : List (Deed D)) :
    done ⟨t, cs⟩ = ⟨t, cs.reverse.map done, []⟩ := by
  rw [done, doneAll_eq, List.map_reverse]

theorem undone_mk (t : Option (Transaction D)) (cs : List (Deed D)) :
    undone ⟨t, cs⟩ = ⟨t, [], cs.map undone⟩ := by
  rw [undone, undoneAll_eq]

theorem blocks_mk (ρ : Refusal D) (dir : Direction) (t : Option (Transaction D))
    (cs : List (Deed D)) :
    blocks ρ dir ⟨t, cs⟩ = (t.any (ρ.blocks dir) || cs.any (blocks ρ dir)) := by
  rw [blocks, blocksAny_eq]

@[simp] theorem done_transaction (x : Deed D) : x.done.transaction = x.transaction := by
  obtain ⟨t, cs⟩ := x
  rfl

theorem done_numberOfChildren (x : Deed D) : x.done.numberOfChildren = x.children.length := by
  obtain ⟨t, cs⟩ := x
  simp [done_mk, TransactionItem.numberOfChildren]

@[simp] theorem done_txId (x : Deed D) : x.done.txId = x.transaction.map (·.id) := by
  obtain ⟨t, cs⟩ := x
  rfl

/-- A deed whose transactions cannot refuse does not. -/
theorem blocks_eq_false {ρ : Refusal D} {dir : Direction} (h : ∀ t, ρ.blocks dir t = false) :
    ∀ x : Deed D, x.blocks ρ dir = false
  | ⟨t, cs⟩ => by
    have hcs : ∀ c ∈ cs, c.blocks ρ dir = false := fun c _ => blocks_eq_false h c
    have ht : t.any (ρ.blocks dir) = false := by cases t <;> simp [h]
    rw [blocks_mk, ht]
    simpa using hcs

theorem heights_le_iff (items : List (TransactionItem D)) (n : ℕ) :
    TransactionItem.heights items ≤ n ↔ ∀ item ∈ items, item.height ≤ n := by
  induction items with
  | nil => simp [TransactionItem.heights]
  | cons item items ih => simp [TransactionItem.heights, Nat.max_le, ih]

theorem done_height_le (t : Option (Transaction D)) (cs : List (Deed D)) (n : ℕ) :
    (done ⟨t, cs⟩).height ≤ n + 1 ↔ ∀ c ∈ cs, c.done.height ≤ n := by
  rw [done_mk, TransactionItem.height, Nat.succ_le_succ_iff, Nat.max_le, heights_le_iff,
    heights_le_iff]
  simp

theorem undone_height_le (t : Option (Transaction D)) (cs : List (Deed D)) (n : ℕ) :
    (undone ⟨t, cs⟩).height ≤ n + 1 ↔ ∀ c ∈ cs, c.undone.height ≤ n := by
  rw [undone_mk, TransactionItem.height, Nat.succ_le_succ_iff, Nat.max_le, heights_le_iff,
    heights_le_iff]
  simp

theorem done_height_le_iff (n : ℕ) (x : Deed D) : x.done.height ≤ n ↔ x.undone.height ≤ n := by
  induction n generalizing x with
  | zero =>
    obtain ⟨t, cs⟩ := x
    simp [done_mk, undone_mk, TransactionItem.height]
  | succ n ih =>
    obtain ⟨t, cs⟩ := x
    rw [done_height_le, undone_height_le]
    exact forall₂_congr fun c _ => ih c

end Deed

namespace Deed

/-- The deed has executed one more child. -/
def addChild (x c : Deed D) : Deed D := { x with children := x.children ++ [c] }

/-- What `EndTransaction` throws away. -/
def isEmptyBatch (x : Deed D) : Bool := x.transaction.isNone && x.children.isEmpty

theorem done_addChild (x c : Deed D) : (x.addChild c).done = x.done.addChild c.done := by
  obtain ⟨t, cs⟩ := x
  simp [addChild, done_mk, TransactionItem.addChild]

theorem Takes.addChild {ρ : Refusal D} {x c : Deed D} {a b d : D} (hx : x.Takes ρ a b)
    (hc : c.Takes ρ b d) : (x.addChild c).Takes ρ a d := by
  obtain ⟨t, cs⟩ := x
  obtain ⟨p, ht, hcs⟩ := (takes_mk ..).mp hx
  exact (takes_mk ..).mpr ⟨p, ht, Walk.append_iff.mpr ⟨b, hcs, d, hc, rfl⟩⟩

theorem Takes.isEmptyBatch {ρ : Refusal D} {x : Deed D} {a b : D} (hx : x.Takes ρ a b)
    (he : x.isEmptyBatch = true) : a = b := by
  obtain ⟨_ | t, _ | ⟨c, cs⟩⟩ := x <;> simp [Deed.isEmptyBatch] at he
  obtain ⟨p, ht, hcs⟩ := hx
  exact Eq.trans ht hcs

/-- The transaction of a deed is not transient. -/
theorem Takes.notTransient {ρ : Refusal D} {x : Deed D} {a b : D} (hx : x.Takes ρ a b) :
    x.done.getIsTransient = (false, .ok) := by
  obtain ⟨_ | t, cs⟩ := x
  · rfl
  · obtain ⟨p, ht, -⟩ := hx
    exact Transaction.Keeps.notTransient ht

end Deed

/-! ### Undoing and redoing a deed -/

namespace TransactionItem

/-- The run came to the item and the document. -/
structure Went (r : Run D) (item : TransactionItem D) (d : D) : Prop where
  result : r.result = .ok
  item : r.item = item
  doc : r.world.doc = d

/-- The run failed and left the item and the document. -/
structure Stayed (r : Run D) (item : TransactionItem D) (d : D) : Prop where
  result : r.result.failed = true
  item : r.item = item
  doc : r.world.doc = d

structure Outcome (blocked : Bool) (r : Run D) (src dst : TransactionItem D) (a b : D) :
    Prop where
  went : blocked = false → Went r dst b
  stayed : blocked = true → Stayed r src a

variable {ls : List Listener} {ρ : Refusal D}

/-- What the loop over the children left, when it moved the children of the first
list and not those of the second. -/
structure MovedTo (m : Moved D) (src dst : List (TransactionItem D)) (d : D) : Prop where
  src : m.src = src
  dst : m.dst = dst
  doc : m.world.doc = d

section Children
variable {X : Type*} {f g : X → TransactionItem D} {step : X → D → D → Prop}
  {will : Option ℕ → World D → Asked D} {run : TransactionItem D → World D → Run D}
  {did : Option ℕ → NsResult → World D → World D × NsResult} (stuck : X → Bool)

/-- Notifications that let everything through and leave the document. -/
structure Lets (will : Option ℕ → World D → Asked D)
    (did : Option ℕ → NsResult → World D → World D × NsResult) : Prop where
  passes : ∀ t w, (will t w).result = .ok ∧ (will t w).doInterrupt = false
  willDoc : ∀ t w, (will t w).world.doc = w.doc
  told : ∀ t res w, (did t res w).2 = .ok ∧ (did t res w).1.doc = w.doc

theorem Lets.of_quiet (hq : Quiet ls) (c : Caller) (n n' : Option ℕ → Notice) :
    Lets (D := D) (fun t => willNotify ls c (n t)) (fun t => didNotify ls c (n' t)) where
  passes t w := by simp [hq.willNotify]
  willDoc t w := by simp [hq.willNotify]
  told t res w := by simp [hq.didNotify]

/-- The loop moves the children in front of the first one that refuses. -/
theorem moveChildren_outcome (hl : Lets will did) {L : List X} {a b : D} (hL : Walk step L a b)
    (hrun : ∀ x ∈ L, ∀ a b w, step x a b → w.doc = a →
      Outcome (stuck x) (run (f x) w) (f x) (g x) a b)
    {w : World D} (hw : w.doc = a) (dst : List (TransactionItem D)) :
    let m := moveChildren will run did (L.map f).length w (L.map f) dst .ok
    (L.any stuck = false → m.result = .ok ∧ MovedTo m [] ((L.map g).reverse ++ dst) b) ∧
    (L.any stuck = true → m.result.failed = true ∧
      ∃ l r c, L = l ++ r ∧ Walk step l a c ∧ Walk step r c b ∧
        MovedTo m (r.map f) ((l.map g).reverse ++ dst) c) := by
  intro m
  have hturn : ∀ x ∈ L, stuck x = false → ∀ a b w, step x a b → w.doc = a →
      (run (f x) (will (f x).txId w).world).result = .ok ∧
      (run (f x) (will (f x).txId w).world).item = g x ∧
      (did (f x).txId .ok (run (f x) (will (f x).txId w).world).world).2 = .ok ∧
      (did (f x).txId .ok (run (f x) (will (f x).txId w).world).world).1.doc = b := by
    intro x hx hs a b w hstep hw
    have h := (hrun x hx a b (will (f x).txId w).world hstep (by rw [hl.willDoc, hw])).went hs
    exact ⟨h.result, h.item, (hl.told ..).1, by rw [(hl.told ..).2, h.doc]⟩
  refine ⟨fun hany => ?_, fun hany => ?_⟩
  · have hs : ∀ x ∈ L, stuck x = false := by simpa using hany
    obtain ⟨w', hw', heq⟩ := moveChildren_walk World.doc will run did hl.passes hL
      (fun x hx => hturn x hx (hs x hx)) 0 hw [] dst rfl
    have hm : m = ⟨w', [], (L.map g).reverse ++ dst, .ok⟩ := by
      rw [List.append_nil, Nat.add_zero] at heq
      simp only [m, List.length_map, heq, moveChildren]
    rw [hm]
    exact ⟨rfl, rfl, rfl, hw'⟩
  · have hfind : ∃ x, L.find? stuck = some x := by
      rw [← Option.isSome_iff_exists, List.find?_isSome]
      simpa using hany
    obtain ⟨x, hfind⟩ := hfind
    obtain ⟨hx, l, r, rfl, hl'⟩ := List.find?_eq_some_iff_append.mp hfind
    obtain ⟨c, hwl, c', hxc, hwr⟩ := Walk.append_iff.mp hL
    obtain ⟨w', hw', heq⟩ := moveChildren_walk World.doc will run did hl.passes hwl
      (fun y hy => hturn y (by simp [hy]) (by simpa using hl' y hy)) (r.length + 1) hw
      ((x :: r).map f) dst rfl
    have hstuck := moveChildren_stuck World.doc will run did hl.passes (f x) (a := c) (fun v hv => by
        have h := (hrun x (by simp) c c' (will (f x).txId v).world hxc
          (by rw [hl.willDoc, hv])).stayed hx
        exact ⟨h.result, h.item, fun res => by rw [(hl.told ..).2, h.doc]⟩)
      r.length hw' (r.map f) ((l.map g).reverse ++ dst) .ok
    have hm : m = moveChildren will run did (r.length + 1) w' (f x :: r.map f)
        ((l.map g).reverse ++ dst) .ok := by
      simp only [m, List.map_append, List.length_append, List.length_map, List.length_cons,
        List.map_cons] at heq ⊢
      exact heq
    rw [hm]
    obtain ⟨hdoc, hsrc, hdst, hfail⟩ := hstuck
    exact ⟨hfail, l, x :: r, c, rfl, hwl, ⟨c', hxc, hwr⟩, hsrc, hdst, hdoc⟩

end Children

/-- `UndoChildren` on children that were done in the order of the list, the latest
first. -/
theorem undoChildren_outcome (hq : Quiet ls) {undo : TransactionItem D → World D → Run D}
    {L : List (Deed D)} {a b : D} (hL : Walk (fun x p q => x.Takes ρ q p) L b a)
    (hrun : ∀ x ∈ L, ∀ a b w, x.Takes ρ a b → w.doc = b →
      Outcome (x.blocks ρ .undo) (undo x.done w) x.done x.undone b a)
    {w : World D} (hw : w.doc = b) (rs : List (TransactionItem D)) :
    let m := undoChildren ls undo (L.map Deed.done) rs w
    (L.any (Deed.blocks ρ .undo) = false →
      m.result = .ok ∧ MovedTo m [] ((L.map Deed.undone).reverse ++ rs) a) ∧
    (L.any (Deed.blocks ρ .undo) = true → m.result.failed = true ∧
      ∃ l r c, L = l ++ r ∧ Walk (fun x p q => x.Takes ρ q p) l b c ∧
        Walk (fun x p q => x.Takes ρ q p) r c a ∧
        MovedTo m (r.map Deed.done) ((l.map Deed.undone).reverse ++ rs) c) :=
  moveChildren_outcome (Deed.blocks ρ .undo) (.of_quiet hq .undoChildren .undoing .undoing) hL
    (fun x hx a b w hstep hw => hrun x hx b a w hstep hw) hw rs

/-- `RedoChildren` on undone children, the next to redo first. -/
theorem redoChildren_outcome (hq : Quiet ls) {redo : TransactionItem D → World D → Run D}
    {L : List (Deed D)} {a b : D} (hL : Walk (Deed.Takes ρ) L a b)
    (hrun : ∀ x ∈ L, ∀ a b w, x.Takes ρ a b → w.doc = a →
      Outcome (x.blocks ρ .redo) (redo x.undone w) x.undone x.done a b)
    {w : World D} (hw : w.doc = a) (us : List (TransactionItem D)) :
    let m := redoChildren ls redo us (L.map Deed.undone) w
    (L.any (Deed.blocks ρ .redo) = false →
      m.result = .ok ∧ MovedTo m [] ((L.map Deed.done).reverse ++ us) b) ∧
    (L.any (Deed.blocks ρ .redo) = true → m.result.failed = true ∧
      ∃ l r c, L = l ++ r ∧ Walk (Deed.Takes ρ) l a c ∧ Walk (Deed.Takes ρ) r c b ∧
        MovedTo m (r.map Deed.undone) ((l.map Deed.done).reverse ++ us) c) :=
  moveChildren_outcome (Deed.blocks ρ .redo) (.of_quiet hq .redoChildren .redoing .undoing) hL
    hrun hw us

theorem ownUndo_outcome {t : Option (Transaction D)} {a b : D} (h : Kept ρ t a b) {w : World D}
    (hw : w.doc = b) :
    (t.any (ρ.blocks .undo) = false → (ownUndo t w).2 = .ok ∧ (ownUndo t w).1.doc = a) ∧
    (t.any (ρ.blocks .undo) = true →
      (ownUndo t w).2.failed = true ∧ (ownUndo t w).1.doc = b) := by
  cases t with
  | none => exact ⟨fun _ => ⟨rfl, hw.trans h.symm⟩, fun hb => by simp at hb⟩
  | some t =>
    refine ⟨fun hb => ?_, fun hb => ?_⟩
    · have := h.undo hb
      simp [ownUndo, hw, this]
    · obtain ⟨hdoc, hf⟩ := h.undoBlocked hb w.doc
      exact ⟨hf, hdoc.trans hw⟩

theorem ownRedo_outcome {t : Option (Transaction D)} {a b : D} (h : Kept ρ t a b) {w : World D}
    (hw : w.doc = a) :
    (t.any (ρ.blocks .redo) = false → (ownRedo t w).2 = .ok ∧ (ownRedo t w).1.doc = b) ∧
    (t.any (ρ.blocks .redo) = true →
      (ownRedo t w).2.failed = true ∧ (ownRedo t w).1.doc = a) := by
  cases t with
  | none => exact ⟨fun _ => ⟨rfl, hw.trans h⟩, fun hb => by simp at hb⟩
  | some t =>
    refine ⟨fun hb => ?_, fun hb => ?_⟩
    · have := h.redo hb
      simp [ownRedo, hw, this]
    · obtain ⟨hdoc, hf⟩ := h.redoBlocked hb w.doc
      exact ⟨hf, hdoc.trans hw⟩

/-- `RecoverFromUndoError` brings back the children that were undone. -/
theorem recoverFromUndoError_stayed (hq : Quiet ls) {redo : TransactionItem D → World D → Run D}
    (t : Option (Transaction D)) {cs l r : List (Deed D)} (hcs : cs.reverse = l ++ r) {b c : D}
    (hl : Walk (fun x p q => x.Takes ρ q p) l b c)
    (hrun : ∀ x ∈ l, ∀ a b w, x.Takes ρ a b → w.doc = a →
      Outcome (x.blocks ρ .redo) (redo x.undone w) x.undone x.done a b)
    (hno : ∀ x ∈ l, x.blocks ρ .redo = false) {w : World D} (hw : w.doc = c) {res : NsResult}
    (hres : res.failed = true) :
    Stayed (recoverFromUndoError ls redo t (r.map Deed.done) (l.map Deed.undone).reverse w res)
      (Deed.done ⟨t, cs⟩) b := by
  have hback : Walk (Deed.Takes ρ) l.reverse c b := Walk.reverse_iff.mpr hl
  have h := (redoChildren_outcome hq hback (fun x hx => hrun x (by simpa using hx)) hw
    (r.map Deed.done)).1 (by simpa using hno)
  rw [List.map_reverse] at h
  obtain ⟨-, hsrc, hdst, hdoc⟩ := h
  refine ⟨hres, ?_, hdoc⟩
  simp only [recoverFromUndoError, hsrc, hdst, Deed.done_mk, hcs]
  simp

/-- `RecoverFromRedoError` takes back the children that were redone, and the
transaction. -/
theorem recoverFromRedoError_stayed (hq : Quiet ls) {undo : TransactionItem D → World D → Run D}
    {t : Option (Transaction D)} {cs l r : List (Deed D)} (hcs : cs = l ++ r) {a b c : D}
    (ht : Kept ρ t a b) (htno : t.any (ρ.blocks .undo) = false) (hl : Walk (Deed.Takes ρ) l b c)
    (hrun : ∀ x ∈ l, ∀ a b w, x.Takes ρ a b → w.doc = b →
      Outcome (x.blocks ρ .undo) (undo x.done w) x.done x.undone b a)
    (hno : ∀ x ∈ l, x.blocks ρ .undo = false) {w : World D} (hw : w.doc = c) {res : NsResult}
    (hres : res.failed = true) :
    Stayed (recoverFromRedoError ls undo t (l.map Deed.done).reverse (r.map Deed.undone) w res)
      (Deed.undone ⟨t, cs⟩) a := by
  have hback : Walk (fun x p q => x.Takes ρ q p) l.reverse c b := Walk.reverse_iff.mpr hl
  have h := (undoChildren_outcome hq hback (fun x hx => hrun x (by simpa using hx)) hw
    (r.map Deed.undone)).1 (by simpa using hno)
  rw [List.map_reverse] at h
  obtain ⟨hok, hsrc, hdst, hdoc⟩ := h
  obtain ⟨-, hown⟩ := (ownUndo_outcome ht hdoc).1 htno
  have hitem : (⟨t, [], (l.reverse.map Deed.undone).reverse ++ r.map Deed.undone⟩ :
      TransactionItem D) = Deed.undone ⟨t, cs⟩ := by
    rw [Deed.undone_mk, hcs]
    simp
  refine ⟨?_, ?_, ?_⟩
  · simp [recoverFromRedoError, hok, hres]
  · simp only [recoverFromRedoError, hok, hsrc, hdst, NsResult.failed_ok, Bool.false_eq_true,
      if_false, hitem]
  · simp only [recoverFromRedoError, hok, NsResult.failed_ok, Bool.false_eq_true, if_false, hown]

/-- `UndoTransaction` of a done item, given how its children are undone and redone. -/
theorem undoTransaction_outcome (hq : Quiet ls) (n : ℕ) {t : Option (Transaction D)}
    {cs : List (Deed D)} {a b : D} (hx : Deed.Takes ρ ⟨t, cs⟩ a b)
    (hundo : ∀ x ∈ cs, ∀ a b w, x.Takes ρ a b → w.doc = b →
      Outcome (x.blocks ρ .undo) (undoTransaction ls n x.done w) x.done x.undone b a)
    (hredo : ∀ x ∈ cs, ∀ a b w, x.Takes ρ a b → w.doc = a →
      Outcome (x.blocks ρ .redo) (redoTransaction ls n x.undone w) x.undone x.done a b)
    {w : World D} (hw : w.doc = b) :
    Outcome (Deed.blocks ρ .undo ⟨t, cs⟩) (undoTransaction ls (n + 1) (Deed.done ⟨t, cs⟩) w)
      (Deed.done ⟨t, cs⟩) (Deed.undone ⟨t, cs⟩) b a := by
  obtain ⟨d, ht, hcs⟩ := (Deed.takes_mk ..).mp hx
  have hback : Walk (fun x p q => x.Takes ρ q p) cs.reverse b d :=
    Walk.reverse_iff.mpr hcs
  obtain ⟨hgo, hstop⟩ := undoChildren_outcome hq hback
    (fun x hx => hundo x (by simpa using hx)) hw []
  rw [List.any_reverse] at hgo hstop
  -- where something refuses to be undone, nothing refuses to be redone
  have hno : Deed.blocks ρ .undo ⟨t, cs⟩ = true → ∀ x : Deed D, x.blocks ρ .redo = false := by
    intro hb
    rcases ρ.blocks_undo_or_redo with h | h
    · rw [Deed.blocks_eq_false h] at hb
      exact absurd hb (by simp)
    · exact Deed.blocks_eq_false h
  rw [Deed.blocks_mk] at hno ⊢
  rw [Deed.done_mk t cs, undoTransaction, ← Deed.done_mk t cs]
  generalize undoChildren ls (undoTransaction ls n) (cs.reverse.map Deed.done) [] w = m
    at hgo hstop ⊢
  cases hc : cs.any (Deed.blocks ρ .undo) with
  | true =>
    obtain ⟨hfail, l, r, c, hlr, hl, -, hsrc, hdst, hdoc⟩ := hstop hc
    refine ⟨by simp, fun _ => ?_⟩
    simp only [hfail, if_true, hsrc, hdst, List.append_nil]
    refine recoverFromUndoError_stayed hq t hlr hl (fun x hx => hredo x ?_)
      (fun x _ => hno (by simp [hc]) x) hdoc hfail
    have : x ∈ cs.reverse := by simp [hlr, hx]
    simpa using this
  | false =>
    obtain ⟨hok, hsrc, hdst, hdoc⟩ := hgo hc
    obtain ⟨hwent, hstayed⟩ := ownUndo_outcome ht hdoc
    simp only [hok, NsResult.failed_ok, Bool.false_eq_true, if_false, hsrc, hdst]
    refine ⟨fun hb => ?_, fun hb => ?_⟩
    · obtain ⟨hownOk, hownDoc⟩ := hwent (by simpa using hb)
      rw [if_neg (by simp [hownOk])]
      exact ⟨rfl, by simp [Deed.undone_mk], hownDoc⟩
    · obtain ⟨hownFail, hownDoc⟩ := hstayed (by simpa using hb)
      rw [if_pos hownFail, List.append_nil]
      exact recoverFromUndoError_stayed hq t (List.append_nil _).symm hback
        (fun x hx => hredo x (by simpa using hx)) (fun x _ => hno (by simp at hb; simp [hb]) x)
        hownDoc hownFail

/-- `RedoTransaction` of an undone item, given how its children are undone and redone. -/
theorem redoTransaction_outcome (hq : Quiet ls) (n : ℕ) {t : Option (Transaction D)}
    {cs : List (Deed D)} {a b : D} (hx : Deed.Takes ρ ⟨t, cs⟩ a b)
    (hundo : ∀ x ∈ cs, ∀ a b w, x.Takes ρ a b → w.doc = b →
      Outcome (x.blocks ρ .undo) (undoTransaction ls n x.done w) x.done x.undone b a)
    (hredo : ∀ x ∈ cs, ∀ a b w, x.Takes ρ a b → w.doc = a →
      Outcome (x.blocks ρ .redo) (redoTransaction ls n x.undone w) x.undone x.done a b)
    {w : World D} (hw : w.doc = a) :
    Outcome (Deed.blocks ρ .redo ⟨t, cs⟩) (redoTransaction ls (n + 1) (Deed.undone ⟨t, cs⟩) w)
      (Deed.undone ⟨t, cs⟩) (Deed.done ⟨t, cs⟩) a b := by
  obtain ⟨d, ht, hcs⟩ := (Deed.takes_mk ..).mp hx
  rw [Deed.blocks_mk, Deed.undone_mk t cs, redoTransaction, ← Deed.undone_mk t cs]
  obtain ⟨hwent, hstayed⟩ := ownRedo_outcome ht hw
  cases hown : t.any (ρ.blocks .redo) with
  | true =>
    obtain ⟨hfail, hdoc⟩ := hstayed hown
    refine ⟨by simp, fun _ => ?_⟩
    rw [if_pos hfail]
    exact ⟨hfail, rfl, hdoc⟩
  | false =>
    obtain ⟨hok, hdoc⟩ := hwent hown
    obtain ⟨hgo, hstop⟩ := redoChildren_outcome hq hcs hredo hdoc []
    rw [if_neg (by simp [hok])]
    generalize redoChildren ls (redoTransaction ls n) [] (cs.map Deed.undone) (ownRedo t w).1 = m
      at hgo hstop ⊢
    cases hc : cs.any (Deed.blocks ρ .redo) with
    | true =>
      obtain ⟨hfail, l, r, c, hlr, hl, -, hsrc, hdst, hcdoc⟩ := hstop hc
      refine ⟨by simp, fun hb => ?_⟩
      simp only [hfail, if_true, hsrc, hdst, List.append_nil]
      -- where something refuses to be redone, nothing refuses to be undone
      have hno : ∀ t, ρ.blocks .undo t = false := by
        rcases ρ.blocks_undo_or_redo with h | h
        · exact h
        · have : cs.any (Deed.blocks ρ .redo) = false := by simp [Deed.blocks_eq_false h]
          rw [this] at hc
          exact absurd hc (by simp)
      exact recoverFromRedoError_stayed hq hlr ht (by cases t <;> simp [hno]) hl
        (fun x hx => hundo x (by simp [hlr, hx])) (fun x _ => Deed.blocks_eq_false hno x)
        hcdoc hfail
    | false =>
      obtain ⟨hcok, hsrc, hdst, hcdoc⟩ := hgo hc
      refine ⟨fun _ => ?_, by simp⟩
      simp only [hcok, NsResult.failed_ok, Bool.false_eq_true, if_false, hsrc, hdst]
      exact ⟨rfl, by simp [Deed.done_mk], hcdoc⟩

/-- Undoing a done deed and redoing an undone one. -/
theorem deed_outcome (hq : Quiet ls) (n : ℕ) (x : Deed D) (hn : x.done.height ≤ n) {a b : D}
    (hx : x.Takes ρ a b) :
    (∀ w, w.doc = b → Outcome (x.blocks ρ .undo) (undoTransaction ls n x.done w)
      x.done x.undone b a) ∧
    ∀ w, w.doc = a → Outcome (x.blocks ρ .redo) (redoTransaction ls n x.undone w)
      x.undone x.done a b := by
  induction n generalizing x a b with
  | zero =>
    obtain ⟨t, cs⟩ := x
    simp [Deed.done_mk, height] at hn
  | succ n ih =>
    obtain ⟨t, cs⟩ := x
    have hcs := (Deed.done_height_le t cs n).mp hn
    exact ⟨fun w hw => undoTransaction_outcome hq n hx
        (fun c hc a b w hcx => (ih c (hcs c hc) hcx).1 w)
        (fun c hc a b w hcx => (ih c (hcs c hc) hcx).2 w) hw,
      fun w hw => redoTransaction_outcome hq n hx
        (fun c hc a b w hcx => (ih c (hcs c hc) hcx).1 w)
        (fun c hc a b w hcx => (ih c (hcs c hc) hcx).2 w) hw⟩

/-- The transactions that the notifications say were undone. -/
def undoneIds (log : List Event) : List ℕ :=
  log.filterMap fun
    | .did _ (.undoing t) _ => t
    | _ => none

theorem ownUndo_log (t : Option (Transaction D)) (w : World D) : (ownUndo t w).1.log = w.log := by
  cases t <;> rfl

/-- The walk of `moveChildren` over documents and undone transactions. -/
theorem walk_undoneIds {L : List (Deed D)} {a b : D}
    (hL : Walk (fun x p q => x.Takes ρ q p) L b a) (l : List ℕ) :
    Walk (fun (x : Deed D) (p q : D × List ℕ) => x.Takes ρ q.1 p.1 ∧ q.2 = p.2 ++ x.ids.reverse)
      L (b, l) (a, l ++ L.flatMap (fun x => x.ids.reverse)) := by
  induction L generalizing b l with
  | nil => simpa using hL
  | cons x L ih =>
    obtain ⟨c, hx, hL⟩ := hL
    refine ⟨(c, l ++ x.ids.reverse), ⟨hx, rfl⟩, ?_⟩
    simpa using ih hL (l ++ x.ids.reverse)

/-- The children of a deed are undone in reverse order of execution. -/
theorem undoTransaction_order (hq : Quiet ls) (hno : ∀ t, ρ.blocks .undo t = false) (n : ℕ)
    (x : Deed D) (hn : x.done.height ≤ n) {a b : D} (hx : x.Takes ρ a b) {w : World D}
    (hw : w.doc = b) :
    undoneIds (undoTransaction ls n x.done w).world.log =
      undoneIds w.log ++ (Deed.idsAll x.children).reverse := by
  induction n generalizing x a b w with
  | zero =>
    obtain ⟨t, cs⟩ := x
    simp [Deed.done_mk, height] at hn
  | succ n ih =>
    obtain ⟨t, cs⟩ := x
    have hcs := (Deed.done_height_le t cs n).mp hn
    obtain ⟨d, ht, hwalk⟩ := (Deed.takes_mk ..).mp hx
    have hback : Walk (fun x p q => x.Takes ρ q p) cs.reverse b d :=
      Walk.reverse_iff.mpr hwalk
    have hturn : ∀ c ∈ cs.reverse, ∀ (p q : D × List ℕ) (v : World D),
        c.Takes ρ q.1 p.1 ∧ q.2 = p.2 ++ c.ids.reverse → (v.doc, undoneIds v.log) = p →
        let r := undoTransaction ls n c.done
          (willUndoNotify ls .undoChildren c.done.txId v).world
        let told := didUndoNotify ls .undoChildren c.done.txId .ok r.world
        r.result = .ok ∧ r.item = c.undone ∧ told.2 = .ok ∧
          (told.1.doc, undoneIds told.1.log) = q := by
      rintro c hc p ⟨q1, q2⟩ v ⟨hcx, rfl⟩ rfl
      have hle := hcs c (by simpa using hc)
      rw [willUndoNotify, hq.willNotify]
      generalize hv' : ({ v with log := v.log ++ [.will .undoChildren (.undoing c.done.txId) false] }
        : World D) = v'
      have hdoc : v'.doc = v.doc := by rw [← hv']
      have hlog : undoneIds v'.log = undoneIds v.log := by rw [← hv']; simp [undoneIds]
      have hwent := ((deed_outcome hq n c hle hcx).1 v' hdoc).went (Deed.blocks_eq_false hno c)
      have hids := ih c hle hcx hdoc
      refine ⟨hwent.result, hwent.item, by simp [didUndoNotify, hq.didNotify], ?_⟩
      obtain ⟨tc, ccs⟩ := c
      simp only [didUndoNotify, hq.didNotify, hwent.doc]
      rw [undoneIds, List.filterMap_append, ← undoneIds, hids, hlog]
      cases tc <;> simp [Deed.ids]
    obtain ⟨w', hw', heq⟩ := moveChildren_walk (fun v => (v.doc, undoneIds v.log))
      (willUndoNotify ls .undoChildren) (undoTransaction ls n) (didUndoNotify ls .undoChildren)
      (fun t v => by simp [willUndoNotify, hq.willNotify]) (walk_undoneIds hback (undoneIds w.log))
      hturn 0 (w := w) (by rw [hw]) [] [] rfl
    rw [Prod.mk.injEq, List.flatMap_reverse] at hw'
    obtain ⟨hdoc, hlog⟩ := hw'
    obtain ⟨hownOk, -⟩ := (ownUndo_outcome ht hdoc).1 (by cases t <;> simp [hno])
    rw [Nat.add_zero, List.append_nil, moveChildren] at heq
    rw [Deed.done_mk, undoTransaction]
    simp only [undoChildren, List.length_map, heq, hownOk, NsResult.failed_ok, Bool.false_eq_true,
      if_false, ownUndo_log, hlog, Deed.idsAll_eq]
    simp [Function.comp_def]

end TransactionItem

end Kompozer.TxMgr

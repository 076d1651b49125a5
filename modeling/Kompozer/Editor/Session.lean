import Kompozer.Editor.Typing
import Kompozer.TxMgr.Linear

/-! Editing sessions (`nsEditor.cpp`). Transactions that change texts and move nodes into the tree
and out of it, and aggregates of them (`EditAggregateTxn.cpp`), are done through the transaction
manager, alone or in batches, and undone and redone. Observers do not interfere, and nothing
merges. -/

namespace Kompozer.Editor

open Dom Document NsResult TxMgr

/-! ### Undoing the primitive transactions -/

def DeleteTextTxn.undoTransaction (t : DeleteTextTxn) (d : Document) : NsResult × Document :=
  d.insertData t.mElement t.mOffset t.mDeletedText

def InsertElementTxn.undoTransaction (t : InsertElementTxn) (d : Document) : NsResult × Document :=
  d.removeChild t.mParent t.mNode

namespace DeleteElementTxn

def undoTransaction (t : DeleteElementTxn) (d : Document) : NsResult × Document :=
  match t.mParent with
  | none => (.ok, d)
  | some mParent => d.insertBefore mParent t.mElement t.mRefNode

def redoTransaction (t : DeleteElementTxn) (d : Document) : NsResult × Document :=
  match t.mParent with
  | none => (.ok, d)
  | some mParent => d.removeChild mParent t.mElement

end DeleteElementTxn

/-- The transactions of a session. -/
inductive Edit
  | insertText (t : InsertTextTxn)
  | deleteText (t : DeleteTextTxn)
  | insertElement (t : InsertElementTxn)
  | deleteElement (t : DeleteElementTxn)
  | aggregate (mChildren : List Edit)

namespace Edit

mutual
/-- `DoTransaction`: the result, the transaction with what it remembers, and the tree. -/
def doTransaction : Edit → Document → NsResult × Edit × Document
  | insertText t, d => ((t.doTransaction d).1, insertText t, (t.doTransaction d).2)
  | deleteText t, d =>
    let r := t.doTransaction d
    (r.1, deleteText r.2.1, r.2.2)
  | insertElement t, d =>
    let r := t.doTransaction d
    (r.1, insertElement r.2.1, r.2.2)
  | deleteElement t, d =>
    let r := t.doTransaction d
    (r.1, deleteElement r.2.1, r.2.2)
  | aggregate mChildren, d =>
    let r := doChildren mChildren d
    (r.1, aggregate r.2.1, r.2.2)
/-- The loop of `EditAggregateTxn::DoTransaction`. -/
def doChildren : List Edit → Document → NsResult × List Edit × Document
  | [], d => (.ok, [], d)
  | t :: ts, d =>
    match doTransaction t d with
    | (.ok, t, d) =>
      let r := doChildren ts d
      (r.1, t :: r.2.1, r.2.2)
    | (.error c, t, d) => (.error c, t :: ts, d)
end

mutual
/-- `UndoTransaction`. -/
def undoTransaction : Edit → Document → NsResult × Document
  | insertText t, d => t.undoTransaction d
  | deleteText t, d => t.undoTransaction d
  | insertElement t, d => t.undoTransaction d
  | deleteElement t, d => t.undoTransaction d
  | aggregate mChildren, d => undoChildren mChildren d
/-- The loop of `EditAggregateTxn::UndoTransaction`, which goes through the children backwards. -/
def undoChildren : List Edit → Document → NsResult × Document
  | [], d => (.ok, d)
  | t :: ts, d =>
    match undoChildren ts d with
    | (.ok, d) => undoTransaction t d
    | r => r
end

mutual
/-- `RedoTransaction`: where a class has none, `EditTxn::RedoTransaction` calls `DoTransaction`. -/
def redoTransaction : Edit → Document → NsResult × Edit × Document
  | deleteElement t, d => ((t.redoTransaction d).1, deleteElement t, (t.redoTransaction d).2)
  | aggregate mChildren, d =>
    let r := redoChildren mChildren d
    (r.1, aggregate r.2.1, r.2.2)
  | insertText t, d => doTransaction (insertText t) d
  | deleteText t, d => doTransaction (deleteText t) d
  | insertElement t, d => doTransaction (insertElement t) d
/-- The loop of `EditAggregateTxn::RedoTransaction`. -/
def redoChildren : List Edit → Document → NsResult × List Edit × Document
  | [], d => (.ok, [], d)
  | t :: ts, d =>
    match redoTransaction t d with
    | (.ok, t, d) =>
      let r := redoChildren ts d
      (r.1, t :: r.2.1, r.2.2)
    | (.error c, t, d) => (.error c, t :: ts, d)
end

mutual
/-- What the editor sees to: texts stay short enough for a fragment, what is deleted is there, and
a node that is inserted is in no tree. -/
def Applies : Edit → Document → Prop
  | insertText t, d => d.isText t.mElement = true ∧
      (d.data t.mElement).length + t.mStringToInsert.length < 2 ^ 29
  | deleteText t, d => d.isText t.mElement = true ∧ (d.data t.mElement).length < 2 ^ 29 ∧
      t.mOffset + t.mNumCharsToDelete ≤ (d.data t.mElement).length
  | insertElement t, d => d.mParent t.mNode = none ∧ t.mNode < d.fresh ∧ t.mParent < d.fresh
  | deleteElement _, _ => True
  | aggregate mChildren, d => AllApply mChildren d
def AllApply : List Edit → Document → Prop
  | [], _ => True
  | t :: ts, d => Applies t d ∧ AllApply ts (doTransaction t d).2.2
end

/-! ### Each transaction is undone and redone -/

/-- Undoing after doing gives the tree back, redoing does the same again, and the tree stays well
formed. -/
structure Inverts (t : Edit) (d : Document) : Prop where
  undo : (doTransaction t d).2.1.undoTransaction (doTransaction t d).2.2 = (.ok, d)
  redo : redoTransaction (doTransaction t d).2.1 d = (.ok, (doTransaction t d).2)
  wellFormed : (doTransaction t d).2.2.WellFormed

variable {d : Document}

/-- A node that was put in is taken out. -/
theorem unlink_link {A B : List NodeId} {c p : NodeId} (hAB : d.children p = A ++ B)
    (ht : d.isText p = false) (hc : d.mParent c = none) :
    (d.link c p A.length).unlink c p A.length = d := by
  have hcs : (d.link c p A.length).children p = A ++ c :: B := by
    rw [children_link ht, if_pos rfl, hAB, insertIdx_append_length]
  ext1
  · funext m
    rw [mParent_unlink, mParent_link]
    split_ifs with h
    · rw [h, hc]
    · rfl
  · funext m
    rw [body_unlink, hcs, eraseIdx_append_length, body_link, body_link, if_pos rfl]
    split_ifs with h
    · rw [h, Body.withChildren_withChildren, ← hAB]
      exact Body.withChildren_children _
    · rfl
  · rfl

/-- One that was taken out is put back. -/
theorem link_unlink {A B : List NodeId} {c p : NodeId} (hAB : d.children p = A ++ c :: B)
    (hc : d.mParent c = some p) : (d.unlink c p A.length).link c p A.length = d := by
  have hcs : (d.unlink c p A.length).children p = A ++ B := by
    rw [children_unlink (isText_of_mem (c := c) (by simp [hAB])), if_pos rfl, hAB,
      eraseIdx_append_length]
  ext1
  · funext m
    rw [mParent_link, mParent_unlink]
    split_ifs with h
    · rw [h, hc]
    · rfl
  · funext m
    rw [body_link, hcs, insertIdx_append_length, body_unlink, body_unlink, if_pos rfl]
    split_ifs with h
    · rw [h, Body.withChildren_withChildren, ← hAB]
      exact Body.withChildren_children _
    · rfl
  · rfl

section Primitive
variable (hd : d.WellFormed)
include hd

theorem insertText_inverts {t : InsertTextTxn} (h : (insertText t).Applies d)
    (hok : (doTransaction (insertText t) d).1 = .ok) : (insertText t).Inverts d := by
  obtain ⟨ht, hlen⟩ := h
  obtain ⟨A, B, hcut, hA⟩ := exists_cut (le_of_replaceData_ok hok)
  have hlen' := congrArg List.length hcut
  rw [List.length_append] at hlen'
  have hdo : t.doTransaction d = (.ok, d.setText t.mElement (A ++ t.mStringToInsert ++ B)) :=
    insertData_eq hcut hA (by omega)
  refine ⟨?_, ?_, ?_⟩ <;> simp only [doTransaction, redoTransaction, undoTransaction, hdo]
  · rw [InsertTextTxn.undoTransaction, deleteData_eq (data_setText ht _) hA rfl (by omega),
      setText_setText, setText_eq_self hcut]
  · exact hd.setText _ _

theorem deleteText_inverts {t : DeleteTextTxn} (h : (deleteText t).Applies d) :
    (deleteText t).Inverts d := by
  obtain ⟨ht, hlen, hin⟩ := h
  obtain ⟨A, C, hcut, hA⟩ := exists_cut (Nat.le_of_add_right_le hin)
  rw [hcut, List.length_append] at hin hlen
  obtain ⟨B, D, rfl, hB⟩ := exists_cut (l := C) (k := t.mNumCharsToDelete) (by omega)
  rw [List.length_append] at hin hlen
  have hsub : d.substringData t.mElement t.mOffset t.mNumCharsToDelete = (.ok, B) := by
    rw [substringData, hcut, ← hA, ← hB]
    simp
  have hdel : d.deleteData t.mElement t.mOffset t.mNumCharsToDelete =
      (.ok, d.setText t.mElement (A ++ D)) :=
    deleteData_eq (by rw [hcut, List.append_assoc]) hA hB (by omega)
  have hdo : ∀ u, DeleteTextTxn.doTransaction { t with mDeletedText := u } d =
      (.ok, { t with mDeletedText := B }, d.setText t.mElement (A ++ D)) := by
    intro u
    rw [DeleteTextTxn.doTransaction, hsub, hdel]
  have hdo' := hdo t.mDeletedText
  refine ⟨?_, ?_, ?_⟩ <;> simp only [doTransaction, redoTransaction, undoTransaction, hdo', hdo]
  · rw [DeleteTextTxn.undoTransaction, insertData_eq (data_setText ht _) hA (by omega),
      setText_setText, setText_eq_self (by rw [hcut, List.append_assoc])]
  · exact hd.setText _ _

/-- A node is put in at an offset that is clamped, and the clamped one stays. -/
theorem insertElement_inverts {t : InsertElementTxn} (h : (insertElement t).Applies d)
    (hok : (doTransaction (insertElement t) d).1 = .ok) : (insertElement t).Inverts d := by
  obtain ⟨hnone, hnode, hparent⟩ := h
  obtain ⟨k, hk, hkk⟩ : ∃ k : ℤ, (t.doTransaction d).2.1 = { t with mOffset := k } ∧
      ({ t with mOffset := k } : InsertElementTxn).doTransaction d = t.doTransaction d := by
    refine ⟨_, rfl, ?_⟩
    simp only [InsertElementTxn.doTransaction]
    split_ifs <;> rfl
  obtain ⟨A, B, hAB, -, ht, hanc, hins⟩ := insertBefore_ok hd hnone hparent hok
  have hdo : t.doTransaction d = (.ok, { t with mOffset := k }, d.link t.mNode t.mParent A.length) :=
    Prod.ext hok (Prod.ext hk (congrArg Prod.snd hins :))
  have hwf := hd.link hAB ht hnone hanc hnode hparent
  refine ⟨?_, ?_, ?_⟩ <;> simp only [doTransaction, redoTransaction, undoTransaction, hkk, hdo]
  · have hcs : (d.link t.mNode t.mParent A.length).children t.mParent = A ++ t.mNode :: B := by
      rw [children_link ht, if_pos rfl, hAB, insertIdx_append_length]
    rw [InsertElementTxn.undoTransaction, removeChild_eq hwf hcs, unlink_link hAB ht hnone]
  · exact hwf

theorem deleteElement_inverts (t : DeleteElementTxn) : (deleteElement t).Inverts d := by
  cases hp : d.mParent t.mElement with
  | none =>
    have hdo : t.doTransaction d = (.ok, { t with mParent := none }, d) := by
      simp only [DeleteElementTxn.doTransaction, hp]
    refine ⟨?_, ?_, ?_⟩ <;> simp only [doTransaction, redoTransaction, undoTransaction, hdo]
    · rfl
    · rfl
    · exact hd
  | some p =>
    obtain ⟨A, B, hAB, -, -⟩ := hd.exists_cut hp
    have hrem := removeChild_eq hd hAB
    have hdo : t.doTransaction d = (.ok, { t with mParent := some p, mRefNode := B.head? },
        d.unlink t.mElement p A.length) := by
      simp only [DeleteElementTxn.doTransaction, hp, hrem, getNextSibling_eq hd hAB]
    have ht : d.isText p = false := isText_of_mem (c := t.mElement) (by simp [hAB])
    refine ⟨?_, ?_, ?_⟩ <;> simp only [doTransaction, redoTransaction, undoTransaction, hdo]
    · have hcs : (d.unlink t.mElement p A.length).children p = A ++ B := by
        rw [children_unlink ht, if_pos rfl, hAB, eraseIdx_append_length]
      rw [DeleteElementTxn.undoTransaction]
      dsimp only
      rw [insertBefore_detached (hd.unlink hAB) hcs (by rw [isText_unlink, ht])
        (by rw [mParent_unlink, if_pos rfl])
        (fun h => hd.not_ancestor_parent hp h.of_unlink) (hd.parent_lt hp), link_unlink hAB hp]
    · rw [DeleteElementTxn.redoTransaction]
      dsimp only
      rw [hrem]
    · exact hd.unlink hAB

end Primitive

theorem ok_of_doChildren {t : Edit} {ts : List Edit} (h : (doChildren (t :: ts) d).1 = .ok) :
    (doTransaction t d).1 = .ok := by
  rw [doChildren] at h
  generalize doTransaction t d = r at h ⊢
  obtain ⟨_ | c, t', d'⟩ := r
  · rfl
  · exact h

theorem doChildren_cons {t : Edit} (ts : List Edit) (h : (doTransaction t d).1 = .ok) :
    doChildren (t :: ts) d = ((doChildren ts (doTransaction t d).2.2).1,
      (doTransaction t d).2.1 :: (doChildren ts (doTransaction t d).2.2).2.1,
        (doChildren ts (doTransaction t d).2.2).2.2) := by
  obtain ⟨r, hr⟩ : ∃ r, doTransaction t d = (.ok, r) := ⟨_, Prod.ext h rfl⟩
  rw [doChildren, hr]

mutual
/-- An aggregate goes back through its children in the reverse order. -/
theorem inverts : ∀ (t : Edit) {d : Document}, d.WellFormed → t.Applies d →
    (doTransaction t d).1 = .ok → t.Inverts d
  | insertText _, _, hd, h, hok => insertText_inverts hd h hok
  | deleteText _, _, hd, h, _ => deleteText_inverts hd h
  | insertElement _, _, hd, h, hok => insertElement_inverts hd h hok
  | deleteElement t, _, hd, _, _ => deleteElement_inverts hd t
  | aggregate ts, d, hd, h, hok => by
    rw [Applies] at h
    rw [doTransaction] at hok
    obtain ⟨hundo, hredo, hwf⟩ := doChildren_inverts ts hd h hok
    refine ⟨?_, ?_, ?_⟩ <;> rw [doTransaction]
    · rw [undoTransaction, hundo]
    · rw [redoTransaction, hredo]
    · exact hwf
theorem doChildren_inverts : ∀ (ts : List Edit) {d : Document}, d.WellFormed → AllApply ts d →
    (doChildren ts d).1 = .ok →
    undoChildren (doChildren ts d).2.1 (doChildren ts d).2.2 = (.ok, d) ∧
      redoChildren (doChildren ts d).2.1 d = (.ok, (doChildren ts d).2) ∧
        (doChildren ts d).2.2.WellFormed
  | [], _, hd, _, _ => ⟨rfl, rfl, hd⟩
  | t :: ts, d, hd, h, hok => by
    obtain ⟨hfirst, hrest⟩ := h
    have hdo := ok_of_doChildren hok
    rw [doChildren_cons ts hdo] at hok ⊢
    obtain ⟨hundo, hredo, hwf⟩ := inverts t hd hfirst hdo
    obtain ⟨ihundo, ihredo, ihwf⟩ := doChildren_inverts ts hwf hrest hok
    refine ⟨?_, ?_, ihwf⟩
    · rw [undoChildren, ihundo]
      exact hundo
    · rw [redoChildren, hredo]
      dsimp only
      rw [ihredo]
end

/-- What the transaction manager sees of a transaction that was done. -/
def transaction (id : ℕ) (t : Edit) : Transaction Document where
  id := id
  undoTransaction d := (t.undoTransaction d).swap
  redoTransaction d := ((t.redoTransaction d).2.2, (t.redoTransaction d).1)

/-- It keeps what it took. -/
theorem Inverts.keeps {t : Edit} (h : t.Inverts d) (id : ℕ) :
    ((doTransaction t d).2.1.transaction id).Keeps .nobody d (doTransaction t d).2.2 where
  notTransient := rfl
  undo _ := congrArg Prod.swap h.undo
  undoBlocked hb := by simp [Refusal.blocks, Refusal.nobody] at hb
  redo _ := by simp only [transaction, h.redo]
  redoBlocked hb := by simp [Refusal.blocks, Refusal.nobody] at hb

end Edit

/-! ### Sessions -/

/-- The calls of the editor: `DoTransaction` with a new transaction object, `Undo`, `Redo`,
`BeginTransaction` and `EndTransaction`. -/
inductive Call
  | doTransaction (id : ℕ) (t : Edit)
  | undo
  | redo
  | beginTransaction
  | endTransaction

namespace Call

/-- What the transaction manager is told to do. -/
def act (d : Document) : Call → Act Document
  | doTransaction id t =>
    .doTransaction ((t.doTransaction d).2.1.transaction id)
      [.change fun d => (t.doTransaction d).2.2] (t.doTransaction d).1
  | undo => .undoTransaction
  | redo => .redoTransaction
  | beginTransaction => .beginBatch
  | endTransaction => .endBatch

/-- The calls one after the other. -/
def runAll (env : Env Document) : List Call → State Document → State Document
  | [], s => s
  | c :: cs, s => runAll env cs ((c.act s.doc).run env s).1

/-- A transaction can be done and is. -/
def Careful (d : Document) : Call → Prop
  | doTransaction _ t => t.Applies d ∧ (t.doTransaction d).1 = .ok
  | _ => True

/-- Each transaction is, in the state that the calls before it led to. -/
def AllCareful (env : Env Document) : List Call → State Document → Prop
  | [], _ => True
  | c :: cs, s => c.Careful s.doc ∧ AllCareful env cs ((c.act s.doc).run env s).1

end Call

/-- All documents of a history are well formed. -/
structure Tidy (h : History Document) : Prop where
  timeline : h.timeline.All WellFormed
  doc : h.doc.WellFormed

namespace Tidy
variable {h : History Document}

theorem finish (ht : Tidy h) : Tidy h.finish := by
  unfold History.finish
  split
  · exact ht
  · split_ifs
    · exact ⟨ht.timeline, ht.doc⟩
    · split
      · exact ⟨ht.timeline, ht.doc⟩
      · exact ⟨ht.timeline.record _ ht.doc, ht.doc⟩

theorem undo (ht : Tidy h) : Tidy (h.undo .nobody) := by
  unfold History.undo
  split
  · split_ifs
    · exact ht
    · exact ⟨ht.timeline.undo, ht.timeline.undo.now⟩
  · exact ht

theorem redo (ht : Tidy h) : Tidy (h.redo .nobody) := by
  unfold History.redo
  split
  · split_ifs
    · exact ht
    · exact ⟨ht.timeline.redo, ht.timeline.redo.now⟩
  · exact ht

/-- One call. -/
theorem step (ht : Tidy h) {c : Call} (hc : c.Careful h.doc) :
    (c.act h.doc).Keeps .nobody h ∧ Tidy ((c.act h.doc).play .nobody h) := by
  cases c with
  | doTransaction id t =>
    have hinv := t.inverts ht.doc hc.1 hc.2
    rw [Call.act, Act.Keeps, Act.play]
    exact ⟨⟨hc.2, hinv.keeps id⟩, finish ⟨ht.timeline, hinv.wellFormed⟩⟩
  | undo => exact ⟨trivial, ht.undo⟩
  | redo => exact ⟨trivial, ht.redo⟩
  | beginTransaction => exact ⟨trivial, ht.timeline, ht.doc⟩
  | endTransaction =>
    refine ⟨trivial, ?_⟩
    rw [Call.act, Act.play, History.endBatch]
    split
    · exact ht.finish
    · exact ht

end Tidy

section Runs
variable {env : Env Document} (he : env.Undisturbed) {d : Document}
include he

/-- The manager follows a history of well-formed documents through all calls. -/
theorem runAll_tracks (cs : List Call) {s : State Document} {h : History Document}
    (hs : h.Sound .nobody d) (hsh : s.Tracks h) (ht : Tidy h) (hc : Call.AllCareful env cs s) :
    ∃ h' : History Document, h'.Sound .nobody d ∧ (Call.runAll env cs s).Tracks h' ∧ Tidy h' := by
  induction cs generalizing s h with
  | nil => exact ⟨h, hs, hsh, ht⟩
  | cons c cs ih =>
    obtain ⟨hfirst, hrest⟩ := hc
    rw [hsh.doc] at hfirst
    obtain ⟨hkeeps, htidy⟩ := ht.step hfirst
    have htracks := Act.run_tracks he _ hkeeps hs hsh
    rw [← hsh.doc] at htracks htidy hkeeps
    exact ih (Act.play_sound _ hkeeps hs) htracks htidy hrest

/-- After every session the tree is well formed. Outside of batches as many undos as there are
items lead back to the document of the beginning, and as many redos to the present one again. -/
theorem session_undone (hd : d.WellFormed) (cs : List Call)
    (hc : Call.AllCareful env cs (.init d (-1))) :
    let s := Call.runAll env cs (.init d (-1))
    let back := (fun s => (s.undoTransaction env).1)^[s.undoStack.length] s
    let forth := (fun s => (s.redoTransaction env).1)^[s.undoStack.length] back
    s.doc.WellFormed ∧ (s.doStack = [] → (back.doc = d ∧ back.undoStack = []) ∧
      forth.doc = s.doc ∧ forth.undoStack = s.undoStack ∧ forth.redoStack = s.redoStack) := by
  intro s back forth
  obtain ⟨h, hs, hsh, ht⟩ := runAll_tracks he cs (.init d) (.init d (by decide))
    ⟨⟨fun _ he => absurd he List.not_mem_nil, hd, fun _ he => absurd he List.not_mem_nil⟩, hd⟩ hc
  refine ⟨by rw [hsh.doc]; exact ht.doc, fun hdo => ?_⟩
  have hopened : h.opened = [] := List.map_eq_nil_iff.mp (hsh.doStack.symm.trans hdo)
  rw [History.eq_rest hs hopened] at hsh hs
  have hlen : s.undoStack.length = h.timeline.past.length := by
    rw [hsh.undoStack, List.length_map]
    rfl
  obtain ⟨hback, hsback⟩ := hsh.iterate_undo he s.undoStack.length hs
  have hforth := hback.iterate_redo he s.undoStack.length hsback
  rw [Timeline.redo_iterate_undo_iterate _ _ (.inl (Nat.le_of_eq hlen))] at hforth
  have hpast : (Timeline.undo^[s.undoStack.length] h.timeline).past = [] := by
    rw [Timeline.past_undo_iterate, hlen, List.drop_length]
  refine ⟨⟨hback.doc.trans (hsback.timeline.now_of_past_nil hpast), ?_⟩,
    hforth.doc.trans hsh.doc.symm, hforth.undoStack.trans hsh.undoStack.symm,
    hforth.redoStack.trans hsh.redoStack.symm⟩
  rw [hback.undoStack]
  exact congrArg (List.map _) hpast

end Runs

theorem threeLetters_wellFormed : threeLetters.WellFormed where
  parent_iff p c := by
    by_cases hc : c = 1 <;> by_cases hp : p = 0 <;>
      simp [threeLetters, children, Body.children, hc, hp, eq_comm]
  nodup p := by
    by_cases hp : p = 0 <;> simp [threeLetters, children, Body.children, hp]
  bound p c h := by
    have h : (if c = 1 then some 0 else none) = some p := h
    split_ifs at h with hc
    rw [hc, ← Option.some.inj h]
    decide
  acyclic := by
    refine ⟨id, fun p c h => ?_⟩
    have h : (if c = 1 then some 0 else none) = some p := h
    split_ifs at h with hc
    rw [hc, ← Option.some.inj h]
    decide

/-- No listeners, and no merging. -/
def plainEnv : Env Document := ⟨[], fun top _ => ⟨top, false, .ok⟩⟩

/-- A letter is deleted, and then the text with the others, in a batch. -/
def sampleCalls : List Call :=
  [.beginTransaction, .doTransaction 0 (.aggregate [.deleteText ⟨1, 0, 1, []⟩,
    .deleteElement ⟨1, none, none⟩]), .endTransaction]

theorem session_undone_letters :
    let s := Call.runAll plainEnv sampleCalls (.init threeLetters (-1))
    ((fun s => (s.undoTransaction plainEnv).1)^[s.undoStack.length] s).doc = threeLetters := by
  have he : plainEnv.Undisturbed := ⟨by simp [Quiet, plainEnv], fun _ _ => ⟨rfl, rfl⟩⟩
  have hdel : Edit.Applies (.deleteText ⟨1, 0, 1, []⟩) threeLetters := ⟨rfl, by decide, by decide⟩
  have h := session_undone he threeLetters_wellFormed sampleCalls
    ⟨trivial, ⟨⟨hdel, trivial, trivial⟩, rfl⟩, trivial, trivial⟩
  exact (h.2 rfl).1.1

end Kompozer.Editor

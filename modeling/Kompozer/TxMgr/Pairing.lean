import Kompozer.Lib.Brackets
import Kompozer.TxMgr.Manager
import Mathlib.Tactic.Linarith

/-! Pairing of the notifications. Every `Will` notification that is not stopped
is answered by the `Did` notification of its kind for the same transaction, and
the pairs nest, except in `RedoChildren`, which answers `WillRedo` with `DidUndo`.
The log of a run is therefore paired exactly when no child was ever redone. -/

namespace Kompozer.TxMgr

open Brackets

universe u
variable {D : Type u}

/-- The kinds of notification that come in pairs for a transaction. -/
inductive Kind
  | doing | undoing | redoing
  deriving DecidableEq, Repr

/-- The transaction a notice of a kind is about; null for a batch. -/
def Notice.about : Kind → Notice → Option (Option ℕ)
  | .doing, .doing t => some (some t)
  | .undoing, .undoing t => some t
  | .redoing, .redoing t => some t
  | _, _ => none

/-- An unstopped `will` of a kind opens a bracket, a `did` of it closes one. -/
def Event.token (k : Kind) : Event → Token (Option ℕ)
  | .will _ n false => match n.about k with
    | some t => .opening t
    | none => .neutral
  | .will _ _ true => .neutral
  | .did _ n _ => match n.about k with
    | some t => .closing t
    | none => .neutral

/-- For each kind, every unstopped `will` is followed by exactly one `did` for the
same transaction, and the pairs nest. -/
def Paired (log : List Event) : Prop := ∀ k, Balanced (Event.token k) log

/-- `RedoChildren` got past its call of `WillRedoNotify` for a child. -/
def Event.childRedo : Event → Bool
  | .will .redoChildren _ false => true
  | _ => false

/-- What the events of a call amount to. Without a redone child they are paired;
in any case each redone child leaves one `WillRedo` unanswered. -/
structure Answered (log : List Event) : Prop where
  paired : (∀ e ∈ log, e.childRedo = false) → Paired log
  unanswered : excess (Event.token .redoing) log = log.countP Event.childRedo

namespace Answered

theorem nil : Answered [] := ⟨fun _ _ => .nil, rfl⟩

theorem append {l r : List Event} (hl : Answered l) (hr : Answered r) : Answered (l ++ r) where
  paired h k := (hl.paired (fun e he => h e (by simp [he])) k).append
    (hr.paired (fun e he => h e (by simp [he])) k)
  unanswered := by simp [hl.unanswered, hr.unanswered]

theorem stopped (c : Caller) (n : Notice) : Answered [.will c n true] where
  paired _ _ := .single rfl
  unanswered := by cases c <;> simp [Event.token, Token.weight, Event.childRedo]

/-- A `will` answered by the `did` of the same notice. -/
theorem answer {c c' : Caller} (hc : c ≠ .redoChildren) (n : Notice) (res : NsResult)
    {l : List Event} (hl : Answered l) : Answered (.will c n false :: (l ++ [.did c' n res])) where
  paired h k := by
    have hp := hl.paired (fun e he => h e (by simp [he])) k
    cases hn : n.about k with
    | none => exact .pad (by simp [Event.token, hn]) (by simp [Event.token, hn]) hp
    | some t => exact .enclose (by simp [Event.token, hn]; rfl) (by simp [Event.token, hn]) hp
  unanswered := by
    have hw : Event.childRedo (.will c n false) = false := by
      cases c <;> simp_all [Event.childRedo]
    have hd : Event.childRedo (.did c' n res) = false := rfl
    cases hn : n.about .redoing <;>
      simp [Event.token, hn, Token.weight, hl.unanswered, hw, hd]

/-- `RedoChildren` answers `WillRedo` with `DidUndo`. -/
theorem slip (t : Option ℕ) (res : NsResult) {l : List Event} (hl : Answered l) :
    Answered (.will .redoChildren (.redoing t) false ::
      (l ++ [.did .redoChildren (.undoing t) res])) where
  paired h := absurd (h _ (List.mem_cons_self ..)) (by simp [Event.childRedo])
  unanswered := by
    simp [Event.token, Notice.about, Token.weight, hl.unanswered, Event.childRedo,
      List.countP_cons]
    omega

end Answered

/-- The second world has notified more, and what it added is answered. -/
def Logs (w w' : World D) : Prop := ∃ seg, w'.log = w.log ++ seg ∧ Answered seg

namespace Logs

theorem refl (w : World D) : Logs w w := ⟨[], by simp, .nil⟩

theorem of_log_eq {w w' : World D} (h : w'.log = w.log) : Logs w w' := ⟨[], by simp [h], .nil⟩

theorem trans {w w' w'' : World D} (h : Logs w w') (h' : Logs w' w'') : Logs w w'' := by
  obtain ⟨l, hl, al⟩ := h
  obtain ⟨r, hr, ar⟩ := h'
  exact ⟨l ++ r, by rw [hr, hl, List.append_assoc], al.append ar⟩

/-- A stopped `will`. -/
theorem will_stopped {ls : List Listener} (c : Caller) (n : Notice) {w : World D}
    (h : ((willNotify ls c n w).result.failed || (willNotify ls c n w).doInterrupt) = true) :
    Logs w (willNotify ls c n w).world :=
  ⟨[.will c n true], by simpa [willNotify] using h, .stopped c n⟩

/-- A `will`, what happened since, and its `did`. -/
theorem will_did {ls : List Listener} {c c' : Caller} {n n' : Notice} {w w' : World D}
    {res : NsResult}
    (h : ((willNotify ls c n w).result.failed || (willNotify ls c n w).doInterrupt) = false)
    (ha : ∀ l, Answered l → Answered (.will c n false :: (l ++ [.did c' n' res])))
    (hw : Logs (willNotify ls c n w).world w') : Logs w (didNotify ls c' n' res w').1 := by
  obtain ⟨l, hl, al⟩ := hw
  refine ⟨.will c n false :: (l ++ [.did c' n' res]), ?_, ha l al⟩
  have hstop : (askWill ls w.log n).1.failed = false ∧ (askWill ls w.log n).2 = false := by
    simpa [willNotify] using h
  simp [didNotify, hl, willNotify, hstop]

end Logs

namespace TransactionItem

/-- The loop over the children, when every turn it makes is answered. -/
theorem moveChildren_logs {will : Option ℕ → World D → Asked D}
    {run : TransactionItem D → World D → Run D}
    {did : Option ℕ → NsResult → World D → World D × NsResult}
    (hstop : ∀ t w, ((will t w).result.failed || (will t w).doInterrupt) = true →
      Logs w (will t w).world)
    (hturn : ∀ t w w' res, ((will t w).result.failed || (will t w).doInterrupt) = false →
      Logs (will t w).world w' → Logs w (did t res w').1)
    (hrun : ∀ item w, Logs w (run item w).world) (sz : ℕ) (w : World D)
    (src dst : List (TransactionItem D)) (result : NsResult) :
    Logs w (moveChildren will run did sz w src dst result).world := by
  induction sz generalizing w src dst result with
  | zero => exact .refl w
  | succ sz ih =>
    cases src with
    | nil => exact .refl w
    | cons item src =>
      simp only [moveChildren]
      split_ifs with hf hi hr
      · exact hstop _ _ (by simp [hf])
      · exact hstop _ _ (by simp [hi])
      · exact (hturn _ _ _ _ (by simp_all) (hrun _ _)).trans (ih ..)
      · exact (hturn _ _ _ _ (by simp_all) (hrun _ _)).trans (ih ..)

theorem undoChildren_logs (ls : List Listener) {undo : TransactionItem D → World D → Run D}
    (h : ∀ item w, Logs w (undo item w).world) (us rs : List (TransactionItem D)) (w : World D) :
    Logs w (undoChildren ls undo us rs w).world := by
  refine moveChildren_logs (fun t _ hs => .will_stopped .undoChildren (.undoing t) hs)
    (fun t _ _ res hs hw => ?_) h ..
  exact .will_did hs (fun _ => .answer (by decide) (.undoing t) res) hw

theorem redoChildren_logs (ls : List Listener) {redo : TransactionItem D → World D → Run D}
    (h : ∀ item w, Logs w (redo item w).world) (us rs : List (TransactionItem D)) (w : World D) :
    Logs w (redoChildren ls redo us rs w).world := by
  refine moveChildren_logs (fun t _ hs => .will_stopped .redoChildren (.redoing t) hs)
    (fun t _ _ res hs hw => ?_) h ..
  exact .will_did hs (fun _ => .slip t res) hw

theorem ownUndo_logs (t : Option (Transaction D)) (w : World D) : Logs w (ownUndo t w).1 := by
  cases t <;> exact .of_log_eq rfl

theorem ownRedo_logs (t : Option (Transaction D)) (w : World D) : Logs w (ownRedo t w).1 := by
  cases t <;> exact .of_log_eq rfl

theorem run_logs (ls : List Listener) (n : ℕ) :
    (∀ (item : TransactionItem D) w, Logs w (undoTransaction ls n item w).world) ∧
      ∀ (item : TransactionItem D) w, Logs w (redoTransaction ls n item w).world := by
  induction n with
  | zero => exact ⟨fun _ w => .refl w, fun _ w => .refl w⟩
  | succ n ih =>
    obtain ⟨hu, hr⟩ := ih
    have hus := undoChildren_logs ls hu
    have hrs := redoChildren_logs ls hr
    refine ⟨fun item w => ?_, fun item w => ?_⟩ <;> obtain ⟨t, us, rs⟩ := item
    · simp only [undoTransaction, recoverFromUndoError]
      split_ifs
      · exact (hus ..).trans (hrs ..)
      · exact (hus ..).trans ((ownUndo_logs ..).trans (hrs ..))
      · exact (hus ..).trans (ownUndo_logs ..)
    · simp only [redoTransaction, recoverFromRedoError]
      split_ifs
      · exact ownRedo_logs ..
      · exact (ownRedo_logs ..).trans ((hrs ..).trans (hus ..))
      · exact (ownRedo_logs ..).trans ((hrs ..).trans ((hus ..).trans (ownUndo_logs ..)))
      · exact (ownRedo_logs ..).trans (hrs ..)

end TransactionItem

namespace State

theorem finishTopLevel_logs (env : Env D) (tx : TransactionItem D) (s : State D) :
    Logs s.world (s.finishTopLevel env tx).1.world := by
  unfold finishTopLevel
  dsimp only
  split
  next tint top us _ _ =>
    split
    · exact .refl _
    · split_ifs with hf hi
      · exact .will_stopped _ _ (by simpa [willMergeNotify] using Or.inl hf)
      · exact .will_stopped _ _ (by simpa [willMergeNotify] using Or.inr hi)
      · exact .will_did (by simp_all [willMergeNotify]) (fun _ => .answer (by simp) _ _) (.refl _)
      · exact .will_did (by simp_all [willMergeNotify]) (fun _ => .answer (by simp) _ _) (.refl _)
  · exact .refl _

theorem endTransaction_logs (env : Env D) (s : State D) :
    Logs s.world (s.endTransaction env).1.world := by
  unfold endTransaction
  split
  · exact .refl _
  · dsimp only
    split_ifs
    · exact .refl _
    · exact .refl _
    · split
      · exact .refl _
      · exact finishTopLevel_logs env _ _

theorem beginTransaction_logs (t : Option (Transaction D)) {body : State D → State D}
    (hbody : ∀ s, Logs s.world (body s).world) (result : NsResult) (s : State D) :
    Logs s.world (s.beginTransaction t body result).1.world := by
  simp only [beginTransaction]
  split_ifs
  · exact hbody _
  · exact hbody _

theorem doTransaction_logs (env : Env D) (t : Transaction D) {body : State D → State D}
    (hbody : ∀ s, Logs s.world (body s).world) (result : NsResult) (s : State D) :
    Logs s.world (s.doTransaction env t body result).1.world := by
  unfold doTransaction
  dsimp only
  have hb := beginTransaction_logs (some t) hbody result
    { s with world := (willDoNotify env.listeners t.id s.world).world }
  split_ifs with hf hi
  · exact .will_stopped _ _ (by simpa [willDoNotify] using Or.inl hf)
  · exact .will_stopped _ _ (by simpa [willDoNotify] using Or.inr hi)
  · exact .will_did (by simp_all [willDoNotify]) (fun _ => .answer (by simp) _ _) hb
  · exact .will_did (by simp_all [willDoNotify]) (fun _ => .answer (by simp) _ _)
      (hb.trans (endTransaction_logs env _))

theorem undoTransaction_logs (env : Env D) (s : State D) :
    Logs s.world (s.undoTransaction env).1.world := by
  unfold undoTransaction
  split
  · exact .refl _
  · exact .refl _
  · dsimp only
    have hr := fun item w => (TransactionItem.run_logs (D := D) env.listeners
      (TransactionItem.height item)).1 item w
    split_ifs with hf hi
    · exact .will_stopped _ _ (by simpa [willUndoNotify] using Or.inl hf)
    · exact .will_stopped _ _ (by simpa [willUndoNotify] using Or.inr hi)
    · exact .will_did (by simp_all [willUndoNotify]) (fun _ => .answer (by simp) _ _) (hr ..)
    · exact .will_did (by simp_all [willUndoNotify]) (fun _ => .answer (by simp) _ _) (hr ..)

theorem redoTransaction_logs (env : Env D) (s : State D) :
    Logs s.world (s.redoTransaction env).1.world := by
  unfold redoTransaction
  split
  · exact .refl _
  · exact .refl _
  · dsimp only
    have hr := fun item w => (TransactionItem.run_logs (D := D) env.listeners
      (TransactionItem.height item)).2 item w
    split_ifs with hf hi
    · exact .will_stopped _ _ (by simpa [willRedoNotify] using Or.inl hf)
    · exact .will_stopped _ _ (by simpa [willRedoNotify] using Or.inr hi)
    · exact .will_did (by simp_all [willRedoNotify]) (fun _ => .answer (by simp) _ _) (hr ..)
    · exact .will_did (by simp_all [willRedoNotify]) (fun _ => .answer (by simp) _ _) (hr ..)

theorem beginBatch_logs (env : Env D) (s : State D) :
    Logs s.world (s.beginBatch env).1.world := by
  unfold beginBatch
  dsimp only
  split_ifs with hf hi
  · exact .will_stopped _ _ (by simpa [willBeginBatchNotify] using Or.inl hf)
  · exact .will_stopped _ _ (by simpa [willBeginBatchNotify] using Or.inr hi)
  · exact .will_did (by simp_all [willBeginBatchNotify]) (fun _ => .answer (by simp) _ _)
      (beginTransaction_logs none (fun _ => .refl _) .ok
        { s with world := (willBeginBatchNotify env.listeners s.world).world })

theorem endBatch_logs (env : Env D) (s : State D) :
    Logs s.world (s.endBatch env).1.world := by
  unfold endBatch
  split
  · dsimp only
    split_ifs with hf hi
    · exact .will_stopped _ _ (by simpa [willEndBatchNotify] using Or.inl hf)
    · exact .will_stopped _ _ (by simpa [willEndBatchNotify] using Or.inr hi)
    · exact .will_did (by simp_all [willEndBatchNotify]) (fun _ => .answer (by simp) _ _)
        (endTransaction_logs env { s with world := (willEndBatchNotify env.listeners s.world).world })
  · exact .refl _

theorem logs_steps (env : Env D) :
    Steps env (fun _ => True) (fun s s' : State D => Logs s.world s'.world) where
  refl s := .refl s.world
  trans h h' := h.trans h'
  change _ _ := .of_log_eq rfl
  doTransaction t _ result _ hbody s := doTransaction_logs env t hbody result s
  undoTransaction s := undoTransaction_logs env s
  redoTransaction s := redoTransaction_logs env s
  beginBatch s := beginBatch_logs env s
  endBatch s := endBatch_logs env s
  clear _ := .refl _
  setMaxTransactionCount n s := by
    unfold setMaxTransactionCount
    split
    · exact .refl _
    · split_ifs <;> exact .refl _

end State

/-- A transaction that leaves the document alone. -/
private def still (id : ℕ) : Transaction Unit := ⟨id, fun d => (d, .ok), fun d => (d, .ok), (false, .ok)⟩

/-- One listener that never stops anything, and no merging. -/
private def onlooker : Env Unit :=
  ⟨[⟨fun _ _ => (.ok, false), fun _ _ _ => .ok⟩], fun top _ => ⟨top, false, .ok⟩⟩

end Kompozer.TxMgr

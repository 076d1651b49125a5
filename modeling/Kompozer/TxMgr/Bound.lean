import Kompozer.TxMgr.Manager
import Mathlib.Tactic.Linarith

/-! The undo history is bounded. `EndTransaction` drops one item from the bottom,
`SetMaxTransactionCount` prunes both stacks, and undo and redo move one item
across; each keeps the two stacks together within a maximum that is not
negative. -/

namespace Kompozer.TxMgr

universe u
variable {D : Type u}

namespace State

/-- The undo and redo stacks together stay within the maximum, when there is one. -/
def Bounded (s : State D) : Prop :=
  0 ≤ s.maxTransactionCount →
    (s.undoStack.length + s.redoStack.length : ℤ) ≤ s.maxTransactionCount

/-- Only the sizes of the two stacks matter. -/
theorem Bounded.of_le {s s' : State D} (h : s.Bounded)
    (hm : s'.maxTransactionCount = s.maxTransactionCount)
    (hl : s'.undoStack.length + s'.redoStack.length ≤ s.undoStack.length + s.redoStack.length) :
    s'.Bounded := by
  intro h0
  rw [hm] at h0 ⊢
  have := h h0
  omega

theorem bounded_init (d : D) (n : ℤ) : (init d n).Bounded := by
  intro h
  simpa [init] using h

theorem beginTransaction_bounded (t : Option (Transaction D)) {body : State D → State D}
    (hbody : ∀ s, s.Bounded → (body s).Bounded) (result : NsResult) {s : State D}
    (h : s.Bounded) : (s.beginTransaction t body result).1.Bounded := by
  have h1 := hbody { s with doStack := ⟨t, [], []⟩ :: s.doStack } h
  simp only [beginTransaction]
  split_ifs
  · exact h1
  · exact h1

/-- A push onto the undo stack of a manager that has no redo items. -/
theorem pushUndo_bounded (tx : TransactionItem D) {s : State D} (h : s.Bounded)
    (hr : s.redoStack = []) (hm : s.maxTransactionCount ≠ 0) : (s.pushUndo tx).Bounded := by
  intro h0
  simp only [pushUndo] at h0 ⊢
  have hb := h h0
  simp only [hr, List.length_nil] at hb ⊢
  split_ifs with hfull
  · simp only [List.length_cons, List.length_dropLast]
    omega
  · simp only [List.length_cons]
    omega

theorem finishTopLevel_bounded (env : Env D) (tx : TransactionItem D) {s : State D}
    (h : s.Bounded) (hm : s.maxTransactionCount ≠ 0) : (s.finishTopLevel env tx).1.Bounded := by
  have hclear : ({ s with redoStack := [] } : State D).Bounded :=
    h.of_le rfl (by simp)
  unfold finishTopLevel
  dsimp only
  split
  next tint top us _ hus =>
    split
    · exact pushUndo_bounded tx hclear rfl hm
    · split_ifs
      · exact hclear.of_le rfl le_rfl
      · exact pushUndo_bounded tx (hclear.of_le rfl le_rfl) rfl hm
      -- merging replaces the top item, so the sizes are those before
      · exact hclear.of_le rfl (by simp [hus])
      · exact pushUndo_bounded tx (hclear.of_le rfl (by simp [hus])) rfl hm
  · exact pushUndo_bounded tx hclear rfl hm

theorem endTransaction_bounded (env : Env D) {s : State D} (h : s.Bounded) :
    (s.endTransaction env).1.Bounded := by
  unfold endTransaction
  split
  · exact h
  · dsimp only
    split_ifs with _ hstop
    · exact h
    · exact h
    · push Not at hstop
      split
      · exact h
      · exact finishTopLevel_bounded env _ h hstop.2.2

theorem doTransaction_bounded (env : Env D) (t : Transaction D) {body : State D → State D}
    (hbody : ∀ s, s.Bounded → (body s).Bounded) (result : NsResult) {s : State D}
    (h : s.Bounded) : (s.doTransaction env t body result).1.Bounded := by
  unfold doTransaction
  dsimp only
  have hb := beginTransaction_bounded (some t) hbody result
    (s := { s with world := (willDoNotify env.listeners t.id s.world).world }) h
  split_ifs
  · exact h
  · exact h
  · exact hb
  · exact endTransaction_bounded env hb

theorem undoTransaction_bounded (env : Env D) {s : State D} (h : s.Bounded) :
    (s.undoTransaction env).1.Bounded := by
  unfold undoTransaction
  split
  · exact h
  · exact h
  next tx us _ hus =>
    dsimp only
    split_ifs
    · exact h
    · exact h
    · exact h.of_le rfl (by simp [hus])
    · exact h.of_le rfl (by simp [hus]; omega)

theorem redoTransaction_bounded (env : Env D) {s : State D} (h : s.Bounded) :
    (s.redoTransaction env).1.Bounded := by
  unfold redoTransaction
  split
  · exact h
  · exact h
  next tx rs _ hrs =>
    dsimp only
    split_ifs
    · exact h
    · exact h
    · exact h.of_le rfl (by simp [hrs])
    · exact h.of_le rfl (by simp [hrs]; omega)

theorem beginBatch_bounded (env : Env D) {s : State D} (h : s.Bounded) :
    (s.beginBatch env).1.Bounded := by
  unfold beginBatch
  dsimp only
  split_ifs
  · exact h
  · exact h
  · exact h

theorem endBatch_bounded (env : Env D) {s : State D} (h : s.Bounded) :
    (s.endBatch env).1.Bounded := by
  unfold endBatch
  split
  · dsimp only
    split_ifs
    · exact h
    · exact h
    · exact endTransaction_bounded env h
  · exact h

/-- Pruning stops once the two stacks fit, or the stack is empty. -/
theorem length_prune (m : ℤ) (other : ℕ) (n : ℕ) (stack : List (TransactionItem D))
    (hn : stack.length = n) :
    ((prune m other n stack).length : ℤ) = min (n : ℤ) (max (m - other) 0) := by
  induction n generalizing stack with
  | zero => simp [prune, hn]
  | succ n ih =>
    rw [prune]
    split_ifs with h
    · rw [ih _ (by simp [hn])]
      omega
    · rw [hn]
      omega

theorem setMaxTransactionCount_bounded (n : ℤ) {s : State D} (h : s.Bounded) :
    (s.setMaxTransactionCount n).1.Bounded := by
  unfold setMaxTransactionCount
  split
  · exact h
  · split_ifs with hneg hbig
    · intro h0
      simp at h0
    · intro _
      simp only
      omega
    · intro _
      simp only
      rw [length_prune n _ _ s.redoStack rfl, length_prune n _ _ s.undoStack rfl]
      omega

theorem bounded_steps (env : Env D) :
    Steps env (fun _ => True) (fun s s' : State D => s.Bounded → s'.Bounded) where
  refl _ h := h
  trans h h' := h' ∘ h
  change _ _ h := h
  doTransaction t _ result _ hbody _ h := doTransaction_bounded env t hbody result h
  undoTransaction _ h := undoTransaction_bounded env h
  redoTransaction _ h := redoTransaction_bounded env h
  beginBatch _ h := beginBatch_bounded env h
  endBatch _ h := endBatch_bounded env h
  clear _ h := h.of_le rfl (by simp [clear])
  setMaxTransactionCount n _ h := setMaxTransactionCount_bounded n h

end State

/-- After any sequence of calls on a new manager, whatever the transactions, the
listeners and the merges do, the two stacks hold at most the maximum count of
items when that is not negative, and none when it is zero. -/
theorem undo_history_bounded (env : Env D) (d : D) (aMaxTransactionCount : ℤ)
    (as : List (Act D)) (m : ℕ)
    (hm : (Act.runAll env as (.init d aMaxTransactionCount)).maxTransactionCount = m) :
    let s := Act.runAll env as (.init d aMaxTransactionCount)
    s.undoStack.length + s.redoStack.length ≤ m ∧
      (m = 0 → s.undoStack = [] ∧ s.redoStack = []) := by
  intro s
  have hb : s.Bounded :=
    (State.bounded_steps env).runAll as (Act.allIn_true as) _ (State.bounded_init d _)
  have hle : s.undoStack.length + s.redoStack.length ≤ m := by
    have := hb (by rw [hm]; omega)
    rw [hm] at this
    exact_mod_cast this
  refine ⟨hle, fun h0 => ?_⟩
  rw [← List.length_eq_zero_iff, ← List.length_eq_zero_iff]
  omega

/-- Two transactions and an undo under a maximum of one. -/
theorem undo_history_bounded_one :
    let t : Transaction ℤ := ⟨0, fun d => (d - 1, .ok), fun d => (d + 1, .ok), (false, .ok)⟩
    let act : Act ℤ := .doTransaction t [.change (· + 1)] .ok
    let s := Act.runAll ⟨[], fun top _ => ⟨top, false, .ok⟩⟩ [act, act, .undoTransaction]
      (.init 0 1)
    s.undoStack.length + s.redoStack.length ≤ 1 ∧
      (1 = 0 → s.undoStack = [] ∧ s.redoStack = []) :=
  undo_history_bounded _ 0 1 _ 1 rfl

end Kompozer.TxMgr

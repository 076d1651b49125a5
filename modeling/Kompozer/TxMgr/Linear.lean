import Kompozer.TxMgr.History

/-! What the history gives: a failed undo or redo leaves everything in place, an undo
goes back to the document before the item, what was undone can be redone, and a new
item at top level empties the redo stack. -/

namespace Kompozer.TxMgr

universe u
variable {D : Type u}

/-! ### Failed calls -/

theorem State.Ready.failed_calls {env : Env D} (hq : Quiet env.listeners) {ρ : Refusal D}
    {s : State D} (hs : s.doStack = [] → s.Ready ρ) :
    ((s.undoTransaction env).2.failed = true →
      ∃ log, (s.undoTransaction env).1 = { s with world := ⟨s.doc, log⟩ }) ∧
    ((s.redoTransaction env).2.failed = true →
      ∃ log, (s.redoTransaction env).1 = { s with world := ⟨s.doc, log⟩ }) := by
  cases hdo : s.doStack with
  | cons tx rest =>
    have hundo : s.undoTransaction env = (s, .NS_ERROR_FAILURE) := by
      simp [State.undoTransaction, hdo]
    have hredo : s.redoTransaction env = (s, .NS_ERROR_FAILURE) := by
      simp [State.redoTransaction, hdo]
    rw [← hdo, hundo, hredo]
    exact ⟨fun _ => ⟨s.world.log, rfl⟩, fun _ => ⟨s.world.log, rfl⟩⟩
  | nil =>
    refine ⟨fun hf => ?_, fun hf => ?_⟩
    · cases hus : s.undoStack with
      | nil => simp [State.undoTransaction, hdo, hus] at hf
      | cons tx us =>
        obtain ⟨x, d, rfl, hx⟩ := (hs hdo).undo tx us hus
        obtain ⟨hstay, hgo⟩ := State.undoTransaction_deed hq hdo hus hx
        cases hb : x.blocks ρ .undo with
        | true =>
          rw [← hdo, ← hus]
          exact (hstay hb).2
        | false =>
          rw [(hgo hb).1] at hf
          exact absurd hf (by simp)
    · cases hrs : s.redoStack with
      | nil => simp [State.redoTransaction, hdo, hrs] at hf
      | cons tx rs =>
        obtain ⟨x, d, rfl, hx⟩ := (hs hdo).redo tx rs hrs
        obtain ⟨hstay, hgo⟩ := State.redoTransaction_deed hq hdo hrs hx
        cases hb : x.blocks ρ .redo with
        | true =>
          rw [← hdo, ← hrs]
          exact (hstay hb).2
        | false =>
          rw [(hgo hb).1] at hf
          exact absurd hf (by simp)

/-- The states reached by calls whose transactions keep what they take. -/
theorem Act.runAll_ready {env : Env D} (he : env.Undisturbed) {ρ : Refusal D} (d : D) {n : ℤ}
    (hn : n < 0) {as : List (Act D)} (hk : Act.AllKeep ρ as (.init d))
    (hdo : (Act.runAll env as (.init d n)).doStack = []) :
    (Act.runAll env as (.init d n)).Ready ρ := by
  have ht := Act.runAll_tracks he as hk (.init d) (.init d hn)
  refine ht.ready (Act.playAll_sound as hk (.init d)) ?_
  simpa [hdo] using ht.doStack

/-- An addition, which the transaction may refuse to undo. -/
private def add (id : ℕ) (k : ℤ) (refuses : Bool) : Transaction ℤ :=
  ⟨id, fun d => if refuses then (d, .NS_ERROR_FAILURE) else (d - k, .ok), fun d => (d + k, .ok),
    (false, .ok)⟩

private theorem add_keeps (id : ℕ) (k d d' : ℤ) (h : d' = d + k) (refuses : Bool)
    (hr : (id == 2) = refuses) :
    (add id k refuses).Keeps ⟨.undo, fun t => t.id == 2⟩ d d' where
  notTransient := rfl
  undo hb := by
    have : refuses = false := by simpa [Refusal.blocks, add, hr] using hb
    simp [add, this, h]
  undoBlocked hb x := by
    have : refuses = true := by simpa [Refusal.blocks, add, hr] using hb
    simp [add, this, NsResult.NS_ERROR_FAILURE]
  redo _ := by simp [add, h]
  redoBlocked hb := by simp [Refusal.blocks] at hb

section Protected
variable {ρ : Refusal D}

namespace History

theorem finish_inner {h : History D} {l rest : List (Deed D)} {y : Deed D} (hl : l ≠ [])
    (ho : h.opened = l ++ y :: rest) :
    ∃ l' y', h.finish.opened = l' ++ y' :: rest ∧ y'.transaction = y.transaction ∧
      h.finish.timeline = h.timeline := by
  cases l with
  | nil => exact absurd rfl hl
  | cons m l =>
    rw [List.cons_append] at ho
    simp only [finish, ho]
    split_ifs
    · exact ⟨l, y, rfl, rfl, rfl⟩
    · cases l with
      | nil => exact ⟨[], y.addChild m, rfl, rfl, rfl⟩
      | cons m' l => exact ⟨m'.addChild m :: l, y, rfl, rfl, rfl⟩

end History

mutual
/-- While a transaction is executed nothing finishes at top level. -/
theorem Act.play_inner : ∀ (a : Act D) {h : History D} {l rest : List (Deed D)} {y : Deed D},
    a.Keeps ρ h → h.opened = l ++ y :: rest → y.transaction ≠ none →
    ∃ l' y', (a.play ρ h).opened = l' ++ y' :: rest ∧ y'.transaction = y.transaction ∧
      (a.play ρ h).timeline = h.timeline
  | .doTransaction t body result, h, l, rest, y, hk, ho, hy => by
    rw [Act.Keeps] at hk
    obtain ⟨l', y', ho', -, htl⟩ := Act.playBody_inner body (h := h.start (some t)) (l := [])
      (y := ⟨some t, []⟩) hk.2 rfl (by simp)
    have ho'' : (Act.playAll ρ body (h.start (some t))).opened = (l' ++ y' :: l) ++ y :: rest := by
      rw [ho', ho]
      simp
    rw [Act.play]
    obtain ⟨l₂, y₂, h₁, h₂, h₃⟩ := History.finish_inner (by simp) ho''
    exact ⟨l₂, y₂, h₁, h₂, h₃.trans htl⟩
  | .undoTransaction, h, l, rest, y, _, ho, _ => by
    refine ⟨l, y, ?_, rfl, ?_⟩ <;> cases l <;> simp_all [Act.play, History.undo]
  | .redoTransaction, h, l, rest, y, _, ho, _ => by
    refine ⟨l, y, ?_, rfl, ?_⟩ <;> cases l <;> simp_all [Act.play, History.redo]
  | .beginBatch, h, l, rest, y, _, ho, _ => ⟨⟨none, []⟩ :: l, y, by simp [Act.play, History.start, ho],
      rfl, rfl⟩
  | .endBatch, h, l, rest, y, _, ho, hy => by
    rw [Act.play, History.endBatch]
    split
    next cs rest' ho' =>
      refine History.finish_inner ?_ ho
      rintro rfl
      simp only [ho, List.nil_append, List.cons.injEq] at ho'
      exact hy (by rw [ho'.1])
    · exact ⟨l, y, ho, rfl, rfl⟩
theorem Act.playAll_inner : ∀ (as : List (Act D)) {h : History D} {l rest : List (Deed D)}
    {y : Deed D}, Act.AllKeep ρ as h → h.opened = l ++ y :: rest → y.transaction ≠ none →
    ∃ l' y', (Act.playAll ρ as h).opened = l' ++ y' :: rest ∧ y'.transaction = y.transaction ∧
      (Act.playAll ρ as h).timeline = h.timeline
  | [], h, l, rest, y, _, ho, _ => ⟨l, y, ho, rfl, rfl⟩
  | a :: as, h, l, rest, y, hk, ho, hy => by
    rw [Act.AllKeep] at hk
    rw [Act.playAll]
    obtain ⟨l₁, y₁, ho₁, hy₁, ht₁⟩ := Act.play_inner a hk.1 ho hy
    obtain ⟨l₂, y₂, ho₂, hy₂, ht₂⟩ := Act.playAll_inner as hk.2 ho₁ (by rw [hy₁]; exact hy)
    exact ⟨l₂, y₂, ho₂, hy₂.trans hy₁, ht₂.trans ht₁⟩
theorem Act.playBody_inner : ∀ (body : List (Act D)) {h : History D} {l rest : List (Deed D)}
    {y : Deed D} {t : Transaction D} {d : D}, Act.BodyKeeps ρ t d body h →
    h.opened = l ++ y :: rest → y.transaction ≠ none →
    ∃ l' y', (Act.playAll ρ body h).opened = l' ++ y' :: rest ∧ y'.transaction = y.transaction ∧
      (Act.playAll ρ body h).timeline = h.timeline
  | [], h, l, rest, y, t, d, _, ho, _ => ⟨l, y, ho, rfl, rfl⟩
  | .change f :: as, h, l, rest, y, t, d, hk, ho, hy => by
    rw [Act.playAll, Act.play]
    exact Act.playBody_inner as (h := h.change f) hk ho hy
  | .doTransaction t' body result :: as, h, l, rest, y, t, d, hk, ho, hy
  | .undoTransaction :: as, h, l, rest, y, t, d, hk, ho, hy
  | .redoTransaction :: as, h, l, rest, y, t, d, hk, ho, hy
  | .beginBatch :: as, h, l, rest, y, t, d, hk, ho, hy
  | .endBatch :: as, h, l, rest, y, t, d, hk, ho, hy => by
    rw [Act.playAll]
    obtain ⟨l₁, y₁, ho₁, hy₁, ht₁⟩ := Act.play_inner _ hk.2.1 ho hy
    obtain ⟨l₂, y₂, ho₂, hy₂, ht₂⟩ := Act.playAll_inner as hk.2.2 ho₁ (by rw [hy₁]; exact hy)
    exact ⟨l₂, y₂, ho₂, hy₂.trans hy₁, ht₂.trans ht₁⟩
end

end Protected

namespace History

/-- Nothing is being executed. -/
def rest (t : Timeline (Deed D) D) : History D := ⟨t, [], t.now⟩

theorem blocks_nobody (dir : Direction) (x : Deed D) : x.blocks .nobody dir = false :=
  Deed.blocks_eq_false (fun _ => by simp [Refusal.blocks, Refusal.nobody]) x

theorem undo_rest (t : Timeline (Deed D) D) : (rest t).undo .nobody = rest t.undo := by
  obtain ⟨_ | ⟨⟨x, before⟩, past⟩, now, future⟩ := t
  · rfl
  · simp [rest, undo, blocks_nobody, moveTo]

theorem redo_rest (t : Timeline (Deed D) D) : (rest t).redo .nobody = rest t.redo := by
  obtain ⟨past, now, _ | ⟨⟨x, after⟩, future⟩⟩ := t
  · rfl
  · simp [rest, redo, blocks_nobody, moveTo]

theorem eq_rest {ρ : Refusal D} {d : D} {h : History D} (hs : h.Sound ρ d) (ho : h.opened = []) :
    h = rest h.timeline := by
  have hnow : h.timeline.now = h.doc := by simpa [ho] using hs.opened
  obtain ⟨t, opened, doc⟩ := h
  subst ho
  dsimp only at hnow
  subst hnow
  rfl

/-- A batch that finishes at top level is a new step, unless it is empty. -/
theorem endBatch_last {h : History D} (ho : h.opened ≠ []) (ho' : h.endBatch.opened = []) :
    h.endBatch.timeline = h.timeline ∨
      ∃ x, h.endBatch.timeline = h.timeline.record x h.endBatch.doc := by
  unfold endBatch at ho' ⊢
  split at ho'
  next cs rest hopened =>
    simp only [finish, hopened] at ho' ⊢
    split_ifs at ho' ⊢
    · exact .inl rfl
    · cases rest with
      | nil => exact .inr ⟨_, rfl⟩
      | cons y rest => simp at ho'
  · exact absurd ho' ho

end History

namespace State.Tracks
variable {env : Env D} {d : D} {s : State D}

theorem iterate_undo (he : env.Undisturbed) (k : ℕ) {t : Timeline (Deed D) D}
    (hs : (History.rest t).Sound .nobody d) (ht : s.Tracks (.rest t)) :
    ((fun s => (s.undoTransaction env).1)^[k] s).Tracks (.rest (Timeline.undo^[k] t)) ∧
      (History.rest (Timeline.undo^[k] t)).Sound .nobody d := by
  induction k generalizing s t with
  | zero => exact ⟨ht, hs⟩
  | succ k ih =>
    rw [Function.iterate_succ_apply, Function.iterate_succ_apply]
    refine ih ?_ ?_
    · rw [← History.undo_rest]
      exact hs.undo
    · rw [← History.undo_rest]
      exact ht.undoTransaction he hs

theorem iterate_redo (he : env.Undisturbed) (k : ℕ) {t : Timeline (Deed D) D}
    (hs : (History.rest t).Sound .nobody d) (ht : s.Tracks (.rest t)) :
    ((fun s => (s.redoTransaction env).1)^[k] s).Tracks (.rest (Timeline.redo^[k] t)) := by
  induction k generalizing s t with
  | zero => exact ht
  | succ k ih =>
    rw [Function.iterate_succ_apply, Function.iterate_succ_apply]
    refine ih ?_ ?_
    · rw [← History.redo_rest]
      exact hs.redo
    · rw [← History.redo_rest]
      exact ht.redoTransaction he hs

end State.Tracks

/-- An item is undone in reverse order of execution. -/
theorem State.undoTransaction_order {env : Env D} (hq : Quiet env.listeners) {s : State D}
    (hdo : s.doStack = []) {x : Deed D} {us : List (TransactionItem D)}
    (hus : s.undoStack = x.done :: us) {d : D} (hx : x.Takes .nobody d s.doc) :
    TransactionItem.undoneIds (s.undoTransaction env).1.world.log =
      TransactionItem.undoneIds s.world.log ++ x.ids.reverse := by
  have hids := TransactionItem.undoTransaction_order hq
    (fun _ => by simp [Refusal.blocks, Refusal.nobody]) _ x (Nat.le_refl _) hx
    (w := { s.world with log := s.world.log ++ [.will .manager (.undoing x.done.txId) false] }) rfl
  have hlog : TransactionItem.undoneIds (s.undoTransaction env).1.world.log =
      TransactionItem.undoneIds ((TransactionItem.undoTransaction env.listeners x.done.height x.done
        ⟨s.doc, s.world.log ++ [.will .manager (.undoing x.done.txId) false]⟩).world.log ++
          [.did .manager (.undoing x.done.txId) .ok]) := by
    simp only [undoTransaction, hdo, hus, willUndoNotify, hq.willNotify, didUndoNotify,
      hq.didNotify, NsResult.failed_ok, Bool.false_eq_true, if_false]
    split_ifs <;> simp only [TransactionItem.undoneIds, List.filterMap_append] <;> rfl
  rw [hlog, TransactionItem.undoneIds, List.filterMap_append, ← TransactionItem.undoneIds, hids]
  obtain ⟨_ | t, cs⟩ := x
  · simp [TransactionItem.undoneIds, Deed.ids]
  · simp [TransactionItem.undoneIds, Deed.ids]

/-- A transaction that finishes at top level is a new step of the timeline. -/
theorem History.play_doTransaction {ρ : Refusal D} {h : History D}
    {t : Transaction D} {body : List (Act D)} (hk : (Act.doTransaction t body .ok).Keeps ρ h)
    (ho : ((Act.doTransaction t body .ok).play ρ h).opened = []) :
    h.opened = [] ∧ ∃ x : Deed D, x.transaction = some t ∧
      ((Act.doTransaction t body .ok).play ρ h).timeline =
        h.timeline.record x ((Act.doTransaction t body .ok).play ρ h).doc := by
  rw [Act.Keeps] at hk
  obtain ⟨l, x, ho', hx, htl⟩ := Act.playBody_inner body (h := h.start (some t)) (l := [])
    (y := ⟨some t, []⟩) hk.2 rfl (by simp)
  rw [Act.play] at ho ⊢
  generalize Act.playAll ρ body (h.start (some t)) = h' at ho ho' htl ⊢
  have hempty : x.isEmptyBatch = false := by simp [Deed.isEmptyBatch, hx]
  cases l with
  | cons m l =>
    obtain ⟨l₂, y₂, h₂, -⟩ := finish_inner (by simp) ho'
    simp [h₂] at ho
  | nil =>
    rw [List.nil_append] at ho'
    cases hrest : h.opened with
    | cons y rest => simp [finish, ho', hrest, hempty] at ho
    | nil =>
      refine ⟨rfl, x, hx, ?_⟩
      simp only [finish, ho', hrest, hempty, Bool.false_eq_true, if_false]
      rw [htl]
      rfl

end Kompozer.TxMgr

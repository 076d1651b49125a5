import Kompozer.TxMgr.Deed
import Kompozer.TxMgr.Manager

/-! The undo history. What the manager is for is a timeline of executed items with
the document before each: undo goes back on it, redo forward, an item that finishes
at top level is a new step, and the items being executed stand between the present
of the timeline and the document. The manager's stacks are this history when no
listener interferes, no transaction merges or is transient, the maximum count is
unlimited, and each transaction changes the document itself before it executes
others and keeps what it took. -/

namespace Kompozer.TxMgr

universe u
variable {D : Type u}

/-- The items finished at top level, with the document each started from, the items
being executed, the innermost first, and the document. -/
structure History (D : Type u) where
  timeline : Timeline (Deed D) D
  opened : List (Deed D)
  doc : D

namespace History

def init (d : D) : History D := ⟨⟨[], d, []⟩, [], d⟩

def change (f : D → D) (h : History D) : History D := { h with doc := f h.doc }

/-- Start a transaction or a batch. -/
def start (t : Option (Transaction D)) (h : History D) : History D :=
  { h with opened := ⟨t, []⟩ :: h.opened }

/-- Finish the innermost item: it is a child of the next one, or a new step. -/
def finish (h : History D) : History D :=
  match h.opened with
  | [] => h
  | x :: rest =>
    if x.isEmptyBatch then { h with opened := rest }
    else match rest with
      | y :: rest' => { h with opened := y.addChild x :: rest' }
      | [] => { h with opened := [], timeline := h.timeline.record x h.doc }

/-- Finish the innermost item when it is a batch. -/
def endBatch (h : History D) : History D :=
  match h.opened with
  | ⟨none, _⟩ :: _ => h.finish
  | _ => h

/-- Go to another point of the timeline. -/
def moveTo (t : Timeline (Deed D) D) (h : History D) : History D :=
  { h with timeline := t, doc := t.now }

/-- Go back, unless an item is being executed or the one to be undone refuses. -/
def undo (ρ : Refusal D) (h : History D) : History D :=
  match h.opened, h.timeline.past with
  | [], (x, _) :: _ => if x.blocks ρ .undo then h else h.moveTo h.timeline.undo
  | _, _ => h

/-- Go forward, unless an item is being executed or the one to be redone refuses. -/
def redo (ρ : Refusal D) (h : History D) : History D :=
  match h.opened, h.timeline.future with
  | [], (x, _) :: _ => if x.blocks ρ .redo then h else h.moveTo h.timeline.redo
  | _, _ => h

/-- The timeline is sound and the items being executed lead from its present to the
document. -/
structure Sound (ρ : Refusal D) (d : D) (h : History D) : Prop where
  timeline : h.timeline.Sound (Deed.Takes ρ) d
  opened : Walk (Deed.Takes ρ) h.opened.reverse h.timeline.now h.doc

end History

/-! ### What is done to a history -/

mutual
/-- What an act does to the history. -/
def Act.play (ρ : Refusal D) : Act D → History D → History D
  | .change f, h => h.change f
  | .doTransaction t body _, h => (Act.playAll ρ body (h.start (some t))).finish
  | .undoTransaction, h => h.undo ρ
  | .redoTransaction, h => h.redo ρ
  | .beginBatch, h => h.start none
  | .endBatch, h => h.endBatch
  | .clear, h => { h with timeline := ⟨[], h.timeline.now, []⟩ }
  | .setMaxTransactionCount _, h => h
def Act.playAll (ρ : Refusal D) : List (Act D) → History D → History D
  | [], h => h
  | a :: as, h => Act.playAll ρ as (a.play ρ h)
end

mutual
/-- The act is a call of the manager other than `Clear` and `SetMaxTransactionCount`,
and each transaction it executes succeeds and keeps what it takes. -/
def Act.Keeps (ρ : Refusal D) : Act D → History D → Prop
  | .doTransaction t body result, h =>
    result = .ok ∧ Act.BodyKeeps ρ t h.doc body (h.start (some t))
  | .change _, _ | .clear, _ | .setMaxTransactionCount _, _ => False
  | .undoTransaction, _ | .redoTransaction, _ | .beginBatch, _ | .endBatch, _ => True
def Act.AllKeep (ρ : Refusal D) : List (Act D) → History D → Prop
  | [], _ => True
  | a :: as, h => a.Keeps ρ h ∧ Act.AllKeep ρ as (a.play ρ h)
/-- The body of a `DoTransaction` changes the document itself and then calls the
manager; the changes are what the transaction takes from the given document. -/
def Act.BodyKeeps (ρ : Refusal D) (t : Transaction D) (d : D) : List (Act D) → History D → Prop
  | [], h => t.Keeps ρ d h.doc
  | .change f :: as, h => Act.BodyKeeps ρ t d as (h.change f)
  | a :: as, h => t.Keeps ρ d h.doc ∧ a.Keeps ρ h ∧ Act.AllKeep ρ as (a.play ρ h)
end

/-! ### Histories stay sound -/

namespace History.Sound
variable {ρ : Refusal D} {d : D} {h : History D}

theorem init (d : D) : (History.init d).Sound ρ d := ⟨.init d, rfl⟩

/-- An item whose transaction has just taken a document to the present one. -/
theorem started {t : Option (Transaction D)} {rest : List (Deed D)} {d₀ : D}
    (ht : h.timeline.Sound (Deed.Takes ρ) d) (ho : h.opened = ⟨t, []⟩ :: rest)
    (hrest : Walk (Deed.Takes ρ) rest.reverse h.timeline.now d₀) (hk : Kept ρ t d₀ h.doc) :
    h.Sound ρ d := by
  refine ⟨ht, ?_⟩
  rw [ho, List.reverse_cons, Walk.append_iff]
  exact ⟨d₀, hrest, h.doc, ⟨h.doc, hk, rfl⟩, rfl⟩

theorem beginBatch (hs : h.Sound ρ d) : (h.start none).Sound ρ d :=
  started (t := none) hs.timeline rfl hs.opened rfl

/-- What the innermost item took, and what those around it did before. -/
theorem innermost (hs : h.Sound ρ d) {x : Deed D} {rest : List (Deed D)}
    (ho : h.opened = x :: rest) :
    ∃ b, Walk (Deed.Takes ρ) rest.reverse h.timeline.now b ∧ x.Takes ρ b h.doc := by
  have := hs.opened
  rw [ho, List.reverse_cons, Walk.append_iff] at this
  obtain ⟨b, hrest, c, hx, rfl⟩ := this
  exact ⟨b, hrest, hx⟩

theorem finish (hs : h.Sound ρ d) : h.finish.Sound ρ d := by
  unfold History.finish
  split
  · exact hs
  next x rest ho =>
    obtain ⟨b, hrest, hx⟩ := hs.innermost ho
    split_ifs with he
    · exact ⟨hs.timeline, by rw [← hx.isEmptyBatch he]; exact hrest⟩
    · split
      next y rest' =>
        rw [List.reverse_cons, Walk.append_iff] at hrest
        obtain ⟨a, hrest', b', hy, rfl⟩ := hrest
        refine ⟨hs.timeline, ?_⟩
        rw [List.reverse_cons, Walk.append_iff]
        exact ⟨a, hrest', h.doc, hy.addChild hx, rfl⟩
      · have hb : h.timeline.now = b := hrest
        exact ⟨hs.timeline.record (by rw [hb]; exact hx), rfl⟩

theorem endBatch (hs : h.Sound ρ d) : h.endBatch.Sound ρ d := by
  unfold History.endBatch
  split
  next => exact hs.finish
  · exact hs

theorem moveTo (ho : h.opened = []) {t : Timeline (Deed D) D}
    (ht : t.Sound (Deed.Takes ρ) d) : (h.moveTo t).Sound ρ d :=
  ⟨ht, by simp [History.moveTo, ho]⟩

theorem undo (hs : h.Sound ρ d) : (h.undo ρ).Sound ρ d := by
  unfold History.undo
  split
  next ho _ =>
    split_ifs
    · exact hs
    · exact moveTo ho hs.timeline.undo
  · exact hs

theorem redo (hs : h.Sound ρ d) : (h.redo ρ).Sound ρ d := by
  unfold History.redo
  split
  next ho _ =>
    split_ifs
    · exact hs
    · exact moveTo ho hs.timeline.redo
  · exact hs

end History.Sound

section Sound
variable {ρ : Refusal D} {d : D}

mutual
theorem Act.play_sound : ∀ (a : Act D) {h : History D}, a.Keeps ρ h → h.Sound ρ d →
    (a.play ρ h).Sound ρ d
  | .doTransaction t body result, h, hk, hs => by
    rw [Act.Keeps] at hk
    rw [Act.play]
    exact (Act.playBody_sound body (h := h.start (some t)) hs.timeline rfl hs.opened hk.2).finish
  | .undoTransaction, h, _, hs => hs.undo
  | .redoTransaction, h, _, hs => hs.redo
  | .beginBatch, h, _, hs => hs.beginBatch
  | .endBatch, h, _, hs => hs.endBatch
theorem Act.playAll_sound : ∀ (as : List (Act D)) {h : History D}, Act.AllKeep ρ as h →
    h.Sound ρ d → (Act.playAll ρ as h).Sound ρ d
  | [], _, _, hs => hs
  | a :: as, h, hk, hs => by
    rw [Act.AllKeep] at hk
    rw [Act.playAll]
    exact Act.playAll_sound as hk.2 (Act.play_sound a hk.1 hs)
theorem Act.playBody_sound : ∀ (body : List (Act D)) {h : History D} {t : Transaction D} {d₀ : D}
    {rest : List (Deed D)}, h.timeline.Sound (Deed.Takes ρ) d → h.opened = ⟨some t, []⟩ :: rest →
    Walk (Deed.Takes ρ) rest.reverse h.timeline.now d₀ → Act.BodyKeeps ρ t d₀ body h →
    (Act.playAll ρ body h).Sound ρ d
  | [], h, t, d₀, rest, ht, ho, hrest, hk => .started ht ho hrest hk
  | .change f :: as, h, t, d₀, rest, ht, ho, hrest, hk => by
    rw [Act.playAll, Act.play]
    exact Act.playBody_sound as (h := h.change f) ht ho hrest hk
  | .doTransaction t' body result :: as, h, t, d₀, rest, ht, ho, hrest, hk => by
    rw [Act.playAll]
    exact Act.playAll_sound as hk.2.2 (Act.play_sound _ hk.2.1 (.started ht ho hrest hk.1))
  | .undoTransaction :: as, h, t, d₀, rest, ht, ho, hrest, hk
  | .redoTransaction :: as, h, t, d₀, rest, ht, ho, hrest, hk
  | .beginBatch :: as, h, t, d₀, rest, ht, ho, hrest, hk
  | .endBatch :: as, h, t, d₀, rest, ht, ho, hrest, hk => by
    rw [Act.playAll]
    exact Act.playAll_sound as hk.2.2 (Act.play_sound _ hk.2.1 (.started ht ho hrest hk.1))
end

end Sound

/-! ### The manager tracks the history -/

/-- No listener interferes and no transaction merges. -/
structure Env.Undisturbed (env : Env D) : Prop where
  quiet : Quiet env.listeners
  declines : ∀ top t, (env.merge top t).top = top ∧ (env.merge top t).didMerge = false

/-- The manager without a maximum count is at the point of the history. -/
structure State.Tracks (s : State D) (h : History D) : Prop where
  unlimited : s.maxTransactionCount < 0
  doc : s.doc = h.doc
  doStack : s.doStack = h.opened.map Deed.done
  undoStack : s.undoStack = h.timeline.past.map (·.1.done)
  redoStack : s.redoStack = h.timeline.future.map (·.1.undone)

namespace State
variable {env : Env D} {ρ : Refusal D} {s : State D}

/-- `UndoTransaction` with nothing being executed, on an item that refuses and on one
that does not. -/
theorem undoTransaction_deed (hq : Quiet env.listeners) (hdo : s.doStack = []) {x : Deed D}
    {us : List (TransactionItem D)} (hus : s.undoStack = x.done :: us) {d : D}
    (hx : x.Takes ρ d s.doc) :
    (x.blocks ρ .undo = true → (s.undoTransaction env).2.failed = true ∧
      ∃ log, (s.undoTransaction env).1 = { s with world := ⟨s.doc, log⟩ }) ∧
    (x.blocks ρ .undo = false → (s.undoTransaction env).2 = .ok ∧
      ∃ log, (s.undoTransaction env).1 =
        ⟨⟨d, log⟩, s.maxTransactionCount, s.doStack, us, x.undone :: s.redoStack⟩) := by
  simp only [undoTransaction, hdo, hus, willUndoNotify, hq.willNotify, didUndoNotify,
    hq.didNotify, NsResult.failed_ok, Bool.false_eq_true, if_false]
  have hr := (TransactionItem.deed_outcome hq _ x (Nat.le_refl _) hx).1
    { s.world with log := s.world.log ++ [.will .manager (.undoing x.done.txId) false] } rfl
  generalize TransactionItem.undoTransaction _ _ x.done _ = r at hr ⊢
  refine ⟨fun hb => ?_, fun hb => ?_⟩
  · obtain ⟨hfail, hitem, hdoc⟩ := hr.stayed hb
    rw [if_pos hfail]
    exact ⟨hfail, _, by rw [hdoc, hitem, ← hus]⟩
  · obtain ⟨hok, hitem, hdoc⟩ := hr.went hb
    rw [if_neg (by simp [hok])]
    exact ⟨rfl, _, by rw [hdoc, hitem]⟩

/-- The same for `RedoTransaction`. -/
theorem redoTransaction_deed (hq : Quiet env.listeners) (hdo : s.doStack = []) {x : Deed D}
    {rs : List (TransactionItem D)} (hrs : s.redoStack = x.undone :: rs) {d : D}
    (hx : x.Takes ρ s.doc d) :
    (x.blocks ρ .redo = true → (s.redoTransaction env).2.failed = true ∧
      ∃ log, (s.redoTransaction env).1 = { s with world := ⟨s.doc, log⟩ }) ∧
    (x.blocks ρ .redo = false → (s.redoTransaction env).2 = .ok ∧
      ∃ log, (s.redoTransaction env).1 =
        ⟨⟨d, log⟩, s.maxTransactionCount, s.doStack, x.done :: s.undoStack, rs⟩) := by
  simp only [redoTransaction, hdo, hrs, willRedoNotify, hq.willNotify, didRedoNotify,
    hq.didNotify, NsResult.failed_ok, Bool.false_eq_true, if_false]
  have hr := (TransactionItem.deed_outcome hq _ x
    ((Deed.done_height_le_iff _ x).mpr (Nat.le_refl _)) hx).2
    { s.world with log := s.world.log ++ [.will .manager (.redoing x.undone.txId) false] } rfl
  generalize TransactionItem.redoTransaction _ _ x.undone _ = r at hr ⊢
  refine ⟨fun hb => ?_, fun hb => ?_⟩
  · obtain ⟨hfail, hitem, hdoc⟩ := hr.stayed hb
    rw [if_pos hfail]
    exact ⟨hfail, _, by rw [hdoc, hitem, ← hrs]⟩
  · obtain ⟨hok, hitem, hdoc⟩ := hr.went hb
    rw [if_neg (by simp [hok])]
    exact ⟨rfl, _, by rw [hdoc, hitem]⟩

/-- The item that `UndoTransaction` would undo was done, and its transactions lead from
some document to the present one; the item that `RedoTransaction` would redo was
undone, and its transactions lead on. -/
structure Ready (ρ : Refusal D) (s : State D) : Prop where
  undo : ∀ tx us, s.undoStack = tx :: us → ∃ x : Deed D, ∃ d, tx = x.done ∧ x.Takes ρ d s.doc
  redo : ∀ tx rs, s.redoStack = tx :: rs → ∃ x : Deed D, ∃ d, tx = x.undone ∧ x.Takes ρ s.doc d

end State

namespace State.Tracks
variable {env : Env D} {ρ : Refusal D} {d : D} {s : State D} {h : History D}

theorem init (d : D) {n : ℤ} (hn : n < 0) : (State.init d n).Tracks (.init d) :=
  ⟨hn, rfl, rfl, rfl, rfl⟩

/-- A new item at top level is pushed on the undo stack and the redo stack cleared. -/
theorem finishTopLevel (he : env.Undisturbed) (tx : TransactionItem D)
    (hn : s.maxTransactionCount < 0) :
    ∃ log, (s.finishTopLevel env tx).1 =
      ⟨⟨s.doc, log⟩, s.maxTransactionCount, s.doStack, tx :: s.undoStack, []⟩ := by
  have hfull : ¬(0 < s.maxTransactionCount ∧ s.maxTransactionCount ≤ s.undoStack.length) := by
    omega
  unfold State.finishTopLevel
  dsimp only
  split
  next tint top us _ hus =>
    split
    · exact ⟨s.world.log, by simp [State.pushUndo, hfull]⟩
    next topTransaction htop =>
      obtain ⟨hsame, hdecline⟩ := he.declines topTransaction tint
      have htop' : { top with transaction := some topTransaction } = top := by
        cases top
        simp_all
      simp only [willMergeNotify, he.quiet.willNotify, didMergeNotify, he.quiet.didNotify,
        NsResult.failed_ok, Bool.false_eq_true, if_false, hsame, hdecline, htop', ← hus]
      exact ⟨_, by simp [State.pushUndo, hfull]; rfl⟩
  · exact ⟨s.world.log, by simp [State.pushUndo, hfull]⟩

theorem endTransaction (he : env.Undisturbed) (ht : s.Tracks h) (hs : h.Sound ρ d) :
    (s.endTransaction env).1.Tracks h.finish := by
  unfold State.endTransaction
  cases ho : h.opened with
  | nil =>
    rw [ht.doStack, ho, History.finish, ho]
    exact ht
  | cons x rest =>
    obtain ⟨b, hrest, hx⟩ := hs.innermost ho
    have hdo : s.doStack = x.done :: rest.map Deed.done := by rw [ht.doStack, ho, List.map_cons]
    have hn : s.maxTransactionCount ≠ 0 := by
      have := ht.unlimited
      omega
    have hempty : (x.done.transaction.isNone ∧ x.done.numberOfChildren = 0) ↔
        x.isEmptyBatch = true := by
      simp [Deed.isEmptyBatch, Deed.done_numberOfChildren]
    simp only [hdo, hempty, hx.notTransient, NsResult.failed_ok, Bool.false_eq_true, hn, or_self,
      if_false]
    unfold History.finish
    simp only [ho]
    split_ifs with hx'
    · exact ⟨ht.unlimited, ht.doc, rfl, ht.undoStack, ht.redoStack⟩
    · cases rest with
      | nil =>
        obtain ⟨log, heq⟩ := finishTopLevel (s := { s with doStack := [] }) he x.done ht.unlimited
        simp only [List.map_nil, heq]
        exact ⟨ht.unlimited, ht.doc, rfl, by simp [Timeline.record, ht.undoStack], rfl⟩
      | cons y rest =>
        exact ⟨ht.unlimited, ht.doc, by simp [Deed.done_addChild], ht.undoStack, ht.redoStack⟩

theorem takes_past (ht : s.Tracks h) (hs : h.Sound ρ d) (ho : h.opened = []) {x : Deed D}
    {before : D} {past : List (Deed D × D)} (hp : h.timeline.past = (x, before) :: past) :
    x.Takes ρ before s.doc := by
  have hback := hs.timeline.back
  have hnow : h.timeline.now = h.doc := by simpa [ho] using hs.opened
  rw [hp, hnow, ← ht.doc] at hback
  exact hback.1

theorem takes_future (ht : s.Tracks h) (hs : h.Sound ρ d) (ho : h.opened = []) {x : Deed D}
    {after : D} {future : List (Deed D × D)} (hf : h.timeline.future = (x, after) :: future) :
    x.Takes ρ s.doc after := by
  have hahead := hs.timeline.ahead
  have hnow : h.timeline.now = h.doc := by simpa [ho] using hs.opened
  rw [hf, hnow, ← ht.doc] at hahead
  exact hahead.1

theorem ready (ht : s.Tracks h) (hs : h.Sound ρ d) (ho : h.opened = []) : s.Ready ρ := by
  refine ⟨fun tx us hus => ?_, fun tx rs hrs => ?_⟩
  · cases hp : h.timeline.past with
    | nil => simp [ht.undoStack, hp] at hus
    | cons e past =>
      simp only [ht.undoStack, hp, List.map_cons, List.cons.injEq] at hus
      exact ⟨e.1, e.2, hus.1.symm, ht.takes_past hs ho hp⟩
  · cases hf : h.timeline.future with
    | nil => simp [ht.redoStack, hf] at hrs
    | cons e future =>
      simp only [ht.redoStack, hf, List.map_cons, List.cons.injEq] at hrs
      exact ⟨e.1, e.2, hrs.1.symm, ht.takes_future hs ho hf⟩

theorem undoTransaction (he : env.Undisturbed) (ht : s.Tracks h) (hs : h.Sound ρ d) :
    (s.undoTransaction env).1.Tracks (h.undo ρ) := by
  cases ho : h.opened with
  | cons x rest =>
    have hdo : s.doStack = x.done :: rest.map Deed.done := by simp [ht.doStack, ho]
    simpa [State.undoTransaction, hdo, History.undo, ho] using ht
  | nil =>
    have hdo : s.doStack = [] := by simp [ht.doStack, ho]
    cases hp : h.timeline.past with
    | nil =>
      have hus : s.undoStack = [] := by simp [ht.undoStack, hp]
      simpa [State.undoTransaction, hdo, hus, History.undo, ho, hp] using ht
    | cons e past =>
      obtain ⟨x, before⟩ := e
      have hus : s.undoStack = x.done :: past.map (·.1.done) := by simp [ht.undoStack, hp]
      obtain ⟨hstay, hgo⟩ :=
        State.undoTransaction_deed he.quiet hdo hus (ht.takes_past hs ho hp)
      simp only [History.undo, ho, hp]
      split_ifs with hb
      · obtain ⟨-, log, heq⟩ := hstay hb
        rw [heq]
        exact ⟨ht.unlimited, ht.doc, ht.doStack, ht.undoStack, ht.redoStack⟩
      · obtain ⟨-, log, heq⟩ := hgo (by simpa using hb)
        obtain ⟨⟨_, now, future⟩, opened, doc⟩ := h
        subst hp
        rw [heq]
        exact ⟨ht.unlimited, rfl, ht.doStack, rfl, by simp [Timeline.undo, History.moveTo, ht.redoStack]⟩

theorem redoTransaction (he : env.Undisturbed) (ht : s.Tracks h) (hs : h.Sound ρ d) :
    (s.redoTransaction env).1.Tracks (h.redo ρ) := by
  cases ho : h.opened with
  | cons x rest =>
    have hdo : s.doStack = x.done :: rest.map Deed.done := by simp [ht.doStack, ho]
    simpa [State.redoTransaction, hdo, History.redo, ho] using ht
  | nil =>
    have hdo : s.doStack = [] := by simp [ht.doStack, ho]
    cases hf : h.timeline.future with
    | nil =>
      have hrs : s.redoStack = [] := by simp [ht.redoStack, hf]
      simpa [State.redoTransaction, hdo, hrs, History.redo, ho, hf] using ht
    | cons e future =>
      obtain ⟨x, after⟩ := e
      have hrs : s.redoStack = x.undone :: future.map (·.1.undone) := by simp [ht.redoStack, hf]
      obtain ⟨hstay, hgo⟩ :=
        State.redoTransaction_deed he.quiet hdo hrs (ht.takes_future hs ho hf)
      simp only [History.redo, ho, hf]
      split_ifs with hb
      · obtain ⟨-, log, heq⟩ := hstay hb
        rw [heq]
        exact ⟨ht.unlimited, ht.doc, ht.doStack, ht.undoStack, ht.redoStack⟩
      · obtain ⟨-, log, heq⟩ := hgo (by simpa using hb)
        obtain ⟨⟨past, now, _⟩, opened, doc⟩ := h
        subst hf
        rw [heq]
        exact ⟨ht.unlimited, rfl, ht.doStack, by simp [Timeline.redo, History.moveTo, ht.undoStack], rfl⟩

/-- The state in which a transaction's own code starts. -/
theorem start (ht : s.Tracks h) (t : Option (Transaction D)) (log : List Event) :
    State.Tracks ⟨⟨s.doc, log⟩, s.maxTransactionCount, ⟨t, [], []⟩ :: s.doStack, s.undoStack,
      s.redoStack⟩ (h.start t) :=
  ⟨ht.unlimited, ht.doc, by simp [History.start, ht.doStack, Deed.done_mk], ht.undoStack,
    ht.redoStack⟩

/-- Only the log differs. -/
theorem of_log (ht : s.Tracks h) (log : List Event) :
    State.Tracks { s with world := ⟨s.doc, log⟩ } h :=
  ⟨ht.unlimited, ht.doc, ht.doStack, ht.undoStack, ht.redoStack⟩

theorem doTransaction (he : env.Undisturbed) (t : Transaction D) {body : State D → State D}
    {h' : History D} (hs : h'.Sound ρ d)
    (hbody : ∀ s', s'.Tracks (h.start (some t)) → (body s').Tracks h') (ht : s.Tracks h) :
    (s.doTransaction env t body .ok).1.Tracks h'.finish := by
  simp only [State.doTransaction, willDoNotify, he.quiet.willNotify, didDoNotify,
    NsResult.failed_ok, Bool.false_eq_true, if_false, State.beginTransaction, didNotify]
  exact ((hbody _ (ht.start (some t) _)).endTransaction he hs).of_log _

theorem beginBatch (he : env.Undisturbed) (ht : s.Tracks h) :
    (s.beginBatch env).1.Tracks (h.start none) := by
  simp only [State.beginBatch, willBeginBatchNotify, he.quiet.willNotify, didBeginBatchNotify,
    he.quiet.didNotify, NsResult.failed_ok, Bool.false_eq_true, if_false, State.beginTransaction]
  exact ht.start none _

theorem endBatch (he : env.Undisturbed) (ht : s.Tracks h) (hs : h.Sound ρ d) :
    (s.endBatch env).1.Tracks h.endBatch := by
  unfold State.endBatch History.endBatch
  cases ho : h.opened with
  | nil =>
    have hdo : s.doStack = [] := by simp [ht.doStack, ho]
    simpa [hdo] using ht
  | cons x rest =>
    obtain ⟨_ | t, cs⟩ := x
    · have hdo : s.doStack = ⟨none, cs.reverse.map Deed.done, []⟩ :: rest.map Deed.done := by
        simp [ht.doStack, ho, Deed.done_mk]
      simp only [hdo, willEndBatchNotify, he.quiet.willNotify, didEndBatchNotify, didNotify,
        NsResult.failed_ok, Bool.false_eq_true, if_false]
      rw [← hdo]
      exact ((ht.of_log _).endTransaction he hs).of_log _
    · have hdo : s.doStack = ⟨some t, cs.reverse.map Deed.done, []⟩ :: rest.map Deed.done := by
        simp [ht.doStack, ho, Deed.done_mk]
      simpa [hdo] using ht

end State.Tracks

section Tracks
variable {env : Env D} {ρ : Refusal D} {d : D}

mutual
/-- Every call of the manager does to it what it does to the history. -/
theorem Act.run_tracks (he : env.Undisturbed) : ∀ (a : Act D) {s : State D} {h : History D},
    a.Keeps ρ h → h.Sound ρ d → s.Tracks h → (a.run env s).1.Tracks (a.play ρ h)
  | .doTransaction t body result, s, h, hk, hs, ht => by
    rw [Act.Keeps] at hk
    obtain ⟨rfl, hk⟩ := hk
    rw [Act.play, Act.run]
    exact ht.doTransaction he t
      (Act.playBody_sound body (h := h.start (some t)) hs.timeline rfl hs.opened hk)
      fun s' ht' =>
        Act.runBody_tracks he body (h := h.start (some t)) hs.timeline rfl hs.opened hk ht'
  | .undoTransaction, s, h, _, hs, ht => ht.undoTransaction he hs
  | .redoTransaction, s, h, _, hs, ht => ht.redoTransaction he hs
  | .beginBatch, s, h, _, _, ht => ht.beginBatch he
  | .endBatch, s, h, _, hs, ht => ht.endBatch he hs
theorem Act.runAll_tracks (he : env.Undisturbed) : ∀ (as : List (Act D)) {s : State D}
    {h : History D}, Act.AllKeep ρ as h → h.Sound ρ d → s.Tracks h →
    (Act.runAll env as s).Tracks (Act.playAll ρ as h)
  | [], _, _, _, _, ht => ht
  | a :: as, s, h, hk, hs, ht => by
    rw [Act.AllKeep] at hk
    rw [Act.runAll, Act.playAll]
    exact Act.runAll_tracks he as hk.2 (Act.play_sound a hk.1 hs) (Act.run_tracks he a hk.1 hs ht)
theorem Act.runBody_tracks (he : env.Undisturbed) : ∀ (body : List (Act D)) {s : State D}
    {h : History D} {t : Transaction D} {d₀ : D} {rest : List (Deed D)},
    h.timeline.Sound (Deed.Takes ρ) d → h.opened = ⟨some t, []⟩ :: rest →
    Walk (Deed.Takes ρ) rest.reverse h.timeline.now d₀ → Act.BodyKeeps ρ t d₀ body h →
    s.Tracks h → (Act.runAll env body s).Tracks (Act.playAll ρ body h)
  | [], s, h, t, d₀, rest, hl, ho, hrest, hk, ht => ht
  | .change f :: as, s, h, t, d₀, rest, hl, ho, hrest, hk, ht => by
    rw [Act.runAll, Act.run, Act.playAll, Act.play]
    refine Act.runBody_tracks he as (h := h.change f) hl ho hrest hk ?_
    exact ⟨ht.unlimited, congrArg f ht.doc, ht.doStack, ht.undoStack, ht.redoStack⟩
  | .doTransaction t' body result :: as, s, h, t, d₀, rest, hl, ho, hrest, hk, ht
  | .undoTransaction :: as, s, h, t, d₀, rest, hl, ho, hrest, hk, ht
  | .redoTransaction :: as, s, h, t, d₀, rest, hl, ho, hrest, hk, ht
  | .beginBatch :: as, s, h, t, d₀, rest, hl, ho, hrest, hk, ht
  | .endBatch :: as, s, h, t, d₀, rest, hl, ho, hrest, hk, ht => by
    rw [Act.runAll, Act.playAll]
    have hs : h.Sound ρ d := .started hl ho hrest hk.1
    exact Act.runAll_tracks he as hk.2.2 (Act.play_sound _ hk.2.1 hs)
      (Act.run_tracks he _ hk.2.1 hs ht)
end

end Tracks

end Kompozer.TxMgr

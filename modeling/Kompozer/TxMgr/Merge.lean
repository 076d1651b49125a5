import Kompozer.TxMgr.Deed
import Kompozer.TxMgr.Manager

/-! Merging and the undo history. A transaction that merges into the top of the undo
stack leaves nothing else behind: `EndTransaction` returns and the new item is gone
with the children it executed, and the children of the item it merged into stay to
be undone before the merged transaction. Here transactions keep a journal of what
was undone in the document, so that the order in which one undo undoes what was
executed can be compared with the order of execution. -/

namespace Kompozer.TxMgr

universe u
variable {D : Type u}

/-! ### Undoing a deed whose transactions never fail to be undone -/

namespace Deed

mutual
/-- The document after undoing the deed. -/
def unwind : Deed D → D → D
  | ⟨none, cs⟩, d => unwindAll cs d
  | ⟨some t, cs⟩, d => (t.undoTransaction (unwindAll cs d)).1
def unwindAll : List (Deed D) → D → D
  | [], d => d
  | c :: cs, d => c.unwind (unwindAll cs d)
end

mutual
/-- Every transaction of the deed can always be undone. -/
def Obliging : Deed D → Prop
  | ⟨t, cs⟩ => (∀ t' ∈ t, ∀ d, (t'.undoTransaction d).2 = .ok) ∧ ObligingAll cs
def ObligingAll : List (Deed D) → Prop
  | [] => True
  | c :: cs => c.Obliging ∧ ObligingAll cs
end

theorem obligingAll_iff (cs : List (Deed D)) : ObligingAll cs ↔ ∀ c ∈ cs, c.Obliging := by
  induction cs with
  | nil => simp [ObligingAll]
  | cons c cs ih => simp [ObligingAll, ih]

theorem unwindAll_append (cs cs' : List (Deed D)) (d : D) :
    unwindAll (cs ++ cs') d = unwindAll cs (unwindAll cs' d) := by
  induction cs with
  | nil => rfl
  | cons c cs ih => rw [List.cons_append, unwindAll, ih, unwindAll]

theorem walk_unwindAll (cs : List (Deed D)) (d : D) :
    Walk (fun c p q => q = c.unwind p) cs.reverse d (unwindAll cs d) := by
  induction cs with
  | nil => rfl
  | cons c cs ih =>
    rw [List.reverse_cons, Walk.append_iff]
    exact ⟨_, ih, _, rfl, rfl⟩

end Deed

theorem TransactionItem.unwind_went {ls : List Listener} (hq : Quiet ls) (n : ℕ) (x : Deed D)
    (hn : x.done.height ≤ n) (hx : x.Obliging) (w : World D) :
    Went (undoTransaction ls n x.done w) x.undone (x.unwind w.doc) := by
  induction n generalizing x w with
  | zero =>
    obtain ⟨t, cs⟩ := x
    simp [Deed.done_mk, height] at hn
  | succ n ih =>
    obtain ⟨t, cs⟩ := x
    have hcs := (Deed.done_height_le t cs n).mp hn
    obtain ⟨ht, hall⟩ := hx
    rw [Deed.obligingAll_iff] at hall
    have hloop : let m := undoChildren ls (undoTransaction ls n) (cs.reverse.map Deed.done) [] w
        m.result = .ok ∧ MovedTo m [] ((cs.reverse.map Deed.undone).reverse ++ [])
          (Deed.unwindAll cs w.doc) :=
      (moveChildren_outcome (fun _ => false)
        (.of_quiet hq .undoChildren .undoing .undoing) (Deed.walk_unwindAll cs w.doc)
        (fun c hc p q v hstep hv => ⟨fun _ => by
          have hmem : c ∈ cs := by simpa using hc
          rw [hstep, ← hv]
          exact ih c (hcs c hmem) (hall c hmem) v, by simp⟩) rfl []).1 (by simp)
    rw [Deed.done_mk, undoTransaction]
    generalize undoChildren ls (undoTransaction ls n) (cs.reverse.map Deed.done) [] w = m
      at hloop ⊢
    obtain ⟨hok, hsrc, hdst, hdoc⟩ := hloop
    have hown : (ownUndo t m.world).2 = .ok ∧
        (ownUndo t m.world).1.doc = Deed.unwind ⟨t, cs⟩ w.doc := by
      cases t with
      | none => exact ⟨rfl, hdoc⟩
      | some t =>
        refine ⟨ht t rfl _, ?_⟩
        simp only [ownUndo, hdoc, Deed.unwind]
    simp only [hok, NsResult.failed_ok, Bool.false_eq_true, if_false, hown.1, hsrc, hdst]
    exact ⟨rfl, by simp [Deed.undone_mk], hown.2⟩

/-! ### Executed transactions -/

/-- A transaction and what its `DoTransaction` executes: a change it makes itself, and
the children before and after that. Its own methods never fail. -/
structure Work (D : Type u) where
  id : ℕ
  own : D → D
  undo : D → D
  redo : D → D
  transient : Bool
  early : List (Work D)
  late : List (Work D)

namespace Work

/-- A transaction that writes down when it is undone. -/
def tx (w : Work D) : Transaction (D × List ℕ) :=
  ⟨w.id, fun d => ((w.undo d.1, d.2 ++ [w.id]), .ok), fun d => ((w.redo d.1, d.2), .ok),
    (w.transient, .ok)⟩

mutual
def act : Work D → Act (D × List ℕ)
  | ⟨id, own, undo, redo, transient, early, late⟩ =>
    .doTransaction (tx ⟨id, own, undo, redo, transient, early, late⟩)
      (acts early ++ .change (fun d => (own d.1, d.2)) :: acts late) .ok
def acts : List (Work D) → List (Act (D × List ℕ))
  | [] => []
  | w :: ws => w.act :: acts ws
end

mutual
/-- The document after executing the transaction. -/
def exec : Work D → D → D
  | ⟨_, own, _, _, _, early, late⟩, d => execAll late (own (execAll early d))
def execAll : List (Work D) → D → D
  | [], d => d
  | w :: ws, d => execAll ws (w.exec d)
end

mutual
/-- The transactions that are not transient, in the order in which they changed the
document. -/
def executed : Work D → List ℕ
  | ⟨id, _, _, _, transient, early, late⟩ =>
    executedAll early ++ (if transient then [] else [id]) ++ executedAll late
def executedAll : List (Work D) → List ℕ
  | [] => []
  | w :: ws => w.executed ++ executedAll ws
end

mutual
/-- What is recorded of the transaction, when it is not transient. -/
def deed : Work D → Deed (D × List ℕ)
  | ⟨id, own, undo, redo, transient, early, late⟩ =>
    ⟨some (tx ⟨id, own, undo, redo, transient, early, late⟩), kept early ++ kept late⟩
def kept : List (Work D) → List (Deed (D × List ℕ))
  | [] => []
  | w :: ws => if w.transient then kept ws else w.deed :: kept ws
end

mutual
/-- Its undo takes back its own change, which is none when it is transient, and so for
all that it executes. -/
def Undoable : Work D → D → Prop
  | ⟨_, own, undo, _, transient, early, late⟩, d =>
    UndoableAll early d ∧
    (if transient then own (execAll early d) = execAll early d
      else undo (own (execAll early d)) = execAll early d) ∧
    UndoableAll late (own (execAll early d))
def UndoableAll : List (Work D) → D → Prop
  | [], _ => True
  | w :: ws, d => w.Undoable d ∧ UndoableAll ws (w.exec d)
end

mutual
/-- Nothing that is to be undone is executed by a transient transaction, or by one that
then changes the document itself. -/
def Orderly : Work D → Prop
  | ⟨_, _, _, _, transient, early, late⟩ =>
    executedAll early = [] ∧ (transient = true → executedAll late = []) ∧
      OrderlyAll early ∧ OrderlyAll late
def OrderlyAll : List (Work D) → Prop
  | [] => True
  | w :: ws => w.Orderly ∧ OrderlyAll ws
end

/-- What the transaction executes besides its own change. -/
def nested (w : Work D) : List ℕ := executedAll w.early ++ executedAll w.late

@[simp] theorem tx_id (w : Work D) : w.tx.id = w.id := rfl

/-! ### What undoing writes down and gives back -/

mutual
theorem deed_obliging : ∀ w : Work D, w.deed.Obliging
  | ⟨id, own, undo, redo, transient, early, late⟩ => by
    rw [deed, Deed.Obliging, Deed.obligingAll_iff]
    refine ⟨fun t ht d => ?_, fun c hc => ?_⟩
    · obtain rfl := Option.some.inj ht
      rfl
    · rw [List.mem_append] at hc
      exact hc.elim (kept_obliging early c) (kept_obliging late c)
theorem kept_obliging : ∀ ws : List (Work D), ∀ c ∈ kept ws, c.Obliging
  | [], c, hc => by simp [kept] at hc
  | w :: ws, c, hc => by
    rw [kept] at hc
    split_ifs at hc
    · exact kept_obliging ws c hc
    · rcases List.mem_cons.mp hc with rfl | hc
      · exact deed_obliging w
      · exact kept_obliging ws c hc
end

mutual
/-- Undoing writes down the recorded transactions in reverse order. -/
theorem unwind_journal : ∀ (w : Work D) (d : D × List ℕ),
    (w.deed.unwind d).2 = d.2 ++ w.deed.ids.reverse
  | ⟨id, own, undo, redo, transient, early, late⟩, d => by
    have h := (unwindAll_journal early (Deed.unwindAll (kept late) d)).trans
      (congrArg (· ++ _) (unwindAll_journal late d))
    rw [deed, Deed.unwind, Deed.unwindAll_append]
    simp only [tx, Deed.ids, h, Deed.idsAll_eq, List.flatMap_append]
    simp
theorem unwindAll_journal : ∀ (ws : List (Work D)) (d : D × List ℕ),
    (Deed.unwindAll (kept ws) d).2 = d.2 ++ (Deed.idsAll (kept ws)).reverse
  | [], d => by simp [kept, Deed.unwindAll, Deed.idsAll]
  | w :: ws, d => by
    rw [kept]
    split_ifs
    · exact unwindAll_journal ws d
    · rw [Deed.unwindAll, unwind_journal w, unwindAll_journal ws, Deed.idsAll]
      simp
end

theorem executed_eq_nil {w : Work D} :
    w.executed = [] ↔ w.transient = true ∧ w.nested = [] := by
  obtain ⟨id, own, undo, redo, transient, early, late⟩ := w
  cases transient <;> simp [executed, nested]

theorem kept_eq_nil : ∀ {ws : List (Work D)}, executedAll ws = [] → kept ws = []
  | [], _ => rfl
  | w :: ws, h => by
    rw [executedAll, List.append_eq_nil_iff, executed_eq_nil] at h
    rw [kept, if_pos h.1.1, kept_eq_nil h.2]

mutual
/-- Transient transactions that execute nothing else leave the document. -/
theorem exec_of_executed : ∀ (w : Work D) {d : D}, w.executed = [] → w.Undoable d → w.exec d = d
  | ⟨id, own, undo, redo, transient, early, late⟩, d, he, hu => by
    cases transient with
    | false => simp [executed] at he
    | true =>
      rw [executed, List.append_eq_nil_iff, List.append_eq_nil_iff] at he
      obtain ⟨h₁, h₂, h₃⟩ := hu
      rw [if_pos rfl, execAll_of_executed early he.1.1 h₁] at h₂
      rw [execAll_of_executed early he.1.1 h₁, h₂] at h₃
      rw [exec, execAll_of_executed early he.1.1 h₁, h₂, execAll_of_executed late he.2 h₃]
theorem execAll_of_executed : ∀ (ws : List (Work D)) {d : D}, executedAll ws = [] →
    UndoableAll ws d → execAll ws d = d
  | [], _, _, _ => rfl
  | w :: ws, d, he, hu => by
    rw [executedAll, List.append_eq_nil_iff] at he
    obtain ⟨h₁, h₂⟩ := hu
    rw [exec_of_executed w he.1 h₁] at h₂
    rw [execAll, exec_of_executed w he.1 h₁, execAll_of_executed ws he.2 h₂]
end

mutual
theorem unwind_exec : ∀ (w : Work D) {d : D} (j : List ℕ), w.transient = false → w.Orderly →
    w.Undoable d → (w.deed.unwind (w.exec d, j)).1 = d
  | ⟨id, own, undo, redo, transient, early, late⟩, d, j, ht, ho, hu => by
    dsimp only at ht
    subst ht
    obtain ⟨he, -, -, holate⟩ := ho
    obtain ⟨h₁, h₂, h₃⟩ := hu
    rw [if_neg (by simp), execAll_of_executed early he h₁] at h₂
    rw [execAll_of_executed early he h₁] at h₃
    rw [exec, execAll_of_executed early he h₁, deed, kept_eq_nil he, List.nil_append, Deed.unwind]
    simp only [tx, unwindAll_exec late j holate h₃, h₂]
theorem unwindAll_exec : ∀ (ws : List (Work D)) {d : D} (j : List ℕ), OrderlyAll ws →
    UndoableAll ws d → (Deed.unwindAll (kept ws) (execAll ws d, j)).1 = d
  | [], _, _, _, _ => rfl
  | w :: ws, d, j, ho, hu => by
    obtain ⟨ho₁, ho₂⟩ := ho
    obtain ⟨hu₁, hu₂⟩ := hu
    have ih := unwindAll_exec ws j ho₂ hu₂
    rw [kept, execAll]
    split_ifs with ht
    · rw [ih]
      refine exec_of_executed w ?_ hu₁
      obtain ⟨id, own, undo, redo, transient, early, late⟩ := w
      obtain ⟨he, hl, -, -⟩ := ho₁
      exact executed_eq_nil.mpr ⟨ht, by simp [nested, he, hl ht]⟩
    · rw [Deed.unwindAll, ← Prod.eta (Deed.unwindAll (kept ws) _), ih]
      exact unwind_exec w _ (by simpa using ht) ho₁ hu₁
end

/-! ### The order of what is recorded -/

theorem ids_deed (w : Work D) :
    w.deed.ids = w.id :: (Deed.idsAll (kept w.early) ++ Deed.idsAll (kept w.late)) := by
  obtain ⟨id, own, undo, redo, transient, early, late⟩ := w
  simp [deed, Deed.ids, Deed.idsAll_eq]

theorem executed_eq (w : Work D) :
    w.executed = executedAll w.early ++ (if w.transient then [] else [w.id]) ++
      executedAll w.late := by
  obtain ⟨id, own, undo, redo, transient, early, late⟩ := w
  rfl

mutual
/-- No more is recorded than was executed. -/
theorem length_ids_deed_le : ∀ w : Work D, w.transient = false →
    w.deed.ids.length ≤ w.executed.length
  | ⟨id, own, undo, redo, transient, early, late⟩, ht => by
    have h₁ := length_idsAll_kept_le early
    have h₂ := length_idsAll_kept_le late
    rw [ids_deed, executed_eq, ht]
    simp only [List.length_cons, List.length_append, List.length_nil, Bool.false_eq_true, if_false]
    omega
theorem length_idsAll_kept_le : ∀ ws : List (Work D),
    (Deed.idsAll (kept ws)).length ≤ (executedAll ws).length
  | [] => Nat.le_refl _
  | w :: ws => by
    have ih := length_idsAll_kept_le ws
    rw [kept, executedAll, List.length_append]
    split_ifs with ht
    · omega
    · have := length_ids_deed_le w (by simpa using ht)
      rw [Deed.idsAll, List.length_append]
      omega
end

mutual
theorem executed_of_orderly : ∀ w : Work D, w.Orderly →
    w.executed = if w.transient then [] else w.deed.ids
  | ⟨id, own, undo, redo, transient, early, late⟩, ⟨he, hl, hoe, hol⟩ => by
    cases transient with
    | true => simp [executed, he, hl rfl]
    | false =>
      rw [ids_deed, executed_eq]
      simp [he, kept_eq_nil he, executedAll_of_orderly late hol, Deed.idsAll]
theorem executedAll_of_orderly : ∀ ws : List (Work D), OrderlyAll ws →
    executedAll ws = Deed.idsAll (kept ws)
  | [], _ => rfl
  | w :: ws, ⟨ho, hos⟩ => by
    rw [executedAll, executed_of_orderly w ho, executedAll_of_orderly ws hos, kept]
    split_ifs <;> simp [Deed.idsAll]
end

mutual
theorem orderly_of_executed : ∀ w : Work D, w.executed = [] → w.Orderly
  | ⟨id, own, undo, redo, transient, early, late⟩, h => by
    rw [executed_eq_nil, nested, List.append_eq_nil_iff] at h
    exact ⟨h.2.1, fun _ => h.2.2, orderlyAll_of_executed early h.2.1,
      orderlyAll_of_executed late h.2.2⟩
theorem orderlyAll_of_executed : ∀ ws : List (Work D), executedAll ws = [] → OrderlyAll ws
  | [], _ => trivial
  | w :: ws, h => by
    rw [executedAll, List.append_eq_nil_iff] at h
    exact ⟨orderly_of_executed w h.1, orderlyAll_of_executed ws h.2⟩
end

mutual
/-- Where different transactions were executed, recording them all in order takes an
orderly execution. -/
theorem orderly_of_ids : ∀ w : Work D, w.executed.Nodup →
    (w.executed = if w.transient then [] else w.deed.ids) → w.Orderly
  | ⟨id, own, undo, redo, transient, early, late⟩, hnd, h => by
    cases transient with
    | true => exact orderly_of_executed _ h
    | false =>
      rw [ids_deed] at h
      rw [executed_eq] at h hnd
      simp only [Bool.false_eq_true, if_false, List.append_assoc] at h hnd
      have he : executedAll early = [] := by
        cases hx : executedAll early with
        | nil => rfl
        | cons x xs =>
          rw [hx, List.cons_append, List.cons.injEq] at h
          rw [hx, h.1] at hnd
          simp at hnd
      rw [he, kept_eq_nil he] at h
      refine ⟨he, by simp, orderlyAll_of_executed early he, orderlyAll_of_ids late ?_ ?_⟩
      · exact (List.nodup_append.mp (List.nodup_append.mp hnd).2.1).2.1
      · simpa [Deed.idsAll] using h
theorem orderlyAll_of_ids : ∀ ws : List (Work D), (executedAll ws).Nodup →
    executedAll ws = Deed.idsAll (kept ws) → OrderlyAll ws
  | [], _, _ => trivial
  | w :: ws, hnd, h => by
    rw [executedAll, List.nodup_append] at hnd
    have hle := length_idsAll_kept_le ws
    have hsplit : Deed.idsAll (kept (w :: ws)) =
        (if w.transient then [] else w.deed.ids) ++ Deed.idsAll (kept ws) := by
      rw [kept]
      split_ifs <;> simp [Deed.idsAll]
    rw [executedAll, hsplit] at h
    have hlen : w.executed.length = (if w.transient then [] else w.deed.ids).length := by
      have hw : (if w.transient then [] else w.deed.ids).length ≤ w.executed.length := by
        split_ifs with ht
        · simp
        · exact length_ids_deed_le w (by simpa using ht)
      have := congrArg List.length h
      simp only [List.length_append] at this
      omega
    obtain ⟨h₁, h₂⟩ := List.append_inj h hlen
    exact ⟨orderly_of_ids w hnd.1 h₁, orderlyAll_of_ids ws hnd.2.1 h₂⟩
end

theorem executed_of_nested {w : Work D} (ht : w.transient = false) (hn : w.nested = []) :
    w.executed = [w.id] := by
  rw [nested, List.append_eq_nil_iff] at hn
  simp [executed_eq, ht, hn.1, hn.2]

theorem length_executed {w : Work D} (ht : w.transient = false) :
    w.executed.length = w.nested.length + 1 := by
  simp [executed_eq, nested, ht]
  omega

theorem executedAll_of_nested {ws : List (Work D)} (ht : ∀ w ∈ ws, w.transient = false)
    (hn : ∀ w ∈ ws, w.nested = []) : executedAll ws = ws.map (·.id) := by
  induction ws with
  | nil => rfl
  | cons w ws ih =>
    rw [executedAll, executed_of_nested (ht w (by simp)) (hn w (by simp)),
      ih (fun v hv => ht v (by simp [hv])) (fun v hv => hn v (by simp [hv]))]
    rfl

theorem length_le_executedAll {ws : List (Work D)} (ht : ∀ w ∈ ws, w.transient = false) :
    ws.length ≤ (executedAll ws).length := by
  induction ws with
  | nil => exact Nat.zero_le _
  | cons w ws ih =>
    have := ih fun v hv => ht v (by simp [hv])
    rw [executedAll, List.length_append, length_executed (ht w (by simp)), List.length_cons]
    omega

theorem nested_of_length {ws : List (Work D)} (ht : ∀ w ∈ ws, w.transient = false)
    (hlen : (executedAll ws).length = ws.length) : ∀ w ∈ ws, w.nested = [] := by
  induction ws with
  | nil => simp
  | cons w ws ih =>
    have hws : ∀ v ∈ ws, v.transient = false := fun v hv => ht v (by simp [hv])
    have hle := length_le_executedAll hws
    rw [executedAll, List.length_append, length_executed (ht w (by simp)), List.length_cons] at hlen
    rintro v hv
    rcases List.mem_cons.mp hv with rfl | hv
    · rw [← List.length_eq_zero_iff]
      omega
    · exact ih hws (by omega) v hv

/-- Everything executed since a transaction is still to be undone, in order: it was
orderly, and if others merged into it then neither it nor they executed anything else. -/
structure Complete (t : Work D) (ws : List (Work D)) : Prop where
  orderly : ws = [] → t.Orderly
  merged : ws ≠ [] → ∀ w ∈ t :: ws, w.nested = []

theorem mem_executed {w : Work D} (ht : w.transient = false) : w.id ∈ w.executed := by
  simp [executed_eq, ht]

/-- What is executed is what is recorded, in that order. -/
theorem executed_eq_iff {t : Work D} {ws : List (Work D)} (ht : t.transient = false)
    (hws : ∀ w ∈ ws, w.transient = false) (hnd : (t.executed ++ executedAll ws).Nodup) :
    t.executed ++ executedAll ws =
        t.id :: (ws.map (·.id) ++ Deed.idsAll (kept t.early ++ kept t.late)) ↔
      Complete t ws := by
  have hids : Deed.idsAll (kept t.early ++ kept t.late) =
      Deed.idsAll (kept t.early) ++ Deed.idsAll (kept t.late) := by simp [Deed.idsAll_eq]
  cases ws with
  | nil =>
    simp only [executedAll, List.append_nil, List.map_nil, List.nil_append, hids] at hnd ⊢
    rw [← ids_deed]
    refine ⟨fun h => ⟨fun _ => orderly_of_ids t hnd (by rw [h, ht]; rfl), by simp⟩, fun h => ?_⟩
    rw [executed_of_orderly t (h.orderly rfl), ht]
    rfl
  | cons w ws =>
    refine ⟨fun h => ⟨by simp, fun _ => ?_⟩, fun h => ?_⟩
    · rw [executed_eq, ht] at h hnd
      simp only [Bool.false_eq_true, if_false, List.append_assoc] at h hnd
      have hearly : executedAll t.early = [] := by
        cases hx : executedAll t.early with
        | nil => rfl
        | cons x xs =>
          rw [hx, List.cons_append, List.cons.injEq] at h
          rw [hx, h.1] at hnd
          simp at hnd
      rw [hearly, kept_eq_nil hearly] at h
      rw [hearly] at hnd
      simp only [List.nil_append, List.cons_append, List.cons.injEq, true_and, List.map_cons] at h hnd
      have hlate : executedAll t.late = [] := by
        cases hx : executedAll t.late with
        | nil => rfl
        | cons x xs =>
          rw [hx, List.cons_append, List.cons.injEq] at h
          have hmem := mem_executed (hws w (by simp))
          rw [hx, h.1] at hnd
          simp [executedAll, hmem] at hnd
      rw [hlate, kept_eq_nil hlate] at h
      have hlen := congrArg List.length h
      rintro v hv
      rcases List.mem_cons.mp hv with rfl | hv
      · simp [nested, hearly, hlate]
      · exact nested_of_length hws (by simpa [Deed.idsAll] using hlen) v hv
    · have hn := h.merged (by simp)
      have htn := hn t (by simp)
      rw [executed_of_nested ht htn, executedAll_of_nested hws fun v hv => hn v (by simp [hv])]
      rw [nested, List.append_eq_nil_iff] at htn
      simp [kept_eq_nil htn.1, kept_eq_nil htn.2, Deed.idsAll]

end Work

/-! ### Running the manager -/

/-- The manager, apart from its log. -/
structure State.At (m : ℤ) (d : D) (ds us rs : List (TransactionItem D)) (s : State D) : Prop where
  maxTransactionCount : s.maxTransactionCount = m
  doc : s.doc = d
  doStack : s.doStack = ds
  undoStack : s.undoStack = us
  redoStack : s.redoStack = rs

namespace Work

theorem runAll_append {E : Type u} (env : Env E) (as bs : List (Act E)) (s : State E) :
    Act.runAll env (as ++ bs) s = Act.runAll env bs (Act.runAll env as s) := by
  induction as generalizing s with
  | nil => rfl
  | cons a as ih => rw [List.cons_append, Act.runAll, ih, Act.runAll]

variable {env : Env (D × List ℕ)} {m : ℤ} {us rs : List (TransactionItem (D × List ℕ))}

/-- `DoTransaction`, given what its body and `EndTransaction` leave. -/
theorem doTransaction_at (hq : Quiet env.listeners) {t : Transaction (D × List ℕ)}
    {body : State (D × List ℕ) → State (D × List ℕ)} {d d' : D × List ℕ}
    {ds ds₁ ds₂ us₂ rs₂ : List (TransactionItem (D × List ℕ))}
    (hbody : ∀ s, s.At m d (⟨some t, [], []⟩ :: ds) us rs → (body s).At m d' ds₁ us rs)
    (hend : ∀ s : State (D × List ℕ), s.At m d' ds₁ us rs →
      (s.endTransaction env).1.At m d' ds₂ us₂ rs₂)
    {s : State (D × List ℕ)} (hs : s.At m d ds us rs) :
    (s.doTransaction env t body .ok).1.At m d' ds₂ us₂ rs₂ := by
  obtain ⟨h₁, h₂, h₃, h₄, h₅⟩ := hs
  simp only [State.doTransaction, willDoNotify, hq.willNotify, didDoNotify, didNotify,
    NsResult.failed_ok, Bool.false_eq_true, if_false, State.beginTransaction]
  obtain ⟨e₁, e₂, e₃, e₄, e₅⟩ := hend _ (hbody ⟨⟨s.world.doc, s.world.log ++ [.will .manager (.doing t.id) false]⟩,
    s.maxTransactionCount, ⟨some t, [], []⟩ :: s.doStack, s.undoStack, s.redoStack⟩
    ⟨h₁, h₂, by simp [h₃], h₄, h₅⟩)
  exact ⟨e₁, e₂, e₃, e₄, e₅⟩

theorem deed_done (w : Work D) : w.deed.done.transaction = some w.tx ∧
    w.deed.done.getIsTransient = (w.transient, .ok) := by
  obtain ⟨id, own, undo, redo, transient, early, late⟩ := w
  exact ⟨rfl, rfl⟩

/-- `EndTransaction` of a nested transaction. -/
theorem endTransaction_nested (hm : m ≠ 0) (w : Work D) (x : Deed (D × List ℕ))
    {d : D × List ℕ} {ds : List (TransactionItem (D × List ℕ))} {s : State (D × List ℕ)}
    (hs : s.At m d (w.deed.done :: x.done :: ds) us rs) :
    (s.endTransaction env).1.At m d
      ((if w.transient then x else x.addChild w.deed).done :: ds) us rs := by
  obtain ⟨h₁, h₂, h₃, h₄, h₅⟩ := hs
  obtain ⟨htx, htr⟩ := deed_done w
  simp only [State.endTransaction, h₃, htx, htr, h₁, hm, NsResult.failed_ok, Option.isNone_some,
    Bool.false_eq_true, false_and, if_false, false_or, or_false]
  split_ifs
  · exact ⟨rfl, h₂, rfl, h₄, h₅⟩
  · exact ⟨rfl, h₂, by simp [Deed.done_addChild], h₄, h₅⟩

/-- The deed has executed more children. -/
def addChildren (x : Deed D) (cs : List (Deed D)) : Deed D := ⟨x.transaction, x.children ++ cs⟩

/-- The transactions of the list become children of the innermost item. -/
def RunsAll (env : Env (D × List ℕ)) (m : ℤ) (us rs : List (TransactionItem (D × List ℕ)))
    (ws : List (Work D)) : Prop :=
  ∀ {x : Deed (D × List ℕ)} {d : D} {j : List ℕ} {ds : List (TransactionItem (D × List ℕ))}
    {s : State (D × List ℕ)}, s.At m (d, j) (x.done :: ds) us rs →
    (Act.runAll env (acts ws) s).At m (execAll ws d, j) ((addChildren x (kept ws)).done :: ds) us rs

/-- The body of a transaction. -/
theorem run_body {early late : List (Work D)} (he : RunsAll env m us rs early)
    (hl : RunsAll env m us rs late) (own : D → D) {t : Transaction (D × List ℕ)} {d : D}
    {j : List ℕ} {ds : List (TransactionItem (D × List ℕ))} {s : State (D × List ℕ)}
    (hs : s.At m (d, j) (⟨some t, [], []⟩ :: ds) us rs) :
    (Act.runAll env (acts early ++ .change (fun d => (own d.1, d.2)) :: acts late) s).At m
      (execAll late (own (execAll early d)), j)
      (Deed.done ⟨some t, kept early ++ kept late⟩ :: ds) us rs := by
  obtain ⟨e₁, e₂, e₃, e₄, e₅⟩ := he (x := ⟨some t, []⟩) hs
  rw [runAll_append, Act.runAll, Act.run]
  refine hl (x := addChildren ⟨some t, []⟩ (kept early)) ?_
  exact ⟨e₁, by simp [State.doc, e₂], e₃, e₄, e₅⟩

mutual
/-- A nested transaction becomes a child of the innermost item, unless it is transient. -/
theorem run_act (hq : Quiet env.listeners) (hm : m ≠ 0) : ∀ (w : Work D) {x : Deed (D × List ℕ)}
    {d : D} {j : List ℕ} {ds : List (TransactionItem (D × List ℕ))} {s : State (D × List ℕ)},
    s.At m (d, j) (x.done :: ds) us rs →
    (w.act.run env s).1.At m (w.exec d, j)
      ((if w.transient then x else x.addChild w.deed).done :: ds) us rs
  | ⟨id, own, undo, redo, transient, early, late⟩, x, d, j, ds, s, hs => by
    rw [act, Act.run]
    exact doTransaction_at hq
      (fun s' hs' => run_body (run_acts hq hm early) (run_acts hq hm late) own hs')
      (fun s' hs' => endTransaction_nested hm ⟨id, own, undo, redo, transient, early, late⟩ x hs')
      hs
theorem run_acts (hq : Quiet env.listeners) (hm : m ≠ 0) : ∀ ws : List (Work D),
    RunsAll env m us rs ws
  | [], x, d, j, ds, s, hs => by
    obtain ⟨t, cs⟩ := x
    simpa [acts, Act.runAll, execAll, kept, addChildren] using hs
  | w :: ws, x, d, j, ds, s, hs => by
    have h := run_acts hq hm ws (run_act hq hm w hs)
    rw [acts, Act.runAll, execAll]
    convert h using 3
    rw [kept]
    split_ifs <;> simp [addChildren, Deed.addChild]
end

/-- What is below a new item on the undo stack. -/
def underneath (m : ℤ) (us : List (TransactionItem (D × List ℕ))) :
    List (TransactionItem (D × List ℕ)) :=
  if 0 < m ∧ m ≤ us.length then us.dropLast else us

/-- The transaction does not merge into the top of the undo stack. -/
def Declined (env : Env (D × List ℕ)) (us : List (TransactionItem (D × List ℕ)))
    (t : Transaction (D × List ℕ)) : Prop :=
  ∀ top tx, us.head? = some top → top.transaction = some tx →
    (env.merge tx t).top = tx ∧ (env.merge tx t).didMerge = false

theorem endTransaction_top (hq : Quiet env.listeners) (hm : m ≠ 0) {w : Work D}
    (ht : w.transient = false) {d : D × List ℕ} (hdecl : Declined env us w.tx)
    {s : State (D × List ℕ)} (hs : s.At m d [w.deed.done] us rs) :
    (s.endTransaction env).1.At m d [] (w.deed.done :: underneath m us) [] := by
  obtain ⟨h₁, h₂, h₃, h₄, h₅⟩ := hs
  obtain ⟨htx, htr⟩ := deed_done w
  simp only [State.endTransaction, h₃, htx, htr, h₁, hm, ht, NsResult.failed_ok,
    Option.isNone_some, Bool.false_eq_true, false_and, if_false, or_self, State.finishTopLevel, h₄]
  split
  next tint top us' htint =>
    obtain rfl := Option.some.inj htint
    split
    · exact ⟨rfl, h₂, rfl, rfl, rfl⟩
    next tx htop =>
      obtain ⟨hsame, hdecline⟩ := hdecl top tx rfl htop
      have htop' : { top with transaction := some tx } = top := by
        cases top
        simp_all
      simp only [willMergeNotify, hq.willNotify, didMergeNotify, didNotify, NsResult.failed_ok,
        Bool.false_eq_true, if_false, hsame, hdecline, htop']
      exact ⟨rfl, h₂, rfl, rfl, rfl⟩
  · exact ⟨rfl, h₂, rfl, rfl, rfl⟩

end Work

/-- The transaction after another was merged into it: undoing it undoes the other one
first. -/
def Transaction.absorb (top t : Transaction D) : Transaction D :=
  { top with
    undoTransaction := fun d =>
      let r := t.undoTransaction d
      if r.2.failed then r else top.undoTransaction r.1
    redoTransaction := fun d =>
      let r := top.redoTransaction d
      if r.2.failed then r else t.redoTransaction r.1 }

namespace Work
variable {env : Env (D × List ℕ)} {m : ℤ} {us rs : List (TransactionItem (D × List ℕ))}

/-- A merge leaves nothing of the new item but its transaction. -/
theorem endTransaction_merged (hq : Quiet env.listeners) (hm : m ≠ 0) {w : Work D}
    (ht : w.transient = false) {d : D × List ℕ} {top : Transaction (D × List ℕ)}
    {cs : List (Deed (D × List ℕ))} {r : NsResult}
    (hacc : env.merge top w.tx = ⟨top.absorb w.tx, true, r⟩) {s : State (D × List ℕ)}
    (hs : s.At m d [w.deed.done] (Deed.done ⟨some top, cs⟩ :: us) rs) :
    (s.endTransaction env).1.At m d [] (Deed.done ⟨some (top.absorb w.tx), cs⟩ :: us) [] := by
  obtain ⟨h₁, h₂, h₃, h₄, h₅⟩ := hs
  obtain ⟨htx, htr⟩ := deed_done w
  simp only [State.endTransaction, h₃, htx, htr, h₁, hm, ht, NsResult.failed_ok,
    Option.isNone_some, Bool.false_eq_true, false_and, if_false, or_self, State.finishTopLevel, h₄,
    willMergeNotify, hq.willNotify, didMergeNotify, didNotify, hacc, if_true,
    Deed.done_mk]
  exact ⟨rfl, h₂, rfl, rfl, rfl⟩

/-- The transaction of the top item after the others merged into it. -/
def mergeAll (top : Transaction (D × List ℕ)) : List (Work D) → Transaction (D × List ℕ)
  | [] => top
  | w :: ws => mergeAll (top.absorb w.tx) ws

/-- The top transaction accepts the others one after the other. -/
def Accepts (env : Env (D × List ℕ)) (top : Transaction (D × List ℕ)) : List (Work D) → Prop
  | [] => True
  | w :: ws => (∃ r, env.merge top w.tx = ⟨top.absorb w.tx, true, r⟩) ∧
      Accepts env (top.absorb w.tx) ws

theorem run_top (hq : Quiet env.listeners) (hm : m ≠ 0) (w : Work D)
    {us₂ rs₂ : List (TransactionItem (D × List ℕ))} {d : D} {j : List ℕ}
    (hend : ∀ s : State (D × List ℕ), s.At m (w.exec d, j) [w.deed.done] us rs →
      (s.endTransaction env).1.At m (w.exec d, j) [] us₂ rs₂)
    {s : State (D × List ℕ)} (hs : s.At m (d, j) [] us rs) :
    (w.act.run env s).1.At m (w.exec d, j) [] us₂ rs₂ := by
  obtain ⟨id, own, undo, redo, transient, early, late⟩ := w
  rw [act, Act.run]
  exact doTransaction_at hq
    (fun s' hs' => run_body (run_acts hq hm early) (run_acts hq hm late) own hs') hend hs

theorem run_merged (hq : Quiet env.listeners) (hm : m ≠ 0) {ws : List (Work D)}
    (hws : ∀ w ∈ ws, w.transient = false) {d : D} {j : List ℕ} {top : Transaction (D × List ℕ)}
    {cs : List (Deed (D × List ℕ))} (hacc : Accepts env top ws) {s : State (D × List ℕ)}
    (hs : s.At m (d, j) [] (Deed.done ⟨some top, cs⟩ :: us) []) :
    (Act.runAll env (acts ws) s).At m (execAll ws d, j) []
      (Deed.done ⟨some (mergeAll top ws), cs⟩ :: us) [] := by
  induction ws generalizing d top s with
  | nil => exact hs
  | cons w ws ih =>
    obtain ⟨⟨r, hr⟩, hacc⟩ := hacc
    rw [acts, Act.runAll, execAll, mergeAll]
    exact ih (fun v hv => hws v (by simp [hv])) hacc
      (run_top hq hm w (fun s' hs' => endTransaction_merged hq hm (hws w (by simp)) hr hs') hs)

/-- The merged transactions are undone in reverse order, and then the one they merged
into. -/
theorem mergeAll_undo (t : Transaction (D × List ℕ)) (ht : ∀ d, (t.undoTransaction d).2 = .ok)
    (ws : List (Work D)) :
    (∀ d, ((mergeAll t ws).undoTransaction d).2 = .ok) ∧
    ∀ d, ((mergeAll t ws).undoTransaction d).1 =
      (t.undoTransaction ((ws.foldr (fun w d => w.undo d) d.1),
        d.2 ++ (ws.map (·.id)).reverse)).1 := by
  induction ws generalizing t with
  | nil => exact ⟨ht, fun d => by simp [mergeAll]⟩
  | cons w ws ih =>
    have habs : ∀ d, (t.absorb w.tx).undoTransaction d =
        t.undoTransaction (w.undo d.1, d.2 ++ [w.id]) := fun d => by
      simp [Transaction.absorb, tx]
    obtain ⟨hok, heq⟩ := ih (t.absorb w.tx) (fun d => by rw [habs, ht])
    refine ⟨hok, fun d => ?_⟩
    rw [mergeAll, heq, habs]
    simp

theorem undo_exec {w : Work D} {d : D} (ht : w.transient = false) (hn : w.nested = [])
    (hu : w.Undoable d) : w.undo (w.exec d) = d := by
  obtain ⟨id, own, undo, redo, transient, early, late⟩ := w
  rw [nested, List.append_eq_nil_iff] at hn
  obtain ⟨he, hl⟩ := hn
  dsimp only at ht he hl
  subst ht
  obtain ⟨h₁, h₂, h₃⟩ := hu
  rw [if_neg (by simp), execAll_of_executed early he h₁] at h₂
  rw [execAll_of_executed early he h₁] at h₃
  rw [exec, execAll_of_executed early he h₁, execAll_of_executed late hl h₃]
  exact h₂

theorem foldr_undo_execAll {ws : List (Work D)} (hws : ∀ w ∈ ws, w.transient = false)
    (hn : ∀ w ∈ ws, w.nested = []) {d : D} (hu : UndoableAll ws d) :
    ws.foldr (fun w d => w.undo d) (execAll ws d) = d := by
  induction ws generalizing d with
  | nil => rfl
  | cons w ws ih =>
    rw [execAll, List.foldr_cons,
      ih (fun v hv => hws v (by simp [hv])) (fun v hv => hn v (by simp [hv])) hu.2]
    exact undo_exec (hws w (by simp)) (hn w (by simp)) hu.1

theorem deed_eq (w : Work D) : w.deed = ⟨some w.tx, kept w.early ++ kept w.late⟩ := by
  obtain ⟨id, own, undo, redo, transient, early, late⟩ := w
  rfl

/-- `UndoTransaction` on an item whose transactions can always be undone. -/
theorem undoTransaction_at (hq : Quiet env.listeners) {x : Deed (D × List ℕ)}
    (hx : x.Obliging) {d : D × List ℕ} {s : State (D × List ℕ)}
    (hs : s.At m d [] (x.done :: us) rs) : (s.undoTransaction env).1.doc = x.unwind d := by
  obtain ⟨-, h₂, h₃, h₄, -⟩ := hs
  simp only [State.undoTransaction, h₃, h₄, willUndoNotify, hq.willNotify, didUndoNotify,
    didNotify, NsResult.failed_ok, Bool.false_eq_true, if_false]
  have hw := TransactionItem.unwind_went hq _ x (Nat.le_refl _) hx
    { s.world with log := s.world.log ++ [.will .manager (.undoing x.done.txId) false] }
  generalize TransactionItem.undoTransaction _ _ x.done _ = r at hw ⊢
  rw [if_neg (by simp [hw.result])]
  exact hw.doc.trans (congrArg x.unwind h₂)

/-- What one undo leaves after a transaction and others that merged into it. -/
theorem undo_merged (hq : Quiet env.listeners) (hm : m ≠ 0) {t : Work D} {ws : List (Work D)}
    (ht : t.transient = false) (hws : ∀ w ∈ ws, w.transient = false)
    (hdecl : Declined env us t.tx) (hacc : Accepts env t.tx ws) {d : D} {j : List ℕ}
    {s : State (D × List ℕ)} (hs : s.At m (d, j) [] us rs) :
    (Act.runAll env (t.act :: acts ws ++ [.undoTransaction]) s).doc =
      (t.tx.undoTransaction
        (ws.foldr (fun w d => w.undo d)
          (Deed.unwindAll (kept t.early ++ kept t.late) (execAll ws (t.exec d), j)).1,
        j ++ (Deed.idsAll (kept t.early ++ kept t.late)).reverse ++
          (ws.map (·.id)).reverse)).1 := by
  have h₁ := run_top hq hm t (fun s' hs' => endTransaction_top hq hm ht hdecl hs') hs
  rw [deed_eq] at h₁
  have h₂ := run_merged hq hm hws hacc h₁
  obtain ⟨hok, heq⟩ := mergeAll_undo t.tx (fun _ => rfl) ws
  have hobliging : Deed.Obliging ⟨some (mergeAll t.tx ws), kept t.early ++ kept t.late⟩ := by
    rw [Deed.Obliging, Deed.obligingAll_iff]
    refine ⟨fun t' ht' d => ?_, fun c hc => ?_⟩
    · obtain rfl := Option.some.inj ht'
      exact hok d
    · exact (List.mem_append.mp hc).elim (kept_obliging _ c) (kept_obliging _ c)
  have h₃ := undoTransaction_at hq hobliging h₂
  rw [List.cons_append, Act.runAll, runAll_append, Act.runAll, Act.runAll, Act.run, h₃, Deed.unwind,
    heq]
  congr 3
  rw [Deed.unwindAll_append, unwindAll_journal, unwindAll_journal]
  simp [Deed.idsAll_eq]

/-- What is to be undone is undone to the document before. -/
theorem Complete.restores {t : Work D} {ws : List (Work D)} (hc : t.Complete ws)
    (ht : t.transient = false) (hws : ∀ w ∈ ws, w.transient = false) {d : D} (j : List ℕ)
    (hu : UndoableAll (t :: ws) d) :
    t.undo (ws.foldr (fun w d => w.undo d)
      (Deed.unwindAll (kept t.early ++ kept t.late) (execAll ws (t.exec d), j)).1) = d := by
  obtain ⟨hut, huws⟩ := hu
  cases ws with
  | nil =>
    have := unwind_exec t j ht (hc.orderly rfl) hut
    rw [deed_eq, Deed.unwind] at this
    exact this
  | cons w ws =>
    have hn := hc.merged (by simp)
    have htn := hn t (by simp)
    have hkept : kept t.early ++ kept t.late = [] := by
      rw [nested, List.append_eq_nil_iff] at htn
      rw [kept_eq_nil htn.1, kept_eq_nil htn.2, List.append_nil]
    rw [hkept, Deed.unwindAll, foldr_undo_execAll hws (fun v hv => hn v (by simp [hv])) huws]
    exact undo_exec ht htn hut

end Work

/-- A transaction at top level and others that merge into it: one undo undoes every
executed transaction that is not transient, once and in reverse order, and restores
the document, exactly when the first was orderly and, if others merged, no
transaction that is not transient was executed inside any of them. -/
theorem merged_undone_iff (env : Env (D × List ℕ)) (hq : Quiet env.listeners) (t : Work D)
    (ws : List (Work D)) (s : State (D × List ℕ)) (hdo : s.doStack = [])
    (hm : s.maxTransactionCount ≠ 0) (ht : t.transient = false)
    (hws : ∀ w ∈ ws, w.transient = false) (hdecl : Work.Declined env s.undoStack t.tx)
    (hacc : Work.Accepts env t.tx ws) (hu : Work.UndoableAll (t :: ws) s.doc.1)
    (hnd : (t.executed ++ Work.executedAll ws).Nodup) :
    (Act.runAll env (t.act :: Work.acts ws ++ [.undoTransaction]) s).doc =
        (s.doc.1, s.doc.2 ++ (t.executed ++ Work.executedAll ws).reverse) ↔
      t.Complete ws := by
  rw [Work.undo_merged hq hm ht hws hdecl hacc (d := s.doc.1) (j := s.doc.2)
    ⟨rfl, rfl, hdo, rfl, rfl⟩, ← Work.executed_eq_iff ht hws hnd]
  simp only [Work.tx, Prod.mk.injEq]
  constructor
  · rintro ⟨-, hj⟩
    simp only [List.append_assoc, List.append_cancel_left_eq] at hj
    have := congrArg List.reverse hj
    simpa using this.symm
  · intro hids
    have hc := (Work.executed_eq_iff ht hws hnd).mp hids
    exact ⟨hc.restores ht hws s.doc.2 hu, by simp [hids]⟩

/-- An addition and what is executed after it. -/
private def plus (id : ℕ) (k : ℤ) (late : List (Work ℤ)) : Work ℤ :=
  ⟨id, (· + k), (· - k), (· + k), false, [], late⟩

/-- No listeners, and every merge is accepted. -/
private def merging : Env (ℤ × List ℕ) := ⟨[], fun top t => ⟨top.absorb t, true, .ok⟩⟩

/-- Two additions without children, merged and undone. -/
theorem merged_undone_flat :
    (Act.runAll merging ((plus 1 1 []).act :: Work.acts [plus 2 2 []] ++ [.undoTransaction])
      (.init (0, []) (-1))).doc = (0, [2, 1]) :=
  (merged_undone_iff merging (by simp [Quiet, merging]) (plus 1 1 []) [plus 2 2 []]
    (.init (0, []) (-1)) rfl (by decide) rfl (by simp [plus])
    (by intro top tx h; simp [State.init] at h) ⟨⟨.ok, rfl⟩, trivial⟩
    (by simp [Work.UndoableAll, Work.Undoable, plus, Work.execAll])
    (by decide)).mpr ⟨by simp, by simp [plus, Work.nested, Work.executedAll]⟩

/-- The child of a merged transaction is not undone. -/
theorem merged_child_not_undone :
    (Act.runAll merging
      ((plus 1 1 []).act :: Work.acts [plus 2 2 [plus 3 4 []]] ++ [.undoTransaction])
      (.init (0, []) (-1))).doc = (4, [2, 1]) := by
  decide

end Kompozer.TxMgr

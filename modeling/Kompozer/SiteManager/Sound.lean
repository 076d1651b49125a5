import Kompozer.Lib.Outline
import Kompozer.SiteManager.TreeView

/-! What holds of the arrays of the site manager between two operations, and how rows are put in and
taken out. -/

namespace Kompozer.SiteManager

open Publish (JSString js)

/-- What the place of a row depends on. -/
structure Row where
  name : JSString
  url : JSString
  isContainer : Bool
  isContainerOpen : Bool
  level : ℕ

def Item.row (x : Item) : Row :=
  ⟨x.name, x.url, x.isContainer, x.isContainerOpen, x.level⟩

namespace Row

def opens (r : Row) : Prop := r.isContainer = true ∧ r.isContainerOpen = true

instance : DecidablePred Row.opens := fun r =>
  inferInstanceAs (Decidable (r.isContainer = true ∧ r.isContainerOpen = true))

def owns (p r : Row) : Prop := p.url <+: r.url

/-- Rows of files are not open. -/
def shown (env : Env) (filter : JSString) (r : Row) : Bool :=
  r.isContainer || !IsHiddenByFilter env filter r.name

theorem not_opens_of_hidden {env : Env} {filter : JSString} {r : Row}
    (h : r.shown env filter = false) : ¬r.opens := by
  rw [shown, Bool.or_eq_false_iff] at h
  rw [opens, h.1]
  simp

end Row

namespace Manager

def view (m : Manager) (x : Ref) : Row := (m.item x).row

/-- The two arrays, the numbers of the rows and their levels fit together. -/
structure Consistent (env : Env) (m : Manager) : Prop where
  realIndex : ∀ i x, m.gItemsArray[i]? = some x → (m.item x).realIndex = i
  filtered : m.gFilteredItemsArray = m.gItemsArray.filter (m.shown env)
  outline : Outline (fun x => (m.item x).level)
    (fun x => (m.item x).isContainer = true ∧ (m.item x).isContainerOpen = true)
    (fun p x => (m.item p).url <+: (m.item x).url) m.gItemsArray

/-- The invariant. No entry of a listing is left behind. -/
structure Sound (env : Env) (m : Manager) : Prop where
  nodup : m.gItemsArray.Nodup
  old : ∀ x ∈ m.gItemsArray, x < m.fresh
  realIndex : ∀ i x, m.gItemsArray[i]? = some x → (m.item x).realIndex = i
  filtered : m.gFilteredItemsArray = m.gItemsArray.filter (m.shown env)
  hangs : Hangs Row.level Row.opens Row.owns [] (m.gItemsArray.map m.view)
  clean : m.gNewItemsArray = none

variable {env : Env} {m m' : Manager} {d x : Ref} {A S rest X Y new : List Ref} {row : ℕ}

theorem Sound.consistent (h : m.Sound env) : m.Consistent env where
  realIndex := h.realIndex
  filtered := h.filtered
  outline := (hangs_map_nil.mp h.hangs).outline

theorem shown_eq (m : Manager) (env : Env) (x : Ref) :
    m.shown env x = (m.view x).shown env m.gSiteManagerCurrentFilter := rfl

/-- Nothing is changed that matters to the place of the rows. -/
theorem Sound.congr (h : m.Sound env) (hitems : m'.gItemsArray = m.gItemsArray)
    (hrows : m'.gFilteredItemsArray = m.gFilteredItemsArray) (hfresh : m.fresh ≤ m'.fresh)
    (hfilter : m'.gSiteManagerCurrentFilter = m.gSiteManagerCurrentFilter)
    (hnew : m'.gNewItemsArray = none) (hview : ∀ x ∈ m.gItemsArray, m'.view x = m.view x)
    (hreal : ∀ x ∈ m.gItemsArray, (m'.item x).realIndex = (m.item x).realIndex) :
    m'.Sound env where
  nodup := hitems ▸ h.nodup
  old := by
    rw [hitems]
    exact fun x hx => Nat.lt_of_lt_of_le (h.old x hx) hfresh
  realIndex := by
    rw [hitems]
    intro i x hx
    rw [hreal x (List.mem_of_getElem? hx), h.realIndex i x hx]
  filtered := by
    rw [hrows, hitems, h.filtered]
    apply List.filter_congr
    intro x hx
    rw [shown_eq, shown_eq, hfilter, hview x hx]
  hangs := by
    rw [hitems, List.map_congr_left hview]
    exact h.hangs
  clean := hnew

/-! ### Numbering -/

theorem foldl_number (rows : List (Ref × ℕ)) (m : Manager) : ∃ f,
    rows.foldl (fun m x => m.change x.1 fun y => { y with realIndex := x.2 }) m =
        { m with item := f } ∧
      (∀ x, (f x).row = (m.item x).row) ∧ (∀ x ∉ rows.map Prod.fst, f x = m.item x) ∧
      ((rows.map Prod.fst).Nodup → ∀ x i, (x, i) ∈ rows → (f x).realIndex = i) := by
  induction rows generalizing m with
  | nil => exact ⟨m.item, rfl, by simp, by simp, by simp⟩
  | cons p rows ih =>
    obtain ⟨f, heq, hrow, hother, hreal⟩ := ih (m.change p.1 fun y => { y with realIndex := p.2 })
    refine ⟨f, by rw [List.foldl_cons, heq]; rfl, ?_, ?_, ?_⟩
    · intro x
      rw [hrow]
      simp only [change]
      by_cases hx : x = p.1
      · subst hx
        rw [Function.update_self]
        rfl
      · rw [Function.update_of_ne hx]
    · intro x hx
      rw [List.map_cons, List.mem_cons, not_or] at hx
      rw [hother x hx.2]
      exact Function.update_of_ne hx.1 _ _
    · intro hnodup x i hx
      rw [List.map_cons, List.nodup_cons] at hnodup
      rcases List.mem_cons.mp hx with rfl | hx
      · rw [hother x hnodup.1]
        simp only [change]
        rw [Function.update_self]
      · exact hreal hnodup.2 x i hx

/-- The rows are numbered anew from one of them on. -/
theorem exists_Update (hnodup : m.gItemsArray.Nodup) (start : ℕ)
    (hbefore : ∀ i x, i < start → m.gItemsArray[i]? = some x → (m.item x).realIndex = i) : ∃ f,
    m.UpdateItemsArrayRealIndexes start = { m with item := f } ∧
      (∀ x, (f x).row = (m.item x).row) ∧ (∀ x ∉ m.gItemsArray, f x = m.item x) ∧
      ∀ i x, m.gItemsArray[i]? = some x → (f x).realIndex = i := by
  obtain ⟨f, heq, hrow, hother, hreal⟩ := foldl_number (m.gItemsArray.zipIdx.drop start) m
  have hfst : (m.gItemsArray.zipIdx.drop start).map Prod.fst = m.gItemsArray.drop start := by
    rw [List.map_drop, List.zipIdx_map_fst]
  rw [hfst] at hother hreal
  refine ⟨f, heq, hrow, fun x hx => hother x (mt List.mem_of_mem_drop hx), ?_⟩
  intro i x hx
  obtain ⟨hi, rfl⟩ := List.getElem?_eq_some_iff.mp hx
  by_cases hstart : i < start
  · rw [hother, hbefore i _ hstart hx]
    intro hmem
    obtain ⟨j, hj, heq⟩ := List.getElem_of_mem hmem
    rw [List.getElem_drop] at heq
    have := (List.Nodup.getElem_inj_iff hnodup).mp heq
    omega
  · apply hreal (hnodup.sublist (List.drop_sublist ..))
    rw [List.mem_iff_getElem]
    refine ⟨i - start, by simp; omega, ?_⟩
    simp [Nat.add_sub_cancel' (Nat.le_of_not_lt hstart)]

/-! ### Opening and closing -/

/-- The objects when a row is opened or closed. -/
def opening (f : Ref → Item) (d : Ref) (b : Bool) : Ref → Item :=
  Function.update f d { f d with isContainerOpen := b }

theorem opening_of_ne {f : Ref → Item} {b : Bool} (hx : x ≠ d) : opening f d b x = f x :=
  Function.update_of_ne hx _ _

theorem row_opening (f : Ref → Item) (d : Ref) (b : Bool) :
    (opening f d b d).row = { (f d).row with isContainerOpen := b } := by
  rw [opening, Function.update_self]
  rfl

theorem realIndex_opening (f : Ref → Item) (d : Ref) (b : Bool) (x : Ref) :
    (opening f d b x).realIndex = (f x).realIndex := by
  by_cases hx : x = d
  · subst hx
    rw [opening, Function.update_self]
  · rw [opening_of_ne hx]

theorem shown_opening (f : Ref → Item) (d : Ref) (b : Bool) (filter : JSString) (x : Ref) :
    (opening f d b x).row.shown env filter = (f x).row.shown env filter := by
  by_cases hx : x = d
  · subst hx
    rw [row_opening]
    rfl
  · rw [opening_of_ne hx]

/-! ### Where a row stands -/

/-- A container stands in both arrays, under its number in one and its row in the other. -/
theorem Sound.split (h : m.Sound env) (hd : m.gFilteredItemsArray[row]? = some d) :
    ∃ A rest, m.gItemsArray = A ++ d :: rest ∧ A.length = (m.item d).realIndex ∧
      m.gFilteredItemsArray = A.filter (m.shown env) ++ d :: rest.filter (m.shown env) ∧
      (A.filter (m.shown env)).length = row := by
  have hmem : d ∈ m.gItemsArray.filter (m.shown env) :=
    h.filtered ▸ List.mem_of_getElem? hd
  obtain ⟨hmem, hshown⟩ := List.mem_filter.mp hmem
  obtain ⟨A, rest, heq⟩ := List.append_of_mem hmem
  have hfilter : m.gFilteredItemsArray =
      A.filter (m.shown env) ++ d :: rest.filter (m.shown env) := by
    rw [h.filtered, heq, List.filter_append, List.filter_cons_of_pos hshown]
  refine ⟨A, rest, heq, ?_, hfilter, ?_⟩
  · rw [h.realIndex A.length d]
    rw [heq, List.getElem?_append_right (Nat.le_refl _), Nat.sub_self]
    rfl
  · have hnodup : m.gFilteredItemsArray.Nodup := h.filtered ▸ h.nodup.filter _
    obtain ⟨hrow, hget⟩ := List.getElem?_eq_some_iff.mp hd
    have hat : m.gFilteredItemsArray[(A.filter (m.shown env)).length]? = some d := by
      rw [hfilter, List.getElem?_append_right (Nat.le_refl _), Nat.sub_self]
      rfl
    obtain ⟨hlt, hget'⟩ := List.getElem?_eq_some_iff.mp hat
    exact (List.Nodup.getElem_inj_iff hnodup).mp (hget'.trans hget.symm)

/-- The rows below a row, and what comes behind them. -/
theorem exists_below (m : Manager) (level : ℕ) (rows : List Ref) : ∃ S rest, rows = S ++ rest ∧
    (∀ z ∈ S, level < (m.item z).level) ∧ (∀ x ∈ rest.head?, (m.item x).level ≤ level) := by
  refine ⟨rows.takeWhile fun x => level < (m.item x).level,
    rows.dropWhile fun x => level < (m.item x).level, (List.takeWhile_append_dropWhile ..).symm,
    ?_, ?_⟩
  · intro z hz
    simpa using List.mem_takeWhile_imp hz
  · intro x hx
    have := List.head?_dropWhile_not (fun x => decide (level < (m.item x).level)) rows
    rw [Option.mem_def.mp hx] at this
    simpa using this

theorem countBelow_eq {level : ℕ} (hS : ∀ z ∈ S, level < (m.item z).level)
    (hrest : ∀ x ∈ rest.head?, (m.item x).level ≤ level) (hrow : A.length = row) :
    m.countBelow (A ++ d :: (S ++ rest)) row level = S.length := by
  rw [countBelow, ← hrow, List.append_cons, List.drop_left' (by simp),
    List.takeWhile_append_of_pos (by simpa using hS)]
  cases rest with
  | nil => simp
  | cons x rest => simpa using hrest x rfl

theorem spliceOut_eq (hrow : A.length = row) :
    spliceOut (A ++ d :: (S ++ rest)) (row + 1) S.length = A ++ d :: rest := by
  rw [spliceOut, List.append_cons, List.take_left' (by simp [hrow]), ← List.append_assoc,
    List.drop_left' (by simp [hrow]; omega)]
  simp

theorem spliceIn_eq (hrow : X.length = row) : spliceIn (X ++ Y) row new = X ++ new ++ Y := by
  rw [spliceIn, List.take_left' hrow, List.drop_left' hrow]

end Manager

end Kompozer.SiteManager

import Kompozer.TableEditor.Edits

/-! Splitting a cell (`SplitTableCell`, `SplitCellIntoColumns` and `SplitCellIntoRows` in
`nsTableEditor.cpp`). The calls of the document succeed. -/

namespace Kompozer.TableEditor

universe u

namespace Table

variable {α : Type u} [Inhabited α]

/-! ### The code -/

def SplitCellIntoColumns (T : Table α) (aRowIndex aColIndex aColSpanLeft aColSpanRight : ℕ) :
    Option (Table α) :=
  match T.GetCellDataAt aRowIndex aColIndex with
  | none => none
  | some cell =>
    if cell.actualColSpan ≤ 1 ∨ aColSpanLeft + aColSpanRight > cell.actualColSpan then some T
    else
      let T := T.SetColSpan cell.startRowIndex cell.offset aColSpanLeft
      some (T.InsertCell cell.startRowIndex cell.offset cell.actualRowSpan aColSpanRight true)

omit [Inhabited α] in
/-- The cell to insert before or after: `cell2`, `lastCellFound` and `insertAfter` behind the
`do … while (PR_TRUE)`. The first number bounds the turns. -/
def findCell (T : Table α) (rowBelowIndex startColIndex colCount : ℕ) :
    ℕ → ℕ → Bool → Option (CellData α) → Option (CellData α) × Option (CellData α) × Bool
  | 0, _, insertAfter, lastCellFound => (none, lastCellFound, insertAfter)
  | turns + 1, colIndex, insertAfter, lastCellFound =>
    let cell2 := T.GetCellDataAt rowBelowIndex colIndex
    let colIndex := colIndex + max (cell2.elim 0 CellData.actualColSpan) 1
    match cell2 with
    | none =>
      if colIndex > colCount then (none, lastCellFound, insertAfter)
      else findCell T rowBelowIndex startColIndex colCount turns colIndex insertAfter lastCellFound
    | some cell =>
      if cell.startRowIndex = rowBelowIndex then
        -- not spanned from above
        if insertAfter then
          if cell.startColIndex + cell.actualColSpan = startColIndex then
            (some cell, lastCellFound, true)
          else if cell.startColIndex > startColIndex then (some cell, lastCellFound, false)
          else if colIndex > colCount then (some cell, some cell, insertAfter)
          else findCell T rowBelowIndex startColIndex colCount turns colIndex insertAfter (some cell)
        else (some cell, lastCellFound, insertAfter)
      else if colIndex > colCount then (some cell, lastCellFound, insertAfter)
      else findCell T rowBelowIndex startColIndex colCount turns colIndex insertAfter lastCellFound

def SplitCellIntoRows (T : Table α) (aRowIndex aColIndex aRowSpanAbove aRowSpanBelow : ℕ) :
    Option (Table α) :=
  match T.GetCellDataAt aRowIndex aColIndex with
  | none => none
  | some cell =>
    if cell.actualRowSpan ≤ 1 ∨ aRowSpanAbove + aRowSpanBelow > cell.actualRowSpan then some T
    else
      let colCount := T.GetColCount
      let rowBelowIndex := cell.startRowIndex + aRowSpanAbove
      let found := T.findCell rowBelowIndex cell.startColIndex colCount (colCount + 2) 0
        (decide (cell.startColIndex > 0)) none
      -- behind the last cell found when there is none at the end
      let cell2 := found.1.or found.2.1
      let insertAfter := found.2.2 || found.1.isNone
      let T := T.SetRowSpan cell.startRowIndex cell.offset aRowSpanAbove
      cell2.map fun cell2 =>
        T.InsertCell cell2.startRowIndex cell2.offset aRowSpanBelow cell.actualColSpan insertAfter

/-- `for (colSpanAfter = actualColSpan-1; colSpanAfter > 0; colSpanAfter--)`. -/
def splitColumns (rowIndex : ℕ) : ℕ → ℕ → Table α → Option (Table α)
  | 0, _, T => some T
  | colSpanAfter + 1, colIndex, T =>
    (T.SplitCellIntoColumns rowIndex colIndex 1 (colSpanAfter + 1)).bind
      (splitColumns rowIndex colSpanAfter (colIndex + 1))

/-- `for (rowSpanBelow = actualRowSpan-1; rowSpanBelow >= 0; rowSpanBelow--)`. The first number is
one more than `rowSpanBelow`. -/
def splitRows (startColIndex actualColSpan : ℕ) : ℕ → ℕ → Table α → Option (Table α)
  | 0, _, T => some T
  | rowSpanBelow + 1, rowIndex, T =>
    ((if rowSpanBelow > 0 then T.SplitCellIntoRows rowIndex startColIndex 1 rowSpanBelow
      else some T).bind
      (splitColumns rowIndex (actualColSpan - 1) startColIndex)).bind
      (splitRows startColIndex actualColSpan rowSpanBelow (rowIndex + 1))

/-- The cell at the selection starts at a row and a column. -/
def SplitTableCell (T : Table α) (startRowIndex startColIndex : ℕ) : Option (Table α) :=
  match T.GetCellDataAt startRowIndex startColIndex with
  | none => none
  | some cell =>
    if cell.actualRowSpan ≤ 1 ∧ cell.actualColSpan ≤ 1 then some T
    else splitRows startColIndex cell.actualColSpan cell.actualRowSpan startRowIndex T

/-! ### Columns -/

variable {T : Table α} {W : ℕ → ℕ} {x : Placed α} {r c k a b : ℕ}

theorem insertCell_eq {offset : ℕ} {aAfter : Bool} (ha : 1 ≤ a) (hb : 1 ≤ b) :
    T.InsertCell r offset a b aAfter = T.editRow r fun cells =>
      cells.insertIdx (if aAfter then offset + 1 else offset) ⟨default, a, b⟩ := by
  have hspan : ∀ n, 1 ≤ n → (if n > 1 then n else 1) = n := by
    intro n hn
    split_ifs <;> omega
  rw [InsertCell, hspan a ha, hspan b hb]

/-- Behind the cell there is one with the columns that it loses. -/
theorem Tiled.splitCellIntoColumns (h : T.Tiled W) (hx : T.At x k)
    (hcovers : (blockOf T.groups x).Covers r c) (ha : 1 ≤ a) (hb : 1 ≤ b)
    (hsum : a + b = x.cell.colSpan) : ∃ T', T.SplitCellIntoColumns r c a b = some T' ∧
      T.SameRows T' ∧ T'.Tiled W ∧ ∀ t, t ∈ T'.placed ↔ t ∈ T.placed ∧ t ≠ x ∨
        t = ⟨x.row, x.col, x.cell.withColSpan a⟩ ∨
        t = ⟨x.row, x.col + a, ⟨default, (blockOf T.groups x).height, b⟩⟩ := by
  have hmem := mem_placed_iff.mpr ⟨k, hx⟩
  have hheight := one_le_height h.spanned hmem
  obtain ⟨xrow, hxrow, hxk⟩ := hx
  obtain ⟨hklt, hxget⟩ := List.getElem?_eq_some_iff.mp hxk
  have hxordered : Ordered xrow := ordered_of_mem_map h.spanned (List.mem_of_getElem? hxrow)
  have hgaps := ordered_of_mem_mapOf (List.mem_of_getElem? hxrow)
  let y : Placed α := ⟨x.row, x.col, x.cell.withColSpan a⟩
  let z : Placed α := ⟨x.row, x.col + a, ⟨default, (blockOf T.groups x).height, b⟩⟩
  have hleft : blockOf T.groups y = (blockOf T.groups x).left a := rfl
  have hright : blockOf T.groups z = (blockOf T.groups x).right a := by
    simp only [z, blockOf, blockAt, GridBlock.right, GridBlock.mk.injEq, true_and]
    omega
  have hwidth : a ≤ (blockOf T.groups x).width := by
    change a ≤ x.cell.colSpan
    omega
  have hk : k + 1 ≤ (xrow.modify k fun p => (p.1, p.2.withColSpan a)).length := by
    rw [List.length_modify]
    exact hklt
  have hordered : Ordered ((xrow.modify k fun p => (p.1, p.2.withColSpan a)).insertIdx
      (k + 1) (z.col, z.cell)) := by
    refine ordered_insert (ordered_set (fun _ => rfl) hxordered) hk (fun i hi p hp => ?_)
      fun i hi p hp => ?_
    · obtain ⟨q, hq, hqp⟩ := exists_of_getElem?_set hp
      obtain ⟨hilt, higet⟩ := List.getElem?_eq_some_iff.mp hq
      have hle : q.1 ≤ x.col := by
        rcases Nat.lt_or_eq_of_le (Nat.le_of_lt_succ hi) with hlt | rfl
        · have := List.pairwise_iff_getElem.mp hxordered i k hilt hklt hlt
          rw [higet, hxget] at this
          exact Nat.le_of_lt this
        · rw [hxget] at higet
          exact Nat.le_of_eq (congrArg Prod.fst higet.symm)
      change p.1 < x.col + a
      omega
    · obtain ⟨q, hq, hqp⟩ := exists_of_getElem?_set hp
      obtain ⟨hilt, higet⟩ := List.getElem?_eq_some_iff.mp hq
      have := List.pairwise_iff_getElem.mp hgaps k i hklt hilt hi
      rw [higet, hxget] at this
      change x.col + a < p.1
      simp only [] at this
      omega
  obtain ⟨hsame, htiled, hplaced⟩ := h.setAndInsert (y := y) (z := z) ⟨xrow, hxrow, hxk⟩ rfl
    (by rw [List.getElem?_modify_eq, hxrow]; rfl) hk hordered
    ⟨(h.spanned.one_le hmem).1, ha⟩ ⟨hheight, hb⟩
    (fun r c => by rw [hleft, hright]; exact GridBlock.covers_left_or_right hwidth)
    (fun r c => by rw [hleft, hright]; exact GridBlock.not_covers_left_right)
  refine ⟨_, ?_, hsame, htiled, hplaced⟩
  rw [SplitCellIntoColumns, h.getCellDataAt ⟨xrow, hxrow, hxk⟩ hcovers]
  simp only
  rw [if_neg (by omega), insertCell_eq hheight hb]
  rfl

/-! ### The place in the row below -/

section FindCell

variable {rowBelowIndex startColIndex colIndex turns n : ℕ} {insertAfter : Bool}
  {lastCellFound : Option (CellData α)} {row : MapRow α}

omit [Inhabited α]

/-- A cell of a row, and the side of it on which a cell of a column belongs. -/
def Belongs (row : MapRow α) (rowBelowIndex startColIndex : ℕ)
    (found : Option (CellData α) × Option (CellData α) × Bool) : Prop :=
  ∃ cell k, found.1.or found.2.1 = some cell ∧ cell.startRowIndex = rowBelowIndex ∧
    (if found.2.2 || found.1.isNone then cell.offset + 1 else cell.offset) = k ∧ k ≤ row.length ∧
    ∀ i p, row[i]? = some p → (i < k → p.1 < startColIndex) ∧ (k ≤ i → startColIndex < p.1)

/-- The cells of the row so far: how many there are, and the last of them. -/
structure Searching (T : Table α) (row : MapRow α) (rowBelowIndex startColIndex colIndex n : ℕ)
    (lastCellFound : Option (CellData α)) : Prop where
  le_length : n ≤ row.length
  before : ∀ i p, row[i]? = some p → i < n → p.1 < colIndex ∧ p.1 < startColIndex
  behind : ∀ i p, row[i]? = some p → n ≤ i → colIndex ≤ p.1
  boundary : ∀ y ∈ T.placed, (blockOf T.groups y).Covers rowBelowIndex colIndex → colIndex ≤ y.col
  last : n = 0 ∧ lastCellFound = none ∨ ∃ cell, lastCellFound = some cell ∧
    cell.startRowIndex = rowBelowIndex ∧ cell.offset + 1 = n

/-- By induction on the turns. -/
theorem Tiled.findCell_belongs (h : T.Tiled W) (hrow : T.map[rowBelowIndex]? = some row)
    (hne : row ≠ []) (hspanned : ∀ p ∈ row, p.1 ≠ startColIndex)
    (hafter : insertAfter = decide (startColIndex > 0))
    (hturns : T.GetColCount + 2 ≤ colIndex + turns) (hcol : colIndex ≤ T.GetColCount)
    (hsearch : Searching T row rowBelowIndex startColIndex colIndex n lastCellFound) :
    Belongs row rowBelowIndex startColIndex (T.findCell rowBelowIndex startColIndex T.GetColCount
      turns colIndex insertAfter lastCellFound) := by
  have hr : rowBelowIndex < T.rows.length := by
    rw [← length_map]
    exact (List.getElem?_eq_some_iff.mp hrow).1
  have hordered : Ordered row := ordered_of_mem_map h.spanned (List.mem_of_getElem? hrow)
  have hplaced : ∀ p ∈ row, (⟨rowBelowIndex, p.1, p.2⟩ : Placed α) ∈ T.placed :=
    fun p hp => ⟨row, hrow, hp⟩
  have horigin : ∀ p ∈ row, (blockOf T.groups ⟨rowBelowIndex, p.1, p.2⟩).Covers rowBelowIndex p.1 :=
    fun p hp => covers_origin h.spanned (hplaced p hp)
  induction turns generalizing colIndex n lastCellFound with
  | zero => omega
  | succ turns ih =>
    rw [findCell]
    rcases Nat.lt_or_ge colIndex (W rowBelowIndex) with hlt | hge
    · obtain ⟨y, hy, hcovers⟩ := (h.tiles.covers_iff hr).mpr hlt
      have hycol : y.col = colIndex :=
        Nat.le_antisymm hcovers.2.2.1 (hsearch.boundary y hy hcovers)
      have hyspan := (h.spanned.one_le hy).2
      obtain ⟨k, hk⟩ := mem_placed_iff.mp hy
      rw [h.getCellDataAt hk hcovers]
      have hnext : colIndex + max y.cell.colSpan 1 = y.col + y.cell.colSpan := by omega
      have hend : ¬y.col + y.cell.colSpan > T.GetColCount :=
        Nat.not_lt.mpr (Nat.le_trans (le_colsOf hy) (Nat.le_max_left _ _))
      have hboundary : ∀ z ∈ T.placed, (blockOf T.groups z).Covers rowBelowIndex
          (y.col + y.cell.colSpan) → y.col + y.cell.colSpan ≤ z.col := by
        intro z hz hzcovers
        by_contra hzcol
        have heq := h.tiles.unique (c := y.col + y.cell.colSpan - 1) hr hy hz
          ⟨hcovers.1, hcovers.2.1, by change y.col ≤ _; omega,
            by change _ < y.col + y.cell.colSpan; omega⟩
          ⟨hzcovers.1, hzcovers.2.1, by change z.col ≤ _; omega,
            by have := hzcovers.2.2.2; omega⟩
        rw [← heq] at hzcovers
        exact Nat.lt_irrefl _ hzcovers.2.2.2
      -- a cell of the row that starts under this one is this one
      have hinside : ∀ p ∈ row, y.col ≤ p.1 → p.1 < y.col + y.cell.colSpan →
          y = ⟨rowBelowIndex, p.1, p.2⟩ := by
        intro p hp hle hlt
        exact h.tiles.unique hr hy (hplaced p hp) ⟨hcovers.1, hcovers.2.1, hle, hlt⟩ (horigin p hp)
      have hnumber : y.row = rowBelowIndex → k = n ∧ row[n]? = some (y.col, y.cell) := by
        rintro rfl
        obtain ⟨row', hrow', hk⟩ := hk
        obtain rfl := Option.some.inj (hrow'.symm.trans hrow)
        obtain ⟨hklt, hkget⟩ := List.getElem?_eq_some_iff.mp hk
        rcases Nat.lt_trichotomy k n with hlt | rfl | hgt
        · have := (hsearch.before k _ hk hlt).1
          exact absurd this (by simp only []; omega)
        · exact ⟨rfl, hk⟩
        · have hnlt : n < row'.length := Nat.lt_trans hgt hklt
          have hle := hsearch.behind n _ (List.getElem?_eq_getElem hnlt) (Nat.le_refl n)
          have hcols := List.pairwise_iff_getElem.mp hordered n k hnlt hklt hgt
          rw [hkget] at hcols
          exact absurd hcols (by simp only []; omega)
      have hrest : ∀ i p, row[i]? = some p → n + 1 ≤ i → y.row = rowBelowIndex →
          y.col + y.cell.colSpan ≤ p.1 := by
        intro i p hp hi hown
        obtain ⟨-, hn⟩ := hnumber hown
        obtain ⟨hnlt, hnget⟩ := List.getElem?_eq_some_iff.mp hn
        obtain ⟨hilt, higet⟩ := List.getElem?_eq_some_iff.mp hp
        have hgap := List.pairwise_iff_getElem.mp
          (ordered_of_mem_mapOf (List.mem_of_getElem? hrow)) n i hnlt hilt hi
        rw [hnget, higet] at hgap
        exact hgap
      simp only [Option.elim_some, hnext, if_neg hend]
      split_ifs with hown hins hadjacent hright
      · -- the cell before the column
        obtain ⟨rfl, hn⟩ := hnumber hown
        refine ⟨_, k + 1, rfl, hown, rfl, (List.getElem?_eq_some_iff.mp hn).1, fun i p hp => ?_⟩
        have hpne := hspanned p (List.mem_of_getElem? hp)
        constructor
        · intro hi
          rcases Nat.lt_or_eq_of_le (Nat.le_of_lt_succ hi) with hlt | rfl
          · exact (hsearch.before i p hp hlt).2
          · rw [hn] at hp
            rw [← Option.some.inj hp]
            simp only []
            omega
        · intro hi
          have := hrest i p hp hi hown
          omega
      · -- a cell behind the column
        obtain ⟨rfl, hn⟩ := hnumber hown
        refine ⟨_, k, rfl, hown, rfl, hsearch.le_length, fun i p hp => ?_⟩
        refine ⟨fun hi => (hsearch.before i p hp hi).2, fun hi => ?_⟩
        have := hsearch.behind i p hp hi
        omega
      · obtain ⟨rfl, hn⟩ := hnumber hown
        have hmem := List.mem_of_getElem? hn
        have hne := hspanned _ hmem
        refine ih (by omega) (by omega) ⟨(List.getElem?_eq_some_iff.mp hn).1, fun i p hp hi => ?_,
          fun i p hp hi => hrest i p hp hi hown, hboundary, .inr ⟨_, rfl, hown, rfl⟩⟩
        rcases Nat.lt_or_eq_of_le (Nat.le_of_lt_succ hi) with hlt | rfl
        · have := hsearch.before i p hp hlt
          omega
        · rw [hn] at hp
          rw [← Option.some.inj hp]
          simp only [] at hne ⊢
          omega
      · -- the first cell of the row
        obtain ⟨rfl, hn⟩ := hnumber hown
        rw [hafter, decide_eq_true_iff] at hins
        refine ⟨_, k, rfl, hown, ?_, hsearch.le_length, fun i p hp => ?_⟩
        · rw [hafter, decide_eq_false hins]
          rfl
        · refine ⟨fun hi => (hsearch.before i p hp hi).2, fun _ => ?_⟩
          have := hspanned p (List.mem_of_getElem? hp)
          omega
      · refine ih (by omega) (by omega) ⟨hsearch.le_length, fun i p hp hi => ?_, fun i p hp hi => ?_,
          hboundary, hsearch.last⟩
        · have := hsearch.before i p hp hi
          omega
        · have hle := hsearch.behind i p hp hi
          by_contra hlt
          have heq := hinside p (List.mem_of_getElem? hp) (by omega) (by omega)
          rw [heq] at hown
          exact hown rfl
    · -- past the last column of the row
      have hall : n = row.length := by
        refine Nat.le_antisymm hsearch.le_length (Nat.le_of_not_lt fun hn => ?_)
        have hget := List.getElem?_eq_getElem hn
        have hmem := List.getElem_mem hn
        have hle := hsearch.behind n _ hget (Nat.le_refl n)
        have := h.tiles.lt_of_covers hr (hplaced _ hmem) (horigin _ hmem)
        omega
      rw [h.getCellDataAt_none fun _ => hge]
      simp only [Option.elim_none, Nat.zero_le, sup_of_le_right]
      split_ifs with hend
      · rcases hsearch.last with ⟨hn, -⟩ | ⟨cell, hlast, hcell, hoffset⟩
        · exact absurd (List.eq_nil_of_length_eq_zero (hall.symm.trans hn)) hne
        · refine ⟨cell, n, by rw [hlast]; rfl, hcell, ?_, hsearch.le_length, fun i p hp => ?_⟩
          · rw [Option.isNone_none, Bool.or_true]
            exact hoffset
          · refine ⟨fun hi => (hsearch.before i p hp hi).2, fun hi => ?_⟩
            have := (List.getElem?_eq_some_iff.mp hp).1
            omega
      · refine ih (by omega) (by omega) ⟨hsearch.le_length, fun i p hp hi => ?_, fun i p hp hi => ?_,
          fun y hy hcovers => ?_, hsearch.last⟩
        · have := hsearch.before i p hp hi
          omega
        · have := (List.getElem?_eq_some_iff.mp hp).1
          omega
        · have := h.tiles.lt_of_covers hr hy hcovers
          omega

theorem searching_zero : Searching T row rowBelowIndex startColIndex 0 0 none where
  le_length := Nat.zero_le _
  before _ _ _ hi := absurd hi (Nat.not_lt_zero _)
  behind _ _ _ _ := Nat.zero_le _
  boundary _ _ _ := Nat.zero_le _
  last := .inl ⟨rfl, rfl⟩

end FindCell

/-! ### Rows -/

/-- In a row below that has cells of its own there is one with the rows that the cell loses. -/
theorem Tiled.splitCellIntoRows (h : T.Tiled W) (hx : T.At x k)
    (hcovers : (blockOf T.groups x).Covers r c) (ha : 1 ≤ a) (hb : 1 ≤ b)
    (hsum : a + b = (blockOf T.groups x).height) (hbelow : ∃ y ∈ T.placed, y.row = x.row + a) :
    ∃ T', T.SplitCellIntoRows r c a b = some T' ∧ T.SameRows T' ∧ T'.Tiled W ∧
      ∀ t, t ∈ T'.placed ↔ t ∈ T.placed ∧ t ≠ x ∨
        t = ⟨x.row, x.col, x.cell.withRowSpan a⟩ ∨
        t = ⟨x.row + a, x.col, ⟨default, b, x.cell.colSpan⟩⟩ := by
  have hmem := mem_placed_iff.mpr ⟨k, hx⟩
  have hspan := h.spanned.one_le hmem
  have hrowlt := row_lt hmem
  rw [← length_groups] at hrowlt
  have hleft : (blockOf T.groups x).height ≤ rowsLeft T.groups x.row := Nat.min_le_right _ _
  let y : Placed α := ⟨x.row, x.col, x.cell.withRowSpan a⟩
  let z : Placed α := ⟨x.row + a, x.col, ⟨default, b, x.cell.colSpan⟩⟩
  have habove : blockOf T.groups y = (blockOf T.groups x).above a := by
    simp only [y, blockOf, blockAt, GridBlock.above, Cell.withRowSpan, GridBlock.mk.injEq, and_true,
      true_and]
    omega
  have hbelow' : blockOf T.groups z = (blockOf T.groups x).below a := by
    have hend := add_rowsLeft_eq (j := x.row + a) groups_sorted hrowlt (Nat.le_add_right _ _)
      (by omega)
    change _ = x.row + rowsLeft T.groups x.row at hend
    change a + b = min x.cell.rowSpan (rowsLeft T.groups x.row) at hsum
    simp only [z, blockOf, blockAt, GridBlock.below, GridBlock.mk.injEq, and_true, true_and]
    omega
  -- the row below, in which no cell starts in the column of the cell
  obtain ⟨u, hu, hurow⟩ := hbelow
  obtain ⟨row, hrow, humem⟩ := hu
  rw [hurow] at hrow
  have hordered : Ordered row := ordered_of_mem_map h.spanned (List.mem_of_getElem? hrow)
  have hspanned : ∀ p ∈ row, p.1 ≠ x.col := by
    intro p hp hpcol
    have hpmem : (⟨x.row + a, p.1, p.2⟩ : Placed α) ∈ T.placed := ⟨row, hrow, hp⟩
    have hporigin := covers_origin h.spanned hpmem
    simp only [hpcol] at hpmem hporigin
    have heq := h.tiles.unique (row_lt hpmem) hmem hpmem
      ⟨Nat.le_add_right _ _, by change x.row + a < x.row + _; omega, Nat.le_refl _,
        Nat.lt_add_of_pos_right hspan.2⟩ hporigin
    have := congrArg Placed.row heq
    simp only [] at this
    omega
  have hbelongs : Belongs row (x.row + a) x.col (T.findCell (x.row + a) x.col T.GetColCount
      (T.GetColCount + 2) 0 (decide (x.col > 0)) none) :=
    h.findCell_belongs hrow (List.ne_nil_of_mem humem) hspanned rfl (by omega) (Nat.zero_le _)
      searching_zero
  obtain ⟨cell, k', hcell, hcellrow, hoffset, hk', hplace⟩ := hbelongs
  have hrow' : (T.map.modify x.row fun row => row.modify k fun p =>
      (p.1, p.2.withRowSpan a))[x.row + a]? = some row := by
    rw [List.getElem?_modify_ne _ _ (by omega), hrow]
  obtain ⟨hsame, htiled, hplaced⟩ := h.setAndInsert (y := y) (z := z) hx rfl hrow' hk'
    (ordered_insert hordered hk' (fun i hi p hp => (hplace i p hp).1 hi)
      fun i hi p hp => (hplace i p hp).2 hi) ⟨ha, hspan.2⟩ ⟨hb, hspan.2⟩
    (fun r c => by rw [habove, hbelow']; exact GridBlock.covers_above_or_below (by omega))
    (fun r c => by rw [habove, hbelow']; exact GridBlock.not_covers_above_below)
  refine ⟨_, ?_, hsame, htiled, hplaced⟩
  rw [SplitCellIntoRows, h.getCellDataAt hx hcovers]
  simp only
  rw [if_neg (by omega), hcell, Option.map_some, insertCell_eq hb hspan.2, hcellrow, hoffset]
  rfl

/-! ### The whole cell -/

omit [Inhabited α] in
/-- No cell starts inside another. -/
theorem Tiled.not_mem_inside (h : T.Tiled W) (hx : x ∈ T.placed) {z : Placed α}
    (hcovers : (blockOf T.groups x).Covers z.row z.col) (hne : z ≠ x) : z ∉ T.placed := fun hz =>
  hne (h.tiles.unique (row_lt hz) hz hx (covers_origin h.spanned hz) hcovers)

/-- The cells that come of one row of a cell. -/
def columnPiece (T : Table α) (x : Placed α) (l : ℕ) : Placed α where
  row := x.row
  col := x.col + l
  cell := if l = 0 then x.cell.withColSpan 1 else ⟨default, (blockOf T.groups x).height, 1⟩

theorem Tiled.splitColumns (h : T.Tiled W) (hx : x ∈ T.placed) {n : ℕ}
    (hn : x.cell.colSpan = n + 1) : ∃ T', Table.splitColumns x.row n x.col T = some T' ∧
      T.SameRows T' ∧ T'.Tiled W ∧
      ∀ t, t ∈ T'.placed ↔ t ∈ T.placed ∧ t ≠ x ∨ ∃ l ≤ n, t = T.columnPiece x l := by
  induction n generalizing T x with
  | zero =>
    have hpiece : T.columnPiece x 0 = x := by
      have hcell : x.cell.withColSpan 1 = x.cell := by rw [← Nat.zero_add 1, ← hn]; rfl
      rw [columnPiece, if_pos rfl, hcell]
      rfl
    refine ⟨T, rfl, ⟨rfl, rfl⟩, h, fun t => ?_⟩
    constructor
    · intro ht
      by_cases hxt : t = x
      · exact .inr ⟨0, Nat.le_refl 0, hxt.trans hpiece.symm⟩
      · exact .inl ⟨ht, hxt⟩
    · rintro (⟨ht, -⟩ | ⟨l, hl, rfl⟩)
      · exact ht
      · rw [Nat.le_zero.mp hl, hpiece]
        exact hx
  | succ n ih =>
    obtain ⟨k, hk⟩ := mem_placed_iff.mp hx
    have horigin := covers_origin h.spanned hx
    obtain ⟨T₁, hrun, hsame, htiled, hplaced⟩ := h.splitCellIntoColumns (a := 1) (b := n + 1) hk
      horigin (Nat.le_refl 1) (Nat.succ_pos n) (by omega)
    let z : Placed α := ⟨x.row, x.col + 1, ⟨default, (blockOf T.groups x).height, n + 1⟩⟩
    have hz : z ∈ T₁.placed := (hplaced z).mpr (.inr (.inr rfl))
    have hinside : z ∉ T.placed := h.not_mem_inside hx
      ⟨horigin.1, horigin.2.1, Nat.le_succ _, by change x.col + 1 < x.col + x.cell.colSpan; omega⟩
      fun heq => absurd (congrArg Placed.col heq) (Nat.succ_ne_self _)
    have hheight : (blockOf T₁.groups z).height = (blockOf T.groups x).height := by
      rw [hsame.groups]
      exact Nat.min_eq_left (Nat.min_le_right _ _)
    obtain ⟨T₂, hrun', hsame', htiled', hplaced'⟩ := ih htiled hz rfl
    have hpiece : ∀ l, T₁.columnPiece z l = T.columnPiece x (l + 1) := by
      intro l
      rw [columnPiece, columnPiece, if_neg (Nat.succ_ne_zero l), hheight, Placed.mk.injEq]
      refine ⟨rfl, by change x.col + 1 + l = x.col + (l + 1); omega, ?_⟩
      split_ifs <;> rfl
    refine ⟨T₂, ?_, hsame.trans hsame', htiled', fun t => ?_⟩
    · rw [Table.splitColumns, hrun]
      exact hrun'
    · rw [hplaced', hplaced]
      constructor
      · rintro (⟨⟨ht, hne⟩ | rfl | rfl, hnez⟩ | ⟨l, hl, rfl⟩)
        · exact .inl ⟨ht, hne⟩
        · exact .inr ⟨0, Nat.zero_le _, rfl⟩
        · exact absurd rfl hnez
        · exact .inr ⟨l + 1, Nat.succ_le_succ hl, hpiece l⟩
      · rintro (⟨ht, hne⟩ | ⟨l, hl, rfl⟩)
        · exact .inl ⟨.inl ⟨ht, hne⟩, fun heq => hinside (heq ▸ ht)⟩
        · cases l with
          | zero =>
            refine .inl ⟨.inr (.inl rfl), fun heq => ?_⟩
            exact absurd (congrArg Placed.col heq) (Nat.succ_ne_self x.col).symm
          | succ l => exact .inr ⟨l, Nat.le_of_succ_le_succ hl, (hpiece l).symm⟩

/-- The cells that come of a cell of `m + 1` rows. -/
def piece (m : ℕ) (x : Placed α) (i l : ℕ) : Placed α where
  row := x.row + i
  col := x.col + l
  cell :=
    if i = 0 ∧ l = 0 then ⟨x.cell.content, if m = 0 then x.cell.rowSpan else 1, 1⟩
    else ⟨default, 1, 1⟩

theorem Tiled.splitRows (h : T.Tiled W) (hx : x ∈ T.placed) {m : ℕ}
    (hm : (blockOf T.groups x).height = m + 1)
    (hbelow : ∀ r, x.row < r → r ≤ x.row + m → ∃ y ∈ T.placed, y.row = r) :
    ∃ T', Table.splitRows x.col x.cell.colSpan (m + 1) x.row T = some T' ∧ T.SameRows T' ∧
      T'.Tiled W ∧ ∀ t, t ∈ T'.placed ↔ t ∈ T.placed ∧ t ≠ x ∨
        ∃ i ≤ m, ∃ l < x.cell.colSpan, t = piece m x i l := by
  have hspan := (h.spanned.one_le hx).2
  induction m generalizing T x with
  | zero =>
    obtain ⟨T', hrun, hsame, htiled, hplaced⟩ := h.splitColumns (n := x.cell.colSpan - 1) hx
      (by omega)
    refine ⟨T', ?_, hsame, htiled, fun t => ?_⟩
    · rw [Table.splitRows, if_neg (Nat.lt_irrefl 0), Option.bind_some, hrun]
      rfl
    · have hpiece : ∀ l, T.columnPiece x l = piece 0 x 0 l := by
        intro l
        rw [columnPiece, piece, hm]
        by_cases hl : l = 0
        · rw [if_pos hl, if_pos ⟨rfl, hl⟩]
          rfl
        · rw [if_neg hl, if_neg fun h => hl h.2]
          rfl
      rw [hplaced]
      refine or_congr_right ⟨?_, ?_⟩
      · rintro ⟨l, hl, rfl⟩
        exact ⟨0, Nat.le_refl 0, l, by omega, hpiece l⟩
      · rintro ⟨i, hi, l, hl, rfl⟩
        rw [Nat.le_zero.mp hi]
        exact ⟨l, by omega, (hpiece l).symm⟩
  | succ m ih =>
    obtain ⟨k, hk⟩ := mem_placed_iff.mp hx
    have horigin := covers_origin h.spanned hx
    obtain ⟨T₁, hrun, hsame, htiled, hplaced⟩ := h.splitCellIntoRows (a := 1) (b := m + 1) hk
      horigin (Nat.le_refl 1) (Nat.succ_pos m) (by omega) (hbelow _ (by omega) (by omega))
    let y : Placed α := ⟨x.row, x.col, x.cell.withRowSpan 1⟩
    let z : Placed α := ⟨x.row + 1, x.col, ⟨default, m + 1, x.cell.colSpan⟩⟩
    have hy : y ∈ T₁.placed := (hplaced y).mpr (.inr (.inl rfl))
    have hyz : y ≠ z := fun heq => absurd (congrArg Placed.row heq) (Nat.succ_ne_self _).symm
    have hleft : (blockOf T.groups x).height ≤ rowsLeft T.groups x.row := Nat.min_le_right _ _
    have hyheight : (blockOf T₁.groups y).height = 1 := by
      rw [hsame.groups]
      change min 1 (rowsLeft T.groups x.row) = 1
      omega
    obtain ⟨T₂, hrun₂, hsame₂, htiled₂, hplaced₂⟩ := htiled.splitColumns
      (n := x.cell.colSpan - 1) hy (by change x.cell.colSpan = _; omega)
    have hz : z ∈ T₂.placed :=
      (hplaced₂ z).mpr (.inl ⟨(hplaced z).mpr (.inr (.inr rfl)), hyz.symm⟩)
    have hzheight : (blockOf T₂.groups z).height = m + 1 := by
      have hrowlt := row_lt hx
      rw [← length_groups] at hrowlt
      have hend := add_rowsLeft_eq (j := x.row + 1) groups_sorted hrowlt (Nat.le_succ _) (by omega)
      rw [hsame₂.groups, hsame.groups]
      change min (m + 1) (rowsLeft T.groups (x.row + 1)) = m + 1
      omega
    have hbelow₂ : ∀ r, z.row < r → r ≤ z.row + m → ∃ y ∈ T₂.placed, y.row = r := by
      intro r hr hrm
      change x.row + 1 < r at hr
      change r ≤ x.row + 1 + m at hrm
      obtain ⟨u, hu, rfl⟩ := hbelow r (by omega) (by omega)
      refine ⟨u, (hplaced₂ u).mpr (.inl ⟨(hplaced u).mpr (.inl ⟨hu, ?_⟩), ?_⟩), rfl⟩
      · rintro rfl
        omega
      · intro heq
        have hurow : u.row = y.row := congrArg Placed.row heq
        change u.row = x.row at hurow
        omega
    obtain ⟨T₃, hrun₃, hsame₃, htiled₃, hplaced₃⟩ := ih htiled₂ hz hzheight hbelow₂ hspan
    have hinside : z ∉ T.placed := h.not_mem_inside hx
      ⟨Nat.le_succ _, by change x.row + 1 < x.row + (blockOf T.groups x).height; omega, Nat.le_refl _,
        horigin.2.2.2⟩ fun heq => absurd (congrArg Placed.row heq) (Nat.succ_ne_self _)
    have hcolumns : ∀ l, T₁.columnPiece y l = piece (m + 1) x 0 l := by
      intro l
      rw [columnPiece, piece, hyheight]
      by_cases hl : l = 0
      · rw [if_pos hl, if_pos ⟨rfl, hl⟩, if_neg (Nat.succ_ne_zero m)]
        rfl
      · rw [if_neg hl, if_neg fun h => hl h.2]
        rfl
    have hpiece : ∀ i l, piece m z i l = piece (m + 1) x (i + 1) l := by
      intro i l
      rw [piece, piece, if_neg (c := i + 1 = 0 ∧ l = 0) fun h => Nat.succ_ne_zero i h.1,
        Placed.mk.injEq]
      refine ⟨by change x.row + 1 + i = x.row + (i + 1); omega, rfl, ?_⟩
      split_ifs with hfirst hm
      · subst hm
        rfl
      · rfl
      · rfl
    refine ⟨T₃, ?_, (hsame.trans hsame₂).trans hsame₃, htiled₃, fun t => ?_⟩
    · rw [Table.splitRows, if_pos (Nat.succ_pos m), hrun, Option.bind_some, hrun₂]
      exact hrun₃
    · rw [hplaced₃, hplaced₂, hplaced]
      constructor
      · rintro (⟨⟨⟨ht, hne⟩ | rfl | rfl, hney⟩ | ⟨l, hl, rfl⟩, hnez⟩ | ⟨i, hi, l, hl, rfl⟩)
        · exact .inl ⟨ht, hne⟩
        · exact absurd rfl hney
        · exact absurd rfl hnez
        · exact .inr ⟨0, Nat.zero_le _, l, by omega, hcolumns l⟩
        · exact .inr ⟨i + 1, Nat.succ_le_succ hi, l, hl, hpiece i l⟩
      · rintro (⟨ht, hne⟩ | ⟨i, hi, l, hl, rfl⟩)
        · refine .inl ⟨.inl ⟨.inl ⟨ht, hne⟩, ?_⟩, fun heq => hinside (heq ▸ ht)⟩
          intro heq
          exact hne (h.tiles.unique (row_lt ht) ht hx (covers_origin h.spanned ht)
            (heq ▸ horigin))
        · cases i with
          | zero =>
            refine .inl ⟨.inr ⟨l, by omega, (hcolumns l).symm⟩, fun heq => ?_⟩
            exact absurd (congrArg Placed.row heq) (Nat.succ_ne_self x.row).symm
          | succ i => exact .inr ⟨i, Nat.le_of_succ_le_succ hi, l, hl, (hpiece i l).symm⟩

/-- The cell becomes cells of one row and one column that cover its places, its content in the first
of them, and every other cell is where it was. -/
theorem splitTableCell_exact (h : T.Rectangular) (hrows : T.RowsOriginate) (hx : x ∈ T.placed) :
    ∃ T', T.SplitTableCell x.row x.col = some T' ∧ T.SameRows T' ∧ T'.Rectangular ∧
      (∀ t ∈ T.placed, t ≠ x → t ∈ T'.placed) ∧
      (∀ i < (blockOf T.groups x).height, ∀ l < (blockOf T.groups x).width, ∃ t ∈ T'.placed,
        blockOf T'.groups t = ⟨x.row + i, x.col + l, 1, 1⟩ ∧
          t.cell.content = if i = 0 ∧ l = 0 then x.cell.content else default) ∧
      ∀ t ∈ T'.placed, t ∈ T.placed ∧ t ≠ x ∨ (blockOf T.groups x).Covers t.row t.col := by
  obtain ⟨k, hk⟩ := mem_placed_iff.mp hx
  have hspan := h.spanned.one_le hx
  have hheight := one_le_height h.spanned hx
  have hend := add_height_le hx
  have hlen : 0 < T.rows.length := by omega
  obtain ⟨T', hrun, hsame, htiled, hplaced⟩ := h.splitRows (m := (blockOf T.groups x).height - 1) hx
    (by omega) fun r hr hrm => hrows.exists_placed (by omega)
  have hrows' : T.SplitTableCell x.row x.col = some T' := by
    have hcount : (blockOf T.groups x).height - 1 + 1 = (blockOf T.groups x).height := by omega
    rw [hcount] at hrun
    rw [SplitTableCell, h.getCellDataAt hk (covers_origin h.spanned hx)]
    simp only
    split_ifs with hsingle
    · rw [Nat.le_antisymm hsingle.1 hheight, Nat.le_antisymm hsingle.2 hspan.2] at hrun
      exact hrun
    · exact hrun
  have hcols : T'.GetColCount = T.GetColCount := by
    rw [htiled.getColCount (by rw [hsame.length]; exact hlen), hsame.colElements]
    exact Nat.max_eq_left (Nat.le_max_right _ _)
  refine ⟨T', hrows', hsame, by rw [Rectangular, hcols]; exact htiled, fun t ht hne =>
    (hplaced t).mpr (.inl ⟨ht, hne⟩), fun i hi l hl => ?_, fun t ht => ?_⟩
  · refine ⟨_, (hplaced _).mpr (.inr ⟨i, by omega, l, hl, rfl⟩), ?_, ?_⟩
    · have hleft : 1 ≤ rowsLeft T.groups (x.row + i) :=
        one_le_rowsLeft groups_sorted (by rw [length_groups]; omega)
      rw [hsame.groups, piece]
      split_ifs with hfirst hone
      · have hheight' : min x.cell.rowSpan (rowsLeft T.groups x.row) = 1 := by
          change (blockOf T.groups x).height = 1
          omega
        rw [hfirst.1, hfirst.2]
        exact congrArg (fun height => GridBlock.mk x.row x.col height 1) hheight'
      · exact congrArg (fun height => GridBlock.mk (x.row + i) (x.col + l) height 1)
          (Nat.min_eq_left hleft)
      · exact congrArg (fun height => GridBlock.mk (x.row + i) (x.col + l) height 1)
          (Nat.min_eq_left hleft)
    · rw [piece]
      split_ifs <;> rfl
  · rcases (hplaced t).mp ht with hold | ⟨i, hi, l, hl, rfl⟩
    · exact .inl hold
    · refine .inr ⟨Nat.le_add_right _ _, ?_, Nat.le_add_right _ _, Nat.add_lt_add_left hl _⟩
      exact Nat.add_lt_add_left (by omega) _

/-- A cell of two rows and two columns, with a cell beside it in each row. -/
def twoByThree : Table ℕ where
  rows := [⟨0, [⟨1, 2, 2⟩, ⟨2, 1, 1⟩]⟩, ⟨0, [⟨3, 1, 1⟩]⟩]
  colElements := 0
  grouped := by decide

theorem mem_twoByThree {x : Placed ℕ} : x ∈ twoByThree.placed ↔
    x = ⟨0, 0, ⟨1, 2, 2⟩⟩ ∨ x = ⟨0, 2, ⟨2, 1, 1⟩⟩ ∨ x = ⟨1, 2, ⟨3, 1, 1⟩⟩ := by
  have hmap : twoByThree.map = [[(0, ⟨1, 2, 2⟩), (2, ⟨2, 1, 1⟩)], [(2, ⟨3, 1, 1⟩)]] := rfl
  obtain ⟨r, c, cell⟩ := x
  rw [placed, hmap, mem_placedIn]
  rcases r with _ | _ | r <;> simp

theorem twoByThree_rectangular : twoByThree.Rectangular where
  spanned := by
    intro row hrow cell hcell
    obtain ⟨r, hr⟩ := List.getElem?_of_mem hrow
    change [[(⟨1, 2, 2⟩ : Cell ℕ), ⟨2, 1, 1⟩], [⟨3, 1, 1⟩]][r]? = some row at hr
    rcases r with _ | _ | r <;> simp at hr <;> subst hr <;> simp at hcell
    · rcases hcell with rfl | rfl <;> decide
    · subst hcell
      decide
  tiles :=
    { covers_iff := by
        intro r c hr
        change r < 2 at hr
        change _ ↔ c < 3
        simp only [mem_twoByThree]
        constructor
        · rintro ⟨x, rfl | rfl | rfl, hcovers⟩
          all_goals
            have := hcovers.2.2.2
            simp only [blockOf, blockAt] at this
            omega
        · intro hc
          interval_cases r <;> interval_cases c
          · exact ⟨_, .inl rfl, by decide⟩
          · exact ⟨_, .inl rfl, by decide⟩
          · exact ⟨_, .inr (.inl rfl), by decide⟩
          · exact ⟨_, .inl rfl, by decide⟩
          · exact ⟨_, .inl rfl, by decide⟩
          · exact ⟨_, .inr (.inr rfl), by decide⟩
      unique := by
        intro r c _ x y hx hy hxcovers hycovers
        have hleft : rowsLeft twoByThree.groups 0 = 2 := rfl
        rcases mem_twoByThree.mp hx with rfl | rfl | rfl <;>
          rcases mem_twoByThree.mp hy with rfl | rfl | rfl
        all_goals
          simp only [GridBlock.Covers, blockOf, blockAt, hleft] at hxcovers hycovers
          first
          | rfl
          | omega }

theorem splitTableCell_twoByThree : ∃ T', twoByThree.SplitTableCell 0 0 = some T' ∧
    T'.Rectangular := by
  obtain ⟨T', hrun, -, hrectangular, -⟩ := splitTableCell_exact twoByThree_rectangular
    (by simp [RowsOriginate, twoByThree]) (mem_twoByThree.mpr (.inl rfl))
  exact ⟨T', hrun, hrectangular⟩

end Table

end Kompozer.TableEditor

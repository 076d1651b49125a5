import Mathlib

/-! The selection of a block of cells (`nsHTMLEditor::SelectBlockOfCells` in `nsTableEditor.cpp`).
The ranges of the selection are those of cells, and the calls of the layout and of the selection
succeed. -/

namespace Kompozer.Editor

universe u

/-! ### The layout -/

/-- The cells of the tables of a document, as the layout has them. -/
structure TableLayout (ν : Type u) where
  /-- The table a cell is in. -/
  table : ν → ℕ
  rowIndex : ν → ℕ
  colIndex : ν → ℕ
  actualColSpan : ν → ℕ
  /-- The cell that covers a place of the cell map. -/
  cellAt : ℕ → ℕ → ℕ → Option ν
  /-- The places of the cells in the document. -/
  place : ν → ℕ
  table_eq : ∀ {t row col cell}, cellAt t row col = some cell → table cell = t
  /-- A cell that covers a place originates at one that it covers. -/
  originates : ∀ {t row col cell}, cellAt t row col = some cell →
    cellAt t (rowIndex cell) (colIndex cell) = some cell

namespace TableLayout

variable {ν : Type u} (L : TableLayout ν)

/-- `GetCellDataAt`: the cell, where it starts, and its actual column span. -/
def GetCellDataAt (t row col : ℕ) : Option ν × ℕ × ℕ × ℕ :=
  match L.cellAt t row col with
  | none => (none, 0, 0, 0)
  | some cell => (some cell, L.rowIndex cell, L.colIndex cell, L.actualColSpan cell)

variable [DecidableEq ν] in
/-- The range of a cell comes to its place among the ranges, unless it is there. -/
def AddRange (cell : ν) (sel : List ν) : List ν :=
  if cell ∈ sel then sel else sel.orderedInsert (fun x y => L.place x ≤ L.place y) cell

/-- `while (cell)`, with the cell of the range before `mSelectedCellIndex`. The first number bounds
the turns. -/
def removeOthers (maxRow maxColumn : ℕ) : ℕ → ν → ℕ → List ν → List ν
  | 0, _, _, sel => sel
  | turns + 1, cell, mSelectedCellIndex, sel =>
    let currentRowIndex := L.rowIndex cell
    let currentColIndex := L.colIndex cell
    let (sel, mSelectedCellIndex) :=
      if currentRowIndex < maxRow ∨ currentRowIndex > maxRow ∨
          currentColIndex < maxColumn ∨ currentColIndex > maxColumn then
        (sel.eraseIdx (mSelectedCellIndex - 1), mSelectedCellIndex - 1)
      else (sel, mSelectedCellIndex)
    -- `GetNextSelectedCell`
    match sel[mSelectedCellIndex]? with
    | none => sel
    | some cell => removeOthers maxRow maxColumn turns cell (mSelectedCellIndex + 1) sel

variable [DecidableEq ν] in
/-- `for (col = minColumn; col <= maxColumn; col += PR_MAX(actualColSpan, 1))`. The first number
bounds the turns. -/
def selectInRow (t row maxColumn : ℕ) : ℕ → ℕ → List ν → List ν
  | 0, _, sel => sel
  | turns + 1, col, sel =>
    if col ≤ maxColumn then
      let (cell, currentRowIndex, currentColIndex, actualColSpan) := L.GetCellDataAt t row col
      let sel := match cell with
        | none => sel
        | some cell =>
          if cell ∉ sel ∧ row = currentRowIndex ∧ col = currentColIndex then L.AddRange cell sel
          else sel
      selectInRow t row maxColumn turns (col + max actualColSpan 1) sel
    else sel

variable [DecidableEq ν] in
def SelectBlockOfCells (aStartCell aEndCell : ν) (sel : List ν) : List ν :=
  if L.table aStartCell ≠ L.table aEndCell then sel
  else
    let startRowIndex := L.rowIndex aStartCell
    let startColIndex := L.colIndex aStartCell
    let endRowIndex := L.rowIndex aEndCell
    let endColIndex := L.colIndex aEndCell
    let minColumn := min startColIndex endColIndex
    let minRow := min startRowIndex endRowIndex
    let maxColumn := max startColIndex endColIndex
    let maxRow := max startRowIndex endRowIndex
    -- `GetFirstSelectedCell`
    match sel[0]? with
    | none => sel
    | some cell =>
      let sel := L.removeOthers maxRow maxColumn sel.length cell 1 sel
      (List.range' minRow (maxRow + 1 - minRow)).foldl
        (fun sel row =>
          L.selectInRow (L.table aStartCell) row maxColumn (maxColumn + 1 - minColumn) minColumn
            sel)
        sel

/-! ### What the block is -/

/-- A cell of a table. -/
def IsCell (t : ℕ) (cell : ν) : Prop :=
  L.cellAt t (L.rowIndex cell) (L.colIndex cell) = some cell

/-- The origin of a cell is in the rectangle of the origins of two. -/
def InBlock (a b cell : ν) : Prop :=
  min (L.rowIndex a) (L.rowIndex b) ≤ L.rowIndex cell ∧
    L.rowIndex cell ≤ max (L.rowIndex a) (L.rowIndex b) ∧
    min (L.colIndex a) (L.colIndex b) ≤ L.colIndex cell ∧
    L.colIndex cell ≤ max (L.colIndex a) (L.colIndex b)

/-- The cells of the block are selected, each once, and no other. -/
def ExactBlock (t : ℕ) (a b : ν) (sel : List ν) : Prop :=
  sel.Nodup ∧ ∀ cell, cell ∈ sel ↔ L.IsCell t cell ∧ L.InBlock a b cell

/-- The columns from one on, each behind the one before by the span of the cell that covers it, or
by one where there is none. -/
inductive Steps (t row : ℕ) : ℕ → ℕ → Prop
  | refl (col : ℕ) : Steps t row col col
  | step {col last : ℕ} (h : Steps t row (col + max (L.GetCellDataAt t row col).2.2.2 1) last) :
    Steps t row col last

/-- The last row and the last column. -/
def AtCorner (a b cell : ν) : Prop :=
  L.rowIndex cell = max (L.rowIndex a) (L.rowIndex b) ∧
    L.colIndex cell = max (L.colIndex a) (L.colIndex b)

/-! ### What is removed -/

section Removal

variable {L} {maxRow maxColumn turns : ℕ} {cell : ν} {front back : List ν}

/-- The cell of the last row and column stays. -/
def stays (L : TableLayout ν) (maxRow maxColumn : ℕ) (cell : ν) : Bool :=
  L.rowIndex cell = maxRow && L.colIndex cell = maxColumn

theorem removeOthers_stays {i : ℕ} {sel : List ν} (h : L.stays maxRow maxColumn cell = true) :
    L.removeOthers maxRow maxColumn (turns + 1) cell i sel =
      (sel[i]?).elim sel fun cell => L.removeOthers maxRow maxColumn turns cell (i + 1) sel := by
  simp only [stays, Bool.and_eq_true, decide_eq_true_iff] at h
  have hnot : ¬(L.rowIndex cell < maxRow ∨ L.rowIndex cell > maxRow ∨
      L.colIndex cell < maxColumn ∨ L.colIndex cell > maxColumn) := by omega
  rw [removeOthers]
  simp only [if_neg hnot]
  cases sel[i]? <;> rfl

theorem removeOthers_goes {i : ℕ} {sel : List ν} (h : ¬L.stays maxRow maxColumn cell = true) :
    L.removeOthers maxRow maxColumn (turns + 1) cell i sel =
      ((sel.eraseIdx (i - 1))[i - 1]?).elim (sel.eraseIdx (i - 1)) fun cell =>
        L.removeOthers maxRow maxColumn turns cell (i - 1 + 1) (sel.eraseIdx (i - 1)) := by
  simp only [stays, Bool.and_eq_true, decide_eq_true_iff] at h
  have hout : L.rowIndex cell < maxRow ∨ L.rowIndex cell > maxRow ∨
      L.colIndex cell < maxColumn ∨ L.colIndex cell > maxColumn := by omega
  rw [removeOthers]
  simp only [if_pos hout]
  cases (sel.eraseIdx (i - 1))[i - 1]? <;> rfl

/-- The index stays where it is when a range before it is removed. By induction on the ranges that
are left. -/
theorem removeOthers_eq (hturns : back.length < turns) :
    L.removeOthers maxRow maxColumn turns cell (front.length + 1) (front ++ cell :: back) =
      front ++ (cell :: back).filter (L.stays maxRow maxColumn) := by
  induction back generalizing front cell turns with
  | nil =>
    obtain ⟨turns, rfl⟩ := Nat.exists_eq_succ_of_ne_zero (Nat.ne_of_gt hturns)
    by_cases hstays : L.stays maxRow maxColumn cell = true
    · have hend : (front ++ [cell])[front.length + 1]? = none := by simp
      rw [removeOthers_stays hstays, hend, List.filter_cons_of_pos hstays]
      rfl
    · have herase : (front ++ [cell]).eraseIdx (front.length + 1 - 1) = front := by
        simp [List.eraseIdx_append_of_length_le]
      have hend : front[front.length + 1 - 1]? = none := by simp
      rw [removeOthers_goes hstays, herase, hend, List.filter_cons_of_neg hstays]
      exact (List.append_nil front).symm
  | cons next back ih =>
    obtain ⟨turns, rfl⟩ := Nat.exists_eq_succ_of_ne_zero (Nat.ne_of_gt (Nat.zero_lt_of_lt hturns))
    rw [List.length_cons] at hturns
    by_cases hstays : L.stays maxRow maxColumn cell = true
    · have hnext : (front ++ cell :: next :: back)[front.length + 1]? = some next := by simp
      have ih := @ih turns next (front ++ [cell]) (by omega)
      rw [List.length_append, List.length_singleton, List.append_assoc, List.append_assoc] at ih
      rw [removeOthers_stays hstays, hnext, List.filter_cons_of_pos hstays]
      exact ih
    · have herase : (front ++ cell :: next :: back).eraseIdx (front.length + 1 - 1) =
          front ++ next :: back := by
        simp [List.eraseIdx_append_of_length_le]
      have hnext : (front ++ next :: back)[front.length + 1 - 1]? = some next := by simp
      rw [removeOthers_goes hstays, herase, hnext, List.filter_cons_of_neg hstays]
      exact ih (by omega)

end Removal

/-! ### What is added -/

section Addition

variable {L} {t row col last maxColumn turns : ℕ} {cell x : ν} {sel rest : List ν}

variable [DecidableEq ν] in
theorem mem_addRange : x ∈ L.AddRange cell sel ↔ x = cell ∨ x ∈ sel := by
  unfold AddRange
  split_ifs with hmem
  · constructor
    · exact .inr
    · rintro (rfl | h)
      · exact hmem
      · exact h
  · rw [List.mem_orderedInsert]

variable [DecidableEq ν] in
theorem nodup_addRange (h : sel.Nodup) : (L.AddRange cell sel).Nodup := by
  unfold AddRange
  split_ifs with hmem
  · exact h
  · rw [(List.perm_orderedInsert _ cell sel).nodup_iff, List.nodup_cons]
    exact ⟨hmem, h⟩

theorem Steps.le (h : L.Steps t row col last) : col ≤ last := by
  induction h with
  | refl => exact Nat.le_refl _
  | step _ ih => omega

theorem steps_iff : L.Steps t row col last ↔
    last = col ∨ L.Steps t row (col + max (L.GetCellDataAt t row col).2.2.2 1) last := by
  constructor
  · intro h
    cases h with
    | refl => exact .inl rfl
    | step h => exact .inr h
  · rintro (rfl | h)
    · exact .refl _
    · exact .step h

/-- A cell that the walk over a row comes to. -/
def Found (L : TableLayout ν) (t row col maxColumn : ℕ) (x : ν) : Prop :=
  L.IsCell t x ∧ L.rowIndex x = row ∧ L.colIndex x ≤ maxColumn ∧ L.Steps t row col (L.colIndex x)

variable [DecidableEq ν]

/-- The cell of one place is added, if it starts there. -/
def selectAt (L : TableLayout ν) (t row col : ℕ) (sel : List ν) : List ν :=
  (L.cellAt t row col).elim sel fun cell =>
    if cell ∉ sel ∧ row = L.rowIndex cell ∧ col = L.colIndex cell then L.AddRange cell sel else sel

theorem selectInRow_step (h : col ≤ maxColumn) :
    L.selectInRow t row maxColumn (turns + 1) col sel =
      L.selectInRow t row maxColumn turns (col + max (L.GetCellDataAt t row col).2.2.2 1)
        (L.selectAt t row col sel) := by
  rw [selectInRow, if_pos h]
  unfold GetCellDataAt selectAt
  cases L.cellAt t row col <;> rfl

theorem selectInRow_end (h : ¬col ≤ maxColumn) :
    L.selectInRow t row maxColumn turns col sel = sel := by
  cases turns with
  | zero => rfl
  | succ turns => rw [selectInRow, if_neg h]

theorem mem_selectAt : x ∈ L.selectAt t row col sel ↔
    x ∈ sel ∨ L.IsCell t x ∧ L.rowIndex x = row ∧ L.colIndex x = col := by
  have hcell : L.IsCell t x ∧ L.rowIndex x = row ∧ L.colIndex x = col ↔
      L.cellAt t row col = some x ∧ row = L.rowIndex x ∧ col = L.colIndex x := by
    unfold IsCell
    constructor
    · rintro ⟨h, rfl, rfl⟩
      exact ⟨h, rfl, rfl⟩
    · rintro ⟨h, rfl, rfl⟩
      exact ⟨h, rfl, rfl⟩
  rw [hcell, selectAt]
  cases hat : L.cellAt t row col with
  | none => simp
  | some cell =>
    rw [Option.elim_some]
    split_ifs with hadd
    · rw [mem_addRange, Option.some.injEq]
      constructor
      · rintro (rfl | h)
        · exact .inr ⟨rfl, hadd.2⟩
        · exact .inl h
      · rintro (h | ⟨rfl, -⟩)
        · exact .inr h
        · exact .inl rfl
    · constructor
      · exact .inl
      · rintro (h | ⟨hx, hplace⟩)
        · exact h
        · obtain rfl := Option.some.inj hx
          by_contra hno
          exact hadd ⟨hno, hplace⟩

theorem nodup_selectAt (h : sel.Nodup) : (L.selectAt t row col sel).Nodup := by
  unfold selectAt
  cases L.cellAt t row col with
  | none => exact h
  | some cell =>
    rw [Option.elim_some]
    split_ifs
    · exact nodup_addRange h
    · exact h

/-- By induction on the turns of the walk over the row. -/
theorem mem_selectInRow (hturns : maxColumn + 1 ≤ col + turns) :
    x ∈ L.selectInRow t row maxColumn turns col sel ↔ x ∈ sel ∨ L.Found t row col maxColumn x := by
  induction turns generalizing col sel with
  | zero =>
    have hnone : ¬L.Found t row col maxColumn x := by
      rintro ⟨-, -, hle, hsteps⟩
      have := hsteps.le
      omega
    rw [selectInRow, or_iff_left hnone]
  | succ turns ih =>
    by_cases hcol : col ≤ maxColumn
    · rw [selectInRow_step hcol, ih (by omega), mem_selectAt, or_assoc]
      refine or_congr_right ?_
      unfold Found
      rw [@steps_iff _ L t row col]
      constructor
      · rintro (⟨hcell, hrow, heq⟩ | ⟨hcell, hrow, hle, hsteps⟩)
        · exact ⟨hcell, hrow, by omega, .inl heq⟩
        · exact ⟨hcell, hrow, hle, .inr hsteps⟩
      · rintro ⟨hcell, hrow, hle, heq | hsteps⟩
        · exact .inl ⟨hcell, hrow, heq⟩
        · exact .inr ⟨hcell, hrow, hle, hsteps⟩
    · have hnone : ¬L.Found t row col maxColumn x := by
        rintro ⟨-, -, hle, hsteps⟩
        have := hsteps.le
        omega
      rw [selectInRow_end hcol, or_iff_left hnone]

theorem nodup_selectInRow (h : sel.Nodup) :
    (L.selectInRow t row maxColumn turns col sel).Nodup := by
  induction turns generalizing col sel with
  | zero => exact h
  | succ turns ih =>
    by_cases hcol : col ≤ maxColumn
    · rw [selectInRow_step hcol]
      exact ih (nodup_selectAt h)
    · rw [selectInRow_end hcol]
      exact h

theorem mem_selectRows {rows : List ℕ} (hturns : maxColumn + 1 ≤ col + turns) :
    x ∈ rows.foldl (fun sel row => L.selectInRow t row maxColumn turns col sel) sel ↔
      x ∈ sel ∨ L.rowIndex x ∈ rows ∧ L.Found t (L.rowIndex x) col maxColumn x := by
  induction rows generalizing sel with
  | nil => simp
  | cons row rows ih =>
    rw [List.foldl_cons, ih, mem_selectInRow hturns, or_assoc, List.mem_cons, or_and_right]
    refine or_congr_right (or_congr_left ?_)
    constructor
    · intro hfound
      have hrow := hfound.2.1
      exact ⟨hrow, hrow ▸ hfound⟩
    · rintro ⟨hrow, hfound⟩
      exact hrow ▸ hfound

theorem nodup_selectRows {rows : List ℕ} (h : sel.Nodup) :
    (rows.foldl (fun sel row => L.selectInRow t row maxColumn turns col sel) sel).Nodup := by
  induction rows generalizing sel with
  | nil => exact h
  | cons row rows ih => exact ih (nodup_selectInRow h)

end Addition

/-! ### The block -/

variable [DecidableEq ν] {L} {t : ℕ} {a b : ν} {sel : List ν}

/-- The selection is that of the block exactly when the walk over each row comes to every cell that
begins in the block, but for one in the corner that was selected before; and no cell of another
table was selected that has the same indices as the corner. -/
theorem selectBlockOfCells_exact_iff (ha : L.IsCell t a) (hb : L.IsCell t b) (hne : sel ≠ [])
    (hnodup : sel.Nodup) : L.ExactBlock t a b (L.SelectBlockOfCells a b sel) ↔
      (∀ cell, L.IsCell t cell → L.InBlock a b cell → cell ∈ sel ∧ L.AtCorner a b cell ∨
        L.Steps t (L.rowIndex cell) (min (L.colIndex a) (L.colIndex b)) (L.colIndex cell)) ∧
      ∀ cell ∈ sel, L.AtCorner a b cell → L.IsCell t cell := by
  obtain ⟨first, rest, rfl⟩ := List.exists_cons_of_ne_nil hne
  have htable : L.table a = t := L.table_eq ha
  have hkept : L.removeOthers (max (L.rowIndex a) (L.rowIndex b))
      (max (L.colIndex a) (L.colIndex b)) (first :: rest).length first 1 (first :: rest) =
      (first :: rest).filter (L.stays (max (L.rowIndex a) (L.rowIndex b))
        (max (L.colIndex a) (L.colIndex b))) :=
    @removeOthers_eq _ L _ _ _ first [] rest (Nat.lt_succ_self _)
  have hrun : L.SelectBlockOfCells a b (first :: rest) =
      (List.range' (min (L.rowIndex a) (L.rowIndex b))
        (max (L.rowIndex a) (L.rowIndex b) + 1 - min (L.rowIndex a) (L.rowIndex b))).foldl
        (fun sel row => L.selectInRow t row (max (L.colIndex a) (L.colIndex b))
          (max (L.colIndex a) (L.colIndex b) + 1 - min (L.colIndex a) (L.colIndex b))
          (min (L.colIndex a) (L.colIndex b)) sel)
        ((first :: rest).filter (L.stays (max (L.rowIndex a) (L.rowIndex b))
          (max (L.colIndex a) (L.colIndex b)))) := by
    unfold SelectBlockOfCells
    rw [if_neg (by rw [htable, L.table_eq hb]; exact not_not.mpr rfl), htable, ← hkept]
    rfl
  have hmem : ∀ cell, cell ∈ L.SelectBlockOfCells a b (first :: rest) ↔
      cell ∈ first :: rest ∧ L.AtCorner a b cell ∨
      L.IsCell t cell ∧ L.InBlock a b cell ∧
        L.Steps t (L.rowIndex cell) (min (L.colIndex a) (L.colIndex b)) (L.colIndex cell) := by
    intro cell
    rw [hrun, mem_selectRows (by omega), List.mem_filter, List.mem_range'_1]
    refine or_congr (and_congr_right fun _ => ?_) ?_
    · rw [stays, Bool.and_eq_true, decide_eq_true_iff, decide_eq_true_iff]
      rfl
    · unfold Found InBlock
      constructor
      · rintro ⟨hrows, hcell, -, hle, hsteps⟩
        have hcol := hsteps.le
        exact ⟨hcell, by omega, hsteps⟩
      · rintro ⟨hcell, hin, hsteps⟩
        exact ⟨by omega, hcell, rfl, hin.2.2.2, hsteps⟩
  constructor
  · rintro ⟨-, hexact⟩
    refine ⟨fun cell hcell hin => ?_, fun cell hsel hcorner => ?_⟩
    · have hselected := (hmem cell).mp ((hexact cell).mpr ⟨hcell, hin⟩)
      exact hselected.imp_right fun h => h.2.2
    · exact ((hexact cell).mp ((hmem cell).mpr (.inl ⟨hsel, hcorner⟩))).1
  · rintro ⟨hsteps, hcorner⟩
    refine ⟨?_, fun cell => ?_⟩
    · rw [hrun]
      exact nodup_selectRows (hnodup.filter _)
    · rw [hmem]
      constructor
      · rintro (⟨hsel, hat⟩ | ⟨hcell, hin, -⟩)
        · refine ⟨hcorner cell hsel hat, ?_⟩
          unfold AtCorner at hat
          unfold InBlock
          omega
        · exact ⟨hcell, hin⟩
      · rintro ⟨hcell, hin⟩
        rcases hsteps cell hcell hin with hat | hat
        · exact .inl hat
        · exact .inr ⟨hcell, hin, hat⟩

/-- Three cells, and below them one that spans two columns and one more. -/
def twoRows : TableLayout ℕ where
  table _ := 0
  rowIndex cell := if cell < 3 then 0 else 1
  colIndex cell := if cell < 3 then cell else if cell = 3 then 0 else 2
  actualColSpan cell := if cell = 3 then 2 else 1
  cellAt t row col :=
    if t = 0 ∧ row = 0 ∧ col < 3 then some col
    else if t = 0 ∧ row = 1 ∧ col < 2 then some 3
    else if t = 0 ∧ row = 1 ∧ col = 2 then some 4
    else none
  place cell := cell
  table_eq := by
    intro t row col cell h
    split_ifs at h <;> simp_all
  originates := by
    intro t row col cell h
    split_ifs at h <;> simp_all
    all_goals subst h; simp

theorem twoRows_firstRow : twoRows.ExactBlock 0 0 2 (twoRows.SelectBlockOfCells 0 2 [4]) := by
  refine (selectBlockOfCells_exact_iff (by rfl) (by rfl) (by decide) (by decide)).mpr
    ⟨fun cell hcell hin => .inr ?_, fun cell hsel hcorner => ?_⟩
  · have hrow : twoRows.rowIndex cell = 0 := Nat.le_zero.mp hin.2.1
    have hcol : twoRows.colIndex cell ≤ 2 := hin.2.2.2
    rw [hrow]
    change twoRows.Steps 0 0 0 (twoRows.colIndex cell)
    interval_cases twoRows.colIndex cell
    · exact .refl 0
    · exact .step (.refl 1)
    · exact .step (.step (.refl 2))
  · obtain rfl := List.mem_singleton.mp hsel
    exact absurd hcorner.1 (by decide)

/-- The walk over the second row begins in the cell that spans two columns, and the next step is
over the end cell. -/
theorem not_exactBlock_twoRows :
    ¬∀ (L : TableLayout ℕ) (t a b : ℕ) (sel : List ℕ), L.IsCell t a → L.IsCell t b → sel ≠ [] →
      sel.Nodup → (∀ cell ∈ sel, L.IsCell t cell) →
      L.ExactBlock t a b (L.SelectBlockOfCells a b sel) := by
  intro hall
  have hexact := hall twoRows 0 1 4 [1] rfl rfl (by decide) (by decide) (by simp; rfl)
  have hend : 4 ∈ twoRows.SelectBlockOfCells 1 4 [1] :=
    (hexact.2 4).mpr ⟨rfl, by decide, by decide, by decide, by decide⟩
  exact absurd hend (by decide)

end TableLayout

end Kompozer.Editor

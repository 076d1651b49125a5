import Kompozer.Lib.Tiling

/-! The cell map of a table (`nsCellMap.cpp`) as the table editor reads it. The map is that of the
rows of the document as they stand, appended one after another. No span is zero. -/

namespace Kompozer.TableEditor

universe u

/-! ### Tables -/

structure Cell (α : Type u) where
  content : α
  rowSpan : ℕ
  colSpan : ℕ

/-- A row, with the index of its row group. -/
structure Row (α : Type u) where
  group : ℕ
  cells : List (Cell α)

/-- The rows of a table, one group after another, and the number of columns of its col elements. -/
structure Table (α : Type u) where
  rows : List (Row α)
  colElements : ℕ
  grouped : (rows.map Row.group).Pairwise (· ≤ ·)

namespace Table

variable {α : Type u}

def groups (T : Table α) : List ℕ := T.rows.map Row.group

def cells (T : Table α) : List (List (Cell α)) := T.rows.map Row.cells

/-- Every span is at least one. -/
def Spanned (T : Table α) : Prop :=
  ∀ row ∈ T.cells, ∀ cell ∈ row, 1 ≤ cell.rowSpan ∧ 1 ≤ cell.colSpan

end Table

/-! ### The map -/

section Map

variable {α : Type u}

/-- The rows from one on, to the end of its group. -/
def rowsLeft (groups : List ℕ) (r : ℕ) : ℕ :=
  ((groups.drop r).takeWhile fun group => groups[r]? = some group).length

/-- The cells of a row, each with the column where it starts. -/
abbrev MapRow (α : Type u) := List (ℕ × Cell α)

/-- The places that a cell of a row covers. Its row span ends with the group. -/
def blockAt (groups : List ℕ) (r : ℕ) (p : ℕ × Cell α) : GridBlock where
  row := r
  col := p.1
  height := min p.2.rowSpan (rowsLeft groups r)
  width := p.2.colSpan

/-- Whether the cells of the rows so far cover a place. -/
def covered (groups : List ℕ) (map : List (MapRow α)) (r c : ℕ) : Bool :=
  map.zipIdx.any fun row => row.1.any fun p => decide ((blockAt groups row.2 p).Covers r c)

/-- The number of columns that the cells so far need. -/
def colsOf (map : List (MapRow α)) : ℕ :=
  (map.flatten.map fun p => p.1 + p.2.colSpan).foldr max 0

/-- `for (; startColIndex < origNumCols; startColIndex++)`. The first number is that of the columns
that are left. -/
def firstFree (taken : ℕ → Bool) : ℕ → ℕ → ℕ
  | 0, startColIndex => startColIndex
  | left + 1, startColIndex =>
    if taken startColIndex then firstFree taken left (startColIndex + 1) else startColIndex

/-- `nsCellMap::AppendCell` for the cells of a row. -/
def appendCells (taken : ℕ → Bool) (origNumCols : ℕ) : List (Cell α) → MapRow α
  | [] => []
  | cell :: cells =>
    let startColIndex := firstFree taken origNumCols 0
    (startColIndex, cell) :: appendCells
      (fun c => taken c || decide (startColIndex ≤ c ∧ c < startColIndex + cell.colSpan))
      (max origNumCols (startColIndex + cell.colSpan)) cells

def appendRow (groups : List ℕ) (map : List (MapRow α)) (cells : List (Cell α)) :
    List (MapRow α) :=
  map ++ [appendCells (covered groups map map.length) (colsOf map) cells]

def mapOf (groups : List ℕ) (rows : List (List (Cell α))) : List (MapRow α) :=
  rows.foldl (appendRow groups) []

/-- A cell in the map. -/
structure Placed (α : Type u) where
  row : ℕ
  col : ℕ
  cell : Cell α

def blockOf (groups : List ℕ) (x : Placed α) : GridBlock := blockAt groups x.row (x.col, x.cell)

def placedIn (map : List (MapRow α)) : Set (Placed α) :=
  {x | ∃ row, map[x.row]? = some row ∧ (x.col, x.cell) ∈ row}

end Map

/-! ### What the editor reads -/

/-- What `GetCellDataAt` returns of a cell, with its number among the cells of its row. -/
structure CellData (α : Type u) where
  startRowIndex : ℕ
  startColIndex : ℕ
  offset : ℕ
  cell : Cell α
  actualRowSpan : ℕ
  actualColSpan : ℕ

namespace Table

variable {α : Type u} (T : Table α)

def map : List (MapRow α) := mapOf T.groups T.cells

/-- The cells of the map. -/
def placed : Set (Placed α) := placedIn T.map

/-- The first cell of the map that covers a place: its row, its number there, and itself. -/
def cellAt (r c : ℕ) : Option (ℕ × ℕ × ℕ × Cell α) :=
  T.map.zipIdx.findSome? fun row => row.1.zipIdx.findSome? fun p =>
    if (blockAt T.groups row.2 p.1).Covers r c then some (row.2, p.2, p.1) else none

/-- Whether a cell of a row above, or of a column before, covers a place. -/
def IsRowSpan (r c : ℕ) : Bool :=
  T.map.zipIdx.any fun row => row.1.any fun p =>
    decide ((blockAt T.groups row.2 p).Covers r c ∧ row.2 < r)

def IsColSpan (r c : ℕ) : Bool :=
  T.map.zipIdx.any fun row => row.1.any fun p =>
    decide ((blockAt T.groups row.2 p).Covers r c ∧ p.1 < c)

/-- Whether a cell that starts in a column before was put over one of a row above. -/
def IsOverlap (r c : ℕ) : Bool :=
  (T.cellAt r c).any (fun first => first.1 < r && first.2.2.1 = c) && T.IsColSpan r c

def GetRowCount : ℕ := T.rows.length

def GetColCount : ℕ := max (colsOf T.map) T.colElements

/-- `for (rowX = aRowIndex + 1; rowX < rowCount; rowX++)`. The first number is that of the rows that
are left. -/
def rowSpanFrom (c : ℕ) : ℕ → ℕ → ℕ
  | 0, _ => 0
  | left + 1, rowX => if T.IsRowSpan rowX c then rowSpanFrom c left (rowX + 1) + 1 else 0

def GetEffectiveRowSpan (r c : ℕ) : ℕ := T.rowSpanFrom c (rowsLeft T.groups r - 1) (r + 1) + 1

/-- `for (colX = aColIndex + 1; colX < maxCols; colX++)`. The first number bounds the turns. -/
def colSpanFrom (r lastCol : ℕ) : ℕ → ℕ → ℕ → ℕ
  | 0, _, _ => 0
  | turns + 1, maxCols, colX =>
    if colX < maxCols then
      let maxCols := if T.IsOverlap r colX then min lastCol maxCols else maxCols
      if colX < maxCols ∧ T.IsColSpan r colX then
        colSpanFrom r lastCol turns maxCols (colX + 1) + 1
      else 0
    else 0

def GetEffectiveColSpan (r c : ℕ) (cell : Cell α) : ℕ :=
  T.colSpanFrom r (c + cell.colSpan) T.GetColCount T.GetColCount (c + 1) + 1

def GetCellDataAt (r c : ℕ) : Option (CellData α) :=
  (T.cellAt r c).map fun found =>
    { startRowIndex := found.1
      startColIndex := found.2.2.1
      offset := found.2.1
      cell := found.2.2.2
      actualRowSpan := T.GetEffectiveRowSpan found.1 found.2.2.1
      actualColSpan := T.GetEffectiveColSpan found.1 found.2.2.1 found.2.2.2 }

end Table

end Kompozer.TableEditor

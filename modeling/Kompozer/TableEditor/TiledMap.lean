import Kompozer.TableEditor.CellMap

/-! Where the cells of a table come to stand. When the rows of a map cover their places up to their
widths, each once, the map is that of the rows of its cells. -/

namespace Kompozer.TableEditor

universe u

variable {α : Type u}

/-! ### The first free column -/

section FirstFree

variable {taken : ℕ → Bool} {left start s : ℕ}

theorem taken_of_lt_firstFree {c : ℕ} (hstart : start ≤ c) (hc : c < firstFree taken left start) :
    taken c = true := by
  induction left generalizing start with
  | zero => exact absurd hc (Nat.not_lt.mpr hstart)
  | succ left ih =>
    rw [firstFree] at hc
    split_ifs at hc with htaken
    · rcases Nat.eq_or_lt_of_le hstart with rfl | hlt
      · exact htaken
      · exact ih hlt hc
    · exact absurd hc (Nat.not_lt.mpr hstart)

theorem not_taken_firstFree (hbound : ∀ c, taken c = true → c < start + left) :
    taken (firstFree taken left start) = false := by
  induction left generalizing start with
  | zero =>
    by_contra htaken
    exact Nat.lt_irrefl _ (hbound start (Bool.eq_true_of_not_eq_false htaken))
  | succ left ih =>
    rw [firstFree]
    split_ifs with htaken
    · exact ih fun c hc => by have := hbound c hc; omega
    · exact Bool.eq_false_of_not_eq_true htaken

theorem firstFree_eq (hbound : ∀ c, taken c = true → c < left) (hbefore : ∀ c < s, taken c = true)
    (hs : taken s = false) : firstFree taken left 0 = s := by
  have hfree : taken (firstFree taken left 0) = false :=
    not_taken_firstFree fun c hc => by have := hbound c hc; omega
  rcases Nat.lt_trichotomy (firstFree taken left 0) s with hlt | heq | hgt
  · rw [hbefore _ hlt] at hfree
    exact Bool.noConfusion hfree
  · exact heq
  · rw [taken_of_lt_firstFree (Nat.zero_le s) hgt] at hs
    exact Bool.noConfusion hs

end FirstFree

/-! ### The cells of a row -/

section AppendCells

variable {taken : ℕ → Bool} {origNumCols : ℕ} {cells : List (Cell α)} {row : MapRow α}

theorem appendCells_map_snd : (appendCells taken origNumCols cells).map Prod.snd = cells := by
  induction cells generalizing taken origNumCols with
  | nil => rfl
  | cons cell cells ih =>
    rw [appendCells, List.map_cons, ih]

/-- A cell of the row has taken its columns from the ones behind it. -/
theorem bounded_after (hbound : ∀ c, taken c = true → c < origNumCols) {s span : ℕ} (c : ℕ)
    (hc : (taken c || decide (s ≤ c ∧ c < s + span)) = true) : c < max origNumCols (s + span) := by
  rw [Bool.or_eq_true, decide_eq_true_iff] at hc
  rcases hc with hc | hc
  · have := hbound c hc
    omega
  · omega

theorem free_of_mem_appendCells (hbound : ∀ c, taken c = true → c < origNumCols) {p : ℕ × Cell α}
    (hp : p ∈ appendCells taken origNumCols cells) : taken p.1 = false := by
  induction cells generalizing taken origNumCols with
  | nil => exact absurd hp List.not_mem_nil
  | cons cell cells ih =>
    rw [appendCells, List.mem_cons] at hp
    rcases hp with rfl | hp
    · exact not_taken_firstFree fun c hc => by have := hbound c hc; omega
    · exact (Bool.or_eq_false_iff.mp (ih (bounded_after hbound) hp)).1

theorem appendCells_ordered (hbound : ∀ c, taken c = true → c < origNumCols) :
    (appendCells taken origNumCols cells).Pairwise fun p q => p.1 + p.2.colSpan ≤ q.1 := by
  induction cells generalizing taken origNumCols with
  | nil => exact .nil
  | cons cell cells ih =>
    rw [appendCells, List.pairwise_cons]
    refine ⟨fun q hq => ?_, ih (bounded_after hbound)⟩
    have hfree := free_of_mem_appendCells (bounded_after hbound) hq
    rw [Bool.or_eq_false_iff, decide_eq_false_iff_not] at hfree
    by_contra hlt
    have hbefore : q.1 < firstFree taken origNumCols 0 := by
      simp only [] at hlt
      omega
    rw [taken_of_lt_firstFree (Nat.zero_le _) hbefore] at hfree
    exact Bool.noConfusion hfree.1

/-- The row is what comes of its cells when each starts in the first column that is free. -/
theorem appendCells_eq (hbound : ∀ c, taken c = true → c < origNumCols)
    (hordered : row.Pairwise fun p q => p.1 + p.2.colSpan ≤ q.1)
    (hfree : ∀ p ∈ row, taken p.1 = false)
    (hfull : ∀ p ∈ row, ∀ c < p.1, taken c = true ∨ ∃ q ∈ row, q.1 ≤ c ∧ c < q.1 + q.2.colSpan) :
    appendCells taken origNumCols (row.map Prod.snd) = row := by
  induction row generalizing taken origNumCols with
  | nil => rfl
  | cons p row ih =>
    rw [List.pairwise_cons] at hordered
    have hfirst : firstFree taken origNumCols 0 = p.1 := by
      refine firstFree_eq hbound (fun c hc => ?_) (hfree p List.mem_cons_self)
      rcases hfull p List.mem_cons_self c hc with htaken | ⟨q, hq, hqc⟩
      · exact htaken
      · rcases List.mem_cons.mp hq with rfl | hq
        · omega
        · have := hordered.1 q hq
          omega
    rw [List.map_cons, appendCells, hfirst]
    congr 1
    refine ih (bounded_after hbound) hordered.2 (fun q hq => ?_) fun q hq c hc => ?_
    · rw [Bool.or_eq_false_iff, decide_eq_false_iff_not]
      have := hordered.1 q hq
      exact ⟨hfree q (List.mem_cons_of_mem p hq), by omega⟩
    · rw [Bool.or_eq_true, decide_eq_true_iff]
      rcases hfull q (List.mem_cons_of_mem p hq) c hc with htaken | ⟨t, ht, htc⟩
      · exact .inl (.inl htaken)
      · rcases List.mem_cons.mp ht with rfl | ht
        · exact .inl (.inr htc)
        · exact .inr ⟨t, ht, htc⟩

end AppendCells

/-! ### The rows of a map -/

section Rows

variable {groups : List ℕ} {map : List (MapRow α)} {rows : List (List (Cell α))} {r c : ℕ}

theorem covered_iff : covered groups map r c = true ↔
    ∃ x ∈ placedIn map, (blockOf groups x).Covers r c := by
  rw [covered, List.any_eq_true]
  constructor
  · rintro ⟨row, hrow, hany⟩
    obtain ⟨p, hp, hcovers⟩ := List.any_eq_true.mp hany
    exact ⟨⟨row.2, p.1, p.2⟩, ⟨row.1, List.mem_zipIdx_iff_getElem?.mp hrow, hp⟩,
      of_decide_eq_true hcovers⟩
  · rintro ⟨x, ⟨row, hrow, hx⟩, hcovers⟩
    exact ⟨(row, x.row), List.mem_zipIdx_iff_getElem?.mpr hrow,
      List.any_eq_true.mpr ⟨(x.col, x.cell), hx, decide_eq_true hcovers⟩⟩

theorem le_colsOf {x : Placed α} (hx : x ∈ placedIn map) :
    x.col + x.cell.colSpan ≤ colsOf map := by
  obtain ⟨row, hrow, hx⟩ := hx
  have hflat : (x.col, x.cell) ∈ map.flatten :=
    List.mem_flatten.mpr ⟨row, List.mem_of_getElem? hrow, hx⟩
  unfold colsOf
  generalize map.flatten = flat at hflat ⊢
  induction flat with
  | nil => exact absurd hflat List.not_mem_nil
  | cons p rest ih =>
    rw [List.map_cons, List.foldr_cons]
    rcases List.mem_cons.mp hflat with rfl | hrest
    · exact Nat.le_max_left _ _
    · exact Nat.le_trans (ih hrest) (Nat.le_max_right _ _)

theorem lt_colsOf_of_covered (h : covered groups map r c = true) : c < colsOf map := by
  obtain ⟨x, hx, hcovers⟩ := covered_iff.mp h
  exact Nat.lt_of_lt_of_le hcovers.2.2.2 (le_colsOf hx)

theorem mapOf_concat (cells : List (Cell α)) :
    mapOf groups (rows ++ [cells]) = appendRow groups (mapOf groups rows) cells := by
  rw [mapOf, List.foldl_append]
  rfl

theorem mapOf_length : (mapOf groups rows).length = rows.length := by
  induction rows using List.reverseRecOn with
  | nil => rfl
  | append_singleton rows cells ih =>
    rw [mapOf_concat, appendRow, List.length_append, List.length_append, ih]
    rfl

theorem mapOf_map_snd : (mapOf groups rows).map (List.map Prod.snd) = rows := by
  induction rows using List.reverseRecOn with
  | nil => rfl
  | append_singleton rows cells ih =>
    rw [mapOf_concat, appendRow, List.map_append, ih, List.map_singleton, appendCells_map_snd]

theorem ordered_of_mem_mapOf {row : MapRow α} (h : row ∈ mapOf groups rows) :
    row.Pairwise fun p q => p.1 + p.2.colSpan ≤ q.1 := by
  induction rows using List.reverseRecOn with
  | nil => exact absurd h List.not_mem_nil
  | append_singleton rows cells ih =>
    rw [mapOf_concat, appendRow, List.mem_append, List.mem_singleton] at h
    rcases h with h | rfl
    · exact ih h
    · exact appendCells_ordered fun c hc => lt_colsOf_of_covered hc

/-- In a map that covers its places once, each cell is where it is put. -/
theorem mapOf_eq_of_tiles {n : ℕ} {W : ℕ → ℕ} (htiles : Tiles (blockOf groups) (placedIn map) n W)
    (hordered : ∀ row ∈ map, row.Pairwise fun p q => p.1 < q.1)
    (hspans : ∀ x ∈ placedIn map, 1 ≤ (blockOf groups x).height ∧ 1 ≤ x.cell.colSpan)
    {m : ℕ} (hm : m ≤ n) :
    mapOf groups ((map.take m).map (List.map Prod.snd)) = map.take m := by
  induction m with
  | zero => rfl
  | succ m ih =>
    rcases Nat.lt_or_ge m map.length with hlen | hlen
    swap
    · rw [List.take_of_length_le (Nat.le_succ_of_le hlen)]
      rw [List.take_of_length_le hlen] at ih
      exact ih (Nat.le_of_succ_le hm)
    have hrow : map[m]? = some map[m] := List.getElem?_eq_getElem hlen
    have htake : (map.take m).length = m := List.length_take_of_le (Nat.le_of_lt hlen)
    have hat : ∀ p ∈ map[m], (⟨m, p.1, p.2⟩ : Placed α) ∈ placedIn map :=
      fun p hp => ⟨map[m], hrow, hp⟩
    have horigin : ∀ p ∈ map[m], (blockOf groups ⟨m, p.1, p.2⟩).Covers m p.1 := by
      intro p hp
      have hspan := hspans _ (hat p hp)
      have hheight : (blockOf groups (⟨m, p.1, p.2⟩ : Placed α)).height =
          min p.2.rowSpan (rowsLeft groups m) := rfl
      refine ⟨Nat.le_refl m, ?_, Nat.le_refl _, ?_⟩ <;> simp only [blockOf, blockAt] at * <;> omega
    -- the cells that cover a place of the row are in the rows before, or in the row itself
    have hbefore : ∀ x ∈ placedIn (map.take m), x ∈ placedIn map ∧ x.row < m := by
      rintro x ⟨row, hx, hmem⟩
      have hlt : x.row < m := by
        have := (List.getElem?_eq_some_iff.mp hx).1
        omega
      rw [List.getElem?_take_of_lt hlt] at hx
      exact ⟨⟨row, hx, hmem⟩, hlt⟩
    rw [List.take_succ_eq_append_getElem hlen, List.map_append, List.map_singleton, mapOf_concat,
      ih (Nat.le_of_succ_le hm), appendRow, htake]
    congr 2
    refine appendCells_eq (fun c hc => lt_colsOf_of_covered hc) ?_ (fun p hp => ?_) fun p hp c hc => ?_
    · refine List.Pairwise.imp_of_mem ?_ (hordered _ (List.getElem_mem hlen))
      intro p q hp hq hlt
      by_contra hinside
      have hcovers : (blockOf groups ⟨m, p.1, p.2⟩).Covers m q.1 := by
        refine ⟨Nat.le_refl m, (horigin p hp).2.1, Nat.le_of_lt hlt, ?_⟩
        simp only [blockOf, blockAt]
        omega
      have heq := htiles.unique hm (hat p hp) (hat q hq) hcovers (horigin q hq)
      rw [Placed.mk.injEq] at heq
      omega
    · by_contra htaken
      obtain ⟨x, hx, hcovers⟩ := covered_iff.mp (Bool.eq_true_of_not_eq_false htaken)
      have heq := htiles.unique hm (hbefore x hx).1 (hat p hp) hcovers (horigin p hp)
      have hlt := (hbefore x hx).2
      rw [heq] at hlt
      exact Nat.lt_irrefl m hlt
    · have hwidth := htiles.lt_of_covers hm (hat p hp) (horigin p hp)
      obtain ⟨x, ⟨row, hx, hmem⟩, hcovers⟩ := (htiles.covers_iff hm).mpr (Nat.lt_trans hc hwidth)
      rcases Nat.lt_or_eq_of_le hcovers.1 with hlt | heq
      · refine .inl (covered_iff.mpr ⟨x, ⟨row, ?_, hmem⟩, hcovers⟩)
        have hlt : x.row < m := hlt
        rw [List.getElem?_take_of_lt hlt]
        exact hx
      · have heq : x.row = m := heq
        rw [heq, hrow] at hx
        obtain rfl := Option.some.inj hx
        exact .inr ⟨(x.col, x.cell), hmem, hcovers.2.2.1, hcovers.2.2.2⟩

end Rows

/-! ### Row groups -/

section RowGroups

variable {groups : List ℕ} {r j : ℕ}

/-- The rows left of a group are those behind one that have the same index. -/
theorem lt_add_rowsLeft_iff (hsorted : groups.Pairwise (· ≤ ·)) (hr : r < groups.length)
    (hj : r ≤ j) : j < r + rowsLeft groups r ↔ groups[j]? = groups[r]? := by
  have hcount : ∀ (l : List ℕ) (g i : ℕ), l.Pairwise (· ≤ ·) → (∀ x ∈ l, g ≤ x) →
      (i < (l.takeWhile fun group => some g = some group).length ↔ l[i]? = some g) := by
    intro l
    induction l with
    | nil => simp
    | cons x l ih =>
      intro g i hl hg
      rw [List.pairwise_cons] at hl
      by_cases hx : g = x
      · subst hx
        rw [List.takeWhile_cons_of_pos (by simp)]
        cases i with
        | zero => simp
        | succ i =>
          rw [List.length_cons, Nat.succ_lt_succ_iff, List.getElem?_cons_succ]
          exact ih g i hl.2 fun y hy => hg y (List.mem_cons_of_mem _ hy)
      · rw [List.takeWhile_cons_of_neg (by simpa using hx)]
        have hlt : g < x := Nat.lt_of_le_of_ne (hg x List.mem_cons_self) hx
        refine iff_of_false (Nat.not_lt_zero i) fun hi => ?_
        have hle : x ≤ g := by
          rcases List.mem_cons.mp (List.mem_of_getElem? hi) with rfl | hmem
          · exact Nat.le_refl _
          · exact hl.1 g hmem
        omega
  have hget : groups[r]? = some groups[r] := List.getElem?_eq_getElem hr
  have hdrop : ∀ x ∈ groups.drop r, groups[r] ≤ x := by
    intro x hx
    rw [List.drop_eq_getElem_cons hr] at hx
    rcases List.mem_cons.mp hx with rfl | hx
    · exact Nat.le_refl _
    · have hpair := hsorted.sublist (List.drop_sublist r groups)
      rw [List.drop_eq_getElem_cons hr, List.pairwise_cons] at hpair
      exact hpair.1 x hx
  obtain ⟨i, rfl⟩ := Nat.exists_eq_add_of_le hj
  have hiff := hcount (groups.drop r) groups[r] i (hsorted.sublist (List.drop_sublist r groups)) hdrop
  rw [List.getElem?_drop] at hiff
  rw [Nat.add_lt_add_iff_left, rowsLeft, hget]
  exact hiff

theorem one_le_rowsLeft (hsorted : groups.Pairwise (· ≤ ·)) (hr : r < groups.length) :
    1 ≤ rowsLeft groups r := by
  have := (lt_add_rowsLeft_iff hsorted hr (Nat.le_refl r)).mpr rfl
  omega

theorem add_rowsLeft_le (hsorted : groups.Pairwise (· ≤ ·)) (hr : r < groups.length) :
    r + rowsLeft groups r ≤ groups.length := by
  by_contra hgt
  have hend := (lt_add_rowsLeft_iff hsorted hr (Nat.le_of_lt hr)).mp (Nat.lt_of_not_le hgt)
  rw [List.getElem?_eq_getElem hr, List.getElem?_eq_none (Nat.le_refl _)] at hend
  exact absurd hend (by simp)

/-- Two rows of one group have the same end. -/
theorem add_rowsLeft_eq (hsorted : groups.Pairwise (· ≤ ·)) (hr : r < groups.length) (hrj : r ≤ j)
    (hj : j < r + rowsLeft groups r) : j + rowsLeft groups j = r + rowsLeft groups r := by
  have hlen := add_rowsLeft_le hsorted hr
  have hjlen : j < groups.length := by omega
  have hsame := (lt_add_rowsLeft_iff hsorted hr hrj).mp hj
  have hiff : ∀ i, j ≤ i → (i < j + rowsLeft groups j ↔ i < r + rowsLeft groups r) := by
    intro i hi
    rw [lt_add_rowsLeft_iff hsorted hjlen hi, lt_add_rowsLeft_iff hsorted hr (by omega), hsame]
  have hone := one_le_rowsLeft hsorted hjlen
  have hfst := hiff (j + rowsLeft groups j - 1) (by omega)
  have hsnd := hiff (j + rowsLeft groups j) (by omega)
  omega

end RowGroups

/-! ### What is read of a table -/

namespace Table

variable {T : Table α} {W : ℕ → ℕ} {x : Placed α} {r c k : ℕ}

/-- A cell of the map and its number among the cells of its row. -/
def At (T : Table α) (x : Placed α) (k : ℕ) : Prop :=
  ∃ row, T.map[x.row]? = some row ∧ row[k]? = some (x.col, x.cell)

/-- The rows of the map are covered up to their widths, each place once. -/
structure Tiled (T : Table α) (W : ℕ → ℕ) : Prop where
  spanned : T.Spanned
  tiles : Tiles (blockOf T.groups) T.placed T.rows.length W

theorem mem_placed_iff : x ∈ T.placed ↔ ∃ k, T.At x k := by
  constructor
  · rintro ⟨row, hrow, hx⟩
    obtain ⟨k, hk⟩ := List.getElem?_of_mem hx
    exact ⟨k, row, hrow, hk⟩
  · rintro ⟨k, row, hrow, hk⟩
    exact ⟨row, hrow, List.mem_of_getElem? hk⟩

theorem length_map : T.map.length = T.rows.length := by
  rw [map, mapOf_length, cells, List.length_map]

theorem groups_sorted : T.groups.Pairwise (· ≤ ·) := T.grouped

theorem length_groups : T.groups.length = T.rows.length := List.length_map _

theorem row_lt (hx : x ∈ T.placed) : x.row < T.rows.length := by
  obtain ⟨row, hrow, -⟩ := hx
  rw [← length_map]
  exact (List.getElem?_eq_some_iff.mp hrow).1

theorem map_map_snd : T.map.map (List.map Prod.snd) = T.cells := mapOf_map_snd

/-- The cell is that of the row of the document. -/
theorem At.cells (hx : T.At x k) : ∃ row, T.cells[x.row]? = some row ∧ row[k]? = some x.cell := by
  obtain ⟨row, hrow, hk⟩ := hx
  refine ⟨row.map Prod.snd, ?_, ?_⟩
  · rw [← map_map_snd, List.getElem?_map, hrow]
    rfl
  · rw [List.getElem?_map, hk]
    rfl

theorem Spanned.one_le (h : T.Spanned) (hx : x ∈ T.placed) :
    1 ≤ x.cell.rowSpan ∧ 1 ≤ x.cell.colSpan := by
  obtain ⟨k, hk⟩ := mem_placed_iff.mp hx
  obtain ⟨row, hrow, hcell⟩ := hk.cells
  exact h row (List.mem_of_getElem? hrow) x.cell (List.mem_of_getElem? hcell)

theorem one_le_height (h : T.Spanned) (hx : x ∈ T.placed) :
    1 ≤ (blockOf T.groups x).height := by
  have hrow := row_lt hx
  rw [← length_groups] at hrow
  exact Nat.le_min.mpr ⟨(h.one_le hx).1, one_le_rowsLeft T.grouped hrow⟩

theorem add_height_le (hx : x ∈ T.placed) :
    x.row + (blockOf T.groups x).height ≤ T.rows.length := by
  have hrow := row_lt hx
  rw [← length_groups] at hrow ⊢
  exact Nat.le_trans (Nat.add_le_add_left (Nat.min_le_right _ _) _) (add_rowsLeft_le T.grouped hrow)

/-- A cell covers the place where it starts. -/
theorem covers_origin (h : T.Spanned) (hx : x ∈ T.placed) :
    (blockOf T.groups x).Covers x.row x.col :=
  ⟨Nat.le_refl _, Nat.lt_add_of_pos_right (one_le_height h hx), Nat.le_refl _,
    Nat.lt_add_of_pos_right (h.one_le hx).2⟩

theorem ordered_of_mem_map (h : T.Spanned) {row : MapRow α} (hrow : row ∈ T.map) :
    row.Pairwise fun p q => p.1 < q.1 := by
  obtain ⟨r, hr⟩ := List.getElem?_of_mem hrow
  refine List.Pairwise.imp_of_mem ?_ (ordered_of_mem_mapOf hrow)
  intro p q hp _ hle
  have hspan := (h.one_le (x := ⟨r, p.1, p.2⟩) ⟨row, hr, hp⟩).2
  simp only [] at hspan
  omega

theorem At.number_eq (h : T.Spanned) {l : ℕ} (hk : T.At x k) (hl : T.At x l) : k = l := by
  obtain ⟨row, hrow, hk⟩ := hk
  obtain ⟨row', hrow', hl⟩ := hl
  obtain rfl := Option.some.inj (hrow.symm.trans hrow')
  have hnodup : row.Nodup := by
    refine (ordered_of_mem_map h (List.mem_of_getElem? hrow)).imp ?_
    rintro p q hlt rfl
    exact Nat.lt_irrefl _ hlt
  obtain ⟨hklt, hkget⟩ := List.getElem?_eq_some_iff.mp hk
  obtain ⟨hllt, hlget⟩ := List.getElem?_eq_some_iff.mp hl
  exact (hnodup.getElem_inj_iff).mp (hkget.trans hlget.symm)

/-! The first cell that covers a place. -/

theorem exists_of_cellAt {found : ℕ × ℕ × ℕ × Cell α} (h : T.cellAt r c = some found) :
    T.At ⟨found.1, found.2.2.1, found.2.2.2⟩ found.2.1 ∧
      (blockOf T.groups ⟨found.1, found.2.2.1, found.2.2.2⟩).Covers r c := by
  obtain ⟨row, hrow, hfind⟩ := List.exists_of_findSome?_eq_some h
  obtain ⟨p, hp, hfind⟩ := List.exists_of_findSome?_eq_some hfind
  split_ifs at hfind with hcovers
  obtain rfl := Option.some.inj hfind
  exact ⟨⟨row.1, List.mem_zipIdx_iff_getElem?.mp hrow, List.mem_zipIdx_iff_getElem?.mp hp⟩, hcovers⟩

theorem cellAt_ne_none (hx : x ∈ T.placed) (hcovers : (blockOf T.groups x).Covers r c) :
    T.cellAt r c ≠ none := by
  obtain ⟨k, row, hrow, hk⟩ := mem_placed_iff.mp hx
  rw [cellAt, Ne, List.findSome?_eq_none_iff]
  intro hnone
  have hrow := hnone (row, x.row) (List.mem_zipIdx_iff_getElem?.mpr hrow)
  rw [List.findSome?_eq_none_iff] at hrow
  have hcell := hrow ((x.col, x.cell), k) (List.mem_zipIdx_iff_getElem?.mpr hk)
  change (if (blockOf T.groups x).Covers r c then _ else none) = none at hcell
  rw [if_pos hcovers] at hcell
  exact absurd hcell (by simp)

theorem cellAt_eq_none (h : ∀ x ∈ T.placed, ¬(blockOf T.groups x).Covers r c) :
    T.cellAt r c = none := by
  cases hfound : T.cellAt r c with
  | none => rfl
  | some found =>
    obtain ⟨hat, hcovers⟩ := exists_of_cellAt hfound
    exact absurd hcovers (h _ (mem_placed_iff.mpr ⟨_, hat⟩))

theorem cellAt_eq (hspanned : T.Spanned) (hx : T.At x k) (hcovers : (blockOf T.groups x).Covers r c)
    (hunique : ∀ y ∈ T.placed, (blockOf T.groups y).Covers r c → y = x) :
    T.cellAt r c = some (x.row, k, x.col, x.cell) := by
  cases hfound : T.cellAt r c with
  | none => exact absurd hfound (cellAt_ne_none (mem_placed_iff.mpr ⟨k, hx⟩) hcovers)
  | some found =>
    obtain ⟨hat, hfcovers⟩ := exists_of_cellAt hfound
    obtain rfl := hunique _ (mem_placed_iff.mpr ⟨_, hat⟩) hfcovers
    rw [hx.number_eq hspanned hat]

/-! The spans. -/

theorem isRowSpan_iff : T.IsRowSpan r c = true ↔
    ∃ x ∈ T.placed, (blockOf T.groups x).Covers r c ∧ x.row < r := by
  rw [IsRowSpan, List.any_eq_true]
  constructor
  · rintro ⟨row, hrow, hany⟩
    obtain ⟨p, hp, hcovers⟩ := List.any_eq_true.mp hany
    exact ⟨⟨row.2, p.1, p.2⟩, ⟨row.1, List.mem_zipIdx_iff_getElem?.mp hrow, hp⟩,
      of_decide_eq_true hcovers⟩
  · rintro ⟨x, ⟨row, hrow, hx⟩, hcovers⟩
    exact ⟨(row, x.row), List.mem_zipIdx_iff_getElem?.mpr hrow,
      List.any_eq_true.mpr ⟨(x.col, x.cell), hx, decide_eq_true hcovers⟩⟩

theorem isColSpan_iff : T.IsColSpan r c = true ↔
    ∃ x ∈ T.placed, (blockOf T.groups x).Covers r c ∧ x.col < c := by
  rw [IsColSpan, List.any_eq_true]
  constructor
  · rintro ⟨row, hrow, hany⟩
    obtain ⟨p, hp, hcovers⟩ := List.any_eq_true.mp hany
    exact ⟨⟨row.2, p.1, p.2⟩, ⟨row.1, List.mem_zipIdx_iff_getElem?.mp hrow, hp⟩,
      of_decide_eq_true hcovers⟩
  · rintro ⟨x, ⟨row, hrow, hx⟩, hcovers⟩
    exact ⟨(row, x.row), List.mem_zipIdx_iff_getElem?.mpr hrow,
      List.any_eq_true.mpr ⟨(x.col, x.cell), hx, decide_eq_true hcovers⟩⟩

theorem rowSpanFrom_eq {left count rowX : ℕ} (hle : count ≤ left)
    (hspan : ∀ j < count, T.IsRowSpan (rowX + j) c = true)
    (hend : count < left → T.IsRowSpan (rowX + count) c = false) :
    T.rowSpanFrom c left rowX = count := by
  induction left generalizing count rowX with
  | zero => exact (Nat.le_zero.mp hle).symm
  | succ left ih =>
    rw [rowSpanFrom]
    cases count with
    | zero =>
      exact if_neg (Bool.eq_false_iff.mp (hend (Nat.succ_pos left)))
    | succ count =>
      have hfirst : T.IsRowSpan rowX c = true := hspan 0 (Nat.succ_pos count)
      rw [if_pos hfirst]
      refine congrArg (· + 1) (ih (Nat.le_of_succ_le_succ hle) (fun j hj => ?_) fun hlt => ?_)
      · rw [Nat.add_right_comm]
        exact hspan (j + 1) (Nat.succ_lt_succ hj)
      · rw [Nat.add_right_comm]
        exact hend (Nat.succ_lt_succ hlt)

theorem getEffectiveRowSpan_eq (h : T.Spanned) (hx : x ∈ T.placed)
    (hend : ∀ y ∈ T.placed, y.row < x.row + (blockOf T.groups x).height →
      ¬(blockOf T.groups y).Covers (x.row + (blockOf T.groups x).height) x.col) :
    T.GetEffectiveRowSpan x.row x.col = (blockOf T.groups x).height := by
  have hone := one_le_height h hx
  have hle : (blockOf T.groups x).height ≤ rowsLeft T.groups x.row := Nat.min_le_right _ _
  have hspan := h.one_le hx
  have hcount : T.rowSpanFrom x.col (rowsLeft T.groups x.row - 1) (x.row + 1) =
      (blockOf T.groups x).height - 1 := by
    refine rowSpanFrom_eq (by omega) (fun j hj => ?_) fun _ => ?_
    · refine isRowSpan_iff.mpr ⟨x, hx, ⟨?_, ?_, Nat.le_refl _, Nat.lt_add_of_pos_right hspan.2⟩, ?_⟩
      · change x.row ≤ _
        omega
      · change x.row + 1 + j < x.row + (blockOf T.groups x).height
        omega
      · omega
    · rw [Bool.eq_false_iff]
      intro hrow
      obtain ⟨y, hy, hcovers, hlt⟩ := isRowSpan_iff.mp hrow
      have heq : x.row + 1 + ((blockOf T.groups x).height - 1) =
          x.row + (blockOf T.groups x).height := by omega
      rw [heq] at hcovers hlt
      exact hend y hy hlt hcovers
  rw [GetEffectiveRowSpan, hcount]
  omega

theorem colSpanFrom_eq {lastCol turns maxCols colX : ℕ} (hcol : colX ≤ lastCol)
    (hmax : lastCol ≤ maxCols) (hturns : lastCol ≤ colX + turns)
    (hspan : ∀ j, colX ≤ j → j < lastCol → T.IsColSpan r j = true)
    (hend : T.IsColSpan r lastCol = false) :
    T.colSpanFrom r lastCol turns maxCols colX = lastCol - colX := by
  induction turns generalizing maxCols colX with
  | zero =>
    rw [colSpanFrom]
    omega
  | succ turns ih =>
    rw [colSpanFrom]
    rcases Nat.lt_or_eq_of_le hcol with hlt | rfl
    · have hmax' : lastCol ≤ if T.IsOverlap r colX then min lastCol maxCols else maxCols := by
        split_ifs
        · exact Nat.le_min.mpr ⟨Nat.le_refl _, hmax⟩
        · exact hmax
      rw [if_pos (Nat.lt_of_lt_of_le hlt hmax),
        if_pos ⟨Nat.lt_of_lt_of_le hlt hmax', hspan colX (Nat.le_refl _) hlt⟩,
        ih hlt hmax' (by omega) fun j hj => hspan j (Nat.le_of_succ_le hj)]
      omega
    · rw [Nat.sub_self]
      split_ifs
      · exact if_neg fun hboth => Bool.eq_false_iff.mp hend hboth.2
      · exact if_neg fun hboth => Bool.eq_false_iff.mp hend hboth.2
      · rfl

theorem getEffectiveColSpan_eq (h : T.Spanned) (hx : x ∈ T.placed)
    (hend : ∀ y ∈ T.placed, y.col < x.col + x.cell.colSpan →
      ¬(blockOf T.groups y).Covers x.row (x.col + x.cell.colSpan)) :
    T.GetEffectiveColSpan x.row x.col x.cell = x.cell.colSpan := by
  have hspan := (h.one_le hx).2
  have hcols : x.col + x.cell.colSpan ≤ T.GetColCount :=
    Nat.le_trans (le_colsOf hx) (Nat.le_max_left _ _)
  rw [GetEffectiveColSpan, colSpanFrom_eq (by omega) hcols (by omega)]
  · omega
  · intro j hj hlt
    have horigin := covers_origin h hx
    refine isColSpan_iff.mpr ⟨x, hx, ⟨horigin.1, horigin.2.1, ?_, hlt⟩, hj⟩
    change x.col ≤ j
    omega
  · rw [Bool.eq_false_iff]
    intro hcol
    obtain ⟨y, hy, hcovers, hlt⟩ := isColSpan_iff.mp hcol
    exact hend y hy hlt hcovers

/-! In a tiled map. -/

theorem Tiled.getCellDataAt (h : T.Tiled W) (hx : T.At x k)
    (hcovers : (blockOf T.groups x).Covers r c) :
    T.GetCellDataAt r c = some
      { startRowIndex := x.row
        startColIndex := x.col
        offset := k
        cell := x.cell
        actualRowSpan := (blockOf T.groups x).height
        actualColSpan := x.cell.colSpan } := by
  have hmem := mem_placed_iff.mpr ⟨k, hx⟩
  have hr : r < T.rows.length := Nat.lt_of_lt_of_le hcovers.2.1 (add_height_le hmem)
  have horigin := covers_origin h.spanned hmem
  have hone := h.spanned.one_le hmem
  have hheight := one_le_height h.spanned hmem
  have hrows : T.GetEffectiveRowSpan x.row x.col = (blockOf T.groups x).height := by
    refine getEffectiveRowSpan_eq h.spanned hmem fun y hy hlt hycovers => ?_
    have hyrow : x.row + (blockOf T.groups x).height < T.rows.length :=
      Nat.lt_of_lt_of_le hycovers.2.1 (add_height_le hy)
    -- the cell would share the last row of this one
    have heq := h.tiles.unique (r := x.row + (blockOf T.groups x).height - 1) (c := x.col)
      (by omega) hmem hy ⟨by change x.row ≤ _; omega, by change _ < x.row + _; omega, horigin.2.2⟩
      ⟨by change y.row ≤ _; omega, by have := hycovers.2.1; omega, hycovers.2.2⟩
    rw [← heq] at hycovers
    exact Nat.lt_irrefl _ hycovers.2.1
  have hcols : T.GetEffectiveColSpan x.row x.col x.cell = x.cell.colSpan := by
    refine getEffectiveColSpan_eq h.spanned hmem fun y hy hlt hycovers => ?_
    have heq := h.tiles.unique (r := x.row) (c := x.col + x.cell.colSpan - 1) (row_lt hmem) hmem hy
      ⟨horigin.1, horigin.2.1, by change x.col ≤ _; omega, by change _ < x.col + x.cell.colSpan; omega⟩
      ⟨hycovers.1, hycovers.2.1, by change y.col ≤ _; omega, by have := hycovers.2.2.2; omega⟩
    rw [← heq] at hycovers
    exact Nat.lt_irrefl _ hycovers.2.2.2
  rw [GetCellDataAt, cellAt_eq h.spanned hx hcovers
    fun y hy hycovers => h.tiles.unique hr hy hmem hycovers hcovers, Option.map_some, hrows, hcols]

theorem Tiled.getCellDataAt_none (h : T.Tiled W) (hc : r < T.rows.length → W r ≤ c) :
    T.GetCellDataAt r c = none := by
  rw [GetCellDataAt, cellAt_eq_none, Option.map_none]
  intro x hx hcovers
  have hr : r < T.rows.length := Nat.lt_of_lt_of_le hcovers.2.1 (add_height_le hx)
  exact Nat.lt_irrefl _ (Nat.lt_of_lt_of_le (h.tiles.lt_of_covers hr hx hcovers) (hc hr))

/-- Each place of the grid is covered by one cell. -/
def Rectangular (T : Table α) : Prop := T.Tiled fun _ => T.GetColCount

/-- A cell starts in every row. -/
def RowsOriginate (T : Table α) : Prop := ∀ row ∈ T.rows, row.cells ≠ []

theorem RowsOriginate.exists_placed (h : T.RowsOriginate) (hr : r < T.rows.length) :
    ∃ x ∈ T.placed, x.row = r := by
  have hmap : T.map.length = T.rows.length := length_map
  have hrow : T.map[r]? = some T.map[r] := List.getElem?_eq_getElem (by omega)
  have hcells : T.map[r].map Prod.snd = T.rows[r].cells := by
    have hget := congrArg (fun cells => cells[r]?) (map_map_snd (T := T))
    simp only [cells, List.getElem?_map, hrow, List.getElem?_eq_getElem hr, Option.map_some,
      Option.some.injEq] at hget
    exact hget
  cases hcase : T.map[r] with
  | nil =>
    rw [hcase] at hcells
    exact absurd hcells.symm (h _ (List.getElem_mem hr))
  | cons p row => exact ⟨⟨r, p.1, p.2⟩, ⟨T.map[r], hrow, hcase ▸ List.mem_cons_self⟩, rfl⟩

/-- The columns of the grid are those of the cells, where there are rows. -/
theorem Tiled.getColCount {w : ℕ} (h : T.Tiled fun _ => w) (hrows : 0 < T.rows.length) :
    T.GetColCount = max w T.colElements := by
  have hle : colsOf T.map ≤ w := by
    have hall : ∀ p ∈ T.map.flatten, p.1 + p.2.colSpan ≤ w := by
      intro p hp
      obtain ⟨row, hrow, hp⟩ := List.mem_flatten.mp hp
      obtain ⟨r, hr⟩ := List.getElem?_of_mem hrow
      have hx : (⟨r, p.1, p.2⟩ : Placed α) ∈ T.placed := ⟨row, hr, hp⟩
      have hspan := (h.spanned.one_le hx).2
      have horigin := covers_origin h.spanned hx
      have := h.tiles.lt_of_covers (c := p.1 + p.2.colSpan - 1) (row_lt hx) hx
        ⟨horigin.1, horigin.2.1, by change p.1 ≤ _; simp only [] at hspan; omega,
          by change _ < p.1 + p.2.colSpan; simp only [] at hspan; omega⟩
      simp only [] at hspan
      omega
    unfold colsOf
    generalize T.map.flatten = flat at hall
    induction flat with
    | nil => exact Nat.zero_le _
    | cons p rest ih =>
      rw [List.map_cons, List.foldr_cons]
      exact Nat.max_le.mpr ⟨hall p List.mem_cons_self,
        ih fun q hq => hall q (List.mem_cons_of_mem p hq)⟩
  have hge : w ≤ colsOf T.map := by
    by_contra hlt
    obtain ⟨x, hx, hcovers⟩ := (h.tiles.covers_iff (c := colsOf T.map) hrows).mpr (by omega)
    exact absurd (Nat.lt_of_lt_of_le hcovers.2.2.2 (le_colsOf hx)) (Nat.lt_irrefl _)
  rw [GetColCount, Nat.le_antisymm hle hge]

end Table

end Kompozer.TableEditor

import Kompozer.TableEditor.TiledMap

/-! The changes that the table editor makes to the cells of a row, and what they make of the map
(`SetRowSpan`, `SetColSpan`, `InsertCell` of `nsTableEditor.cpp`). -/

namespace Kompozer.TableEditor

universe u

variable {α : Type u}

/-! ### Changes -/

/-- A change of one element, seen through a function. -/
theorem map_modify {β γ : Type*} (l : List β) (g : β → γ) (h : β → β) (k : γ → γ) (r : ℕ)
    (hcomm : ∀ x, g (h x) = k (g x)) : (l.modify r h).map g = (l.map g).modify r k := by
  refine List.ext_getElem? fun i => ?_
  rw [List.getElem?_map, List.getElem?_modify, List.getElem?_modify, List.getElem?_map]
  cases l[i]? with
  | none => rfl
  | some x =>
    simp only [Option.map_eq_map, Option.map_some]
    split_ifs
    · rw [hcomm]
    · rfl

def Cell.withRowSpan (aRowSpan : ℕ) (cell : Cell α) : Cell α := { cell with rowSpan := aRowSpan }

def Cell.withColSpan (aColSpan : ℕ) (cell : Cell α) : Cell α := { cell with colSpan := aColSpan }

namespace Table

variable (T : Table α)

theorem map_group_modify (rows : List (Row α)) (r : ℕ) (f : List (Cell α) → List (Cell α)) :
    (rows.modify r fun row => { row with cells := f row.cells }).map Row.group =
      rows.map Row.group :=
  (map_modify rows Row.group (fun row => { row with cells := f row.cells }) id r
    fun _ => rfl).trans (List.modify_id _ _)

/-- The cells of one row are changed. -/
def editRow (r : ℕ) (f : List (Cell α) → List (Cell α)) : Table α where
  rows := T.rows.modify r fun row => { row with cells := f row.cells }
  colElements := T.colElements
  grouped := by
    rw [map_group_modify]
    exact T.grouped

def SetRowSpan (r offset aRowSpan : ℕ) : Table α :=
  T.editRow r fun cells => cells.modify offset (Cell.withRowSpan aRowSpan)

def SetColSpan (r offset aColSpan : ℕ) : Table α :=
  T.editRow r fun cells => cells.modify offset (Cell.withColSpan aColSpan)

/-- A new cell before or after one. Its span is an attribute only where it is more than one. -/
def InsertCell [Inhabited α] (r offset aRowSpan aColSpan : ℕ) (aAfter : Bool) : Table α :=
  T.editRow r fun cells =>
    let cellOffset := if aAfter then offset + 1 else offset
    cells.insertIdx cellOffset
      { content := default
        rowSpan := if aRowSpan > 1 then aRowSpan else 1
        colSpan := if aColSpan > 1 then aColSpan else 1 }

variable {T} {r : ℕ} {f : List (Cell α) → List (Cell α)}

@[simp] theorem editRow_groups : (T.editRow r f).groups = T.groups :=
  map_group_modify T.rows r f

theorem editRow_cells : (T.editRow r f).cells = T.cells.modify r f :=
  map_modify T.rows Row.cells _ f r fun _ => rfl

end Table

/-! ### Maps of changed tables -/

section Maps

variable {map : List (MapRow α)} {row : MapRow α} {r k : ℕ} {p q : ℕ × Cell α} {x : Placed α}

def Ordered (row : MapRow α) : Prop := row.Pairwise fun p q => p.1 < q.1

theorem Ordered.nodup (h : Ordered row) : row.Nodup := by
  refine h.imp ?_
  rintro p q hlt rfl
  exact Nat.lt_irrefl _ hlt

theorem ordered_modify (hmap : ∀ row ∈ map, Ordered row) {f : MapRow α → MapRow α}
    (hrow : map[r]? = some row) (hf : Ordered (f row)) : ∀ row ∈ map.modify r f, Ordered row := by
  obtain ⟨hr, rfl⟩ := List.getElem?_eq_some_iff.mp hrow
  obtain ⟨before, row, after, heq, hlen, hmodify⟩ := List.exists_of_modify f hr
  have hget : map[r] = row := by simp [heq, ← hlen]
  rw [hmodify]
  rw [heq] at hmap
  rw [hget] at hf
  intro row' hrow'
  rcases List.mem_append.mp hrow' with h | h
  · exact hmap row' (List.mem_append_left _ h)
  · rcases List.mem_cons.mp h with rfl | h
    · exact hf
    · exact hmap row' (List.mem_append_right _ (List.mem_cons_of_mem _ h))

theorem mem_placedIn : x ∈ placedIn map ↔
    ∃ row, map[x.row]? = some row ∧ (x.col, x.cell) ∈ row := Iff.rfl

theorem placedIn_modify {f : MapRow α → MapRow α} (hrow : map[r]? = some row) :
    x ∈ placedIn (map.modify r f) ↔
      x ∈ placedIn map ∧ x.row ≠ r ∨ x.row = r ∧ (x.col, x.cell) ∈ f row := by
  by_cases hx : x.row = r
  · subst hx
    rw [mem_placedIn, List.getElem?_modify_eq, hrow]
    constructor
    · rintro ⟨row', hrow', hmem⟩
      obtain rfl := Option.some.inj hrow'
      exact .inr ⟨rfl, hmem⟩
    · rintro (⟨-, hne⟩ | ⟨-, hmem⟩)
      · exact absurd rfl hne
      · exact ⟨f row, rfl, hmem⟩
  · rw [mem_placedIn, List.getElem?_modify_ne _ _ (Ne.symm hx), ← mem_placedIn]
    constructor
    · exact fun h => .inl ⟨h, hx⟩
    · rintro (⟨h, -⟩ | ⟨h, -⟩)
      · exact h
      · exact absurd h hx

theorem mem_placedIn_iff (hrow : map[r]? = some row) (hx : x.row = r) :
    x ∈ placedIn map ↔ (x.col, x.cell) ∈ row := by
  subst hx
  constructor
  · rintro ⟨row', hrow', hmem⟩
    obtain rfl := Option.some.inj (hrow'.symm.trans hrow)
    exact hmem
  · exact fun hmem => ⟨row, hrow, hmem⟩

/-- One cell for another. -/
theorem placedIn_set (hrow : map[r]? = some row) (hordered : Ordered row) (hk : row[k]? = some p)
    {f : ℕ × Cell α → ℕ × Cell α} :
    x ∈ placedIn (map.modify r fun row => row.modify k f) ↔
      x ∈ placedIn map ∧ x ≠ ⟨r, p.1, p.2⟩ ∨ x = ⟨r, (f p).1, (f p).2⟩ := by
  obtain ⟨hklt, rfl⟩ := List.getElem?_eq_some_iff.mp hk
  obtain ⟨before, p, after, heq, hlen, hmodify⟩ := List.exists_of_modify f hklt
  have hget : row[k] = p := by simp [heq, ← hlen]
  have hp : p ∉ before ∧ p ∉ after := by
    have hnodup := hordered.nodup
    rw [heq, List.nodup_middle, List.nodup_cons, List.mem_append] at hnodup
    exact not_or.mp hnodup.1
  rw [placedIn_modify hrow, hmodify, hget]
  by_cases hx : x.row = r
  · subst hx
    have hmem := mem_placedIn_iff (x := x) hrow rfl
    have hxp : ∀ q : ℕ × Cell α, x = ⟨x.row, q.1, q.2⟩ ↔ (x.col, x.cell) = q := by
      rintro ⟨col, cell⟩
      rw [Prod.mk.injEq]
      constructor
      · intro h
        exact ⟨congrArg Placed.col h, congrArg Placed.cell h⟩
      · rintro ⟨h, h'⟩
        rw [← h, ← h']
    rw [hmem, Ne, Ne, hxp p, hxp (f p), heq, List.mem_append, List.mem_append, List.mem_cons,
      List.mem_cons]
    constructor
    · rintro (⟨-, hne⟩ | ⟨-, h | h | h⟩)
      · exact absurd rfl hne
      · exact .inl ⟨.inl h, fun hxeq => hp.1 (hxeq ▸ h)⟩
      · exact .inr h
      · exact .inl ⟨.inr (.inr h), fun hxeq => hp.2 (hxeq ▸ h)⟩
    · rintro (⟨h | h | h, hne⟩ | h)
      · exact .inr ⟨rfl, .inl h⟩
      · exact absurd h hne
      · exact .inr ⟨rfl, .inr (.inr h)⟩
      · exact .inr ⟨rfl, .inr (.inl h)⟩
  · constructor
    · rintro (⟨h, -⟩ | ⟨h, -⟩)
      · exact .inl ⟨h, fun hxeq => hx (congrArg Placed.row hxeq)⟩
      · exact absurd h hx
    · rintro (⟨h, -⟩ | h)
      · exact .inl ⟨h, hx⟩
      · exact absurd (congrArg Placed.row h) hx

theorem ordered_set {f : ℕ × Cell α → ℕ × Cell α} (hf : ∀ p, (f p).1 = p.1) (h : Ordered row) :
    Ordered (row.modify k f) := by
  have hmap : (row.modify k f).map Prod.fst = row.map Prod.fst :=
    (map_modify row Prod.fst f id k hf).trans (List.modify_id _ _)
  have hfst : ∀ l : MapRow α, Ordered l ↔ (l.map Prod.fst).Pairwise (· < ·) := fun l =>
    List.pairwise_map.symm
  rw [hfst, hmap, ← hfst]
  exact h

theorem exists_of_getElem?_set {f : Cell α → Cell α} {i : ℕ}
    (h : (row.modify k fun p => (p.1, f p.2))[i]? = some p) :
    ∃ q, row[i]? = some q ∧ q.1 = p.1 := by
  rw [List.getElem?_modify] at h
  obtain ⟨q, hq, rfl⟩ := Option.map_eq_some_iff.mp h
  refine ⟨q, hq, ?_⟩
  split_ifs <;> rfl

/-- A cell more. -/
theorem placedIn_insert (hrow : map[r]? = some row) (hk : k ≤ row.length) :
    x ∈ placedIn (map.modify r fun row => row.insertIdx k q) ↔
      x ∈ placedIn map ∨ x = ⟨r, q.1, q.2⟩ := by
  rw [placedIn_modify hrow, List.mem_insertIdx hk]
  by_cases hx : x.row = r
  · subst hx
    rw [mem_placedIn_iff (x := x) hrow rfl]
    constructor
    · rintro (⟨h, -⟩ | ⟨-, rfl | h⟩)
      · exact .inl h
      · exact .inr rfl
      · exact .inl h
    · rintro (h | h)
      · exact .inr ⟨rfl, .inr h⟩
      · rw [h]
        exact .inr ⟨rfl, .inl rfl⟩
  · constructor
    · rintro (⟨h, -⟩ | ⟨h, -⟩)
      · exact .inl h
      · exact absurd h hx
    · rintro (h | h)
      · exact .inl ⟨h, hx⟩
      · exact absurd (congrArg Placed.row h) hx

theorem ordered_insert (h : Ordered row) (hk : k ≤ row.length)
    (hbefore : ∀ i < k, ∀ p, row[i]? = some p → p.1 < q.1)
    (hafter : ∀ i, k ≤ i → ∀ p, row[i]? = some p → q.1 < p.1) : Ordered (row.insertIdx k q) := by
  obtain ⟨before, after, rfl, rfl, hinsert⟩ := List.exists_of_modifyTailIdx (List.cons q) hk
  have hins : (before ++ after).insertIdx before.length q = before ++ q :: after := hinsert
  rw [hins]
  have hbefore' : ∀ p ∈ before, p.1 < q.1 := by
    intro p hp
    obtain ⟨i, hi, rfl⟩ := List.getElem_of_mem hp
    exact hbefore i hi _ (by rw [List.getElem?_append_left hi, List.getElem?_eq_getElem hi])
  have hafter' : ∀ p ∈ after, q.1 < p.1 := by
    intro p hp
    obtain ⟨i, hi, rfl⟩ := List.getElem_of_mem hp
    refine hafter (before.length + i) (Nat.le_add_right _ _) _ ?_
    rw [List.getElem?_append_right (Nat.le_add_right _ _), Nat.add_sub_cancel_left,
      List.getElem?_eq_getElem hi]
  unfold Ordered at h ⊢
  rw [List.pairwise_append] at h ⊢
  refine ⟨h.1, List.pairwise_cons.mpr ⟨hafter', h.2.1⟩, fun p hp t ht => ?_⟩
  rcases List.mem_cons.mp ht with rfl | ht
  · exact hbefore' p hp
  · exact h.2.2 p hp t ht

end Maps

/-- A table whose cells a tiled map has is the table of that map. -/
theorem Table.map_eq_of_tiles {T : Table α} {map : List (MapRow α)} {W : ℕ → ℕ}
    (hcells : map.map (List.map Prod.snd) = T.cells) (hordered : ∀ row ∈ map, Ordered row)
    (hspans : ∀ x ∈ placedIn map, 1 ≤ x.cell.rowSpan ∧ 1 ≤ x.cell.colSpan)
    (htiles : Tiles (blockOf T.groups) (placedIn map) T.rows.length W) :
    T.map = map ∧ T.Tiled W := by
  have hlength : map.length = T.rows.length := by
    have := congrArg List.length hcells
    rwa [List.length_map, cells, List.length_map] at this
  have hmap : T.map = map := by
    have heq := mapOf_eq_of_tiles htiles hordered (fun x hx => ?_) (Nat.le_refl _)
    · rwa [← hlength, List.take_length, hcells] at heq
    · have hspan := hspans x hx
      obtain ⟨row, hrow, -⟩ := hx
      have hlt := (List.getElem?_eq_some_iff.mp hrow).1
      rw [hlength, ← length_groups] at hlt
      exact ⟨Nat.le_min.mpr ⟨hspan.1, one_le_rowsLeft T.grouped hlt⟩, hspan.2⟩
  refine ⟨hmap, fun row hrow cell hcell => ?_, ?_⟩
  · rw [← hcells, List.mem_map] at hrow
    obtain ⟨row, hrow, rfl⟩ := hrow
    obtain ⟨p, hp, rfl⟩ := List.mem_map.mp hcell
    obtain ⟨r, hr⟩ := List.getElem?_of_mem hrow
    exact hspans ⟨r, p.1, p.2⟩ ⟨row, hr, hp⟩
  · rw [placed, hmap]
    exact htiles

/-- A table with the same rows, whatever cells they have. -/
structure Table.SameRows (T T' : Table α) : Prop where
  groups : T'.groups = T.groups
  colElements : T'.colElements = T.colElements

theorem Table.SameRows.trans {T T' T'' : Table α} (h : T.SameRows T') (h' : T'.SameRows T'') :
    T.SameRows T'' :=
  ⟨h'.groups.trans h.groups, h'.colElements.trans h.colElements⟩

theorem Table.SameRows.length (T T' : Table α) (h : T.SameRows T') :
    T'.rows.length = T.rows.length := by
  rw [← length_groups, h.groups, length_groups]

theorem Table.editRow_sameRows {T : Table α} {r : ℕ} {f : List (Cell α) → List (Cell α)} :
    T.SameRows (T.editRow r f) :=
  ⟨editRow_groups, rfl⟩

/-- A cell gets a span of its block, and another cell gets the rest. -/
theorem Table.Tiled.setAndInsert {T : Table α} {W : ℕ → ℕ} {x y z : Placed α} {k k' : ℕ}
    {row : MapRow α} {f : Cell α → Cell α} (h : T.Tiled W) (hx : T.At x k)
    (hy : y = ⟨x.row, x.col, f x.cell⟩)
    (hrow : (T.map.modify x.row fun row => row.modify k fun p => (p.1, f p.2))[z.row]? = some row)
    (hk' : k' ≤ row.length) (hordered : Ordered (row.insertIdx k' (z.col, z.cell)))
    (hyspan : 1 ≤ y.cell.rowSpan ∧ 1 ≤ y.cell.colSpan)
    (hzspan : 1 ≤ z.cell.rowSpan ∧ 1 ≤ z.cell.colSpan)
    (hcovers : ∀ r c, (blockOf T.groups y).Covers r c ∨ (blockOf T.groups z).Covers r c ↔
      (blockOf T.groups x).Covers r c)
    (happart : ∀ r c, ¬((blockOf T.groups y).Covers r c ∧ (blockOf T.groups z).Covers r c)) :
    let T' := (T.editRow x.row fun cells => cells.modify k f).editRow z.row fun cells =>
      cells.insertIdx k' z.cell
    T.SameRows T' ∧ T'.Tiled W ∧
      ∀ t, t ∈ T'.placed ↔ t ∈ T.placed ∧ t ≠ x ∨ t = y ∨ t = z := by
  intro T'
  have hsame : T.SameRows T' := editRow_sameRows.trans editRow_sameRows
  obtain ⟨xrow, hxrow, hxk⟩ := hx
  have hxmem : x ∈ T.placed := ⟨xrow, hxrow, List.mem_of_getElem? hxk⟩
  have hmaps : ∀ row ∈ T.map, Ordered row := fun row hrow => ordered_of_mem_map h.spanned hrow
  have hmaps' : ∀ row ∈ T.map.modify x.row (fun row => row.modify k fun p => (p.1, f p.2)),
      Ordered row :=
    ordered_modify hmaps hxrow (ordered_set (fun _ => rfl) (hmaps _ (List.mem_of_getElem? hxrow)))
  have hmem : ∀ t, t ∈ placedIn ((T.map.modify x.row fun row => row.modify k fun p => (p.1, f p.2)).modify
      z.row fun row => row.insertIdx k' (z.col, z.cell)) ↔ t ∈ T.placed ∧ t ≠ x ∨ t = y ∨ t = z := by
    intro t
    rw [placedIn_insert hrow hk',
      placedIn_set hxrow (hmaps _ (List.mem_of_getElem? hxrow)) hxk, hy, or_assoc]
    rfl
  have hcells : ((T.map.modify x.row fun row => row.modify k fun p => (p.1, f p.2)).modify z.row
      fun row => row.insertIdx k' (z.col, z.cell)).map (List.map Prod.snd) = T'.cells := by
    rw [editRow_cells, editRow_cells, map_modify _ _ _ (fun cells => cells.insertIdx k' z.cell) _
      (fun row => List.map_insertIdx _ _ _ _), map_modify _ _ _ (fun cells => cells.modify k f) _
      (fun row => map_modify row Prod.snd _ f k fun _ => rfl), map_map_snd]
  have hspans : ∀ t ∈ placedIn ((T.map.modify x.row fun row => row.modify k fun p => (p.1, f p.2)).modify
      z.row fun row => row.insertIdx k' (z.col, z.cell)),
      1 ≤ t.cell.rowSpan ∧ 1 ≤ t.cell.colSpan := by
    intro t ht
    rcases (hmem t).mp ht with ⟨ht, -⟩ | rfl | rfl
    · exact h.spanned.one_le ht
    · exact hyspan
    · exact hzspan
  obtain ⟨hmap, htiled⟩ := map_eq_of_tiles hcells (ordered_modify hmaps' hrow hordered) hspans (by
    rw [hsame.groups, hsame.length]
    exact h.tiles.cut hxmem hcovers happart hmem)
  refine ⟨hsame, htiled, ?_⟩
  rw [placed, hmap]
  exact hmem

end Kompozer.TableEditor

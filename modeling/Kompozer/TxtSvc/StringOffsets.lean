import Kompozer.TxtSvc.Document
import Kompozer.Xpcom
import Mathlib

/-! Offsets in the string of a block as points in its text nodes (`nsTextServicesDocument.cpp`): the
selection and the ranges that are made from the offset table. -/

namespace Kompozer.TxtSvc

open NsResult

/-! ### Ranges and the selection -/

def NS_ERROR_DOM_NOT_OBJECT_ERR : NsResult := .error 0x805303EB

/-- The characters of a text node. -/
def nsIContent.text (node : nsIContent) : List UInt16 :=
  match node.kind with
  | .text data => data
  | _ => []

structure Point where
  node : nsIContent
  offset : ℤ
deriving DecidableEq, Repr

structure DomRange where
  start : Point
  stop : Point
deriving DecidableEq, Repr

section Ranges

-- the text nodes have places in the document
variable (place : nsIContent → ℕ)

/-- `nsRange::IsIncreasing`, of points in text nodes. -/
def IsIncreasing (p q : Point) : Bool :=
  if p.node = q.node then p.offset ≤ q.offset else place p.node < place q.node

/-- The offset is one of the node. -/
def Point.inNode (p : Point) : Bool := 0 ≤ p.offset && p.offset ≤ p.node.text.length

/-- `CreateRange`: `SetStart` and `SetEnd` of a new range. -/
def CreateRange (start : Point) : Option Point → NsResult × Option DomRange
  | none =>
    if start.inNode then (NS_ERROR_DOM_NOT_OBJECT_ERR, none)
    else (NS_ERROR_DOM_INDEX_SIZE_ERR, none)
  | some stop =>
    if !start.inNode || !stop.inNode then (NS_ERROR_DOM_INDEX_SIZE_ERR, none)
    else if !IsIncreasing place start stop then (NS_ERROR_ILLEGAL_VALUE, none)
    else (.ok, some ⟨start, stop⟩)

/-- The indices and offsets that the document keeps, and the anchor and the focus. -/
structure SelectionState where
  mSelStartIndex : ℤ := -1
  mSelStartOffset : ℤ := -1
  mSelEndIndex : ℤ := -1
  mSelEndOffset : ℤ := -1
  selection : Option (Point × Point) := none
deriving DecidableEq, Repr

/-- `nsTypedSelection::Collapse`. -/
def SelectionState.Collapse (s : SelectionState) (p : Point) : NsResult × SelectionState :=
  if p.inNode then (.ok, { s with selection := some (p, p) }) else (NS_ERROR_FAILURE, s)

/-- `nsTypedSelection::Extend`. -/
def SelectionState.Extend (s : SelectionState) (p : Point) : NsResult × SelectionState :=
  match s.selection with
  | none => (NS_ERROR_NOT_INITIALIZED, s)
  | some (anchor, focus) =>
    if focus = p then (NS_ERROR_FAILURE, s)
    else (.ok, { s with selection := some (anchor, p) })

/-- From the anchor to the focus, or back. -/
def SelectionState.range (s : SelectionState) : Option DomRange :=
  s.selection.map fun sel =>
    if IsIncreasing place sel.1 sel.2 then ⟨sel.1, sel.2⟩ else ⟨sel.2, sel.1⟩

/-! ### From offsets to points -/

/-- The offset in the node where `SetSelectionInternal` starts, if it is in the entry. -/
def OffsetEntry.startOffset (aOffset : ℤ) (entry : OffsetEntry) (next : Option OffsetEntry) :
    Option ℤ :=
  if entry.mIsInsertedText then
    if entry.mStrOffset = aOffset then some (entry.mNodeOffset + entry.mLength) else none
  else if aOffset ≥ entry.mStrOffset then
    let strEndOffset : ℤ := entry.mStrOffset + entry.mLength
    let foundEntry :=
      if aOffset < strEndOffset then true
      else if aOffset = strEndOffset then
        -- an inserted entry with the same offset may follow
        next.any fun nextEntry => !nextEntry.mIsValid || nextEntry.mStrOffset ≠ aOffset
      else false
    if foundEntry then some (entry.mNodeOffset + aOffset - entry.mStrOffset) else none
  else none

/-- The offset in the node, in the other loops. -/
def OffsetEntry.offsetAt (insertedOffset offset : ℤ) (entry : OffsetEntry) : Option ℤ :=
  if entry.mIsInsertedText then
    if entry.mStrOffset = insertedOffset then some (entry.mNodeOffset + entry.mLength) else none
  else if offset ≥ entry.mStrOffset ∧ offset ≤ entry.mStrOffset + entry.mLength then
    some (entry.mNodeOffset + offset - entry.mStrOffset)
  else none

/-- `for (i = 0; !sNode && i < mOffsetTable.Count(); i++)`, with the offset of an entry before the
next one. -/
def findStart (offsetIn : OffsetEntry → Option OffsetEntry → Option ℤ) :
    ℕ → List OffsetEntry → Option (ℕ × Point)
  | _, [] => none
  | i, entry :: rest =>
    match if entry.mIsValid then offsetIn entry rest.head? else none with
    | some offset => some (i, ⟨entry.mNode, offset⟩)
    | none => findStart offsetIn (i + 1) rest

/-- `for (i = mOffsetTable.Count() - 1; !eNode && i >= 0; i--)`, over the entries from the last to
the first. -/
def findEnd (offsetIn : OffsetEntry → Option ℤ) : List OffsetEntry → Option (ℕ × Point)
  | [] => none
  | entry :: before =>
    match if entry.mIsValid then offsetIn entry else none with
    | some offset => some (before.length, ⟨entry.mNode, offset⟩)
    | none => findEnd offsetIn before

section Document

variable (mSelCon : Bool) (mOffsetTable : List OffsetEntry)

/-- The offset of inserted text is compared with `eOffset`, which is zero until the end is found. -/
def endPoint (endOffset : ℤ) : Option (ℕ × Point) :=
  let eOffset : ℤ := 0
  findEnd (OffsetEntry.offsetAt eOffset endOffset) mOffsetTable.reverse

def GetDOMRangeFor (aOffset aLength : ℤ) : NsResult × Option DomRange :=
  if !mSelCon || aOffset < 0 || aLength < 0 then (NS_ERROR_FAILURE, none)
  else match findStart (fun entry _ => entry.offsetAt aOffset aOffset) 0 mOffsetTable with
    | none => (NS_ERROR_FAILURE, none)
    | some (_, sPoint) =>
      let endOffset := aOffset + aLength
      CreateRange place sPoint ((endPoint mOffsetTable endOffset).map Prod.snd)

/-- The second half of `SetSelectionInternal`. -/
def setSelectionEnd (s : SelectionState) (endOffset : ℤ) (aDoUpdate : Bool) :
    NsResult × SelectionState :=
  match endPoint mOffsetTable endOffset with
  | none => (.ok, s)
  | some (i, ePoint) =>
    let s := { s with mSelEndIndex := i, mSelEndOffset := endOffset }
    if aDoUpdate then s.Extend ePoint else (.ok, s)

def SetSelectionInternal (s : SelectionState) (aOffset aLength : ℤ) (aDoUpdate : Bool) :
    NsResult × SelectionState :=
  if !mSelCon || aOffset < 0 || aLength < 0 then (NS_ERROR_FAILURE, s)
  else match findStart (OffsetEntry.startOffset aOffset) 0 mOffsetTable with
    | none => (NS_ERROR_FAILURE, s)
    | some (i, sPoint) =>
      let s := { s with mSelStartIndex := i, mSelStartOffset := aOffset }
      let (result, s) := if aDoUpdate then s.Collapse sPoint else (.ok, s)
      if result.failed then (result, s)
      else if aLength ≤ 0 then
        (.ok, { s with mSelEndIndex := s.mSelStartIndex, mSelEndOffset := s.mSelStartOffset })
      else setSelectionEnd mOffsetTable s (aOffset + aLength) aDoUpdate

end Document

/-! ### What a range is to show -/

/-- An entry that is part of the string. -/
def OffsetEntry.original (entry : OffsetEntry) : Bool := entry.mIsValid && !entry.mIsInsertedText

/-- The text of an entry. -/
def OffsetEntry.text (entry : OffsetEntry) : List UInt16 :=
  (entry.mNode.text.drop entry.mNodeOffset).take entry.mLength

def string (table : List OffsetEntry) : List UInt16 :=
  (table.filter OffsetEntry.original).flatMap OffsetEntry.text

/-- A character of an entry is in a range. -/
def DomRange.covers (r : DomRange) (entry : OffsetEntry) (j : ℕ) : Bool :=
  IsIncreasing place r.start ⟨entry.mNode, entry.mNodeOffset + j⟩ &&
    IsIncreasing place ⟨entry.mNode, entry.mNodeOffset + j + 1⟩ r.stop

/-- The text that a range has in an entry. -/
def DomRange.textIn (r : DomRange) (entry : OffsetEntry) : List UInt16 :=
  (entry.text.zipIdx.filter fun c => r.covers place entry c.2).map Prod.fst

/-- The text of a range, without inserted text. -/
def DomRange.text (r : DomRange) (table : List OffsetEntry) : List UInt16 :=
  (table.filter OffsetEntry.original).flatMap (r.textIn place)

/-- A range shows a substring of the string, and begins and ends in nodes of the table. -/
structure Shows (table : List OffsetEntry) (offset length : ℕ) (r : DomRange) : Prop where
  start : ∃ entry ∈ table, r.start.node = entry.mNode
  stop : ∃ entry ∈ table, r.stop.node = entry.mNode
  increasing : IsIncreasing place r.start r.stop = true
  text : r.text place table = ((string table).drop offset).take length

/-- The original entries tile a string from `pos` to `stop`, and inserted text lies between. -/
def Tiles : ℕ → List OffsetEntry → ℕ → Prop
  | pos, [], stop => pos = stop
  | pos, entry :: rest, stop =>
    if entry.mIsValid then
      entry.mStrOffset = pos ∧
        Tiles (if entry.mIsInsertedText then pos else pos + entry.mLength) rest stop
    else Tiles pos rest stop

/-- One entry is before another in the document. -/
def OffsetEntry.Before (e f : OffsetEntry) : Prop :=
  place e.mNode < place f.mNode ∨
    e.mNode = f.mNode ∧ e.mNodeOffset + e.mLength ≤ f.mNodeOffset

/-- An offset table for a string of `stop` characters. -/
structure OffsetTable (table : List OffsetEntry) (stop : ℕ) : Prop where
  tiles : Tiles 0 table stop
  ordered : (table.filter OffsetEntry.mIsValid).Pairwise (OffsetEntry.Before place)
  inNode : ∀ entry ∈ table, entry.mIsValid = true →
    entry.mNodeOffset + entry.mLength ≤ entry.mNode.text.length

/-- Both functions succeed, with a range that shows the substring. -/
def MapsRight (mSelCon : Bool) (table : List OffsetEntry) (s : SelectionState)
    (offset length : ℕ) : Prop :=
  (∃ s' r, SetSelectionInternal mSelCon table s offset length true = (.ok, s') ∧
    s'.range place = some r ∧ Shows place table offset length r) ∧
  ∃ r, GetDOMRangeFor place mSelCon table offset length = (.ok, some r) ∧
    Shows place table offset length r

/-! ### Points -/

section Points

variable {place} {p q r : Point}

theorem isIncreasing_iff : IsIncreasing place p q = true ↔
    p.node = q.node ∧ p.offset ≤ q.offset ∨ p.node ≠ q.node ∧ place p.node < place q.node := by
  unfold IsIncreasing
  split_ifs with h <;> simp [h]

theorem IsIncreasing.refl (p : Point) : IsIncreasing place p p = true :=
  isIncreasing_iff.mpr (.inl ⟨rfl, le_refl _⟩)

theorem IsIncreasing.trans (hpq : IsIncreasing place p q = true)
    (hqr : IsIncreasing place q r = true) : IsIncreasing place p r = true := by
  rw [isIncreasing_iff] at hpq hqr ⊢
  rcases hpq with ⟨hnode, hle⟩ | ⟨hnode, hlt⟩
  · rcases hqr with ⟨hnode', hle'⟩ | ⟨hnode', hlt'⟩
    · exact .inl ⟨hnode.trans hnode', hle.trans hle'⟩
    · rw [hnode]
      exact .inr ⟨hnode', hlt'⟩
  · rcases hqr with ⟨hnode', hle'⟩ | ⟨hnode', hlt'⟩
    · rw [← hnode']
      exact .inr ⟨hnode, hlt⟩
    · refine .inr ⟨fun heq => ?_, hlt.trans hlt'⟩
      rw [heq] at hlt
      exact absurd (hlt.trans hlt') (lt_irrefl _)

/-- Of points in two entries, the one in the first entry is before the other. -/
theorem OffsetEntry.Before.isIncreasing {e f : OffsetEntry} (h : e.Before place f) {i j : ℤ}
    (hi : i ≤ e.mNodeOffset + e.mLength) (hj : f.mNodeOffset ≤ j) :
    IsIncreasing place ⟨e.mNode, i⟩ ⟨f.mNode, j⟩ = true := by
  rw [isIncreasing_iff]
  rcases h with hlt | ⟨hnode, hle⟩
  · refine .inr ⟨fun heq => ?_, hlt⟩
    dsimp only at heq
    rw [heq] at hlt
    exact lt_irrefl _ hlt
  · refine .inl ⟨hnode, ?_⟩
    dsimp only
    omega

/-- And the other is not before the one, unless it is the same. -/
theorem OffsetEntry.Before.not_isIncreasing {e f : OffsetEntry} (h : e.Before place f) {i j : ℤ}
    (hi : i ≤ e.mNodeOffset + e.mLength) (hj : f.mNodeOffset ≤ j)
    (hij : i < e.mNodeOffset + e.mLength ∨ f.mNodeOffset < j) :
    IsIncreasing place ⟨f.mNode, j⟩ ⟨e.mNode, i⟩ = false := by
  rw [Bool.eq_false_iff, ne_eq, isIncreasing_iff]
  rintro (⟨hnode, hle⟩ | ⟨hnode, hlt⟩)
  · dsimp only at hnode hle
    rcases h with hlt | ⟨-, hle'⟩
    · rw [hnode] at hlt
      exact lt_irrefl _ hlt
    · omega
  · dsimp only at hnode hlt
    rcases h with hlt' | ⟨hnode', -⟩
    · exact lt_irrefl _ (hlt.trans hlt')
    · exact hnode hnode'.symm

end Points

/-! ### Tiles -/

/-- The part of the string that an entry is. -/
def OffsetEntry.span (entry : OffsetEntry) : ℕ := if entry.mIsInsertedText then 0 else entry.mLength

section Tiles

variable {table rest before after : List OffsetEntry} {entry e f : OffsetEntry} {pos stop k : ℕ}

theorem tiles_cons_valid (h : entry.mIsValid = true) : Tiles pos (entry :: rest) stop ↔
    entry.mStrOffset = pos ∧ Tiles (pos + entry.span) rest stop := by
  rw [Tiles, if_pos h, OffsetEntry.span]
  split_ifs <;> rfl

theorem tiles_cons_invalid (h : entry.mIsValid = false) :
    Tiles pos (entry :: rest) stop ↔ Tiles pos rest stop := by
  rw [Tiles, if_neg (by simp [h])]

theorem Tiles.le (h : Tiles pos table stop) : pos ≤ stop := by
  induction table generalizing pos with
  | nil => exact Nat.le_of_eq h
  | cons entry rest ih =>
    cases hvalid : entry.mIsValid with
    | true =>
      have := ih ((tiles_cons_valid hvalid).mp h).2
      omega
    | false => exact ih ((tiles_cons_invalid hvalid).mp h)

/-- The entries lie in the string one after the other. -/
theorem Tiles.mem (h : Tiles pos table stop) (hmem : e ∈ table) (hvalid : e.mIsValid = true) :
    pos ≤ e.mStrOffset ∧ e.mStrOffset + e.span ≤ stop := by
  induction table generalizing pos with
  | nil => simp at hmem
  | cons entry rest ih =>
    cases hentry : entry.mIsValid with
    | true =>
      obtain ⟨hoffset, hrest⟩ := (tiles_cons_valid hentry).mp h
      rcases List.mem_cons.mp hmem with rfl | hmem
      · have := hrest.le
        omega
      · have := ih hrest hmem
        omega
    | false =>
      rcases List.mem_cons.mp hmem with rfl | hmem
      · rw [hvalid] at hentry
        cases hentry
      · exact ih ((tiles_cons_invalid hentry).mp h) hmem

theorem Tiles.split (h : Tiles pos (before ++ after) stop) :
    ∃ middle, Tiles pos before middle ∧ Tiles middle after stop := by
  induction before generalizing pos with
  | nil => exact ⟨pos, rfl, h⟩
  | cons entry rest ih =>
    rw [List.cons_append] at h
    cases hvalid : entry.mIsValid with
    | true =>
      obtain ⟨hoffset, hrest⟩ := (tiles_cons_valid hvalid).mp h
      obtain ⟨middle, hfirst, hsecond⟩ := ih hrest
      exact ⟨middle, (tiles_cons_valid hvalid).mpr ⟨hoffset, hfirst⟩, hsecond⟩
    | false =>
      obtain ⟨middle, hfirst, hsecond⟩ := ih ((tiles_cons_invalid hvalid).mp h)
      exact ⟨middle, (tiles_cons_invalid hvalid).mpr hfirst, hsecond⟩

/-- What is before an entry and behind it. -/
theorem Tiles.around (h : Tiles pos (before ++ e :: after) stop) (he : e.mIsValid = true) :
    (∀ f ∈ before, f.mIsValid = true → f.mStrOffset + f.span ≤ e.mStrOffset) ∧
      ∀ f ∈ after, f.mIsValid = true → e.mStrOffset + e.span ≤ f.mStrOffset := by
  obtain ⟨middle, hbefore, hrest⟩ := h.split
  obtain ⟨hoffset, hafter⟩ := (tiles_cons_valid he).mp hrest
  refine ⟨fun f hf hvalid => ?_, fun f hf hvalid => ?_⟩
  · have := hbefore.mem hf hvalid
    omega
  · have := hafter.mem hf hvalid
    omega

theorem OffsetEntry.original_iff : e.original = true ↔
    e.mIsValid = true ∧ e.mIsInsertedText = false := by
  simp [original]

theorem OffsetEntry.span_original (h : e.original = true) : e.span = e.mLength := by
  rw [span, (original_iff.mp h).2]
  rfl

/-- Every place before the end of the string is the place of a character. -/
theorem Tiles.exists_lt (h : Tiles pos table stop) (hpos : pos ≤ k) (hk : k < stop) :
    ∃ e ∈ table, e.original = true ∧ e.mStrOffset ≤ k ∧ k < e.mStrOffset + e.mLength := by
  induction table generalizing pos with
  | nil =>
    have heq : pos = stop := h
    omega
  | cons entry rest ih =>
    cases hvalid : entry.mIsValid with
    | true =>
      obtain ⟨hoffset, hrest⟩ := (tiles_cons_valid hvalid).mp h
      by_cases hin : k < pos + entry.span
      · cases hinserted : entry.mIsInsertedText with
        | true =>
          rw [OffsetEntry.span, hinserted, if_pos rfl] at hin
          omega
        | false =>
          rw [OffsetEntry.span, hinserted, if_neg Bool.false_ne_true] at hin
          exact ⟨entry, List.mem_cons_self,
            OffsetEntry.original_iff.mpr ⟨hvalid, hinserted⟩, by omega, by omega⟩
      · obtain ⟨e, hmem, he⟩ := ih hrest (by omega)
        exact ⟨e, List.mem_cons_of_mem _ hmem, he⟩
    | false =>
      obtain ⟨e, hmem, he⟩ := ih ((tiles_cons_invalid hvalid).mp h) hpos
      exact ⟨e, List.mem_cons_of_mem _ hmem, he⟩

/-- And every place but the first is behind one. -/
theorem Tiles.exists_le (h : Tiles 0 table stop) (hpos : 0 < k) (hk : k ≤ stop) :
    ∃ e ∈ table, e.original = true ∧ e.mStrOffset < k ∧ k ≤ e.mStrOffset + e.mLength := by
  obtain ⟨e, hmem, he, hle, hlt⟩ := h.exists_lt (Nat.zero_le (k - 1)) (by omega)
  exact ⟨e, hmem, he, by omega, by omega⟩

end Tiles

/-! ### The text of a range -/

section Text

variable {place} {table before after : List OffsetEntry} {e : OffsetEntry} {p : Point}
  {r : DomRange} {a b d k pos stop : ℕ}

/-- The characters from `a` on are behind a point. -/
def StartsAt (place : nsIContent → ℕ) (table : List OffsetEntry) (p : Point) (a : ℕ) : Prop :=
  ∀ e ∈ table, e.original = true → ∀ j < e.mLength,
    (IsIncreasing place p ⟨e.mNode, e.mNodeOffset + j⟩ = true ↔ a ≤ e.mStrOffset + j)

/-- The characters up to `b` are before a point. -/
def EndsAt (place : nsIContent → ℕ) (table : List OffsetEntry) (p : Point) (b : ℕ) : Prop :=
  ∀ e ∈ table, e.original = true → ∀ j < e.mLength,
    (IsIncreasing place ⟨e.mNode, e.mNodeOffset + j + 1⟩ p = true ↔ e.mStrOffset + j + 1 ≤ b)

/-- What of `l`, which is at the place `s`, lies between `a` and `b`. -/
theorem filter_zipIdx {α : Type*} (l : List α) (s i a b : ℕ) :
    ((l.zipIdx i).filter fun c => a ≤ s + c.2 ∧ s + c.2 + 1 ≤ b).map Prod.fst =
      (l.take (b - (s + i))).drop (a - (s + i)) := by
  induction l generalizing i with
  | nil => simp
  | cons x l ih =>
    rw [List.zipIdx_cons, List.filter_cons]
    have hshift : s + (i + 1) = s + i + 1 := by omega
    have ih := ih (i + 1)
    rw [hshift] at ih
    dsimp only
    by_cases hin : a ≤ s + i ∧ s + i + 1 ≤ b
    · rw [if_pos (decide_eq_true hin), List.map_cons, ih]
      obtain ⟨n, hn⟩ : ∃ n, b - (s + i) = n + 1 := ⟨b - (s + i) - 1, by omega⟩
      rw [hn, List.take_succ_cons, show a - (s + i) = 0 by omega, show a - (s + i + 1) = 0 by omega,
        show b - (s + i + 1) = n by omega]
      rfl
    · rw [if_neg (by simpa using hin), ih]
      by_cases hb : s + i + 1 ≤ b
      · obtain ⟨n, hn⟩ : ∃ n, b - (s + i) = n + 1 := ⟨b - (s + i) - 1, by omega⟩
        obtain ⟨m, hm⟩ : ∃ m, a - (s + i) = m + 1 := ⟨a - (s + i) - 1, by omega⟩
        rw [hn, List.take_succ_cons, hm, List.drop_succ_cons, show a - (s + i + 1) = m by omega,
          show b - (s + i + 1) = n by omega]
      · rw [show b - (s + i) = 0 by omega, show b - (s + i + 1) = 0 by omega]
        simp

/-- The text between two points. -/
theorem text_between {pos : ℕ} (htiles : Tiles pos table stop)
    (hnodes : ∀ e ∈ table, e.mIsValid = true → e.mNodeOffset + e.mLength ≤ e.mNode.text.length)
    (hstart : StartsAt place table r.start a) (hend : EndsAt place table r.stop b) :
    r.text place table = ((string table).take (b - pos)).drop (a - pos) := by
  induction table generalizing pos with
  | nil => simp [DomRange.text, string]
  | cons e rest ih =>
    have hstart' : StartsAt place rest r.start a := fun f hf => hstart f (List.mem_cons_of_mem _ hf)
    have hend' : EndsAt place rest r.stop b := fun f hf => hend f (List.mem_cons_of_mem _ hf)
    have hnodes' := fun f (hf : f ∈ rest) => hnodes f (List.mem_cons_of_mem _ hf)
    cases hvalid : e.mIsValid with
    | false =>
      have hnot : ¬e.original = true := by simp [OffsetEntry.original, hvalid]
      rw [DomRange.text, string, List.filter_cons_of_neg hnot]
      exact ih ((tiles_cons_invalid hvalid).mp htiles) hnodes' hstart' hend'
    | true =>
      obtain ⟨hoffset, hrest⟩ := (tiles_cons_valid hvalid).mp htiles
      cases hinserted : e.mIsInsertedText with
      | true =>
        have hnot : ¬e.original = true := by simp [OffsetEntry.original, hinserted]
        rw [OffsetEntry.span, hinserted, if_pos rfl] at hrest
        rw [DomRange.text, string, List.filter_cons_of_neg hnot]
        exact ih hrest hnodes' hstart' hend'
      | false =>
        have horiginal : e.original = true := OffsetEntry.original_iff.mpr ⟨hvalid, hinserted⟩
        rw [OffsetEntry.span_original horiginal] at hrest
        have ih := ih hrest hnodes' hstart' hend'
        have hlength : e.text.length = e.mLength := by
          have hle := hnodes e List.mem_cons_self hvalid
          rw [OffsetEntry.text, List.length_take, List.length_drop]
          omega
        have hin : r.textIn place e = (e.text.take (b - pos)).drop (a - pos) := by
          rw [← Nat.add_zero pos, ← filter_zipIdx, DomRange.textIn]
          congr 1
          apply List.filter_congr
          rintro ⟨c, j⟩ hc
          have hj : j < e.mLength := by
            have := (List.mem_zipIdx hc).2.1
            omega
          have hs := hstart e List.mem_cons_self horiginal j hj
          have he := hend e List.mem_cons_self horiginal j hj
          rw [Bool.eq_iff_iff, DomRange.covers, Bool.and_eq_true, hs, he, decide_eq_true_iff,
            hoffset]
        rw [DomRange.text, string, List.filter_cons_of_pos horiginal, List.flatMap_cons,
          List.flatMap_cons, hin]
        change _ ++ r.text place rest = ((e.text ++ string rest).take _).drop _
        rw [ih, List.take_append, List.drop_append, hlength, List.length_take, hlength]
        congr 1
        by_cases hb : b ≤ pos + e.mLength
        · rw [show b - (pos + e.mLength) = 0 by omega, show b - pos - e.mLength = 0 by omega]
          simp
        · rw [Nat.min_eq_right (by omega), Nat.sub_sub, Nat.sub_sub]

/-- A point in an entry is where the characters behind it start and those before it end. -/
theorem OffsetTable.cut (h : OffsetTable place table stop) (htable : table = before ++ e :: after)
    (he : e.mIsValid = true) (hd : d ≤ e.mLength)
    (hk : k = if e.mIsInsertedText then e.mStrOffset else e.mStrOffset + d)
    (hp : p = ⟨e.mNode, e.mNodeOffset + d⟩) :
    StartsAt place table p k ∧ EndsAt place table p k := by
  have htiles := h.tiles
  have hordered := h.ordered
  rw [htable] at htiles hordered
  obtain ⟨hbefore, hafter⟩ := htiles.around he
  rw [List.filter_append, List.filter_cons_of_pos he, List.pairwise_append,
    List.pairwise_cons] at hordered
  obtain ⟨-, ⟨hbehind, -⟩, hfront⟩ := hordered
  have hspan : e.mStrOffset ≤ k ∧ k ≤ e.mStrOffset + e.span := by
    rw [hk, OffsetEntry.span]
    split_ifs <;> omega
  have hside : ∀ f ∈ table, f.original = true → f.mStrOffset + f.mLength ≤ k ∧ f.Before place e ∨
      k ≤ f.mStrOffset ∧ e.Before place f ∨ f = e := by
    intro f hf horiginal
    have hvalid := (OffsetEntry.original_iff.mp horiginal).1
    rw [htable, List.mem_append, List.mem_cons] at hf
    rcases hf with hf | rfl | hf
    · have hle := hbefore f hf hvalid
      rw [OffsetEntry.span_original horiginal] at hle
      exact .inl ⟨by omega, hfront f (List.mem_filter.mpr ⟨hf, hvalid⟩) e List.mem_cons_self⟩
    · exact .inr (.inr rfl)
    · have hle := hafter f hf hvalid
      exact .inr (.inl ⟨by omega, hbehind f (List.mem_filter.mpr ⟨hf, hvalid⟩)⟩)
  subst hp
  constructor
  · intro f hf horiginal j hj
    rcases hside f hf horiginal with ⟨hle, hbe⟩ | ⟨hle, hbe⟩ | rfl
    · rw [hbe.not_isIncreasing (by omega) (by omega) (.inl (by omega))]
      constructor
      · exact fun hfalse => absurd hfalse Bool.false_ne_true
      · exact fun hge => absurd hge (by omega)
    · rw [hbe.isIncreasing (by omega) (by omega)]
      exact ⟨fun _ => by omega, fun _ => rfl⟩
    · rw [(OffsetEntry.original_iff.mp horiginal).2, if_neg Bool.false_ne_true] at hk
      simp only [isIncreasing_iff, true_and, ne_eq, not_true_eq_false, false_and, or_false]
      omega
  · intro f hf horiginal j hj
    rcases hside f hf horiginal with ⟨hle, hbe⟩ | ⟨hle, hbe⟩ | rfl
    · rw [hbe.isIncreasing (by omega) (by omega)]
      exact ⟨fun _ => by omega, fun _ => rfl⟩
    · rw [hbe.not_isIncreasing (by omega) (by omega) (.inr (by omega))]
      constructor
      · exact fun hfalse => absurd hfalse Bool.false_ne_true
      · exact fun hge => absurd hge (by omega)
    · rw [(OffsetEntry.original_iff.mp horiginal).2, if_neg Bool.false_ne_true] at hk
      simp only [isIncreasing_iff, true_and, ne_eq, not_true_eq_false, false_and, or_false]
      omega

end Text

/-! ### The loops -/

section Loops

variable {place} {table before after : List OffsetEntry} {e : OffsetEntry} {p : Point}
  {a b d k i stop : ℕ}

/-- The first entry that has the offset. -/
theorem findStart_eq_some {offsetIn : OffsetEntry → Option OffsetEntry → Option ℤ}
    (h : findStart offsetIn i table = some (k, p)) : ∃ before entry after offset,
      table = before ++ entry :: after ∧ entry.mIsValid = true ∧
      offsetIn entry after.head? = some offset ∧ p = ⟨entry.mNode, offset⟩ ∧
      ∀ front e back, before = front ++ e :: back → e.mIsValid = true →
        offsetIn e (back ++ entry :: after).head? = none := by
  induction table generalizing i with
  | nil => cases h
  | cons entry rest ih =>
    rw [findStart] at h
    split at h
    · rename_i offset hoffset
      cases h
      cases hvalid : entry.mIsValid with
      | false =>
        rw [hvalid, if_neg Bool.false_ne_true] at hoffset
        cases hoffset
      | true =>
        rw [hvalid, if_pos rfl] at hoffset
        exact ⟨[], entry, rest, offset, rfl, hvalid, hoffset, rfl, by simp⟩
    · rename_i hnone
      obtain ⟨before, found, after, offset, rfl, hvalid, hoffset, hp, hfirst⟩ := ih h
      refine ⟨entry :: before, found, after, offset, rfl, hvalid, hoffset, hp, ?_⟩
      intro front e back hsplit he
      cases front with
      | nil =>
        obtain ⟨rfl, rfl⟩ := List.cons.inj hsplit
        rw [he, if_pos rfl] at hnone
        exact hnone
      | cons x front => exact hfirst front e back (List.cons.inj hsplit).2 he

theorem findStart_isSome {offsetIn : OffsetEntry → Option OffsetEntry → Option ℤ} {offset : ℤ}
    (he : e.mIsValid = true) (hoffset : offsetIn e after.head? = some offset) :
    ∃ k p, findStart offsetIn i (before ++ e :: after) = some (k, p) := by
  induction before generalizing i with
  | nil =>
    rw [List.nil_append, findStart, he, if_pos rfl, hoffset]
    exact ⟨_, _, rfl⟩
  | cons x before ih =>
    rw [List.cons_append, findStart]
    split
    · exact ⟨_, _, rfl⟩
    · exact ih

/-- The last entry that has the offset. -/
theorem findEnd_eq_some {offsetIn : OffsetEntry → Option ℤ}
    (h : findEnd offsetIn table = some (k, p)) : ∃ before entry after offset,
      table.reverse = before ++ entry :: after ∧ entry.mIsValid = true ∧
      offsetIn entry = some offset ∧ p = ⟨entry.mNode, offset⟩ ∧
      ∀ e ∈ after, e.mIsValid = true → offsetIn e = none := by
  induction table with
  | nil => cases h
  | cons entry rest ih =>
    rw [findEnd] at h
    split at h
    · rename_i offset hoffset
      cases h
      cases hvalid : entry.mIsValid with
      | false =>
        rw [hvalid, if_neg Bool.false_ne_true] at hoffset
        cases hoffset
      | true =>
        rw [hvalid, if_pos rfl] at hoffset
        exact ⟨rest.reverse, entry, [], offset, by simp, hvalid, hoffset, rfl, by simp⟩
    · rename_i hnone
      obtain ⟨before, found, after, offset, hsplit, hvalid, hoffset, hp, hlast⟩ := ih h
      refine ⟨before, found, after ++ [entry], offset, ?_, hvalid, hoffset, hp, ?_⟩
      · rw [List.reverse_cons, hsplit, List.append_assoc, List.cons_append]
      · intro e hmem he
        rcases List.mem_append.mp hmem with hmem | hmem
        · exact hlast e hmem he
        · obtain rfl := List.mem_singleton.mp hmem
          rw [he, if_pos rfl] at hnone
          exact hnone

theorem findEnd_isSome {offsetIn : OffsetEntry → Option ℤ} {offset : ℤ} (hmem : e ∈ table)
    (he : e.mIsValid = true) (hoffset : offsetIn e = some offset) :
    ∃ k p, findEnd offsetIn table = some (k, p) := by
  induction table with
  | nil => simp at hmem
  | cons x rest ih =>
    rw [findEnd]
    split
    · exact ⟨_, _, rfl⟩
    · rename_i hnone
      rcases List.mem_cons.mp hmem with rfl | hmem
      · rw [he, if_pos rfl, hoffset] at hnone
        cases hnone
      · exact ih hmem

/-- What an entry has the offset `a` at. -/
def OffsetEntry.Has (e : OffsetEntry) (a d : ℕ) : Prop :=
  d ≤ e.mLength ∧ a = if e.mIsInsertedText then e.mStrOffset else e.mStrOffset + d

theorem offsetAt_eq_some {offset : ℤ} :
    e.offsetAt a a = some offset ↔
      ∃ d : ℕ, offset = e.mNodeOffset + d ∧ e.Has a d ∧
        (e.mIsInsertedText = true → d = e.mLength) := by
  unfold OffsetEntry.offsetAt OffsetEntry.Has
  cases e.mIsInsertedText with
  | true =>
    simp only [if_true]
    constructor
    · intro h
      split_ifs at h with heq
      cases h
      exact ⟨e.mLength, rfl, ⟨Nat.le_refl _, by omega⟩, fun _ => rfl⟩
    · rintro ⟨d, rfl, ⟨-, heq⟩, hd⟩
      rw [hd trivial, if_pos (by omega)]
  | false =>
    simp only [Bool.false_eq_true, if_false, false_implies, and_true]
    constructor
    · intro h
      split_ifs at h with hin
      cases h
      exact ⟨a - e.mStrOffset, by omega, by omega, by omega⟩
    · rintro ⟨d, rfl, hd, heq⟩
      rw [if_pos (by omega)]
      congr 1
      omega

/-- The caret is at an offset that the entry has. -/
theorem startOffset_eq_some {offset : ℤ} {next : Option OffsetEntry}
    (h : e.startOffset a next = some offset) :
    ∃ d : ℕ, offset = e.mNodeOffset + d ∧ e.Has a d := by
  unfold OffsetEntry.startOffset at h
  unfold OffsetEntry.Has
  cases hinserted : e.mIsInsertedText with
  | true =>
    rw [hinserted, if_pos rfl] at h
    split_ifs at h with heq
    cases h
    exact ⟨e.mLength, rfl, Nat.le_refl _, by rw [if_pos rfl]; omega⟩
  | false =>
    rw [hinserted, if_neg Bool.false_ne_true] at h
    dsimp only at h
    split_ifs at h with hge hlt heq hnext
    · cases h
      exact ⟨a - e.mStrOffset, by omega, by omega, by rw [if_neg Bool.false_ne_true]; omega⟩
    · cases h
      exact ⟨a - e.mStrOffset, by omega, by omega, by rw [if_neg Bool.false_ne_true]; omega⟩
    · contradiction

theorem offsetAt_original {o : ℤ} (h : e.original = true) (hlo : e.mStrOffset ≤ b)
    (hhi : b ≤ e.mStrOffset + e.mLength) :
    e.offsetAt o b = some (e.mNodeOffset + b - e.mStrOffset : ℤ) := by
  unfold OffsetEntry.offsetAt
  rw [(OffsetEntry.original_iff.mp h).2, if_neg Bool.false_ne_true, if_pos (by omega)]

/-- The offset zero is right for original entries, and for inserted text at the front. -/
theorem offsetAt_zero (h : e.mIsInsertedText = true → b = 0) : e.offsetAt 0 b = e.offsetAt b b := by
  cases hinserted : e.mIsInsertedText with
  | true => rw [h hinserted, Nat.cast_zero]
  | false =>
    unfold OffsetEntry.offsetAt
    rw [hinserted]
    rfl

/-- An original entry has every offset, or the string is empty. -/
theorem OffsetTable.exists_has (h : OffsetTable place table stop) (hb : b ≤ stop)
    (hsome : ∃ e ∈ table, e.mIsValid = true) : ∃ e ∈ table, e.mIsValid = true ∧
      ∃ d, e.Has b d ∧ (e.mIsInsertedText = true → d = e.mLength ∧ b = 0) := by
  have horiginal : ∀ e : OffsetEntry, e.original = true → e.mStrOffset ≤ b →
      b ≤ e.mStrOffset + e.mLength → e.mIsValid = true ∧
      ∃ d, e.Has b d ∧ (e.mIsInsertedText = true → d = e.mLength ∧ b = 0) := by
    intro e he hlo hhi
    obtain ⟨hvalid, hinserted⟩ := OffsetEntry.original_iff.mp he
    refine ⟨hvalid, b - e.mStrOffset, ⟨by omega, ?_⟩, fun htrue => ?_⟩
    · rw [hinserted, if_neg Bool.false_ne_true]
      omega
    · rw [hinserted] at htrue
      cases htrue
  by_cases hpos : 0 < b
  · obtain ⟨e, he, hin, hlo, hhi⟩ := h.tiles.exists_le hpos hb
    exact ⟨e, he, horiginal e hin (by omega) hhi⟩
  · by_cases hstop : 0 < stop
    · obtain ⟨e, he, hin, hlo, hhi⟩ := h.tiles.exists_lt (Nat.zero_le b) (by omega)
      exact ⟨e, he, horiginal e hin hlo (by omega)⟩
    · obtain ⟨e, he, hvalid⟩ := hsome
      have hplace := h.tiles.mem he hvalid
      cases hinserted : e.mIsInsertedText with
      | true =>
        refine ⟨e, he, hvalid, e.mLength, ⟨Nat.le_refl _, ?_⟩, fun _ => ⟨rfl, by omega⟩⟩
        rw [hinserted, if_pos rfl]
        omega
      | false =>
        have hin := OffsetEntry.original_iff.mpr ⟨hvalid, hinserted⟩
        exact ⟨e, he, horiginal e hin (by omega) (by omega)⟩

/-- The last entry at the end offset. The offset zero of inserted text does no harm, since the
characters before the end are in entries behind such text. -/
theorem OffsetTable.endPoint_eq (h : OffsetTable place table stop) (hb : b ≤ stop)
    (hsome : ∃ e ∈ table, e.mIsValid = true) : ∃ before e after, ∃ k d : ℕ,
      table = before ++ e :: after ∧ e.mIsValid = true ∧ e.Has b d ∧
      (e.mIsInsertedText = true → d = e.mLength ∧ b = 0) ∧
      endPoint table b = some (k, ⟨e.mNode, e.mNodeOffset + d⟩) ∧
      ∀ f ∈ after, f.mIsValid = true → f.offsetAt 0 b = none := by
  obtain ⟨e, he, hvalid, d, hhas, hinserted⟩ := h.exists_has hb hsome
  have hat : e.offsetAt 0 b = some (e.mNodeOffset + d : ℤ) := by
    rw [offsetAt_zero fun htrue => (hinserted htrue).2]
    exact offsetAt_eq_some.mpr ⟨d, rfl, hhas, fun htrue => (hinserted htrue).1⟩
  obtain ⟨k, p, hfound⟩ := findEnd_isSome (List.mem_reverse.mpr he) hvalid hat
  obtain ⟨before, f, after, offset, hsplit, hf, hoffset, rfl, hlast⟩ := findEnd_eq_some hfound
  rw [List.reverse_reverse] at hsplit
  have hzero : f.mIsInsertedText = true → b = 0 := by
    intro htrue
    by_contra hne
    obtain ⟨g, hg, horiginal, hlo, hhi⟩ := h.tiles.exists_le (Nat.pos_of_ne_zero hne) hb
    obtain ⟨hgvalid, hgins⟩ := OffsetEntry.original_iff.mp horiginal
    have htiles := h.tiles
    rw [hsplit] at hg htiles
    have hstart : f.mStrOffset = 0 := by
      unfold OffsetEntry.offsetAt at hoffset
      rw [htrue, if_pos rfl] at hoffset
      split_ifs at hoffset with heq
      omega
    rcases List.mem_append.mp hg with hg | hg
    · have hbefore := (htiles.around hf).1 g hg hgvalid
      rw [OffsetEntry.span_original horiginal] at hbefore
      omega
    · rcases List.mem_cons.mp hg with rfl | hg
      · rw [htrue] at hgins
        cases hgins
      · have hnone := hlast g hg hgvalid
        rw [offsetAt_original horiginal hlo.le hhi] at hnone
        cases hnone
  rw [offsetAt_zero hzero] at hoffset
  obtain ⟨d', rfl, hhas', hins'⟩ := offsetAt_eq_some.mp hoffset
  exact ⟨before, f, after, k, d', hsplit, hf, hhas',
    fun htrue => ⟨hins' htrue, hzero htrue⟩, hfound, hlast⟩

/-! ### Both functions -/

/-- A range between two points that entries of the table have. -/
theorem OffsetTable.shows (h : OffsetTable place table stop) {e' : OffsetEntry}
    {before' after' : List OffsetEntry} {d' : ℕ} (htable : table = before ++ e :: after)
    (htable' : table = before' ++ e' :: after') (he : e.mIsValid = true) (he' : e'.mIsValid = true)
    (hd : e.Has a d) (hd' : e'.Has b d')
    (hle : IsIncreasing place ⟨e.mNode, e.mNodeOffset + d⟩ ⟨e'.mNode, e'.mNodeOffset + d'⟩ = true) :
    Shows place table a (b - a)
      ⟨⟨e.mNode, e.mNodeOffset + d⟩, ⟨e'.mNode, e'.mNodeOffset + d'⟩⟩ := by
  refine ⟨⟨e, by rw [htable]; simp, rfl⟩, ⟨e', by rw [htable']; simp, rfl⟩, hle, ?_⟩
  rw [text_between h.tiles h.inNode (h.cut htable he hd.1 hd.2 rfl).1
    (h.cut htable' he' hd'.1 hd'.2 rfl).2, Nat.sub_zero, Nat.sub_zero, List.take_drop]
  by_cases hab : a ≤ b
  · rw [Nat.add_sub_cancel' hab]
  · rw [List.drop_eq_nil_of_le (by rw [List.length_take]; omega),
      List.drop_eq_nil_of_le (by rw [List.length_take]; omega)]

theorem OffsetTable.inNode_point (h : OffsetTable place table stop)
    (htable : table = before ++ e :: after) (he : e.mIsValid = true) (hd : d ≤ e.mLength) :
    Point.inNode ⟨e.mNode, e.mNodeOffset + d⟩ = true := by
  have hle := h.inNode e (by rw [htable]; simp) he
  unfold Point.inNode
  simp only [Bool.and_eq_true, decide_eq_true_iff]
  omega

/-- Where characters lie between two points, the one point is before the other. -/
theorem OffsetTable.lt_of_lt (h : OffsetTable place table stop) {p q : Point}
    (hp : StartsAt place table p a) (hq : EndsAt place table q b) (hab : a < b) (hb : b ≤ stop) :
    IsIncreasing place p q = true ∧ p ≠ q := by
  obtain ⟨e, he, horiginal, hlo, hhi⟩ := h.tiles.exists_lt (Nat.zero_le a) (by omega)
  have hstart := (hp e he horiginal (a - e.mStrOffset) (by omega)).mpr (by omega)
  have hend := (hq e he horiginal (a - e.mStrOffset) (by omega)).mpr (by omega)
  have hstep : IsIncreasing place ⟨e.mNode, e.mNodeOffset + (a - e.mStrOffset : ℕ)⟩
      ⟨e.mNode, e.mNodeOffset + (a - e.mStrOffset : ℕ) + 1⟩ = true :=
    isIncreasing_iff.mpr (.inl ⟨rfl, by dsimp only; omega⟩)
  refine ⟨IsIncreasing.trans (IsIncreasing.trans hstart hstep) hend, ?_⟩
  rintro rfl
  have hback := IsIncreasing.trans hend hstart
  rw [isIncreasing_iff] at hback
  rcases hback with ⟨-, hle⟩ | ⟨hne, -⟩
  · dsimp only at hle
    omega
  · exact hne rfl

/-- Two entries of a table are the same one, or one is behind the other. -/
theorem split_cases {e' : OffsetEntry} {before' after' : List OffsetEntry}
    (h : before ++ e :: after = before' ++ e' :: after') :
    (∃ middle, after' = middle ++ e :: after) ∨ e = e' ∨
      ∃ middle, before' = before ++ e :: middle := by
  rcases List.append_eq_append_iff.mp h with ⟨front, hfront, hrest⟩ | ⟨front, hfront, hrest⟩
  · cases front with
    | nil => exact .inr (.inl (List.cons.inj hrest).1)
    | cons x front =>
      obtain ⟨rfl, -⟩ := List.cons.inj hrest
      exact .inr (.inr ⟨front, hfront⟩)
  · cases front with
    | nil => exact .inr (.inl (List.cons.inj hrest).1.symm)
    | cons x front => exact .inl ⟨front, (List.cons.inj hrest).2⟩

/-- The entry that `GetDOMRangeFor` starts in is one that its second loop would stop at. -/
theorem OffsetTable.offsetAt_start (h : OffsetTable place table stop)
    (htable : table = before ++ e :: after) (he : e.mIsValid = true) (ha : a ≤ stop)
    {offset : ℤ} (hoffset : e.offsetAt a a = some offset)
    (hfirst : ∀ g ∈ before, g.mIsValid = true → g.offsetAt a a = none) :
    e.offsetAt 0 a = some offset := by
  rw [offsetAt_zero, hoffset]
  intro hinserted
  by_contra hne
  obtain ⟨d, -, ⟨-, hplace⟩, -⟩ := offsetAt_eq_some.mp hoffset
  rw [hinserted, if_pos rfl] at hplace
  obtain ⟨g, hg, horiginal, hlo, hhi⟩ := h.tiles.exists_le (Nat.pos_of_ne_zero hne) ha
  obtain ⟨hgvalid, hgins⟩ := OffsetEntry.original_iff.mp horiginal
  have htiles := h.tiles
  rw [htable] at hg htiles
  rcases List.mem_append.mp hg with hg | hg
  · have hnone := hfirst g hg hgvalid
    rw [offsetAt_original horiginal hlo.le hhi] at hnone
    cases hnone
  · rcases List.mem_cons.mp hg with rfl | hg
    · rw [hinserted] at hgins
      cases hgins
    · have hafter := (htiles.around he).2 g hg hgvalid
      omega

/-- `GetDOMRangeFor` maps every offset and length, unless there is no entry. -/
theorem OffsetTable.getDOMRangeFor (h : OffsetTable place table stop) (hab : a ≤ b) (hb : b ≤ stop)
    (hsome : ∃ e ∈ table, e.mIsValid = true) :
    ∃ r, GetDOMRangeFor place true table a (b - a : ℕ) = (.ok, some r) ∧
      Shows place table a (b - a) r := by
  obtain ⟨before', e', after', k, d', htable', he', hhas', hinserted', hend, hlast⟩ :=
    h.endPoint_eq hb hsome
  obtain ⟨x, hx, hxvalid, dx, hxhas, hxinserted⟩ := h.exists_has (hab.trans hb) hsome
  obtain ⟨front, back, hxsplit⟩ := List.append_of_mem hx
  obtain ⟨i, p, hstart⟩ := @findStart_isSome front back x 0
    (fun entry _ => entry.offsetAt a a) _ hxvalid
    (offsetAt_eq_some.mpr ⟨dx, rfl, hxhas, fun htrue => (hxinserted htrue).1⟩)
  rw [← hxsplit] at hstart
  obtain ⟨before, e, after, offset, htable, he, hoffset, rfl, hfirst⟩ := findStart_eq_some hstart
  obtain ⟨d, rfl, hhas, hinserted⟩ := offsetAt_eq_some.mp hoffset
  have hle : IsIncreasing place ⟨e.mNode, e.mNodeOffset + d⟩ ⟨e'.mNode, e'.mNodeOffset + d'⟩ =
      true := by
    rcases Nat.lt_or_eq_of_le hab with hlt | rfl
    · exact (h.lt_of_lt (h.cut htable he hhas.1 hhas.2 rfl).1
        (h.cut htable' he' hhas'.1 hhas'.2 rfl).2 hlt hb).1
    · rcases split_cases (htable.symm.trans htable') with ⟨middle, rfl⟩ | rfl | ⟨middle, rfl⟩
      · have hnone := hlast e (by simp) he
        rw [h.offsetAt_start htable he hb hoffset] at hnone
        · cases hnone
        · intro g hg hvalid
          obtain ⟨front, back, hsplit⟩ := List.append_of_mem hg
          exact hfirst front g back hsplit hvalid
      · have hsame : d = d' := by
          cases hins : e.mIsInsertedText with
          | true => rw [hinserted hins, (hinserted' hins).1]
          | false =>
            have hplace := hhas.2
            have hplace' := hhas'.2
            rw [hins, if_neg Bool.false_ne_true] at hplace hplace'
            omega
        rw [hsame]
        exact IsIncreasing.refl _
      · have hordered := h.ordered
        rw [htable', List.append_assoc, List.cons_append, List.filter_append,
          List.filter_cons_of_pos he, List.filter_append, List.filter_cons_of_pos he',
          List.pairwise_append, List.pairwise_cons] at hordered
        have hbefore := hordered.2.1.1 e' (by simp)
        have hd := hhas.1
        exact hbefore.isIncreasing (by omega) (by omega)
  refine ⟨_, ?_, h.shows htable htable' he he' hhas hhas' hle⟩
  have hsum : (a : ℤ) + (b - a : ℕ) = b := by omega
  have hnegative : ¬((a : ℤ) < 0) := by omega
  have hnegative' : ¬(((b - a : ℕ) : ℤ) < 0) := by omega
  unfold GetDOMRangeFor
  simp only [Bool.not_true, Bool.false_or, decide_eq_false hnegative, decide_eq_false hnegative',
    Bool.false_eq_true, if_false]
  rw [hstart]
  dsimp only
  rw [hsum, hend, Option.map_some, CreateRange, h.inNode_point htable he hhas.1,
    h.inNode_point htable' he' hhas'.1, hle]
  rfl

/-- The end of the string is a place where the caret can be: in inserted text, or in an entry before
one that is not valid. -/
def EndReached (table : List OffsetEntry) (stop : ℕ) : Prop :=
  (∃ e ∈ table, e.mIsValid = true ∧ e.mIsInsertedText = true ∧ e.mStrOffset = stop) ∨
  ∃ before e next after, table = before ++ e :: next :: after ∧ e.original = true ∧
    e.mStrOffset + e.mLength = stop ∧ next.mIsValid = false

theorem OffsetTable.findStart_iff (h : OffsetTable place table stop) (ha : a ≤ stop) :
    (∃ k p, findStart (OffsetEntry.startOffset a) 0 table = some (k, p)) ↔
      a < stop ∨ EndReached table stop := by
  constructor
  · rintro ⟨k, p, hfound⟩
    obtain ⟨before, e, after, offset, htable, he, hoffset, -, -⟩ := findStart_eq_some hfound
    by_cases hlt : a < stop
    · exact .inl hlt
    · right
      have htiles := h.tiles
      have hle := htiles.mem (by rw [htable]; simp) he
      rw [htable] at htiles
      unfold OffsetEntry.startOffset at hoffset
      cases hinserted : e.mIsInsertedText with
      | true =>
        rw [hinserted, if_pos rfl] at hoffset
        split_ifs at hoffset with heq
        exact .inl ⟨e, by rw [htable]; simp, he, hinserted, by omega⟩
      | false =>
        have horiginal := OffsetEntry.original_iff.mpr ⟨he, hinserted⟩
        rw [OffsetEntry.span_original horiginal] at hle
        rw [hinserted, if_neg Bool.false_ne_true] at hoffset
        dsimp only at hoffset
        split_ifs at hoffset with hge hless hnext heq
        · omega
        · rename_i hnext
          cases after with
          | nil => simp at hnext
          | cons next after =>
            refine .inr ⟨before, e, next, after, htable, horiginal, by omega, ?_⟩
            by_contra hvalid
            rw [Bool.not_eq_false] at hvalid
            have hbehind := (htiles.around he).2 next List.mem_cons_self hvalid
            have hnextle := h.tiles.mem (by rw [htable]; simp) hvalid
            rw [OffsetEntry.span_original horiginal] at hbehind
            rw [List.head?_cons, Option.any_some, hvalid, Bool.not_true, Bool.false_or,
              decide_eq_true_iff] at hnext
            omega
        · contradiction
  · intro hcases
    by_cases hlt : a < stop
    · obtain ⟨e, he, horiginal, hlo, hhi⟩ := h.tiles.exists_lt (Nat.zero_le a) hlt
      obtain ⟨hvalid, hinserted⟩ := OffsetEntry.original_iff.mp horiginal
      obtain ⟨front, back, rfl⟩ := List.append_of_mem he
      have hat : e.startOffset a back.head? = some (e.mNodeOffset + a - e.mStrOffset : ℤ) := by
        have hin : (a : ℤ) < e.mStrOffset + e.mLength := by omega
        unfold OffsetEntry.startOffset
        rw [hinserted, if_neg Bool.false_ne_true, if_pos (by omega)]
        dsimp only
        rw [if_pos hin, if_pos rfl]
      exact findStart_isSome hvalid hat
    · obtain rfl : a = stop := by omega
      rcases hcases.resolve_left hlt with ⟨e, he, hvalid, hinserted, hend⟩ |
        ⟨before, e, next, after, rfl, horiginal, hend, hnext⟩
      · obtain ⟨front, back, rfl⟩ := List.append_of_mem he
        have hat : e.startOffset a back.head? = some (e.mNodeOffset + e.mLength : ℤ) := by
          unfold OffsetEntry.startOffset
          rw [hinserted, if_pos rfl, if_pos (by omega)]
        exact findStart_isSome hvalid hat
      · obtain ⟨hvalid, hinserted⟩ := OffsetEntry.original_iff.mp horiginal
        have hat : e.startOffset a (next :: after).head? =
            some (e.mNodeOffset + a - e.mStrOffset : ℤ) := by
          have hnot : ¬(a : ℤ) < e.mStrOffset + e.mLength := by omega
          have heq : (a : ℤ) = e.mStrOffset + e.mLength := by omega
          unfold OffsetEntry.startOffset
          rw [hinserted, if_neg Bool.false_ne_true, if_pos (by omega)]
          dsimp only
          rw [if_neg hnot, if_pos heq, List.head?_cons, Option.any_some, hnext]
          rfl
        exact findStart_isSome hvalid hat

/-- `SetSelectionInternal` maps an offset where it finds a start. -/
theorem OffsetTable.setSelectionInternal (h : OffsetTable place table stop) (s : SelectionState)
    (hab : a ≤ b) (hb : b ≤ stop)
    (hfound : findStart (OffsetEntry.startOffset a) 0 table = some (k, p)) :
    ∃ s' r, SetSelectionInternal true table s a (b - a : ℕ) true = (.ok, s') ∧
      s'.range place = some r ∧ Shows place table a (b - a) r := by
  obtain ⟨before, e, after, offset, htable, he, hoffset, rfl, -⟩ := findStart_eq_some hfound
  obtain ⟨d, rfl, hhas⟩ := startOffset_eq_some hoffset
  have hin := h.inNode_point htable he hhas.1
  have hsum : (a : ℤ) + (b - a : ℕ) = b := by omega
  have hnegative : ¬((a : ℤ) < 0) := by omega
  have hnegative' : ¬(((b - a : ℕ) : ℤ) < 0) := by omega
  unfold SetSelectionInternal
  simp only [Bool.not_true, Bool.false_or, decide_eq_false hnegative, decide_eq_false hnegative',
    Bool.false_eq_true, if_false]
  rw [hfound]
  dsimp only
  simp only [if_true, SelectionState.Collapse, if_pos hin, failed_ok, Bool.false_eq_true, if_false]
  rcases Nat.lt_or_eq_of_le hab with hlt | rfl
  · obtain ⟨before', e', after', k', d', htable', he', hhas', hinserted', hend, hlast⟩ :=
      h.endPoint_eq hb ⟨e, by rw [htable]; simp, he⟩
    obtain ⟨hle, hne⟩ := h.lt_of_lt (h.cut htable he hhas.1 hhas.2 rfl).1
      (h.cut htable' he' hhas'.1 hhas'.2 rfl).2 hlt hb
    rw [if_neg (by omega), hsum, setSelectionEnd, hend]
    dsimp only
    rw [if_pos rfl, SelectionState.Extend]
    dsimp only
    rw [if_neg hne]
    refine ⟨_, _, rfl, ?_, h.shows htable htable' he he' hhas hhas' hle⟩
    rw [SelectionState.range, Option.map_some, if_pos hle]
  · rw [if_pos (by omega)]
    have hrefl := @IsIncreasing.refl place ⟨e.mNode, e.mNodeOffset + d⟩
    refine ⟨_, _, rfl, ?_, h.shows htable htable he he hhas hhas hrefl⟩
    rw [SelectionState.range, Option.map_some, if_pos hrefl]

end Loops

/-- Every offset and length is mapped right, but for the end of a string where the last entry is
not followed by any. -/
theorem OffsetTable.mapsRight_iff {place} {table : List OffsetEntry} {stop offset length : ℕ}
    (h : OffsetTable place table stop) (hle : offset + length ≤ stop) (mSelCon : Bool)
    (s : SelectionState) : MapsRight place mSelCon table s offset length ↔
      mSelCon = true ∧ (offset < stop ∨ EndReached table stop) := by
  cases mSelCon with
  | false =>
    constructor
    · rintro ⟨⟨s', r, hset, -⟩, -⟩
      cases hset
    · rintro ⟨hfalse, -⟩
      cases hfalse
  | true =>
    rw [← h.findStart_iff (by omega : offset ≤ stop)]
    constructor
    · rintro ⟨⟨s', r, hset, -⟩, -⟩
      refine ⟨rfl, ?_⟩
      cases hfound : findStart (OffsetEntry.startOffset offset) 0 table with
      | some found => exact ⟨_, _, rfl⟩
      | none =>
        exfalso
        unfold SetSelectionInternal at hset
        rw [hfound] at hset
        split at hset <;> cases hset
    · rintro ⟨-, k, p, hfound⟩
      obtain ⟨before, e, after, _, htable, he, -⟩ := findStart_eq_some hfound
      have hab : offset ≤ offset + length := Nat.le_add_right _ _
      have hset := h.setSelectionInternal s hab hle hfound
      have hget := h.getDOMRangeFor hab hle ⟨e, by rw [htable]; simp, he⟩
      rw [Nat.add_sub_cancel_left] at hset hget
      exact ⟨hset, hget⟩

end Ranges

/-- A block with the one text `abc`. -/
def abcTable : List OffsetEntry := [.new ⟨0, .text [97, 98, 99], "#text", [⟨0, "p"⟩]⟩ 0 3]

theorem abcTable_offsetTable : OffsetTable (fun _ => 0) abcTable 3 := by
  refine ⟨⟨rfl, rfl⟩, List.pairwise_singleton _ _, ?_⟩
  rintro entry hmem -
  obtain rfl := List.mem_singleton.mp hmem
  exact Nat.le_refl 3

/-- The range of `bc`. -/
theorem mapsRight_abc : MapsRight (fun _ => 0) true abcTable {} 1 2 :=
  (abcTable_offsetTable.mapsRight_iff (by decide) true {}).mpr ⟨rfl, .inl (by decide)⟩

/-- There is no selection behind `abc`. -/
theorem not_mapsRight_abc :
    OffsetTable (fun _ => 0) abcTable 3 ∧ ¬MapsRight (fun _ => 0) true abcTable {} 3 0 := by
  refine ⟨abcTable_offsetTable, ?_⟩
  rintro ⟨⟨s', r, hset, -⟩, -⟩
  have hfails : SetSelectionInternal true abcTable {} (3 : ℕ) (0 : ℕ) true =
    (NS_ERROR_FAILURE, {}) := rfl
  rw [hfails] at hset
  cases hset

end Kompozer.TxtSvc

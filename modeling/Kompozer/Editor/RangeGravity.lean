import Kompozer.Editor.RangeUpdater
import Kompozer.Dom.Operations

/-! Where registered endpoints end up when text is deleted, when a node is inserted and when a
node is moved, and exactly when that is the place they had before. -/

namespace Kompozer.Editor

open Dom Document NsResult Gaps

variable {d d' : Document} {ru ru' : nsRangeUpdater} {result : NsResult}

/-- The offsets of the registered endpoints in a node are in the node. -/
def nsRangeUpdater.InNode (ru : nsRangeUpdater) (d : Document) (n : NodeId) : Prop :=
  ∀ e ∈ ru.endpoints, e.1 = n → 0 ≤ e.2 ∧ e.2 ≤ d.length n

/-! ### Deleting text -/

/-- What the deletion of `len` characters behind the first `o` keeps of an endpoint: it has the
same characters in front of it and behind it. -/
structure DeletionKeeps (d d' : Document) (n : NodeId) (o len : ℕ) (e e' : Endpoint) : Prop where
  node : e'.1 = e.1
  other : e.1 ≠ n → e'.2 = e.2
  before : e.1 = n → e.2 ≤ o → e'.2 = e.2
  inside : e.1 = n → o < e.2 → e.2 < o + len → e'.2 = o
  behind : e.1 = n → o + len ≤ e.2 → e'.2 = e.2 - len
  front : e.1 = n → (d'.data n).take e'.2.toNat = cut o len ((d.data n).take e.2.toNat)
  back : e.1 = n → (d'.data n).drop e'.2.toNat =
    ((d.data n).take o).drop e.2.toNat ++ ((d.data n).drop (o + len)).drop (e.2.toNat - (o + len))

/-- A range inside the node keeps its endpoints in order. -/
def KeepsOrder (n : NodeId) (item item' : nsRangeStore) : Prop :=
  item.startNode = n → item.endNode = n → item.startOffset ≤ item.endOffset →
    item'.startOffset ≤ item'.endOffset

/-- The endpoint that `SelAdjDeleteText` makes of an endpoint. -/
def deletedText (lock : Bool) (n : NodeId) (o len : ℤ) (e : Endpoint) : Endpoint :=
  if lock then e
  else if e.1 = n ∧ e.2 > o then (e.1, if e.2 - len < 0 then 0 else e.2 - len)
  else e

/-- When that is the right one. -/
def DeletionFits (lock : Bool) (n : NodeId) (o len : ℕ) (e : Endpoint) : Prop :=
  e.1 = n → e.2 ≤ o ∨ len = 0 ∨ lock = false ∧ (o + len ≤ e.2 ∨ o = 0)

@[simp] theorem deletedText_true (n : NodeId) (o len : ℤ) (e : Endpoint) :
    deletedText true n o len e = e := rfl

@[simp] theorem deletedText_false (n : NodeId) (o len : ℤ) (e : Endpoint) :
    deletedText false n o len e =
      if e.1 = n ∧ e.2 > o then (e.1, if e.2 - len < 0 then 0 else e.2 - len) else e := rfl

theorem deletedText_other {lock : Bool} {n : NodeId} {o len : ℤ} {e : Endpoint} (h : e.1 ≠ n) :
    deletedText lock n o len e = e := by
  cases lock with
  | true => rfl
  | false => rw [deletedText_false, if_neg fun hn => h hn.1]

theorem deletedText_eq {lock : Bool} {n : NodeId} {o len : ℕ} {p : ℤ} (hp : 0 ≤ p)
    (h : DeletionFits lock n o len (n, p)) :
    deletedText lock n o len (n, p) = (n, ((cutGap o len p.toNat : ℕ) : ℤ)) := by
  have h := h rfl
  rw [cutGap]
  cases lock with
  | true =>
    rw [deletedText_true, Prod.mk.injEq]
    grind
  | false =>
    rw [deletedText_false]
    simp only [true_and]
    grind

theorem deletionKeeps_iff {n : NodeId} {o len : ℕ} {e : Endpoint} {lock : Bool}
    (hl : o + len ≤ (d.data n).length) (hdata : d'.data n = cut o len (d.data n))
    (hp : e.1 = n → 0 ≤ e.2) :
    DeletionKeeps d d' n o len e (deletedText lock n o len e) ↔ DeletionFits lock n o len e := by
  obtain ⟨m, p⟩ := e
  by_cases hn : m = n
  swap
  · rw [deletedText_other hn]
    refine ⟨fun _ h => absurd h hn, fun _ => ⟨rfl, fun _ => rfl, fun h => absurd h hn,
      fun h => absurd h hn, fun h => absurd h hn, fun h => absurd h hn, fun h => absurd h hn⟩⟩
  subst hn
  have hp : 0 ≤ p := hp rfl
  constructor
  · intro h _
    have hin := h.inside rfl
    have hbe := h.behind rfl
    cases lock with
    | true =>
      simp only [deletedText_true] at hin hbe
      grind
    | false =>
      simp only [deletedText_false, true_and] at hin hbe
      grind
  · intro h
    rw [deletedText_eq hp h]
    have hgap : cutGap o len p.toNat =
        if p.toNat ≤ o then p.toNat else if p.toNat ≤ o + len then o else p.toNat - len := rfl
    refine ⟨rfl, fun h => absurd rfl h, fun _ h => ?_, fun _ h₁ h₂ => ?_, fun _ h => ?_,
      fun _ => ?_, fun _ => ?_⟩
    · grind
    · grind
    · grind
    · rw [Int.toNat_natCast, hdata, take_cut hl]
    · rw [Int.toNat_natCast, hdata, drop_cut hl]

theorem cutGap_mono {o len p q : ℕ} (h : p ≤ q) : cutGap o len p ≤ cutGap o len q := by
  rw [cutGap, cutGap]
  split_ifs <;> omega

theorem keepsOrder_of_fits {n : NodeId} {o len : ℕ} {item : nsRangeStore} {lock : Bool}
    (hs : DeletionFits lock n o len item.start) (he : DeletionFits lock n o len item.stop)
    (hps : item.startNode = n → 0 ≤ item.startOffset)
    (hpe : item.endNode = n → 0 ≤ item.endOffset) :
    KeepsOrder n item (item.adjust (deletedText lock n o len)) := by
  obtain ⟨m, p, m', q⟩ := item
  intro hm hm' hpq
  obtain rfl : m = n := hm
  obtain rfl : m' = m := hm'
  have hpq : p ≤ q := hpq
  rw [nsRangeStore.adjust]
  simp only [nsRangeStore.start, nsRangeStore.stop] at hs he ⊢
  rw [deletedText_eq (hps rfl) hs, deletedText_eq (hpe rfl) he]
  exact Int.ofNat_le.mpr (cutGap_mono (Int.toNat_le_toNat hpq))

/-- Deleting text keeps every registered endpoint exactly when none is strictly inside what is
deleted, unless that is at the front of the node; with the lock set, when none is behind it. -/
theorem deleteText_keeps_iff (t : DeleteTextTxn) (hd : d.Fits) (ht : d.isText t.mElement = true)
    (hlen : t.mOffset + t.mNumCharsToDelete ≤ (d.data t.mElement).length)
    (hru : ru.InNode d t.mElement) (hr : t.doTracked d ru = (result, d', ru')) :
    (result = .ok ∧ d'.data t.mElement = cut t.mOffset t.mNumCharsToDelete (d.data t.mElement) ∧
      ru.Tracks (DeletionKeeps d d' t.mElement t.mOffset t.mNumCharsToDelete) ru' ∧
      List.Forall₂ (KeepsOrder t.mElement) ru.mArray ru'.mArray) ↔
    ∀ e ∈ ru.endpoints, DeletionFits ru.mLock t.mElement t.mOffset t.mNumCharsToDelete e := by
  have hfit : t.mOffset + t.mNumCharsToDelete < 2 ^ 32 := by
    have := hd t.mElement
    omega
  have hcut : d.data t.mElement = (d.data t.mElement).take t.mOffset ++
      ((d.data t.mElement).drop t.mOffset).take t.mNumCharsToDelete ++
        (d.data t.mElement).drop (t.mOffset + t.mNumCharsToDelete) := by
    rw [List.append_assoc, ← List.drop_drop, List.take_append_drop, List.take_append_drop]
  have hdel := deleteData_eq hcut (by simp; omega) (by simp; omega) hfit
  have hlock : ∀ e : Endpoint, (if ru.mLock then e else
      if e.1 = t.mElement ∧ e.2 > t.mOffset then
        (e.1, if e.2 - t.mNumCharsToDelete < 0 then 0 else e.2 - t.mNumCharsToDelete) else e) =
      deletedText ru.mLock t.mElement t.mOffset t.mNumCharsToDelete e := fun e => rfl
  simp only [DeleteTextTxn.doTracked, DeleteTextTxn.doTransaction, hdel, failed_ok,
    Bool.false_eq_true, if_false, Prod.mk.injEq] at hr
  obtain ⟨rfl, rfl, rfl⟩ := hr
  have hdata : (d.setText t.mElement (cut t.mOffset t.mNumCharsToDelete (d.data t.mElement))).data
      t.mElement = cut t.mOffset t.mNumCharsToDelete (d.data t.mElement) := data_setText ht _
  rw [nsRangeUpdater.selAdjDeleteText, nsRangeUpdater.tracks_selAdj_iff,
    nsRangeUpdater.selAdj_mArray, List.forall₂_map_right_iff, List.forall₂_same]
  simp only [hlock]
  constructor
  · rintro ⟨-, -, h, -⟩ e he
    exact (deletionKeeps_iff hlen hdata fun hn => (hru e he hn).1).mp (h e he)
  · intro h
    refine ⟨trivial, hdata, fun e he => ?_, fun item hi => ?_⟩
    · exact (deletionKeeps_iff hlen hdata fun hn => (hru e he hn).1).mpr (h e he)
    · have hs : item.start ∈ ru.endpoints := List.mem_flatMap.mpr ⟨item, hi, by simp⟩
      have he : item.stop ∈ ru.endpoints := List.mem_flatMap.mpr ⟨item, hi, by simp⟩
      exact keepsOrder_of_fits (h _ hs) (h _ he) (fun hn => (hru _ hs hn).1)
        fun hn => (hru _ he hn).1

/-- A body with a text of six characters. -/
def sixLetters : Document where
  mParent n := if n = 1 then some 0 else none
  body n :=
    if n = 0 then .element "body" [1] else .text (if n = 1 then [97, 98, 99, 100, 101, 102] else [])
  fresh := 2

theorem sixLetters_fits : sixLetters.Fits := by
  intro n
  simp only [data, sixLetters]
  split_ifs <;> simp [Body.data]

/-- The fourth and fifth letter go from a range around them. -/
theorem deleteText_keeps_sample :
    sixLetters.Fits ∧ nsRangeUpdater.Tracks
      (DeletionKeeps sixLetters (DeleteTextTxn.doTracked ⟨1, 3, 2, []⟩ sixLetters
        ⟨[⟨1, 1, 1, 6⟩], false⟩).2.1 1 3 2) ⟨[⟨1, 1, 1, 6⟩], false⟩
      (DeleteTextTxn.doTracked ⟨1, 3, 2, []⟩ sixLetters ⟨[⟨1, 1, 1, 6⟩], false⟩).2.2 := by
  refine ⟨sixLetters_fits, ((deleteText_keeps_iff ⟨1, 3, 2, []⟩ sixLetters_fits rfl (by decide) ?_
    rfl).mpr ?_).2.2.1⟩
  · simp [nsRangeUpdater.InNode, nsRangeUpdater.endpoints, nsRangeStore.start, nsRangeStore.stop]
    decide
  · simp [DeletionFits, nsRangeUpdater.endpoints, nsRangeStore.start, nsRangeStore.stop]

/-- An endpoint inside what is deleted goes to the front of the node, and the range turns over. -/
theorem delete_around_endpoint :
    (DeleteTextTxn.doTracked ⟨1, 3, 3, []⟩ sixLetters ⟨[⟨1, 3, 1, 4⟩, ⟨1, 5, 1, 6⟩], false⟩).2.2 =
        ⟨[⟨1, 3, 1, 1⟩, ⟨1, 2, 1, 3⟩], false⟩ ∧
      ¬ nsRangeUpdater.Tracks (DeletionKeeps sixLetters (DeleteTextTxn.doTracked ⟨1, 3, 3, []⟩
        sixLetters ⟨[⟨1, 3, 1, 4⟩], false⟩).2.1 1 3 3) ⟨[⟨1, 3, 1, 4⟩], false⟩
        (DeleteTextTxn.doTracked ⟨1, 3, 3, []⟩ sixLetters ⟨[⟨1, 3, 1, 4⟩], false⟩).2.2 := by
  refine ⟨by decide, fun h => ?_⟩
  obtain ⟨⟨-, hstop⟩, -⟩ := List.forall₂_cons.mp h
  exact absurd (hstop.inside rfl (by decide) (by decide)) (by decide)

/-! ### Inserting a node -/

/-- The index at which a node is put in. A position below zero or beyond the children means to
append. -/
def insertIndex (count : ℕ) (aPosition : ℤ) : ℕ :=
  if 0 ≤ aPosition ∧ aPosition ≤ count then aPosition.toNat else count

theorem insertIndex_le (count : ℕ) (aPosition : ℤ) : insertIndex count aPosition ≤ count := by
  rw [insertIndex]
  split_ifs <;> omega

theorem item_natCast (l : List NodeId) (k : ℕ) : item l k = (l.drop k).head? := by
  rw [item, if_pos (Int.natCast_nonneg k), Int.toNat_natCast, List.head?_drop]

theorem item_of_neg {l : List NodeId} {i : ℤ} (h : i < 0) : item l i = none :=
  if_neg (by omega)

/-- The child in front of which `InsertElementTxn` inserts. -/
theorem insertElement_eq (x p : NodeId) (aPosition : ℤ) (d : Document) :
    ((InsertElementTxn.doTransaction ⟨x, p, aPosition⟩ d).1,
      (InsertElementTxn.doTransaction ⟨x, p, aPosition⟩ d).2.2) =
      d.insertBefore p x
        ((d.children p).drop (insertIndex (d.children p).length aPosition)).head? := by
  have href : ∀ mOffset : ℤ, mOffset = (if aPosition > (d.children p).length then
        ((d.children p).length : ℤ) else aPosition) →
      item (d.children p) (if mOffset = -1 then ((d.children p).length : ℤ) else mOffset) =
        ((d.children p).drop (insertIndex (d.children p).length aPosition)).head? := by
    rintro _ rfl
    rw [insertIndex]
    by_cases h₁ : aPosition > (d.children p).length
    · rw [if_pos h₁, if_neg (by omega), if_neg (by omega), item_natCast]
    · rw [if_neg h₁]
      by_cases h₂ : 0 ≤ aPosition
      · rw [if_neg (by omega), if_pos ⟨h₂, by omega⟩, ← item_natCast, Int.toNat_of_nonneg h₂]
      · have hneg : ¬ (0 ≤ aPosition ∧ aPosition ≤ (d.children p).length) := fun h => h₂ h.1
        rw [if_neg hneg, List.drop_length, List.head?_nil]
        split_ifs
        · rw [item_natCast, List.drop_length, List.head?_nil]
        · exact item_of_neg (by omega)
  exact congrArg (d.insertBefore p x) (href _ rfl)

/-- The numbers a `PRInt32` has. -/
def IsPRInt32 (v : ℤ) : Prop := -2 ^ 31 ≤ v ∧ v < 2 ^ 31

/-- The most children a node has in `nsAttrAndChildArray`. -/
def ATTRCHILD_ARRAY_MAX_CHILD_COUNT : ℕ := 2 ^ 22 - 1

theorem children_create_of_lt {p : NodeId} (h : p < d.fresh) (b : Body) :
    (d.create b).children p = d.children p := by
  show ((d.setBody d.fresh b).setParent d.fresh none).children p = _
  rw [children_setParent, children_setBody, if_neg (Nat.ne_of_lt h)]

/-- The child in front of which `CreateElementTxn` inserts the node it creates. -/
theorem createElement_eq {aTag : String} {p : NodeId} {aPosition : ℤ} (ht : aTag ≠ "")
    (hpf : p < d.fresh) (hpos : IsPRInt32 aPosition)
    (hmax : (d.children p).length ≤ ATTRCHILD_ARRAY_MAX_CHILD_COUNT) :
    ∀ t, t = (⟨aTag, p, (aPosition % 2 ^ 32).toNat, none, none⟩ : CreateElementTxn) →
      ((t.doTransaction d).1, (t.doTransaction d).2.2) =
        (d.create (CreateElementTxn.newBody aTag)).insertBefore p d.fresh
          ((d.children p).drop (insertIndex (d.children p).length aPosition)).head? := by
  rintro _ rfl
  obtain ⟨hlo, hhi⟩ := hpos
  have hkids := children_create_of_lt hpf (CreateElementTxn.newBody aTag)
  rw [ATTRCHILD_ARRAY_MAX_CHILD_COUNT] at hmax
  rw [CreateElementTxn.doTransaction, if_neg ht]
  dsimp only
  rw [hkids]
  by_cases h₁ : aPosition = -1
  · subst h₁
    rw [if_pos (by decide), insertIndex, if_neg (by omega), List.drop_length, List.head?_nil]
    rfl
  · have hclamp : (if (aPosition % 2 ^ 32).toNat > (d.children p).length then
        (d.children p).length else (aPosition % 2 ^ 32).toNat) =
        insertIndex (d.children p).length aPosition := by
      rw [insertIndex]
      split_ifs <;> omega
    have happ : ¬ (aPosition % 2 ^ 32).toNat = CreateElementTxn.eAppend := by
      rw [CreateElementTxn.eAppend]
      omega
    rw [if_neg happ, hclamp, item_natCast]

/-- What an insertion keeps of an endpoint: it has the same children in front of it and
behind it. -/
structure InsertionKeeps (d d' : Document) (x aParent : NodeId) (aPosition : ℤ)
    (e e' : Endpoint) : Prop where
  node : e'.1 = e.1
  other : e.1 ≠ aParent → e'.2 = e.2
  place : e.1 = aParent → e'.2 =
    if e.2 ≤ insertIndex (d.children aParent).length aPosition then e.2 else e.2 + 1
  same : e.1 = aParent → SameGap x (d.children aParent) (d'.children aParent) e.2 e'.2

/-- The endpoint that `SelAdjCreateNode` makes of an endpoint. -/
def inserted (lock : Bool) (aParent : NodeId) (aPosition : ℤ) (e : Endpoint) : Endpoint :=
  if lock then e else if e.1 = aParent ∧ e.2 > aPosition then (e.1, e.2 + 1) else e

/-- When that is the right one. -/
def InsertionFits (lock : Bool) (aParent : NodeId) (aPosition : ℤ) (e : Endpoint) : Prop :=
  e.1 = aParent → if lock then aPosition < 0 ∨ e.2 ≤ aPosition else 0 ≤ aPosition

theorem inserted_other {lock : Bool} {aParent : NodeId} {aPosition : ℤ} {e : Endpoint}
    (h : e.1 ≠ aParent) : inserted lock aParent aPosition e = e := by
  cases lock with
  | true => rfl
  | false => exact if_neg fun hn : e.1 = aParent ∧ _ => h hn.1

theorem insertionKeeps_iff {x aParent : NodeId} {aPosition : ℤ} {e : Endpoint} {lock : Bool}
    {A B : List NodeId} (hAB : d.children aParent = A ++ B)
    (hA : A.length = insertIndex (d.children aParent).length aPosition)
    (hkids : d'.children aParent = A ++ x :: B)
    (hp : e.1 = aParent → 0 ≤ e.2 ∧ e.2 ≤ (d.children aParent).length) :
    InsertionKeeps d d' x aParent aPosition e (inserted lock aParent aPosition e) ↔
      InsertionFits lock aParent aPosition e := by
  obtain ⟨m, p⟩ := e
  by_cases hn : m = aParent
  swap
  · rw [inserted_other hn]
    exact ⟨fun _ h => absurd h hn,
      fun _ => ⟨rfl, fun _ => rfl, fun h => absurd h hn, fun h => absurd h hn⟩⟩
  subst hn
  obtain ⟨h₀, hlen⟩ : 0 ≤ p ∧ p ≤ (d.children m).length := hp rfl
  have hindex : insertIndex (d.children m).length aPosition =
      if 0 ≤ aPosition ∧ aPosition ≤ (d.children m).length then aPosition.toNat
      else (d.children m).length := rfl
  have hgap : SameGap x (d.children m) (d'.children m) p
      (if p ≤ insertIndex (d.children m).length aPosition then p else p + 1) := by
    rw [← hA, hAB, hkids]
    exact sameGap_insert h₀ (hAB ▸ hlen)
  have hplace : (inserted lock m aPosition (m, p)).2 =
      (if p ≤ insertIndex (d.children m).length aPosition then p else p + 1) ↔
      InsertionFits lock m aPosition (m, p) := by
    simp only [inserted, InsertionFits, true_and, true_implies]
    cases lock <;> grind
  constructor
  · intro h
    exact hplace.mp (h.place rfl)
  · intro h
    have hnode : (inserted lock m aPosition (m, p)).1 = m := by
      rw [inserted]
      split_ifs <;> rfl
    refine ⟨hnode, fun h => absurd rfl h, fun _ => hplace.mpr h, fun _ => ?_⟩
    rw [hplace.mpr h]
    exact hgap

/-- Inserting or creating a node keeps every registered endpoint exactly when the position is
not negative or no endpoint is in the parent; with the lock set, when none is behind it. -/
theorem insertion_keeps_iff {aParent : NodeId} {aPosition : ℤ} (hd : d.WellFormed)
    (hpf : aParent < d.fresh) (hpos : IsPRInt32 aPosition)
    (hmax : (d.children aParent).length ≤ ATTRCHILD_ARRAY_MAX_CHILD_COUNT)
    (hru : ru.InNode d aParent) :
    (∀ aNode, aNode ∉ d.children aParent →
      insertNode aNode aParent aPosition d ru = (.ok, d', ru') →
      (ru.Tracks (InsertionKeeps d d' aNode aParent aPosition) ru' ↔
        ∀ e ∈ ru.endpoints, InsertionFits ru.mLock aParent aPosition e)) ∧
    ∀ aTag, createNode aTag aParent aPosition d ru = (.ok, d', ru') →
      (ru.Tracks (InsertionKeeps d d' d.fresh aParent aPosition) ru' ↔
        ∀ e ∈ ru.endpoints, InsertionFits ru.mLock aParent aPosition e) := by
  have hcut := (List.take_append_drop (insertIndex (d.children aParent).length aPosition)
    (d.children aParent)).symm
  have hlen : ((d.children aParent).take
      (insertIndex (d.children aParent).length aPosition)).length =
      insertIndex (d.children aParent).length aPosition := by
    rw [List.length_take, Nat.min_eq_left (insertIndex_le _ _)]
  have hadj : ∀ {x : NodeId}, d.isText aParent = false → d'.children aParent =
      (d.children aParent).take (insertIndex (d.children aParent).length aPosition) ++
        x :: (d.children aParent).drop (insertIndex (d.children aParent).length aPosition) →
      (ru.Tracks (InsertionKeeps d d' x aParent aPosition)
          (ru.selAdjCreateNode aParent aPosition) ↔
        ∀ e ∈ ru.endpoints, InsertionFits ru.mLock aParent aPosition e) := by
    intro x ht hkids
    rw [nsRangeUpdater.selAdjCreateNode, nsRangeUpdater.tracks_selAdj_iff]
    refine forall₂_congr fun e he => insertionKeeps_iff hcut hlen hkids fun hn => ?_
    have := hru e he hn
    rwa [length, Body.length_of_not_isText ht] at this
  constructor
  · intro aNode hmem hr
    have heq := insertElement_eq aNode aParent aPosition d
    simp only [insertNode, Prod.mk.injEq] at hr
    obtain ⟨hok, rfl, rfl⟩ := hr
    rw [hok] at heq
    obtain ⟨ht, hkids⟩ := children_insertBefore hd hpf hmem hcut (by rw [← heq])
    rw [← heq] at hkids
    exact hadj ht hkids
  · intro aTag hr
    simp only [createNode, Prod.mk.injEq] at hr
    obtain ⟨hok, rfl, rfl⟩ := hr
    have htag : aTag ≠ "" := by
      rintro rfl
      exact absurd hok (by simp [CreateElementTxn.doTransaction, NS_ERROR_FAILURE])
    have heq := createElement_eq htag hpf hpos hmax _ rfl
    rw [hok] at heq
    have hwf : (d.create (CreateElementTxn.newBody aTag)).WellFormed := hd.create (by
      rw [CreateElementTxn.newBody]
      split_ifs <;> rfl)
    have hkids : (d.create (CreateElementTxn.newBody aTag)).children aParent =
        d.children aParent := children_create_of_lt hpf _
    have hcut' := hkids.trans hcut
    have hmem : d.fresh ∉ (d.create (CreateElementTxn.newBody aTag)).children aParent := by
      rw [hkids]
      exact hd.not_mem_of_detached (hd.mParent_fresh (Nat.le_refl _)) _
    obtain ⟨ht, hnew⟩ := children_insertBefore hwf (Nat.lt_succ_of_lt hpf) hmem hcut'
      (by rw [← heq])
    rw [← heq] at hnew
    refine hadj ?_ hnew
    have hbody : (d.create (CreateElementTxn.newBody aTag)).body aParent = d.body aParent :=
      Function.update_of_ne (Nat.ne_of_lt hpf) _ _
    rwa [isText, hbody] at ht

/-- A body with four children and a node in no tree. -/
def fourChildren : Document where
  mParent n := if 1 ≤ n ∧ n ≤ 4 then some 0 else none
  body n := .element "div" (if n = 0 then [1, 2, 3, 4] else [])
  fresh := 6

theorem fourChildren_wellFormed : fourChildren.WellFormed where
  parent_iff p c := by
    have hfour : ∀ n : ℕ, 1 ≤ n ∧ n ≤ 4 ↔ n ∈ [1, 2, 3, 4] := fun n => by
      simp only [List.mem_cons, List.not_mem_nil, or_false]
      omega
    simp only [fourChildren, children, Body.children, hfour]
    split_ifs with h₁ h₂ h₂
    · exact ⟨fun _ => h₁, fun _ => h₂ ▸ rfl⟩
    · exact ⟨fun h => absurd (Option.some.inj h).symm h₂, fun h => absurd h List.not_mem_nil⟩
    · exact ⟨fun h => absurd h (by simp), fun h => absurd h h₁⟩
    · exact ⟨fun h => absurd h (by simp), fun h => absurd h List.not_mem_nil⟩
  nodup p := by
    simp only [fourChildren, children, Body.children]
    split_ifs <;> decide
  bound p c h := by
    simp only [fourChildren] at h
    split_ifs at h with hc
    cases h
    exact ⟨Nat.lt_of_le_of_lt hc.2 (by decide), by decide⟩
  acyclic := by
    refine ⟨id, fun p c h => ?_⟩
    simp only [fourChildren] at h
    split_ifs at h with hc
    cases h
    exact hc.1

/-- A node is put in between the endpoints of a range. -/
theorem insertion_keeps_sample :
    nsRangeUpdater.Tracks (InsertionKeeps fourChildren
      (insertNode 5 0 2 fourChildren ⟨[⟨0, 1, 0, 3⟩], false⟩).2.1 5 0 2) ⟨[⟨0, 1, 0, 3⟩], false⟩
      (insertNode 5 0 2 fourChildren ⟨[⟨0, 1, 0, 3⟩], false⟩).2.2 := by
  refine ((insertion_keeps_iff fourChildren_wellFormed (by decide) ⟨by decide, by decide⟩
    (by decide) ?_).1 5 (by decide) rfl).mpr ?_
  · simp [nsRangeUpdater.InNode, nsRangeUpdater.endpoints, nsRangeStore.start, nsRangeStore.stop]
    decide
  · simp [InsertionFits]

/-- A node that is appended with the position -1 shifts every endpoint of the parent. -/
theorem append_shifts :
    (insertNode 5 0 (-1) fourChildren ⟨[⟨0, 1, 0, 4⟩], false⟩).2.2 = ⟨[⟨0, 2, 0, 5⟩], false⟩ ∧
      ¬ nsRangeUpdater.Tracks (InsertionKeeps fourChildren
        (insertNode 5 0 (-1) fourChildren ⟨[⟨0, 1, 0, 4⟩], false⟩).2.1 5 0 (-1))
        ⟨[⟨0, 1, 0, 4⟩], false⟩
        (insertNode 5 0 (-1) fourChildren ⟨[⟨0, 1, 0, 4⟩], false⟩).2.2 := by
  refine ⟨by decide, fun h => ?_⟩
  obtain ⟨⟨hstart, -⟩, -⟩ := List.forall₂_cons.mp h
  exact absurd (hstart.place rfl) (by decide)

/-! ### Moving a node -/

/-- What moving the node keeps of an endpoint in the old or the new parent: it has the same
other children in front of it and behind it. -/
structure MoveKeeps (d d' : Document) (x oldParent newParent : NodeId) (e e' : Endpoint) :
    Prop where
  other : e.1 ≠ oldParent → e.1 ≠ newParent → e' = e
  node : e'.1 = e.1
  same : e.1 = oldParent ∨ e.1 = newParent →
    SameGap x (d.children e.1) (d'.children e.1) e.2 e'.2

/-- The endpoint that `DidMoveNode` makes of an endpoint. -/
def moved (oldParent : NodeId) (oldOffset : ℤ) (newParent : NodeId) (newOffset : ℤ)
    (e : Endpoint) : Endpoint :=
  let e := if e.1 = oldParent ∧ e.2 > oldOffset then (e.1, e.2 - 1) else e
  if e.1 = newParent ∧ e.2 > newOffset then (e.1, e.2 + 1) else e

/-- When that is the right one: the endpoint is not one place behind the target of a forward
move in the same parent. -/
def MoveFits (oldParent : NodeId) (oldOffset : ℤ) (newParent : NodeId) (newOffset : ℤ)
    (e : Endpoint) : Prop :=
  ¬ (e.1 = newParent ∧ newParent = oldParent ∧ oldOffset < newOffset ∧ e.2 = newOffset + 1)

theorem moved_fst {oldParent newParent : NodeId} {i j : ℤ} {e : Endpoint} :
    (moved oldParent i newParent j e).1 = e.1 := by
  simp only [moved]
  split_ifs <;> rfl

theorem moved_snd {oldParent newParent n : NodeId} {i j p : ℤ} :
    (moved oldParent i newParent j (n, p)).2 =
      if n = newParent ∧ (if n = oldParent ∧ p > i then p - 1 else p) > j then
        (if n = oldParent ∧ p > i then p - 1 else p) + 1
      else if n = oldParent ∧ p > i then p - 1 else p := by
  simp only [moved]
  split_ifs <;> rfl

/-- `DeleteNode` while the ranges are locked. -/
theorem deleteNode_locked (hd : d.WellFormed) (hlock : ru.mLock = true) {x p : NodeId}
    {A B : List NodeId} (hAB : d.children p = A ++ x :: B) :
    deleteNode x d ru = (.ok, d.unlink x p A.length, ru) := by
  have hx : d.mParent x = some p := (hd.parent_iff p x).mpr (by simp [hAB])
  have hru : ru.selAdjDeleteNode d x = ru := by
    rw [nsRangeUpdater.selAdjDeleteNode]
    split
    · rfl
    · exact nsRangeUpdater.selAdj_of_lock hlock
  simp only [deleteNode, DeleteElementTxn.doTracked, DeleteElementTxn.doTransaction, hx, hru,
    removeChild_eq hd hAB]

theorem length_take_insertIndex (l : List NodeId) (aPosition : ℤ) :
    (l.take (insertIndex l.length aPosition)).length = insertIndex l.length aPosition := by
  rw [List.length_take, Nat.min_eq_left (insertIndex_le _ _)]

/-- `InsertNode` while the ranges are locked. -/
theorem insertNode_locked (hd : d.WellFormed) (hlock : ru.mLock = true) {x p : NodeId}
    {aPosition : ℤ} (hx : d.mParent x = none) (hpf : p < d.fresh)
    (hok : (insertNode x p aPosition d ru).1 = .ok) :
    d.isText p = false ∧ insertNode x p aPosition d ru =
      (.ok, d.link x p (insertIndex (d.children p).length aPosition), ru) := by
  have heq := insertElement_eq x p aPosition d
  have hru : ru.selAdjInsertNode p aPosition = ru := nsRangeUpdater.selAdj_of_lock hlock
  obtain ⟨-, -, -, -, ht, hanc, -⟩ := insertBefore_ok hd hx hpf (congrArg Prod.fst heq ▸ hok)
  have hcut := (List.take_append_drop (insertIndex (d.children p).length aPosition)
    (d.children p)).symm
  rw [insertBefore_detached hd hcut ht hx hanc hpf, length_take_insertIndex, Prod.mk.injEq] at heq
  refine ⟨ht, ?_⟩
  rw [insertNode, hru]
  exact Prod.ext heq.1 (Prod.ext heq.2 rfl)

/-- Where the node is put in, once it is taken out. -/
def moveTarget (oldParent : NodeId) (oldOffset : ℤ) (newParent : NodeId) (newOffset : ℤ) : ℤ :=
  if oldParent = newParent ∧ oldOffset < newOffset then newOffset - 1 else newOffset

/-- `MoveNode` when the node is not at its place. -/
theorem moveNode_eq (hd : d.WellFormed) {x p q : NodeId} {A B : List NodeId} {aOffset : ℤ}
    (hAB : d.children p = A ++ x :: B) (hq : q < d.fresh)
    (hne : ¬ (p = q ∧ (A.length : ℤ) = moveOffset d q aOffset))
    (hr : moveNode x q aOffset d ru = (.ok, d', ru')) :
    d.isText q = false ∧
      d' = (d.unlink x p A.length).link x q
        (insertIndex ((d.unlink x p A.length).children q).length
          (moveTarget p A.length q (moveOffset d q aOffset))) ∧
      ru'.mArray = ru.mArray.map (nsRangeStore.adjust
        (moved p A.length q (moveOffset d q aOffset))) := by
  have hx : d.mParent x = some p := (hd.parent_iff p x).mpr (by simp [hAB])
  have hidx : (d.children p).idxOf? x = some A.length := by
    rw [hAB]
    exact idxOf?_append_cons B (not_mem_of_nodup_cut (hAB ▸ hd.nodup p)).1
  have hloc : getNodeLocation d x = (some p, (A.length : ℤ)) := by
    simp only [getNodeLocation, hx, hidx]
  have hlock : ru.willMoveNode.mLock = true := rfl
  have hdel := deleteNode_locked hd hlock hAB
  have htarget : (if some p = some q ∧ (A.length : ℤ) < moveOffset d q aOffset then
      moveOffset d q aOffset - 1 else moveOffset d q aOffset) =
      moveTarget p A.length q (moveOffset d q aOffset) := by
    simp only [moveTarget, Option.some.injEq]
  have hne' : ¬ (some p = some q ∧ (A.length : ℤ) = moveOffset d q aOffset) := by
    rwa [Option.some.injEq]
  rw [moveNode] at hr
  simp only [hloc, if_neg hne', htarget, hdel, failed_ok, Bool.false_eq_true, if_false,
    Prod.mk.injEq] at hr
  obtain ⟨hok, hd', hru'⟩ := hr
  have hx' : (d.unlink x p A.length).mParent x = none := by
    rw [mParent_unlink, if_pos rfl]
  obtain ⟨ht, hins⟩ := insertNode_locked (hd.unlink hAB) hlock hx' hq hok
  rw [hins] at hd' hru'
  exact ⟨by simpa using ht, hd'.symm, hru' ▸ rfl⟩

/-- Where an endpoint of the old or the new parent belongs after the move. -/
theorem sameGap_moved {x p q : NodeId} {A B : List NodeId} {target t : ℤ}
    (hAB : d.children p = A ++ x :: B) (htq : d.isText q = false)
    (hd' : d' = (d.unlink x p A.length).link x q
      (insertIndex ((d.unlink x p A.length).children q).length target)) {e : Endpoint}
    (he : e.1 = p ∨ e.1 = q) (h₀ : 0 ≤ e.2) (hlen : e.2 ≤ (d.children e.1).length)
    (ht : t = insertIndex ((d.unlink x p A.length).children q).length target) :
    SameGap x (d.children e.1) (d'.children e.1) e.2
      (if e.1 = q then
        if (if e.1 = p ∧ e.2 > A.length then e.2 - 1 else e.2) ≤ t then
          if e.1 = p ∧ e.2 > A.length then e.2 - 1 else e.2
        else (if e.1 = p ∧ e.2 > A.length then e.2 - 1 else e.2) + 1
      else if e.1 = p ∧ e.2 > A.length then e.2 - 1 else e.2) := by
  obtain ⟨n, k⟩ := e
  simp only at he h₀ hlen ⊢
  have htp : d.isText p = false := isText_of_mem (c := x) (by simp [hAB])
  -- first the node is taken out
  have hout : SameGap x (d.children n) ((d.unlink x p A.length).children n) k
      (if n = p ∧ k > A.length then k - 1 else k) := by
    rw [children_unlink htp]
    by_cases hn : n = p
    · subst hn
      rw [if_pos rfl, hAB, eraseIdx_append_length]
      simp only [true_and]
      exact sameGap_erase h₀ (hAB ▸ hlen)
    · rw [if_neg hn, if_neg fun h => hn h.1]
      exact SameGap.refl x h₀ hlen
  -- then it is put in
  refine hout.trans ?_
  rw [hd', children_link (by simpa using htq)]
  by_cases hn : n = q
  · subst hn
    rw [if_pos rfl, if_pos rfl]
    obtain ⟨C, D, hCD, hC⟩ := exists_cut (insertIndex_le
      ((d.unlink x p A.length).children n).length target)
    rw [ht, ← hC]
    have hle := hout.le
    rw [hCD] at hle ⊢
    rw [insertIdx_append_length]
    exact sameGap_insert hout.nonneg hle
  · rw [if_neg hn, if_neg hn]
    exact SameGap.refl x hout.nonneg hout.le

/-- The code's endpoint is the right one where it fits, and nowhere else. -/
theorem moveKeeps_moved_iff (hd : d.WellFormed) {x p q : NodeId} {A B : List NodeId} {off : ℤ}
    (hAB : d.children p = A ++ x :: B) (htq : d.isText q = false)
    (hd' : d' = (d.unlink x p A.length).link x q
      (insertIndex ((d.unlink x p A.length).children q).length (moveTarget p A.length q off)))
    (hoff : 0 ≤ off ∧ off ≤ (d.children q).length) {e : Endpoint}
    (hp : e.1 = p ∨ e.1 = q → 0 ≤ e.2 ∧ e.2 ≤ (d.children e.1).length) :
    MoveKeeps d d' x p q e (moved p A.length q off e) ↔ MoveFits p A.length q off e := by
  have htp : d.isText p = false := isText_of_mem (c := x) (by simp [hAB])
  obtain ⟨n, k⟩ := e
  by_cases hn : n = p ∨ n = q
  swap
  · obtain ⟨hnp, hnq⟩ := not_or.mp hn
    have heq : moved p A.length q off (n, k) = (n, k) := by
      refine Prod.ext moved_fst ?_
      rw [moved_snd, if_neg fun h => hnq h.1, if_neg fun h => hnp h.1]
    rw [heq]
    exact ⟨fun _ h => hnq h.1, fun _ => ⟨fun _ _ => rfl, rfl, fun h => absurd h hn⟩⟩
  obtain ⟨h₀, hlen⟩ : 0 ≤ k ∧ k ≤ (d.children n).length := hp hn
  -- the index the node gets
  have hkids : (d.unlink x p A.length).children q = if q = p then A ++ B else d.children q := by
    rw [children_unlink htp, hAB, eraseIdx_append_length]
  have hindex : (insertIndex ((d.unlink x p A.length).children q).length
      (moveTarget p A.length q off) : ℤ) = moveTarget p A.length q off := by
    rw [hkids, insertIndex, moveTarget]
    by_cases hqp : q = p
    · subst hqp
      rw [hAB] at hoff
      simp only [List.length_append, List.length_cons] at hoff
      rw [if_pos rfl, List.length_append]
      simp only [true_and]
      split_ifs <;> omega
    · have hpq : ¬ (p = q ∧ (A.length : ℤ) < off) := fun h => hqp h.1.symm
      rw [if_neg hqp, if_neg hpq, if_pos hoff, Int.toNat_of_nonneg hoff.1]
  have hgap := sameGap_moved hAB htq hd' (e := (n, k)) hn h₀ hlen hindex.symm
  have hright : MoveFits p A.length q off (n, k) → (moved p A.length q off (n, k)).2 =
      (if n = q then
        if (if n = p ∧ k > A.length then k - 1 else k) ≤ moveTarget p A.length q off then
          if n = p ∧ k > A.length then k - 1 else k
        else (if n = p ∧ k > A.length then k - 1 else k) + 1
      else if n = p ∧ k > A.length then k - 1 else k) := by
    intro h
    rw [moved_snd, moveTarget]
    simp only [MoveFits] at h
    grind
  constructor
  · rintro h ⟨hnq, hqp, hlt, hk⟩
    -- one place behind the target there is one gap too few in front
    simp only at hnq hk
    subst hk hnq hqp
    have hcode : (moved n A.length n off (n, off + 1)).2 = off := by
      rw [moved_snd]
      grind
    have htarget : moveTarget n A.length n off = off - 1 := if_pos ⟨rfl, hlt⟩
    have hbehind : off + 1 > (A.length : ℤ) := by omega
    have hwant : SameGap x (d.children n) (d'.children n) (off + 1) (off + 1) := by
      simp only [true_and, if_true, htarget, if_pos hbehind] at hgap
      rw [if_neg (by omega)] at hgap
      simpa using hgap
    have hgot := h.same (.inl rfl)
    rw [hcode] at hgot
    rw [htarget] at hindex hd'
    obtain ⟨C, D, hCD, hC⟩ := exists_cut (insertIndex_le
      ((d.unlink x n A.length).children n).length (off - 1))
    have hkids' : d'.children n = C ++ x :: D := by
      rw [hd', children_link (by simpa using htq), if_pos rfl, ← hC, hCD, insertIdx_append_length]
    have hxAB := not_mem_of_nodup_cut (hAB ▸ hd.nodup n)
    have hxCD : x ∉ C ++ D := by
      rw [← hCD, hkids, if_pos rfl]
      simpa using hxAB
    obtain ⟨hxC, hxD⟩ := not_or.mp (mt List.mem_append.mpr hxCD)
    rw [hkids'] at hgot hwant
    rcases hgot.eq_or hxC hxD hwant with h | ⟨-, -, h⟩ <;> omega
  · intro h
    refine ⟨fun h₁ h₂ => absurd hn (not_or.mpr ⟨h₁, h₂⟩), moved_fst, fun _ => ?_⟩
    rw [hright h]
    exact hgap

/-- Moving a node keeps every registered endpoint in the old and the new parent exactly when none
is one place behind the target of a forward move in the same parent. -/
theorem moveNode_keeps_iff {x oldParent aParent : NodeId} {aOffset : ℤ} (hd : d.WellFormed)
    (hx : d.mParent x = some oldParent) (hpf : aParent < d.fresh)
    (hoff : aOffset = -1 ∨ 0 ≤ aOffset ∧ aOffset ≤ d.length aParent)
    (hold : ru.InNode d oldParent) (hnew : ru.InNode d aParent)
    (hr : moveNode x aParent aOffset d ru = (.ok, d', ru')) :
    ru.Tracks (MoveKeeps d d' x oldParent aParent) ru' ↔
      ∀ e ∈ ru.endpoints, MoveFits oldParent (getNodeLocation d x).2 aParent
        (moveOffset d aParent aOffset) e := by
  obtain ⟨A, B, hAB, hA, -⟩ := hd.exists_cut hx
  have hloc : getNodeLocation d x = (some oldParent, (A.length : ℤ)) := by
    simp only [getNodeLocation, hx, hAB, idxOf?_append_cons B hA]
  have hold' : d.isText oldParent = false := isText_of_mem (c := x) (by simp [hAB])
  have hlen {n : NodeId} (ht : d.isText n = false) : d.length n = (d.children n).length := by
    rw [length, Body.length_of_not_isText ht]
    rfl
  rw [hloc]
  by_cases hplace : oldParent = aParent ∧ (A.length : ℤ) = moveOffset d aParent aOffset
  · -- the node is in its place
    have hplace' : some oldParent = some aParent ∧ (A.length : ℤ) = moveOffset d aParent aOffset :=
      ⟨congrArg some hplace.1, hplace.2⟩
    rw [moveNode] at hr
    simp only [hloc, if_pos hplace', Prod.mk.injEq, true_and] at hr
    obtain ⟨rfl, rfl⟩ := hr
    have hself : ru.mArray = ru.mArray.map (nsRangeStore.adjust id) := (List.map_id _).symm
    rw [nsRangeUpdater.tracks_map_iff hself]
    refine forall₂_congr fun e he => ⟨fun _ h => ?_, fun _ => ⟨fun _ _ => rfl, rfl, fun hn => ?_⟩⟩
    · omega
    · obtain rfl := hplace.1
      have hn : e.1 = oldParent := hn.elim id id
      have := hold e he hn
      rw [hlen hold', ← hn] at this
      exact SameGap.refl x this.1 this.2
  · obtain ⟨ht, hd', hmap⟩ := moveNode_eq hd hAB hpf hplace hr
    rw [nsRangeUpdater.tracks_map_iff hmap]
    have hoff' : 0 ≤ moveOffset d aParent aOffset ∧
        moveOffset d aParent aOffset ≤ (d.children aParent).length := by
      rw [← hlen ht, moveOffset]
      split_ifs with h
      · omega
      · exact hoff.resolve_left h
    refine forall₂_congr fun e he => moveKeeps_moved_iff hd hAB ht hd' hoff' fun hn => ?_
    rcases hn with hn | hn
    · have := hold e he hn
      rwa [hlen hold', ← hn] at this
    · have := hnew e he hn
      rwa [hlen ht, ← hn] at this

/-- The first child goes to the end, past both endpoints of a range. -/
theorem moveNode_keeps_sample :
    nsRangeUpdater.Tracks (MoveKeeps fourChildren
      (moveNode 1 0 (-1) fourChildren ⟨[⟨0, 1, 0, 4⟩], false⟩).2.1 1 0 0) ⟨[⟨0, 1, 0, 4⟩], false⟩
      (moveNode 1 0 (-1) fourChildren ⟨[⟨0, 1, 0, 4⟩], false⟩).2.2 := by
  have hru : nsRangeUpdater.InNode ⟨[⟨0, 1, 0, 4⟩], false⟩ fourChildren 0 := by
    simp [nsRangeUpdater.InNode, nsRangeUpdater.endpoints, nsRangeStore.start, nsRangeStore.stop]
    decide
  refine (moveNode_keeps_iff fourChildren_wellFormed rfl (by decide) (.inl rfl) hru hru rfl).mpr ?_
  simp [MoveFits, nsRangeUpdater.endpoints, nsRangeStore.start, nsRangeStore.stop]
  decide

/-- A node moved forward by one: an endpoint behind the third child ends up in front of it. -/
theorem move_forward_shifts :
    (moveNode 1 0 2 fourChildren ⟨[⟨0, 3, 0, 4⟩], false⟩).2.1.children 0 = [2, 1, 3, 4] ∧
      (moveNode 1 0 2 fourChildren ⟨[⟨0, 3, 0, 4⟩], false⟩).2.2 = ⟨[⟨0, 2, 0, 4⟩], false⟩ ∧
      ¬ nsRangeUpdater.Tracks (MoveKeeps fourChildren
        (moveNode 1 0 2 fourChildren ⟨[⟨0, 3, 0, 4⟩], false⟩).2.1 1 0 0)
        ⟨[⟨0, 3, 0, 4⟩], false⟩
        (moveNode 1 0 2 fourChildren ⟨[⟨0, 3, 0, 4⟩], false⟩).2.2 := by
  refine ⟨by decide, by decide, fun h => ?_⟩
  obtain ⟨⟨hstart, -⟩, -⟩ := List.forall₂_cons.mp h
  exact absurd (hstart.same (.inl rfl)).front (by decide)

end Kompozer.Editor

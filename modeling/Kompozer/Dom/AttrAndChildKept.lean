import Kompozer.Dom.AttrAndChildHolds

/-! The operations on an array of attributes and children, each as an operation on the two lists
that the array stands for. -/

namespace Kompozer.Dom.AttrAndChild

open NsResult

variable {A V C : Type}

namespace nsAttrAndChildArray

/-- The array stands for these lists. -/
def Kept (a : nsAttrAndChildArray A V C) (l : Lists A V C) : Prop :=
  match a.mImpl with
  | none => l = {}
  | some impl => impl.Holds l

theorem kept_some {impl : Impl A V C} {l : Lists A V C} (h : impl.Holds l) :
    (⟨some impl⟩ : nsAttrAndChildArray A V C).Kept l := h

theorem attrSlotCount_some (a : nsAttrAndChildArray A V C) {impl : Impl A V C}
    (himpl : a.mImpl = some impl) : a.AttrSlotCount = impl.AttrSlotCount := by
  unfold AttrSlotCount
  rw [himpl]
  rfl

theorem done_some (impl : Impl A V C) : done (some impl) = some (ok, ⟨some impl⟩) := rfl

/-- The result of an operation that may be refused: what the lists become, unless a limit is
reached or there is no memory. -/
def Done (a : nsAttrAndChildArray A V C) (l l' : Lists A V C) (memory : Bool) (limit : Prop)
    (r : NsResult × nsAttrAndChildArray A V C) : Prop :=
  (r.1 = ok ∧ r.2.Kept l' ∧ ¬limit) ∨
    (r.1 = NS_ERROR_FAILURE ∧ r.2 = a ∧ r.2.Kept l ∧ limit) ∨
    (r.1 = NS_ERROR_OUT_OF_MEMORY ∧ r.2 = a ∧ r.2.Kept l ∧ memory = false)

namespace Kept

variable {a : nsAttrAndChildArray A V C} {l : Lists A V C} (h : a.Kept l) {b : Build}
  {memory : Bool} {n i j : ℕ}
include h

theorem childCount : a.ChildCount = l.children.length := by
  unfold Kept at h
  unfold ChildCount
  cases himpl : a.mImpl with
  | none =>
    rw [himpl] at h
    cases h
    rfl
  | some impl =>
    rw [himpl] at h
    exact h.childCount

theorem slots : l.attrs.length ≤ a.AttrSlotCount := by
  unfold Kept at h
  unfold AttrSlotCount
  cases himpl : a.mImpl with
  | none =>
    rw [himpl] at h
    cases h
    exact Nat.le_refl 0
  | some impl =>
    rw [himpl] at h
    exact h.slots

theorem mappedAttrCount : a.MappedAttrCount = (l.mapped.getD []).length := by
  unfold Kept at h
  unfold MappedAttrCount
  cases himpl : a.mImpl with
  | none =>
    rw [himpl] at h
    cases h
    rfl
  | some impl =>
    rw [himpl] at h
    exact congrArg (fun m => (Option.getD m []).length) h.mapped

/-- There is a buffer as soon as there is something in it. -/
theorem exists_impl (hne : 0 < l.attrs.length ∨ 0 < l.children.length) :
    ∃ impl, a.mImpl = some impl ∧ impl.Holds l := by
  unfold Kept at h
  cases himpl : a.mImpl with
  | none =>
    rw [himpl] at h
    cases h
    simp at hne
  | some impl =>
    rw [himpl] at h
    exact ⟨impl, rfl, h⟩

theorem exists_of_slots (hslots : 0 < a.AttrSlotCount) :
    ∃ impl, a.mImpl = some impl ∧ impl.Holds l := by
  unfold Kept at h
  unfold AttrSlotCount at hslots
  cases himpl : a.mImpl with
  | none =>
    rw [himpl] at hslots
    exact absurd hslots (Nat.lt_irrefl 0)
  | some impl =>
    rw [himpl] at h
    exact ⟨impl, rfl, h⟩

/-! ### Growing -/

theorem growBy (hn : n = 1 ∨ n = 2) : ∃ impl, a.GrowBy b true n = some impl ∧ impl.Holds l ∧
    impl.AttrSlotCount = a.AttrSlotCount ∧
    impl.AttrSlotCount * 2 + l.children.length + n ≤ impl.mBufferSize := by
  unfold Kept at h
  unfold GrowBy AttrSlotCount
  cases himpl : a.mImpl with
  | none =>
    rw [himpl] at h
    cases h
    refine ⟨_, rfl, Impl.Holds.fresh _, by simp [Impl.fresh, Impl.attrSlotCount_eq], ?_⟩
    have hzero : (Impl.fresh (grownSize 0 (0 + n) - b.NS_IMPL_EXTRA_SIZE) :
        Impl A V C).AttrSlotCount = 0 := by simp [Impl.fresh, Impl.attrSlotCount_eq]
    have hextra : b.NS_IMPL_EXTRA_SIZE ≤ 3 := by cases b <;> decide
    have hgrown : grownSize 0 (0 + n) = 8 := by rcases hn with rfl | rfl <;> decide
    change (Impl.fresh (grownSize 0 (0 + n) - b.NS_IMPL_EXTRA_SIZE) :
        Impl A V C).AttrSlotCount * 2 + 0 + n ≤ grownSize 0 (0 + n) - b.NS_IMPL_EXTRA_SIZE
    omega
  | some impl =>
    rw [himpl] at h
    have hroom := h.room
    have hgrown := le_grownSize (impl.mBufferSize + b.NS_IMPL_EXTRA_SIZE)
      (impl.mBufferSize + b.NS_IMPL_EXTRA_SIZE + n)
    refine ⟨_, rfl, h.realloc ?_, rfl, ?_⟩
    · dsimp only [Option.elim]
      omega
    · change impl.AttrSlotCount * 2 + _ + n ≤ grownSize _ _ - _
      dsimp only [Option.elim]
      omega

theorem roomForSlot (memory : Bool) : (memory = false ∧ a.roomForSlot b memory = none) ∨
    ∃ impl, a.roomForSlot b memory = some impl ∧ impl.Holds l ∧
      impl.AttrSlotCount = a.AttrSlotCount ∧
      (impl.AttrSlotCount + 1) * ATTRSIZE + impl.ChildCount ≤ impl.mBufferSize := by
  have hgrow : (memory = false ∧ a.GrowBy b memory ATTRSIZE = none) ∨
      ∃ impl, a.GrowBy b memory ATTRSIZE = some impl ∧ impl.Holds l ∧
        impl.AttrSlotCount = a.AttrSlotCount ∧
        (impl.AttrSlotCount + 1) * ATTRSIZE + impl.ChildCount ≤ impl.mBufferSize := by
    cases memory with
    | false => exact .inl ⟨rfl, rfl⟩
    | true =>
      obtain ⟨impl, hsome, hholds, hcount, hroom⟩ := h.growBy (b := b) (n := 2) (.inr rfl)
      refine .inr ⟨impl, hsome, hholds, hcount, ?_⟩
      rw [hholds.childCount]
      unfold ATTRSIZE
      omega
  unfold nsAttrAndChildArray.roomForSlot
  cases himpl : a.mImpl with
  | none => exact hgrow
  | some impl =>
    dsimp only
    split_ifs with hroom
    · have hholds : impl.Holds l := by
        unfold Kept at h
        rwa [himpl] at h
      exact .inr ⟨impl, rfl, hholds, (a.attrSlotCount_some himpl).symm, hroom⟩
    · exact hgrow

/-! ### Children -/

theorem lastSlotEmpty :
    a.lastSlotEmpty = some (decide (l.attrs.length < a.AttrSlotCount)) := by
  unfold Kept at h
  unfold nsAttrAndChildArray.lastSlotEmpty AttrSlotCount
  cases himpl : a.mImpl with
  | none => simp
  | some impl =>
    rw [himpl] at h
    have hslots := h.slots
    dsimp only [Option.elim]
    split_ifs with hzero
    · have hnot : ¬l.attrs.length < impl.AttrSlotCount := by omega
      simp [hnot]
    · have hlast : impl.AttrSlotCount * ATTRSIZE - ATTRSIZE = (impl.AttrSlotCount - 1) * ATTRSIZE := by
        unfold ATTRSIZE
        omega
      rw [hlast, h.isNull_eq (by omega)]
      congr 2
      apply propext
      omega

theorem insertChildAt (memory : Bool) (aChild : C) {aPos : ℕ} (hpos : aPos ≤ l.children.length)
    (hcareful : l.children.length + 1 < 2 ^ 22 ∨
      b.ATTRCHILD_ARRAY_MAX_CHILD_COUNT ≤ l.children.length) :
    ∃ r, a.InsertChildAt b memory aChild aPos = some r ∧
      Done a l { l with children := l.children.insertIdx aPos aChild } memory
        (b.ATTRCHILD_ARRAY_MAX_CHILD_COUNT ≤ l.children.length) r := by
  unfold InsertChildAt
  rw [h.childCount, h.lastSlotEmpty]
  by_cases hmax : b.ATTRCHILD_ARRAY_MAX_CHILD_COUNT ≤ l.children.length
  · rw [if_pos hmax]
    exact ⟨_, rfl, .inr (.inl ⟨rfl, rfl, h, hmax⟩)⟩
  have hlimit : l.children.length + 1 < 2 ^ 22 := hcareful.resolve_right hmax
  rw [if_neg hmax]
  by_cases hroom : a.hasRoom = true
  · rw [if_pos hroom]
    unfold hasRoom at hroom
    unfold Kept at h
    cases himpl : a.mImpl with
    | none =>
      rw [himpl] at hroom
      cases hroom
    | some impl =>
      rw [himpl] at h hroom
      have hlt : impl.AttrSlotCount * 2 + impl.ChildCount < impl.mBufferSize :=
        of_decide_eq_true hroom
      obtain ⟨impl', hsome, hholds, -⟩ := h.insertChild aChild hpos hlt hlimit
      refine ⟨(ok, ⟨impl'⟩), ?_, .inl ⟨rfl, hholds, hmax⟩⟩
      rw [Option.bind_some, hsome, done_some]
  · rw [if_neg hroom]
    by_cases hempty : l.attrs.length < a.AttrSlotCount
    · obtain ⟨impl, himpl, hholds⟩ := h.exists_of_slots (Nat.zero_lt_of_lt hempty)
      rw [a.attrSlotCount_some himpl] at hempty
      obtain ⟨impl', hsome, hholds', -⟩ :=
        hholds.insertChildInSlots aChild hpos hempty hlimit
      refine ⟨(ok, ⟨impl'⟩), ?_, .inl ⟨rfl, hholds', hmax⟩⟩
      rw [a.attrSlotCount_some himpl, decide_eq_true hempty, himpl, Option.bind_some, hsome,
        done_some]
    · rw [decide_eq_false hempty]
      cases memory with
      | false => exact ⟨(NS_ERROR_OUT_OF_MEMORY, a), rfl, .inr (.inr ⟨rfl, rfl, h, rfl⟩)⟩
      | true =>
        obtain ⟨impl, hsome, hholds, -, hroom'⟩ := h.growBy (b := b) (n := 1) (.inl rfl)
        have hlt : impl.AttrSlotCount * 2 + impl.ChildCount < impl.mBufferSize := by
          rw [hholds.childCount]
          omega
        obtain ⟨impl', hsome', hholds', -⟩ := hholds.insertChild aChild hpos hlt hlimit
        refine ⟨(ok, ⟨impl'⟩), ?_, .inl ⟨rfl, hholds', hmax⟩⟩
        rw [hsome]
        dsimp only
        rw [hsome', done_some]

theorem removeChildAt {aPos : ℕ} (hpos : aPos < l.children.length) :
    ∃ a', a.RemoveChildAt aPos = some a' ∧
      a'.Kept { l with children := l.children.eraseIdx aPos } := by
  obtain ⟨impl, himpl, hholds⟩ := h.exists_impl (.inr (Nat.zero_lt_of_lt hpos))
  obtain ⟨impl', hsome, hholds', -⟩ := hholds.RemoveChildAt hpos
  refine ⟨⟨impl'⟩, ?_, hholds'⟩
  unfold RemoveChildAt
  simp [himpl, hsome]

/-! ### Attributes -/

theorem removeAttrAt {aPos : ℕ} {e : nsAttrName A × V}
    (hget : l.attrs[aPos - (l.mapped.getD []).length]? = some e) :
    ∃ a', a.RemoveAttrAt aPos = some (e.2, a') ∧
      a'.Kept { l with attrs := l.attrs.eraseIdx (aPos - (l.mapped.getD []).length) } ∧
      a'.AttrSlotCount = a.AttrSlotCount := by
  have hpos := (List.getElem?_eq_some_iff.mp hget).1
  obtain ⟨impl, himpl, hholds⟩ := h.exists_impl (.inl (Nat.zero_lt_of_lt hpos))
  obtain ⟨impl', hsome, hholds', hslots⟩ := hholds.RemoveAttrAt hget
  refine ⟨⟨impl'⟩, ?_, hholds', hslots.trans (a.attrSlotCount_some himpl).symm⟩
  unfold RemoveAttrAt
  rw [h.mappedAttrCount]
  simp [himpl, hsome]

theorem compact (hmemory : memory = true ∨ ∀ impl, a.mImpl = some impl → ¬impl.Shrinks) :
    ∃ a', a.Compact memory = some a' ∧ a'.Kept l := by
  unfold Compact
  cases himpl : a.mImpl with
  | none => exact ⟨a, rfl, h⟩
  | some impl =>
    have hholds : impl.Holds l := by
      unfold Kept at h
      rwa [himpl] at h
    obtain ⟨impl', hsome, hholds', hcount, hsize⟩ := hholds.compressSlots
    dsimp only
    rw [hholds.nonMappedAttrCount_eq, hsome, hholds.childCount]
    dsimp only [Option.bind_eq_bind, Option.bind_some]
    unfold ATTRSIZE
    rw [hsize]
    by_cases hzero : l.attrs.length * 2 + l.children.length = 0 ∧ impl'.mMappedAttrs = none
    · refine ⟨⟨none⟩, by simp_all, ?_⟩
      have hattrs : l.attrs = [] := List.length_eq_zero_iff.mp (by omega)
      have hchildren : l.children = [] := List.length_eq_zero_iff.mp (by omega)
      have hmapped : l.mapped = none := hholds'.mapped.symm.trans hzero.2
      cases l
      cases hattrs
      cases hchildren
      cases hmapped
      rfl
    · have hcond : ¬((decide (l.attrs.length * 2 + l.children.length = 0) &&
          impl'.mMappedAttrs.isNone) = true) := by
        simpa using hzero
      rw [if_neg hcond]
      split_ifs with hlt hmem
      · refine ⟨_, rfl, kept_some (hholds'.realloc ?_)⟩
        rw [hcount]
      · refine absurd ⟨l.attrs.length, hholds.nonMappedAttrCount_eq, ?_, ?_⟩
          (hmemory.resolve_left hmem impl himpl)
        · rw [hholds.childCount, hholds.mapped, ← hholds'.mapped]
          exact hzero
        · rw [hholds.childCount]
          exact hlt
      · exact ⟨_, rfl, kept_some hholds'⟩

end Kept

end nsAttrAndChildArray

/-! ### Setting attributes -/

/-- An ordered list of pairs: a name that is there gets the value, one that is not goes to the
end. -/
def setPair [DecidableEq A] (attrs : List (nsAttrName A × V)) (name : nsAttrName A) (value : V) :
    List (nsAttrName A × V) :=
  match attrs.findIdx? (·.1.key = name.key) with
  | some i => attrs.set i (name, value)
  | none => attrs ++ [(name, value)]

theorem Impl.Holds.setName_same {impl : Impl A V C} {l : Lists A V C} (h : impl.Holds l) {i : ℕ}
    {e : nsAttrName A × V} (hget : l.attrs[i]? = some e) : impl.setName i e.1 = some impl := by
  have hi : i < l.attrs.length := (List.getElem?_eq_some_iff.mp hget).1
  have hlt := h.slot_lt (Nat.lt_of_lt_of_le hi h.slots)
  unfold setName ATTRSIZE
  rw [Block.set_of_lt (by omega), ← (h.laid.attr i e hget).1, Block.put_cell]
  rfl

namespace nsAttrAndChildArray.Kept

variable {a : nsAttrAndChildArray A V C} {l : Lists A V C} (h : a.Kept l) {b : Build}
  {memory : Bool}
include h

theorem findAttr (equals : nsAttrName A → Bool) : a.findAttr equals =
    some ((l.attrs.findIdx? (equals ·.1)).elim (l.attrs.length, false) fun j => (j, true)) := by
  unfold Kept at h
  unfold nsAttrAndChildArray.findAttr AttrSlotCount
  cases himpl : a.mImpl with
  | none =>
    rw [himpl] at h
    cases h
    rfl
  | some impl =>
    rw [himpl] at h
    exact h.findSlot_eq equals

variable [DecidableEq A]

/-- A loop that compares the keys of names. -/
theorem findAttr_key {equals : nsAttrName A → Bool} {key : A × ℤ}
    (hequals : ∀ n, equals n = true ↔ n.key = key) : a.findAttr equals =
    some ((l.attrs.findIdx? (·.1.key = key)).elim (l.attrs.length, false) fun j => (j, true)) := by
  have hpred : (fun e : nsAttrName A × V => equals e.1) = fun e => decide (e.1.key = key) := by
    funext e
    exact Bool.eq_iff_iff.mpr ((hequals e.1).trans decide_eq_true_iff.symm)
  rw [h.findAttr, hpred]

variable {equals : nsAttrName A → Bool} {rename : Bool} {count : ℕ → ℕ → ℕ}
  {aName : nsAttrName A}

/-- The common part of the setters. The limit is reached where the count that they look at is. -/
theorem setSlot (memory : Bool) (aValue : V) (hequals : ∀ n, equals n = true ↔ n.key = aName.key)
    (hrename : rename = true ∨ ∀ n, equals n = true → n = aName)
    (hcount : l.attrs.length ≤ count a.AttrSlotCount l.attrs.length)
    (hcareful : (l.attrs.findIdx? (·.1.key = aName.key)) = none →
      ATTRCHILD_ARRAY_MAX_ATTR_COUNT ≤ count a.AttrSlotCount l.attrs.length →
      ATTRCHILD_ARRAY_MAX_ATTR_COUNT ≤ l.attrs.length) :
    ∃ r, a.setSlot b memory equals rename count aName aValue = some r ∧
      Done a l { l with attrs := setPair l.attrs aName aValue } memory
        (l.attrs.findIdx? (·.1.key = aName.key) = none ∧
          ATTRCHILD_ARRAY_MAX_ATTR_COUNT ≤ l.attrs.length) r := by
  unfold nsAttrAndChildArray.setSlot setPair
  rw [h.findAttr_key hequals]
  cases hfind : l.attrs.findIdx? (·.1.key = aName.key) with
  | some i =>
    obtain ⟨hi, hkey, -⟩ := List.findIdx?_eq_some_iff_getElem.mp hfind
    obtain ⟨impl, himpl, hholds⟩ := h.exists_impl (.inl (Nat.zero_lt_of_lt hi))
    obtain ⟨impl', hset, hholds', -⟩ := hholds.replace aName aValue hi
    refine ⟨(ok, ⟨impl'⟩), ?_, .inl ⟨rfl, hholds', by simp⟩⟩
    have hname : (if rename = true then impl.setName i aName else some impl) =
        impl.setName i aName := by
      rcases hrename with hrename | hsame
      · rw [if_pos hrename]
      · have hfound := hsame _ ((hequals _).mpr (of_decide_eq_true hkey))
        have hsame' := hholds.setName_same (List.getElem?_eq_getElem hi)
        rw [hfound] at hsame'
        rw [hsame', ite_self]
    dsimp only [Option.elim]
    rw [himpl, Option.bind_some]
    unfold Impl.writeSlot
    rw [hname, hset, done_some]
  | none =>
    dsimp only [Option.elim]
    split_ifs with hlimit hfull
    · exact ⟨_, rfl, .inr (.inl ⟨rfl, rfl, h, rfl, hcareful hfind hlimit⟩)⟩
    · have hlt : ¬ATTRCHILD_ARRAY_MAX_ATTR_COUNT ≤ l.attrs.length :=
        fun hle => hlimit (Nat.le_trans hle hcount)
      rcases h.roomForSlot (b := b) memory with ⟨hmem, hnone⟩ | hgrown
      · rw [hnone]
        exact ⟨_, rfl, .inr (.inr ⟨rfl, rfl, h, hmem⟩)⟩
      · obtain ⟨impl, hsome, hholds, hslots, hroom⟩ := hgrown
        rw [← hslots] at hfull
        obtain ⟨impl', hadd, hholds', hslots'⟩ :=
          hholds.addAttrSlot hfull (by rw [← hfull]; exact Nat.lt_of_not_le hlt) hroom
        obtain ⟨impl'', hpush, hholds'', -⟩ :=
          hholds'.push aName aValue (by omega)
        refine ⟨(ok, ⟨impl''⟩), ?_, .inl ⟨rfl, hholds'', fun hmax => hlt hmax.2⟩⟩
        rw [hsome]
        dsimp only
        rw [hadd, Option.bind_some]
        unfold Impl.writeSlot
        rw [if_pos rfl, hpush, done_some]
    · have hlt : ¬ATTRCHILD_ARRAY_MAX_ATTR_COUNT ≤ l.attrs.length :=
        fun hle => hlimit (Nat.le_trans hle hcount)
      have hempty : l.attrs.length < a.AttrSlotCount := Nat.lt_of_le_of_ne h.slots hfull
      obtain ⟨impl, himpl, hholds⟩ := h.exists_of_slots (Nat.zero_lt_of_lt hempty)
      rw [a.attrSlotCount_some himpl] at hempty
      obtain ⟨impl', hpush, hholds', -⟩ := hholds.push aName aValue hempty
      refine ⟨(ok, ⟨impl'⟩), ?_, .inl ⟨rfl, hholds', fun hmax => hlt hmax.2⟩⟩
      rw [himpl, Option.bind_some]
      unfold Impl.writeSlot
      rw [if_pos rfl, hpush, done_some]

end nsAttrAndChildArray.Kept

end Kompozer.Dom.AttrAndChild

import Kompozer.Dom.AttrAndChildOps
import Mathlib.Tactic.Ring

/-! The two lists that an array of attributes and children stands for, and what each operation
does to them. -/

namespace Kompozer.Dom.AttrAndChild

variable {A V C : Type}

/-! ### The two counts -/

/-- A count of children in the upper bits and of slots in the lower ones. -/
theorem or_shift {s c : ℕ} (hs : s < 1024) (hc : c < 2 ^ 22) :
    (UInt32.ofNat s ||| (UInt32.ofNat c <<< 10)).toNat = c * 1024 + s := by
  have hshift : c <<< 10 < 2 ^ 32 := by rw [Nat.shiftLeft_eq]; omega
  have hs' : s % 2 ^ 32 = s := Nat.mod_eq_of_lt (by omega)
  have hc' : c % 2 ^ 32 = c := Nat.mod_eq_of_lt (by omega)
  rw [UInt32.toNat_or, UInt32.toNat_shiftLeft, UInt32.toNat_ofNat', UInt32.toNat_ofNat', hs', hc']
  change s ||| (c <<< 10) % 2 ^ 32 = _
  rw [Nat.mod_eq_of_lt hshift, Nat.or_comm, ← Nat.shiftLeft_add_eq_or_of_lt hs, Nat.shiftLeft_eq]

theorem and_mask (x : UInt32) :
    x &&& ATTRCHILD_ARRAY_ATTR_SLOTS_COUNT_MASK = UInt32.ofNat (x.toNat % 1024) := by
  apply UInt32.toNat_inj.mp
  have hx : x.toNat % 1024 % 2 ^ 32 = x.toNat % 1024 := Nat.mod_eq_of_lt (by omega)
  rw [UInt32.toNat_and, UInt32.toNat_ofNat', hx]
  exact Nat.and_two_pow_sub_one_eq_mod x.toNat 10

theorem toNat_shiftRight_ten (x : UInt32) : (x >>> 10).toNat = x.toNat / 1024 := by
  rw [UInt32.toNat_shiftRight]
  exact Nat.shiftRight_eq_div_pow x.toNat 10

theorem and_not_mask (x : UInt32) :
    x &&& ~~~ATTRCHILD_ARRAY_ATTR_SLOTS_COUNT_MASK = UInt32.ofNat (x.toNat / 1024) <<< 10 := by
  apply UInt32.toNat_inj.mp
  have hx := x.toNat_lt
  have hmask : (~~~ATTRCHILD_ARRAY_ATTR_SLOTS_COUNT_MASK).toNat = (2 ^ 22 - 1) <<< 10 := by decide
  have hdiv : x.toNat / 1024 % 2 ^ 32 = x.toNat >>> 10 := by
    rw [Nat.shiftRight_eq_div_pow, Nat.mod_eq_of_lt (by omega)]
  have hshift : (x.toNat >>> 10) <<< 10 < 2 ^ 32 := by
    rw [Nat.shiftRight_eq_div_pow, Nat.shiftLeft_eq]
    omega
  rw [UInt32.toNat_and, hmask, UInt32.toNat_shiftLeft, UInt32.toNat_ofNat', hdiv]
  change _ = (x.toNat >>> 10) <<< 10 % 2 ^ 32
  rw [Nat.mod_eq_of_lt hshift]
  apply Nat.eq_of_testBit_eq
  intro i
  simp only [Nat.testBit_and, Nat.testBit_shiftLeft, Nat.testBit_two_pow_sub_one,
    Nat.testBit_shiftRight]
  by_cases hi : 10 ≤ i
  · rw [Nat.add_sub_cancel' hi]
    by_cases h32 : i < 32
    · have h22 : i - 10 < 22 := by omega
      simp [hi, h22]
    · have hbit : x.toNat.testBit i = false :=
        Nat.testBit_lt_two_pow (Nat.lt_of_lt_of_le hx (Nat.pow_le_pow_right (by decide) (by omega)))
      simp [hbit]
  · simp [hi]

namespace Impl

variable {impl : Impl A V C} {s c : ℕ} {mBuffer : Block (Word A V C)}

@[simp] theorem mBuffer_setBuffer : (impl.setBuffer mBuffer).mBuffer = mBuffer := rfl
@[simp] theorem mBuffer_SetChildCount : (impl.SetChildCount c).mBuffer = impl.mBuffer := rfl
@[simp] theorem mBuffer_SetAttrSlotCount : (impl.SetAttrSlotCount s).mBuffer = impl.mBuffer := rfl

@[simp] theorem mBuffer_SetAttrSlotAndChildCount :
    (impl.SetAttrSlotAndChildCount s c).mBuffer = impl.mBuffer := rfl

@[simp] theorem mBuffer_realloc :
    (impl.realloc s).mBuffer = impl.mBuffer.resize s .junk := rfl

@[simp] theorem attrSlotCount_setBuffer :
    (impl.setBuffer mBuffer).AttrSlotCount = impl.AttrSlotCount := rfl

@[simp] theorem attrSlotCount_realloc : (impl.realloc s).AttrSlotCount = impl.AttrSlotCount := rfl

theorem attrSlotCount_eq : impl.AttrSlotCount = impl.mAttrAndChildCount.toNat % 1024 := by
  unfold AttrSlotCount
  rw [and_mask, UInt32.toNat_ofNat']
  exact Nat.mod_eq_of_lt (by omega)

theorem childCount_eq : impl.ChildCount = impl.mAttrAndChildCount.toNat / 1024 :=
  toNat_shiftRight_ten _

theorem attrSlotCount_le (impl : Impl A V C) :
    impl.AttrSlotCount ≤ ATTRCHILD_ARRAY_MAX_ATTR_COUNT := by
  rw [attrSlotCount_eq]
  exact Nat.le_of_lt_succ (Nat.mod_lt _ (by decide))

theorem childCount_lt : impl.ChildCount < 2 ^ 22 := by
  have hx := impl.mAttrAndChildCount.toNat_lt
  rw [childCount_eq]
  omega

theorem counts_SetAttrSlotAndChildCount (impl : Impl A V C) (hs : s < 1024) (hc : c < 2 ^ 22) :
    (impl.SetAttrSlotAndChildCount s c).AttrSlotCount = s ∧
      (impl.SetAttrSlotAndChildCount s c).ChildCount = c := by
  rw [attrSlotCount_eq, childCount_eq]
  unfold SetAttrSlotAndChildCount
  rw [or_shift hs hc]
  omega

theorem counts_SetChildCount (impl : Impl A V C) (hc : c < 2 ^ 22) :
    (impl.SetChildCount c).AttrSlotCount = impl.AttrSlotCount ∧
      (impl.SetChildCount c).ChildCount = c := by
  rw [attrSlotCount_eq, childCount_eq, attrSlotCount_eq]
  unfold SetChildCount
  rw [and_mask, or_shift (Nat.mod_lt _ (by decide)) hc]
  omega

theorem counts_SetAttrSlotCount (impl : Impl A V C) (hs : s < 1024) :
    (impl.SetAttrSlotCount s).AttrSlotCount = s ∧
      (impl.SetAttrSlotCount s).ChildCount = impl.ChildCount := by
  have hx := impl.mAttrAndChildCount.toNat_lt
  rw [attrSlotCount_eq, childCount_eq, childCount_eq]
  unfold SetAttrSlotCount
  rw [and_not_mask, UInt32.or_comm, or_shift hs (by omega)]
  omega

end Impl

/-! ### What an array holds -/

/-- The attributes that are not mapped, the children, and the mapped attributes. -/
structure Lists (A V C : Type) where
  mapped : Option (List (nsAttrName A × V)) := none
  attrs : List (nsAttrName A × V) := []
  children : List C := []

/-- Where the words of the lists are. -/
structure Laid (cell : ℕ → Word A V C) (slots : ℕ) (attrs : List (nsAttrName A × V))
    (children : List C) : Prop where
  attr : ∀ i e, attrs[i]? = some e → cell (i * 2) = .name e.1 ∧ cell (i * 2 + 1) = .value e.2
  empty : ∀ i, attrs.length ≤ i → i < slots → cell (i * 2) = .null
  child : ∀ j c, children[j]? = some c → cell (slots * 2 + j) = .child c

structure Impl.Holds (impl : Impl A V C) (l : Lists A V C) : Prop where
  mapped : impl.mMappedAttrs = l.mapped
  childCount : impl.ChildCount = l.children.length
  slots : l.attrs.length ≤ impl.AttrSlotCount
  room : impl.AttrSlotCount * 2 + l.children.length ≤ impl.mBufferSize
  size : impl.mBuffer.size = impl.mBufferSize
  laid : Laid impl.mBuffer.cell impl.AttrSlotCount l.attrs l.children

namespace Impl.Holds

variable {impl : Impl A V C} {l : Lists A V C} (h : impl.Holds l) {i j : ℕ}
include h

theorem children_lt : l.children.length < 2 ^ 22 := h.childCount ▸ childCount_lt

theorem slot_lt (hi : i < impl.AttrSlotCount) : i * 2 + 1 < impl.mBuffer.size := by
  have := h.room
  have := h.size
  omega

theorem isNull_eq (hi : i < impl.AttrSlotCount) :
    impl.isNull (i * ATTRSIZE) = some (decide (l.attrs.length ≤ i)) := by
  have hlt := h.slot_lt hi
  unfold isNull ATTRSIZE
  rw [Block.get_of_lt (by omega)]
  by_cases hle : l.attrs.length ≤ i
  · simp [h.laid.empty i hle hi, hle]
  · have hget := List.getElem?_eq_getElem (Nat.lt_of_not_le hle)
    simp [(h.laid.attr i _ hget).1, hle]

theorem nameAt_eq {e : nsAttrName A × V} (hget : l.attrs[i]? = some e) :
    impl.nameAt i = some e.1 := by
  have hi : i < l.attrs.length := (List.getElem?_eq_some_iff.mp hget).1
  have hlt := h.slot_lt (Nat.lt_of_lt_of_le hi h.slots)
  unfold nameAt ATTRSIZE
  rw [Block.get_of_lt (by omega)]
  simp [(h.laid.attr i e hget).1]

theorem valueAt_eq {e : nsAttrName A × V} (hget : l.attrs[i]? = some e) :
    impl.valueAt i = some e.2 := by
  have hi : i < l.attrs.length := (List.getElem?_eq_some_iff.mp hget).1
  have hlt := h.slot_lt (Nat.lt_of_lt_of_le hi h.slots)
  unfold valueAt ATTRSIZE
  rw [Block.get_of_lt hlt]
  simp [(h.laid.attr i e hget).2]

theorem childAt_eq {c : C} (hget : l.children[j]? = some c) : impl.childAt j = some c := by
  have hj : j < l.children.length := (List.getElem?_eq_some_iff.mp hget).1
  have := h.room
  have := h.size
  unfold childAt ATTRSIZE
  rw [Block.get_of_lt (by omega)]
  simp [h.laid.child j c hget]

theorem lastUsed_eq : ∀ k, k ≤ impl.AttrSlotCount →
    impl.lastUsed k = some (min k l.attrs.length)
  | 0, _ => by simp [lastUsed]
  | k + 1, hk => by
    have ih := lastUsed_eq k (by omega)
    unfold lastUsed
    rw [h.isNull_eq (by omega)]
    by_cases hle : l.attrs.length ≤ k
    · simp [hle, ih, Nat.le_succ_of_le hle]
    · have hmin : min (k + 1) l.attrs.length = k + 1 := by omega
      simp [hle, hmin]

theorem nonMappedAttrCount_eq : impl.NonMappedAttrCount = some l.attrs.length := by
  unfold NonMappedAttrCount
  rw [h.lastUsed_eq _ (Nat.le_refl _), Nat.min_eq_right h.slots]

/-- Where the loop over the slots stops. -/
theorem findSlot_from (equals : nsAttrName A → Bool) : ∀ k i, k + i = impl.AttrSlotCount →
    i ≤ l.attrs.length →
    impl.findSlot equals k i = some (((l.attrs.drop i).findIdx? (equals ·.1)).elim
      (l.attrs.length, false) fun j => (i + j, true))
  | 0, i, hk, hi => by
    have := h.slots
    have hlen : i = l.attrs.length := by omega
    simp [findSlot, hlen]
  | k + 1, i, hk, hi => by
    unfold findSlot
    rw [h.isNull_eq (by omega)]
    by_cases hle : l.attrs.length ≤ i
    · have hlen : i = l.attrs.length := by omega
      simp [hlen]
    · have hlt : i < l.attrs.length := Nat.lt_of_not_le hle
      have hget := List.getElem?_eq_getElem hlt
      rw [h.nameAt_eq hget, List.drop_eq_getElem_cons hlt, List.findIdx?_cons]
      have ih := findSlot_from equals k (i + 1) (by omega) (by omega)
      cases heq : equals l.attrs[i].1 with
      | true => simp [hle, heq]
      | false =>
        simp only [hle, decide_false, Option.bind_eq_bind, Option.bind_some, heq, ih]
        cases (List.drop (i + 1) l.attrs).findIdx? (equals ·.1) with
        | none => simp
        | some j => simp [Nat.add_comm, Nat.add_left_comm]

theorem findSlot_eq (equals : nsAttrName A → Bool) :
    impl.findSlot equals impl.AttrSlotCount 0 = some ((l.attrs.findIdx? (equals ·.1)).elim
      (l.attrs.length, false) fun j => (j, true)) := by
  simpa using h.findSlot_from equals impl.AttrSlotCount 0 rfl (Nat.zero_le _)

/-! ### Counts and buffers -/

theorem realloc {n : ℕ} (hn : impl.AttrSlotCount * 2 + l.children.length ≤ n) :
    (impl.realloc n).Holds l where
  mapped := h.mapped
  childCount := h.childCount
  slots := h.slots
  room := hn
  size := rfl
  laid := by
    have hroom := h.room
    have hsize := h.size
    have hslots := h.slots
    rw [mBuffer_realloc, attrSlotCount_realloc]
    constructor
    · intro i e hget
      have hi : i < l.attrs.length := (List.getElem?_eq_some_iff.mp hget).1
      rw [Block.resize_of_lt (by omega) (by omega), Block.resize_of_lt (by omega) (by omega)]
      exact h.laid.attr i e hget
    · intro i hle hi
      rw [Block.resize_of_lt (by omega) (by omega)]
      exact h.laid.empty i hle hi
    · intro j c hget
      have hj : j < l.children.length := (List.getElem?_eq_some_iff.mp hget).1
      rw [Block.resize_of_lt (by omega) (by omega)]
      exact h.laid.child j c hget

omit h in
theorem fresh (n : ℕ) : (Impl.fresh n : Impl A V C).Holds {} where
  mapped := rfl
  childCount := by simp [Impl.fresh, childCount_eq]
  slots := Nat.zero_le _
  room := by simp [Impl.fresh, attrSlotCount_eq]
  size := rfl
  laid := by
    constructor
    · intro i e hget
      simp at hget
    · intro i _ hi
      exact absurd hi (by simp [Impl.fresh, attrSlotCount_eq])
    · intro j c hget
      simp at hget

/-! ### Attributes -/

/-- A slot in use is written over, or the first empty one is put to use. -/
theorem write {name : nsAttrName A} {value : V} {attrs : List (nsAttrName A × V)}
    (hi : i < impl.AttrSlotCount) (hslots : attrs.length ≤ impl.AttrSlotCount)
    (hle : l.attrs.length ≤ attrs.length) (hget : attrs[i]? = some (name, value))
    (hother : ∀ j, j ≠ i → attrs[j]? = l.attrs[j]?) :
    ∃ impl', (impl.setName i name).bind (·.setValue i value) = some impl' ∧
      impl'.Holds { l with attrs } ∧ impl'.AttrSlotCount = impl.AttrSlotCount := by
  have hlt := h.slot_lt hi
  refine ⟨impl.setBuffer ((impl.mBuffer.put (i * 2) (.name name)).put (i * 2 + 1) (.value value)),
    ?_, ?_⟩
  · unfold setName ATTRSIZE
    rw [Block.set_of_lt (by omega), Option.bind_eq_bind, Option.bind_some, Option.bind_some]
    unfold setValue ATTRSIZE
    rw [mBuffer_setBuffer, Block.set_of_lt (by rw [Block.size_put]; exact hlt)]
    rfl
  · refine ⟨⟨h.mapped, h.childCount, hslots, h.room, h.size, ?_⟩, rfl⟩
    rw [mBuffer_setBuffer, attrSlotCount_setBuffer]
    constructor
    · intro j e hj
      by_cases hji : j = i
      · subst hji
        rw [hget] at hj
        cases hj
        rw [Block.put_of_ne (by omega), Block.put_self, Block.put_self]
        exact ⟨rfl, rfl⟩
      · rw [hother j hji] at hj
        rw [Block.put_of_ne (by omega), Block.put_of_ne (by omega), Block.put_of_ne (by omega),
          Block.put_of_ne (by omega)]
        exact h.laid.attr j e hj
    · intro j hj hjs
      have hji : j ≠ i := by
        rintro rfl
        rw [List.getElem?_eq_none hj] at hget
        cases hget
      rw [Block.put_of_ne (by omega), Block.put_of_ne (by omega)]
      exact h.laid.empty j (Nat.le_trans hle hj) hjs
    · intro j c hj
      rw [Block.put_of_ne (by omega), Block.put_of_ne (by omega)]
      exact h.laid.child j c hj

/-- The attribute that was found is written over. -/
theorem replace (name : nsAttrName A) (value : V) (hi : i < l.attrs.length) :
    ∃ impl', (impl.setName i name).bind (·.setValue i value) = some impl' ∧
      impl'.Holds { l with attrs := l.attrs.set i (name, value) } ∧
      impl'.AttrSlotCount = impl.AttrSlotCount := by
  apply h.write (Nat.lt_of_lt_of_le hi h.slots)
  · rw [List.length_set]
    exact h.slots
  · rw [List.length_set]
  · exact List.getElem?_set_self hi
  · intro j hj
    exact List.getElem?_set_ne (Ne.symm hj)

/-- The first empty slot is put to use. -/
theorem push (name : nsAttrName A) (value : V) (hi : l.attrs.length < impl.AttrSlotCount) :
    ∃ impl', (impl.setName l.attrs.length name).bind (·.setValue l.attrs.length value) =
        some impl' ∧
      impl'.Holds { l with attrs := l.attrs ++ [(name, value)] } ∧
      impl'.AttrSlotCount = impl.AttrSlotCount := by
  apply h.write hi
  · rw [List.length_append]
    exact hi
  · simp
  · simp
  · intro j hj
    rw [List.getElem?_append]
    split_ifs with hlt
    · rfl
    · rw [List.getElem?_eq_none (by simp; omega), List.getElem?_eq_none (by omega)]

theorem addAttrSlot (hfull : l.attrs.length = impl.AttrSlotCount)
    (hlimit : impl.AttrSlotCount < ATTRCHILD_ARRAY_MAX_ATTR_COUNT)
    (hroom : (impl.AttrSlotCount + 1) * ATTRSIZE + impl.ChildCount ≤ impl.mBufferSize) :
    ∃ impl', impl.addAttrSlot = some impl' ∧ impl'.Holds l ∧
      impl'.AttrSlotCount = impl.AttrSlotCount + 1 := by
  have hlim : ATTRCHILD_ARRAY_MAX_ATTR_COUNT = 1023 := rfl
  have hsize := h.size
  have hcount := h.childCount
  unfold ATTRSIZE at hroom
  unfold Impl.addAttrSlot ATTRSIZE
  simp only [Option.bind_eq_bind]
  rw [Block.move_of_le (by omega) (by omega), Option.bind_some,
    Block.set_of_lt (by rw [Block.size_moved]; omega), Option.bind_some,
    Block.set_of_lt (by rw [Block.size_put, Block.size_moved]; omega), Option.bind_some]
  have hcounts := counts_SetAttrSlotCount (s := impl.AttrSlotCount + 1)
    (impl.setBuffer (((impl.mBuffer.moved ((impl.AttrSlotCount + 1) * 2)
      (impl.AttrSlotCount * 2) impl.ChildCount).put (impl.AttrSlotCount * 2) .null).put
        (impl.AttrSlotCount * 2 + 1) .null)) (by omega)
  refine ⟨_, rfl, ⟨h.mapped, hcounts.2.trans hcount, ?_, ?_, hsize, ?_⟩, hcounts.1⟩
  · rw [hcounts.1]
    exact Nat.le_succ_of_le h.slots
  · rw [hcounts.1]
    change _ ≤ impl.mBufferSize
    omega
  · rw [hcounts.1, mBuffer_SetAttrSlotCount, mBuffer_setBuffer]
    constructor
    · intro i e hget
      have hi : i < l.attrs.length := (List.getElem?_eq_some_iff.mp hget).1
      rw [Block.put_of_ne (by omega), Block.put_of_ne (by omega), Block.put_of_ne (by omega),
        Block.put_of_ne (by omega), Block.moved_outside (by omega), Block.moved_outside (by omega)]
      exact h.laid.attr i e hget
    · intro i hle hi
      have hlast : i = impl.AttrSlotCount := by omega
      rw [hlast, Block.put_of_ne (by omega), Block.put_self]
    · intro j c hget
      have hj : j < l.children.length := (List.getElem?_eq_some_iff.mp hget).1
      rw [Block.put_of_ne (by omega), Block.put_of_ne (by omega),
        Block.moved_inside (by omega) (by omega), Nat.add_sub_cancel_left]
      exact h.laid.child j c hget

theorem RemoveAttrAt {e : nsAttrName A × V} (hget : l.attrs[i]? = some e) :
    ∃ impl', impl.RemoveAttrAt i = some (e.2, impl') ∧
      impl'.Holds { l with attrs := l.attrs.eraseIdx i } ∧
      impl'.AttrSlotCount = impl.AttrSlotCount := by
  have hi : i < l.attrs.length := (List.getElem?_eq_some_iff.mp hget).1
  have hslots := h.slots
  have hroom := h.room
  have hsize := h.size
  unfold Impl.RemoveAttrAt ATTRSIZE
  simp only [Option.bind_eq_bind]
  rw [h.valueAt_eq hget, Option.bind_some, Block.move_of_le (by omega) (by omega), Option.bind_some,
    Block.set_of_lt (by rw [Block.size_moved]; omega), Option.bind_some,
    Block.set_of_lt (by rw [Block.size_put, Block.size_moved]; omega), Option.bind_some]
  have hlength : (l.attrs.eraseIdx i).length = l.attrs.length - 1 := List.length_eraseIdx_of_lt hi
  refine ⟨_, rfl, ⟨h.mapped, h.childCount, ?_, h.room, hsize, ?_⟩, rfl⟩
  · change (l.attrs.eraseIdx i).length ≤ impl.AttrSlotCount
    omega
  rw [mBuffer_setBuffer, attrSlotCount_setBuffer]
  constructor
  · intro j f hj
    have hjl : j < l.attrs.length - 1 := hlength ▸ (List.getElem?_eq_some_iff.mp hj).1
    rw [Block.put_of_ne (by omega), Block.put_of_ne (by omega), Block.put_of_ne (by omega),
      Block.put_of_ne (by omega)]
    rw [List.getElem?_eraseIdx] at hj
    split_ifs at hj with hlt
    · rw [Block.moved_outside (by omega), Block.moved_outside (by omega)]
      exact h.laid.attr j f hj
    · rw [Block.moved_inside (by omega) (by omega), Block.moved_inside (by omega) (by omega),
        show (i + 1) * 2 + (j * 2 - i * 2) = (j + 1) * 2 by omega,
        show (i + 1) * 2 + (j * 2 + 1 - i * 2) = (j + 1) * 2 + 1 by omega]
      exact h.laid.attr (j + 1) f hj
  · intro j hj hjs
    have hj' : l.attrs.length - 1 ≤ j := hlength ▸ hj
    rw [Block.put_of_ne (by omega)]
    by_cases hlast : j = impl.AttrSlotCount - 1
    · rw [hlast, Block.put_self]
    · rw [Block.put_of_ne (by omega), Block.moved_inside (by omega) (by omega),
        show (i + 1) * 2 + (j * 2 - i * 2) = (j + 1) * 2 by omega]
      exact h.laid.empty (j + 1) (by omega) (by omega)
  · intro j c hj
    rw [Block.put_of_ne (by omega), Block.put_of_ne (by omega), Block.moved_outside (by omega)]
    exact h.laid.child j c hj

/-! ### Children -/

/-- The children from `aPos` on make way for one more. -/
theorem insertChild (aChild : C) {aPos : ℕ} (hpos : aPos ≤ l.children.length)
    (hroom : impl.AttrSlotCount * 2 + impl.ChildCount < impl.mBufferSize)
    (hlimit : l.children.length + 1 < 2 ^ 22) :
    ∃ impl', impl.insertChild aChild aPos = some impl' ∧
      impl'.Holds { l with children := l.children.insertIdx aPos aChild } ∧
      impl'.AttrSlotCount = impl.AttrSlotCount := by
  have hsize := h.size
  have hcount := h.childCount
  have hslots := h.slots
  have hlength : (l.children.insertIdx aPos aChild).length = l.children.length + 1 :=
    List.length_insertIdx_of_le_length hpos _
  have hmove : impl.makeWay (impl.AttrSlotCount * 2 + aPos) impl.ChildCount aPos =
      some (impl.mBuffer.moved (impl.AttrSlotCount * 2 + aPos + 1) (impl.AttrSlotCount * 2 + aPos)
        (impl.ChildCount - aPos)) := by
    unfold makeWay
    split_ifs with hne
    · exact Block.move_of_le (by omega) (by omega)
    · have hzero : impl.ChildCount - aPos = 0 := by omega
      rw [hzero, Block.moved_zero]
  unfold Impl.insertChild ATTRSIZE
  simp only [Option.bind_eq_bind]
  rw [hmove, Option.bind_some, Block.set_of_lt (by rw [Block.size_moved]; omega), Option.bind_some]
  have hcounts := counts_SetChildCount (c := impl.ChildCount + 1)
    (impl.setBuffer ((impl.mBuffer.moved (impl.AttrSlotCount * 2 + aPos + 1)
      (impl.AttrSlotCount * 2 + aPos) (impl.ChildCount - aPos)).put
        (impl.AttrSlotCount * 2 + aPos) (.child aChild))) (by omega)
  rw [attrSlotCount_setBuffer] at hcounts
  refine ⟨_, rfl, ⟨h.mapped, ?_, ?_, ?_, hsize, ?_⟩, hcounts.1⟩
  · rw [hcounts.2, hlength, hcount]
  · rw [hcounts.1]
    exact hslots
  · rw [hcounts.1, hlength]
    change _ ≤ impl.mBufferSize
    omega
  · rw [hcounts.1, mBuffer_SetChildCount, mBuffer_setBuffer]
    constructor
    · intro i e hget
      have hi : i < l.attrs.length := (List.getElem?_eq_some_iff.mp hget).1
      rw [Block.put_of_ne (by omega), Block.put_of_ne (by omega), Block.moved_outside (by omega),
        Block.moved_outside (by omega)]
      exact h.laid.attr i e hget
    · intro i hle hi
      rw [Block.put_of_ne (by omega), Block.moved_outside (by omega)]
      exact h.laid.empty i hle hi
    · intro j c hget
      have hj : j < l.children.length + 1 := hlength ▸ (List.getElem?_eq_some_iff.mp hget).1
      rw [List.getElem?_insertIdx] at hget
      split_ifs at hget with hlt heq
      · rw [Block.put_of_ne (by omega), Block.moved_outside (by omega)]
        exact h.laid.child j c hget
      · cases hget
        rw [heq, Block.put_self]
      · rw [Block.put_of_ne (by omega), Block.moved_inside (by omega) (by omega),
          show impl.AttrSlotCount * 2 + aPos + (impl.AttrSlotCount * 2 + j -
            (impl.AttrSlotCount * 2 + aPos + 1)) = impl.AttrSlotCount * 2 + (j - 1) by omega]
        exact h.laid.child (j - 1) c hget

/-- The empty slots give way to one more child. -/
theorem insertChildInSlots (aChild : C) {aPos : ℕ} (hpos : aPos ≤ l.children.length)
    (hempty : l.attrs.length < impl.AttrSlotCount) (hlimit : l.children.length + 1 < 2 ^ 22) :
    ∃ impl', impl.insertChildInSlots aChild aPos = some impl' ∧
      impl'.Holds { l with children := l.children.insertIdx aPos aChild } ∧
      impl'.AttrSlotCount = l.attrs.length := by
  have hsize := h.size
  have hcount := h.childCount
  have hroom := h.room
  have hmax := impl.attrSlotCount_le
  have hlim : ATTRCHILD_ARRAY_MAX_ATTR_COUNT = 1023 := rfl
  have hlength : (l.children.insertIdx aPos aChild).length = l.children.length + 1 :=
    List.length_insertIdx_of_le_length hpos _
  unfold Impl.insertChildInSlots ATTRSIZE
  simp only [Option.bind_eq_bind]
  rw [h.nonMappedAttrCount_eq, Option.bind_some, Block.move_of_le (by omega) (by omega),
    Option.bind_some, Block.set_of_lt (by rw [Block.size_moved]; omega), Option.bind_some,
    Block.move_of_le (by rw [Block.size_put, Block.size_moved]; omega)
      (by rw [Block.size_put, Block.size_moved]; omega), Option.bind_some]
  have hcounts := counts_SetAttrSlotAndChildCount (s := l.attrs.length) (c := impl.ChildCount + 1)
    (impl.setBuffer (((impl.mBuffer.moved (l.attrs.length * 2) (impl.AttrSlotCount * 2)
      aPos).put (l.attrs.length * 2 + aPos) (.child aChild)).moved (l.attrs.length * 2 + aPos + 1)
        (impl.AttrSlotCount * 2 + aPos) (impl.ChildCount - aPos))) (by omega) (by omega)
  refine ⟨_, rfl, ⟨h.mapped, ?_, ?_, ?_, hsize, ?_⟩, hcounts.1⟩
  · rw [hcounts.2, hlength, hcount]
  · rw [hcounts.1]
  · rw [hcounts.1, hlength]
    change _ ≤ impl.mBufferSize
    omega
  · rw [hcounts.1, mBuffer_SetAttrSlotAndChildCount, mBuffer_setBuffer]
    constructor
    · intro i e hget
      have hi : i < l.attrs.length := (List.getElem?_eq_some_iff.mp hget).1
      rw [Block.moved_outside (by omega), Block.moved_outside (by omega),
        Block.put_of_ne (by omega), Block.put_of_ne (by omega), Block.moved_outside (by omega),
        Block.moved_outside (by omega)]
      exact h.laid.attr i e hget
    · intro i hle hi
      exact absurd hle (Nat.not_le_of_lt hi)
    · intro j c hget
      have hj : j < l.children.length + 1 := hlength ▸ (List.getElem?_eq_some_iff.mp hget).1
      rw [List.getElem?_insertIdx] at hget
      split_ifs at hget with hlt heq
      · rw [Block.moved_outside (by omega), Block.put_of_ne (by omega),
          Block.moved_inside (by omega) (by omega), Nat.add_sub_cancel_left]
        exact h.laid.child j c hget
      · cases hget
        rw [heq, Block.moved_outside (by omega), Block.put_self]
      · rw [Block.moved_inside (by omega) (by omega), Block.put_of_ne (by omega),
          Block.moved_outside (by omega),
          show impl.AttrSlotCount * 2 + aPos + (l.attrs.length * 2 + j -
            (l.attrs.length * 2 + aPos + 1)) = impl.AttrSlotCount * 2 + (j - 1) by omega]
        exact h.laid.child (j - 1) c hget

theorem RemoveChildAt {aPos : ℕ} (hpos : aPos < l.children.length) :
    ∃ impl', impl.RemoveChildAt aPos = some impl' ∧
      impl'.Holds { l with children := l.children.eraseIdx aPos } ∧
      impl'.AttrSlotCount = impl.AttrSlotCount := by
  have hsize := h.size
  have hcount := h.childCount
  have hslots := h.slots
  have hroom := h.room
  have hlt := h.children_lt
  have hlength : (l.children.eraseIdx aPos).length = l.children.length - 1 :=
    List.length_eraseIdx_of_lt hpos
  unfold Impl.RemoveChildAt ATTRSIZE
  simp only [Option.bind_eq_bind]
  rw [h.childAt_eq (List.getElem?_eq_getElem hpos), Option.bind_some,
    Block.move_of_le (by omega) (by omega), Option.bind_some]
  have hcounts := counts_SetChildCount (c := impl.ChildCount - 1)
    (impl.setBuffer (impl.mBuffer.moved (impl.AttrSlotCount * 2 + aPos)
      (impl.AttrSlotCount * 2 + aPos + 1) (impl.ChildCount - aPos - 1))) (by omega)
  rw [attrSlotCount_setBuffer] at hcounts
  refine ⟨_, rfl, ⟨h.mapped, ?_, ?_, ?_, hsize, ?_⟩, hcounts.1⟩
  · rw [hcounts.2, hlength, hcount]
  · rw [hcounts.1]
    exact hslots
  · rw [hcounts.1, hlength]
    change _ ≤ impl.mBufferSize
    omega
  · rw [hcounts.1, mBuffer_SetChildCount, mBuffer_setBuffer]
    constructor
    · intro i e hget
      have hi : i < l.attrs.length := (List.getElem?_eq_some_iff.mp hget).1
      rw [Block.moved_outside (by omega), Block.moved_outside (by omega)]
      exact h.laid.attr i e hget
    · intro i hle hi
      rw [Block.moved_outside (by omega)]
      exact h.laid.empty i hle hi
    · intro j c hget
      have hj : j < l.children.length - 1 := hlength ▸ (List.getElem?_eq_some_iff.mp hget).1
      rw [List.getElem?_eraseIdx] at hget
      split_ifs at hget with hlt
      · rw [Block.moved_outside (by omega)]
        exact h.laid.child j c hget
      · rw [Block.moved_inside (by omega) (by omega),
          show impl.AttrSlotCount * 2 + aPos + 1 + (impl.AttrSlotCount * 2 + j -
            (impl.AttrSlotCount * 2 + aPos)) = impl.AttrSlotCount * 2 + (j + 1) by omega]
        exact h.laid.child (j + 1) c hget

/-- The empty slots are gone. -/
theorem compressSlots :
    ∃ impl', impl.compressSlots = some impl' ∧ impl'.Holds l ∧
      impl'.AttrSlotCount = l.attrs.length ∧ impl'.mBufferSize = impl.mBufferSize := by
  have hsize := h.size
  have hcount := h.childCount
  have hslots := h.slots
  have hroom := h.room
  have hmax := impl.attrSlotCount_le
  have hlim : ATTRCHILD_ARRAY_MAX_ATTR_COUNT = 1023 := rfl
  unfold Impl.compressSlots ATTRSIZE
  simp only [Option.bind_eq_bind]
  rw [h.nonMappedAttrCount_eq, Option.bind_some]
  split_ifs with hlt
  · rw [Block.move_of_le (by omega) (by omega), Option.bind_some]
    have hcounts := counts_SetAttrSlotCount (s := l.attrs.length)
      (impl.setBuffer (impl.mBuffer.moved (l.attrs.length * 2) (impl.AttrSlotCount * 2)
        impl.ChildCount)) (by omega)
    refine ⟨_, rfl, ⟨h.mapped, hcounts.2.trans hcount, ?_, ?_, hsize, ?_⟩, hcounts.1, rfl⟩
    · rw [hcounts.1]
    · rw [hcounts.1]
      change _ ≤ impl.mBufferSize
      omega
    · rw [hcounts.1, mBuffer_SetAttrSlotCount, mBuffer_setBuffer]
      constructor
      · intro i e hget
        have hi : i < l.attrs.length := (List.getElem?_eq_some_iff.mp hget).1
        rw [Block.moved_outside (by omega), Block.moved_outside (by omega)]
        exact h.laid.attr i e hget
      · intro i hle hi
        exact absurd hle (Nat.not_le_of_lt hi)
      · intro j c hget
        have hj : j < l.children.length := (List.getElem?_eq_some_iff.mp hget).1
        rw [Block.moved_inside (by omega) (by omega), Nat.add_sub_cancel_left]
        exact h.laid.child j c hget
  · exact ⟨impl, rfl, h, Nat.le_antisymm (Nat.le_of_not_lt hlt) hslots, rfl⟩

end Impl.Holds

/-! ### Growing -/

theorem le_linearSize (minSize : ℕ) : ∀ k size, minSize ≤ k + size →
    minSize ≤ linearSize minSize k size
  | 0, size, h => by simpa [linearSize] using h
  | k + 1, size, h => by
    unfold linearSize
    split_ifs with hlt
    · have hgrow : ATTRCHILD_ARRAY_GROWSIZE = 8 := rfl
      exact le_linearSize minSize k _ (by omega)
    · exact Nat.le_of_not_lt hlt

theorem le_grownSize (size minSize : ℕ) : minSize ≤ grownSize size minSize := by
  unfold grownSize
  split_ifs
  · exact le_linearSize minSize minSize _ (by omega)
  · exact Nat.le_pow_clog (by decide) minSize

end Kompozer.Dom.AttrAndChild

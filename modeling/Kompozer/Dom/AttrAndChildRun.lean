import Kompozer.Dom.AttrAndChildIndex

/-! Runs of an array of attributes and children, beside the same operations on two lists. -/

namespace Kompozer.Dom.AttrAndChild

open NsResult

/-- What is asked of an array. An allocation is granted where `memory` is true, and the cache of
indices holds what it may when the index of a child is asked for. -/
inductive Op (A V C : Type)
  | InsertChildAt (aChild : C) (aPos : ℕ) (memory : Bool)
  | RemoveChildAt (aPos : ℕ)
  | SetAttr (aLocalName : A) (aValue : V) (memory : Bool)
  | SetAndTakeAttr (aLocalName : A) (aValue : V) (memory : Bool)
  | SetAndTakeNodeInfo (aName : nsINodeInfo A) (aValue : V) (memory : Bool)
  | RemoveAttrAt (aPos : ℕ)
  | Compact (memory : Bool)
  | IndexOfChild (aPossibleChild : C) (cache : IndexCache)

/-- What comes back. -/
structure Outcome (V : Type) where
  rv : NsResult := ok
  aValue : Option V := none
  index : Option ℤ := none

variable {A V C : Type} [DecidableEq A] [DecidableEq C]

namespace nsAttrAndChildArray

def step (b : Build) (this : Address) (a : nsAttrAndChildArray A V C) :
    Op A V C → Option (Outcome V × nsAttrAndChildArray A V C)
  | .InsertChildAt aChild aPos memory =>
    (a.InsertChildAt b memory aChild aPos).map fun r => ({ rv := r.1 }, r.2)
  | .RemoveChildAt aPos => (a.RemoveChildAt aPos).map ({}, ·)
  | .SetAttr aLocalName aValue memory =>
    (a.SetAttr b memory aLocalName aValue).map fun r => ({ rv := r.1 }, r.2)
  | .SetAndTakeAttr aLocalName aValue memory =>
    (a.SetAndTakeAttr b memory aLocalName aValue).map fun r => ({ rv := r.1 }, r.2)
  | .SetAndTakeNodeInfo aName aValue memory =>
    (a.SetAndTakeNodeInfo b memory aName aValue).map fun r => ({ rv := r.1 }, r.2)
  | .RemoveAttrAt aPos => (a.RemoveAttrAt aPos).map fun r => ({ aValue := r.1 }, r.2)
  | .Compact memory => (a.Compact memory).map ({}, ·)
  | .IndexOfChild aPossibleChild cache =>
    (a.IndexOfChild this cache aPossibleChild).map fun r => ({ index := r.1 }, a)

/-- The array of an element that has some mapped attributes, or none, and nothing else. -/
def withMapped (b : Build) : Option (List (nsAttrName A × V)) → nsAttrAndChildArray A V C
  | none => {}
  | some mapped => ⟨(GrowBy b true {} 1).map ({ · with mMappedAttrs := some mapped })⟩

/-- The assertions about positions. -/
def Asserted (a : nsAttrAndChildArray A V C) : Op A V C → Prop
  | .InsertChildAt _ aPos _ => aPos ≤ a.ChildCount
  | .RemoveChildAt aPos => aPos < a.ChildCount
  | .RemoveAttrAt aPos =>
    a.MappedAttrCount ≤ aPos ∧ ∃ attrCount, a.AttrCount = some attrCount ∧ aPos < attrCount
  | _ => True

/-- No child is put beyond the 22 bits of its count, no new attribute is set by `SetAttr` while an
empty slot is the last of the most that there can be, and no smaller buffer is refused. -/
def Careful (b : Build) (a : nsAttrAndChildArray A V C) : Op A V C → Prop
  | .InsertChildAt _ _ _ =>
    a.ChildCount + 1 < 2 ^ 22 ∨ b.ATTRCHILD_ARRAY_MAX_CHILD_COUNT ≤ a.ChildCount
  | .SetAttr aLocalName _ _ =>
    a.AttrSlotCount = ATTRCHILD_ARRAY_MAX_ATTR_COUNT → a.lastSlotEmpty = some true →
      ∃ i, a.findAttr (·.EqualsAtom aLocalName) = some (i, true)
  | .Compact memory => memory = true ∨ ∀ impl, a.mImpl = some impl → ¬impl.Shrinks
  | _ => True

end nsAttrAndChildArray

/-! ### Two lists -/

namespace Lists

variable (l : Lists A V C)

/-- The operation on the lists. -/
def apply : Op A V C → Lists A V C
  | .InsertChildAt aChild aPos _ => { l with children := l.children.insertIdx aPos aChild }
  | .RemoveChildAt aPos => { l with children := l.children.eraseIdx aPos }
  | .SetAttr aLocalName aValue _ => { l with attrs := setPair l.attrs (.atom aLocalName) aValue }
  | .SetAndTakeAttr aLocalName aValue _ =>
    { l with attrs := setPair l.attrs (.atom aLocalName) aValue }
  | .SetAndTakeNodeInfo aName aValue _ =>
    { l with attrs := setPair l.attrs (.ofNodeInfo aName) aValue }
  | .RemoveAttrAt aPos => { l with attrs := l.attrs.eraseIdx (aPos - (l.mapped.getD []).length) }
  | .Compact _ => l
  | .IndexOfChild _ _ => l

/-- A failure leaves the lists as they are. -/
def after (op : Op A V C) (o : Outcome V) : Lists A V C := if o.rv = ok then l.apply op else l

/-- A new name, and as many as there can be. -/
def FullFor (key : A × ℤ) : Prop :=
  l.attrs.findIdx? (·.1.key = key) = none ∧ ATTRCHILD_ARRAY_MAX_ATTR_COUNT ≤ l.attrs.length

/-- The documented limits. -/
def AtLimit (b : Build) : Op A V C → Prop
  | .InsertChildAt _ _ _ => b.ATTRCHILD_ARRAY_MAX_CHILD_COUNT ≤ l.children.length
  | .SetAttr aLocalName _ _ => l.FullFor (aLocalName, kNameSpaceID_None)
  | .SetAndTakeAttr aLocalName _ _ => l.FullFor (aLocalName, kNameSpaceID_None)
  | .SetAndTakeNodeInfo aName _ _ => l.FullFor (aName.mName, aName.mNamespaceID)
  | _ => False

end Lists

/-- Whether an operation is granted the memory it may ask for. -/
def Op.memory : Op A V C → Bool
  | .InsertChildAt _ _ memory => memory
  | .SetAttr _ _ memory => memory
  | .SetAndTakeAttr _ _ memory => memory
  | .SetAndTakeNodeInfo _ _ memory => memory
  | .Compact memory => memory
  | _ => true

/-- An operation succeeds, unless a limit is reached or it is refused memory. -/
def Answered (b : Build) (l : Lists A V C) (op : Op A V C) (rv : NsResult) : Prop :=
  (rv = ok ∧ ¬l.AtLimit b op) ∨ (rv = NS_ERROR_FAILURE ∧ l.AtLimit b op) ∨
    (rv = NS_ERROR_OUT_OF_MEMORY ∧ op.memory = false)

/-- What comes back is what the lists say. -/
structure Agrees (b : Build) (l : Lists A V C) (op : Op A V C) (o : Outcome V) : Prop where
  rv : Answered b l op o.rv
  aValue : ∀ aPos, op = .RemoveAttrAt aPos →
    o.aValue = l.attrs[aPos - (l.mapped.getD []).length]?.map Prod.snd
  index : ∀ c cache, op = .IndexOfChild c cache →
    ∃ index, o.index = some index ∧ IsIndexOf l.children c index

/-- The array shows the two lists, and no name in the one is there twice. -/
structure Shows (a : nsAttrAndChildArray A V C) (l : Lists A V C) : Prop where
  childCount : a.ChildCount = l.children.length
  child : ∀ i, a.GetSafeChildAt i = some l.children[i]?
  attrCount : a.AttrCount = some (l.attrs.length + (l.mapped.getD []).length)
  name : ∀ i, a.GetSafeAttrNameAt ((l.mapped.getD []).length + i) = some (l.attrs[i]?.map Prod.fst)
  value : ∀ i < l.attrs.length,
    a.AttrAt ((l.mapped.getD []).length + i) = l.attrs[i]?.map Prod.snd
  indexOf : ∀ a' ns, a.IndexOfAttr a' ns =
    some (((l.mapped.getD [] ++ l.attrs).findIdx? (·.1.key = (a', ns))).elim (-1) (↑))
  distinct : (l.attrs.map (·.1.key)).Nodup

/-! ### What an array shows -/

namespace nsAttrAndChildArray.Kept

variable {a : nsAttrAndChildArray A V C} {l : Lists A V C} (h : a.Kept l)
include h

omit [DecidableEq A] [DecidableEq C] in
theorem getSafeChildAt (i : ℕ) : a.GetSafeChildAt i = some l.children[i]? := by
  unfold GetSafeChildAt
  rw [h.childCount]
  split_ifs with hi
  · obtain ⟨impl, himpl, hholds⟩ := h.exists_impl (.inr (Nat.zero_lt_of_lt hi))
    have hget := List.getElem?_eq_getElem hi
    unfold ChildAt
    rw [himpl, hget]
    simp [hholds.childAt_eq hget]
  · rw [List.getElem?_eq_none (Nat.le_of_not_lt hi)]

omit [DecidableEq A] [DecidableEq C] in
theorem nonMappedAttrCount : a.NonMappedAttrCount = some l.attrs.length := by
  unfold Kept at h
  unfold NonMappedAttrCount
  cases himpl : a.mImpl with
  | none =>
    rw [himpl] at h
    cases h
    rfl
  | some impl =>
    rw [himpl] at h
    exact h.nonMappedAttrCount_eq

omit [DecidableEq A] [DecidableEq C] in
theorem attrCount : a.AttrCount = some (l.attrs.length + (l.mapped.getD []).length) := by
  unfold AttrCount
  rw [h.nonMappedAttrCount, h.mappedAttrCount]
  rfl

omit [DecidableEq A] [DecidableEq C] in
theorem getSafeAttrNameAt (i : ℕ) :
    a.GetSafeAttrNameAt ((l.mapped.getD []).length + i) = some (l.attrs[i]?.map Prod.fst) := by
  unfold GetSafeAttrNameAt
  rw [h.mappedAttrCount, if_neg (by omega), Nat.add_sub_cancel_left]
  dsimp only
  split_ifs with hi
  · obtain ⟨impl, himpl, hholds⟩ := h.exists_of_slots (Nat.zero_lt_of_lt hi)
    rw [a.attrSlotCount_some himpl] at hi
    rw [himpl, Option.bind_eq_bind, Option.bind_some, hholds.isNull_eq hi]
    by_cases hle : l.attrs.length ≤ i
    · rw [List.getElem?_eq_none hle]
      simp [hle]
    · have hget := List.getElem?_eq_getElem (Nat.lt_of_not_le hle)
      rw [hget]
      simp [hle, hholds.nameAt_eq hget]
  · have hslots := h.slots
    rw [List.getElem?_eq_none (by omega)]
    rfl

omit [DecidableEq A] [DecidableEq C] in
theorem attrAt {i : ℕ} (hi : i < l.attrs.length) :
    a.AttrAt ((l.mapped.getD []).length + i) = l.attrs[i]?.map Prod.snd := by
  obtain ⟨impl, himpl, hholds⟩ := h.exists_impl (.inl (Nat.zero_lt_of_lt hi))
  have hget := List.getElem?_eq_getElem hi
  unfold AttrAt
  rw [himpl, Option.bind_eq_bind, Option.bind_some, h.mappedAttrCount, if_neg (by omega),
    Nat.add_sub_cancel_left, hholds.valueAt_eq hget, hget]
  rfl

omit [DecidableEq C] in
theorem indexOfAttr (aLocalName : A) (aNamespaceID : ℤ) :
    a.IndexOfAttr aLocalName aNamespaceID =
      some (((l.mapped.getD [] ++ l.attrs).findIdx? (·.1.key = (aLocalName, aNamespaceID))).elim (-1)
        (↑)) := by
  have hmapped : a.indexOfMapped aLocalName aNamespaceID =
      (l.mapped.getD []).findIdx? (·.1.key = (aLocalName, aNamespaceID)) := by
    have hpred : (fun e : nsAttrName A × V => e.1.Equals aLocalName aNamespaceID) =
        fun e => decide (e.1.key = (aLocalName, aNamespaceID)) := by
      funext e
      exact Bool.eq_iff_iff.mpr (nsAttrName.equals_iff.trans decide_eq_true_iff.symm)
    unfold indexOfMapped
    rw [hpred]
    unfold Kept at h
    cases himpl : a.mImpl with
    | none =>
      rw [himpl] at h
      cases h
      rfl
    | some impl =>
      rw [himpl] at h
      dsimp only [Option.elim]
      rw [h.mapped]
  unfold IndexOfAttr
  rw [hmapped, h.findAttr_key fun n => nsAttrName.equals_iff, h.mappedAttrCount, List.findIdx?_append]
  cases (l.mapped.getD []).findIdx? (·.1.key = (aLocalName, aNamespaceID)) with
  | some i => rfl
  | none =>
    cases l.attrs.findIdx? (·.1.key = (aLocalName, aNamespaceID)) with
    | none => rfl
    | some i => simp

omit [DecidableEq C] in
theorem shows (hnodup : (l.attrs.map (·.1.key)).Nodup) : Shows a l where
  childCount := h.childCount
  child := h.getSafeChildAt
  attrCount := h.attrCount
  name := h.getSafeAttrNameAt
  value _ hi := h.attrAt hi
  indexOf := h.indexOfAttr
  distinct := hnodup

end nsAttrAndChildArray.Kept

/-! ### One step -/

omit [DecidableEq C] in
/-- A name that is set is in the list once. -/
theorem nodup_setPair {attrs : List (nsAttrName A × V)} (h : (attrs.map (·.1.key)).Nodup)
    (name : nsAttrName A) (value : V) : ((setPair attrs name value).map (·.1.key)).Nodup := by
  unfold setPair
  cases hfind : attrs.findIdx? (·.1.key = name.key) with
  | some i =>
    obtain ⟨hi, hkey, -⟩ := List.findIdx?_eq_some_iff_getElem.mp hfind
    have hsame : (attrs.set i (name, value)).map (·.1.key) = attrs.map (·.1.key) := by
      rw [List.map_set, ← of_decide_eq_true hkey]
      have hself := @List.set_getElem_self _ (attrs.map (·.1.key)) i (by simpa using hi)
      rwa [List.getElem_map] at hself
    dsimp only
    rwa [hsame]
  | none =>
    dsimp only
    rw [List.map_append, List.nodup_append]
    refine ⟨h, List.pairwise_singleton _ _, ?_⟩
    rintro k hk k' hk' rfl
    obtain ⟨e, he, rfl⟩ := List.mem_map.mp hk
    have hne := List.findIdx?_eq_none_iff.mp hfind e he
    simp only [List.map_cons, List.map_nil, List.mem_singleton] at hk'
    simp [hk'] at hne

namespace nsAttrAndChildArray

variable {b : Build} {this : Address} {a : nsAttrAndChildArray A V C} {l : Lists A V C}

omit [DecidableEq A] [DecidableEq C] in
theorem Done.answered {l' : Lists A V C} {memory : Bool} {limit : Prop}
    {r : NsResult × nsAttrAndChildArray A V C} (h : Done a l l' memory limit r) :
    ((r.1 = ok ∧ ¬limit) ∨ (r.1 = NS_ERROR_FAILURE ∧ limit) ∨
      (r.1 = NS_ERROR_OUT_OF_MEMORY ∧ memory = false)) ∧ r.2.Kept (if r.1 = ok then l' else l) := by
  rcases h with ⟨hr, hkept, hlimit⟩ | ⟨hr, -, hkept, hlimit⟩ | ⟨hr, -, hkept, hmemory⟩
  · exact ⟨.inl ⟨hr, hlimit⟩, by rwa [if_pos hr]⟩
  · exact ⟨.inr (.inl ⟨hr, hlimit⟩), by rwa [if_neg (by rw [hr]; decide)]⟩
  · exact ⟨.inr (.inr ⟨hr, hmemory⟩), by rwa [if_neg (by rw [hr]; decide)]⟩

omit [DecidableEq A] [DecidableEq C] in
theorem attrSlotCount_le (a : nsAttrAndChildArray A V C) :
    a.AttrSlotCount ≤ ATTRCHILD_ARRAY_MAX_ATTR_COUNT := by
  unfold AttrSlotCount
  cases a.mImpl with
  | none => exact Nat.zero_le _
  | some impl => exact impl.attrSlotCount_le

/-- What a step gives that is asserted and careful. -/
def StepDone (b : Build) (this : Address) (a : nsAttrAndChildArray A V C) (l : Lists A V C)
    (op : Op A V C) : Prop :=
  ∃ o a', step b this a op = some (o, a') ∧ Agrees b l op o ∧ a'.Kept (l.after op o)

namespace Kept

/-- A setter that looks for the key of its name. -/
theorem setter (h : a.Kept l) {op : Op A V C} (equals : nsAttrName A → Bool) (rename : Bool)
    (count : ℕ → ℕ → ℕ) (aName : nsAttrName A) (aValue : V) (memory : Bool)
    (hstep : step b this a op =
      (a.setSlot b memory equals rename count aName aValue).map fun r => ({ rv := r.1 }, r.2))
    (happly : l.apply op = { l with attrs := setPair l.attrs aName aValue })
    (hlimit : l.AtLimit b op ↔ l.FullFor aName.key) (hmemory : op.memory = memory)
    (hother : ∀ aPos, op ≠ .RemoveAttrAt aPos) (hother' : ∀ c cache, op ≠ .IndexOfChild c cache)
    (hequals : ∀ n, equals n = true ↔ n.key = aName.key)
    (hrename : rename = true ∨ ∀ n, equals n = true → n = aName)
    (hcount : l.attrs.length ≤ count a.AttrSlotCount l.attrs.length)
    (hcareful : l.attrs.findIdx? (·.1.key = aName.key) = none →
      ATTRCHILD_ARRAY_MAX_ATTR_COUNT ≤ count a.AttrSlotCount l.attrs.length →
      ATTRCHILD_ARRAY_MAX_ATTR_COUNT ≤ l.attrs.length) : StepDone b this a l op := by
  obtain ⟨r, hr, hdone⟩ := h.setSlot (b := b) memory aValue hequals hrename hcount hcareful
  obtain ⟨hanswer, hkept⟩ := hdone.answered
  refine ⟨{ rv := r.1 }, r.2, ?_, ⟨?_, fun aPos hop => (hother aPos hop).elim,
    fun c cache hop => (hother' c cache hop).elim⟩, ?_⟩
  · rw [hstep, hr]
    rfl
  · unfold Answered
    rw [hlimit, hmemory]
    exact hanswer
  · unfold Lists.after
    rw [happly]
    exact hkept

theorem stepDone (h : a.Kept l) (b : Build) (this : Address) (op : Op A V C) (hasserted : Asserted a op)
    (hcareful : Careful b a op) : StepDone b this a l op := by
  cases op with
  | InsertChildAt c pos memory =>
    unfold Asserted at hasserted
    unfold Careful at hcareful
    rw [h.childCount] at hasserted hcareful
    obtain ⟨r, hr, hdone⟩ := h.insertChildAt (b := b) memory c hasserted hcareful
    obtain ⟨hanswer, hkept⟩ := hdone.answered
    refine ⟨{ rv := r.1 }, r.2, ?_, ⟨hanswer, fun aPos hop => ?_, fun c cache hop => ?_⟩, hkept⟩
    · simp [step, hr]
    · cases hop
    · cases hop
  | RemoveChildAt pos =>
    unfold Asserted at hasserted
    rw [h.childCount] at hasserted
    obtain ⟨a', hsome, hkept⟩ := h.removeChildAt hasserted
    refine ⟨{}, a', ?_, ⟨.inl ⟨rfl, id⟩, fun aPos hop => ?_, fun c cache hop => ?_⟩, hkept⟩
    · simp [step, hsome]
    · cases hop
    · cases hop
  | SetAttr name value memory =>
    refine h.setter (·.EqualsAtom name) false _ (.atom name) value memory rfl rfl Iff.rfl rfl
      (fun _ => nofun) (fun _ _ => nofun) (fun n => nsAttrName.equalsAtom_iff)
      (.inr fun n hn => nsAttrName.eq_of_equalsAtom hn) h.slots ?_
    intro hnone hmax
    by_contra hle
    have hfull : a.AttrSlotCount = ATTRCHILD_ARRAY_MAX_ATTR_COUNT :=
      Nat.le_antisymm a.attrSlotCount_le hmax
    have hempty : a.lastSlotEmpty = some true := by
      rw [h.lastSlotEmpty, decide_eq_true (by omega)]
    obtain ⟨i, hi⟩ := hcareful hfull hempty
    rw [h.findAttr_key fun n => nsAttrName.equalsAtom_iff, ← nsAttrName.key_atom, hnone] at hi
    cases hi
  | SetAndTakeAttr name value memory =>
    exact h.setter (·.EqualsAtom name) false _ (.atom name) value memory rfl rfl Iff.rfl rfl
      (fun _ => nofun) (fun _ _ => nofun) (fun n => nsAttrName.equalsAtom_iff)
      (.inr fun n hn => nsAttrName.eq_of_equalsAtom hn) (Nat.le_refl _) fun _ hmax => hmax
  | SetAndTakeNodeInfo name value memory =>
    by_cases hnone : name.mNamespaceID = kNameSpaceID_None
    · have hname : nsAttrName.ofNodeInfo name = .atom name.mName := dif_pos hnone
      refine h.setter (·.EqualsAtom name.mName) false (fun _ i => i) (.atom name.mName) value memory
        ?_ ?_ ?_ rfl
        (fun _ => nofun) (fun _ _ => nofun) (fun n => nsAttrName.equalsAtom_iff)
        (.inr fun n hn => nsAttrName.eq_of_equalsAtom hn) (Nat.le_refl _) fun _ hmax => hmax
      · unfold step SetAndTakeNodeInfo SetAndTakeAttr
        dsimp only
        rw [if_pos hnone]
      · change ({ l with attrs := setPair l.attrs (.ofNodeInfo name) value } : Lists A V C) = _
        rw [hname]
      · change l.FullFor (name.mName, name.mNamespaceID) ↔ _
        rw [hnone]
        rfl
    · refine h.setter (·.Equals name.mName name.mNamespaceID) true (fun _ i => i)
        (.ofNodeInfo name) value memory ?_ rfl ?_ rfl (fun _ => nofun) (fun _ _ => nofun) (fun n => ?_) (.inl rfl) (Nat.le_refl _)
        fun _ hmax => hmax
      · unfold step SetAndTakeNodeInfo
        dsimp only
        rw [if_neg hnone]
      · rw [nsAttrName.key_ofNodeInfo]
        exact Iff.rfl
      · rw [nsAttrName.key_ofNodeInfo]
        exact nsAttrName.equals_iff
  | RemoveAttrAt pos =>
    obtain ⟨hmapped, attrCount, hattrCount, hpos⟩ := hasserted
    rw [h.attrCount] at hattrCount
    cases hattrCount
    rw [h.mappedAttrCount] at hmapped
    have hi : pos - (l.mapped.getD []).length < l.attrs.length := by omega
    obtain ⟨e, hget⟩ : ∃ e, l.attrs[pos - (l.mapped.getD []).length]? = some e :=
      ⟨_, List.getElem?_eq_getElem hi⟩
    obtain ⟨a', hsome, hkept, -⟩ := h.removeAttrAt hget
    refine ⟨{ aValue := some e.2 }, a', ?_,
      ⟨.inl ⟨rfl, id⟩, fun aPos hop => ?_, fun c cache hop => ?_⟩, hkept⟩
    · simp [step, hsome]
    · cases hop
      rw [hget]
      rfl
    · cases hop
  | Compact memory =>
    obtain ⟨a', hsome, hkept⟩ := h.compact hcareful
    refine ⟨{}, a', ?_, ⟨.inl ⟨rfl, id⟩, fun aPos hop => ?_, fun c cache hop => ?_⟩, ?_⟩
    · simp [step, hsome]
    · cases hop
    · cases hop
    · unfold Lists.after
      rw [if_pos rfl]
      exact hkept
  | IndexOfChild c cache =>
    obtain ⟨r, hr, hindex⟩ := h.indexOfChild this cache c
    refine ⟨{ index := some r.1 }, a, ?_, ⟨.inl ⟨rfl, id⟩, fun aPos hop => ?_,
      fun c cache hop => ?_⟩, ?_⟩
    · simp [step, hr]
    · cases hop
    · cases hop
      exact ⟨r.1, rfl, hindex⟩
    · unfold Lists.after
      rw [if_pos rfl]
      exact h

end Kept

end nsAttrAndChildArray

/-! ### Runs -/

omit [DecidableEq C] in
theorem Lists.nodup_apply {l : Lists A V C} (h : (l.attrs.map (·.1.key)).Nodup) (op : Op A V C) :
    ((l.apply op).attrs.map (·.1.key)).Nodup := by
  cases op with
  | InsertChildAt | RemoveChildAt | Compact | IndexOfChild => exact h
  | SetAttr | SetAndTakeAttr | SetAndTakeNodeInfo => exact nodup_setPair h _ _
  | RemoveAttrAt pos => exact h.sublist ((List.eraseIdx_sublist _ _).map _)

omit [DecidableEq C] in
theorem Lists.nodup_after {l : Lists A V C} (h : (l.attrs.map (·.1.key)).Nodup) (op : Op A V C)
    (o : Outcome V) : ((l.after op o).attrs.map (·.1.key)).Nodup := by
  unfold after
  split_ifs
  · exact nodup_apply h op
  · exact h

namespace nsAttrAndChildArray

variable (b : Build) (this : Address)

/-- All along a run no step is undefined, and the array shows the lists. -/
def Follows : nsAttrAndChildArray A V C → Lists A V C → List (Op A V C) → Prop
  | a, l, [] => Shows a l
  | a, l, op :: ops => Shows a l ∧
    ∃ o a', step b this a op = some (o, a') ∧ Agrees b l op o ∧ Follows a' (l.after op o) ops

/-- Every step of a run is asserted. -/
def AssertedRun : nsAttrAndChildArray A V C → List (Op A V C) → Prop
  | _, [] => True
  | a, op :: ops => Asserted a op ∧ ∀ o a', step b this a op = some (o, a') → AssertedRun a' ops

/-- Every step of a run is careful. -/
def CarefulRun : nsAttrAndChildArray A V C → List (Op A V C) → Prop
  | _, [] => True
  | a, op :: ops => Careful b a op ∧ ∀ o a', step b this a op = some (o, a') → CarefulRun a' ops

variable {b this}

theorem Kept.follows : ∀ (ops : List (Op A V C)) {a : nsAttrAndChildArray A V C} {l : Lists A V C},
    a.Kept l → (l.attrs.map (·.1.key)).Nodup → AssertedRun b this a ops → CarefulRun b this a ops →
    Follows b this a l ops
  | [], _, _, h, hnodup, _, _ => h.shows hnodup
  | op :: ops, _, _, h, hnodup, hasserted, hcareful => by
    obtain ⟨o, a', hstep, hagrees, hkept⟩ := h.stepDone _ _ op hasserted.1 hcareful.1
    exact ⟨h.shows hnodup, o, a', hstep, hagrees, hkept.follows ops (Lists.nodup_after hnodup op o)
      (hasserted.2 o a' hstep) (hcareful.2 o a' hstep)⟩

omit [DecidableEq A] [DecidableEq C] in
theorem kept_withMapped (mapped : Option (List (nsAttrName A × V))) :
    (withMapped b mapped : nsAttrAndChildArray A V C).Kept { mapped } := by
  cases mapped with
  | none => rfl
  | some mapped =>
    have hempty : ({} : nsAttrAndChildArray A V C).Kept {} := rfl
    obtain ⟨impl, hsome, hholds, -⟩ := hempty.growBy (b := b) (n := 1) (.inl rfl)
    unfold withMapped
    rw [hsome]
    exact ⟨rfl, hholds.childCount, hholds.slots, hholds.room, hholds.size, hholds.laid⟩

/-- In a run that is careful at every step, the array is the two lists. -/
theorem follows_of_carefulRun (b : Build) (this : Address)
    (mapped : Option (List (nsAttrName A × V))) (ops : List (Op A V C))
    (hasserted : AssertedRun b this (withMapped b mapped) ops)
    (hcareful : CarefulRun b this (withMapped b mapped) ops) :
    Follows b this (withMapped b mapped) { mapped } ops :=
  (kept_withMapped mapped).follows ops List.nodup_nil hasserted hcareful

/-- A child, an attribute, and the index of the child. -/
theorem follows_of_insertChildAt :
    Follows .bits32 1 (withMapped .bits32 none : nsAttrAndChildArray ℕ ℕ ℕ) { mapped := none }
      [.InsertChildAt 5 0 true, .SetAndTakeAttr 7 70 true, .Compact true,
        .IndexOfChild 5 fun _ => {}] := by
  apply follows_of_carefulRun
  · exact ⟨Nat.zero_le _, fun _ _ _ => ⟨trivial, fun _ _ _ => ⟨trivial, fun _ _ _ =>
      ⟨trivial, fun _ _ _ => trivial⟩⟩⟩⟩
  · exact ⟨.inl (by decide), fun _ _ _ => ⟨trivial, fun _ _ _ => ⟨.inl rfl, fun _ _ _ =>
      ⟨trivial, fun _ _ _ => trivial⟩⟩⟩⟩

/-! ### The most slots that there can be -/

/-- Attributes are set until all slots are there, one is removed, and a new one is set. -/
def fillThenSet (n : ℕ) : ℕ → List (Op ℕ ℕ ℕ)
  | 0 => [.RemoveAttrAt 0, .SetAttr n 0 true]
  | m + 1 => .SetAndTakeAttr n 0 true :: fillThenSet (n + 1) m

theorem findIdx?_eq_none_of_keys {attrs part : List (nsAttrName ℕ × ℕ)} {n : ℕ}
    (hkeys : attrs.map (·.1.key) = (List.range n).map (fun i : ℕ => (i, kNameSpaceID_None)))
    (hpart : ∀ e ∈ part, e ∈ attrs) :
    part.findIdx? (·.1.key = (n, kNameSpaceID_None)) = none := by
  rw [List.findIdx?_eq_none_iff]
  intro e he
  have hkey : e.1.key ∈ attrs.map (·.1.key) := List.mem_map.mpr ⟨e, hpart e he, rfl⟩
  rw [hkeys] at hkey
  obtain ⟨i, hi, hkey⟩ := List.mem_map.mp hkey
  rw [decide_eq_false_iff_not, ← hkey]
  intro heq
  have hin : i = n := congrArg Prod.fst heq
  exact absurd (List.mem_range.mp hi) (by omega)

/-- The last slot is there and empty, but `SetAttr` does not use it. -/
theorem setAttr_refused {b : Build} {a : nsAttrAndChildArray ℕ ℕ ℕ} {l : Lists ℕ ℕ ℕ}
    (h : a.Kept l) {n : ℕ} (hslots : a.AttrSlotCount = ATTRCHILD_ARRAY_MAX_ATTR_COUNT)
    (hnew : l.attrs.findIdx? (·.1.key = (n, kNameSpaceID_None)) = none) :
    a.SetAttr b true n 0 = some (NS_ERROR_FAILURE, a) := by
  unfold SetAttr setSlot
  rw [h.findAttr_key fun name => nsAttrName.equalsAtom_iff, hnew]
  dsimp only [Option.elim]
  rw [if_pos hslots.ge]

theorem not_follows_fillThenSet (b : Build) (this : Address) : ∀ (m n : ℕ)
    {a : nsAttrAndChildArray ℕ ℕ ℕ} {l : Lists ℕ ℕ ℕ}, n + m = ATTRCHILD_ARRAY_MAX_ATTR_COUNT →
    a.Kept l → l.mapped = none →
    l.attrs.map (·.1.key) = (List.range n).map (fun i : ℕ => (i, kNameSpaceID_None)) →
    AssertedRun b this a (fillThenSet n m) ∧ ¬Follows b this a l (fillThenSet n m)
  | 0, n, a, l, hn, h, hmapped, hkeys => by
    have hmax : ATTRCHILD_ARRAY_MAX_ATTR_COUNT = 1023 := rfl
    have hlength : l.attrs.length = ATTRCHILD_ARRAY_MAX_ATTR_COUNT := by
      have hlen := congrArg List.length hkeys
      simpa [← hn] using hlen
    have hzero : (l.mapped.getD []).length = 0 := by rw [hmapped]; rfl
    have hpos : 0 - (l.mapped.getD []).length < l.attrs.length := by omega
    obtain ⟨e, hget⟩ : ∃ e, l.attrs[0 - (l.mapped.getD []).length]? = some e :=
      ⟨_, List.getElem?_eq_getElem hpos⟩
    obtain ⟨a', hremove, hkept, hslots⟩ := h.removeAttrAt hget
    have hstep : step b this a (.RemoveAttrAt 0) = some ({ aValue := some e.2 }, a') := by
      unfold step
      dsimp only
      rw [hremove]
      rfl
    refine ⟨⟨⟨by rw [h.mappedAttrCount, hzero], _, h.attrCount, by omega⟩,
      fun _ _ _ => ⟨trivial, fun _ _ _ => trivial⟩⟩, ?_⟩
    rintro ⟨-, o, a₁, hsome, -, -, o', a₂, hset, hagrees, -⟩
    rw [hstep] at hsome
    cases hsome
    have hfull : a'.AttrSlotCount = ATTRCHILD_ARRAY_MAX_ATTR_COUNT := by
      have hle := a'.attrSlotCount_le
      have hge := h.slots
      omega
    have hnew : (l.attrs.eraseIdx (0 - (l.mapped.getD []).length)).findIdx?
        (·.1.key = (n, kNameSpaceID_None)) = none :=
      findIdx?_eq_none_of_keys hkeys fun e he => List.mem_of_mem_eraseIdx he
    have hrefused := setAttr_refused (b := b) hkept hfull hnew
    unfold step at hset
    dsimp only at hset
    rw [hrefused] at hset
    cases hset
    rcases hagrees.rv with ⟨hrv, -⟩ | ⟨-, -, hlimit⟩ | ⟨hrv, -⟩
    · cases hrv
    · have hlen : (l.attrs.eraseIdx (0 - (l.mapped.getD []).length)).length = l.attrs.length - 1 :=
        List.length_eraseIdx_of_lt hpos
      change _ ≤ (l.attrs.eraseIdx (0 - (l.mapped.getD []).length)).length at hlimit
      omega
    · cases hrv
  | m + 1, n, a, l, hn, h, hmapped, hkeys => by
    obtain ⟨o, a', hstep, hagrees, hkept⟩ := h.stepDone b this
      (.SetAndTakeAttr n 0 true) trivial trivial
    have hlength : l.attrs.length = n := by
      have hlen := congrArg List.length hkeys
      simpa using hlen
    have hnew : l.attrs.findIdx? (·.1.key = (nsAttrName.atom n).key) = none :=
      findIdx?_eq_none_of_keys hkeys fun e he => he
    have hok : o.rv = ok := by
      rcases hagrees.rv with ⟨hrv, -⟩ | ⟨-, -, hlimit⟩ | ⟨-, hmemory⟩
      · exact hrv
      · omega
      · cases hmemory
    have hafter : l.after (.SetAndTakeAttr n 0 true) o =
        { l with attrs := l.attrs ++ [(.atom n, 0)] } := by
      unfold Lists.after
      rw [if_pos hok]
      change ({ l with attrs := setPair l.attrs (.atom n) 0 } : Lists ℕ ℕ ℕ) = _
      unfold setPair
      rw [hnew]
    rw [hafter] at hkept
    have hrest := not_follows_fillThenSet b this m (n + 1) (by omega) hkept hmapped
      (by rw [List.map_append, hkeys, List.range_succ, List.map_append]; rfl)
    refine ⟨⟨trivial, fun o' a'' hsome => ?_⟩, ?_⟩
    · rw [hstep] at hsome
      cases hsome
      exact hrest.1
    · rintro ⟨-, o', a'', hsome, -, hfollows⟩
      rw [hstep] at hsome
      cases hsome
      rw [hafter] at hfollows
      exact hrest.2 hfollows

/-- With 1023 slots of which the last one is empty, a new attribute is refused. -/
theorem not_follows_of_lastSlotEmpty :
    ¬∀ (b : Build) (this : Address) (mapped : Option (List (nsAttrName ℕ × ℕ)))
      (ops : List (Op ℕ ℕ ℕ)), AssertedRun b this (withMapped b mapped) ops →
        Follows b this (withMapped b mapped) { mapped } ops := by
  intro h
  have hempty := kept_withMapped (b := .bits32) (A := ℕ) (V := ℕ) (C := ℕ) none
  have hrun := not_follows_fillThenSet .bits32 1 ATTRCHILD_ARRAY_MAX_ATTR_COUNT 0 (Nat.zero_add _)
    hempty rfl rfl
  exact hrun.2 (h .bits32 1 none _ hrun.1)

end nsAttrAndChildArray

end Kompozer.Dom.AttrAndChild

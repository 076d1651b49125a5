import Kompozer.Ds.SmallVoidArray
import Kompozer.Lib.Splice

/-! Small arrays and the common kind of arrays come to the same lists. -/

namespace Kompozer.Ds

variable {ι : Type} {w : PointerSize}

/-! ### The common kind -/

/-- What a call makes of a list, among others that it may be assigned from. -/
def onList (others : ι → List ℕ) (l : List ℕ) : SmallOp w ι → List ℕ × Option Bool
  | .InsertElementAt x k => (Lists.InsertElementsAt l [x.1] k.1).map id some
  | .InsertElementsAt o k =>
    (Lists.InsertElementsAt l (o.elements.map Subtype.val) k.1).map id some
  | .ReplaceElementAt x k => (Lists.ReplaceElementAt l x.1 k.1).map id some
  | .AppendElement x => (l ++ [x.1], some true)
  | .RemoveElement x => (l.erase x.1, some (x.1 ∈ l))
  | .RemoveElementAt k => (Lists.RemoveElementsAt l k.1 1).map id some
  | .RemoveElementsAt k n => (Lists.RemoveElementsAt l k.1 n.1).map id some
  | .SizeTo n => (Lists.SizeTo l n.1).map id some
  | .Compact => (l, none)
  | .Clear => ([], none)
  | .assign j => (others j, none)

/-- A call goes right on an array of the common kind. -/
def CanVoid (others : ι → nsVoidArray ℕ) (a : nsVoidArray ℕ) : SmallOp w ι → Prop
  | .InsertElementAt _ k => 0 ≤ k.1 → k.1 ≤ a.Count →
    a.Count < a.GetArraySize ∨ CanGrow w a.GetArraySize 1
  | .InsertElementsAt o k => 0 ≤ k.1 → k.1 ≤ a.Count →
    a.Count + o.array.Count ≤ a.GetArraySize ∨ CanGrow w a.GetArraySize o.array.Count
  | .ReplaceElementAt _ k => 0 ≤ k.1 → k.1 < a.GetArraySize ∨
    CanGrow w a.GetArraySize (k.1 + 1 - a.Count)
  | .AppendElement _ => a.Count < a.GetArraySize ∨ CanGrow w a.GetArraySize 1
  | .RemoveElementsAt k n => 0 ≤ k.1 → k.1 < a.Count → 0 ≤ n.1 ∧ n.1 + k.1 < 2 ^ 31
  | .SizeTo n => n.1 ≤ 0 ∨ n.1 = a.GetArraySize ∨
    a.IsArrayOwner = true ∧ n.1 < a.Count ∨ a.Count ≤ n.1 ∧ Allocatable w n.1
  | .assign j => (others j).Count ≤ a.GetArraySize ∨
    CanGrow w a.GetArraySize ((others j).Count - a.GetArraySize)
  | _ => True

/-- A call comes to its effect on the list. -/
def Comes (w : PointerSize) (effect : List ℕ × Option Bool)
    (call : Option (nsVoidArray ℕ × Option Bool)) : Prop :=
  ∃ b, call = some (b, effect.2) ∧ Holds w b effect.1

theorem Called.comes {l : List ℕ} {effect : List ℕ × Option Bool}
    {call : Option (nsVoidArray ℕ × Option Bool)} (h : Called w true l effect call) :
    Comes w effect call := by
  obtain ⟨b, answer, rfl, ⟨hholds, rfl⟩ | ⟨hmem, -⟩⟩ := h
  · exact ⟨b, rfl, hholds⟩
  · cases hmem

namespace Holds

variable {a : nsVoidArray ℕ} {l : List ℕ}

theorem AppendElement (h : Holds w a l) (memory : Bool) (aElement : ℕ)
    (hroom : l.length < a.GetArraySize ∨ CanGrow w a.GetArraySize 1) :
    Does w memory l (l ++ [aElement], true) (a.AppendElement w memory aElement) := by
  have hlt := h.allocatable.lt
  have hle := h.length_le
  have hinsert : Does w memory l (Lists.InsertElementsAt l [aElement] l.length) _ :=
    h.InsertElementAt memory aElement (by omega) fun _ _ => hroom
  rwa [Lists.InsertElementsAt, if_pos (by omega), Int.toNat_natCast, List.take_length,
    List.drop_length, List.append_nil, ← h.Count_eq] at hinsert

theorem RemoveElementAt (h : Holds w a l) (memory : Bool) {aIndex : ℤ}
    (hindex : -2 ^ 31 ≤ aIndex ∧ aIndex < 2 ^ 31) :
    Does w memory l (Lists.RemoveElementsAt l aIndex 1) (a.RemoveElementAt aIndex) := by
  have hlt := h.allocatable.lt
  have hle := h.length_le
  exact h.RemoveElementsAt memory hindex fun _ _ => by omega

theorem RemoveElement (h : Holds w a l) (memory : Bool) (aElement : ℕ) :
    Does w memory l (l.erase aElement, decide (aElement ∈ l)) (a.RemoveElement aElement) := by
  have hlt := h.allocatable.lt
  have hle := h.length_le
  have hindex : a.IndexOf aElement = (l.idxOf? aElement).elim (-1 : ℤ) fun i => i := by
    rw [nsVoidArray.IndexOf, h.contents_eq]
  unfold nsVoidArray.RemoveElement
  cases hidx : l.idxOf? aElement with
  | none =>
    have hmem := List.idxOf?_eq_none_iff.mp hidx
    rw [hidx] at hindex
    refine ⟨a, false, if_neg (not_not.mpr hindex), .inl ⟨?_, by simp [hmem]⟩⟩
    rwa [List.erase_of_not_mem hmem]
  | some i =>
    replace hindex : a.IndexOf aElement = i := by rw [hindex, hidx]; rfl
    obtain ⟨A, B, rfl, rfl, hA⟩ := exists_cut_of_idxOf? hidx
    have hremove : Does w memory _ (Lists.RemoveElementsAt _ A.length 1) _ :=
      h.RemoveElementAt memory (by simp at hle; omega)
    rw [Lists.RemoveElementsAt, if_pos (by simp), Int.toNat_natCast] at hremove
    rw [if_pos (by rw [hindex]; omega), hindex]
    simpa [List.erase_append_right _ hA] using hremove

end Holds

theorem onVoid_comes {others : ι → nsVoidArray ℕ} {ls : ι → List ℕ} {a : nsVoidArray ℕ}
    {l : List ℕ} (h : Holds w a l) (hothers : ∀ j, Holds w (others j) (ls j))
    {op : SmallOp w ι} (hcan : CanVoid others a op) :
    Comes w (onList ls l op) (onVoid others a op) := by
  have hcount := h.Count_eq
  refine Called.comes (l := l) ?_
  cases op with
  | InsertElementAt x k =>
    simp only [CanVoid, hcount] at hcan
    exact (h.InsertElementAt true x.1 k.2 hcan).called
  | InsertElementsAt o k =>
    simp only [CanVoid, hcount, o.holds.Count_eq] at hcan
    refine (h.InsertElementsAt true (fun p hp => ?_) (by simp) k.2 hcan).called
    obtain rfl := Option.some.inj hp
    exact o.holds
  | ReplaceElementAt x k =>
    simp only [CanVoid, hcount] at hcan
    exact (h.ReplaceElementAt true x.1 k.2 hcan).called
  | AppendElement x =>
    simp only [CanVoid, hcount] at hcan
    exact (h.AppendElement true x.1 hcan).called
  | RemoveElement x => exact (h.RemoveElement true x.1).called
  | RemoveElementAt k => exact (h.RemoveElementAt true k.2).called
  | RemoveElementsAt k n =>
    simp only [CanVoid, hcount] at hcan
    exact (h.RemoveElementsAt true k.2 hcan).called
  | SizeTo n =>
    simp only [CanVoid, hcount] at hcan
    exact (h.SizeTo true hcan).called
  | Compact =>
    obtain ⟨b, hb, hholds, -⟩ := h.Compact true
    exact called_none ⟨b, hb, .inl hholds⟩
  | Clear =>
    obtain ⟨b, hb, hholds⟩ := h.Clear true
    exact called_none ⟨b, hb, .inl hholds⟩
  | assign j =>
    simp only [CanVoid, (hothers j).Count_eq] at hcan
    obtain ⟨b, hb, hassigned⟩ := h.assign true (hothers j) hcan
    exact called_none ⟨b, hb, hassigned.holds⟩

/-! ### The small kind -/

theorem or_one_of_even {p : ℕ} (h : p % 2 = 0) : p ||| 1 = p + 1 := by
  obtain ⟨k, rfl⟩ : ∃ k, p = 2 * k := ⟨p / 2, by omega⟩
  exact (Nat.two_pow_add_eq_or_of_lt (i := 1) (b := 1) (by decide) k).symm

namespace nsSmallVoidArray

/-- The array holds the list. -/
def Holds (w : PointerSize) : nsSmallVoidArray → List ℕ → Prop
  | null, l => l = []
  | word bits, l => ∃ p : Pointer, bits = p.1 ||| 1 ∧ l = [p.1]
  | vector v, l => Ds.Holds w v l

theorem SetSingleChild_eq (p : Pointer) : SetSingleChild p.1 = word (p.1 ||| 1) := if_pos p.2.1

/-- The low bit of a pointer comes off again. -/
@[simp] theorem GetSingleChild_word (p : Pointer) : (word (p.1 ||| 1)).GetSingleChild = p.1 := by
  rw [GetSingleChild, or_one_of_even p.2.2]
  have := p.2.2
  omega

@[simp] theorem HasSingleChild_word (p : Pointer) : (word (p.1 ||| 1)).HasSingleChild = true := by
  rw [HasSingleChild, or_one_of_even p.2.2]
  have := p.2.2
  simp
  omega

theorem holds_SetSingleChild (w : PointerSize) (p : Pointer) :
    Holds w (SetSingleChild p.1) [p.1] := by
  rw [SetSingleChild_eq]
  exact ⟨p, rfl, rfl⟩

def HasVector : nsSmallVoidArray → Bool
  | vector _ => true
  | _ => false

variable {a : nsSmallVoidArray} {l : List ℕ}

theorem Holds.Count_eq (h : Holds w a l) : a.Count = l.length := by
  cases a with
  | null =>
    obtain rfl : l = [] := h
    rfl
  | word bits =>
    obtain ⟨p, -, rfl⟩ := h
    rfl
  | vector v => exact Ds.Holds.Count_eq h

theorem Holds.contents_eq (h : Holds w a l) : a.contents = l := by
  cases a with
  | null => exact Eq.symm h
  | word bits =>
    obtain ⟨p, rfl, rfl⟩ := h
    simp [contents]
  | vector v => exact Ds.Holds.contents_eq h

/-- A vector takes over the only child. -/
theorem Holds.SwitchToVector (h : Holds w a l) (hvector : a.HasVector = false) :
    ∃ v, a.SwitchToVector w = some v ∧ Ds.Holds w v l := by
  have hnew : Ds.Holds w (nsVoidArray.new true : nsVoidArray ℕ) [] := Holds.new w true
  cases a with
  | null =>
    obtain rfl : l = [] := h
    exact ⟨_, rfl, hnew⟩
  | word bits =>
    obtain ⟨p, rfl, rfl⟩ := h
    obtain ⟨v, ok, hv, ⟨hholds, -⟩ | ⟨hmem, -⟩⟩ := hnew.AppendElement true p.1 (.inl (by decide))
    · refine ⟨v, ?_, hholds⟩
      simp [nsSmallVoidArray.SwitchToVector, p.2.1, hv]
    · cases hmem
  | vector v => cases hvector

/-- The vector that an array has or would have. -/
def asVector (w : PointerSize) : nsSmallVoidArray → nsVoidArray ℕ
  | vector v => v
  | null => (SwitchToVector w null).getD (nsVoidArray.new true)
  | word bits => (SwitchToVector w (word bits)).getD (nsVoidArray.new true)

theorem Holds.asVector (h : Holds w a l) : Ds.Holds w (a.asVector w) l := by
  cases a with
  | vector v => exact h
  | null =>
    obtain ⟨v, hv, hholds⟩ := h.SwitchToVector rfl
    rwa [nsSmallVoidArray.asVector, hv]
  | word bits =>
    obtain ⟨v, hv, hholds⟩ := h.SwitchToVector rfl
    rwa [nsSmallVoidArray.asVector, hv]

theorem SwitchToVector_eq (h : Holds w a l) (hvector : a.HasVector = false) :
    a.SwitchToVector w = some (a.asVector w) := by
  obtain ⟨v, hv, -⟩ := h.SwitchToVector hvector
  cases a with
  | vector v => cases hvector
  | null => rw [nsSmallVoidArray.asVector, hv]; rfl
  | word bits => rw [nsSmallVoidArray.asVector, hv]; rfl

/-- A call comes to its effect on the list. -/
def Comes (w : PointerSize) (effect : List ℕ × Bool) (call : Option (nsSmallVoidArray × Bool)) :
    Prop := ∃ b, call = some (b, effect.2) ∧ Holds w b effect.1

theorem onVector_comes {effect : List ℕ × Bool} {call : Option (nsVoidArray ℕ × Bool)}
    (h : Ds.Comes w (effect.map id some) (call.map (Prod.map id some))) :
    Comes w effect (onVector call) := by
  obtain ⟨b, hb, hholds⟩ := h
  obtain ⟨⟨c, ok⟩, rfl, hc⟩ := Option.map_eq_some_iff.mp hb
  obtain ⟨rfl, hok⟩ := Prod.mk.inj hc
  exact ⟨vector c, by rw [onVector, ← Option.some.inj hok]; rfl, hholds⟩

/-- A call goes right on a small array whose vector it goes right on. -/
def CanSmall (a : nsSmallVoidArray) : SmallOp w ι → Prop
  | .InsertElementsAt o k => (o.array.Count = 0 → 0 ≤ k.1 ∧ k.1 ≤ a.Count) ∧
    (o.array.Count = 1 → a.HasVector = false → a.Count = 0 → 0 ≤ k.1)
  | .ReplaceElementAt _ k => a.HasSingleChild = true → k.1 = 0
  | .RemoveElementsAt k n => a.HasVector = true ∧ n.1 ≠ 0 ∨ 0 ≤ k.1 ∧ k.1 < a.Count
  | .SizeTo n => 1 < n.1 ∨ a.Count = 0 ∨
    a.Count = 1 ∧ n.1 = 1 ∧ a.contents.head? ≠ some 0 ∨ 1 < a.Count ∧ n.1 ≤ 0
  | _ => True

section Calls
variable {others : ι → nsVoidArray ℕ} {ls : ι → List ℕ} (h : Holds w a l)
  (hothers : ∀ j, Ds.Holds w (others j) (ls j))
include h hothers

theorem InsertElementAt_comes {x : Pointer} {k : PRInt32}
    (hvec : CanVoid others (a.asVector w) (.InsertElementAt x k : SmallOp w ι)) :
    Comes w (Lists.InsertElementsAt l [x.1] k.1) (a.InsertElementAt w x.1 k.1) := by
  cases a with
  | null =>
    obtain rfl : l = [] := h
    by_cases hk : k.1 = 0
    · rw [hk]
      exact ⟨_, rfl, holds_SetSingleChild w x⟩
    · have hinvalid : ¬ (0 ≤ k.1 ∧ k.1 ≤ (([] : List ℕ).length : ℤ)) := by simp; omega
      rw [Lists.InsertElementsAt, if_neg hinvalid, nsSmallVoidArray.InsertElementAt,
        if_neg (Ne.symm hk)]
      exact ⟨null, rfl, rfl⟩
  | word bits =>
    rw [nsSmallVoidArray.InsertElementAt, SwitchToVector_eq h rfl]
    exact onVector_comes (onVoid_comes h.asVector hothers hvec)
  | vector v => exact onVector_comes (onVoid_comes h hothers hvec)

theorem InsertElementsAt_comes {o : Given w} {k : PRInt32}
    (hvec : CanVoid others (a.asVector w) (.InsertElementsAt o k : SmallOp w ι))
    (hown : CanSmall a (.InsertElementsAt o k : SmallOp w ι)) :
    Comes w (Lists.InsertElementsAt l (o.elements.map Subtype.val) k.1)
      (a.InsertElementsAt w o.array k.1) := by
  have hcount := o.holds.Count_eq
  obtain ⟨hnone, hone⟩ := hown
  rw [h.Count_eq] at hnone hone
  unfold nsSmallVoidArray.InsertElementsAt
  by_cases hempty : o.array.Count = 0
  · have hnil : o.elements = [] := by
      rw [List.length_map] at hcount
      exact List.eq_nil_of_length_eq_zero (by omega)
    simp only [hempty, if_true, hnil, Lists.InsertElementsAt]
    rw [if_pos (hnone hempty)]
    exact ⟨a, rfl, by simpa using h⟩
  simp only [hempty, if_false]
  have hcomes := onVector_comes (onVoid_comes h.asVector hothers hvec)
  cases a with
  | vector v => exact hcomes
  | word bits =>
    obtain ⟨p, rfl, -⟩ := id h
    simp only [HasSingleChild_word, true_or, if_true]
    rw [SwitchToVector_eq h rfl]
    exact hcomes
  | null =>
    obtain rfl : l = [] := id h
    simp only
    split_ifs with hswitch
    · rw [SwitchToVector_eq h rfl]
      exact hcomes
    · obtain ⟨y, hy⟩ : ∃ y, o.elements = [y] := by
        refine List.length_eq_one_iff.mp ?_
        rw [List.length_map] at hcount
        omega
      have hfirst : o.array.ElementAt 0 = y.1 := by
        simp [nsVoidArray.ElementAt, o.holds.contents_eq, hy]
      have hk : k.1 = 0 := by
        have := hone (by simp [hcount, hy]) rfl rfl
        omega
      rw [hfirst, hy, hk]
      exact ⟨_, rfl, holds_SetSingleChild w y⟩

theorem ReplaceElementAt_comes {x : Pointer} {k : PRInt32}
    (hvec : CanVoid others (a.asVector w) (.ReplaceElementAt x k : SmallOp w ι))
    (hown : CanSmall a (.ReplaceElementAt x k : SmallOp w ι)) :
    Comes w (Lists.ReplaceElementAt l x.1 k.1) (a.ReplaceElementAt w x.1 k.1) := by
  cases a with
  | null =>
    unfold nsSmallVoidArray.ReplaceElementAt
    split_ifs with hk
    · obtain rfl : l = [] := h
      rw [hk]
      exact ⟨_, rfl, holds_SetSingleChild w x⟩
    · rw [SwitchToVector_eq h rfl]
      exact onVector_comes (onVoid_comes h.asVector hothers hvec)
  | word bits =>
    obtain ⟨p, rfl, rfl⟩ := h
    have hk : k.1 = 0 := hown (HasSingleChild_word p)
    rw [nsSmallVoidArray.ReplaceElementAt, if_pos hk, hk]
    exact ⟨_, rfl, holds_SetSingleChild w x⟩
  | vector v => exact onVector_comes (onVoid_comes h hothers hvec)

theorem AppendElement_comes {x : Pointer}
    (hvec : CanVoid others (a.asVector w) (.AppendElement x : SmallOp w ι)) :
    Comes w (l ++ [x.1], true) (a.AppendElement w x.1) := by
  cases a with
  | null =>
    obtain rfl : l = [] := h
    exact ⟨_, rfl, holds_SetSingleChild w x⟩
  | word bits =>
    rw [nsSmallVoidArray.AppendElement, SwitchToVector_eq h rfl]
    exact onVector_comes (onVoid_comes h.asVector hothers hvec)
  | vector v => exact onVector_comes (onVoid_comes h hothers hvec)

theorem RemoveElement_comes {x : Pointer} :
    Comes w (l.erase x.1, decide (x.1 ∈ l)) (a.RemoveElement x.1) := by
  cases a with
  | null =>
    obtain rfl : l = [] := h
    exact ⟨null, rfl, rfl⟩
  | word bits =>
    obtain ⟨p, rfl, rfl⟩ := h
    rw [nsSmallVoidArray.RemoveElement, GetSingleChild_word]
    by_cases hx : x.1 = p.1
    · rw [if_pos hx, hx]
      exact ⟨null, by simp, by simp [Holds]⟩
    · rw [if_neg hx]
      refine ⟨word (p.1 ||| 1), by simp [hx], p, rfl, ?_⟩
      exact List.erase_of_not_mem (by simpa using hx)
  | vector v =>
    exact onVector_comes (onVoid_comes h hothers (show CanVoid others v (.RemoveElement x : SmallOp w ι) from trivial))

theorem RemoveElementAt_comes {k : PRInt32} :
    Comes w (Lists.RemoveElementsAt l k.1 1) (a.RemoveElementAt k.1) := by
  cases a with
  | null =>
    obtain rfl : l = [] := h
    rw [Lists.RemoveElementsAt, if_neg (by simp)]
    exact ⟨null, rfl, rfl⟩
  | word bits =>
    obtain ⟨p, rfl, rfl⟩ := id h
    rw [nsSmallVoidArray.RemoveElementAt, Lists.RemoveElementsAt, List.length_singleton]
    by_cases hk : 0 = k.1
    · rw [if_pos (by omega), if_pos hk, ← hk]
      exact ⟨null, rfl, rfl⟩
    · rw [if_neg (by omega), if_neg hk]
      exact ⟨_, rfl, h⟩
  | vector v =>
    exact onVector_comes (onVoid_comes h hothers (show CanVoid others v (.RemoveElementAt k : SmallOp w ι) from trivial))

theorem RemoveElementsAt_comes {k n : PRInt32}
    (hvec : CanVoid others (a.asVector w) (.RemoveElementsAt k n : SmallOp w ι))
    (hown : CanSmall a (.RemoveElementsAt k n : SmallOp w ι)) :
    Comes w (Lists.RemoveElementsAt l k.1 n.1) (a.RemoveElementsAt k.1 n.1) := by
  simp only [CanSmall, h.Count_eq] at hown
  unfold nsSmallVoidArray.RemoveElementsAt
  by_cases hzero : n.1 = 0
  · rw [if_pos hzero, Lists.RemoveElementsAt, if_pos (by omega), hzero]
    exact ⟨a, rfl, by simpa using h⟩
  rw [if_neg hzero]
  cases a with
  | null =>
    obtain rfl : l = [] := h
    simp [HasVector] at hown
    omega
  | word bits =>
    obtain ⟨p, rfl, rfl⟩ := id h
    have hk : k.1 = 0 := by
      simp [HasVector] at hown
      omega
    have hn : 0 ≤ n.1 := by
      refine (hvec (by omega) ?_).1
      rw [h.asVector.Count_eq, hk]
      simp
    rw [Lists.RemoveElementsAt, if_pos (by simp; omega), hk]
    refine ⟨null, rfl, ?_⟩
    simp [Holds]
    omega
  | vector v => exact onVector_comes (onVoid_comes h hothers hvec)

theorem SizeTo_comes (heven : ∀ x ∈ l, x % 2 = 0) {n : PRInt32}
    (hvec : CanVoid others (a.asVector w) (.SizeTo n : SmallOp w ι))
    (hown : CanSmall a (.SizeTo n : SmallOp w ι)) :
    Comes w (Lists.SizeTo l n.1) (a.SizeTo w n.1) := by
  simp only [CanSmall, h.Count_eq, h.contents_eq] at hown
  have hcomes := onVector_comes (onVoid_comes h.asVector hothers hvec)
  by_cases hn : n.1 ≤ 1
  swap
  · cases a with
    | vector v =>
      rw [nsSmallVoidArray.SizeTo, if_neg hn]
      exact hcomes
    | null | word bits =>
      rw [nsSmallVoidArray.SizeTo, if_neg hn, SwitchToVector_eq h rfl]
      · exact hcomes
      · simp
  rw [Lists.SizeTo]
  cases a with
  | null =>
    obtain rfl : l = [] := h
    rw [nsSmallVoidArray.SizeTo, if_pos hn]
    · exact ⟨null, by split_ifs <;> rfl, by split_ifs <;> rfl⟩
    · simp
  | word bits =>
    obtain ⟨p, rfl, rfl⟩ := id h
    rw [nsSmallVoidArray.SizeTo, if_pos hn]
    · rw [if_neg (by simp at hown; omega)]
      exact ⟨_, rfl, h⟩
    · simp
  | vector v =>
    rw [nsSmallVoidArray.SizeTo, if_pos hn]
    have hcount : v.Count = l.length := Ds.Holds.Count_eq h
    by_cases hone : l.length = 1
    · obtain ⟨x, rfl⟩ := List.length_eq_one_iff.mp hone
      have hx : x ≠ 0 := by
        rintro rfl
        simp at hown
        omega
      have hfirst : v.ElementAt 0 = x := by
        simp [nsVoidArray.ElementAt, Ds.Holds.contents_eq h]
      rw [if_neg (by simp at hown; omega), if_pos (by rw [hcount, hone]; rfl), hfirst]
      exact ⟨_, rfl, holds_SetSingleChild w ⟨x, hx, heven x (by simp)⟩⟩
    · -- a vector with no element, or one that is deleted with all of them
      have hnil : (if n.1 ≤ 0 then (([] : List ℕ), true) else (l, true)) = ([], true) := by
        split_ifs with hneg
        · rfl
        · rw [List.eq_nil_of_length_eq_zero (by omega : l.length = 0)]
      rw [hnil, if_neg (by omega)]
      exact ⟨null, rfl, rfl⟩

end Calls

theorem Compact_holds (h : Holds w a l) : ∃ b, a.Compact w = some b ∧ Holds w b l := by
  cases a with
  | vector v =>
    obtain ⟨b, hb, hholds, -⟩ := Ds.Holds.Compact h true
    exact ⟨vector b, by simp [nsSmallVoidArray.Compact, hb], hholds⟩
  | null | word bits => exact ⟨_, rfl, h⟩

theorem Clear_holds (h : Holds w a l) : ∃ b, a.Clear w = some b ∧ Holds w b [] := by
  cases a with
  | vector v =>
    obtain ⟨b, hb, hholds⟩ := Ds.Holds.Clear h true
    exact ⟨vector b, by simp [nsSmallVoidArray.Clear, hb], hholds⟩
  | null | word bits => exact ⟨null, rfl, rfl⟩

/-- An array is assigned the elements of another one, which keeps them. -/
theorem assign_holds {o : nsSmallVoidArray} {ys : List ℕ} (h : Holds w a l) (ho : Holds w o ys)
    (hroom : (o.asVector w).Count ≤ (a.asVector w).GetArraySize ∨
      CanGrow w (a.asVector w).GetArraySize
        ((o.asVector w).Count - (a.asVector w).GetArraySize)) :
    ∃ b o', a.assign w o = some (b, o') ∧ Holds w b ys ∧ Holds w o' ys := by
  have hvec : ∃ b, (a.asVector w).assign w true (o.asVector w) = some b ∧ Ds.Holds w b ys := by
    rw [ho.asVector.Count_eq] at hroom
    obtain ⟨b, hb, ⟨hholds | ⟨hmem, -⟩, -⟩⟩ := h.asVector.assign true ho.asVector hroom
    · exact ⟨b, hb, hholds⟩
    · cases hmem
  obtain ⟨b, hb, hholds⟩ := hvec
  have hset : o.HasVector = false → Holds w (SetSingleChild o.GetSingleChild) ys := by
    intro hvector
    cases o with
    | vector v => cases hvector
    | null => exact ho
    | word bits =>
      obtain ⟨p, rfl, rfl⟩ := ho
      rw [GetSingleChild_word]
      exact holds_SetSingleChild w p
  cases a with
  | vector ours =>
    cases o with
    | vector theirs => exact ⟨vector b, _, congrArg (Option.map _) hb, hholds, ho⟩
    | null | word bits =>
      refine ⟨vector b, vector _, ?_, hholds, ho.asVector⟩
      simp only [nsSmallVoidArray.assign, SwitchToVector_eq ho rfl, Option.bind_eq_bind,
        Option.bind_some]
      exact congrArg (Option.bind · _) hb
  | null | word bits =>
    cases o with
    | vector theirs =>
      refine ⟨vector b, vector theirs, ?_, hholds, ho⟩
      simp only [nsSmallVoidArray.assign, SwitchToVector_eq h rfl, Option.bind_eq_bind,
        Option.bind_some]
      exact congrArg (Option.bind · _) hb
    | null | word bits => exact ⟨_, _, rfl, hset rfl, ho⟩

end nsSmallVoidArray

/-! ### Runs of both kinds -/

/-- Where the elements of a list come from. -/
theorem mem_onList {others : ι → List ℕ} {l : List ℕ} {op : SmallOp w ι} {x : ℕ}
    (hx : x ∈ (onList others l op).1) :
    x ∈ l ∨ x = 0 ∨ (∃ p : Pointer, x = p.1) ∨ ∃ j, x ∈ others j := by
  have hinsert : ∀ (ys : List ℕ) (k : ℤ), x ∈ (Lists.InsertElementsAt l ys k).1 → x ∈ l ∨ x ∈ ys := by
    intro ys k h
    unfold Lists.InsertElementsAt at h
    split_ifs at h
    · simp only [List.mem_append] at h
      rcases h with (h | h) | h
      · exact .inl (List.mem_of_mem_take h)
      · exact .inr h
      · exact .inl (List.mem_of_mem_drop h)
    · exact .inl h
  have hremove : ∀ k n : ℤ, x ∈ (Lists.RemoveElementsAt l k n).1 → x ∈ l := by
    intro k n h
    unfold Lists.RemoveElementsAt at h
    split_ifs at h
    · rcases List.mem_append.mp h with h | h
      · exact List.mem_of_mem_take h
      · exact List.mem_of_mem_drop h
    · exact h
  cases op with
  | InsertElementAt p k =>
    rcases hinsert _ _ hx with h | h
    · exact .inl h
    · exact .inr (.inr (.inl ⟨p, by simpa using h⟩))
  | InsertElementsAt o k =>
    rcases hinsert _ _ hx with h | h
    · exact .inl h
    · obtain ⟨p, -, rfl⟩ := List.mem_map.mp h
      exact .inr (.inr (.inl ⟨p, rfl⟩))
  | ReplaceElementAt p k =>
    have h : x ∈ (Lists.ReplaceElementAt l p.1 k.1).1 := hx
    unfold Lists.ReplaceElementAt at h
    split_ifs at h
    · exact .inl h
    · rcases List.mem_or_eq_of_mem_set h with h | h
      · exact .inl h
      · exact .inr (.inr (.inl ⟨p, h⟩))
    · simp only [List.mem_append, List.mem_singleton, List.mem_replicate] at h
      rcases h with (h | h) | h
      · exact .inl h
      · exact .inr (.inl h.2)
      · exact .inr (.inr (.inl ⟨p, h⟩))
  | AppendElement p =>
    rcases List.mem_append.mp hx with h | h
    · exact .inl h
    · exact .inr (.inr (.inl ⟨p, by simpa using h⟩))
  | RemoveElement p => exact .inl (List.mem_of_mem_erase hx)
  | RemoveElementAt k => exact .inl (hremove _ _ hx)
  | RemoveElementsAt k n => exact .inl (hremove _ _ hx)
  | SizeTo n =>
    have h : x ∈ (Lists.SizeTo l n.1).1 := hx
    unfold Lists.SizeTo at h
    split_ifs at h
    · cases h
    · exact .inl h
  | Compact => exact .inl hx
  | Clear => cases hx
  | assign j => exact .inr (.inr (.inr ⟨j, hx⟩))

variable [DecidableEq ι] {t : ι → nsSmallVoidArray} {s : ι → nsVoidArray ℕ} {ls : ι → List ℕ} {i : ι}

/-- Small arrays and arrays of the common kind hold the same lists of pointers. -/
structure Same (w : PointerSize) (t : ι → nsSmallVoidArray) (s : ι → nsVoidArray ℕ)
    (ls : ι → List ℕ) : Prop where
  small : ∀ k, (t k).Holds w (ls k)
  void : ∀ k, Holds w (s k) (ls k)
  even : ∀ k, ∀ x ∈ ls k, x % 2 = 0

theorem holds_update (ht : ∀ k, (t k).Holds w (ls k)) {a : nsSmallVoidArray} {l : List ℕ}
    (h : a.Holds w l) : ∀ k, (Function.update t i a k).Holds w (Function.update ls i l k) := by
  intro k
  rcases eq_or_ne k i with rfl | hk
  · simpa using h
  · simpa [hk] using ht k

theorem onSmall_eq {effect : List ℕ × Bool} {call : Option (nsSmallVoidArray × Bool)}
    (ht : ∀ k, (t k).Holds w (ls k)) (h : nsSmallVoidArray.Comes w effect call) :
    ∃ t', onSmall t i call = some (t', some effect.2) ∧
      ∀ k, (t' k).Holds w (Function.update ls i effect.1 k) := by
  obtain ⟨b, rfl, hb⟩ := h
  exact ⟨_, rfl, holds_update ht hb⟩

/-- What one call does to small arrays. -/
theorem callSmall_holds (ht : ∀ k, (t k).Holds w (ls k)) (heven : ∀ x ∈ ls i, x % 2 = 0)
    {op : SmallOp w ι} (hvec : CanVoid (fun j => (t j).asVector w) ((t i).asVector w) op)
    (hown : (t i).CanSmall op) :
    ∃ t', callSmall t i op = some (t', (onList ls (ls i) op).2) ∧
      ∀ k, (t' k).Holds w (Function.update ls i (onList ls (ls i) op).1 k) := by
  have h := ht i
  have hothers := fun j => (ht j).asVector
  cases op with
  | InsertElementAt x k => exact onSmall_eq ht (nsSmallVoidArray.InsertElementAt_comes h hothers hvec)
  | InsertElementsAt o k => exact onSmall_eq ht (nsSmallVoidArray.InsertElementsAt_comes h hothers hvec hown)
  | ReplaceElementAt x k => exact onSmall_eq ht (nsSmallVoidArray.ReplaceElementAt_comes h hothers hvec hown)
  | AppendElement x => exact onSmall_eq ht (nsSmallVoidArray.AppendElement_comes h hothers hvec)
  | RemoveElement x => exact onSmall_eq ht (nsSmallVoidArray.RemoveElement_comes h hothers)
  | RemoveElementAt k => exact onSmall_eq ht (nsSmallVoidArray.RemoveElementAt_comes h hothers)
  | RemoveElementsAt k n => exact onSmall_eq ht (nsSmallVoidArray.RemoveElementsAt_comes h hothers hvec hown)
  | SizeTo n => exact onSmall_eq ht (nsSmallVoidArray.SizeTo_comes h hothers heven hvec hown)
  | Compact =>
    obtain ⟨b, hb, hholds⟩ := nsSmallVoidArray.Compact_holds h
    exact ⟨_, by simp only [callSmall, hb]; rfl, holds_update ht hholds⟩
  | Clear =>
    obtain ⟨b, hb, hholds⟩ := nsSmallVoidArray.Clear_holds h
    exact ⟨_, by simp only [callSmall, hb]; rfl, holds_update ht hholds⟩
  | assign j =>
    obtain ⟨b, o, hb, hholds, ho⟩ := nsSmallVoidArray.assign_holds h (ht j) hvec
    refine ⟨_, by simp only [callSmall, hb]; rfl, holds_update (fun k => ?_) hholds⟩
    rcases eq_or_ne k j with rfl | hk
    · simpa using ho
    · simpa [hk] using ht k

/-- Every call goes right on both kinds in the states in which it is made. -/
def CanBoth (t : ι → nsSmallVoidArray) (s : ι → nsVoidArray ℕ) : List (ι × SmallOp w ι) → Prop
  | [] => True
  | (i, op) :: ops =>
    CanVoid s (s i) op ∧ CanVoid (fun j => (t j).asVector w) ((t i).asVector w) op ∧
    (t i).CanSmall op ∧ ∀ c ∈ callSmall t i op, ∀ b ∈ onVoid s (s i) op,
      CanBoth c.1 (Function.update s i b.1) ops

instance (others : ι → nsVoidArray ℕ) (a : nsVoidArray ℕ) (op : SmallOp w ι) :
    Decidable (CanVoid others a op) := by
  cases op <;> unfold CanVoid <;> infer_instance

instance (a : nsSmallVoidArray) (op : SmallOp w ι) : Decidable (a.CanSmall op) := by
  cases op <;> unfold nsSmallVoidArray.CanSmall <;> infer_instance

instance CanBoth.decidable : (t : ι → nsSmallVoidArray) → (s : ι → nsVoidArray ℕ) →
    (ops : List (ι × SmallOp w ι)) → Decidable (CanBoth t s ops)
  | _, _, [] => isTrue trivial
  | t, s, (i, op) :: ops =>
    have : ∀ t' b, Decidable (CanBoth t' (Function.update s i b) ops) :=
      fun _ _ => decidable _ _ _
    inferInstanceAs (Decidable (_ ∧ _ ∧ _ ∧ ∀ c ∈ callSmall t i op, ∀ b ∈ onVoid s (s i) op, _))

theorem runs_same (hsame : Same w t s ls) {ops : List (ι × SmallOp w ι)} (hcan : CanBoth t s ops) :
    ∃ t' s' answers ls', runSmall t ops = some (t', answers) ∧
      runOnVoid s ops = some (s', answers) ∧ Same w t' s' ls' := by
  induction ops generalizing t s ls with
  | nil => exact ⟨t, s, [], ls, rfl, rfl, hsame⟩
  | cons call ops ih =>
    obtain ⟨i, op⟩ := call
    obtain ⟨hvoid, hvec, hown, hrest⟩ := hcan
    obtain ⟨t', ht', hsmall⟩ := callSmall_holds hsame.small (hsame.even i) hvec hown
    obtain ⟨b, hb, hholds⟩ := onVoid_comes (hsame.void i) hsame.void hvoid
    have hnext : Same w t' (Function.update s i b)
        (Function.update ls i (onList ls (ls i) op).1) := by
      refine ⟨hsmall, fun k => ?_, fun k x hx => ?_⟩
      · rcases eq_or_ne k i with rfl | hk
        · simpa using hholds
        · simpa [hk] using hsame.void k
      · rcases eq_or_ne k i with rfl | hk
        · rw [Function.update_self] at hx
          rcases mem_onList hx with hx | rfl | ⟨p, rfl⟩ | ⟨j, hx⟩
          · exact hsame.even k x hx
          · rfl
          · exact p.2.2
          · exact hsame.even j x hx
        · rw [Function.update_of_ne hk] at hx
          exact hsame.even k x hx
    obtain ⟨t'', s'', answers, ls'', hrt, hrs, hlast⟩ := ih hnext (hrest _ ht' _ hb)
    exact ⟨t'', s'', (onList ls (ls i) op).2 :: answers, ls'', by simp [runSmall, ht', hrt],
      by simp [runOnVoid, hb, hrs], hlast⟩

/-- Runs whose calls all go right give the same elements and the same answers on both kinds. -/
theorem runSmall_runOnVoid (w : PointerSize) (isAuto : ι → Bool) (ops : List (ι × SmallOp w ι))
    (hcan : CanBoth (fun _ => .null) (fun i => nsVoidArray.new (isAuto i)) ops) :
    ∃ t s answers, runSmall (fun _ => .null) ops = some (t, answers) ∧
      runOnVoid (fun i => nsVoidArray.new (isAuto i)) ops = some (s, answers) ∧
      ∀ i, (t i).contents = (s i).contents := by
  have hstart : Same w (fun _ : ι => .null) (fun i => nsVoidArray.new (isAuto i)) fun _ => [] :=
    ⟨fun _ => rfl, fun i => Holds.new w (isAuto i), by simp⟩
  obtain ⟨t, s, answers, ls, ht, hs, hsame⟩ := runs_same hstart hcan
  exact ⟨t, s, answers, ht, hs, fun i => by
    rw [(hsame.small i).contents_eq, (hsame.void i).contents_eq]⟩

theorem zero_fits : (-2 : ℤ) ^ 31 ≤ 0 ∧ (0 : ℤ) < 2 ^ 31 := by decide

theorem one_fits : (-2 : ℤ) ^ 31 ≤ 1 ∧ (1 : ℤ) < 2 ^ 31 := by decide

/-- Two arrays that get vectors, and lose and pass them on. -/
def sampleSmallCalls : List (Bool × SmallOp .bits32 Bool) :=
  [(true, .AppendElement ⟨2, by decide⟩), (true, .InsertElementAt ⟨4, by decide⟩ ⟨0, zero_fits⟩),
    (false, .ReplaceElementAt ⟨6, by decide⟩ ⟨9, by omega⟩), (true, .RemoveElement ⟨4, by decide⟩),
    (true, .SizeTo ⟨1, one_fits⟩), (true, .assign false), (false, .RemoveElementAt ⟨9, by omega⟩),
    (false, .Clear), (true, .RemoveElementsAt ⟨1, one_fits⟩ ⟨30, by omega⟩), (true, .Compact)]

theorem runSmall_runOnVoid_sample :
    CanBoth (fun _ => .null) (fun _ => nsVoidArray.new false) sampleSmallCalls ∧
    ∃ t s answers, runSmall (fun _ => .null) sampleSmallCalls = some (t, answers) ∧
      runOnVoid (fun _ => nsVoidArray.new false) sampleSmallCalls = some (s, answers) ∧
      ∀ i, (t i).contents = (s i).contents :=
  have hcan : CanBoth (fun _ => .null) (fun _ => nsVoidArray.new false) sampleSmallCalls := by
    decide +kernel
  ⟨hcan, runSmall_runOnVoid .bits32 (fun _ => false) sampleSmallCalls hcan⟩

/-- A second element that is put behind the only one. -/
def replaceCalls : List (Unit × SmallOp .bits32 Unit) :=
  [((), .InsertElementAt ⟨2, by decide⟩ ⟨0, zero_fits⟩),
    ((), .ReplaceElementAt ⟨4, by decide⟩ ⟨1, one_fits⟩)]

/-- The word of a single child is taken for a vector. -/
theorem not_runSmall_replace :
    ¬ ∃ t s answers, runSmall (fun _ => .null) replaceCalls = some (t, answers) ∧
      runOnVoid (fun _ => nsVoidArray.new false) replaceCalls = some (s, answers) ∧
      ∀ i, (t i).contents = (s i).contents := by
  rintro ⟨t, s, answers, hrun, -⟩
  have hnone : (runSmall (fun _ => .null) replaceCalls).isNone = true := by decide +kernel
  simp [hrun] at hnone

end Kompozer.Ds

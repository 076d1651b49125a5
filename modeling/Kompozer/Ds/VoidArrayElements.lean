import Kompozer.Ds.VoidArrayHolds

/-! What the calls that insert, replace, move and remove elements do to the list of an array. -/

namespace Kompozer.Ds

/-! ### The same calls on a list -/

namespace Lists

variable {α : Type}

def InsertElementsAt (l ys : List α) (aIndex : ℤ) : List α × Bool :=
  if 0 ≤ aIndex ∧ aIndex ≤ l.length then
    (l.take aIndex.toNat ++ ys ++ l.drop aIndex.toNat, true)
  else (l, false)

/-- A place behind the end is filled up to with null. -/
def ReplaceElementAt [Zero α] (l : List α) (aElement : α) (aIndex : ℤ) : List α × Bool :=
  if aIndex < 0 then (l, false)
  else if aIndex < l.length then (l.set aIndex.toNat aElement, true)
  else (l ++ List.replicate (aIndex.toNat - l.length) 0 ++ [aElement], true)

def MoveElement (l : List α) (aFrom aTo : ℤ) : List α × Bool :=
  if aTo = aFrom then (l, true)
  else if h : (0 ≤ aFrom ∧ aFrom < l.length) ∧ 0 ≤ aTo ∧ aTo < l.length then
    ((l.eraseIdx aFrom.toNat).insertIdx aTo.toNat l[aFrom.toNat], true)
  else (l, false)

def RemoveElementsAt (l : List α) (aIndex aCount : ℤ) : List α × Bool :=
  if 0 ≤ aIndex ∧ aIndex < l.length then
    (l.take aIndex.toNat ++ l.drop (aIndex.toNat + aCount.toNat), true)
  else (l, false)

/-- A size of a list is only a hint, if it is positive. -/
def SizeTo (l : List α) (aSize : ℤ) : List α × Bool := if aSize ≤ 0 then ([], true) else (l, true)

end Lists

variable {α : Type} {w : PointerSize}

theorem uint32_lt_iff {n k : ℤ} (hn : 0 ≤ n ∧ n < 2 ^ 31) (hk : -2 ^ 31 ≤ k ∧ k < 2 ^ 31) :
    uint32 n < uint32 k ↔ ¬ (0 ≤ k ∧ k ≤ n) := by
  unfold uint32
  omega

theorem uint32_le_iff {n k : ℤ} (hn : 0 ≤ n ∧ n < 2 ^ 31) (hk : -2 ^ 31 ≤ k ∧ k < 2 ^ 31) :
    uint32 n ≤ uint32 k ↔ ¬ (0 ≤ k ∧ k < n) := by
  unfold uint32
  omega

namespace nsVoidArray

variable {a : nsVoidArray α} {m m' : Impl α} {i j k n : ℕ} {x : α}

theorem withImpl_self (hm : a.impl = some m) : a.withImpl m = a := by
  obtain ⟨isAuto, place, buf⟩ := a
  cases place <;> simp_all [impl, withImpl]

theorem exists_impl (h : 0 < a.GetArraySize) : ∃ m, a.impl = some m := by
  cases hm : a.impl with
  | none => simp [GetArraySize, hm] at h
  | some m => exact ⟨m, rfl⟩

theorem memmove_eq (hm : a.impl = some m) (hi : i + n ≤ m.mArray.size)
    (hj : j + n ≤ m.mArray.size) :
    a.memmove i j n = some (a.withImpl { m with mArray := m.mArray.moved i j n }) := by
  simp [memmove, hm, moveAt, Block.move_of_le hi hj]

/-- Elements slide to make room for `k` new ones. -/
theorem slide_eq (hm : a.impl = some m) (hi : i ≤ n) (hn : n + k ≤ m.mArray.size) :
    (if (n : ℤ) - i ≠ 0 then a.memmove (i + k) i (n - i) else some a) =
      some (a.withImpl { m with mArray := m.mArray.moved (i + k) i (n - i) }) := by
  rw [← Nat.cast_sub hi, ← Nat.cast_add]
  split_ifs with hne
  · exact memmove_eq hm (by omega) (by omega)
  · rw [show n - i = 0 by omega, Block.moved_zero, withImpl_self hm]

theorem setElement_eq (hm : a.impl = some m) (hi : i < m.mArray.size) :
    a.setElement i x = some (a.withImpl { m with mArray := m.mArray.put i x }) := by
  simp [setElement, hm, setAt, Block.set_of_lt hi]

theorem setElement_withImpl (hm : a.impl = some m) (hi : i < m'.mArray.size) :
    (a.withImpl m').setElement i x =
      some (a.withImpl { m' with mArray := m'.mArray.put i x }) := by
  rw [setElement_eq (impl_withImpl hm) hi, withImpl_withImpl]

theorem setCount_withImpl (hm : a.impl = some m) (c : ℤ) :
    (a.withImpl m').setCount c = a.withImpl { m' with mCount := c } := by
  rw [setCount_eq (impl_withImpl hm), withImpl_withImpl]

theorem Count_withImpl (hm : a.impl = some m) : (a.withImpl m').Count = m'.mCount :=
  Count_eq (impl_withImpl hm)

end nsVoidArray

namespace Holds

variable {a b : nsVoidArray α} {l : List α} {m : Impl α} {memory : Bool}

/-- A buffer that was written to, with a new count. -/
theorem write (h : Holds w a l) (hm : a.impl = some m) {cells : Block α} {l' : List α} {n : ℤ}
    (hsize : cells.size = m.mArray.size) (hs : cells.Starts l') (hn : n = l'.length)
    (hle : l'.length ≤ m.mArray.size) :
    Holds w (a.withImpl { m with mArray := cells, mCount := n }) l' := by
  have hbuf := h.of_impl m hm
  exact h.withImpl hm ⟨hs, hn, by rw [hsize]; exact hbuf.size_eq, by rw [hsize]; exact hle,
    by rw [hsize]; exact hbuf.allocatable⟩ rfl hsize

end Holds

/-- What a call comes to: its effect and its answer on the list, or a failure for want of memory. -/
def Does (w : PointerSize) (memory : Bool) (l : List α) (effect : List α × Bool)
    (call : Option (nsVoidArray α × Bool)) : Prop :=
  ∃ b ok, call = some (b, ok) ∧
    (Holds w b effect.1 ∧ ok = effect.2 ∨ memory = false ∧ ok = false ∧ Holds w b l)

namespace Holds

variable [Zero α] {a : nsVoidArray α} {l ys : List α} {aIndex : ℤ}

/-- The first step of a call that may need a larger buffer. -/
theorem room (h : Holds w a l) (memory : Bool) (full : Prop) [Decidable full]
    (need : ℤ) {g : ℤ}
    (hgrow : full → CanGrow w a.GetArraySize g ∧ need ≤ a.GetArraySize + g)
    (hfits : ¬ full → need ≤ a.GetArraySize) :
    ∃ b ok, (if full then a.GrowArrayBy w memory g else some (a, true)) = some (b, ok) ∧
      Holds w b l ∧ (ok = true → need ≤ b.GetArraySize) ∧ (ok = false → memory = false) := by
  split_ifs with hfull
  · obtain ⟨hcan, hneed⟩ := hgrow hfull
    obtain ⟨b, ok, hb, hres⟩ := h.GrowArrayBy memory hcan
    exact ⟨b, ok, hb, hres.holds, fun hok => hneed.trans (hres.of_ok hok).1,
      fun hok => (hres.of_not_ok hok).1⟩
  · exact ⟨a, true, rfl, h, fun _ => hfits hfull, by simp⟩

theorem InsertElementAt (h : Holds w a l) (memory : Bool) (aElement : α)
    (hindex : -2 ^ 31 ≤ aIndex ∧ aIndex < 2 ^ 31)
    (hroom : 0 ≤ aIndex → aIndex ≤ l.length → l.length < a.GetArraySize ∨
      CanGrow w a.GetArraySize 1) :
    Does w memory l (Lists.InsertElementsAt l [aElement] aIndex)
      (a.InsertElementAt w memory aElement aIndex) := by
  have hlt := h.allocatable.lt
  have hle := h.length_le
  unfold nsVoidArray.InsertElementAt Lists.InsertElementsAt
  simp only [h.Count_eq, uint32_lt_iff (n := l.length) (k := aIndex) (by omega) hindex]
  by_cases hvalid : 0 ≤ aIndex ∧ aIndex ≤ l.length
  · rw [if_neg (not_not.mpr hvalid), if_pos hvalid]
    obtain ⟨i, rfl⟩ := Int.eq_ofNat_of_zero_le hvalid.1
    have hi : i ≤ l.length := by omega
    obtain ⟨b, ok, hb, hholds, hneed, hmem⟩ := h.room memory
      (a.GetArraySize ≤ l.length) (l.length + 1)
      (fun hfull => ⟨(hroom hvalid.1 hvalid.2).resolve_left (by omega), by omega⟩) (by omega)
    simp only [hb]
    cases ok with
    | false => exact ⟨b, false, rfl, .inr ⟨hmem rfl, rfl, hholds⟩⟩
    | true =>
      have hsize := hneed rfl
      obtain ⟨m, hm⟩ := b.exists_impl (by omega)
      have hbuf := hholds.of_impl m hm
      rw [nsVoidArray.GetArraySize_eq hm, hbuf.size_eq] at hsize
      have hslide := nsVoidArray.slide_eq (k := 1) hm hi (by omega)
      rw [Nat.cast_one] at hslide
      simp only [Option.bind_eq_bind, Option.bind_some, if_true, hslide]
      rw [nsVoidArray.setElement_withImpl hm (by simp only [Block.size_moved]; omega)]
      simp only [Option.bind_some, nsVoidArray.setCount_withImpl hm, nsVoidArray.Count_withImpl hm]
      refine ⟨_, true, rfl, .inl ⟨hholds.write hm rfl ?_ ?_ ?_, rfl⟩⟩
      · refine hbuf.starts.insert hi (fun k x hk => ?_) fun k hk => ?_
        · obtain ⟨rfl, rfl⟩ : k = 0 ∧ aElement = x := by simpa using List.getElem?_eq_some_iff.mp hk
          exact Block.put_self
        · rw [Block.put_of_ne (by simp at hk; omega)]
          rfl
      · simp [hbuf.count_eq]
        omega
      · simp
        omega
  · rw [if_pos hvalid, if_neg hvalid]
    exact ⟨a, false, rfl, .inl ⟨h, rfl⟩⟩

/-- The first `i` elements were copied to the place `k`. -/
structure Copied (k : ℕ) (ys : List α) (b b' : Block α) (i : ℕ) : Prop where
  size_eq : b'.size = b.size
  inside : ∀ j x, j < i → ys[j]? = some x → b'.cell (k + j) = x
  outside : ∀ c, c < k ∨ k + i ≤ c → b'.cell c = b.cell c

omit [Zero α] in
theorem Copied.next {k i : ℕ} {b b' : Block α} {x : α} (h : Copied k ys b b' i)
    (hx : ys[i]? = some x) : Copied k ys b (b'.put (k + i) x) (i + 1) where
  size_eq := h.size_eq
  inside j y hj hy := by
    rcases Nat.lt_succ_iff_lt_or_eq.mp hj with hlt | rfl
    · rw [Block.put_of_ne (by omega)]
      exact h.inside j y hlt hy
    · rw [Block.put_self]
      exact Option.some.inj (hx.symm.trans hy)
  outside c hc := by
    rw [Block.put_of_ne (by omega)]
    exact h.outside c (by omega)

omit [Zero α] in
theorem copyElements {a : nsVoidArray α} {m : Impl α} {other : Option (nsVoidArray α)} {k : ℕ}
    (hm : a.impl = some m) (hroom : k + ys.length ≤ m.mArray.size)
    (hread : ∀ i x b, ys[i]? = some x → Copied k ys m.mArray b i → ∀ c : ℤ,
      ∃ o, (other.getD (a.withImpl { m with mArray := b, mCount := c })).impl = some o ∧
        o.mArray.get i = some x) (n : ℕ) :
    ∀ (i : ℕ) (b : Block α) (c : ℤ), i + n = ys.length → Copied k ys m.mArray b i →
      ∃ b', nsVoidArray.copyElements other (a.withImpl { m with mArray := b, mCount := c })
          (k + i : ℕ) i n =
        some (a.withImpl { m with mArray := b', mCount := c + n }) ∧
        Copied k ys m.mArray b' ys.length := by
  induction n with
  | zero =>
    rintro i b c hi hb
    refine ⟨b, by simp [nsVoidArray.copyElements], ?_⟩
    rwa [← hi]
  | succ n ih =>
    intro i b c hi hb
    obtain ⟨x, hx⟩ : ∃ x, ys[i]? = some x := ⟨_, List.getElem?_eq_getElem (by omega)⟩
    obtain ⟨o, ho, hget⟩ := hread i x b hx hb c
    obtain ⟨b', hb', hcopied⟩ := ih (i + 1) (b.put (k + i) x) (c + 1) (by omega) (hb.next hx)
    refine ⟨b', ?_, hcopied⟩
    simp only [nsVoidArray.copyElements, ho, hget, Option.bind_eq_bind, Option.bind_some]
    rw [nsVoidArray.setElement_withImpl hm (by simp only [hb.size_eq]; omega)]
    simp only [Option.bind_some, nsVoidArray.setCount_withImpl hm, nsVoidArray.Count_withImpl hm]
    rw [show ((k + i : ℕ) : ℤ) + 1 = (k + (i + 1) : ℕ) by omega, hb']
    congr 3
    omega

omit [Zero α] in
/-- An element of an array can be read. -/
theorem get_impl {o : nsVoidArray α} {i : ℕ} {x : α} (h : Holds w o ys) (hx : ys[i]? = some x) :
    ∃ m, o.impl = some m ∧ m.mArray.get i = some x := by
  have hlt := (List.getElem?_eq_some_iff.mp hx).1
  cases hm : o.impl with
  | none =>
    obtain rfl := h.of_null hm
    simp at hlt
  | some m =>
    have hbuf := h.of_impl m hm
    have hle := hbuf.length_le
    exact ⟨m, rfl, by rw [Block.get_of_lt (by omega), hbuf.starts i x hx]⟩

/-- The elements of another array, or of the array itself in front of the first or behind the last
of its elements. -/
theorem InsertElementsAt (h : Holds w a l) (memory : Bool) {other : Option (nsVoidArray α)}
    (hother : ∀ o, other = some o → Holds w o ys)
    (hself : other = none → ys = l ∧ (aIndex ≤ 0 ∨ l.length ≤ aIndex))
    (hindex : -2 ^ 31 ≤ aIndex ∧ aIndex < 2 ^ 31)
    (hroom : 0 ≤ aIndex → aIndex ≤ l.length → l.length + ys.length ≤ a.GetArraySize ∨
      CanGrow w a.GetArraySize ys.length) :
    Does w memory l (Lists.InsertElementsAt l ys aIndex)
      (a.InsertElementsAt w memory other aIndex) := by
  have hlt := h.allocatable.lt
  have hle := h.length_le
  have hys : (other.getD a).Count = ys.length ∧ (ys.length : ℤ) < 2 ^ 30 := by
    cases other with
    | none =>
      obtain ⟨rfl, -⟩ := hself rfl
      exact ⟨h.Count_eq, by omega⟩
    | some o =>
      have ho := hother o rfl
      have hlt := ho.allocatable.lt
      have hle := ho.length_le
      exact ⟨ho.Count_eq, by omega⟩
  obtain ⟨hcount, hyslt⟩ := hys
  unfold nsVoidArray.InsertElementsAt Lists.InsertElementsAt
  simp only [h.Count_eq, hcount, uint32_lt_iff (n := l.length) (k := aIndex) (by omega) hindex]
  by_cases hvalid : 0 ≤ aIndex ∧ aIndex ≤ l.length
  swap
  · rw [if_pos hvalid, if_neg hvalid]
    exact ⟨a, false, rfl, .inl ⟨h, rfl⟩⟩
  rw [if_neg (not_not.mpr hvalid), if_pos hvalid, int32_of_bounds (by omega) (by omega)]
  obtain ⟨k, rfl⟩ := Int.eq_ofNat_of_zero_le hvalid.1
  have hk : k ≤ l.length := by omega
  obtain ⟨b, ok, hb, hholds, hneed, hmem⟩ := h.room memory
    (a.GetArraySize < l.length + ys.length) (l.length + ys.length)
    (fun hfull => ⟨(hroom hvalid.1 hvalid.2).resolve_left (by omega), by omega⟩) (by omega)
  simp only [hb]
  cases ok with
  | false => exact ⟨b, false, rfl, .inr ⟨hmem rfl, rfl, hholds⟩⟩
  | true =>
    have hsize := hneed rfl
    simp only [Option.bind_eq_bind, Option.bind_some, if_true, Int.toNat_natCast]
    cases hm : b.impl with
    | none =>
      -- nothing goes into an array without a buffer
      obtain rfl := hholds.of_null hm
      rw [nsVoidArray.GetArraySize, hm] at hsize
      obtain rfl : ys = [] := List.eq_nil_of_length_eq_zero (by simpa using hsize)
      obtain rfl : k = 0 := by simpa using hk
      exact ⟨b, true, rfl, .inl ⟨by simpa using hholds, rfl⟩⟩
    | some m =>
      have hbuf := hholds.of_impl m hm
      rw [nsVoidArray.GetArraySize_eq hm, hbuf.size_eq] at hsize
      rw [nsVoidArray.slide_eq hm hk (by omega)]
      obtain ⟨cells, hcells⟩ : ∃ c, c = m.mArray.moved (k + ys.length) k (l.length - k) := ⟨_, rfl⟩
      have hsame : cells.size = m.mArray.size := by rw [hcells, Block.size_moved]
      rw [← hcells]
      have hread : ∀ i x c', ys[i]? = some x →
          Copied k ys cells c' i → ∀ c : ℤ,
          ∃ o, (other.getD ((b.withImpl { m with mArray := cells }).withImpl
              { m with mArray := c', mCount := c })).impl = some o ∧
            o.mArray.get i = some x := by
        intro i x c' hx hcopied c
        have hi := (List.getElem?_eq_some_iff.mp hx).1
        cases other with
        | some o => exact (hother o rfl).get_impl hx
        | none =>
          obtain ⟨rfl, hends⟩ := hself rfl
          refine ⟨_, nsVoidArray.impl_withImpl (nsVoidArray.impl_withImpl hm), ?_⟩
          rw [Block.get_of_lt (by rw [hcopied.size_eq, hsame]; omega),
            hcopied.outside i (by omega), hcells, Block.moved_outside (by omega),
            hbuf.starts i x hx]
      have himpl : (b.withImpl { m with mArray := cells }).impl = some { m with mArray := cells } :=
        nsVoidArray.impl_withImpl hm
      have hfits : k + ys.length ≤ cells.size := by omega
      obtain ⟨c, hc, hcopied⟩ := copyElements himpl hfits hread ys.length 0 cells m.mCount
        (Nat.zero_add _) ⟨rfl, by simp, fun _ _ => rfl⟩
      simp only [Nat.add_zero, nsVoidArray.withImpl_withImpl] at hc
      simp only [Option.bind_some, hc]
      refine ⟨_, true, rfl, .inl ⟨hholds.write hm ?_ ?_ ?_ ?_, rfl⟩⟩
      · exact hcopied.size_eq.trans hsame
      · subst hcells
        exact hbuf.starts.insert hk
          (fun i x hx => hcopied.inside i x (List.getElem?_eq_some_iff.mp hx).1 hx)
          fun i hi => hcopied.outside i hi
      · simp [hbuf.count_eq]
        omega
      · simp
        omega

theorem ReplaceElementAt (h : Holds w a l) (memory : Bool) (aElement : α)
    (hindex : -2 ^ 31 ≤ aIndex ∧ aIndex < 2 ^ 31)
    (hroom : 0 ≤ aIndex → aIndex < a.GetArraySize ∨
      CanGrow w a.GetArraySize (aIndex + 1 - l.length)) :
    Does w memory l (Lists.ReplaceElementAt l aElement aIndex)
      (a.ReplaceElementAt w memory aElement aIndex) := by
  have hpos := h.allocatable.1
  have hlt := h.allocatable.lt
  have hle := h.length_le
  unfold nsVoidArray.ReplaceElementAt Lists.ReplaceElementAt
  simp only [h.Count_eq, uint32_le_iff (n := a.GetArraySize) (k := aIndex) (by omega) hindex]
  by_cases hneg : aIndex < 0
  · rw [if_pos hneg, if_pos hneg]
    exact ⟨a, false, rfl, .inl ⟨h, rfl⟩⟩
  rw [if_neg hneg, if_neg hneg]
  obtain ⟨i, rfl⟩ := Int.eq_ofNat_of_zero_le (Int.not_lt.mp hneg)
  have hi : (i : ℤ) + 1 < 2 ^ 31 := by
    rcases hroom (by omega) with hfits | hcan
    · omega
    · have := hcan.bounds.2
      omega
  rw [int32_of_bounds (x := i + 1) (by omega) hi, int32_of_bounds (by omega) (by omega)]
  obtain ⟨b, ok, hb, hholds, hneed, hmem⟩ := h.room memory
    (¬ (0 ≤ (i : ℤ) ∧ i < a.GetArraySize)) (i + 1) (g := i + 1 - l.length)
    (fun hfull => ⟨(hroom (by omega)).resolve_left (by omega), by omega⟩) (by omega)
  simp only [hb]
  cases ok with
  | false => exact ⟨b, false, rfl, .inr ⟨hmem rfl, rfl, hholds⟩⟩
  | true =>
    have hsize := hneed rfl
    obtain ⟨m, hm⟩ := nsVoidArray.exists_impl (a := b) (by omega)
    have hbuf := hholds.of_impl m hm
    have hlen := hbuf.length_le
    rw [nsVoidArray.GetArraySize_eq hm, hbuf.size_eq] at hsize
    simp only [Option.bind_eq_bind, Option.bind_some, if_true]
    rw [nsVoidArray.setElement_eq hm (by omega)]
    simp only [Option.bind_some, nsVoidArray.impl_withImpl hm, hbuf.count_eq]
    by_cases hin : (i : ℤ) < l.length
    · rw [if_pos hin, if_neg (by omega)]
      refine ⟨_, true, rfl, .inl ⟨hholds.write hm rfl hbuf.starts.put ?_ ?_, rfl⟩⟩
      · simp
      · simpa using hlen
    · rw [if_neg hin, if_pos (by omega)]
      have hclear : (if (l.length : ℤ) < i then
          clearAt (m.mArray.put i aElement) l.length (i - l.length)
          else some (m.mArray.put i aElement)) =
          some ((m.mArray.put i aElement).filled l.length (i - l.length) 0) := by
        split_ifs with hgap
        · rw [clearAt, if_pos (by omega)]
          rw [show ((i : ℤ) - l.length).toNat = i - l.length by omega, Int.toNat_natCast]
          exact Block.fill_of_le (by simp only [Block.size_put]; omega)
        · rw [show i - l.length = 0 by omega, Block.filled_zero]
      rw [hclear]
      simp only [Option.bind_some, nsVoidArray.withImpl_withImpl]
      refine ⟨_, true, rfl, .inl ⟨hholds.write hm rfl (hbuf.starts.pad (by omega)) ?_ ?_, rfl⟩⟩
      · simp
        omega
      · simp
        omega

omit [Zero α] in
theorem MoveElement (h : Holds w a l) (memory : Bool) {aFrom aTo : ℤ}
    (hindex : aTo = aFrom ∨ l.length ≤ aFrom ∨ l.length ≤ aTo ∨ 0 ≤ aFrom ∧ 0 ≤ aTo) :
    Does w memory l (Lists.MoveElement l aFrom aTo) (a.MoveElement aFrom aTo) := by
  unfold nsVoidArray.MoveElement Lists.MoveElement
  rw [h.Count_eq]
  by_cases hsame : aTo = aFrom
  · rw [if_pos hsame, if_pos hsame]
    exact ⟨a, true, rfl, .inl ⟨h, rfl⟩⟩
  rw [if_neg hsame, if_neg hsame]
  by_cases hout : (l.length : ℤ) ≤ aTo ∨ l.length ≤ aFrom
  · rw [dif_neg (by omega), if_pos hout]
    exact ⟨a, false, rfl, .inl ⟨h, rfl⟩⟩
  obtain ⟨i, rfl⟩ := Int.eq_ofNat_of_zero_le (show 0 ≤ aFrom by omega)
  obtain ⟨j, rfl⟩ := Int.eq_ofNat_of_zero_le (show 0 ≤ aTo by omega)
  have hi : i < l.length := by omega
  have hj : j < l.length := by omega
  rw [dif_pos (by omega), if_neg hout]
  cases hm : a.impl with
  | none => simp [h.of_null hm] at hi
  | some m =>
    have hbuf := h.of_impl m hm
    have hle := hbuf.length_le
    have hget : getAt m.mArray i = some l[i] := by
      rw [getAt, if_pos (by omega), Int.toNat_natCast, Block.get_of_lt (by omega)]
      exact congrArg some (hbuf.starts i _ (List.getElem?_eq_getElem hi))
    have hlen : ((l.eraseIdx i).insertIdx j l[i]).length = l.length := by
      have herase := List.length_eraseIdx_of_lt hi
      rw [List.length_insertIdx_of_le_length (by omega), herase]
      omega
    simp only [Option.bind_eq_bind, Option.bind_some, hget, Int.toNat_natCast]
    by_cases hup : j < i
    · rw [if_pos (by omega), show (j : ℤ) + 1 = (j + 1 : ℕ) by omega,
        show (i : ℤ) - j = (i - j : ℕ) by omega,
        nsVoidArray.memmove_eq hm (by omega) (by omega)]
      simp only [Option.bind_some]
      rw [nsVoidArray.setElement_withImpl hm (by simp only [Block.size_moved]; omega)]
      refine ⟨_, true, rfl, .inl ⟨h.write hm rfl ?_ (by rw [hlen]; exact hbuf.count_eq)
        (by rw [hlen]; exact hle), rfl⟩⟩
      refine hbuf.starts.moveElement hi hj fun k => ?_
      split_ifs with hkj hin hdown
      · rw [hkj, Block.put_self]
      · rw [Block.put_of_ne hkj, Block.moved_inside (by omega) (by omega)]
        congr 1
        omega
      · omega
      · rw [Block.put_of_ne hkj, Block.moved_outside (by omega)]
    · rw [if_neg (by omega), show (i : ℤ) + 1 = (i + 1 : ℕ) by omega,
        show (j : ℤ) - i = (j - i : ℕ) by omega,
        nsVoidArray.memmove_eq hm (by omega) (by omega)]
      simp only [Option.bind_some]
      rw [nsVoidArray.setElement_withImpl hm (by simp only [Block.size_moved]; omega)]
      refine ⟨_, true, rfl, .inl ⟨h.write hm rfl ?_ (by rw [hlen]; exact hbuf.count_eq)
        (by rw [hlen]; exact hle), rfl⟩⟩
      refine hbuf.starts.moveElement hi hj fun k => ?_
      split_ifs with hkj hin hdown
      · rw [hkj, Block.put_self]
      · omega
      · rw [Block.put_of_ne hkj, Block.moved_inside (by omega) (by omega)]
        congr 1
        omega
      · rw [Block.put_of_ne hkj, Block.moved_outside (by omega)]

omit [Zero α] in
theorem RemoveElementsAt (h : Holds w a l) (memory : Bool) {aCount : ℤ}
    (hindex : -2 ^ 31 ≤ aIndex ∧ aIndex < 2 ^ 31)
    (hcount : 0 ≤ aIndex → aIndex < l.length → 0 ≤ aCount ∧ aCount + aIndex < 2 ^ 31) :
    Does w memory l (Lists.RemoveElementsAt l aIndex aCount)
      (a.RemoveElementsAt aIndex aCount) := by
  have hlt := h.allocatable.lt
  have hle := h.length_le
  unfold nsVoidArray.RemoveElementsAt Lists.RemoveElementsAt
  simp only [h.Count_eq, uint32_le_iff (n := l.length) (k := aIndex) (by omega) hindex]
  by_cases hvalid : 0 ≤ aIndex ∧ aIndex < l.length
  swap
  · rw [if_pos hvalid, if_neg hvalid]
    exact ⟨a, false, rfl, .inl ⟨h, rfl⟩⟩
  rw [if_neg (not_not.mpr hvalid), if_pos hvalid]
  obtain ⟨hpos, hsum⟩ := hcount hvalid.1 hvalid.2
  obtain ⟨i, rfl⟩ := Int.eq_ofNat_of_zero_le hvalid.1
  obtain ⟨n, rfl⟩ := Int.eq_ofNat_of_zero_le hpos
  have hwrap : int32 (n + i) = n + i := int32_of_bounds (by omega) (by omega)
  -- the elements that there are
  obtain ⟨c, hc, hdrop⟩ : ∃ c, c = min n (l.length - i) ∧ l.drop (i + n) = l.drop (i + c) := by
    refine ⟨_, rfl, ?_⟩
    rcases Nat.le_total n (l.length - i) with hmin | hmin
    · rw [Nat.min_eq_left hmin]
    · rw [Nat.min_eq_right hmin, List.drop_eq_nil_of_le (by omega),
        List.drop_eq_nil_of_le (by omega)]
  have hclip : (if (l.length : ℤ) < n + i then (l.length : ℤ) - i else n) = c := by
    split_ifs <;> omega
  simp only [hwrap, hclip, Int.toNat_natCast, hdrop]
  cases hm : a.impl with
  | none =>
    obtain rfl := h.of_null hm
    simp at hvalid
    omega
  | some m =>
    have hbuf := h.of_impl m hm
    have hlen := hbuf.length_le
    have hslide : (if (i : ℤ) < int32 (l.length - c) then
        a.memmove i (i + c) (int32 (l.length - (i + c))) else some a) =
        some (a.withImpl { m with mArray := m.mArray.moved i (i + c) (l.length - (i + c)) }) := by
      rw [int32_of_bounds (by omega) (by omega)]
      split_ifs with hmove
      · rw [int32_of_bounds (by omega) (by omega), ← Nat.cast_add, ← Nat.cast_sub (by omega)]
        exact nsVoidArray.memmove_eq hm (by omega) (by omega)
      · rw [show l.length - (i + c) = 0 by omega, Block.moved_zero, nsVoidArray.withImpl_self hm]
    simp only [hslide, Option.bind_eq_bind, Option.bind_some, nsVoidArray.setCount_withImpl hm]
    refine ⟨_, true, rfl, .inl ⟨h.write hm rfl (hbuf.starts.remove (by omega)) ?_ ?_, rfl⟩⟩
    · rw [int32_of_bounds (by omega) (by omega)]
      simp
      omega
    · simp
      omega

/-- A size that is not positive, that is ignored or that is large enough. -/
theorem SizeTo (h : Holds w a l) (memory : Bool) {aSize : ℤ}
    (hsize : aSize ≤ 0 ∨ aSize = a.GetArraySize ∨ a.IsArrayOwner = true ∧ aSize < l.length ∨
      l.length ≤ aSize ∧ Allocatable w aSize) :
    Does w memory l (Lists.SizeTo l aSize) (a.virtualSizeTo w memory aSize) := by
  unfold Lists.SizeTo
  split_ifs with hneg
  · obtain ⟨b, ok, hb, -, hnil, hok⟩ := h.virtualSizeTo_nonpos memory hneg
    exact ⟨b, ok, hb, .inl ⟨hnil, hok⟩⟩
  have hlarge : l.length ≤ aSize ∧ Allocatable w aSize →
      Does w memory l (l, true) (a.virtualSizeTo w memory aSize) := by
    rintro ⟨hle, halloc⟩
    obtain ⟨b, ok, hb, hres⟩ := h.virtualSizeTo_large memory (by omega) hle halloc
    refine ⟨b, ok, hb, ?_⟩
    cases ok with
    | true => exact .inl ⟨hres.holds, rfl⟩
    | false => exact .inr ⟨(hres.of_not_ok rfl).1, rfl, hres.holds⟩
  rcases hsize with hneg' | hsame | ⟨howner, hsmall⟩ | hfits
  · omega
  · exact hlarge ⟨by rw [hsame]; exact h.length_le, by rw [hsame]; exact h.allocatable⟩
  · obtain ⟨b, ok, hb, rfl, hok⟩ := h.virtualSizeTo_small memory howner (by omega) hsmall
    exact ⟨b, ok, hb, .inl ⟨h, hok⟩⟩
  · exact hlarge hfits

end Holds

end Kompozer.Ds

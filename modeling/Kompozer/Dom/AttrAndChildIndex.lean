import Kompozer.Dom.AttrAndChildKept

/-! The search for the index of a child. It begins at the cached index and goes outward from
there, to one side and the other in turn, until it runs into an end of the list. -/

namespace Kompozer.Dom.AttrAndChild

variable {A V C : Type} [DecidableEq C]

/-- The index of a child in a list, and -1 where the child is not in it. -/
def IsIndexOf (children : List C) (aPossibleChild : C) (index : ℤ) : Prop :=
  (index = -1 ∧ aPossibleChild ∉ children) ∨
    ∃ i : ℕ, index = i ∧ children[i]? = some aPossibleChild

/-- None of the children from one index to another is the one that is looked for. -/
def Absent (children : List C) (aPossibleChild : C) (lo hi : ℤ) : Prop :=
  ∀ i : ℕ, lo ≤ i → i < hi → children[i]? ≠ some aPossibleChild

/-- What a loop over some of the children finds. -/
def Searched (children : List C) (aPossibleChild : C) (lo hi : ℤ) : Option ℤ → Prop
  | some index => ∃ i : ℕ, index = i ∧ children[i]? = some aPossibleChild
  | none => Absent children aPossibleChild lo hi

section Absent
omit [DecidableEq C]
variable {children : List C} {c : C} {lo mid hi : ℤ}

theorem Absent.of_le (h : hi ≤ lo) : Absent children c lo hi := by
  intro i hlo hhi
  omega

theorem Absent.append (h : Absent children c lo mid) (h' : Absent children c mid hi) :
    Absent children c lo hi := by
  intro i hlo hhi
  by_cases hmid : (i : ℤ) < mid
  · exact h i hlo hmid
  · exact h' i (by omega) hhi

theorem Absent.single {i : ℕ} (h : children[i]? ≠ some c) : Absent children c i (i + 1) := by
  intro j hlo hhi
  rwa [show j = i by omega]

theorem Searched.isIndexOf {r : Option ℤ} (h : Searched children c 0 children.length r) :
    IsIndexOf children c (r.getD (-1)) := by
  cases r with
  | some index => exact .inr h
  | none =>
    refine .inl ⟨rfl, fun hmem => ?_⟩
    obtain ⟨i, hi, hget⟩ := List.getElem_of_mem hmem
    exact h i (by omega) (by omega) (List.getElem?_eq_some_iff.mpr ⟨hi, hget⟩)

end Absent

namespace Impl.Holds

variable {impl : Impl A V C} {l : Lists A V C} (h : impl.Holds l) {c : C}
include h

theorem isChild_eq {i : ℕ} (hi : i < l.children.length) :
    impl.isChild c i = some (decide (l.children[i]? = some c)) := by
  have hget := List.getElem?_eq_getElem hi
  unfold isChild
  rw [if_pos (Int.natCast_nonneg i), Int.toNat_natCast, h.childAt_eq hget, hget]
  simp

theorem seekUp_spec : ∀ k (i : ℕ), l.children.length - i < k →
    ∃ r, impl.seekUp c l.children.length k i = some r ∧
      Searched l.children c i l.children.length r
  | 0, i, hk => absurd hk (Nat.not_lt_zero _)
  | k + 1, i, hk => by
    unfold seekUp
    split_ifs with hlt
    · rw [h.isChild_eq (by omega)]
      by_cases hget : l.children[i]? = some c
      · exact ⟨some i, by simp [hget], i, rfl, hget⟩
      · obtain ⟨r, hr, hsearched⟩ := seekUp_spec k (i + 1) (by omega)
        refine ⟨r, ?_, ?_⟩
        · simpa [hget] using hr
        · cases r with
          | some index => exact hsearched
          | none => exact (Absent.single hget).append hsearched
    · exact ⟨none, rfl, .of_le (by omega)⟩

theorem seekDown_spec : ∀ k (i : ℕ), i ≤ l.children.length → i < k →
    ∃ r, impl.seekDown c k (i - 1 : ℤ) = some r ∧ Searched l.children c 0 i r
  | 0, i, _, hk => absurd hk (Nat.not_lt_zero i)
  | k + 1, 0, _, _ => by
    refine ⟨none, ?_, .of_le (Int.le_refl 0)⟩
    unfold seekDown
    rfl
  | k + 1, i + 1, hle, hk => by
    have hcast : ((i + 1 : ℕ) - 1 : ℤ) = i := by omega
    unfold seekDown
    rw [hcast, if_pos (Int.natCast_nonneg i), h.isChild_eq (by omega)]
    by_cases hget : l.children[i]? = some c
    · exact ⟨some i, by simp [hget], i, rfl, hget⟩
    · obtain ⟨r, hr, hsearched⟩ := seekDown_spec k i (by omega) (by omega)
      refine ⟨r, ?_, ?_⟩
      · simpa [hget] using hr
      · cases r with
        | some index => exact hsearched
        | none =>
          have hsingle := Absent.single hget
          exact Absent.append hsearched (by exact_mod_cast hsingle)

end Impl.Holds

/-- The loop that seeks outward has left out the children from `lo` to `hi`, and is on the one
side of them or the other. -/
def Outward (lo hi cursor inc sign : ℤ) : Prop :=
  (sign = 1 ∧ cursor = lo - 1 ∧ cursor + inc = hi) ∨
    (sign = -1 ∧ cursor = hi ∧ cursor + inc = lo - 1)

/-- Where the loop that seeks outward stops: at the child, or at one end, with all children left
out up to the place where the last loop begins. -/
def Stopped (children : List C) (aPossibleChild : C) : Impl.Stop → Prop
  | .found index => ∃ i : ℕ, index = i ∧ children[i]? = some aPossibleChild
  | .edge cursor inc sign =>
    (sign = 1 ∧ ∃ n : ℕ, cursor + inc = n ∧ Absent children aPossibleChild 0 n) ∨
      (sign = -1 ∧ ∃ n : ℕ, cursor + inc = n - 1 ∧ n ≤ children.length ∧
        Absent children aPossibleChild n children.length)

namespace Impl.Holds

variable {impl : Impl A V C} {l : Lists A V C} (h : impl.Holds l) {c : C}
include h

theorem seekOutward_spec : ∀ (k : ℕ) (lo hi cursor inc sign : ℤ), 0 ≤ lo → lo ≤ hi →
    hi ≤ l.children.length → l.children.length - (hi - lo) < k → Outward lo hi cursor inc sign →
    Absent l.children c lo hi →
    ∃ stop, impl.seekOutward c l.children.length k cursor inc sign = some stop ∧
      Stopped l.children c stop
  | 0, lo, hi, _, _, _, hlo, hle, hhi, hk, _, _ => by omega
  | k + 1, lo, hi, cursor, inc, sign, hlo, hle, hhi, hk, hout, habsent => by
    unfold seekOutward
    by_cases hin : 0 ≤ cursor ∧ cursor < l.children.length
    · obtain ⟨i, rfl⟩ := Int.eq_ofNat_of_zero_le hin.1
      rw [if_pos hin, h.isChild_eq (by omega)]
      by_cases hget : l.children[i]? = some c
      · exact ⟨.found i, by simp [hget], i, rfl, hget⟩
      · have hsingle := Absent.single hget
        simp only [hget, decide_false, Option.bind_eq_bind, Option.bind_some, Bool.false_eq_true,
          if_false]
        rcases hout with ⟨rfl, hcursor, hinc⟩ | ⟨rfl, hcursor, hinc⟩
        · apply seekOutward_spec k (lo - 1) hi _ _ _ (by omega) (by omega) hhi (by omega)
            (.inr ⟨rfl, hinc, by omega⟩)
          rw [hcursor, Int.sub_add_cancel] at hsingle
          exact hsingle.append habsent
        · apply seekOutward_spec k lo (hi + 1) _ _ _ hlo (by omega) (by omega) (by omega)
            (.inl ⟨rfl, hinc, by omega⟩)
          rw [hcursor] at hsingle
          exact habsent.append hsingle
    · rw [if_neg hin]
      refine ⟨.edge cursor inc sign, rfl, ?_⟩
      rcases hout with ⟨rfl, hcursor, hinc⟩ | ⟨rfl, hcursor, hinc⟩
      · obtain ⟨n, rfl⟩ := Int.eq_ofNat_of_zero_le (Int.le_trans hlo hle)
        have hzero : lo = 0 := by omega
        subst hzero
        exact .inl ⟨rfl, n, hinc, habsent⟩
      · obtain ⟨n, rfl⟩ := Int.eq_ofNat_of_zero_le hlo
        have hlast : hi = l.children.length := by omega
        subst hlast
        exact .inr ⟨rfl, n, hinc, by omega, habsent⟩

/-- Wherever the search begins, it goes over all children. -/
theorem searchFrom_spec (cursor : ℤ) (hlow : -1 ≤ cursor)
    (hcursor : cursor < l.children.length) :
    ∃ r, impl.searchFrom c l.children.length cursor = some r ∧
      Searched l.children c 0 l.children.length r := by
  have hstart := h.seekOutward_spec (c := c) (l.children.length + 1) (cursor + 1) (cursor + 1)
    cursor 1 1 (by omega) (Int.le_refl _) (by omega) (by omega)
    (.inl ⟨rfl, by omega, rfl⟩) (.of_le (Int.le_refl _))
  unfold searchFrom
  rw [Int.toNat_natCast]
  obtain ⟨stop, hstop, hstopped⟩ := hstart
  rw [hstop]
  cases stop with
  | found index => exact ⟨some index, rfl, hstopped⟩
  | edge cursor inc sign =>
    rcases hstopped with ⟨rfl, n, hinc, habsent⟩ | ⟨rfl, n, hinc, hle, habsent⟩
    · obtain ⟨r, hr, hsearched⟩ := h.seekUp_spec (c := c) (l.children.length + 1) n (by omega)
      refine ⟨r, ?_, ?_⟩
      · simpa [hinc] using hr
      · cases r with
        | some index => exact hsearched
        | none => exact habsent.append hsearched
    · obtain ⟨r, hr, hsearched⟩ :=
        h.seekDown_spec (c := c) (l.children.length + 1) n hle (by omega)
      refine ⟨r, ?_, ?_⟩
      · simpa [hinc] using hr
      · cases r with
        | some index => exact hsearched
        | none => exact hsearched.append habsent

end Impl.Holds

omit [DecidableEq C] in
theorem getIndexFromCache_ge (cache : IndexCache) (this : Address) :
    -1 ≤ GetIndexFromCache cache this := by
  unfold GetIndexFromCache
  split
  · next i _ => exact Int.le_trans (by decide) (cache i).nonneg
  · exact Int.le_refl _

/-- Whatever the cache holds, the index that is found is the index of the child. -/
theorem nsAttrAndChildArray.Kept.indexOfChild {a : nsAttrAndChildArray A V C} {l : Lists A V C}
    (h : a.Kept l) (this : Address) (cache : IndexCache) (c : C) :
    ∃ r, a.IndexOfChild this cache c = some r ∧ IsIndexOf l.children c r.1 := by
  have hcount := h.childCount
  unfold Kept at h
  unfold IndexOfChild
  cases himpl : a.mImpl with
  | none =>
    rw [himpl] at h
    cases h
    exact ⟨_, rfl, .inl ⟨rfl, List.not_mem_nil⟩⟩
  | some impl =>
    rw [himpl] at h
    dsimp only
    rw [hcount]
    by_cases hlimit : INDEX_CACHE_CHILD_LIMIT ≤ (l.children.length : ℤ)
    · rw [if_pos hlimit]
      have hge := getIndexFromCache_ge cache this
      obtain ⟨r, hr, hsearched⟩ := h.searchFrom_spec (c := c)
        (if (l.children.length : ℤ) ≤ GetIndexFromCache cache this then -1
          else GetIndexFromCache cache this) (by split_ifs <;> omega) (by split_ifs <;> omega)
      rw [hr]
      cases r with
      | some index => exact ⟨_, rfl, hsearched.isIndexOf⟩
      | none => exact ⟨_, rfl, hsearched.isIndexOf⟩
    · rw [if_neg hlimit]
      obtain ⟨r, hr, hsearched⟩ := h.seekUp_spec (c := c) (l.children.length + 1) 0 (by omega)
      rw [Int.toNat_natCast, show (0 : ℤ) = (0 : ℕ) from rfl, hr]
      cases r with
      | some index => exact ⟨_, rfl, hsearched.isIndexOf⟩
      | none => exact ⟨_, rfl, hsearched.isIndexOf⟩

end Kompozer.Dom.AttrAndChild

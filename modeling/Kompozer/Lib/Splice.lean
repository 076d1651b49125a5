import Mathlib.Data.List.InsertIdx
import Mathlib.Data.List.Nodup
import Mathlib.Tactic.Common
import Mathlib.Data.Int.Notation

/-! A list cut in front of a place: what inserting, removing and searching do there. -/

namespace Kompozer

universe u

section Splice
variable {α : Type u}

@[simp] theorem insertIdx_append_length (A B : List α) (a : α) :
    (A ++ B).insertIdx A.length a = A ++ a :: B := by
  induction A with
  | nil => simp
  | cons b A ih => simp [ih]

@[simp] theorem eraseIdx_append_length (A B : List α) (a : α) :
    (A ++ a :: B).eraseIdx A.length = A ++ B := by
  induction A with
  | nil => simp
  | cons b A ih => simp [ih]

theorem exists_cut {l : List α} {k : ℕ} (h : k ≤ l.length) :
    ∃ A B, l = A ++ B ∧ A.length = k :=
  ⟨l.take k, l.drop k, (List.take_append_drop k l).symm, by simp [h]⟩

theorem exists_cut_of_getElem? {l : List α} {k : ℕ} {a : α} (h : l[k]? = some a) :
    ∃ A B, l = A ++ a :: B ∧ A.length = k := by
  obtain ⟨hk, rfl⟩ := List.getElem?_eq_some_iff.mp h
  exact ⟨l.take k, l.drop (k + 1), by simp, by simp [Nat.le_of_lt hk]⟩

theorem not_mem_of_nodup_cut {A B : List α} {a : α} (h : (A ++ a :: B).Nodup) :
    a ∉ A ∧ a ∉ B := by
  obtain ⟨-, hB, hAB⟩ := List.nodup_append.mp h
  exact ⟨fun ha => hAB a ha a (by simp) rfl, (List.nodup_cons.mp hB).1⟩

variable [DecidableEq α]

theorem idxOf?_append_cons {A : List α} (B : List α) {a : α} (h : a ∉ A) :
    (A ++ a :: B).idxOf? a = some A.length := by
  induction A with
  | nil => simp [List.idxOf?_cons]
  | cons b A ih =>
    obtain ⟨hab, hA⟩ := not_or.mp (mt List.mem_cons.mpr h)
    simp [List.idxOf?_cons, ih hA, Ne.symm hab]

theorem exists_cut_of_idxOf? {l : List α} {k : ℕ} {a : α} (h : l.idxOf? a = some k) :
    ∃ A B, l = A ++ a :: B ∧ A.length = k ∧ a ∉ A := by
  have hmem : a ∈ l := by
    by_contra hn
    simp [List.idxOf?_eq_none_iff.mpr hn] at h
  obtain ⟨A, B, rfl, hA⟩ := List.eq_append_cons_of_mem hmem
  rw [idxOf?_append_cons B hA, Option.some.injEq] at h
  exact ⟨A, B, rfl, h, hA⟩

end Splice

end Kompozer

/-! Gaps of a list: the places between its entries, counted from the front. A change of the list
keeps a gap when the entries in front of it and behind it stay in front and behind. -/

namespace Kompozer.Gaps

variable {α : Type*}

/-! ### One entry that comes or goes -/

section Entry
variable [DecidableEq α]

/-- The gap `q` of `l'` is the gap `p` of `l` as far as the entries other than `x` go. -/
structure SameGap (x : α) (l l' : List α) (p q : ℤ) : Prop where
  nonneg : 0 ≤ q
  le : q ≤ l'.length
  front : (l'.take q.toNat).filter (· ≠ x) = (l.take p.toNat).filter (· ≠ x)
  back : (l'.drop q.toNat).filter (· ≠ x) = (l.drop p.toNat).filter (· ≠ x)

variable {x : α} {l l' l'' A B : List α} {p q r : ℤ}

theorem SameGap.refl (x : α) (h : 0 ≤ p) (hl : p ≤ l.length) : SameGap x l l p p := ⟨h, hl, rfl, rfl⟩

theorem SameGap.trans (h : SameGap x l l' p q) (h' : SameGap x l' l'' q r) :
    SameGap x l l'' p r :=
  ⟨h'.nonneg, h'.le, h'.front.trans h.front, h'.back.trans h.back⟩

theorem SameGap.symm (h : SameGap x l l' p q) (hp : 0 ≤ p) (hl : p ≤ l.length) :
    SameGap x l' l q p :=
  ⟨hp, hl, h.front.symm, h.back.symm⟩

/-- A gap in front of the entry, or right before it. -/
theorem sameGap_front (hp : 0 ≤ p) (hA : p ≤ A.length) :
    SameGap x (A ++ B) (A ++ x :: B) p p := by
  have h : p.toNat ≤ A.length := by omega
  refine ⟨hp, by simp; omega, ?_, ?_⟩
  · rw [List.take_append_of_le_length h, List.take_append_of_le_length h]
  · rw [List.drop_append_of_le_length h, List.drop_append_of_le_length h]
    simp

/-- A gap behind the entry moves by one. -/
theorem sameGap_back (hA : A.length ≤ p) (hl : p ≤ (A ++ B).length) :
    SameGap x (A ++ B) (A ++ x :: B) p (p + 1) := by
  rw [List.length_append] at hl
  obtain ⟨k, rfl⟩ : ∃ k : ℕ, p = A.length + k := ⟨(p - A.length).toNat, by omega⟩
  have hp : (A.length + k : ℤ).toNat = A.length + k := by omega
  have hq : (A.length + k + 1 : ℤ).toNat = A.length + (k + 1) := by omega
  refine ⟨by omega, by simp only [List.length_append, List.length_cons]; omega, ?_, ?_⟩
  · rw [hp, hq, List.take_length_add_append, List.take_length_add_append]
    simp
  · rw [hp, hq, List.drop_length_add_append, List.drop_length_add_append]
    rfl

/-- Where a gap goes when the entry is put in behind `A`. -/
theorem sameGap_insert (hp : 0 ≤ p) (hl : p ≤ (A ++ B).length) :
    SameGap x (A ++ B) (A ++ x :: B) p (if p ≤ A.length then p else p + 1) := by
  split_ifs with h
  · exact sameGap_front hp h
  · exact sameGap_back (by omega) hl

/-- Where a gap goes when the entry is taken out behind `A`. -/
theorem sameGap_erase (hp : 0 ≤ p) (hl : p ≤ (A ++ x :: B).length) :
    SameGap x (A ++ x :: B) (A ++ B) p (if p > A.length then p - 1 else p) := by
  simp only [List.length_append, List.length_cons] at hl
  split_ifs with h
  · have hback : SameGap x (A ++ B) (A ++ x :: B) (p - 1) p := by
      have := sameGap_back (x := x) (A := A) (B := B) (p := p - 1) (by omega)
        (by rw [List.length_append]; omega)
      rwa [Int.sub_add_cancel] at this
    exact hback.symm (by omega) (by rw [List.length_append]; omega)
  · exact (sameGap_front hp (by omega)).symm hp (by rw [List.length_append]; omega)

/-- The number of other entries in front of a gap. -/
theorem length_front (hA : x ∉ A) (hB : x ∉ B) (hq : 0 ≤ q) (hl : q ≤ (A ++ x :: B).length) :
    ((((A ++ x :: B).take q.toNat).filter (· ≠ x)).length : ℤ) =
      if q ≤ A.length then q else q - 1 := by
  have hself {C : List α} (hC : x ∉ C) : C.filter (· ≠ x) = C :=
    List.filter_eq_self.mpr fun a ha => decide_eq_true fun he : a = x => hC (he ▸ ha)
  have hsplit (k : ℕ) : x ∉ A.take k ∧ x ∉ B.take k :=
    ⟨fun h => hA (List.mem_of_mem_take h), fun h => hB (List.mem_of_mem_take h)⟩
  simp only [List.length_append, List.length_cons] at hl
  split_ifs with h
  · rw [List.take_append_of_le_length (by omega), hself (hsplit _).1, List.length_take]
    omega
  · obtain ⟨k, rfl⟩ : ∃ k : ℕ, q = A.length + (k + 1 : ℕ) :=
      ⟨(q - A.length - 1).toNat, by omega⟩
    have hk : (A.length + (k + 1 : ℕ) : ℤ).toNat = A.length + (k + 1) := by omega
    rw [hk, List.take_length_add_append, List.take_succ_cons, List.filter_append, hself hA,
      List.filter_cons_of_neg (by simp), hself (hsplit _).2, List.length_append, List.length_take]
    omega

/-- The gaps on the two sides of the entry are the only ones it keeps apart. -/
theorem SameGap.eq_or (hA : x ∉ A) (hB : x ∉ B) (h : SameGap x l (A ++ x :: B) p q)
    (h' : SameGap x l (A ++ x :: B) p r) :
    q = r ∨ (A.length ≤ q ∧ q ≤ A.length + 1) ∧ A.length ≤ r ∧ r ≤ A.length + 1 := by
  have hq := length_front hA hB h.nonneg h.le
  have hr := length_front hA hB h'.nonneg h'.le
  rw [h.front] at hq
  rw [h'.front] at hr
  have := hq.symm.trans hr
  split_ifs at this <;> omega

end Entry

/-! ### A stretch that goes -/

/-- The list without the stretch of `len` entries behind the first `o`. -/
def cut (o len : ℕ) (l : List α) : List α := l.take o ++ l.drop (o + len)

variable {l : List α} {o len p : ℕ}

/-- Where a gap goes when a stretch is taken out. -/
def cutGap (o len p : ℕ) : ℕ := if p ≤ o then p else if p ≤ o + len then o else p - len

/-- What is left in front of the gap is in front of it. -/
theorem take_cut (hl : o + len ≤ l.length) :
    (cut o len l).take (cutGap o len p) = cut o len (l.take p) := by
  have ho : (l.take o).length = o := by simp; omega
  rw [cut, cut, cutGap]
  split_ifs with h₁ h₂
  · rw [List.take_append_of_le_length (by omega), List.take_take, List.take_take,
      Nat.min_eq_left h₁, Nat.min_eq_right h₁, List.drop_eq_nil_of_le (by simp; omega),
      List.append_nil]
  · rw [List.take_append_of_le_length (by omega), List.take_take, List.take_take, Nat.min_self,
      Nat.min_eq_left (by omega), List.drop_eq_nil_of_le (by simp; omega), List.append_nil]
  · rw [List.take_append, ho, List.take_take, List.take_take, Nat.min_eq_right (by omega),
      Nat.min_eq_left (by omega), List.drop_take]
    congr 2
    omega

/-- What is left behind the gap is behind it. -/
theorem drop_cut (hl : o + len ≤ l.length) :
    (cut o len l).drop (cutGap o len p) =
      (l.take o).drop p ++ (l.drop (o + len)).drop (p - (o + len)) := by
  have ho : (l.take o).length = o := by simp; omega
  rw [cut, cutGap, List.drop_append, ho]
  split_ifs with h₁ h₂
  · rw [Nat.sub_eq_zero_of_le h₁, Nat.sub_eq_zero_of_le (by omega : p ≤ o + len)]
  · rw [Nat.sub_self, Nat.sub_eq_zero_of_le h₂, List.drop_eq_nil_of_le (by omega : _ ≤ o),
      List.drop_eq_nil_of_le (by omega : _ ≤ p)]
  · rw [List.drop_eq_nil_of_le (by omega : _ ≤ p - len),
      List.drop_eq_nil_of_le (by omega : _ ≤ p), Nat.sub_sub, Nat.add_comm len o]

end Kompozer.Gaps

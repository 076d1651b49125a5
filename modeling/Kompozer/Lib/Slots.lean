import Mathlib

/-! A row of slots of which the first ones are in use, each under a key of its own. A slot is
taken, written over, or closed with the last one that is in use. -/

namespace Kompozer

universe u v w

section Slots
variable {α : Type u} {κ : Type v} {s t : ℕ → α} {n i : ℕ} {a b : α}

/-- One of the first slots holds a value. -/
def InSlots (s : ℕ → α) (n : ℕ) (a : α) : Prop := ∃ i < n, s i = a

theorem inSlots_zero : ¬InSlots s 0 a := by
  rintro ⟨i, hi, -⟩
  omega

theorem inSlots_of_lt (h : i < n) : InSlots s n (s i) := ⟨i, h, rfl⟩

theorem InSlots.congr (h : ∀ i < n, s i = t i) : InSlots s n a ↔ InSlots t n a := by
  constructor
  · rintro ⟨i, hi, rfl⟩
    exact ⟨i, hi, (h i hi).symm⟩
  · rintro ⟨i, hi, rfl⟩
    exact ⟨i, hi, h i hi⟩

theorem inSlots_succ : InSlots s (n + 1) a ↔ InSlots s n a ∨ s n = a := by
  constructor
  · rintro ⟨i, hi, rfl⟩
    by_cases hn : i = n
    · subst hn
      exact .inr rfl
    · exact .inl ⟨i, by omega, rfl⟩
  · rintro (⟨i, hi, rfl⟩ | rfl)
    · exact ⟨i, by omega, rfl⟩
    · exact inSlots_of_lt (by omega)

theorem inSlots_update_of_le {k : ℕ} (h : n ≤ k) :
    InSlots (Function.update s k b) n a ↔ InSlots s n a := by
  apply InSlots.congr
  intro i hi
  exact Function.update_of_ne (by omega) _ _

/-- A value is put in the first free slot. -/
theorem inSlots_push : InSlots (Function.update s n b) (n + 1) a ↔ InSlots s n a ∨ a = b := by
  rw [inSlots_succ, inSlots_update_of_le (Nat.le_refl n), Function.update_self, eq_comm (a := b)]

/-! ### Keys -/

/-- No two of the first slots have the same key. -/
def Keyed (key : α → κ) (s : ℕ → α) (n : ℕ) : Prop :=
  ∀ i < n, ∀ j < n, key (s i) = key (s j) → i = j

variable {key : α → κ}

theorem Keyed.zero : Keyed key s 0 := by
  intro i hi
  omega

theorem Keyed.congr (h : ∀ i < n, s i = t i) (hs : Keyed key s n) : Keyed key t n := by
  intro i hi j hj hij
  rw [← h i hi, ← h j hj] at hij
  exact hs i hi j hj hij

/-- A value is held in one place only. -/
theorem Keyed.eq (h : Keyed key s n) (ha : InSlots s n a) (hb : InSlots s n b)
    (hab : key a = key b) : a = b := by
  obtain ⟨i, hi, rfl⟩ := ha
  obtain ⟨j, hj, rfl⟩ := hb
  rw [h i hi j hj hab]

theorem Keyed.push (h : Keyed key s n) (hb : ∀ a, InSlots s n a → key a ≠ key b) :
    Keyed key (Function.update s n b) (n + 1) := by
  intro i hi j hj hij
  by_cases hin : i = n
  · by_cases hjn : j = n
    · omega
    · subst hin
      rw [Function.update_self, Function.update_of_ne hjn] at hij
      exact absurd hij.symm (hb _ (inSlots_of_lt (by omega)))
  · by_cases hjn : j = n
    · subst hjn
      rw [Function.update_self, Function.update_of_ne hin] at hij
      exact absurd hij (hb _ (inSlots_of_lt (by omega)))
    · rw [Function.update_of_ne hin, Function.update_of_ne hjn] at hij
      exact h i (by omega) j (by omega) hij

/-- A value is written over another one. -/
theorem Keyed.inSlots_set (h : Keyed key s n) (hi : i < n) :
    InSlots (Function.update s i b) n a ↔ (InSlots s n a ∧ key a ≠ key (s i)) ∨ a = b := by
  constructor
  · rintro ⟨j, hj, rfl⟩
    by_cases hji : j = i
    · subst hji
      exact .inr (Function.update_self ..)
    · rw [Function.update_of_ne hji]
      exact .inl ⟨inSlots_of_lt hj, fun hkey => hji (h j hj i hi hkey)⟩
  · rintro (⟨⟨j, hj, rfl⟩, hkey⟩ | rfl)
    · have hji : j ≠ i := fun hji => hkey (by rw [hji])
      exact ⟨j, hj, Function.update_of_ne hji ..⟩
    · exact ⟨i, hi, Function.update_self ..⟩

theorem Keyed.set (h : Keyed key s n) (hi : i < n)
    (hb : ∀ a, InSlots s n a → key a = key b → key a = key (s i)) :
    Keyed key (Function.update s i b) n := by
  intro j hj k hk hjk
  by_cases hji : j = i
  · by_cases hki : k = i
    · omega
    · subst hji
      rw [Function.update_self, Function.update_of_ne hki] at hjk
      exact (h k hk j hj (hb _ (inSlots_of_lt hk) hjk.symm)).symm
  · by_cases hki : k = i
    · subst hki
      rw [Function.update_self, Function.update_of_ne hji] at hjk
      exact h j hj k hk (hb _ (inSlots_of_lt hj) hjk)
    · rw [Function.update_of_ne hji, Function.update_of_ne hki] at hjk
      exact h j hj k hk hjk

/-- The last value is moved into a slot, and the last slot is free. -/
theorem Keyed.inSlots_close {c : α} (h : Keyed key s (n + 1)) (hi : i < n + 1) :
    InSlots (Function.update (Function.update s i (s n)) n c) n a ↔
      InSlots s (n + 1) a ∧ key a ≠ key (s i) := by
  rw [inSlots_update_of_le (Nat.le_refl n)]
  constructor
  · rintro ⟨j, hj, rfl⟩
    by_cases hji : j = i
    · subst hji
      rw [Function.update_self]
      refine ⟨inSlots_of_lt (by omega), fun hkey => ?_⟩
      have := h n (by omega) j (by omega) hkey
      omega
    · rw [Function.update_of_ne hji]
      exact ⟨inSlots_of_lt (by omega), fun hkey => hji (h j (by omega) i hi hkey)⟩
  · rintro ⟨⟨j, hj, rfl⟩, hkey⟩
    have hji : j ≠ i := fun hji => hkey (by rw [hji])
    by_cases hjn : j = n
    · subst hjn
      exact ⟨i, by omega, Function.update_self ..⟩
    · exact ⟨j, by omega, Function.update_of_ne hji ..⟩

theorem Keyed.close {c : α} (h : Keyed key s (n + 1)) (hi : i < n + 1) :
    Keyed key (Function.update (Function.update s i (s n)) n c) n := by
  intro j hj k hk hjk
  rw [Function.update_of_ne (by omega : j ≠ n), Function.update_of_ne (by omega : k ≠ n)] at hjk
  by_cases hji : j = i
  · by_cases hki : k = i
    · omega
    · subst hji
      rw [Function.update_self, Function.update_of_ne hki] at hjk
      have := h n (by omega) k (by omega) hjk
      omega
  · by_cases hki : k = i
    · subst hki
      rw [Function.update_self, Function.update_of_ne hji] at hjk
      have := h j (by omega) n (by omega) hjk
      omega
    · rw [Function.update_of_ne hji, Function.update_of_ne hki] at hjk
      exact h j (by omega) k (by omega) hjk

/-! ### The greatest of a measure -/

variable {β : Type w} [LinearOrder β] {f : α → β} {z x : β}

/-- A bound that one of the values reaches, or the bottom if there are none. -/
structure IsTop (z : β) (f : α → β) (s : ℕ → α) (n : ℕ) (x : β) : Prop where
  le : ∀ a, InSlots s n a → f a ≤ x
  reached : x = z ∨ ∃ a, InSlots s n a ∧ f a = x

theorem IsTop.zero : IsTop z f s 0 z :=
  ⟨fun _ ha => absurd ha inSlots_zero, .inl rfl⟩

theorem IsTop.congr (h : ∀ i < n, s i = t i) (hs : IsTop z f s n x) : IsTop z f t n x := by
  constructor
  · intro a ha
    exact hs.le a ((InSlots.congr h).mpr ha)
  · rcases hs.reached with hz | ⟨a, ha, hx⟩
    · exact .inl hz
    · exact .inr ⟨a, (InSlots.congr h).mp ha, hx⟩

theorem IsTop.push (h : IsTop z f s n x) :
    IsTop z f (Function.update s n b) (n + 1) (if x < f b then f b else x) := by
  constructor
  · intro a ha
    rcases inSlots_push.mp ha with ha | rfl
    · have hax := h.le a ha
      split_ifs with hxb
      · exact (hax.trans_lt hxb).le
      · exact hax
    · split_ifs with hxb
      · exact le_rfl
      · exact not_lt.mp hxb
  · split_ifs with hxb
    · exact .inr ⟨b, inSlots_push.mpr (.inr rfl), rfl⟩
    · rcases h.reached with hz | ⟨a, ha, hx⟩
      · exact .inl hz
      · exact .inr ⟨a, inSlots_push.mpr (.inl ha), hx⟩

/-- The greatest stays the greatest if it is not what is written over. -/
theorem IsTop.set (h : IsTop z f s n x) (hkey : Keyed key s n) (hi : i < n)
    (hlt : f (s i) < if x < f b then f b else x) :
    IsTop z f (Function.update s i b) n (if x < f b then f b else x) := by
  have hset : ∀ a, InSlots (Function.update s i b) n a ↔ _ := fun a => hkey.inSlots_set hi
  constructor
  · intro a ha
    rcases (hset _).mp ha with ⟨ha, -⟩ | rfl
    · have hax := h.le a ha
      split_ifs with hxb
      · exact (hax.trans_lt hxb).le
      · exact hax
    · split_ifs with hxb
      · exact le_rfl
      · exact not_lt.mp hxb
  · split_ifs at hlt ⊢ with hxb
    · exact .inr ⟨b, (hset _).mpr (.inr rfl), rfl⟩
    · rcases h.reached with hz | ⟨a, ha, hx⟩
      · exact .inl hz
      · refine .inr ⟨a, (hset _).mpr (.inl ⟨ha, fun hk => ?_⟩), hx⟩
        have : a = s i := hkey.eq ha (inSlots_of_lt hi) hk
        rw [← this, hx] at hlt
        exact lt_irrefl _ hlt

/-- The greatest stays the greatest if it is not what is taken away. -/
theorem IsTop.close {c : α} (h : IsTop z f s (n + 1) x) (hkey : Keyed key s (n + 1))
    (hi : i < n + 1) (hlt : f (s i) < x) :
    IsTop z f (Function.update (Function.update s i (s n)) n c) n x := by
  constructor
  · intro a ha
    exact h.le a ((hkey.inSlots_close hi).mp ha).1
  · rcases h.reached with hz | ⟨a, ha, hx⟩
    · exact .inl hz
    · refine .inr ⟨a, (hkey.inSlots_close hi).mpr ⟨ha, fun hk => ?_⟩, hx⟩
      have : a = s i := hkey.eq ha (inSlots_of_lt hi) hk
      rw [← this, hx] at hlt
      exact lt_irrefl _ hlt

end Slots

end Kompozer

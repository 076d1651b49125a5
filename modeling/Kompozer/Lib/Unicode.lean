import Mathlib

/-! The encoding forms of Unicode, and texts that are cut between characters. UTF-8 is
`String.utf8EncodeChar`. -/

namespace Kompozer

universe u v

/-! ### Cuts between characters -/

section Cuts
variable {α : Type u} {β : Type v} (starts : β → Prop) (enc : α → List β)

/-- What stands for a character begins with a unit that begins nothing else. -/
def SelfStarting : Prop :=
  ∀ a, ∃ b t, enc a = b :: t ∧ starts b ∧ ∀ x ∈ t, ¬starts x

variable {starts enc}

theorem exists_fragment (h : SelfStarting starts enc) {s : List α} {f rest : List β}
    (hjoin : f ++ rest = s.flatMap enc) (hrest : ∀ b ∈ rest.head?, starts b) :
    ∃ s₁ s₂, s = s₁ ++ s₂ ∧ f = s₁.flatMap enc ∧ rest = s₂.flatMap enc := by
  induction s generalizing f with
  | nil =>
    obtain ⟨rfl, rfl⟩ := List.append_eq_nil_iff.mp hjoin
    exact ⟨[], [], rfl, rfl, rfl⟩
  | cons a s ih =>
    rw [List.flatMap_cons] at hjoin
    by_cases hf : f = []
    · subst hf
      exact ⟨[], a :: s, rfl, rfl, by rw [List.flatMap_cons]; exact hjoin⟩
    · obtain ⟨b, t, henc, hb, ht⟩ := h a
      rcases List.append_eq_append_iff.mp hjoin with ⟨e, he, hrest'⟩ | ⟨e, rfl, he⟩
      · -- the cut is inside what stands for `a`, so it is at its end
        have hnil : e = [] := by
          cases e with
          | nil => rfl
          | cons x e =>
            have hx : starts x := hrest x (by rw [hrest']; rfl)
            cases f with
            | nil => exact absurd rfl hf
            | cons y f =>
              rw [henc] at he
              obtain ⟨-, rfl⟩ := List.cons.inj he
              exact absurd hx (ht x (by simp))
        subst hnil
        rw [List.append_nil] at he
        exact ⟨[a], s, rfl, by rw [List.flatMap_singleton, he], hrest'⟩
      · obtain ⟨s₁, s₂, rfl, rfl, hs₂⟩ := ih he.symm
        exact ⟨a :: s₁, s₂, rfl, by rw [List.flatMap_cons], hs₂⟩

/-- A text cut in front of units that begin a character is cut between characters. -/
theorem exists_fragments (h : SelfStarting starts enc) {s : List α} {frags : List (List β)}
    (hjoin : frags.flatten = s.flatMap enc) (hcut : ∀ f ∈ frags, ∀ b ∈ f.head?, starts b) :
    ∃ ss : List (List α), ss.flatten = s ∧ frags = ss.map (·.flatMap enc) := by
  induction frags generalizing s with
  | nil =>
    refine ⟨[], ?_, rfl⟩
    cases s with
    | nil => rfl
    | cons a s =>
      obtain ⟨b, t, henc, -⟩ := h a
      rw [List.flatMap_cons, henc] at hjoin
      exact absurd hjoin (by simp)
  | cons f frags ih =>
    have hcut' := (List.forall_mem_cons.mp hcut).2
    have hhead : ∀ b ∈ frags.flatten.head?, starts b := by
      clear hjoin ih hcut
      induction frags with
      | nil => simp
      | cons g frags ih =>
        obtain ⟨hg, hfrags⟩ := List.forall_mem_cons.mp hcut'
        cases g with
        | nil => exact ih hfrags
        | cons x g => exact hg
    obtain ⟨s₁, s₂, rfl, rfl, hs₂⟩ := exists_fragment h hjoin hhead
    obtain ⟨ss, rfl, rfl⟩ := ih hs₂ hcut'
    exact ⟨s₁ :: ss, rfl, rfl⟩

end Cuts

/-! ### Numbers as bits -/

/-- The bits of a number from one place on. -/
theorem and_high (n k j : ℕ) : n &&& 2 ^ k * (2 ^ j - 1) = 2 ^ k * (n / 2 ^ k % 2 ^ j) := by
  apply Nat.eq_of_testBit_eq
  intro i
  rw [Nat.testBit_and, Nat.testBit_two_pow_mul, Nat.testBit_two_pow_mul, Nat.testBit_two_pow_sub_one,
    Nat.testBit_mod_two_pow, Nat.testBit_div_two_pow]
  by_cases hk : k ≤ i
  · rw [Nat.sub_add_cancel hk]
    simp [hk, Bool.and_comm]
  · simp [hk]

theorem or_low {k n : ℕ} (m : ℕ) (h : n < 2 ^ k) : 2 ^ k * m ||| n = 2 ^ k * m + n :=
  (Nat.two_pow_add_eq_or_of_lt h m).symm

/-! ### UTF-16 -/

/-- The code units of a character. -/
def utf16 (c : Char) : List UInt16 :=
  if c.toNat < 0x10000 then [.ofNat c.toNat]
  else [.ofNat (0xD800 + (c.toNat - 0x10000) / 0x400), .ofNat (0xDC00 + (c.toNat - 0x10000) % 0x400)]

/-- A character is a number below the surrogates or between them and the end. -/
theorem char_toNat (c : Char) : c.toNat < 0xD800 ∨ 0xDFFF < c.toNat ∧ c.toNat < 0x110000 := c.valid

theorem char_ext {c d : Char} (h : c.toNat = d.toNat) : c = d :=
  Char.ext (UInt32.toNat_inj.mp h)

end Kompozer

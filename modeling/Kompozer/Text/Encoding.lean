import Kompozer.Text.Utf8Utils

/-! What the tests and shifts of the conversions mean in numbers, and the round trips of well-formed
strings. -/

namespace Kompozer.Text

/-! ### Units of UTF-16 -/

theorem unit_one (c : UInt16) : (c &&& 0xFF80 == 0) = decide (c.toNat < 0x80) := by
  rw [Bool.eq_iff_iff, beq_iff_eq, decide_eq_true_eq, ← UInt16.toNat_inj, UInt16.toNat_and]
  have hmask := and_high c.toNat 7 9
  have hlt := c.toNat_lt
  simp only [UInt16.reduceToNat, Nat.reducePow, Nat.reduceSub, Nat.reduceMul] at hmask hlt ⊢
  omega

theorem unit_two (c : UInt16) : (c &&& 0xF800 == 0) = decide (c.toNat < 0x800) := by
  rw [Bool.eq_iff_iff, beq_iff_eq, decide_eq_true_eq, ← UInt16.toNat_inj, UInt16.toNat_and]
  have hmask := and_high c.toNat 11 5
  have hlt := c.toNat_lt
  simp only [UInt16.reduceToNat, Nat.reducePow, Nat.reduceSub, Nat.reduceMul] at hmask hlt ⊢
  omega

theorem surrogate_iff (c : UInt16) :
    IS_SURROGATE c = decide (0xD800 ≤ c.toNat ∧ c.toNat < 0xE000) := by
  rw [IS_SURROGATE, Bool.eq_iff_iff, beq_iff_eq, decide_eq_true_eq, ← UInt16.toNat_inj,
    UInt16.toNat_and]
  have hmask := and_high c.toNat 11 5
  have hlt := c.toNat_lt
  simp only [UInt16.reduceToNat, Nat.reducePow, Nat.reduceSub, Nat.reduceMul] at hmask hlt ⊢
  omega

theorem highSurrogate_iff (c : UInt16) :
    IS_HIGH_SURROGATE c = decide (0xD800 ≤ c.toNat ∧ c.toNat < 0xDC00) := by
  rw [IS_HIGH_SURROGATE, Bool.eq_iff_iff, beq_iff_eq, decide_eq_true_eq, ← UInt16.toNat_inj,
    UInt16.toNat_and]
  have hmask := and_high c.toNat 10 6
  have hlt := c.toNat_lt
  simp only [UInt16.reduceToNat, Nat.reducePow, Nat.reduceSub, Nat.reduceMul] at hmask hlt ⊢
  omega

theorem lowSurrogate_iff (c : UInt16) :
    IS_LOW_SURROGATE c = decide (0xDC00 ≤ c.toNat ∧ c.toNat < 0xE000) := by
  rw [IS_LOW_SURROGATE, Bool.eq_iff_iff, beq_iff_eq, decide_eq_true_eq, ← UInt16.toNat_inj,
    UInt16.toNat_and]
  have hmask := and_high c.toNat 10 6
  have hlt := c.toNat_lt
  simp only [UInt16.reduceToNat, Nat.reducePow, Nat.reduceSub, Nat.reduceMul] at hmask hlt ⊢
  omega

/-! ### Bytes of UTF-8 -/

theorem ascii_iff (c : UInt8) : isASCII c = decide (c.toNat < 0x80) := by
  rw [isASCII, Bool.eq_iff_iff, beq_iff_eq, decide_eq_true_eq, ← UInt8.toNat_inj, UInt8.toNat_and]
  have hmask := and_high c.toNat 7 1
  have hlt := c.toNat_lt
  simp only [UInt8.reduceToNat, Nat.reducePow, Nat.reduceSub, Nat.reduceMul] at hmask hlt ⊢
  omega

theorem inSeq_iff (c : UInt8) : isInSeq c = decide (0x80 ≤ c.toNat ∧ c.toNat < 0xC0) := by
  rw [isInSeq, Bool.eq_iff_iff, beq_iff_eq, decide_eq_true_eq, ← UInt8.toNat_inj, UInt8.toNat_and]
  have hmask := and_high c.toNat 6 2
  have hlt := c.toNat_lt
  simp only [UInt8.reduceToNat, Nat.reducePow, Nat.reduceSub, Nat.reduceMul] at hmask hlt ⊢
  omega

theorem trail_eq (n : UInt32) : trail n = UInt8.ofNat (n.toNat % 64 + 0x80) := by
  rw [← UInt8.toNat_inj, trail, UInt8.toNat_or, UInt32.toNat_toUInt8, UInt32.toNat_and]
  have hmod := Nat.and_two_pow_sub_one_eq_mod n.toNat 6
  have hor := or_low (k := 7) 1 (show n.toNat % 64 < 2 ^ 7 by omega)
  rw [Nat.and_comm] at hmod
  simp only [UInt8.reduceToNat, UInt32.reduceToNat, Nat.reducePow, Nat.reduceSub,
    Nat.reduceMul] at hmod hor ⊢
  rw [hmod, Nat.mod_eq_of_lt (by omega), hor, UInt8.toNat_ofNat']
  omega

/-- A first byte, with the high bits of a number. -/
theorem first_eq {k m : ℕ} {a b : UInt8} (ha : a.toNat = 2 ^ k * m) (hb : b.toNat < 2 ^ k) :
    a ||| b = UInt8.ofNat (b.toNat + 2 ^ k * m) := by
  have hlt := (a ||| b).toNat_lt
  rw [← UInt8.toNat_inj, UInt8.toNat_ofNat']
  rw [UInt8.toNat_or, ha, or_low m hb] at hlt ⊢
  omega

/-! ### One character in UTF-8 -/

theorem toNat_ucs4 {h l : UInt16} (hh : 0xD800 ≤ h.toNat ∧ h.toNat < 0xDC00)
    (hl : 0xDC00 ≤ l.toNat ∧ l.toNat < 0xE000) : (SURROGATE_TO_UCS4 h l).toNat =
      (h.toNat - 0xD800) * 0x400 + (l.toNat - 0xDC00) + 0x10000 := by
  have hmodh := Nat.and_two_pow_sub_one_eq_mod h.toNat 10
  have hmodl := Nat.and_two_pow_sub_one_eq_mod l.toNat 10
  simp only [SURROGATE_TO_UCS4, PLANE1_BASE, UInt32.toNat_add, UInt32.toNat_shiftLeft,
    UInt32.toNat_and, UInt16.toNat_toUInt32, UInt32.reduceToNat, Nat.reducePow, Nat.reduceSub,
    Nat.reduceMod, Nat.shiftLeft_eq] at hmodh hmodl ⊢
  omega

theorem toUTF8_one {c : UInt16} {p : List UInt16} (h : c.toNat < 0x80) :
    toUTF8 (c :: p) = c.toUInt8 :: toUTF8 p := by
  rw [toUTF8.eq_def]
  simp only [unit_one, h, decide_true, if_true]

theorem toUTF8_two {c : UInt16} {p : List UInt16} (h : 0x80 ≤ c.toNat) (h' : c.toNat < 0x800) :
    toUTF8 (c :: p) = [(0xC0 : UInt8) ||| (c >>> 6).toUInt8, trail c.toUInt32] ++ toUTF8 p := by
  rw [toUTF8.eq_def]
  simp only [unit_one, unit_two, Nat.not_lt.mpr h, h', decide_true, decide_false, if_true,
    Bool.false_eq_true, if_false]

theorem toUTF8_three {c : UInt16} {p : List UInt16} (h : 0x800 ≤ c.toNat)
    (h' : ¬(0xD800 ≤ c.toNat ∧ c.toNat < 0xE000)) : toUTF8 (c :: p) =
      [(0xE0 : UInt8) ||| (c >>> 12).toUInt8, trail (c >>> 6).toUInt32, trail c.toUInt32] ++
        toUTF8 p := by
  have h0 : ¬c.toNat < 0x80 := by omega
  rw [toUTF8.eq_def]
  simp only [unit_one, unit_two, surrogate_iff, h0, Nat.not_lt.mpr h, h', decide_false,
    Bool.not_false, if_true, Bool.false_eq_true, if_false]

theorem toUTF8_pair {c l : UInt16} {p : List UInt16} (hh : 0xD800 ≤ c.toNat ∧ c.toNat < 0xDC00)
    (hl : 0xDC00 ≤ l.toNat ∧ l.toNat < 0xE000) {ucs4 : UInt32} (hucs4 : SURROGATE_TO_UCS4 c l = ucs4) :
    toUTF8 (c :: l :: p) = [(0xF0 : UInt8) ||| (ucs4 >>> 18).toUInt8, trail (ucs4 >>> 12),
      trail (ucs4 >>> 6), trail ucs4] ++ toUTF8 p := by
  have h0 : ¬c.toNat < 0x80 := by omega
  have h1 : ¬c.toNat < 0x800 := by omega
  have h2 : 0xD800 ≤ c.toNat ∧ c.toNat < 0xE000 := by omega
  rw [toUTF8.eq_def]
  simp only [unit_one, unit_two, surrogate_iff, highSurrogate_iff, lowSurrogate_iff, h0, h1, h2, hh,
    hl, hucs4, and_self, decide_true, decide_false, Bool.not_true, if_true, Bool.false_eq_true,
    if_false]

/-- What is written for a character is its UTF-8. -/
theorem toUTF8_append (c : Char) (p : List UInt16) :
    toUTF8 (utf16 c ++ p) = String.utf8EncodeChar c ++ toUTF8 p := by
  have hchar := char_toNat c
  have hval : c.val.toNat = c.toNat := rfl
  rw [utf16, String.utf8EncodeChar, hval]
  by_cases hplane : c.toNat < 0x10000
  · obtain ⟨u, hu⟩ : ∃ u, u = UInt16.ofNat c.toNat := ⟨_, rfl⟩
    have hn : u.toNat = c.toNat := by
      rw [hu, UInt16.toNat_ofNat']
      omega
    have hlast : trail u.toUInt32 = UInt8.ofNat (c.toNat % 64 + 0x80) := by
      rw [trail_eq, UInt16.toNat_toUInt32, hn]
    rw [if_pos hplane, ← hu, List.singleton_append]
    by_cases h1 : c.toNat < 0x80
    · rw [if_pos (by omega), toUTF8_one (by omega), List.singleton_append]
      congr 1
      rw [← UInt8.toNat_inj, UInt16.toNat_toUInt8, UInt8.toNat_ofNat', hn]
    · rw [if_neg (by omega)]
      by_cases h2 : c.toNat < 0x800
      · have hshift : ((u >>> 6).toUInt8).toNat = c.toNat / 64 := by
          simp only [UInt16.toNat_toUInt8, UInt16.toNat_shiftRight, UInt16.reduceToNat, Nat.reduceMod,
            Nat.shiftRight_eq_div_pow, hn]
          omega
        rw [if_pos (by omega), toUTF8_two (by omega) (by omega), hlast,
          first_eq (k := 6) (m := 3) rfl (by omega), hshift]
        congr 3
        omega
      · have hshift : ((u >>> 12).toUInt8).toNat = c.toNat / 4096 := by
          simp only [UInt16.toNat_toUInt8, UInt16.toNat_shiftRight, UInt16.reduceToNat, Nat.reduceMod,
            Nat.shiftRight_eq_div_pow, hn]
          omega
        have hmid : trail (u >>> 6).toUInt32 = UInt8.ofNat (c.toNat / 64 % 64 + 0x80) := by
          rw [trail_eq, UInt16.toNat_toUInt32, UInt16.toNat_shiftRight, hn,
            Nat.shiftRight_eq_div_pow]
          rfl
        rw [if_neg (by omega), if_pos (by omega), toUTF8_three (by omega) (by omega), hlast, hmid,
          first_eq (k := 5) (m := 7) rfl (by omega), hshift]
        congr 3
        omega
  · obtain ⟨h, hh⟩ : ∃ h, h = UInt16.ofNat (0xD800 + (c.toNat - 0x10000) / 0x400) := ⟨_, rfl⟩
    obtain ⟨l, hl⟩ : ∃ l, l = UInt16.ofNat (0xDC00 + (c.toNat - 0x10000) % 0x400) := ⟨_, rfl⟩
    have hhn : h.toNat = 0xD800 + (c.toNat - 0x10000) / 0x400 := by
      rw [hh, UInt16.toNat_ofNat']
      omega
    have hln : l.toNat = 0xDC00 + (c.toNat - 0x10000) % 0x400 := by
      rw [hl, UInt16.toNat_ofNat']
      omega
    obtain ⟨ucs4, hucs4⟩ : ∃ n, SURROGATE_TO_UCS4 h l = n := ⟨_, rfl⟩
    have hn : ucs4.toNat = c.toNat := by
      rw [← hucs4, toNat_ucs4 (by omega) (by omega)]
      omega
    have hshift : ((ucs4 >>> 18).toUInt8).toNat = c.toNat / 262144 := by
      simp only [UInt32.toNat_toUInt8, UInt32.toNat_shiftRight, UInt32.reduceToNat, Nat.reduceMod,
        Nat.shiftRight_eq_div_pow, hn]
      omega
    have hsecond : trail (ucs4 >>> 12) = UInt8.ofNat (c.toNat / 4096 % 64 + 0x80) := by
      rw [trail_eq, UInt32.toNat_shiftRight, hn, Nat.shiftRight_eq_div_pow]
      rfl
    have hthird : trail (ucs4 >>> 6) = UInt8.ofNat (c.toNat / 64 % 64 + 0x80) := by
      rw [trail_eq, UInt32.toNat_shiftRight, hn, Nat.shiftRight_eq_div_pow]
      rfl
    rw [if_neg hplane, if_neg (by omega), if_neg (by omega), if_neg (by omega), ← hh, ← hl,
      List.cons_append, List.singleton_append, toUTF8_pair (by omega) (by omega) hucs4, trail_eq ucs4,
      hn, hsecond, hthird, first_eq (k := 4) (m := 15) rfl (by omega), hshift]
    congr 3
    omega

/-! ### One character in UTF-16 -/

theorem two_iff (c : UInt8) : is2byte c = decide (0xC0 ≤ c.toNat ∧ c.toNat < 0xE0) := by
  rw [is2byte, Bool.eq_iff_iff, beq_iff_eq, decide_eq_true_eq, ← UInt8.toNat_inj, UInt8.toNat_and]
  have hmask := and_high c.toNat 5 3
  have hlt := c.toNat_lt
  simp only [UInt8.reduceToNat, Nat.reducePow, Nat.reduceSub, Nat.reduceMul] at hmask hlt ⊢
  omega

theorem three_iff (c : UInt8) : is3byte c = decide (0xE0 ≤ c.toNat ∧ c.toNat < 0xF0) := by
  rw [is3byte, Bool.eq_iff_iff, beq_iff_eq, decide_eq_true_eq, ← UInt8.toNat_inj, UInt8.toNat_and]
  have hmask := and_high c.toNat 4 4
  have hlt := c.toNat_lt
  simp only [UInt8.reduceToNat, Nat.reducePow, Nat.reduceSub, Nat.reduceMul] at hmask hlt ⊢
  omega

theorem four_iff (c : UInt8) : is4byte c = decide (0xF0 ≤ c.toNat ∧ c.toNat < 0xF8) := by
  rw [is4byte, Bool.eq_iff_iff, beq_iff_eq, decide_eq_true_eq, ← UInt8.toNat_inj, UInt8.toNat_and]
  have hmask := and_high c.toNat 3 5
  have hlt := c.toNat_lt
  simp only [UInt8.reduceToNat, Nat.reducePow, Nat.reduceSub, Nat.reduceMul] at hmask hlt ⊢
  omega

theorem lead_two {c : UInt8} (h : 0xC0 ≤ c.toNat ∧ c.toNat < 0xE0) :
    ∃ v, lead c = some ⟨v, 1, 0x80⟩ ∧ v.toNat = 2 ^ 6 * (c.toNat % 32) := by
  refine ⟨_, by rw [lead, two_iff, decide_eq_true h, if_pos rfl], ?_⟩
  have hmask := and_high (c.toNat <<< 6 % 2 ^ 32) 6 5
  simp only [UInt32.toNat_and, UInt32.toNat_shiftLeft, UInt8.toNat_toUInt32, UInt32.reduceToNat,
    Nat.reduceMod, Nat.shiftLeft_eq, Nat.reducePow, Nat.reduceSub, Nat.reduceMul] at hmask ⊢
  omega

theorem lead_three {c : UInt8} (h : 0xE0 ≤ c.toNat ∧ c.toNat < 0xF0) :
    ∃ v, lead c = some ⟨v, 2, 0x800⟩ ∧ v.toNat = 2 ^ 12 * (c.toNat % 16) := by
  have h2 : ¬(0xC0 ≤ c.toNat ∧ c.toNat < 0xE0) := by omega
  refine ⟨_, by rw [lead, two_iff, three_iff, decide_eq_false h2, decide_eq_true h,
    if_neg Bool.false_ne_true, if_pos rfl], ?_⟩
  have hmask := and_high (c.toNat <<< 12 % 2 ^ 32) 12 4
  simp only [UInt32.toNat_and, UInt32.toNat_shiftLeft, UInt8.toNat_toUInt32, UInt32.reduceToNat,
    Nat.reduceMod, Nat.shiftLeft_eq, Nat.reducePow, Nat.reduceSub, Nat.reduceMul] at hmask ⊢
  omega

theorem lead_four {c : UInt8} (h : 0xF0 ≤ c.toNat ∧ c.toNat < 0xF8) :
    ∃ v, lead c = some ⟨v, 3, 0x10000⟩ ∧ v.toNat = 2 ^ 18 * (c.toNat % 8) := by
  have h2 : ¬(0xC0 ≤ c.toNat ∧ c.toNat < 0xE0) := by omega
  have h3 : ¬(0xE0 ≤ c.toNat ∧ c.toNat < 0xF0) := by omega
  refine ⟨_, by rw [lead, two_iff, three_iff, four_iff, decide_eq_false h2, decide_eq_false h3,
    decide_eq_true h, if_neg Bool.false_ne_true, if_neg Bool.false_ne_true, if_pos rfl], ?_⟩
  have hmask := and_high (c.toNat <<< 18 % 2 ^ 32) 16 5
  simp only [UInt32.toNat_and, UInt32.toNat_shiftLeft, UInt8.toNat_toUInt32, UInt32.reduceToNat,
    Nat.reduceMod, Nat.shiftLeft_eq, Nat.reducePow, Nat.reduceSub, Nat.reduceMul] at hmask ⊢
  omega

/-- One byte more of a sequence. -/
theorem continuation_next {state m : ℕ} {v : UInt32} {x : UInt8} (p : List UInt8) (hstate : state ≤ 4)
    (hv : v.toNat = 2 ^ (6 * state) * (64 * m)) (hx : 0x80 ≤ x.toNat ∧ x.toNat < 0xC0) :
    ∃ w, continuation (state + 1) v (x :: p) = continuation state w p ∧
      w.toNat = 2 ^ (6 * state) * (64 * m + x.toNat % 64) := by
  refine ⟨_, by rw [continuation, inSeq_iff, decide_eq_true hx, if_pos rfl], ?_⟩
  have hmod := Nat.and_two_pow_sub_one_eq_mod x.toNat 6
  have hpow : 2 ^ (6 * state) ≤ 2 ^ 24 := Nat.pow_le_pow_right (by omega) (by omega)
  have hlow : x.toNat % 64 * 2 ^ (6 * state) < 2 ^ (6 * state + 6) := by
    rw [Nat.pow_add, Nat.mul_comm]
    exact (Nat.mul_lt_mul_left (Nat.two_pow_pos _)).mpr (by omega)
  have hsum := or_low m hlow
  have hcut : 2 ^ (6 * state + 6) ≤ 2 ^ 30 := Nat.pow_le_pow_right (by omega) (by omega)
  rw [UInt32.toNat_or, UInt32.toNat_shiftLeft, UInt32.toNat_and, UInt8.toNat_toUInt32, hv,
    UInt32.toNat_ofNat', Nat.shiftLeft_eq]
  have hmask : x.toNat &&& (0x3F : UInt32).toNat = x.toNat % 64 := hmod
  have hshift : state * 6 % 2 ^ 32 % 32 = 6 * state := by omega
  rw [hmask, hshift, Nat.mod_eq_of_lt (by omega)]
  rw [Nat.pow_add, Nat.mul_assoc] at hsum
  rw [show 64 * m = 2 ^ 6 * m from rfl, hsum, Nat.mul_add, Nat.mul_comm (x.toNat % 64)]

theorem surrogates_eq {v : UInt32} {n : ℕ} (hv : v.toNat = n) (h : 0x10000 ≤ n) (h' : n < 0x110000) :
    H_SURROGATE v = UInt16.ofNat (0xD800 + (n - 0x10000) / 0x400) ∧
      L_SURROGATE v = UInt16.ofNat (0xDC00 + (n - 0x10000) % 0x400) := by
  have hsub : (v - 0x10000).toNat = n - 0x10000 := by
    rw [UInt32.toNat_sub_of_le _ _ (by rw [UInt32.le_iff_toNat_le, hv]; exact h), hv]
    rfl
  have hmod := Nat.and_two_pow_sub_one_eq_mod (n - 0x10000) 10
  have hhigh := or_low 27 (show (n - 0x10000) / 0x400 < 2 ^ 11 by omega)
  have hlow := or_low 55 (show (n - 0x10000) % 0x400 < 2 ^ 10 by omega)
  simp only [H_SURROGATE, L_SURROGATE, PLANE1_BASE, ← UInt16.toNat_inj, UInt16.toNat_or,
    UInt32.toNat_toUInt16, UInt32.toNat_shiftRight, UInt32.toNat_and, hsub, UInt32.reduceToNat,
    UInt16.reduceToNat, UInt16.toNat_ofNat', Nat.reduceMod, Nat.shiftRight_eq_div_pow, Nat.reducePow,
    Nat.reduceMul, Nat.reduceSub] at hmod hhigh hlow ⊢
  rw [Nat.or_comm] at hhigh hlow
  constructor
  · rw [Nat.mod_eq_of_lt (by omega), hhigh]
    omega
  · rw [hmod, Nat.mod_eq_of_lt (by omega), hlow]
    omega

/-- A character that UTF-8 may stand for and that the decoder keeps. -/
def Ordinary (c : Char) : Prop := c.toNat ≠ 0xFFFE ∧ c.toNat ≠ 0xFFFF

instance : DecidablePred Ordinary := fun c =>
  inferInstanceAs (Decidable (c.toNat ≠ 0xFFFE ∧ c.toNat ≠ 0xFFFF))

/-- The units that are written for a character. -/
def decoded (c : Char) : List UInt16 := if Ordinary c then utf16 c else [UCS2_REPLACEMENT_CHAR]

theorem emit_char {c : Char} {v low : UInt32} (hv : v.toNat = c.toNat)
    (hlow : low.toNat ≤ c.toNat) : emit v low = decoded c := by
  have hchar := char_toNat c
  have hshort : v.toNat < 0x10000 → [v.toUInt16] = utf16 c := by
    intro hplane
    rw [utf16, if_pos (by omega), ← hv]
    rfl
  unfold emit decoded
  simp only [UInt32.lt_iff_toNat_lt, UInt32.le_iff_toNat_le, ← UInt32.toNat_inj, hv, PLANE1_BASE,
    UCS_END, UInt32.reduceToNat]
  rw [if_neg (by omega)]
  by_cases h3 : c.toNat = 0xFFFE ∨ c.toNat = 0xFFFF
  · have hno : ¬Ordinary c := fun hc => h3.elim hc.1 hc.2
    rw [if_neg (by omega), if_neg (by omega), if_pos h3, if_neg hno]
  · have hc : Ordinary c := not_or.mp h3
    rw [if_neg h3, if_pos hc]
    split_ifs with h1 h2 h4 h5
    · exact hshort (by omega)
    · omega
    · omega
    · rw [utf16, if_neg (by omega), (surrogates_eq hv (by omega) (by omega)).1,
        (surrogates_eq hv (by omega) (by omega)).2]
    · exact hshort (by omega)

theorem toUTF16_sequence {c : UInt8} {p q : List UInt8} {l : Lead} {v : UInt32}
    (hascii : 0x80 ≤ c.toNat) (hlead : lead c = some l)
    (hcont : continuation l.state l.ucs4 p = some (v, q)) :
    toUTF16 (c :: p) = (emit v l.minUcs4 ++ (toUTF16 q).1, (toUTF16 q).2) := by
  rw [toUTF16, ascii_iff, decide_eq_false (Nat.not_lt.mpr hascii), if_neg Bool.false_ne_true]
  simp only [hlead]
  split
  · rename_i h
    simp [hcont] at h
  · rename_i h
    obtain ⟨rfl, rfl⟩ := Prod.mk.inj (Option.some.inj (hcont.symm.trans h))
    rfl

/-- What is written for the UTF-8 of a character. -/
theorem toUTF16_append (c : Char) (p : List UInt8) :
    toUTF16 (String.utf8EncodeChar c ++ p) = (decoded c ++ (toUTF16 p).1, (toUTF16 p).2) := by
  have hchar := char_toNat c
  have hval : c.val.toNat = c.toNat := rfl
  have hbyte : ∀ n, n < 256 → (UInt8.ofNat n).toNat = n := by
    intro n hn
    rw [UInt8.toNat_ofNat', Nat.mod_eq_of_lt hn]
  obtain ⟨n, hn⟩ : ∃ n, n = c.toNat := ⟨_, rfl⟩
  rw [String.utf8EncodeChar, hval, ← hn]
  rw [← hn] at hchar
  split_ifs with h1 h2 h3
  · rw [List.singleton_append, toUTF16, ascii_iff, hbyte _ (by omega), decide_eq_true (by omega),
      if_pos rfl, decoded, if_pos ⟨by omega, by omega⟩, utf16, if_pos (by omega), ← hn]
    have hunit : (UInt8.ofNat n).toUInt16 = UInt16.ofNat n := by
      rw [← UInt16.toNat_inj, UInt8.toNat_toUInt16, hbyte _ (by omega), UInt16.toNat_ofNat']
      omega
    rw [hunit]
    rfl
  · obtain ⟨v, hlead, hv⟩ := @lead_two (.ofNat (n / 64 % 32 + 0xC0)) (by rw [hbyte] <;> omega)
    rw [hbyte _ (by omega)] at hv
    obtain ⟨w, hnext, hw⟩ := @continuation_next 0 (n / 64) v (.ofNat (n % 64 + 0x80)) p (by omega)
      (by omega) (by rw [hbyte] <;> omega)
    rw [hbyte _ (by omega)] at hw
    have hlow : (0x80 : UInt32).toNat ≤ c.toNat := show 0x80 ≤ c.toNat by omega
    have hwn : w.toNat = c.toNat := by omega
    refine (toUTF16_sequence (by rw [hbyte] <;> omega) hlead hnext).trans ?_
    rw [emit_char hwn hlow]
  · obtain ⟨v, hlead, hv⟩ := @lead_three (.ofNat (n / 4096 % 16 + 0xE0)) (by rw [hbyte] <;> omega)
    rw [hbyte _ (by omega)] at hv
    obtain ⟨w, hnext, hw⟩ := @continuation_next 1 (n / 4096) v (.ofNat (n / 64 % 64 + 0x80))
      (.ofNat (n % 64 + 0x80) :: p) (by omega) (by omega) (by rw [hbyte] <;> omega)
    rw [hbyte _ (by omega)] at hw
    obtain ⟨x, hlast, hx⟩ := @continuation_next 0 (n / 64) w (.ofNat (n % 64 + 0x80)) p (by omega)
      (by omega) (by rw [hbyte] <;> omega)
    rw [hbyte _ (by omega)] at hx
    have hlow : (0x800 : UInt32).toNat ≤ c.toNat := show 0x800 ≤ c.toNat by omega
    have hxn : x.toNat = c.toNat := by omega
    refine (toUTF16_sequence (by rw [hbyte] <;> omega) hlead (hnext.trans hlast)).trans ?_
    rw [emit_char hxn hlow]
  · obtain ⟨v, hlead, hv⟩ := @lead_four (.ofNat (n / 262144 % 8 + 0xF0)) (by rw [hbyte] <;> omega)
    rw [hbyte _ (by omega)] at hv
    obtain ⟨w, hnext, hw⟩ := @continuation_next 2 (n / 262144) v (.ofNat (n / 4096 % 64 + 0x80))
      (.ofNat (n / 64 % 64 + 0x80) :: .ofNat (n % 64 + 0x80) :: p) (by omega) (by omega)
      (by rw [hbyte] <;> omega)
    rw [hbyte _ (by omega)] at hw
    obtain ⟨x, hnext', hx⟩ := @continuation_next 1 (n / 4096) w (.ofNat (n / 64 % 64 + 0x80))
      (.ofNat (n % 64 + 0x80) :: p) (by omega) (by omega) (by rw [hbyte] <;> omega)
    rw [hbyte _ (by omega)] at hx
    obtain ⟨y, hlast, hy⟩ := @continuation_next 0 (n / 64) x (.ofNat (n % 64 + 0x80)) p (by omega)
      (by omega) (by rw [hbyte] <;> omega)
    rw [hbyte _ (by omega)] at hy
    have hlow : (0x10000 : UInt32).toNat ≤ c.toNat := show 0x10000 ≤ c.toNat by omega
    have hyn : y.toNat = c.toNat := by omega
    refine (toUTF16_sequence (by rw [hbyte] <;> omega) hlead
      (hnext.trans (hnext'.trans hlast))).trans ?_
    rw [emit_char hyn hlow]

/-! ### Strings -/

/-- Only the second unit of a pair is a low surrogate. -/
theorem utf16_selfStarting : SelfStarting (fun u => IS_LOW_SURROGATE u = false) utf16 := by
  intro c
  have hchar := char_toNat c
  unfold utf16
  split_ifs with hplane
  · refine ⟨_, [], rfl, ?_, by simp⟩
    show IS_LOW_SURROGATE _ = false
    rw [lowSurrogate_iff, UInt16.toNat_ofNat', decide_eq_false]
    omega
  · refine ⟨_, _, rfl, ?_, ?_⟩
    · show IS_LOW_SURROGATE _ = false
      rw [lowSurrogate_iff, UInt16.toNat_ofNat', decide_eq_false]
      omega
    · intro u hu
      show ¬IS_LOW_SURROGATE u = false
      rw [List.mem_singleton.mp hu, lowSurrogate_iff, UInt16.toNat_ofNat', decide_eq_true (by omega)]
      exact Bool.noConfusion

/-- Only the bytes behind the first one continue a sequence. -/
theorem utf8_selfStarting : SelfStarting (fun b => isInSeq b = false) String.utf8EncodeChar := by
  intro c
  have hchar := char_toNat c
  have hval : c.val.toNat = c.toNat := rfl
  have hfirst : ∀ n, n < 256 → ¬(0x80 ≤ n ∧ n < 0xC0) → isInSeq (.ofNat n) = false := by
    intro n hn hseq
    rw [inSeq_iff, UInt8.toNat_ofNat', Nat.mod_eq_of_lt hn, decide_eq_false hseq]
  have htrail : ∀ n, ¬isInSeq (.ofNat (n % 64 + 0x80)) = false := by
    intro n
    rw [inSeq_iff, UInt8.toNat_ofNat', decide_eq_true (by omega)]
    exact Bool.noConfusion
  rw [String.utf8EncodeChar, hval]
  split_ifs with h1 h2 h3
  · exact ⟨_, [], rfl, hfirst _ (by omega) (by omega), by simp⟩
  · refine ⟨_, _, rfl, hfirst _ (by omega) (by omega), ?_⟩
    intro b hb
    rw [List.mem_singleton.mp hb]
    exact htrail _
  · refine ⟨_, _, rfl, hfirst _ (by omega) (by omega), ?_⟩
    intro b hb
    simp only [List.mem_cons, List.not_mem_nil, or_false] at hb
    rcases hb with rfl | rfl <;> exact htrail _
  · refine ⟨_, _, rfl, hfirst _ (by omega) (by omega), ?_⟩
    intro b hb
    simp only [List.mem_cons, List.not_mem_nil, or_false] at hb
    rcases hb with rfl | rfl | rfl <;> exact htrail _

theorem toUTF8_text (s : List Char) : toUTF8 (s.flatMap utf16) = s.flatMap String.utf8EncodeChar := by
  induction s with
  | nil => rfl
  | cons c s ih => rw [List.flatMap_cons, toUTF8_append, ih, List.flatMap_cons]

theorem toUTF16_text (s : List Char) :
    toUTF16 (s.flatMap String.utf8EncodeChar) = (s.flatMap decoded, false) := by
  induction s with
  | nil => rw [List.flatMap_nil, toUTF16, List.flatMap_nil]
  | cons c s ih => rw [List.flatMap_cons, toUTF16_append, ih, List.flatMap_cons]

theorem ConvertUTF16toUTF8_text (ss : List (List Char)) :
    ConvertUTF16toUTF8 (ss.map (·.flatMap utf16)) = ss.flatten.flatMap String.utf8EncodeChar := by
  rw [ConvertUTF16toUTF8, List.flatMap_map]
  induction ss with
  | nil => rfl
  | cons s ss ih => rw [List.flatMap_cons, toUTF8_text, ih, List.flatten_cons, List.flatMap_append]

namespace ConvertUTF8toUTF16

theorem foldl_write_text (ss : List (List Char)) (out : List UInt16) :
    (ss.map (·.flatMap String.utf8EncodeChar)).foldl write ⟨out, false⟩ =
      ⟨out ++ ss.flatten.flatMap decoded, false⟩ := by
  induction ss generalizing out with
  | nil => simp
  | cons s ss ih =>
    rw [List.map_cons, List.foldl_cons, write, if_neg Bool.false_ne_true, toUTF16_text, ih,
      List.flatten_cons, List.flatMap_append, List.append_assoc]

theorem writeAll_text (ss : List (List Char)) :
    writeAll (ss.map (·.flatMap String.utf8EncodeChar)) = ⟨ss.flatten.flatMap decoded, false⟩ :=
  foldl_write_text ss []

end ConvertUTF8toUTF16

theorem flatMap_decoded {s : List Char} (hs : ∀ c ∈ s, Ordinary c) :
    s.flatMap decoded = s.flatMap utf16 := by
  apply List.flatMap_congr
  intro c hc
  rw [decoded, if_pos (hs c hc)]

/-- The conversions are inverse on well-formed strings without `U+FFFE` and `U+FFFF`, and what is
written in UTF-8 is the encoding form, whatever the fragments that cut no character. -/
theorem conversions_inverse (s : List Char) (hs : ∀ c ∈ s, Ordinary c) :
    (∀ frags : List (List UInt16), frags.flatten = s.flatMap utf16 →
      (∀ f ∈ frags, ∀ u ∈ f.head?, IS_LOW_SURROGATE u = false) →
      ConvertUTF16toUTF8 frags = s.flatMap String.utf8EncodeChar ∧
        ConvertUTF8toUTF16.writeAll [ConvertUTF16toUTF8 frags] = ⟨frags.flatten, false⟩) ∧
    ∀ frags : List (List UInt8), frags.flatten = s.flatMap String.utf8EncodeChar →
      (∀ f ∈ frags, ∀ b ∈ f.head?, isInSeq b = false) →
      ConvertUTF8toUTF16.writeAll frags = ⟨s.flatMap utf16, false⟩ ∧
        ConvertUTF16toUTF8 [(ConvertUTF8toUTF16.writeAll frags).mBuffer] = frags.flatten := by
  constructor
  · intro frags hjoin hcut
    obtain ⟨ss, rfl, rfl⟩ := exists_fragments utf16_selfStarting hjoin hcut
    have hone := ConvertUTF8toUTF16.writeAll_text [ss.flatten]
    rw [List.map_singleton, List.flatten_singleton, flatMap_decoded hs] at hone
    rw [ConvertUTF16toUTF8_text, hone, hjoin]
    exact ⟨rfl, rfl⟩
  · intro frags hjoin hcut
    obtain ⟨ss, rfl, rfl⟩ := exists_fragments utf8_selfStarting hjoin hcut
    have hone := ConvertUTF16toUTF8_text [ss.flatten]
    rw [List.map_singleton, List.flatten_singleton] at hone
    rw [ConvertUTF8toUTF16.writeAll_text, flatMap_decoded hs, hone, hjoin]
    exact ⟨rfl, rfl⟩

theorem conversions_inverse_pair :
    (ConvertUTF16toUTF8 [[0x61], [0xD83D, 0xDE00]] = [0x61, 0xF0, 0x9F, 0x98, 0x80] ∧
      ConvertUTF8toUTF16.writeAll [ConvertUTF16toUTF8 [[0x61], [0xD83D, 0xDE00]]] =
        ⟨[0x61, 0xD83D, 0xDE00], false⟩) ∧
    ConvertUTF8toUTF16.writeAll [[0x61], [0xF0, 0x9F, 0x98, 0x80]] =
        ⟨[0x61, 0xD83D, 0xDE00], false⟩ ∧
      ConvertUTF16toUTF8
          [(ConvertUTF8toUTF16.writeAll [[0x61], [0xF0, 0x9F, 0x98, 0x80]]).mBuffer] =
        [0x61, 0xF0, 0x9F, 0x98, 0x80] :=
  have hround := conversions_inverse ['a', Char.ofNat 0x1F600]
    (List.forall_mem_cons.mpr ⟨by decide, List.forall_mem_singleton.mpr (by decide)⟩)
  ⟨hround.1 [[0x61], [0xD83D, 0xDE00]] (by decide) (by simp [IS_LOW_SURROGATE]; decide),
    hround.2 [[0x61], [0xF0, 0x9F, 0x98, 0x80]] (by decide) (by simp [isInSeq]; decide)⟩

end Kompozer.Text

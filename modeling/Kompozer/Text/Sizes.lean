import Kompozer.Text.Encoding

/-! The buffers that the calculators ask for hold what the converters write. -/

namespace Kompozer.Text

/-! ### UTF-8 -/

theorem size_surrogate (c : UInt16) : (0xD800 != 0xF800 &&& c) = !IS_SURROGATE c := by
  rw [IS_SURROGATE, bne, UInt16.and_comm, Bool.beq_comm]

theorem size_highSurrogate (c : UInt16) : (0xD800 == 0xFC00 &&& c) = IS_HIGH_SURROGATE c := by
  rw [IS_HIGH_SURROGATE, UInt16.and_comm, Bool.beq_comm]

theorem size_lowSurrogate (c : UInt16) : (0xDC00 == 0xFC00 &&& c) = IS_LOW_SURROGATE c := by
  rw [IS_LOW_SURROGATE, UInt16.and_comm, Bool.beq_comm]

/-- The two loops branch alike. -/
theorem length_toUTF8 (p : List UInt16) : sizeUTF8 p = (toUTF8 p).length := by
  fun_induction toUTF8 p with
  | case1 => rfl
  | case2 c p h1 ih =>
    rw [sizeUTF8.eq_def]
    simp only [h1, if_true, ih, List.length_cons]
    omega
  | case3 c p h1 h2 ih =>
    rw [sizeUTF8.eq_def]
    simp only [h1, h2, Bool.false_eq_true, if_true, if_false, ih, List.length_append,
      List.length_cons, List.length_nil]
  | case4 c p h1 h2 h3 ih =>
    rw [sizeUTF8.eq_def]
    simp only [h1, h2, h3, size_surrogate, Bool.false_eq_true, if_true, if_false, ih,
      List.length_append, List.length_cons, List.length_nil]
  | case5 c h1 h2 h3 h4 =>
    rw [sizeUTF8.eq_def]
    simp only [h1, h2, h3, h4, size_surrogate, size_highSurrogate, Bool.false_eq_true, if_true,
      if_false, List.length_nil]
  | case6 c h1 h2 h3 h4 l p h5 ucs4 ih =>
    rw [sizeUTF8.eq_def]
    simp only [h1, h2, h3, h4, h5, size_surrogate, size_highSurrogate, size_lowSurrogate,
      Bool.false_eq_true, if_true, if_false, ih, List.length_append, List.length_cons,
      List.length_nil]
  | case7 c h1 h2 h3 h4 l p h5 ih =>
    rw [sizeUTF8.eq_def]
    simp only [h1, h2, h3, h4, h5, size_surrogate, size_highSurrogate, size_lowSurrogate,
      Bool.false_eq_true, if_true, if_false, ih]
  | case8 c p h1 h2 h3 h4 ih =>
    rw [sizeUTF8.eq_def]
    simp only [h1, h2, h3, h4, size_surrogate, size_highSurrogate, Bool.false_eq_true, if_false, ih]

theorem CalculateUTF8Size_eq (frags : List (List UInt16)) :
    CalculateUTF8Size frags = (ConvertUTF16toUTF8 frags).length := by
  rw [CalculateUTF8Size, ConvertUTF16toUTF8, List.length_flatMap]
  congr 1
  apply List.map_congr_left
  intro p _
  exact length_toUTF8 p

/-! ### The units of a sequence -/

/-- The number of units that are counted for a sequence. -/
def Lead.units (l : Lead) : ℕ := if l.state = 3 then 2 else 1

/-- The calculator steps over what the decoder reads. -/
theorem stride_eq {c : UInt8} (h : ¬isASCII c) :
    stride c = (lead c).map fun l => (l.state + 1, l.units) := by
  unfold stride lead
  rw [if_neg h]
  split_ifs <;> rfl

theorem continuation_lt {state a : ℕ} {v w : UInt32} {p q : List UInt8}
    (h : continuation state v p = some (w, q)) (hv : v.toNat < 2 ^ a) (ha : 6 * state ≤ a)
    (hstate : state ≤ 5) : w.toNat < 2 ^ a := by
  induction state generalizing v p with
  | zero =>
    obtain ⟨rfl, -⟩ := Prod.mk.inj (Option.some.inj h)
    exact hv
  | succ state ih =>
    cases p with
    | nil => simp [continuation] at h
    | cons c p =>
      rw [continuation] at h
      split_ifs at h
      refine ih h ?_ (by omega) (by omega)
      have hmod := Nat.and_two_pow_sub_one_eq_mod c.toNat 6
      have hpow : 2 ^ (6 * state + 6) ≤ 2 ^ a := Nat.pow_le_pow_right (by omega) (by omega)
      have hlow : c.toNat % 64 * 2 ^ (6 * state) < 2 ^ (6 * state + 6) := by
        rw [Nat.pow_add, Nat.mul_comm]
        exact (Nat.mul_lt_mul_left (Nat.two_pow_pos _)).mpr (by omega)
      have hmask : c.toNat &&& (0x3F : UInt32).toNat = c.toNat % 64 := hmod
      have hshift : state * 6 % 2 ^ 32 % 32 = 6 * state := by omega
      rw [UInt32.toNat_or]
      refine Nat.or_lt_two_pow hv ?_
      rw [UInt32.toNat_shiftLeft, UInt32.toNat_and, UInt8.toNat_toUInt32, UInt32.toNat_ofNat',
        Nat.shiftLeft_eq, hmask, hshift]
      exact Nat.lt_of_le_of_lt (Nat.mod_le _ _) (Nat.lt_of_lt_of_le hlow hpow)

theorem drop_continuation {state : ℕ} {v w : UInt32} {p q : List UInt8}
    (h : continuation state v p = some (w, q)) : p.drop state = q := by
  induction state generalizing v p with
  | zero =>
    obtain ⟨-, rfl⟩ := Prod.mk.inj (Option.some.inj h)
    rfl
  | succ state ih =>
    cases p with
    | nil => simp [continuation] at h
    | cons c p =>
      rw [continuation] at h
      split_ifs at h
      exact ih h

theorem length_emit_le_two (v low : UInt32) : (emit v low).length ≤ 2 := by
  unfold emit
  split_ifs <;> simp

/-- Below the first plane and beyond the last one a sequence is one unit. -/
theorem length_emit_one {v low : UInt32} (h : v.toNat < 0x10000 ∨ 0x110000 ≤ low.toNat) :
    (emit v low).length = 1 := by
  unfold emit
  simp only [UInt32.lt_iff_toNat_lt, UInt32.le_iff_toNat_le, PLANE1_BASE, UCS_END,
    UInt32.reduceToNat]
  split_ifs <;> first | rfl | omega

theorem length_emit_le {c : UInt8} {l : Lead} {p q : List UInt8} {v : UInt32}
    (hlead : lead c = some l) (hcont : continuation l.state l.ucs4 p = some (v, q)) :
    (emit v l.minUcs4).length ≤ l.units := by
  have hmask : ∀ n m : UInt32, (n &&& m).toNat ≤ m.toNat := by
    intro n m
    rw [UInt32.toNat_and]
    exact Nat.and_le_right
  unfold lead at hlead
  split_ifs at hlead <;> cases hlead
  · have hv := @continuation_lt 1 11 _ v p q hcont
      (Nat.lt_of_le_of_lt (hmask _ 0x000007C0) (by decide)) (by omega) (by omega)
    rw [length_emit_one (Or.inl (by omega))]
    exact Nat.le_refl 1
  · have hv := @continuation_lt 2 16 _ v p q hcont
      (Nat.lt_of_le_of_lt (hmask _ 0x0000F000) (by decide)) (by omega) (by omega)
    rw [length_emit_one (Or.inl (by omega))]
    exact Nat.le_refl 1
  · exact length_emit_le_two v _
  · rw [length_emit_one (Or.inr (show 0x110000 ≤ (0x00200000 : UInt32).toNat by decide))]
    exact Nat.le_refl 1
  · rw [length_emit_one (Or.inr (show 0x110000 ≤ (0x04000000 : UInt32).toNat by decide))]
    exact Nat.le_refl 1

/-! ### The units of a fragment -/

/-- What is counted for a sequence that ends in the fragment. -/
theorem countUTF16_sequence {c : UInt8} {l : Lead} {v : UInt32} {p q : List UInt8}
    (hascii : ¬isASCII c) (hlead : lead c = some l)
    (hcont : continuation l.state l.ucs4 p = some (v, q)) :
    countUTF16 (c :: p) = (l.units + (countUTF16 q).1, (countUTF16 q).2) := by
  have hlen := length_continuation hcont
  have hdrop := drop_continuation hcont
  rw [countUTF16, stride_eq hascii, hlead]
  simp only [Option.map_some, Nat.add_sub_cancel, hdrop]
  rw [if_neg (by omega)]

/-- A fragment that the decoder reads to its end is one the calculator reads to its end, and up to an
error the decoder writes no more units than are counted. -/
theorem toUTF16_le_countUTF16 (p : List UInt8) : (toUTF16 p).1.length ≤ (countUTF16 p).1 ∧
    ((countUTF16 p).2 = true → (toUTF16 p).2 = true) := by
  fun_induction toUTF16 p with
  | case1 => exact ⟨Nat.zero_le _, fun h => by simp [countUTF16] at h⟩
  | case2 c p hascii ih =>
    rw [countUTF16, stride, if_pos hascii]
    simp only [Nat.sub_self, List.drop_zero, List.length_cons]
    rw [if_neg (by omega)]
    exact ⟨by omega, ih.2⟩
  | case3 c p hascii hlead => exact ⟨Nat.zero_le _, fun _ => rfl⟩
  | case4 c p hascii l hlead hcont => exact ⟨Nat.zero_le _, fun _ => rfl⟩
  | case5 c p hascii l hlead v q hcont ih =>
    rw [countUTF16_sequence hascii hlead hcont, List.length_append]
    have hunits := length_emit_le hlead hcont
    exact ⟨by omega, ih.2⟩

/-! ### All fragments -/

/-- What holds of the two sinks between fragments. -/
def Ahead (s : ConvertUTF8toUTF16) (t : CalculateUTF8Length) : Prop :=
  s.mBuffer.length ≤ t.mLength ∧ (t.mErrorEncountered = true → s.mErrorEncountered = true)

theorem Ahead.write {s : ConvertUTF8toUTF16} {t : CalculateUTF8Length} (h : Ahead s t)
    (frag : List UInt8) : Ahead (s.write frag) (t.write frag) := by
  obtain ⟨hlen, herr⟩ := h
  have hle := toUTF16_le_countUTF16 frag
  unfold ConvertUTF8toUTF16.write CalculateUTF8Length.write
  by_cases hs : s.mErrorEncountered = true
  · rw [if_pos hs]
    refine ⟨?_, fun _ => hs⟩
    split
    · exact hlen
    · exact Nat.le_trans hlen (Nat.le_add_right _ _)
  · rw [if_neg hs, if_neg (fun ht => hs (herr ht))]
    refine ⟨?_, hle.2⟩
    rw [List.length_append]
    exact Nat.add_le_add hlen hle.1

theorem Ahead.writeAll {s : ConvertUTF8toUTF16} {t : CalculateUTF8Length} (h : Ahead s t)
    (frags : List (List UInt8)) :
    Ahead (frags.foldl ConvertUTF8toUTF16.write s) (frags.foldl CalculateUTF8Length.write t) := by
  induction frags generalizing s t with
  | nil => exact h
  | cons frag frags ih => exact ih (h.write frag)

/-! ### Well-formed fragments -/

/-- What is counted for a sequence whose first byte is known. -/
theorem countUTF16_stride {c : UInt8} {n k : ℕ} {t p : List UInt8} (hc : stride c = some (n + 1, k))
    (ht : t.length = n) : countUTF16 (c :: t ++ p) = (k + (countUTF16 p).1, (countUTF16 p).2) := by
  rw [List.cons_append, countUTF16, hc]
  simp only [Nat.add_sub_cancel, List.length_append, ht]
  rw [if_neg (by omega), List.drop_append_of_le_length (by omega), List.drop_of_length_le (by omega),
    List.nil_append]

theorem stride_iff (c : UInt8) : stride c =
    if c.toNat < 0x80 then some (1, 1)
    else if 0xC0 ≤ c.toNat ∧ c.toNat < 0xE0 then some (2, 1)
    else if 0xE0 ≤ c.toNat ∧ c.toNat < 0xF0 then some (3, 1)
    else if 0xF0 ≤ c.toNat ∧ c.toNat < 0xF8 then some (4, 2)
    else if is5byte c then some (5, 1)
    else if is6byte c then some (6, 1)
    else none := by
  simp only [stride, ascii_iff, two_iff, three_iff, four_iff, decide_eq_true_eq]

theorem length_decoded (c : Char) : (decoded c).length = if c.toNat < 0x10000 then 1 else 2 := by
  unfold decoded
  split_ifs with h1 h2 h3
  · rw [utf16, if_pos h2]
    rfl
  · rw [utf16, if_neg h2]
    rfl
  · rfl
  · exact absurd ⟨by omega, by omega⟩ h1

/-- What is counted for the UTF-8 of a character. -/
theorem countUTF16_append (c : Char) (p : List UInt8) :
    countUTF16 (String.utf8EncodeChar c ++ p) =
      ((decoded c).length + (countUTF16 p).1, (countUTF16 p).2) := by
  have hchar := char_toNat c
  have hval : c.val.toNat = c.toNat := rfl
  have hbyte : ∀ n, n < 256 → (UInt8.ofNat n).toNat = n := by
    intro n hn
    rw [UInt8.toNat_ofNat', Nat.mod_eq_of_lt hn]
  rw [String.utf8EncodeChar, hval, length_decoded]
  split_ifs with h1 h2 h3 h4 h5
  all_goals first
    | omega
    | skip
  · refine countUTF16_stride (n := 0) ?_ rfl
    rw [stride_iff, hbyte _ (by omega), if_pos (by omega)]
  · refine countUTF16_stride (n := 1) ?_ rfl
    rw [stride_iff, hbyte _ (by omega), if_neg (by omega), if_pos (by omega)]
  · refine countUTF16_stride (n := 2) ?_ rfl
    rw [stride_iff, hbyte _ (by omega), if_neg (by omega), if_neg (by omega), if_pos (by omega)]
  · refine countUTF16_stride (n := 3) ?_ rfl
    rw [stride_iff, hbyte _ (by omega), if_neg (by omega), if_neg (by omega), if_neg (by omega),
      if_pos (by omega)]

theorem countUTF16_text (s : List Char) :
    countUTF16 (s.flatMap String.utf8EncodeChar) = ((s.flatMap decoded).length, false) := by
  induction s with
  | nil => rw [List.flatMap_nil, countUTF16, List.flatMap_nil, List.length_nil]
  | cons c s ih =>
    rw [List.flatMap_cons, countUTF16_append, ih, List.flatMap_cons, List.length_append]

namespace CalculateUTF8Length

theorem foldl_write_text (ss : List (List Char)) (n : ℕ) :
    (ss.map (·.flatMap String.utf8EncodeChar)).foldl write ⟨n, false⟩ =
      ⟨n + (ss.flatten.flatMap decoded).length, false⟩ := by
  induction ss generalizing n with
  | nil => simp
  | cons s ss ih =>
    rw [List.map_cons, List.foldl_cons, write, if_neg Bool.false_ne_true, countUTF16_text, ih,
      List.flatten_cons, List.flatMap_append, List.length_append, Nat.add_assoc]

theorem writeAll_text (ss : List (List Char)) :
    writeAll (ss.map (·.flatMap String.utf8EncodeChar)) =
      ⟨(ss.flatten.flatMap decoded).length, false⟩ := by
  rw [writeAll, foldl_write_text, Nat.zero_add]

end CalculateUTF8Length

/-! ### The buffers -/

/-- A converter writes no more than its calculator gives, whatever the units and the fragments. In
UTF-16 only ill-formed fragments are written short. -/
theorem buffer_suffices :
    (∀ frags : List (List UInt16),
      CalculateUTF8Size frags = (ConvertUTF16toUTF8 frags).length) ∧
    ∀ frags : List (List UInt8),
      (ConvertUTF8toUTF16.writeAll frags).mBuffer.length ≤
        (CalculateUTF8Length.writeAll frags).mLength ∧
      ∀ s : List Char, frags.flatten = s.flatMap String.utf8EncodeChar →
        (∀ f ∈ frags, ∀ b ∈ f.head?, isInSeq b = false) →
        (ConvertUTF8toUTF16.writeAll frags).mBuffer.length =
          (CalculateUTF8Length.writeAll frags).mLength := by
  refine ⟨CalculateUTF8Size_eq, fun frags => ⟨?_, ?_⟩⟩
  · have hstart : Ahead {} {} := ⟨Nat.le_refl 0, id⟩
    exact (hstart.writeAll frags).1
  · intro s hjoin hcut
    obtain ⟨ss, rfl, rfl⟩ := exists_fragments utf8_selfStarting hjoin hcut
    rw [ConvertUTF8toUTF16.writeAll_text, CalculateUTF8Length.writeAll_text]

theorem buffer_suffices_cut :
    (ConvertUTF8toUTF16.writeAll [[0x61, 0xC3], [0xA9]]).mBuffer.length ≤
        (CalculateUTF8Length.writeAll [[0x61, 0xC3], [0xA9]]).mLength ∧
      (ConvertUTF8toUTF16.writeAll [[0x61], [0xC3, 0xA9]]).mBuffer.length =
        (CalculateUTF8Length.writeAll [[0x61], [0xC3, 0xA9]]).mLength :=
  ⟨(buffer_suffices.2 [[0x61, 0xC3], [0xA9]]).1,
    (buffer_suffices.2 [[0x61], [0xC3, 0xA9]]).2 ['a', Char.ofNat 0xE9] (by decide)
      (by simp [isInSeq]; decide)⟩

/-- Of a character that is cut nothing is written, and one unit is counted. -/
theorem cut_character_counted :
    [[0xC3], [0xA9]].flatten = [Char.ofNat 0xE9].flatMap String.utf8EncodeChar ∧
      (ConvertUTF8toUTF16.writeAll [[0xC3], [0xA9]]).mBuffer.length = 0 ∧
      (CalculateUTF8Length.writeAll [[0xC3], [0xA9]]).mLength = 1 := by
  have hwritten : toUTF16 [0xC3] = ([], true) := by
    rw [toUTF16]
    rfl
  have hcounted : countUTF16 [0xC3] = (1, true) := by
    rw [countUTF16]
    rfl
  refine ⟨by decide, ?_, ?_⟩
  · rw [ConvertUTF8toUTF16.writeAll, List.foldl_cons, ConvertUTF8toUTF16.write, hwritten]
    rfl
  · rw [CalculateUTF8Length.writeAll, List.foldl_cons, CalculateUTF8Length.write, hcounted]
    rfl

end Kompozer.Text

import Kompozer.Citer.Rewrap

/-! `Rewrap` returns unless it comes to a line of quoted text whose marks, counted twice, leave no
column to write in. There the inner loop begins one line after the other. -/

namespace Kompozer.Citer

/-! ### Numbers -/

theorem PRUint32_of_lt {n : ℤ} (h : 0 ≤ n) (h' : n < 2 ^ 32) : (PRUint32 n : ℤ) = n := by
  rw [PRUint32, Int.emod_eq_of_lt h h', Int.toNat_of_nonneg h]

theorem PRInt32_of_lt {n : ℤ} (h : -2 ^ 31 ≤ n) (h' : n < 2 ^ 31) : PRInt32 n = n := by
  rw [PRInt32, Int.bmod_def]
  split_ifs <;> omega

/-! ### Texts -/

section Texts
variable {tString : List PRUnichar} {pos : ℕ}

theorem readCites_spec (seen : Bool) (l : List PRUnichar) :
    (readCites seen l).1 ≤ (readCites seen l).2 ∧ (readCites seen l).2 ≤ l.length := by
  induction l generalizing seen with
  | nil => simp [readCites]
  | cons c rest ih =>
    obtain ⟨h₁, h₂⟩ := ih true
    rw [readCites, List.length_cons]
    split_ifs
    · simp only []
      omega
    · simp only []
      omega
    · simp

theorem readCites_newline {l : List PRUnichar} (h : l.head? = some nl) :
    readCites false l = (0, 0) := by
  cases l with
  | nil => simp at h
  | cons c rest =>
    obtain rfl : c = nl := by simpa using h
    rw [readCites, if_neg (by decide), Bool.false_and, if_neg (by decide)]

variable (tString) in
theorem le_nextNewlineFrom (pos : ℕ) : pos ≤ nextNewlineFrom tString pos := Nat.le_add_right _ _

theorem nextNewlineFrom_le (h : pos ≤ tString.length) :
    nextNewlineFrom tString pos ≤ tString.length := by
  have hle := (List.takeWhile_prefix (fun c => decide (c ≠ nl)) (l := tString.drop pos)).length_le
  rw [List.length_drop] at hle
  rw [nextNewlineFrom]
  omega

/-- What is left of a line. -/
theorem Substring_nextNewline (pos : ℕ) :
    Substring tString pos (nextNewlineFrom tString pos - pos) =
      (tString.drop pos).takeWhile (· ≠ nl) := by
  rw [Substring, nextNewlineFrom, Nat.add_sub_cancel_left]
  exact List.prefix_iff_eq_take.mp (List.takeWhile_prefix _) |>.symm

theorem nextNewlineFrom_eq (hlt : pos < tString.length) (h : nextNewlineFrom tString pos = pos) :
    tString[pos]? = some nl := by
  rw [nextNewlineFrom, Nat.add_eq_left, List.length_eq_zero_iff, List.drop_eq_getElem_cons hlt]
    at h
  rw [List.getElem?_eq_getElem hlt]
  by_contra hne
  rw [List.takeWhile_cons_of_pos (by simpa using hne)] at h
  simp at h

theorem length_rdropWhile_le {α : Type*} (p : α → Bool) (l : List α) :
    (l.rdropWhile p).length ≤ l.length := (List.rdropWhile_prefix p l).length_le

variable (tString) in
theorem length_Substring_le (start count : ℕ) :
    (Substring tString start count).length ≤ count := List.length_take_le _ _

/-- Behind the longest initial part with a property comes an element without it. -/
theorem exists_getElem?_takeWhile {α : Type*} (p : α → Bool) {l : List α}
    (h : (l.takeWhile p).length < l.length) :
    ∃ a, l[(l.takeWhile p).length]? = some a ∧ p a = false := by
  have hne : l.dropWhile p ≠ [] := by
    intro hnil
    have happ := congrArg List.length (List.takeWhile_append_dropWhile (p := p) (l := l))
    rw [hnil, List.append_nil] at happ
    omega
  refine ⟨(l.dropWhile p).head hne, ?_, by simpa using List.head_dropWhile_not p hne⟩
  have happ (k : ℕ) : l[k]? = (l.takeWhile p ++ l.dropWhile p)[k]? := by
    rw [List.takeWhile_append_dropWhile]
  rw [happ, List.getElem?_append_right le_rfl, Nat.sub_self, ← List.head?_eq_getElem?,
    List.head?_eq_some_head hne]

theorem length_takeWhile_lt_iff {α : Type*} (p : α → Bool) (l : List α) :
    (l.takeWhile p).length < l.length ↔ ∃ a ∈ l, p a = false := by
  constructor
  · intro hlt
    obtain ⟨a, hget, ha⟩ := exists_getElem?_takeWhile p hlt
    exact ⟨a, List.mem_of_getElem? hget, ha⟩
  · rintro ⟨a, hmem, ha⟩
    refine lt_of_le_of_ne (List.takeWhile_prefix p).length_le fun heq => ?_
    have hall := List.takeWhile_eq_self_iff.mp ((List.takeWhile_prefix p).eq_of_length heq) a hmem
    rw [ha] at hall
    exact Bool.false_ne_true hall

end Texts

/-- A line breaker that returns a position between 1 and the length it was given. -/
structure LineBreaker.Legal (lb : LineBreaker) : Prop where
  prev : ∀ text pos b, lb.Prev text pos = some b → 1 ≤ b ∧ b ≤ text.length
  next : ∀ text pos b, lb.Next text pos = some b → 1 ≤ b ∧ b ≤ text.length

section BreakLine
variable (st : RewrapState) {citeLevel : ℕ}

@[simp] theorem posInString_BreakLine : (BreakLine st citeLevel).posInString = st.posInString := by
  unfold BreakLine
  split_ifs <;> rfl

@[simp] theorem citeLevel_BreakLine : (BreakLine st citeLevel).citeLevel = st.citeLevel := by
  unfold BreakLine
  split_ifs <;> rfl

theorem outStringCol_BreakLine (h : 0 < citeLevel) :
    (BreakLine st citeLevel).outStringCol = citeLevel + 1 := by
  rw [BreakLine, if_pos h]

theorem outStringCol_BreakLine_zero : (BreakLine st 0).outStringCol = 0 := rfl

theorem BreakLine_ne_nil : (BreakLine st citeLevel).aOutString ≠ [] := by
  unfold BreakLine AddCite
  split_ifs <;> simp

end BreakLine

/-! ### The inner loop -/

section Inner
variable {tString : List PRUnichar} {aWrapCol nextNewline : ℕ} {lineBreaker : Option LineBreaker}
  {st : RewrapState}

/-- What holds at the head of the inner loop. -/
structure Inner (st : RewrapState) : Prop where
  cite_pos : 0 < st.citeLevel
  cite_le : st.citeLevel ≤ st.posInString
  cite_lt : st.citeLevel < st.outStringCol
  col_le : st.outStringCol ≤ st.posInString + 1
  pos_lt : st.posInString < 2 ^ 31
  out_ne : st.aOutString ≠ []

theorem Inner.breakLine (h : Inner st) : Inner (BreakLine st st.citeLevel) := by
  have hcol := outStringCol_BreakLine st h.cite_pos
  have hcite : (BreakLine st st.citeLevel).citeLevel = st.citeLevel := citeLevel_BreakLine st
  have hpos : (BreakLine st st.citeLevel).posInString = st.posInString := posInString_BreakLine st
  have hle := h.cite_le
  exact ⟨by rw [hcite]; exact h.cite_pos, by rw [hcite, hpos]; exact hle,
    by rw [hcite, hcol]; omega,
    by rw [hcol, hpos]; omega, by rw [hpos]; exact h.pos_lt, BreakLine_ne_nil st⟩

variable (tString nextNewline) in
theorem le_skipSpaces (st : RewrapState) :
    st.posInString ≤ (skipSpaces tString nextNewline st).posInString := Nat.le_add_right _ _

theorem skipSpaces_le (h : st.posInString ≤ nextNewline) :
    (skipSpaces tString nextNewline st).posInString ≤ nextNewline := by
  have hle := (List.takeWhile_prefix IsAsciiSpace
    (l := Substring tString st.posInString (nextNewline - st.posInString))).length_le
  have hle' := length_Substring_le tString st.posInString
    (nextNewline - st.posInString)
  rw [skipSpaces]
  simp only []
  omega

theorem Inner.skipSpaces (h : Inner st) (hle : st.posInString ≤ nextNewline)
    (hlen : nextNewline < 2 ^ 30) : Inner (skipSpaces tString nextNewline st) := by
  have hpos := le_skipSpaces tString nextNewline st
  have hpos' : (Citer.skipSpaces tString nextNewline st).posInString ≤ nextNewline :=
    skipSpaces_le hle
  exact ⟨h.cite_pos, h.cite_le.trans hpos, h.cite_lt, h.col_le.trans (Nat.succ_le_succ hpos),
    by omega, h.out_ne⟩

theorem isShort_iff (h : Inner st) (hle : st.posInString ≤ nextNewline)
    (hlen : nextNewline < 2 ^ 30) (hw : aWrapCol < 2 ^ 32) :
    isShort aWrapCol nextNewline st = true ↔ aWrapCol ≤ st.citeLevel ∨
      st.outStringCol + (nextNewline - st.posInString) + st.citeLevel + 1 ≤ aWrapCol := by
  obtain ⟨-, hcite, -, hcol, -, -⟩ := h
  have hleft : (PRUint32 (st.outStringCol + nextNewline - st.posInString) : ℤ) =
      st.outStringCol + nextNewline - st.posInString :=
    PRUint32_of_lt (by omega) (by omega)
  rw [isShort, decide_eq_true_iff, ← Int.ofNat_le, hleft]
  by_cases hc : aWrapCol ≤ st.citeLevel
  · have hright : (PRUint32 (aWrapCol - st.citeLevel - 1) : ℤ) =
        aWrapCol - st.citeLevel - 1 + 2 ^ 32 := by
      rw [← PRUint32_of_lt (n := (aWrapCol : ℤ) - st.citeLevel - 1 + 2 ^ 32) (by omega) (by omega),
        PRUint32, PRUint32, Int.add_emod_right]
    rw [hright]
    exact iff_of_true (by omega) (.inl hc)
  · rw [PRUint32_of_lt (by omega) (by omega), or_iff_right hc]
    omega

theorem eolOf_eq (h : Inner st) (hle : st.posInString ≤ nextNewline) (hlen : nextNewline < 2 ^ 30)
    (hlt : aWrapCol < st.outStringCol + (nextNewline - st.posInString) + st.citeLevel + 1) :
    eolOf aWrapCol st = st.posInString + aWrapCol - st.citeLevel - st.outStringCol := by
  obtain ⟨-, hcite, -, hcol, -, -⟩ := h
  exact PRInt32_of_lt (by omega) (by omega)

/-- A place to break is behind the position, and no more than the length of the string away. -/
theorem findBreak_bounds {eol : ℤ} {b : ℕ} (hlegal : ∀ lb ∈ lineBreaker, lb.Legal)
    (heol : (st.posInString : ℤ) < eol) (hle : eol ≤ tString.length)
    (hlen : tString.length < 2 ^ 30)
    (hb : findBreak tString lineBreaker eol st = some b) : 1 ≤ b ∧ b ≤ tString.length := by
  have hhard : 1 ≤ PRUint32 eol ∧ PRUint32 eol ≤ tString.length := by
    have := PRUint32_of_lt (n := eol) (by omega) (by omega)
    omega
  have hdrop : (tString.drop st.posInString).length ≤ tString.length := by
    rw [List.length_drop]
    omega
  unfold findBreak at hb
  cases lineBreaker with
  | none =>
    rw [← Option.some.inj hb]
    exact hhard
  | some lb =>
    have hlb := hlegal lb rfl
    cases hprev : lb.Prev (tString.drop st.posInString) (PRUint32 (eol + 1 - st.posInString)) with
    | some b' =>
      simp only [hprev, Option.some.injEq] at hb
      have := hlb.prev _ _ _ hprev
      omega
    | none =>
      simp only [hprev] at hb
      split_ifs at hb
      cases hnext : lb.Next (tString.drop st.posInString) (PRUint32 (eol - st.posInString)) with
      | some b' =>
        simp only [hnext, Option.some.injEq] at hb
        have := hlb.next _ _ _ hnext
        omega
      | none =>
        simp only [hnext, Option.some.injEq] at hb
        rw [← hb]
        exact hhard

/-- Without a place to break the line has text already. -/
theorem findBreak_none {eol : ℤ} (h : findBreak tString lineBreaker eol st = none) :
    st.citeLevel + 1 < st.outStringCol := by
  unfold findBreak at h
  by_contra hcol
  cases lineBreaker with
  | none => simp at h
  | some lb =>
    simp only [if_neg hcol] at h
    split at h
    · simp at h
    · split at h <;> simp at h

variable (tString) in
/-- A short rest of a line is the last of it. -/
theorem Inner.copyShort (h : Inner st) (hle : st.posInString ≤ nextNewline)
    (hlen : nextNewline < 2 ^ 30) :
    Inner (copyShort tString nextNewline st) ∧
      nextNewline < (copyShort tString nextNewline st).posInString := by
  rw [Citer.copyShort]
  generalize hnn : (if nextNewline + 1 = tString.length ∧ tString[nextNewline - 1]? = some nl then
    nextNewline + 1 else nextNewline) = nn
  have hge : nextNewline ≤ nn ∧ nn ≤ nextNewline + 1 := by
    split_ifs at hnn <;> omega
  have hline := (length_rdropWhile_le IsAsciiSpace _).trans
    (length_Substring_le tString st.posInString (nn - st.posInString))
  obtain ⟨hpos, hcite, hlt, hcol, -, hout⟩ := h
  have hsum := PRUint32_of_lt (n := st.outStringCol +
    ((Substring tString st.posInString (nn - st.posInString)).rdropWhile IsAsciiSpace).length)
    (by omega) (by omega)
  refine ⟨⟨hpos, ?_, ?_, ?_, ?_, by simp [hout]⟩, ?_⟩ <;> simp only [] <;> omega

/-- Up to a place to break the position moves on. -/
theorem Inner.copyTo {b : ℕ} (h : Inner st) (hle : st.posInString ≤ tString.length)
    (hlen : tString.length < 2 ^ 30) (hb : 1 ≤ b) (hb' : b ≤ tString.length) :
    Inner (copyTo tString b st) ∧ st.posInString < (copyTo tString b st).posInString := by
  have hadd : PRUint32 (st.posInString + b) = st.posInString + b := by
    have := PRUint32_of_lt (n := st.posInString + b) (by omega) (by omega)
    omega
  rw [Citer.copyTo]
  simp only [hadd]
  have hskip := (List.takeWhile_prefix IsSpace
    (l := tString.drop (st.posInString + b))).length_le
  rw [List.length_drop] at hskip
  generalize ((tString.drop (st.posInString + b)).takeWhile IsSpace).length = k at hskip ⊢
  have hsub := (length_rdropWhile_le IsSpace _).trans
    (length_Substring_le tString st.posInString b)
  have hcol := PRUint32_of_lt (n := st.outStringCol +
    ((Substring tString st.posInString b).rdropWhile IsSpace).length)
    (by omega) (by have := h.col_le; omega)
  obtain ⟨hpos, hcite, hlt, hcolle, -, hout⟩ := h
  have hinner : Inner { st with
      aOutString := st.aOutString ++ (Substring tString st.posInString b).rdropWhile IsSpace
      outStringCol := PRUint32 (st.outStringCol +
        ((Substring tString st.posInString b).rdropWhile IsSpace).length)
      posInString := st.posInString + b + k } := by
    refine ⟨hpos, ?_, ?_, ?_, ?_, by simp [hout]⟩ <;> simp only [] <;> omega
  split_ifs
  · refine ⟨hinner.breakLine, ?_⟩
    rw [posInString_BreakLine]
    simp only []
    omega
  · exact ⟨hinner, by simp only []; omega⟩

/-- What a round of the inner loop can do: begin a new line, when the line has text or no column
is left, or move on. -/
theorem Inner.innerStep (h : Inner st) (hlt : st.posInString < nextNewline)
    (hle : nextNewline ≤ tString.length) (hlen : tString.length < 2 ^ 30) (hw : aWrapCol < 2 ^ 32)
    (hlegal : ∀ lb ∈ lineBreaker, lb.Legal) :
    let st₁ := Citer.skipSpaces tString nextNewline st
    let st' := Citer.innerStep tString aWrapCol lineBreaker nextNewline st
    (st' = BreakLine st₁ st.citeLevel ∧
      (st.citeLevel < aWrapCol ∧ aWrapCol ≤ st.citeLevel + st.outStringCol ∨
        st.citeLevel + 1 < st.outStringCol)) ∨
    (Inner st' ∧ st₁.posInString < st'.posInString) := by
  intro st₁ st'
  have h₁ : Inner st₁ := h.skipSpaces hlt.le (hle.trans_lt hlen)
  have hle₁ : st₁.posInString ≤ nextNewline := skipSpaces_le hlt.le
  have hiff := isShort_iff h₁ hle₁ (hle.trans_lt hlen) hw
  have hst' : st' = if isShort aWrapCol nextNewline st₁ = true then
      Citer.copyShort tString nextNewline st₁
    else if eolOf aWrapCol st₁ ≤ st₁.posInString then BreakLine st₁ st₁.citeLevel
    else copyLong tString aWrapCol st₁ (findBreak tString lineBreaker (eolOf aWrapCol st₁) st₁) :=
      rfl
  by_cases hshort : isShort aWrapCol nextNewline st₁ = true
  · rw [if_pos hshort] at hst'
    obtain ⟨hinner, hpos⟩ := h₁.copyShort tString hle₁ (hle.trans_lt hlen)
    rw [← hst'] at hinner hpos
    exact .inr ⟨hinner, hle₁.trans_lt hpos⟩
  rw [if_neg hshort] at hst'
  obtain ⟨hwide, hlong⟩ := not_or.mp (mt hiff.mpr hshort)
  have heol := eolOf_eq h₁ hle₁ (hle.trans_lt hlen) (not_le.mp hlong)
  have hcite : st₁.citeLevel = st.citeLevel := rfl
  have hcol : st₁.outStringCol = st.outStringCol := rfl
  by_cases hpast : eolOf aWrapCol st₁ ≤ st₁.posInString
  · rw [if_pos hpast] at hst'
    refine .inl ⟨hst', .inl ⟨not_le.mp hwide, ?_⟩⟩
    rw [heol] at hpast
    omega
  rw [if_neg hpast] at hst'
  cases hfind : findBreak tString lineBreaker (eolOf aWrapCol st₁) st₁ with
  | none =>
    rw [hfind] at hst'
    have hmore := findBreak_none hfind
    exact .inl ⟨hst', .inr hmore⟩
  | some b =>
    rw [hfind, copyLong] at hst'
    have hle' : eolOf aWrapCol st₁ ≤ tString.length := by omega
    obtain ⟨hb, hb'⟩ := findBreak_bounds hlegal (not_le.mp hpast) hle' hlen hfind
    split_ifs at hst' with htoo
    · exact .inl ⟨hst', .inr htoo.2⟩
    · obtain ⟨hinner, hpos⟩ := h₁.copyTo (hle₁.trans hle) hlen hb hb'
      rw [← hst'] at hinner hpos
      exact .inr ⟨hinner, hpos⟩

@[simp] theorem citeLevel_innerStep :
    (Citer.innerStep tString aWrapCol lineBreaker nextNewline st).citeLevel = st.citeLevel := by
  have hlong (st : RewrapState) (b : Option ℕ) :
      (copyLong tString aWrapCol st b).citeLevel = st.citeLevel := by
    cases b with
    | none => exact citeLevel_BreakLine st
    | some b =>
      rw [copyLong, Citer.copyTo]
      simp only []
      split_ifs <;> simp
  rw [Citer.innerStep]
  simp only []
  split_ifs
  · rfl
  · rw [citeLevel_BreakLine, Citer.skipSpaces]
  · rw [hlong, Citer.skipSpaces]

theorem PRInt32_pos (h : Inner st) : PRInt32 st.posInString = st.posInString :=
  PRInt32_of_lt (by omega) (by exact_mod_cast h.pos_lt)

theorem innerLoop_succ (h : Inner st) (n : ℕ) :
    innerLoop tString aWrapCol lineBreaker nextNewline (n + 1) st =
      if st.posInString < nextNewline then
        innerLoop tString aWrapCol lineBreaker nextNewline n
          (Citer.innerStep tString aWrapCol lineBreaker nextNewline st)
      else some st := by
  rw [innerLoop, PRInt32_pos h]
  simp only [Nat.cast_lt]

theorem innerLoop_mono {n m : ℕ} {st' : RewrapState} (hle : n ≤ m)
    (h : innerLoop tString aWrapCol lineBreaker nextNewline n st = some st') :
    innerLoop tString aWrapCol lineBreaker nextNewline m st = some st' := by
  induction n generalizing m st with
  | zero => simp [innerLoop] at h
  | succ n ih =>
    obtain ⟨m, rfl⟩ := Nat.exists_eq_add_of_lt hle
    rw [innerLoop] at h ⊢
    split_ifs at h ⊢
    · exact ih (by omega) h
    · exact h

/-- Twice the characters that are left, and the line that may be begun before the next of them. -/
def roundsLeft (nextNewline : ℕ) (st : RewrapState) : ℕ :=
  2 * (nextNewline - st.posInString) + if st.outStringCol = st.citeLevel + 1 then 0 else 1

/-- Where a new line has a column to write in, each round leaves less to do. -/
theorem innerLoop_returns {n : ℕ} (h : Inner st) (hle : nextNewline ≤ tString.length)
    (hlen : tString.length < 2 ^ 30) (hw : aWrapCol < 2 ^ 32)
    (hlegal : ∀ lb ∈ lineBreaker, lb.Legal)
    (hroom : st.citeLevel < aWrapCol → 2 * st.citeLevel + 1 < aWrapCol)
    (hn : roundsLeft nextNewline st < n) :
    ∃ st', innerLoop tString aWrapCol lineBreaker nextNewline n st = some st' ∧ Inner st' ∧
      nextNewline ≤ st'.posInString := by
  induction n generalizing st with
  | zero => omega
  | succ n ih =>
    rw [innerLoop_succ h]
    by_cases hlt : st.posInString < nextNewline
    · rw [if_pos hlt]
      have hcite : (Citer.innerStep tString aWrapCol lineBreaker nextNewline st).citeLevel =
          st.citeLevel := citeLevel_innerStep
      have hskip := le_skipSpaces tString nextNewline st
      rw [← hcite] at hroom
      rw [roundsLeft] at hn
      obtain ⟨heq, hline⟩ | ⟨hinner, hpos⟩ := h.innerStep hlt hle hlen hw hlegal
      · have hskipped : Inner (Citer.skipSpaces tString nextNewline st) :=
          h.skipSpaces hlt.le (hle.trans_lt hlen)
        have hbreak := hskipped.breakLine
        have hcol := outStringCol_BreakLine (Citer.skipSpaces tString nextNewline st) h.cite_pos
        have hpos : (BreakLine (Citer.skipSpaces tString nextNewline st) st.citeLevel).posInString =
            (Citer.skipSpaces tString nextNewline st).posInString := posInString_BreakLine _
        rw [← heq] at hcol hpos
        have hinner : Inner (Citer.innerStep tString aWrapCol lineBreaker nextNewline st) := by
          rw [heq]
          exact hbreak
        have hmore : st.outStringCol ≠ st.citeLevel + 1 := by omega
        rw [if_neg hmore] at hn
        refine ih hinner hroom ?_
        rw [roundsLeft, hcite, hcol, hpos, if_pos rfl]
        omega
      · refine ih hinner hroom ?_
        rw [roundsLeft]
        split_ifs at hn ⊢ <;> omega
    · rw [if_neg hlt]
      exact ⟨st, rfl, h, not_lt.mp hlt⟩

/-- Over a line without text there is one round. -/
theorem innerLoop_spaces {n : ℕ} (h : Inner st) (hlt : st.posInString < nextNewline)
    (hle : nextNewline ≤ tString.length) (hlen : tString.length < 2 ^ 30) (hw : aWrapCol < 2 ^ 32)
    (hlegal : ∀ lb ∈ lineBreaker, lb.Legal)
    (htext : nextNewline ≤ (Citer.skipSpaces tString nextNewline st).posInString) :
    ∃ st', innerLoop tString aWrapCol lineBreaker nextNewline (n + 2) st = some st' ∧ Inner st' ∧
      nextNewline ≤ st'.posInString := by
  have hround : Inner (Citer.innerStep tString aWrapCol lineBreaker nextNewline st) ∧
      nextNewline ≤
        (Citer.innerStep tString aWrapCol lineBreaker nextNewline st).posInString := by
    obtain ⟨heq, -⟩ | ⟨hinner, hpos⟩ := h.innerStep hlt hle hlen hw hlegal
    · rw [heq]
      exact ⟨(h.skipSpaces hlt.le (hle.trans_lt hlen)).breakLine,
        by rw [posInString_BreakLine]; exact htext⟩
    · exact ⟨hinner, htext.trans hpos.le⟩
  refine ⟨_, ?_, hround⟩
  rw [innerLoop_succ h, if_pos hlt, innerLoop_succ hround.1, if_neg (not_lt.mpr hround.2)]

/-- Behind the initial spaces there is text, or the end of the line. -/
theorem skipSpaces_text (hle : nextNewline ≤ tString.length)
    (h : (Citer.skipSpaces tString nextNewline st).posInString < nextNewline) :
    ∃ c, tString[(Citer.skipSpaces tString nextNewline st).posInString]? = some c ∧
      IsAsciiSpace c = false := by
  obtain ⟨c, hget, hc⟩ := exists_getElem?_takeWhile IsAsciiSpace
    (l := Substring tString st.posInString (nextNewline - st.posInString)) (by
      rw [Citer.skipSpaces] at h
      rw [Substring, List.length_take, List.length_drop, ← Substring]
      simp only [] at h
      omega)
  refine ⟨c, ?_, hc⟩
  rw [Substring, List.getElem?_take, List.getElem?_drop, ← Substring] at hget
  split_ifs at hget
  · exact hget

theorem skipSpaces_of_text {c : PRUnichar} (hlt : st.posInString < nextNewline)
    (h : tString[st.posInString]? = some c) (hc : IsAsciiSpace c = false) :
    Citer.skipSpaces tString nextNewline st = st := by
  obtain ⟨hlen, rfl⟩ := List.getElem?_eq_some_iff.mp h
  obtain ⟨k, hk⟩ := Nat.exists_eq_add_of_lt (Nat.sub_pos_of_lt hlt)
  rw [Citer.skipSpaces, Substring, List.drop_eq_getElem_cons hlen, hk, List.take_succ_cons,
    List.takeWhile_cons_of_neg (by simp [hc])]
  rfl

/-- Where a new line has no column to write in, one line is begun after the other. -/
theorem innerLoop_stuck (n : ℕ) (h : Inner st) (hle : nextNewline ≤ tString.length)
    (hlen : tString.length < 2 ^ 30) (hw : st.citeLevel < aWrapCol)
    (hw' : aWrapCol ≤ 2 * st.citeLevel + 1) (hlt : st.posInString < nextNewline)
    (htext : (Citer.skipSpaces tString nextNewline st).posInString < nextNewline) :
    innerLoop tString aWrapCol lineBreaker nextNewline n st = none := by
  induction n generalizing st with
  | zero => rfl
  | succ n ih =>
    have h₁ : Inner (Citer.skipSpaces tString nextNewline st) :=
      h.skipSpaces hlt.le (hle.trans_lt hlen)
    have hcite : (Citer.skipSpaces tString nextNewline st).citeLevel = st.citeLevel := rfl
    have hcol : (Citer.skipSpaces tString nextNewline st).outStringCol = st.outStringCol := rfl
    have hmore := h.cite_lt
    have hwrap : aWrapCol < 2 ^ 32 := by
      have hcite' := h.cite_le
      have hpos := h.pos_lt
      omega
    have hshort :
        ¬ isShort aWrapCol nextNewline (Citer.skipSpaces tString nextNewline st) = true := by
      rw [isShort_iff h₁ htext.le (hle.trans_lt hlen) hwrap]
      omega
    have heol := @eolOf_eq aWrapCol nextNewline _ h₁ htext.le (hle.trans_lt hlen) (by omega)
    have hstep : Citer.innerStep tString aWrapCol lineBreaker nextNewline st =
        BreakLine (Citer.skipSpaces tString nextNewline st) st.citeLevel := by
      rw [Citer.innerStep]
      simp only []
      rw [if_neg hshort, if_pos (by rw [heol]; omega), hcite]
    obtain ⟨c, hget, hc⟩ := skipSpaces_text hle htext
    generalize hline : BreakLine (Citer.skipSpaces tString nextNewline st) st.citeLevel = st'
      at hstep ⊢
    have hpos : st'.posInString = (Citer.skipSpaces tString nextNewline st).posInString := by
      rw [← hline]
      exact posInString_BreakLine _
    have hfix := skipSpaces_of_text (by rw [hpos]; exact htext) (by rw [hpos]; exact hget) hc
    rw [innerLoop_succ h, if_pos hlt, hstep]
    have hcite' : st'.citeLevel = st.citeLevel := by
      rw [← hline]
      exact citeLevel_BreakLine _
    exact ih (hline ▸ h₁.breakLine) (hcite' ▸ hw) (hcite' ▸ hw')
      (by rw [hpos]; exact htext) (by rw [hfix, hpos]; exact htext)

end Inner

/-! ### The outer loop -/

section Outer
variable {tString : List PRUnichar} {aWrapCol : ℕ} {lineBreaker : Option LineBreaker}
  {st : RewrapState}

/-- What holds at the head of the outer loop. -/
structure Outer (tString : List PRUnichar) (st : RewrapState) : Prop where
  cite_lt : st.outStringCol = 0 ∨ st.citeLevel < st.outStringCol
  col_le : st.outStringCol ≤ st.posInString + 1
  pos_lt : st.posInString < 2 ^ 31
  moved : st.outStringCol ≠ 0 →
    2 ≤ st.posInString ∨ tString[st.posInString]? = some nl ∧ st.aOutString ≠ []

theorem Inner.outer (h : Inner st) (hpos : 2 ≤ st.posInString) : Outer tString st :=
  ⟨.inr h.cite_lt, h.col_le, h.pos_lt, fun _ => .inl hpos⟩

@[simp] theorem posInString_beginText (newCiteLevel pos : ℕ) :
    (beginText newCiteLevel pos st).posInString = pos := by
  unfold beginText
  simp only []
  generalize (if newCiteLevel ≠ st.citeLevel ∧ pos > newCiteLevel + 1 ∧ st.outStringCol ≠ 0 then
    BreakLine st 0 else st) = st₁
  split_ifs <;> rfl

variable (st) in
theorem outStringCol_beginText_zero (pos : ℕ) :
    (beginText 0 pos st).outStringCol ≤ st.outStringCol + 1 := by
  unfold beginText
  simp only []
  have hle : (if 0 ≠ st.citeLevel ∧ pos > 0 + 1 ∧ st.outStringCol ≠ 0 then BreakLine st 0
      else st).outStringCol ≤ st.outStringCol := by
    split_ifs
    · exact Nat.zero_le _
    · exact le_rfl
  generalize (if 0 ≠ st.citeLevel ∧ pos > 0 + 1 ∧ st.outStringCol ≠ 0 then BreakLine st 0
      else st) = st₁ at hle
  split_ifs <;> simp only [] <;> omega

@[simp] theorem citeLevel_beginText (newCiteLevel pos : ℕ) :
    (beginText newCiteLevel pos st).citeLevel = newCiteLevel := by
  unfold beginText
  simp only []
  generalize (if newCiteLevel ≠ st.citeLevel ∧ pos > newCiteLevel + 1 ∧ st.outStringCol ≠ 0 then
    BreakLine st 0 else st) = st₁
  split_ifs <;> rfl

/-- At the beginning of quoted text the invariant of the inner loop holds. -/
theorem Outer.beginText {newCiteLevel pos : ℕ} (h : Outer tString st) (hcite : 0 < newCiteLevel)
    (hpos : st.posInString + newCiteLevel ≤ pos) (hlt : pos < 2 ^ 31)
    (hblank : ¬ (tString[st.posInString]? = some nl ∧ st.aOutString ≠ [])) :
    Inner (beginText newCiteLevel pos st) := by
  obtain ⟨hlt', hcol, -, hmoved⟩ := h
  unfold Citer.beginText
  by_cases hnew : newCiteLevel ≠ st.citeLevel ∧ pos > newCiteLevel + 1 ∧ st.outStringCol ≠ 0
  · simp only [if_pos hnew, outStringCol_BreakLine_zero, if_true, if_pos hcite.ne']
    exact ⟨hcite, by simp only []; omega, by simp, by simp only []; omega, hlt,
      by simp [AddCite, hcite.ne']⟩
  · by_cases hzero : st.outStringCol = 0
    · simp only [if_neg hnew, if_pos hzero, if_pos hcite.ne']
      exact ⟨hcite, by simp only []; omega, by simp, by simp only []; omega, hlt,
        by simp [AddCite, hcite.ne']⟩
    · have htwo := (hmoved hzero).resolve_right hblank
      have hgt : st.outStringCol > newCiteLevel := by
        by_contra hle
        exact hnew ⟨by omega, by omega, hzero⟩
      simp only [if_neg hnew, if_neg hzero, if_pos hgt]
      exact ⟨hcite, by simp only []; omega, by simp only []; omega, by simp only []; omega, hlt,
        by simp⟩

/-- Quoted text at a level that leaves no column to write in, counted twice: once where the line
begins and once where it ends. -/
def Cramped (tString : List PRUnichar) (aWrapCol pos : ℕ) : Prop :=
  0 < (citesAt tString pos).1 ∧ (citesAt tString pos).1 < aWrapCol ∧
    aWrapCol ≤ 2 * (citesAt tString pos).1 + 1 ∧
    ∃ c ∈ (tString.drop (pos + (citesAt tString pos).2)).takeWhile (· ≠ nl), IsAsciiSpace c = false

theorem skipSpaces_lt_iff {pos : ℕ} (hpos : st.posInString = pos) :
    (skipSpaces tString (nextNewlineFrom tString pos) st).posInString <
        nextNewlineFrom tString pos ↔
      ∃ c ∈ (tString.drop pos).takeWhile (· ≠ nl), IsAsciiSpace c = false := by
  subst hpos
  rw [skipSpaces, Substring_nextNewline, ← length_takeWhile_lt_iff, nextNewlineFrom]
  simp only []
  rw [Nat.add_lt_add_iff_left]

theorem not_cramped_of_end {pos : ℕ} (h : tString.length ≤ pos + (citesAt tString pos).2) :
    ¬ Cramped tString aWrapCol pos := by
  rintro ⟨-, -, -, c, hmem, -⟩
  rw [List.drop_eq_nil_of_le h] at hmem
  simp at hmem

theorem not_cramped_of_blank {pos : ℕ} (h : tString[pos + (citesAt tString pos).2]? = some nl) :
    ¬ Cramped tString aWrapCol pos := by
  rintro ⟨-, -, -, c, hmem, -⟩
  obtain ⟨hlt, hnl⟩ := List.getElem?_eq_some_iff.mp h
  rw [List.drop_eq_getElem_cons hlt, hnl, List.takeWhile_cons_of_neg (by simp)] at hmem
  simp at hmem

/-- Where there is a newline there are no marks. -/
theorem citesAt_newline {pos : ℕ} (h : tString[pos]? = some nl) : citesAt tString pos = (0, 0) := by
  obtain ⟨hlt, hnl⟩ := List.getElem?_eq_some_iff.mp h
  rw [citesAt, List.drop_eq_getElem_cons hlt, hnl]
  exact readCites_newline rfl

theorem citesAt_zero {pos : ℕ} (h : (citesAt tString pos).1 = 0) : (citesAt tString pos).2 = 0 := by
  unfold citesAt at h ⊢
  cases hl : tString.drop pos with
  | nil => rfl
  | cons c rest =>
    rw [hl, readCites] at h
    rw [readCites]
    split_ifs at h ⊢ <;> simp_all

/-- A line that is not quoted is copied. -/
theorem Outer.copyLine (h : Outer tString st) (hlt : st.posInString < tString.length)
    (hlen : tString.length < 2 ^ 30) :
    let st' := Citer.copyLine tString (nextNewlineFrom tString st.posInString)
      (Citer.beginText 0 st.posInString st)
    Outer tString st' ∧ st.posInString < st'.posInString := by
  have hnn := le_nextNewlineFrom tString st.posInString
  have hnn' := nextNewlineFrom_le hlt.le
  have hcol := outStringCol_beginText_zero st st.posInString
  have hle := h.col_le
  have hcite : (Citer.beginText 0 st.posInString st).citeLevel = 0 := citeLevel_beginText 0 _
  rw [Citer.copyLine, posInString_beginText]
  split_ifs with hend
  · exact ⟨⟨.inl rfl, Nat.zero_le _, by simp only []; omega, fun hne => absurd rfl hne⟩,
      by simp only []; omega⟩
  · refine ⟨⟨?_, ?_, ?_, fun _ => .inl ?_⟩, ?_⟩ <;> simp only [] <;> omega

variable (aWrapCol lineBreaker) in
/-- What a round of the outer loop can do: move on, or go over quoted text. -/
theorem Outer.lineStep (h : Outer tString st) (hlt : st.posInString < tString.length)
    (hlen : tString.length < 2 ^ 30) :
    (¬ Cramped tString aWrapCol st.posInString ∧
      ∃ st', (∀ n, lineStep tString aWrapCol lineBreaker n st = some st') ∧ Outer tString st' ∧
        st.posInString < st'.posInString) ∨
    ∃ pos st₁, st.posInString < pos ∧ pos < tString.length ∧ st₁.posInString = pos ∧ Inner st₁ ∧
      (∀ n, lineStep tString aWrapCol lineBreaker n st =
        innerLoop tString aWrapCol lineBreaker (nextNewlineFrom tString pos) n st₁) ∧
      (Cramped tString aWrapCol st.posInString ↔ st₁.citeLevel < aWrapCol ∧
        aWrapCol ≤ 2 * st₁.citeLevel + 1 ∧
        (skipSpaces tString (nextNewlineFrom tString pos) st₁).posInString <
          nextNewlineFrom tString pos) := by
  have hspec := readCites_spec false (tString.drop st.posInString)
  rw [List.length_drop, ← citesAt] at hspec
  unfold Citer.lineStep
  simp only []
  by_cases hend : tString.length ≤ st.posInString + (citesAt tString st.posInString).2
  · have hpos : 0 < (citesAt tString st.posInString).2 := by omega
    refine .inl ⟨not_cramped_of_end hend, _, fun n => if_pos hend, ?_, by simp only []; omega⟩
    refine ⟨h.cite_lt, h.col_le.trans (by simp only []; omega), by simp only []; omega,
      fun hne => ?_⟩
    rcases h.moved hne with htwo | ⟨hnl, -⟩
    · exact .inl (htwo.trans (Nat.le_add_right _ _))
    · rw [citesAt_newline hnl] at hpos
      exact absurd hpos (lt_irrefl 0)
  simp only [if_neg hend]
  by_cases hblank : tString[st.posInString + (citesAt tString st.posInString).2]? = some nl ∧
      st.aOutString ≠ []
  · refine .inl ⟨not_cramped_of_blank hblank.1, _, fun n => if_pos hblank, ?_,
      by simp only []; omega⟩
    exact ⟨.inl rfl, by simp, by simp only []; omega, fun hne => absurd rfl hne⟩
  simp only [if_neg hblank]
  by_cases hzero : (citesAt tString st.posInString).1 = 0
  · left
    rw [hzero, citesAt_zero hzero]
    refine ⟨fun hcramped => hcramped.1.ne' hzero, _, fun n => if_pos rfl, ?_⟩
    exact h.copyLine hlt hlen
  · right
    simp only [if_neg hzero]
    have hpos := Nat.pos_of_ne_zero hzero
    have hmark : ¬ (tString[st.posInString]? = some nl ∧ st.aOutString ≠ []) := by
      rintro ⟨hnl, -⟩
      rw [citesAt_newline hnl] at hpos
      exact lt_irrefl 0 hpos
    refine ⟨_, _, ?_, ?_, posInString_beginText _ _, h.beginText hpos ?_ ?_ hmark, fun n => rfl, ?_⟩
    · omega
    · omega
    · omega
    · omega
    · rw [skipSpaces_lt_iff (posInString_beginText _ _), citeLevel_beginText, Cramped]
      exact and_iff_right hpos

/-- A round of the outer loop does not return where the text is cramped. -/
theorem Outer.lineStep_cramped (h : Outer tString st) (hlt : st.posInString < tString.length)
    (hlen : tString.length < 2 ^ 30) (hcramped : Cramped tString aWrapCol st.posInString) (n : ℕ) :
    Citer.lineStep tString aWrapCol lineBreaker n st = none := by
  obtain ⟨hnot, -⟩ | ⟨pos, st₁, -, hlt', rfl, hinner, hstep, hiff⟩ :=
    h.lineStep aWrapCol lineBreaker hlt hlen
  · exact absurd hcramped hnot
  · obtain ⟨hw, hw', htext⟩ := hiff.mp hcramped
    rw [hstep]
    exact innerLoop_stuck n hinner (nextNewlineFrom_le hlt'.le) hlen hw hw'
      ((le_skipSpaces tString _ st₁).trans_lt htext) htext

/-- Elsewhere it returns farther on. -/
theorem Outer.lineStep_returns (h : Outer tString st) (hlt : st.posInString < tString.length)
    (hlen : tString.length < 2 ^ 30) (hw : aWrapCol < 2 ^ 32)
    (hlegal : ∀ lb ∈ lineBreaker, lb.Legal) (hroom : ¬ Cramped tString aWrapCol st.posInString)
    {n : ℕ} (hn : 2 * tString.length + 2 < n) :
    ∃ st', Citer.lineStep tString aWrapCol lineBreaker n st = some st' ∧ Outer tString st' ∧
      st.posInString < st'.posInString := by
  obtain ⟨-, st', hstep, houter, hpos⟩ | ⟨pos, st₁, hpos, hlt', rfl, hinner, hstep, hiff⟩ :=
    h.lineStep aWrapCol lineBreaker hlt hlen
  · exact ⟨st', hstep n, houter, hpos⟩
  have hnn := nextNewlineFrom_le hlt'.le
  have hle := le_nextNewlineFrom tString st₁.posInString
  rw [hstep]
  rcases hle.eq_or_lt with heq | hline
  · -- the line has no text
    have hnl := nextNewlineFrom_eq hlt' heq.symm
    obtain ⟨n, rfl⟩ := Nat.exists_eq_add_of_lt hn
    refine ⟨st₁, ?_, ⟨.inr hinner.cite_lt, hinner.col_le, hinner.pos_lt, fun _ => ?_⟩, hpos⟩
    swap
    · exact .inr ⟨hnl, hinner.out_ne⟩
    rw [innerLoop_succ hinner, if_neg (by omega)]
  · have hret : ∃ st', innerLoop tString aWrapCol lineBreaker
        (nextNewlineFrom tString st₁.posInString) n st₁ = some st' ∧ Inner st' ∧
        nextNewlineFrom tString st₁.posInString ≤ st'.posInString := by
      by_cases htext : nextNewlineFrom tString st₁.posInString ≤
          (skipSpaces tString (nextNewlineFrom tString st₁.posInString) st₁).posInString
      · obtain ⟨n, rfl⟩ := Nat.exists_eq_add_of_lt (show 1 < n by omega)
        rw [show 1 + n + 1 = n + 2 by omega]
        exact innerLoop_spaces hinner hline hnn hlen hw hlegal htext
      · refine innerLoop_returns hinner hnn hlen hw hlegal (fun hcite => ?_) ?_
        · by_contra hle'
          exact hroom (hiff.mpr ⟨hcite, not_lt.mp hle', not_le.mp htext⟩)
        · rw [roundsLeft]
          split_ifs <;> omega
    obtain ⟨st', hloop, hinner', hend⟩ := hret
    have hcite := hinner.cite_pos
    have hcite' := hinner.cite_le
    exact ⟨st', hloop, hinner'.outer (by omega), by omega⟩

theorem lineStep_mono {n m : ℕ} {st' : RewrapState} (hle : n ≤ m)
    (h : Citer.lineStep tString aWrapCol lineBreaker n st = some st') :
    Citer.lineStep tString aWrapCol lineBreaker m st = some st' := by
  unfold Citer.lineStep at h ⊢
  simp only [] at h ⊢
  split_ifs at h ⊢
  · exact h
  · exact h
  · exact h
  · exact h
  · exact innerLoop_mono hle h

/-- The states in which the outer loop begins a line. -/
inductive Reached (tString : List PRUnichar) (aWrapCol : ℕ) (lineBreaker : Option LineBreaker) :
    RewrapState → Prop
  | start : Reached tString aWrapCol lineBreaker ⟨[], 0, 0, 0⟩
  | line {fuel st st'} (h : Reached tString aWrapCol lineBreaker st)
      (hlt : st.posInString < tString.length)
      (hstep : lineStep tString aWrapCol lineBreaker fuel st = some st') :
      Reached tString aWrapCol lineBreaker st'

theorem Outer.start : Outer tString ⟨[], 0, 0, 0⟩ :=
  ⟨.inl rfl, Nat.zero_le _, by simp, fun h => absurd rfl h⟩

theorem Reached.outer (h : Reached tString aWrapCol lineBreaker st)
    (hlen : tString.length < 2 ^ 30) (hw : aWrapCol < 2 ^ 32)
    (hlegal : ∀ lb ∈ lineBreaker, lb.Legal) : Outer tString st := by
  induction h with
  | start => exact Outer.start
  | @line fuel st st' h hlt hstep ih =>
    have hroom : ¬ Cramped tString aWrapCol st.posInString := fun hcramped => by
      rw [ih.lineStep_cramped hlt hlen hcramped] at hstep
      simp at hstep
    obtain ⟨st₂, hret, houter, -⟩ := ih.lineStep_returns hlt hlen hw hlegal hroom
      (n := fuel + (2 * tString.length + 3)) (by omega)
    rw [lineStep_mono (Nat.le_add_right _ _) hstep] at hret
    rw [Option.some.inj hret]
    exact houter

/-- The outer loop comes to every state that is reached, when it returns. -/
theorem Reached.loop {fuel n : ℕ} {out : RewrapState} (h : Reached tString aWrapCol lineBreaker st)
    (hret : outerLoop tString aWrapCol lineBreaker fuel n ⟨[], 0, 0, 0⟩ = some out) :
    ∃ m, outerLoop tString aWrapCol lineBreaker fuel m st = some out := by
  induction h with
  | start => exact ⟨n, hret⟩
  | @line fuel' st st' h hlt hstep ih =>
    obtain ⟨m, hm⟩ := ih
    cases m with
    | zero => simp [outerLoop] at hm
    | succ m =>
      rw [outerLoop, if_pos hlt] at hm
      obtain ⟨st₂, hline, hloop⟩ := Option.bind_eq_some_iff.mp hm
      have heq := (lineStep_mono (Nat.le_add_right fuel fuel') hline).symm.trans
        (lineStep_mono (Nat.le_add_left fuel' fuel) hstep)
      rw [Option.some.inj heq] at hloop
      exact ⟨m, hloop⟩

theorem outerLoop_returns {fuel n : ℕ} (h : Reached tString aWrapCol lineBreaker st)
    (hlen : tString.length < 2 ^ 30) (hw : aWrapCol < 2 ^ 32)
    (hlegal : ∀ lb ∈ lineBreaker, lb.Legal)
    (hroom : ∀ st, Reached tString aWrapCol lineBreaker st →
      ¬ Cramped tString aWrapCol st.posInString)
    (hfuel : 2 * tString.length + 2 < fuel) (hn : tString.length - st.posInString < n) :
    ∃ out, outerLoop tString aWrapCol lineBreaker fuel n st = some out := by
  induction n generalizing st with
  | zero => omega
  | succ n ih =>
    rw [outerLoop]
    split_ifs with hlt
    · obtain ⟨st', hstep, -, hpos⟩ :=
        (h.outer hlen hw hlegal).lineStep_returns hlt hlen hw hlegal (hroom st h) hfuel
      obtain ⟨out, hout⟩ := ih (h.line hlt hstep) (by omega)
      exact ⟨out, by rw [hstep]; exact hout⟩
    · exact ⟨st, rfl⟩

/-- `Rewrap` returns just when no line that it begins has cramped text. -/
theorem rewrap_returns_iff (hlen : tString.length < 2 ^ 30) (hw : aWrapCol < 2 ^ 32)
    (hlegal : ∀ lb ∈ lineBreaker, lb.Legal) (aFirstLineOffset : ℕ) (aRespectNewlines : Bool) :
    (∃ fuel aOutString, Rewrap tString aWrapCol lineBreaker fuel aFirstLineOffset aRespectNewlines =
        some aOutString) ↔
      ∀ st, Reached tString aWrapCol lineBreaker st →
        ¬ Cramped tString aWrapCol st.posInString := by
  constructor
  · rintro ⟨fuel, aOutString, hret⟩ st hreached hcramped
    obtain ⟨out, hloop, -⟩ := Option.map_eq_some_iff.mp hret
    obtain ⟨m, hm⟩ := hreached.loop hloop
    have hlt : st.posInString < tString.length := by
      by_contra hge
      exact not_cramped_of_end (Nat.le_add_right_of_le (not_lt.mp hge)) hcramped
    cases m with
    | zero => simp [outerLoop] at hm
    | succ m =>
      have houter := hreached.outer hlen hw hlegal
      rw [outerLoop, if_pos hlt, houter.lineStep_cramped hlt hlen hcramped] at hm
      simp at hm
  · intro hroom
    obtain ⟨out, hloop⟩ : ∃ out, outerLoop tString aWrapCol lineBreaker (2 * tString.length + 3)
        (2 * tString.length + 3) ⟨[], 0, 0, 0⟩ = some out :=
      outerLoop_returns .start hlen hw hlegal hroom (by omega) (by simp only []; omega)
    exact ⟨2 * tString.length + 3, out.aOutString, by rw [Rewrap, hloop]; rfl⟩

end Outer

/-- A line breaker that breaks behind each character. -/
def everywhere : LineBreaker :=
  ⟨fun text _ => if text = [] then none else some 1,
    fun text _ => if text = [] then none else some 1⟩

theorem everywhere_legal : everywhere.Legal := by
  have hlegal (text : List PRUnichar) (b : ℕ)
      (h : (if text = [] then none else some 1) = some b) : 1 ≤ b ∧ b ≤ text.length := by
    split_ifs at h with hne
    rw [← Option.some.inj h]
    exact ⟨le_rfl, List.length_pos_of_ne_nil hne⟩
  exact ⟨fun text _ => hlegal text, fun text _ => hlegal text⟩

/-- `> to be`. -/
def toBe : List PRUnichar := [gt, space, 116, 111, space, 98, 101]

theorem rewrap_returns_wide :
    (∃ fuel aOutString, Rewrap toBe 8 (some everywhere) fuel 0 true = some aOutString) ↔
      ∀ st, Reached toBe 8 (some everywhere) st → ¬ Cramped toBe 8 st.posInString :=
  rewrap_returns_iff (by decide +kernel) (by decide) (by simp [everywhere_legal]) 0 true

/-- The text `> to be` is not wrapped to three columns: one quoted line after the other is begun. -/
theorem not_rewrap_returns : ¬ ∀ (tString : List PRUnichar) (aWrapCol : ℕ)
    (lineBreaker : Option LineBreaker) (aFirstLineOffset : ℕ) (aRespectNewlines : Bool),
    tString.length < 2 ^ 30 → aWrapCol < 2 ^ 32 → (∀ lb ∈ lineBreaker, lb.Legal) →
    ∃ fuel aOutString, Rewrap tString aWrapCol lineBreaker fuel aFirstLineOffset aRespectNewlines =
      some aOutString := by
  intro h
  obtain ⟨fuel, out, hret⟩ := h toBe 3 (some everywhere) 0 true (by decide +kernel)
    (by decide) (by simp [everywhere_legal])
  obtain ⟨st, hloop, -⟩ := Option.map_eq_some_iff.mp hret
  cases fuel with
  | zero => simp [outerLoop] at hloop
  | succ fuel =>
    have hcramped : Cramped toBe 3 0 := by
      exact ⟨by decide +kernel, by decide +kernel, by decide +kernel, 116, by decide +kernel,
        by decide⟩
    rw [outerLoop, if_pos (by decide +kernel),
      Outer.start.lineStep_cramped (by decide +kernel) (by decide +kernel) hcramped] at hloop
    simp at hloop

end Kompozer.Citer

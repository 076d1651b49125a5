import Kompozer.Lib.Trim

/-! Quoted text (`GetCiteString` in `nsInternetCiter.cpp`). Trailing line breaks are looked for at
the iterator behind the string, which points at no character of it. -/

namespace Kompozer.Citer

/-! ### The model -/

abbrev PRUnichar := UInt16

def gt : PRUnichar := 62
def space : PRUnichar := 32
def nbsp : PRUnichar := 0xa0
def nl : PRUnichar := 10
def cr : PRUnichar := 13

/-- The first loop: where `endIter` comes to stand. Behind the string there is another character,
the NUL of a string that ends with one. -/
def stripEnd (aInString : List PRUnichar) (behind : PRUnichar) : ℕ → ℕ
  | 0 => 0
  | n + 1 =>
    if (aInString ++ [behind]).getD (n + 1) 0 = cr ∨
        (aInString ++ [behind]).getD (n + 1) 0 = nl then
      stripEnd aInString behind n
    else n + 1

/-- The second loop, with the last character that was copied. -/
def citeLoop : List PRUnichar → PRUnichar → List PRUnichar → List PRUnichar × PRUnichar
  | [], uch, aOutString => (aOutString, uch)
  | c :: rest, uch, aOutString =>
    let aOutString := if uch = nl then
      (if c ≠ gt then aOutString ++ [gt] ++ [space] else aOutString ++ [gt]) else aOutString
    citeLoop rest c (aOutString ++ [c])

/-- `GetCiteString`. -/
def GetCiteString (aInString : List PRUnichar) (behind : PRUnichar) : List PRUnichar :=
  let (aOutString, uch) :=
    citeLoop (aInString.take (stripEnd aInString behind aInString.length)) nl []
  if uch ≠ nl then aOutString ++ [nl] else aOutString

/-! ### What it is for -/

def IsBreak (c : PRUnichar) : Bool := c = cr || c = nl

/-- A quoted line. -/
def citeLine (line : List PRUnichar) : List PRUnichar :=
  if line.head? = some gt then gt :: line else gt :: space :: line

/-- The lines of a text; an empty text has none. -/
def linesOf (text : List PRUnichar) : List (List PRUnichar) :=
  if text = [] then [] else text.splitOn nl

/-- The text without its trailing line breaks, quoted, and one newline. -/
def quoted (aInString : List PRUnichar) : List PRUnichar :=
  [nl].intercalate ((linesOf (aInString.rdropWhile IsBreak)).map citeLine) ++ [nl]

/-! ### The second loop -/

/-- What the second loop appends. -/
def cited : List PRUnichar → PRUnichar → List PRUnichar
  | [], _ => []
  | c :: rest, uch =>
    (if uch = nl then (if c ≠ gt then [gt, space] else [gt]) else []) ++ c :: cited rest c

theorem citeLoop_eq (l : List PRUnichar) (uch : PRUnichar) (out : List PRUnichar) :
    citeLoop l uch out = (out ++ cited l uch, (uch :: l).getLast (List.cons_ne_nil _ _)) := by
  induction l generalizing uch out with
  | nil => simp [citeLoop, cited]
  | cons c rest ih =>
    rw [citeLoop, ih, cited]
    congr 1
    split_ifs <;> simp

theorem cited_append (a b : List PRUnichar) (uch : PRUnichar) :
    cited (a ++ b) uch = cited a uch ++ cited b ((uch :: a).getLast (List.cons_ne_nil _ _)) := by
  induction a generalizing uch with
  | nil => rfl
  | cons c a ih =>
    rw [List.cons_append, cited, cited, ih]
    simp

theorem length_le_cited (l : List PRUnichar) (uch : PRUnichar) :
    l.length ≤ (cited l uch).length := by
  induction l generalizing uch with
  | nil => exact Nat.zero_le _
  | cons c rest ih =>
    have h := ih c
    simp only [cited, List.length_append, List.length_cons]
    omega

/-- Inside a line nothing is put in front of a character. -/
theorem cited_of_notMem {l : List PRUnichar} (h : nl ∉ l) {uch : PRUnichar} (huch : uch ≠ nl) :
    cited l uch = l := by
  induction l generalizing uch with
  | nil => rfl
  | cons c rest ih =>
    rw [List.mem_cons, not_or] at h
    rw [cited, if_neg huch, ih h.2 (Ne.symm h.1), List.nil_append]

theorem cited_line {line : List PRUnichar} (h : nl ∉ line) (hne : line ≠ []) :
    cited line nl = citeLine line := by
  cases line with
  | nil => exact absurd rfl hne
  | cons c rest =>
    rw [List.mem_cons, not_or] at h
    rw [cited, if_pos rfl, cited_of_notMem h.2 (Ne.symm h.1), citeLine, List.head?_cons]
    by_cases hc : c = gt <;> simp [hc]

/-- A line and its newline. -/
theorem cited_line_append {line : List PRUnichar} (h : nl ∉ line) (rest : List PRUnichar) :
    cited (line ++ nl :: rest) nl = citeLine line ++ nl :: cited rest nl := by
  cases line with
  | nil => rfl
  | cons c l =>
    have hlast : (nl :: c :: l).getLast (List.cons_ne_nil _ _) ≠ nl := by
      intro hlast
      rw [List.getLast_cons_cons] at hlast
      exact h (hlast ▸ List.getLast_mem _)
    rw [cited_append, cited_line h (by simp), cited, if_neg hlast]
    rfl

/-- A text and a newline: all of its lines. -/
theorem cited_newline (text : List PRUnichar) :
    cited (text ++ [nl]) nl = [nl].intercalate ((text.splitOn nl).map citeLine) ++ [nl] := by
  induction h : text.length using Nat.strongRecOn generalizing text with
  | ind n ih =>
    by_cases hmem : nl ∈ text
    · obtain ⟨line, rest, rfl, hline⟩ := List.eq_append_cons_of_mem hmem
      have hlt : rest.length < n := by
        simp only [List.length_append, List.length_cons] at h
        omega
      obtain ⟨l, ls, hls⟩ := List.exists_cons_of_ne_nil (List.splitOn_ne_nil nl rest)
      rw [List.append_assoc, List.cons_append, cited_line_append hline, ih _ hlt rest rfl,
        List.splitOn_append_cons_self_of_not_mem hline, hls]
      simp only [List.map_cons, List.intercalate_cons_cons]
      simp
    · rw [cited_line_append hmem, List.splitOn_eq_singleton hmem]
      simp [cited]

/-! ### The first loop -/

/-- The loop begins behind the string: it stops there unless a line break follows the string in its
buffer. -/
theorem stripEnd_of_not_isBreak {s : List PRUnichar} {behind : PRUnichar}
    (h : IsBreak behind = false) : stripEnd s behind s.length = s.length := by
  have hget : (s ++ [behind]).getD s.length 0 = behind := by simp
  have hnot : ¬ (behind = cr ∨ behind = nl) := by simpa [IsBreak] using h
  cases hn : s.length with
  | zero => rfl
  | succ n => rw [stripEnd, ← hn, hget, if_neg hnot]

/-- If one does, the last character that is no line break goes, too. -/
theorem take_stripEnd_of_isBreak {s : List PRUnichar} {behind : PRUnichar}
    (h : IsBreak behind = true) :
    s.take (stripEnd s behind s.length) = (s.rdropWhile IsBreak).dropLast := by
  have hstep : ∀ (a b : List PRUnichar) (c : PRUnichar), s = a ++ c :: b → IsBreak c = false →
      (∀ d ∈ b, IsBreak d = true) → ∀ n, a.length ≤ n → n ≤ s.length →
      stripEnd s behind n = a.length := by
    intro a b c hs hc hb n hle hn
    induction n with
    | zero => exact (Nat.le_zero.mp hle).symm
    | succ n ih =>
      have hget : (s ++ [behind]).getD (n + 1) 0 =
          (c :: (b ++ [behind])).getD (n + 1 - a.length) 0 := by
        rw [hs, List.append_assoc, List.getD_append_right _ _ _ _ hle]
        rfl
      rcases Nat.eq_or_lt_of_le hle with heq | hlt
      · have hnot : ¬ (c = cr ∨ c = nl) := by simpa [IsBreak] using hc
        rw [stripEnd, hget, ← heq, Nat.sub_self, List.getD_cons_zero, if_neg hnot]
      · have hmem : (c :: (b ++ [behind])).getD (n + 1 - a.length) 0 ∈ b ++ [behind] := by
          have hsucc : n + 1 - a.length = (n - a.length) + 1 := by omega
          have hlen : n - a.length < (b ++ [behind]).length := by
            rw [hs] at hn
            simp only [List.length_append, List.length_cons] at hn ⊢
            omega
          rw [hsucc, List.getD_cons_succ, List.getD_eq_getElem _ _ hlen]
          exact List.getElem_mem hlen
        have hbreak : IsBreak ((c :: (b ++ [behind])).getD (n + 1 - a.length) 0) = true := by
          rcases List.mem_append.mp hmem with hmem | hmem
          · exact hb _ hmem
          · rw [List.mem_singleton.mp hmem]
            exact h
        rw [stripEnd, hget, if_pos (by simpa [IsBreak] using hbreak)]
        exact ih (by omega) (by omega)
  have hall : (∀ d ∈ s, IsBreak d = true) → ∀ n ≤ s.length, stripEnd s behind n = 0 := by
    intro hs n hn
    induction n with
    | zero => rfl
    | succ n ih =>
      have hlen : n + 1 < (s ++ [behind]).length := by
        rw [List.length_append, List.length_singleton]
        omega
      have hbreak : IsBreak ((s ++ [behind]).getD (n + 1) 0) = true := by
        rw [List.getD_eq_getElem _ _ hlen]
        rcases List.mem_append.mp (List.getElem_mem hlen) with hmem | hmem
        · exact hs _ hmem
        · rw [List.mem_singleton.mp hmem]
          exact h
      rw [stripEnd, if_pos (by simpa [IsBreak] using hbreak)]
      exact ih (by omega)
  by_cases hs : ∀ d ∈ s, IsBreak d = true
  · rw [hall hs _ (Nat.le_refl _), List.rdropWhile_eq_nil_iff.mpr hs]
    rfl
  · have hne : s.rdropWhile IsBreak ≠ [] := fun hnil => hs (List.rdropWhile_eq_nil_iff.mp hnil)
    have hlast := List.rdropWhile_last_not IsBreak s hne
    set a := (s.rdropWhile IsBreak).dropLast with ha
    set c := (s.rdropWhile IsBreak).getLast hne with hc
    have hsplit : s = a ++ c :: s.rtakeWhile IsBreak := by
      rw [← List.singleton_append, ← List.append_assoc, ha, hc, List.dropLast_append_getLast,
        List.rdropWhile_append_rtakeWhile]
    rw [hstep a _ c hsplit (by simpa using hlast) (fun d hd => List.mem_rtakeWhile_imp hd) _
      (by rw [hsplit]; simp) (Nat.le_refl _)]
    conv_lhs => rw [hsplit]
    rw [List.take_left']
    rfl

/-! ### Quoted text -/

theorem GetCiteString_eq (s : List PRUnichar) (behind : PRUnichar) :
    GetCiteString s behind =
      let text := s.take (stripEnd s behind s.length)
      cited text nl ++ if (nl :: text).getLast (List.cons_ne_nil _ _) ≠ nl then [nl] else [] := by
  simp only [GetCiteString, citeLoop_eq, List.nil_append]
  split_ifs <;> simp

theorem quoted_eq {s : List PRUnichar} (h : s.rdropWhile IsBreak ≠ []) :
    quoted s = cited (s.rdropWhile IsBreak ++ [nl]) nl := by
  rw [quoted, linesOf, if_neg h, cited_newline]

theorem quoted_eq_nl {s : List PRUnichar} (h : s.rdropWhile IsBreak = []) : quoted s = [nl] := by
  rw [quoted, linesOf, if_pos h]
  rfl

/-- A longer text is longer when it is quoted. -/
theorem length_cited_lt {a b : List PRUnichar} (ha : (nl :: a).getLast (List.cons_ne_nil _ _) ≠ nl)
    (hb : b ≠ []) : (cited (a ++ [nl]) nl).length < (cited (a ++ b ++ [nl]) nl).length := by
  have hle := length_le_cited (b ++ [nl]) ((nl :: a).getLast (List.cons_ne_nil _ _))
  have hpos := List.length_pos_of_ne_nil hb
  rw [List.append_assoc, cited_append, cited_append a (b ++ [nl]), cited, if_neg ha, cited]
  simp only [List.length_append, List.length_cons, List.length_nil] at hle ⊢
  omega

theorem getLast_rdropWhile_ne {s : List PRUnichar} (h : s.rdropWhile IsBreak ≠ []) :
    (nl :: s.rdropWhile IsBreak).getLast (List.cons_ne_nil _ _) ≠ nl := by
  have hlast := List.rdropWhile_last_not IsBreak s h
  rw [List.getLast_cons h]
  intro heq
  rw [heq] at hlast
  exact hlast (by decide)

/-- A text that a newline ends is quoted as it should be if it is the text without its line
breaks. -/
theorem cited_eq_quoted_iff {s s₁ : List PRUnichar}
    (h : s₁.rdropWhile IsBreak = s.rdropWhile IsBreak) : cited (s₁ ++ [nl]) nl = quoted s ↔
      s.rdropWhile IsBreak ≠ [] ∧ s₁ = s.rdropWhile IsBreak := by
  by_cases hnil : s.rdropWhile IsBreak = []
  · rw [quoted_eq_nl hnil]
    refine iff_of_false (fun heq => ?_) fun h => h.1 hnil
    cases s₁ with
    | nil => exact absurd heq (by decide)
    | cons c l =>
      have hle := length_le_cited (l ++ [nl]) c
      have hlen := congrArg List.length heq
      rw [List.cons_append, cited, if_pos rfl] at hlen
      simp only [List.length_append, List.length_cons, List.length_nil] at hle hlen
      omega
  · rw [quoted_eq hnil, and_iff_right hnil]
    refine ⟨fun heq => ?_, fun heq => by rw [heq]⟩
    by_contra hne
    have hsplit : s₁ = s.rdropWhile IsBreak ++ s₁.rtakeWhile IsBreak := by
      rw [← h, List.rdropWhile_append_rtakeWhile]
    have hrest : s₁.rtakeWhile IsBreak ≠ [] := fun hrest => by
      rw [hrest, List.append_nil] at hsplit
      exact hne hsplit
    have hlt := length_cited_lt (getLast_rdropWhile_ne hnil) hrest
    rw [← hsplit, heq] at hlt
    exact Nat.lt_irrefl _ hlt

/-- `GetCiteString` quotes as it should when the text is not empty without its trailing line
breaks, has no more of them than one newline, and no line break follows it in its buffer. -/
theorem getCiteString_exact_iff (s : List PRUnichar) (behind : PRUnichar) :
    GetCiteString s behind = quoted s ↔ IsBreak behind = false ∧ s.rdropWhile IsBreak ≠ [] ∧
      (s = s.rdropWhile IsBreak ∨ s = s.rdropWhile IsBreak ++ [nl]) := by
  rw [GetCiteString_eq]
  cases hb : IsBreak behind with
  | true =>
    rw [take_stripEnd_of_isBreak hb]
    refine iff_of_false (fun heq => ?_) fun h => by simp at h
    by_cases hnil : s.rdropWhile IsBreak = []
    · rw [quoted_eq_nl hnil, hnil] at heq
      exact absurd heq (by decide)
    · rw [quoted_eq hnil] at heq
      obtain ⟨d, c, hd⟩ := List.eq_nil_or_concat' (s.rdropWhile IsBreak) |>.resolve_left hnil
      have hle := length_le_cited ([c] ++ [nl]) ((nl :: d).getLast (List.cons_ne_nil _ _))
      have hlen := congrArg List.length heq
      simp only [hd, List.dropLast_concat, List.append_assoc, cited_append d, List.length_append]
        at hlen
      split_ifs at hlen
      all_goals
        simp only [List.length_append, List.length_cons, List.length_nil] at hlen hle
        omega
  | false =>
    rw [stripEnd_of_not_isBreak hb, List.take_length]
    dsimp only
    rw [and_iff_right rfl]
    cases s using List.reverseRecOn with
    | nil => exact iff_of_false (by decide) (by simp)
    | append_singleton l c =>
      have hlast : (nl :: (l ++ [c])).getLast (List.cons_ne_nil _ _) = c := by
        rw [List.getLast_cons (by simp), List.getLast_append_singleton]
      rw [hlast]
      by_cases hc : c = nl
      · rw [if_neg (not_not.mpr hc), List.append_nil, hc]
        have hdrop : l.rdropWhile IsBreak = (l ++ [nl]).rdropWhile IsBreak :=
          (List.rdropWhile_concat_pos _ _ _ (by decide)).symm
        rw [cited_eq_quoted_iff hdrop]
        refine and_congr_right fun hne => ?_
        have hnot : l ++ [nl] ≠ (l ++ [nl]).rdropWhile IsBreak := by
          intro heq
          have hlast := List.rdropWhile_last_not IsBreak (l ++ [nl]) hne
          rw [List.getLast_congr _ (by simp) heq.symm, List.getLast_append_singleton] at hlast
          exact hlast (by decide)
        rw [or_iff_right hnot, List.append_left_inj]
      · have hcited : cited (l ++ [c]) nl ++ [nl] = cited (l ++ [c] ++ [nl]) nl := by
          rw [cited_append (l ++ [c]) [nl], hlast, cited, if_neg hc]
          rfl
        rw [if_pos hc, hcited, cited_eq_quoted_iff rfl]
        refine and_congr_right fun hne => ?_
        refine (or_iff_left fun heq => hc ?_).symm
        exact (List.append_inj' heq rfl).2 |> List.singleton_injective

/-- Two newlines at the end: a quoted empty line. -/
theorem not_quoted_newlines :
    GetCiteString [97, nl, nl] 0 ≠ quoted [97, nl, nl] := by decide +kernel

end Kompozer.Citer

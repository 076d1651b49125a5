import Kompozer.Net.Bytes
import Kompozer.Lib.Trim

/-! The filter for URI strings (`net_FilterURIString` in `nsURLHelper.cpp`), turn by turn, and what
is left at the end of a string: the loop for the trailing spaces stops at the last character that
was removed, so that spaces in front of it stay. -/

namespace Kompozer.Net

open Prefs (ascii)
open Lib

/-! ### The loop -/

/-- The two loops behind the leading white space, where `str` is what is not appended yet. -/
def filterLoop : NsCString → (str result : NsCString) → (writing : Bool) → Option NsCString
  | [], str, result, writing =>
    let kept := str.rdropWhile (· == space)
    if writing || kept.length < str.length then some (result ++ kept) else none
  | c :: p, str, result, writing =>
    if isLineChar c then filterLoop p [] (result ++ str) true
    else filterLoop p (str ++ [c]) result writing

/-- What is left of a string without white space in front. -/
def keepLines (text : NsCString) : NsCString :=
  (text.rdropWhile (!isLineChar ·)).filter (!isLineChar ·) ++
    (text.rtakeWhile (!isLineChar ·)).rdropWhile (· == space)

theorem keepLines_of_free {text : NsCString} (h : ∀ c ∈ text, isLineChar c = false) :
    keepLines text = text.rdropWhile (· == space) := by
  have hall : ∀ c ∈ text, (!isLineChar c) = true := fun c hc => by simp [h c hc]
  rw [keepLines, List.rdropWhile_eq_nil_iff.mpr hall, List.rtakeWhile_eq_self_iff.mpr hall]
  rfl

theorem keepLines_append_cons {str : NsCString} (hstr : ∀ c ∈ str, isLineChar c = false)
    {c : UInt8} (hc : isLineChar c = true) (p : NsCString) :
    keepLines (str ++ c :: p) = str ++ keepLines p := by
  have hc' : (!isLineChar c) = false := by simp [hc]
  have hfilter : str.filter (!isLineChar ·) = str :=
    List.filter_eq_self.mpr fun c hc => by simp [hstr c hc]
  rw [keepLines, rdropWhile_append_cons (p := (!isLineChar ·)) hc',
    rtakeWhile_append_cons (p := (!isLineChar ·)) hc', List.filter_append, hfilter,
    List.filter_cons_of_neg (by simp [hc]), List.append_assoc]
  rfl

theorem keepLines_sublist (text : NsCString) : (keepLines text).Sublist text := by
  have hall : text.rdropWhile (!isLineChar ·) ++ text.rtakeWhile (!isLineChar ·) = text :=
    List.rdropWhile_append_rtakeWhile
  have happ := (List.filter_sublist (p := (!isLineChar ·))
    (l := text.rdropWhile (!isLineChar ·))).append
      (List.rdropWhile_prefix (· == space) (text.rtakeWhile (!isLineChar ·))).sublist
  rwa [hall] at happ

theorem filterLoop_eq (p : NsCString) {str : NsCString} (hstr : ∀ c ∈ str, isLineChar c = false)
    (result : NsCString) (writing : Bool) :
    filterLoop p str result writing =
      if writing || (keepLines (str ++ p)).length < (str ++ p).length then
        some (result ++ keepLines (str ++ p))
      else none := by
  induction p generalizing str result writing with
  | nil => rw [List.append_nil, filterLoop, keepLines_of_free hstr]
  | cons c p ih =>
    by_cases hc : isLineChar c = true
    · have hle := (keepLines_sublist p).length_le
      have hlt : (str ++ keepLines p).length < (str ++ c :: p).length := by
        simp only [List.length_append, List.length_cons]
        omega
      rw [filterLoop, if_pos hc, ih (by simp), keepLines_append_cons hstr hc,
        decide_eq_true hlt]
      simp
    · have hc' : isLineChar c = false := by simpa using hc
      rw [filterLoop, if_neg hc, ih (by simpa [or_imp, forall_and, hc'] using hstr),
        List.append_assoc, List.singleton_append]

/-- The loops of `net_FilterURIString` give what it leaves. -/
theorem net_FilterURIString_eq (str : NsCString) :
    net_FilterURIString str =
      let p := (cString str).dropWhile isBlank
      filterLoop p [] [] (p.length < (cString str).length) := by
  have hle := (keepLines_sublist ((cString str).dropWhile isBlank)).length_le
  have hdrop := ((cString str).dropWhile_suffix isBlank).length_le
  have hiff : (decide (((cString str).dropWhile isBlank).length < (cString str).length) ||
      decide ((keepLines ((cString str).dropWhile isBlank)).length <
        ((cString str).dropWhile isBlank).length)) = true ↔
      (keepLines ((cString str).dropWhile isBlank)).length < (cString str).length := by
    simp only [Bool.or_eq_true, decide_eq_true_eq]
    omega
  dsimp only
  rw [filterLoop_eq _ (by simp), List.nil_append, List.nil_append, if_congr hiff rfl rfl]
  rfl

/-! ### What the filter yields -/

/-- The string that the callers go on with. -/
def filterYields (str : NsCString) : NsCString := (net_FilterURIString str).getD (cString str)

theorem filterYields_eq (str : NsCString) :
    filterYields str = keepLines ((cString str).dropWhile isBlank) := by
  have hsub : (keepLines ((cString str).dropWhile isBlank)).Sublist (cString str) :=
    (keepLines_sublist _).trans (List.dropWhile_sublist _)
  rw [filterYields, net_FilterURIString]
  split_ifs with hlt
  · rfl
  · exact (hsub.eq_of_length_le (not_lt.mp hlt)).symm

/-- The string without the white space at its ends. -/
def filterBody (str : NsCString) : NsCString :=
  ((cString str).dropWhile isBlank).rdropWhile isBlank

/-- The white space at the end, if the string does not consist of white space. -/
def endBlanks (str : NsCString) : NsCString :=
  ((cString str).dropWhile isBlank).rtakeWhile isBlank

/-- The white space at the end, up to the last character that is removed from it. -/
def endLines (str : NsCString) : NsCString := (endBlanks str).rdropWhile (!isLineChar ·)

theorem isBlank_eq (c : UInt8) : isBlank c = (c == space || isLineChar c) := by
  simp [isBlank, isLineChar, Bool.or_assoc]

theorem isLineChar_of_not_blank {c : UInt8} (h : isBlank c = false) : isLineChar c = false := by
  rw [isBlank_eq, Bool.or_eq_false_iff] at h
  exact h.2

theorem endBlanks_eq (str : NsCString) :
    endBlanks str = endLines str ++ (endBlanks str).rtakeWhile (!isLineChar ·) :=
  List.rdropWhile_append_rtakeWhile.symm

theorem body_append_endBlanks (str : NsCString) :
    filterBody str ++ endBlanks str = (cString str).dropWhile isBlank :=
  List.rdropWhile_append_rtakeWhile

/-- The spaces at the end, behind the last character that is removed. -/
theorem eq_space_of_mem_last {str : NsCString} {c : UInt8}
    (h : c ∈ (endBlanks str).rtakeWhile (!isLineChar ·)) : c = space := by
  have hline : isLineChar c = false := by simpa using List.mem_rtakeWhile_imp h
  have hblank : isBlank c = true :=
    List.mem_rtakeWhile_imp ((List.rtakeWhile_suffix _ _).subset h)
  simpa [isBlank_eq, hline] using hblank

/-- Behind a line end at the end nothing stays. -/
theorem keepLines_concat {a : UInt8} (ha : isLineChar a = true) (text : NsCString)
    {spaces : NsCString} (hspaces : ∀ c ∈ spaces, c = space) :
    keepLines (text ++ [a] ++ spaces) = (text ++ [a]).filter (!isLineChar ·) := by
  have ha' : (!isLineChar a) = false := by simp [ha]
  have hfree : ∀ c ∈ spaces, (!isLineChar c) = true := fun c hc => by
    rw [hspaces c hc]
    rfl
  have hnil : spaces.rdropWhile (· == space) = [] :=
    List.rdropWhile_eq_nil_iff.mpr fun c hc => by simp [hspaces c hc]
  rw [keepLines, List.append_assoc, List.singleton_append,
    rdropWhile_append_cons (p := (!isLineChar ·)) ha',
    rtakeWhile_append_cons (p := (!isLineChar ·)) ha', List.rdropWhile_eq_nil_iff.mpr hfree,
    List.rtakeWhile_eq_self_iff.mpr hfree, hnil, List.append_nil]

/-- Behind another character that is no white space the spaces go. -/
theorem keepLines_spaces {c : UInt8} (hc : isBlank c = false) (text : NsCString)
    {spaces : NsCString} (hspaces : ∀ c ∈ spaces, c = space) :
    keepLines (text ++ [c] ++ spaces) = (text ++ [c]).filter (!isLineChar ·) := by
  have hline := isLineChar_of_not_blank hc
  have hspace : (c == space) = false := by
    rw [isBlank_eq, Bool.or_eq_false_iff] at hc
    exact hc.1
  have hfree : ∀ c ∈ spaces, (!isLineChar c) = true := fun c hc => by
    rw [hspaces c hc]
    rfl
  have htake : (text ++ [c]).rtakeWhile (!isLineChar ·) =
      text.rtakeWhile (!isLineChar ·) ++ [c] :=
    List.rtakeWhile_concat_pos _ _ _ (by simp [hline])
  have hlast : (text.rtakeWhile (!isLineChar ·) ++ [c]).filter (!isLineChar ·) =
      text.rtakeWhile (!isLineChar ·) ++ [c] :=
    List.filter_eq_self.mpr fun d hd =>
      List.mem_rtakeWhile_imp (p := (!isLineChar ·)) (htake ▸ hd)
  have hkeep : (text.rtakeWhile (!isLineChar ·) ++ [c]).rdropWhile (· == space) =
      text.rtakeWhile (!isLineChar ·) ++ [c] :=
    List.rdropWhile_concat_neg _ _ _ (by simp [hspace])
  have hall : (text ++ [c]).rdropWhile (!isLineChar ·) ++ (text ++ [c]).rtakeWhile (!isLineChar ·) =
      text ++ [c] := List.rdropWhile_append_rtakeWhile
  rw [keepLines, rdropWhile_append_of_pos (p := (!isLineChar ·)) hfree,
    rtakeWhile_append_of_pos (p := (!isLineChar ·)) hfree,
    rdropWhile_append_of_pos (p := (· == space)) fun d hd => by simp [hspaces d hd], htake, hkeep]
  conv_rhs => rw [← hall, List.filter_append, htake, hlast]

/-- What is left: the line ends are gone, and the spaces behind the last one at the end. -/
theorem filterYields_parts (str : NsCString) :
    filterYields str = (filterBody str).filter (!isLineChar ·) ++
      (endLines str).filter (!isLineChar ·) := by
  rw [filterYields_eq, ← body_append_endBlanks, endBlanks_eq, ← List.append_assoc,
    ← List.filter_append]
  have hspaces : ∀ c ∈ (endBlanks str).rtakeWhile (!isLineChar ·), c = space :=
    fun c hc => eq_space_of_mem_last hc
  rcases eq_nil_or_getLast_rdropWhile (!isLineChar ·) (endBlanks str) with hnil | ⟨front, a, ha, hl⟩
  · rw [endLines, hnil, List.append_nil]
    rcases eq_nil_or_getLast_rdropWhile isBlank ((cString str).dropWhile isBlank) with
      hbody | ⟨text, c, htext, hc⟩
    · rw [filterBody, hbody, List.nil_append, keepLines_of_free fun c hc => by
        rw [hspaces c hc]
        rfl]
      exact List.rdropWhile_eq_nil_iff.mpr fun c hc => by simp [hspaces c hc]
    · rw [filterBody, htext]
      exact keepLines_spaces hc text hspaces
  · rw [endLines, ha, ← List.append_assoc]
    exact keepLines_concat (by simpa using hl) _ hspaces

/-! ### The normal form -/

/-- What the filter is for: no line ends, no white space at the ends, every other character, and
nothing to do for a second pass. -/
structure FilterNormal (str result : NsCString) : Prop where
  no_line : ∀ c ∈ result, isLineChar c = false
  no_leading : ∀ c ∈ result.head?, isBlank c = false
  no_trailing : ∀ c ∈ result.getLast?, isBlank c = false
  kept : ∃ front back, (∀ c ∈ front ++ back, c = space) ∧
    (cString str).filter (!isLineChar ·) = front ++ result ++ back
  again : filterYields result = result

/-- A string with nothing to remove is left as it is. -/
theorem filterYields_self {s : NsCString} (h0 : 0 ∉ s) (hline : ∀ c ∈ s, isLineChar c = false)
    (hfirst : ∀ c ∈ s.head?, isBlank c = false) (hlast : ∀ c ∈ s.getLast?, isBlank c = false) :
    filterYields s = s := by
  have hdrop : s.dropWhile isBlank = s := by
    cases s with
    | nil => rfl
    | cons c s => rw [List.dropWhile_cons_of_neg (by simpa using hfirst c rfl)]
  have hspace : s.rdropWhile (· == space) = s := by
    rw [List.rdropWhile_eq_self_iff]
    intro hne
    have hc := hlast _ (List.getLast?_eq_getLast_of_ne_nil hne)
    rw [isBlank_eq, Bool.or_eq_false_iff] at hc
    simpa using hc.1
  rw [filterYields_eq, cString_eq_self h0, hdrop, keepLines_of_free hline, hspace]

theorem zero_notMem_filterYields (str : NsCString) : 0 ∉ filterYields str := by
  intro h
  rw [filterYields_eq] at h
  have hmem : 0 ∈ cString str :=
    (List.dropWhile_sublist _).subset ((keepLines_sublist _).subset h)
  simpa using List.mem_takeWhile_imp hmem

theorem isBlank_of_mem_endLines {str : NsCString} {c : UInt8} (h : c ∈ endLines str) :
    isBlank c = true :=
  List.mem_rtakeWhile_imp ((List.rdropWhile_prefix _ _).subset h)

/-- The white space at the end that is not removed. -/
theorem endLines_filter (str : NsCString) :
    ∀ c ∈ (endLines str).filter (!isLineChar ·), c = space := by
  intro c hc
  rw [List.mem_filter] at hc
  have hblank := isBlank_of_mem_endLines hc.1
  have hline : isLineChar c = false := by simpa using hc.2
  simpa [isBlank_eq, hline] using hblank

theorem endLines_filter_eq_nil_iff (str : NsCString) :
    (endLines str).filter (!isLineChar ·) = [] ↔ space ∉ endLines str := by
  rw [List.filter_eq_nil_iff]
  constructor
  · intro h hspace
    exact h space hspace (by decide)
  · intro h c hc hline
    exact h (endLines_filter str c (List.mem_filter.mpr ⟨hc, hline⟩) ▸ hc)

/-- The characters that stay are those of the string between its spaces. -/
theorem filterYields_kept (str : NsCString) :
    ∃ front back, (∀ c ∈ front ++ back, c = space) ∧
      (cString str).filter (!isLineChar ·) = front ++ filterYields str ++ back := by
  have hblanks : ∀ {blanks : NsCString}, (∀ c ∈ blanks, isBlank c = true) →
      ∀ c ∈ blanks.filter (!isLineChar ·), c = space := by
    intro blanks hblank c hc
    rw [List.mem_filter] at hc
    have hline : isLineChar c = false := by simpa using hc.2
    simpa [isBlank_eq, hline] using hblank c hc.1
  refine ⟨((cString str).takeWhile isBlank).filter (!isLineChar ·),
    ((endBlanks str).rtakeWhile (!isLineChar ·)).filter (!isLineChar ·), fun c hc => ?_, ?_⟩
  · rcases List.mem_append.mp hc with hc | hc
    · exact hblanks (fun d hd => List.mem_takeWhile_imp hd) c hc
    · exact eq_space_of_mem_last (List.mem_filter.mp hc).1
  · conv_lhs => rw [← List.takeWhile_append_dropWhile (p := isBlank) (l := cString str),
      ← body_append_endBlanks, endBlanks_eq]
    rw [filterYields_parts]
    simp only [List.filter_append, List.append_assoc]

/-- The ends of the string without the white space are kept by the filter. -/
theorem filterBody_ends (str : NsCString) :
    (∀ c ∈ ((filterBody str).filter (!isLineChar ·)).head?, isBlank c = false) ∧
      ∀ c ∈ ((filterBody str).filter (!isLineChar ·)).getLast?, isBlank c = false := by
  constructor
  · intro c hc
    rcases eq_nil_or_head_dropWhile isBlank (cString str) with hnil | ⟨d, rest, hd, hblank⟩
    · rw [filterBody, hnil, List.rdropWhile_nil] at hc
      cases hc
    · have hbody : filterBody str = d :: rest.rdropWhile isBlank := by
        rw [filterBody, hd]
        exact rdropWhile_append_cons hblank [] rest
      rw [hbody, List.filter_cons_of_pos (by simp [isLineChar_of_not_blank hblank])] at hc
      rwa [← Option.some.inj hc]
  · intro c hc
    rcases eq_nil_or_getLast_rdropWhile isBlank ((cString str).dropWhile isBlank) with
      hnil | ⟨front, d, hd, hblank⟩
    · rw [filterBody, hnil] at hc
      cases hc
    · have hline := isLineChar_of_not_blank hblank
      rw [filterBody, hd, List.filter_append, List.filter_cons_of_pos (by simp [hline]),
        List.filter_nil, List.getLast?_concat] at hc
      rwa [← Option.some.inj hc]

/-- The filter yields a normal form exactly if in the white space at the end no space stands before
a tab or a line end. -/
theorem net_FilterURIString_normal (str : NsCString) :
    FilterNormal str (filterYields str) ↔ space ∉ endLines str := by
  rw [← endLines_filter_eq_nil_iff]
  constructor
  · intro h
    by_contra hne
    obtain ⟨front, c, hfront⟩ := (List.eq_nil_or_concat _).resolve_left hne
    have hc : c = space := endLines_filter str c (by simp [hfront])
    have hlast : (filterYields str).getLast? = some c := by
      rw [filterYields_parts, hfront, List.concat_eq_append, ← List.append_assoc,
        List.getLast?_concat]
    exact absurd (h.no_trailing c hlast) (by simp [hc, isBlank])
  · intro hnil
    have hyields : filterYields str = (filterBody str).filter (!isLineChar ·) := by
      rw [filterYields_parts, hnil, List.append_nil]
    have hline : ∀ c ∈ filterYields str, isLineChar c = false := by
      intro c hc
      rw [hyields, List.mem_filter] at hc
      simpa using hc.2
    have hends := filterBody_ends str
    rw [← hyields] at hends
    obtain ⟨hfirst, hlast⟩ := hends
    exact ⟨hline, hfirst, hlast, filterYields_kept str,
      filterYields_self (zero_notMem_filterYields str) hline hfirst hlast⟩

/-- A space before a line end at the end stays: of `a`, a space and a line end the space is left. -/
theorem net_FilterURIString_trailing_space :
    ¬ ∀ str, FilterNormal str (filterYields str) := by
  intro h
  have hlast := (h (ascii "a \n")).no_trailing space (by decide)
  exact absurd hlast (by decide)

end Kompozer.Net

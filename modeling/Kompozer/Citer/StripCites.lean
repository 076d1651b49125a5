import Kompozer.Citer.Rewrap

/-! Stripping cites (`nsInternetCiter.cpp`). White space in front of a line goes with them, and so
do line breaks in front of an empty line. -/

namespace Kompozer.Citer

/-- What is cleared at the beginning of a line. -/
def IsCite (c : PRUnichar) : Bool := c = gt || IsAsciiSpace c

theorem isCite_of_isBreak {c : PRUnichar} (h : IsBreak c = true) : IsCite c = true := by
  grind [IsCite, IsAsciiSpace, IsBreak]

theorem length_rest_lt {s : List PRUnichar} (h : s ≠ []) :
    (((s.dropWhile IsCite).dropWhile (!IsBreak ·)).dropWhile IsBreak).length < s.length := by
  obtain ⟨c, s, rfl⟩ := List.exists_cons_of_ne_nil h
  have hle := fun (p : PRUnichar → Bool) l => (List.dropWhile_suffix (l := l) p).length_le
  rw [List.length_cons, Nat.lt_succ_iff]
  refine (hle IsBreak _).trans ?_
  cases hc : IsCite c with
  | true => simpa [hc] using (hle _ _).trans (hle _ s)
  | false =>
    have hb : IsBreak c = false := by grind [isCite_of_isBreak]
    simpa [hc, hb] using hle _ s

/-- The loop over lines: the text and the highest level of cites. -/
def stripLoop (linebreak : PRUnichar) (s aOutString : List PRUnichar) (aCiteLevel : ℕ) :
    List PRUnichar × ℕ :=
  if s = [] then (aOutString, aCiteLevel)
  else
    stripLoop linebreak (((s.dropWhile IsCite).dropWhile (!IsBreak ·)).dropWhile IsBreak)
      (aOutString ++ (s.dropWhile IsCite).takeWhile (!IsBreak ·) ++ [linebreak])
      (max aCiteLevel ((s.takeWhile IsCite).count gt))
termination_by s.length
decreasing_by exact length_rest_lt ‹_›

def StripCitesAndLinebreaks (aInString : List PRUnichar) (aLinebreaksToo : Bool) :=
  stripLoop (if aLinebreaksToo then space else nl) aInString [] 0

theorem filter_dropWhile {p : PRUnichar → Bool} (hp : ∀ c, p c = true → IsCite c = true) (s : List PRUnichar) :
    (s.dropWhile p).filter (!IsCite ·) = s.filter (!IsCite ·) := by
  induction s with
  | nil => rfl
  | cons c s ih => cases hc : p c <;> simp [hc, hp, ih]

theorem stripLoop_lines (b : PRUnichar) (s out : List PRUnichar) (level : ℕ) :
    ∃ lines : List (List PRUnichar),
      (stripLoop b s out level).1 = out ++ lines.flatMap (· ++ [b]) ∧
      (∀ line ∈ lines, (∀ c ∈ line, IsBreak c = false) ∧ ∀ c ∈ line.head?, IsCite c = false) ∧
      lines.flatten.filter (!IsCite ·) = s.filter (!IsCite ·) := by
  induction s, out, level using stripLoop.induct b with
  | case1 out level => exact ⟨[], by simp [stripLoop]⟩
  | case2 s out level h ih =>
    obtain ⟨lines, hout, hlines, hkept⟩ := ih
    rw [stripLoop, if_neg h, hout]
    refine ⟨(s.dropWhile IsCite).takeWhile (!IsBreak ·) :: lines, by simp,
      List.forall_mem_cons.mpr ⟨⟨fun c hc => ?_, fun c hc => ?_⟩, hlines⟩, ?_⟩
    · simpa using List.mem_takeWhile_imp hc
    · have := List.head?_dropWhile_not IsCite s
      grind [List.head?_takeWhile]
    · rw [List.flatten_cons, List.filter_append, hkept,
        filter_dropWhile (fun _ => isCite_of_isBreak), ← List.filter_append,
        List.takeWhile_append_dropWhile, filter_dropWhile fun _ => id]

/-- It puts out lines without breaks that begin with no cite, and loses no text. -/
theorem StripCitesAndLinebreaks_lines (s : List PRUnichar) (b : Bool) :
    ∃ lines : List (List PRUnichar),
      (StripCitesAndLinebreaks s b).1 = lines.flatMap (· ++ [if b then space else nl]) ∧
      (∀ line ∈ lines, (∀ c ∈ line, IsBreak c = false) ∧ ∀ c ∈ line.head?, IsCite c = false) ∧
      lines.flatten.filter (!IsCite ·) = s.filter (!IsCite ·) :=
  stripLoop_lines _ s [] 0

end Kompozer.Citer

import Kompozer.Lib.Ranking

/-! Comparison of version strings (`nsVersionComparator.cpp`). A string is the list of its bytes. -/

namespace Kompozer.Version

def dot : UInt8 := 46
def star : UInt8 := 42
def plus : UInt8 := 43
def minus : UInt8 := 45

def PR_INT32_MAX : ℤ := 2 ^ 31 - 1

/-- `strB` are the `strBlen` characters it points to. -/
structure VersionPart where
  numA : ℤ
  strB : Option (List UInt8)
  numC : ℤ
  extraD : Option (List UInt8)
  deriving DecidableEq, Repr

def isspace (c : UInt8) : Bool := c = 32 || (9 ≤ c && c ≤ 13)

def isdigit (c : UInt8) : Bool := 48 ≤ c && c ≤ 57

/-- The number that digits denote. -/
def digitsValue (digits : List UInt8) : ℤ :=
  digits.foldl (fun n c => 10 * n + (c.toNat - 48)) 0

def isSign (c : UInt8) : Bool := c = plus || c = minus

/-- `strtol` to the base ten: the number at the beginning of a string, as a `long` of 32 bits, and
what stands behind it. -/
def strtol (str : List UInt8) : ℤ × List UInt8 :=
  let signed := str.dropWhile isspace
  let digits := signed.drop (if (signed.take 1).any isSign then 1 else 0)
  let value := digitsValue (digits.takeWhile isdigit)
  if (digits.takeWhile isdigit).isEmpty then (0, str)
  else
    (max (-2 ^ 31) (min (2 ^ 31 - 1) (if signed.take 1 = [minus] then -value else value)),
      digits.dropWhile isdigit)

/-- "0123456789+-". -/
def isNumstart (c : UInt8) : Bool := isdigit c || isSign c

/-- "pre". -/
def kPre : List UInt8 := [112, 114, 101]

/-- What `ParseVP` makes of a part without dots. -/
def parsePart (part : List UInt8) : VersionPart :=
  let num := if part = [star] then (PR_INT32_MAX, []) else strtol part
  let strB := num.2
  if strB.isEmpty then ⟨num.1, none, 0, none⟩
  else if strB.head? = some plus then ⟨Int.bmod (num.1 + 1) (2 ^ 32), some kPre, 0, none⟩
  else
    let numstart := strB.dropWhile fun c => !isNumstart c
    if numstart.isEmpty then ⟨num.1, some strB, 0, none⟩
    else
      let numC := strtol numstart
      ⟨num.1, some (strB.takeWhile fun c => !isNumstart c), numC.1,
        if numC.2.isEmpty then none else some numC.2⟩

/-- The next version part, and what stands behind its dot. -/
def ParseVP : Option (List UInt8) → VersionPart × Option (List UInt8)
  | none => (⟨0, none, 0, none⟩, none)
  | some part =>
    let rest := (part.dropWhile (· ≠ dot)).tail
    (parsePart (part.takeWhile (· ≠ dot)), if rest.isEmpty then none else some rest)

/-- Compare two `PRInt32`. -/
def ns_cmp (n1 n2 : ℤ) : ℤ :=
  if n1 < n2 then -1 else if n1 ≠ n2 then 1 else 0

/-- Compare two null-terminated strings, which may be null pointers. -/
def ns_strcmp : Option (List UInt8) → Option (List UInt8) → ℤ :=
  absentLast (compareLists fun c d => ns_cmp c.toNat d.toNat)

/-- Compare two length-specified strings, which may be null pointers. A `char` has a sign. -/
def ns_strnncmp : Option (List UInt8) → Option (List UInt8) → ℤ :=
  absentLast (compareLists fun c d => ns_cmp c.toInt8.toInt d.toInt8.toInt)

/-- Compares two `VersionPart`s. -/
def CompareVP (v1 v2 : VersionPart) : ℤ :=
  if ns_cmp v1.numA v2.numA ≠ 0 then ns_cmp v1.numA v2.numA
  else if ns_strnncmp v1.strB v2.strB ≠ 0 then ns_strnncmp v1.strB v2.strB
  else if ns_cmp v1.numC v2.numC ≠ 0 then ns_cmp v1.numC v2.numC
  else ns_strcmp v1.extraD v2.extraD

/-- The length of what is left of a version. -/
def leftOf (a : Option (List UInt8)) : ℕ := a.elim 0 fun part => part.length + 1

theorem leftOf_ParseVP_le (a : Option (List UInt8)) : leftOf (ParseVP a).2 ≤ leftOf a := by
  cases a with
  | none => exact le_rfl
  | some part =>
    rw [ParseVP]
    simp only []
    have hdrop := (List.dropWhile_suffix (fun c => decide (c ≠ dot)) (l := part)).length_le
    split_ifs
    · exact Nat.zero_le _
    · simp only [leftOf, Option.elim_some, List.length_tail]
      omega

theorem leftOf_ParseVP_lt {a : Option (List UInt8)} (h : (ParseVP a).2.isSome) :
    leftOf (ParseVP a).2 < leftOf a := by
  cases a with
  | none => simp [ParseVP] at h
  | some part =>
    rw [ParseVP] at h ⊢
    simp only [] at h ⊢
    have hdrop := (List.dropWhile_suffix (fun c => decide (c ≠ dot)) (l := part)).length_le
    split_ifs at h ⊢ with hempty
    · simp at h
    · have hpos : 0 < (part.dropWhile fun c => decide (c ≠ dot)).tail.length :=
        List.length_pos_of_ne_nil (mt List.isEmpty_iff.mpr hempty)
      rw [List.length_tail] at hpos
      simp only [leftOf, Option.elim_some, List.length_tail]
      omega

/-- The loop over the parts. -/
def compareParts (a b : Option (List UInt8)) : ℤ :=
  let va := ParseVP a
  let vb := ParseVP b
  let result := CompareVP va.1 vb.1
  if result ≠ 0 then result
  else if va.2.isSome ∨ vb.2.isSome then compareParts va.2 vb.2
  else result
termination_by leftOf a + leftOf b
decreasing_by
  rename_i h
  have ha := leftOf_ParseVP_le a
  have hb := leftOf_ParseVP_le b
  rcases h with h | h
  · exact Nat.add_lt_add_of_lt_of_le (leftOf_ParseVP_lt h) hb
  · exact Nat.add_lt_add_of_le_of_lt ha (leftOf_ParseVP_lt h)

def NS_CompareVersions (A B : List UInt8) : ℤ := compareParts (some A) (some B)

end Kompozer.Version

/-! `NS_CompareVersions` compares the sequences of the parts of two versions, from the first on and
with parts that are missing read as 0. -/

namespace Kompozer.Version

/-! ### The rank of a part -/

theorem ranks_ns_cmp : Ranks ns_cmp (fun n => n) := by
  constructor <;> intro a b <;> rw [ns_cmp] <;> split_ifs with hlt hne
  · exact iff_of_true (by decide) hlt
  · exact iff_of_false (by decide) hlt
  · exact iff_of_false (by decide) hlt
  · exact iff_of_false id hlt.ne
  · exact iff_of_false (by decide) hne
  · exact iff_of_true rfl (not_not.mp hne)

/-- A part is ranked by its number, its text, the number in the text and the rest of it. -/
def VersionPart.rank (v : VersionPart) : ℤ ×ₗ WithTop (List ℤ) ×ₗ ℤ ×ₗ WithTop (List ℤ) :=
  toLex (v.numA, toLex
    (v.strB.elim ⊤ (fun str => (str.map fun c => c.toInt8.toInt : List ℤ)), toLex
      (v.numC, v.extraD.elim ⊤ (fun str => (str.map fun c => (c.toNat : ℤ) : List ℤ)))))

theorem ranks_CompareVP : Ranks CompareVP VersionPart.rank :=
  (ranks_ns_cmp.comap VersionPart.numA).thenBy
    (((ranks_ns_cmp.comap _).lists.absentLast.comap VersionPart.strB).thenBy
      ((ranks_ns_cmp.comap VersionPart.numC).thenBy
        ((ranks_ns_cmp.comap _).lists.absentLast.comap VersionPart.extraD)))

/-! ### The rank of a version -/

/-- The part that `ParseVP` reads when it is called again and again. -/
def partAt (a : Option (List UInt8)) : ℕ → VersionPart
  | 0 => (ParseVP a).1
  | n + 1 => partAt (ParseVP a).2 n

/-- A version is ranked by all its parts, compared from the first on. -/
noncomputable def versionRank (a : Option (List UInt8)) :
    Lex (ℕ → ℤ ×ₗ WithTop (List ℤ) ×ₗ ℤ ×ₗ WithTop (List ℤ)) :=
  toLex fun n => (partAt a n).rank

theorem versionRank_lt_iff (a b : Option (List UInt8)) : versionRank a < versionRank b ↔
    (ParseVP a).1.rank < (ParseVP b).1.rank ∨ (ParseVP a).1.rank = (ParseVP b).1.rank ∧
      versionRank (ParseVP a).2 < versionRank (ParseVP b).2 := toLex_lt_iff

theorem versionRank_eq_iff (a b : Option (List UInt8)) : versionRank a = versionRank b ↔
    (ParseVP a).1.rank = (ParseVP b).1.rank ∧
      versionRank (ParseVP a).2 = versionRank (ParseVP b).2 := toLex_eq_iff

theorem compareParts_none : compareParts none none = 0 := by
  rw [compareParts]
  exact if_neg (by decide)

/-- A round of the loop. Behind the end of both versions it finds equal parts only. -/
theorem compareParts_eq (a b : Option (List UInt8)) : compareParts a b =
    if CompareVP (ParseVP a).1 (ParseVP b).1 ≠ 0 then CompareVP (ParseVP a).1 (ParseVP b).1
    else compareParts (ParseVP a).2 (ParseVP b).2 := by
  rw [compareParts]
  by_cases hne : CompareVP (ParseVP a).1 (ParseVP b).1 ≠ 0
  · rw [if_pos hne, if_pos hne]
  · rw [if_neg hne, if_neg hne]
    split_ifs with hmore
    · rfl
    · obtain ⟨ha, hb⟩ := not_or.mp hmore
      rw [Option.not_isSome_iff_eq_none.mp ha, Option.not_isSome_iff_eq_none.mp hb,
        compareParts_none]
      exact not_not.mp hne

theorem ranks_compareParts : Ranks compareParts versionRank := by
  have hboth (n : ℕ) : ∀ a b, leftOf a + leftOf b = n →
      (compareParts a b < 0 ↔ versionRank a < versionRank b) ∧
      (compareParts a b = 0 ↔ versionRank a = versionRank b) := by
    induction n using Nat.strong_induction_on with
    | h n ih =>
      rintro a b rfl
      have hrest : (compareParts (ParseVP a).2 (ParseVP b).2 < 0 ↔
            versionRank (ParseVP a).2 < versionRank (ParseVP b).2) ∧
          (compareParts (ParseVP a).2 (ParseVP b).2 = 0 ↔
            versionRank (ParseVP a).2 = versionRank (ParseVP b).2) := by
        have ha := leftOf_ParseVP_le a
        have hb := leftOf_ParseVP_le b
        by_cases hmore : (ParseVP a).2.isSome ∨ (ParseVP b).2.isSome
        · refine ih _ ?_ _ _ rfl
          rcases hmore with hmore | hmore
          · have := leftOf_ParseVP_lt hmore
            omega
          · have := leftOf_ParseVP_lt hmore
            omega
        · obtain ⟨ha, hb⟩ := not_or.mp hmore
          rw [Option.not_isSome_iff_eq_none.mp ha, Option.not_isSome_iff_eq_none.mp hb,
            compareParts_none]
          exact ⟨iff_of_false (lt_irrefl 0) (lt_irrefl _), iff_of_true rfl rfl⟩
      rw [compareParts_eq, versionRank_lt_iff, versionRank_eq_iff]
      exact ranks_CompareVP.ifTie _ _ hrest.1 hrest.2
  exact ⟨fun a b => (hboth _ a b rfl).1, fun a b => (hboth _ a b rfl).2⟩

theorem ranks_NS_CompareVersions : Ranks NS_CompareVersions fun A => versionRank (some A) :=
  ranks_compareParts.comap some

/-! ### The parts of a version -/

theorem splitOn_dot (A : List UInt8) : A.splitOn dot = A.takeWhile (· ≠ dot) ::
    if dot ∈ A then (A.dropWhile (· ≠ dot)).tail.splitOn dot else [] := by
  have hsplit := List.takeWhile_append_dropWhile (p := fun c => decide (c ≠ dot)) (l := A)
  have hnot : dot ∉ A.takeWhile fun c => decide (c ≠ dot) := fun hmem => by
    simpa using List.mem_takeWhile_imp hmem
  split_ifs with hmem
  · cases hrest : A.dropWhile fun c => decide (c ≠ dot) with
    | nil =>
      rw [hrest, List.append_nil] at hsplit
      rw [hsplit] at hnot
      exact absurd hmem hnot
    | cons c rest =>
      have hhead := List.head_dropWhile_not (fun c => decide (c ≠ dot)) (l := A)
        (by rw [hrest]; simp)
      simp only [hrest, List.head_cons, decide_eq_false_iff_not, not_not] at hhead
      subst hhead
      conv_lhs => rw [← hsplit, hrest]
      exact List.splitOn_append_cons_self_of_not_mem hnot _
  · rw [List.splitOn_eq_singleton hmem, List.takeWhile_eq_self_iff.mpr]
    intro c hc
    simpa using ne_of_mem_of_not_mem hc hmem

/-- The parts are what stands between the dots, and a missing part is read as an empty one. -/
theorem partAt_eq (A : List UInt8) (n : ℕ) :
    partAt (some A) n = parsePart ((A.splitOn dot).getD n []) := by
  have hnone (n : ℕ) : partAt none n = parsePart [] := by
    induction n with
    | zero => rfl
    | succ n ih => exact ih
  induction n generalizing A with
  | zero => rw [splitOn_dot]; rfl
  | succ n ih =>
    rw [splitOn_dot, List.getD_cons_succ, partAt, ParseVP]
    simp only []
    split_ifs with hempty hmem hmem
    · rw [hnone, List.isEmpty_iff.mp hempty]
      cases n <;> rfl
    · exact hnone n
    · exact ih _
    · have hall : ∀ c ∈ A, (decide (c ≠ dot)) = true := fun c hc => by
        simpa using ne_of_mem_of_not_mem hc hmem
      rw [List.dropWhile_eq_nil_iff.mpr hall] at hempty
      exact absurd rfl hempty

/-- The rank of a part that is written out. -/
def partRank (part : List UInt8) : ℤ ×ₗ WithTop (List ℤ) ×ₗ ℤ ×ₗ WithTop (List ℤ) :=
  (parsePart part).rank

theorem versionRank_some (A : List UInt8) :
    versionRank (some A) = toLex fun n => partRank ((A.splitOn dot).getD n []) := by
  rw [versionRank]
  congr 1
  funext n
  rw [partAt_eq, partRank]

/-- Parts that rank as 0 does add nothing at the end. -/
theorem splitOn_append_parts (A : List UInt8) (Ps : List (List UInt8)) (h : ∀ P ∈ Ps, dot ∉ P) :
    (A ++ Ps.flatMap (dot :: ·)).splitOn dot = A.splitOn dot ++ Ps := by
  induction Ps generalizing A with
  | nil => rw [List.flatMap_nil, List.append_nil, List.append_nil]
  | cons P Ps ih =>
    rw [List.flatMap_cons, ← List.append_assoc, ih _ fun Q hQ => h Q (List.mem_cons_of_mem _ hQ),
      List.splitOn_append_cons_self, List.splitOn_eq_singleton (h P List.mem_cons_self),
      List.append_assoc, List.singleton_append]

theorem versionRank_append {A : List UInt8} {Ps : List (List UInt8)}
    (h : ∀ P ∈ Ps, dot ∉ P ∧ partRank P = partRank []) :
    versionRank (some (A ++ Ps.flatMap (dot :: ·))) = versionRank (some A) := by
  rw [versionRank_some, versionRank_some, splitOn_append_parts A Ps fun P hP => (h P hP).1]
  congr 1
  funext n
  rcases lt_or_ge n (A.splitOn dot).length with hlt | hge
  · rw [List.getD_append _ _ _ _ hlt]
  · rw [List.getD_append_right _ _ _ _ hge, List.getD_eq_default _ _ hge]
    rcases lt_or_ge (n - (A.splitOn dot).length) Ps.length with hlt | hge
    · rw [List.getD_eq_getElem _ _ hlt]
      exact (h _ (List.getElem_mem hlt)).2
    · rw [List.getD_eq_default _ _ hge]

/-- A part among others. -/
def inVersion (before : List (List UInt8)) (part : List UInt8) (after : List (List UInt8)) :
    List UInt8 := [dot].intercalate (before ++ part :: after)

theorem splitOn_intercalate_dot {parts : List (List UInt8)} (h : parts ≠ []) :
    ([dot].intercalate parts).splitOn dot = parts.flatMap fun part => part.splitOn dot := by
  induction parts with
  | nil => exact absurd rfl h
  | cons part parts ih =>
    cases parts with
    | nil => simp
    | cons part' parts =>
      rw [List.intercalate_cons_cons, List.flatMap_cons, ← ih (List.cons_ne_nil _ _),
        List.append_assoc, List.singleton_append, List.splitOn_append_cons_self]

theorem splitOn_inVersion {part : List UInt8} (h : dot ∉ part) (before after : List (List UInt8)) :
    (inVersion before part after).splitOn dot = (before.flatMap fun part => part.splitOn dot) ++
      part :: after.flatMap fun part => part.splitOn dot := by
  rw [inVersion, splitOn_intercalate_dot (by simp), List.flatMap_append, List.flatMap_cons,
    List.splitOn_eq_singleton h, List.singleton_append]

section Within
variable {part part' : List UInt8} (h : dot ∉ part) (h' : dot ∉ part')
include h h'

theorem versionRank_inVersion_eq (before after : List (List UInt8))
    (heq : partRank part = partRank part') :
    versionRank (some (inVersion before part after)) =
      versionRank (some (inVersion before part' after)) := by
  rw [versionRank_some, versionRank_some, splitOn_inVersion h, splitOn_inVersion h']
  congr 1
  funext n
  rw [← List.getD_map (f := partRank), ← List.getD_map (f := partRank)]
  rw [List.map_append, List.map_append, List.map_cons, List.map_cons, heq]

theorem versionRank_inVersion_lt (before after after' : List (List UInt8))
    (hlt : partRank part < partRank part') :
    versionRank (some (inVersion before part after)) <
      versionRank (some (inVersion before part' after')) := by
  rw [versionRank_some, versionRank_some, splitOn_inVersion h, splitOn_inVersion h']
  refine ⟨(before.flatMap fun part => part.splitOn dot).length, fun j hj => ?_, ?_⟩
  · rw [Pi.toLex_apply, Pi.toLex_apply]
    rw [List.getD_append _ _ _ _ hj, List.getD_append _ _ _ _ hj]
  · rw [Pi.toLex_apply, Pi.toLex_apply]
    rw [List.getD_append_right _ _ _ _ le_rfl, List.getD_append_right _ _ _ _ le_rfl, Nat.sub_self]
    exact hlt

end Within

/-! ### Numbers -/

/-- The spellings of a number: white space, a sign and digits. -/
def Numeral (N : List UInt8) (n : ℤ) : Prop :=
  ∃ spaces sign digits, N = spaces ++ (sign ++ digits) ∧ (∀ c ∈ spaces, isspace c) ∧
    digits ≠ [] ∧ (∀ c ∈ digits, isdigit c) ∧
    (sign = [] ∧ n = digitsValue digits ∨ sign = [plus] ∧ n = digitsValue digits ∨
      sign = [minus] ∧ n = -digitsValue digits)

theorem isSign_iff {c : UInt8} : isSign c ↔ c = plus ∨ c = minus := by
  rw [isSign, Bool.or_eq_true, decide_eq_true_iff, decide_eq_true_iff]

theorem not_isspace_of_isdigit {c : UInt8} (h : isdigit c) : ¬ isspace c := by
  intro hspace
  rw [isspace, Bool.or_eq_true, Bool.and_eq_true, decide_eq_true_iff, decide_eq_true_iff,
    decide_eq_true_iff] at hspace
  rw [isdigit, Bool.and_eq_true, decide_eq_true_iff, decide_eq_true_iff] at h
  rcases hspace with rfl | ⟨-, hle⟩
  · exact absurd h.1 (by decide)
  · exact absurd (UInt8.le_trans h.1 hle) (by decide)

theorem not_isSign_of_isdigit {c : UInt8} (h : isdigit c) : ¬ isSign c := by
  intro hsign
  rcases isSign_iff.mp hsign with rfl | rfl
  · exact absurd h (by decide)
  · exact absurd h (by decide)

/-- Digits are read up to the first character that is none. -/
theorem takeWhile_isdigit {digits text : List UInt8} (h : ∀ c ∈ digits, isdigit c)
    (htext : ∀ c ∈ text.head?, isdigit c = false) :
    (digits ++ text).takeWhile isdigit = digits ∧ (digits ++ text).dropWhile isdigit = text := by
  rw [List.takeWhile_append_of_pos h, List.dropWhile_append_of_pos h]
  cases text with
  | nil => simp
  | cons c text =>
    have hc : ¬ isdigit c = true := by simp [htext c rfl]
    rw [List.takeWhile_cons_of_neg hc, List.dropWhile_cons_of_neg hc, List.append_nil]
    exact ⟨rfl, rfl⟩

section Numeral
variable {N : List UInt8} {n : ℤ} (h : Numeral N n)
include h

theorem Numeral.dot_notMem : dot ∉ N := by
  obtain ⟨spaces, sign, digits, rfl, hspaces, -, hdigits, hsign⟩ := h
  intro hmem
  rcases List.mem_append.mp hmem with hmem | hmem
  · exact absurd (hspaces dot hmem) (by decide)
  rcases List.mem_append.mp hmem with hmem | hmem
  · rcases hsign with ⟨rfl, -⟩ | ⟨rfl, -⟩ | ⟨rfl, -⟩
    · simp at hmem
    · exact absurd hmem (by decide)
    · exact absurd hmem (by decide)
  · exact absurd (hdigits dot hmem) (by decide)

theorem Numeral.ne_star (text : List UInt8) : N ++ text ≠ [star] := by
  obtain ⟨spaces, sign, digits, rfl, -, hne, hdigits, -⟩ := h
  obtain ⟨d, hd⟩ := List.exists_mem_of_ne_nil digits hne
  intro heq
  have hmem : d ∈ [star] := by
    rw [← heq]
    simp [hd]
  rw [List.mem_singleton.mp hmem] at hd
  exact absurd (hdigits star hd) (by decide)

/-- `strtol` reads a number up to the first character that is no digit. -/
theorem Numeral.strtol (text : List UInt8) (htext : ∀ c ∈ text.head?, isdigit c = false) :
    strtol (N ++ text) = (max (-2 ^ 31) (min (2 ^ 31 - 1) n), text) := by
  obtain ⟨spaces, sign, digits, rfl, hspaces, hne, hdigits, hsign⟩ := h
  obtain ⟨htake, hdrop⟩ := takeWhile_isdigit hdigits htext
  obtain ⟨d, ds, rfl⟩ := List.exists_cons_of_ne_nil hne
  have hd := hdigits d List.mem_cons_self
  have hempty : ¬ (d :: ds).isEmpty = true := by simp
  unfold Version.strtol
  rw [List.append_assoc, List.append_assoc, List.dropWhile_append_of_pos hspaces]
  rcases hsign with ⟨rfl, rfl⟩ | ⟨rfl, rfl⟩ | ⟨rfl, rfl⟩
  · have hsigned : ([] ++ (d :: ds ++ text)).dropWhile isspace = d :: ds ++ text :=
      List.dropWhile_cons_of_neg (not_isspace_of_isdigit hd)
    have hno : ¬ ((d :: ds ++ text).take 1).any isSign = true := by
      simpa using not_isSign_of_isdigit hd
    have hminus : ¬ (d :: ds ++ text).take 1 = [minus] := by
      simp only [List.cons_append, List.take_succ_cons, List.take_zero, List.cons.injEq, and_true]
      rintro rfl
      exact absurd hd (by decide)
    simp only [hsigned, if_neg hno, List.drop_zero, htake, hdrop, if_neg hempty, if_neg hminus]
  · have hsigned : ([plus] ++ (d :: ds ++ text)).dropWhile isspace = plus :: (d :: ds ++ text) :=
      List.dropWhile_cons_of_neg (by decide)
    have hdigits' : (plus :: (d :: ds ++ text)).drop (if ([plus].any isSign) = true then 1 else 0) =
        d :: ds ++ text := by rw [if_pos (by decide), List.drop_succ_cons, List.drop_zero]
    simp only [hsigned, List.take_succ_cons, List.take_zero, hdigits', htake, hdrop, if_neg hempty]
    rw [if_neg (by decide)]
  · have hsigned : ([minus] ++ (d :: ds ++ text)).dropWhile isspace = minus :: (d :: ds ++ text) :=
      List.dropWhile_cons_of_neg (by decide)
    have hdigits' :
        (minus :: (d :: ds ++ text)).drop (if ([minus].any isSign) = true then 1 else 0) =
        d :: ds ++ text := by rw [if_pos (by decide), List.drop_succ_cons, List.drop_zero]
    simp only [hsigned, List.take_succ_cons, List.take_zero, hdigits', htake, hdrop, if_neg hempty,
      if_true]

/-- A number alone. -/
theorem Numeral.parsePart_alone :
    parsePart N = ⟨max (-2 ^ 31) (min (2 ^ 31 - 1) n), none, 0, none⟩ := by
  have hread := h.strtol [] (by simp)
  have hstar := h.ne_star []
  rw [List.append_nil] at hread hstar
  unfold parsePart
  simp only [if_neg hstar, hread]
  rfl

theorem Numeral.parsePart_plus : parsePart (N ++ [plus]) =
    ⟨Int.bmod (max (-2 ^ 31) (min (2 ^ 31 - 1) n) + 1) (2 ^ 32), some kPre, 0, none⟩ := by
  have hread := h.strtol [plus] (by simp; decide)
  unfold parsePart
  simp only [if_neg (h.ne_star [plus]), hread]
  rfl

theorem Numeral.parsePart_pre :
    parsePart (N ++ kPre) = ⟨max (-2 ^ 31) (min (2 ^ 31 - 1) n), some kPre, 0, none⟩ := by
  have hread := h.strtol kPre (by simp [kPre]; decide)
  unfold parsePart
  simp only [if_neg (h.ne_star kPre), hread]
  rfl

/-- Behind a number other text is a text of the part. -/
theorem Numeral.parsePart_text {text : List UInt8} (hne : text ≠ [])
    (htext : ∀ c ∈ text.head?, isdigit c = false) (hplus : text.head? ≠ some plus) :
    (parsePart (N ++ text)).numA = max (-2 ^ 31) (min (2 ^ 31 - 1) n) ∧
      (parsePart (N ++ text)).strB ≠ none := by
  have hread := h.strtol text htext
  unfold parsePart
  simp only [if_neg (h.ne_star text), hread, if_neg (mt List.isEmpty_iff.mp hne), if_neg hplus]
  split_ifs <;> simp

end Numeral

/-! ### The part after all others -/

theorem strtol_le (str : List UInt8) : (strtol str).1 ≤ PR_INT32_MAX := by
  unfold strtol PR_INT32_MAX
  simp only []
  by_cases hempty : ((((str.dropWhile isspace).drop
      (if ((str.dropWhile isspace).take 1).any isSign = true then 1 else 0)).takeWhile
        isdigit).isEmpty) = true
  · rw [if_pos hempty]
    exact (by decide : (0 : ℤ) ≤ 2 ^ 31 - 1)
  · rw [if_neg hempty]
    exact max_le (by decide) (min_le_left _ _)

theorem parsePart_numA_le (part : List UInt8) : (parsePart part).numA ≤ PR_INT32_MAX := by
  have hnum : (if part = [star] then (PR_INT32_MAX, []) else strtol part).1 ≤ PR_INT32_MAX := by
    split_ifs
    · exact le_rfl
    · exact strtol_le part
  have hwrap (n : ℤ) : Int.bmod n (2 ^ 32) ≤ PR_INT32_MAX := by
    have hlt := Int.bmod_lt (x := n) (m := 2 ^ 32) (by decide)
    rw [PR_INT32_MAX]
    omega
  unfold parsePart
  simp only []
  generalize (if part = [star] then (PR_INT32_MAX, []) else strtol part) = num at hnum
  split_ifs
  · exact hnum
  · exact hwrap _
  · exact hnum
  · exact hnum
  · exact hnum

/-- A part without a text is a number alone. -/
theorem parsePart_absent (part : List UInt8) (h : (parsePart part).strB = none) :
    (parsePart part).numC = 0 ∧ (parsePart part).extraD = none := by
  unfold parsePart at h ⊢
  simp only [] at h ⊢
  generalize (if part = [star] then (PR_INT32_MAX, []) else strtol part) = num at h
  by_cases hempty : num.2.isEmpty = true
  · rw [if_pos hempty]
    exact ⟨rfl, rfl⟩
  · rw [if_neg hempty] at h
    split_ifs at h

theorem partRank_le_star (part : List UInt8) : partRank part ≤ partRank [star] := by
  have hle := parsePart_numA_le part
  have habsent := parsePart_absent part
  have hstar : partRank [star] = VersionPart.rank ⟨PR_INT32_MAX, none, 0, none⟩ := rfl
  rw [hstar, partRank]
  generalize parsePart part = v at hle habsent
  obtain ⟨numA, strB, numC, extraD⟩ := v
  simp only [] at hle habsent
  rw [VersionPart.rank, VersionPart.rank, Prod.Lex.toLex_le_toLex]
  rcases hle.lt_or_eq with hlt | rfl
  · exact .inl hlt
  refine .inr ⟨rfl, ?_⟩
  cases strB with
  | none =>
    obtain ⟨rfl, rfl⟩ := habsent rfl
    exact le_rfl
  | some str =>
    rw [Prod.Lex.toLex_le_toLex]
    exact .inl (WithTop.coe_lt_top _)

/-- A number is after the number with a text. -/
theorem Numeral.partRank_lt {N text : List UInt8} {n : ℤ} (h : Numeral N n) (hne : text ≠ [])
    (htext : ∀ c ∈ text.head?, isdigit c = false) (hplus : text.head? ≠ some plus) :
    partRank (N ++ text) < partRank N := by
  obtain ⟨hnumA, hstrB⟩ := h.parsePart_text hne htext hplus
  rw [partRank, partRank, h.parsePart_alone, VersionPart.rank, VersionPart.rank, hnumA,
    Prod.Lex.toLex_lt_toLex]
  refine .inr ⟨rfl, ?_⟩
  rw [Prod.Lex.toLex_lt_toLex]
  obtain ⟨str, hstr⟩ := Option.ne_none_iff_exists'.mp hstrB
  rw [hstr]
  exact .inl (WithTop.coe_lt_top _)

/-- `N+` is `(N+1)pre`. -/
theorem Numeral.partRank_plus {N N' : List UInt8} {n : ℤ} (h : Numeral N n)
    (h' : Numeral N' (n + 1)) (hle : -2 ^ 31 ≤ n) (hlt : n + 1 < 2 ^ 31) :
    partRank (N ++ [plus]) = partRank (N' ++ kPre) := by
  have hn : max (-2 ^ 31) (min (2 ^ 31 - 1) n) = n := by omega
  have hn' : max (-2 ^ 31) (min (2 ^ 31 - 1) (n + 1)) = n + 1 := by omega
  have hwrap : Int.bmod (n + 1) (2 ^ 32) = n + 1 :=
    Int.bmod_eq_of_le (by omega) (by omega)
  rw [partRank, partRank, h.parsePart_plus, h'.parsePart_pre, hn, hn', hwrap]

/-! ### The order of versions -/

/-- What holds of a comparison of versions: it is a total preorder, in which missing parts are 0, a
part `N+` is `(N+1)pre`, a number with a text is before the number and `*` is after all others. -/
structure VersionOrder (compare : List UInt8 → List UInt8 → ℤ) : Prop where
  antisymm : ∀ A B, (compare A B).sign = -(compare B A).sign
  trans : ∀ A B C, compare A B ≤ 0 → compare B C ≤ 0 → compare A C ≤ 0
  refl : ∀ A, compare A A = 0
  tie : ∀ A A' B, compare A A' = 0 → (compare A B).sign = (compare A' B).sign
  zeroParts : ∀ (A : List UInt8) (Ps : List (List UInt8)) (B : List UInt8),
    (∀ P ∈ Ps, dot ∉ P ∧ compare P [48] = 0) →
    (compare (A ++ Ps.flatMap (dot :: ·)) B).sign = (compare A B).sign
  finalDot : ∀ A B, (compare (A ++ [dot]) B).sign = (compare A B).sign
  plusPart : ∀ before after N N' n, Numeral N n → Numeral N' (n + 1) → -2 ^ 31 ≤ n →
    n + 1 < 2 ^ 31 →
    compare (inVersion before (N ++ [plus]) after) (inVersion before (N' ++ kPre) after) = 0
  textPart : ∀ before after after' N n text, Numeral N n → text ≠ [] → dot ∉ text →
    (∀ c ∈ text.head?, isdigit c = false) → text.head? ≠ some plus →
    compare (inVersion before (N ++ text) after) (inVersion before N after') < 0
  starPart : ∀ before part after, dot ∉ part →
    compare (inVersion before part after) (inVersion before [star] after) ≤ 0

/-- A part that ties with 0 ranks as a missing part. -/
theorem partRank_of_tie {P : List UInt8} (hdot : dot ∉ P) (h : NS_CompareVersions P [48] = 0) :
    partRank P = partRank [] := by
  have hrank := congrFun (congrArg ofLex ((ranks_NS_CompareVersions.eq P [48]).mp h)) 0
  simp only [versionRank_some] at hrank
  rw [List.splitOn_eq_singleton hdot] at hrank
  exact hrank

theorem compareVersions_order : VersionOrder NS_CompareVersions where
  antisymm := ranks_NS_CompareVersions.swap
  trans _ _ _ := ranks_NS_CompareVersions.trans
  refl := ranks_NS_CompareVersions.refl
  tie _ _ B h := ranks_NS_CompareVersions.tie h B
  zeroParts A Ps B h := ranks_NS_CompareVersions.congr
    (versionRank_append fun P hP => ⟨(h P hP).1, partRank_of_tie (h P hP).1 (h P hP).2⟩) B
  finalDot A B := by
    have hrank : versionRank (some (A ++ [[]].flatMap (dot :: ·))) = versionRank (some A) :=
      versionRank_append (by simp)
    exact ranks_NS_CompareVersions.congr hrank B
  plusPart before after N N' n h h' hle hlt := by
    have hdot : dot ∉ N ++ [plus] := by
      rw [List.mem_append, not_or]
      exact ⟨h.dot_notMem, by decide⟩
    have hdot' : dot ∉ N' ++ kPre := by
      rw [List.mem_append, not_or]
      exact ⟨h'.dot_notMem, by decide⟩
    exact (ranks_NS_CompareVersions.eq _ _).mpr
      (versionRank_inVersion_eq hdot hdot' before after (h.partRank_plus h' hle hlt))
  textPart before after after' N n text h hne hdot htext hplus := by
    have hdot' : dot ∉ N ++ text := by
      rw [List.mem_append, not_or]
      exact ⟨h.dot_notMem, hdot⟩
    exact (ranks_NS_CompareVersions.lt _ _).mpr
      (versionRank_inVersion_lt hdot' h.dot_notMem before after after'
        (h.partRank_lt hne htext hplus))
  starPart before part after hdot := by
    have hstar : dot ∉ [star] := by decide
    rw [ranks_NS_CompareVersions.le]
    rcases (partRank_le_star part).lt_or_eq with hlt | heq
    · exact (versionRank_inVersion_lt hdot hstar before after after hlt).le
    · exact (versionRank_inVersion_eq hdot hstar before after heq).le

end Kompozer.Version

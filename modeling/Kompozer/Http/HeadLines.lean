import Kompozer.Http.HeadEdits
import Kompozer.Prefs.RoundTrip

/-! The lines of a flattened head. `Parse` runs over the lines of a text as the calls of
`ParseHeaderLine` did, and a line that was written from a clean header is read as that header. -/

namespace Kompozer.Http

open Net (NsCString cString CR LF colon space dot slash TAB)
open Prefs (ascii isdigit isspace atoi decimal digitsValue)

/-! ### Ends of lines -/

theorem splitLine_append_end {s : NsCString} (h : splitLine s = none) (rest : NsCString) :
    splitLine (s ++ CR :: LF :: rest) = some (s, rest) := by
  fun_induction splitLine s with
  | case1 c d s hend => exact absurd h (by simp)
  | case2 c d s hend ih =>
    have ih := ih (Option.map_eq_none_iff.mp h)
    rw [List.cons_append, List.cons_append, splitLine, if_neg hend, ← List.cons_append, ih]
    rfl
  | case3 s hs =>
    match s with
    | [] => rfl
    | [c] =>
      rw [List.singleton_append, splitLine, if_neg fun h => absurd h.2 (by decide), splitLine,
        if_pos ⟨rfl, rfl⟩]
      rfl
    | c :: d :: s => exact absurd rfl (hs c d s)

theorem splitLine_eq_some {s line rest : NsCString} (h : splitLine s = some (line, rest)) :
    s = line ++ CR :: LF :: rest ∧ splitLine line = none := by
  fun_induction splitLine s generalizing line with
  | case1 c d s hend =>
    obtain ⟨rfl, rfl⟩ := Prod.mk.inj (Option.some.inj h)
    exact ⟨by rw [hend.1, hend.2]; rfl, rfl⟩
  | case2 c d s hend ih =>
    obtain ⟨⟨l, r⟩, hsome, heq⟩ := Option.map_eq_some_iff.mp h
    obtain ⟨rfl, rfl⟩ := Prod.mk.inj heq
    obtain ⟨hs, hnone⟩ := ih hsome
    refine ⟨by rw [hs]; rfl, ?_⟩
    cases l with
    | nil => rfl
    | cons e l =>
      have hd : d = e := (List.cons.inj hs).1
      rw [splitLine, if_neg (hd ▸ hend), hnone]
      rfl
  | case3 => exact absurd h (by simp)

/-- Another character between two texts makes no end of a line. -/
theorem splitLine_append_none {c : UInt8} (hCR : c ≠ CR) (hLF : c ≠ LF) (w v : NsCString) :
    splitLine (w ++ c :: v) = none ↔ splitLine w = none ∧ splitLine v = none := by
  have hcons : splitLine (c :: v) = none ↔ splitLine v = none := by
    cases v with
    | nil => simp [splitLine]
    | cons d v => rw [splitLine, if_neg fun h => hCR h.1, Option.map_eq_none_iff]
  fun_induction splitLine w with
  | case1 d e w hend =>
    rw [List.cons_append, List.cons_append, splitLine, if_pos hend]
    simp
  | case2 d e w hend ih =>
    rw [List.cons_append, List.cons_append, splitLine, if_neg hend, Option.map_eq_none_iff,
      Option.map_eq_none_iff]
    exact ih
  | case3 w hw =>
    rcases w with _ | ⟨d, _ | ⟨e, w⟩⟩
    · simpa using hcons
    · rw [List.singleton_append, splitLine, if_neg fun h => hLF h.2, Option.map_eq_none_iff, hcons]
      simp
    · exact absurd rfl (hw d e w)

theorem splitLine_of_suffix {s t : NsCString} (h : t <:+ s) (hs : splitLine s = none) :
    splitLine t = none := by
  obtain ⟨u, rfl⟩ := h
  induction u with
  | nil => exact hs
  | cons c u ih =>
    refine ih ?_
    cases hut : u ++ t with
    | nil => rfl
    | cons d r =>
      rw [List.cons_append, hut, splitLine] at hs
      split_ifs at hs
      exact Option.map_eq_none_iff.mp hs

theorem splitLine_of_prefix {s t : NsCString} (h : t <+: s) (hs : splitLine s = none) :
    splitLine t = none := by
  cases ht : splitLine t with
  | none => rfl
  | some p =>
    obtain ⟨u, rfl⟩ := h
    have hsplit := splitLine_append_end (splitLine_eq_some ht).2 (p.2 ++ u)
    rw [← List.cons_append, ← List.cons_append, ← List.append_assoc, ← (splitLine_eq_some ht).1,
      hs] at hsplit
    exact absurd hsplit (by simp)

/-! ### The fields of a line -/

namespace nsHttp

variable {name : NsCString}

theorem isTokenChar_of_mem (h : IsValidToken name = true) {c : UInt8} (hc : c ∈ name) :
    isTokenChar c = true :=
  List.all_eq_true.mp (Bool.and_eq_true_iff.mp h).2 c hc

theorem notMem_token (h : IsValidToken name = true) {c : UInt8} (hc : isTokenChar c = false) :
    c ∉ name := fun hmem => by
  rw [isTokenChar_of_mem h hmem] at hc
  exact absurd hc (by simp)

/-- Upper and lower case are both fine in a token. -/
theorem IsValidToken_congr {other : NsCString} (h : PL_strcasecmp name other = true) :
    IsValidToken name = IsValidToken other := by
  have huc : ∀ c : UInt8, isTokenChar c = isTokenChar (uc c) := by
    have hnat : ∀ n < 256, isTokenChar (UInt8.ofNat n) = isTokenChar (uc (UInt8.ofNat n)) := by
      decide +kernel
    intro c
    have hc := hnat c.toNat c.toNat_lt
    rwa [UInt8.ofNat_toNat] at hc
  have hall : ∀ s : NsCString, IsValidToken s = (s.map uc ≠ [] && (s.map uc).all isTokenChar) := by
    intro s
    rw [IsValidToken, List.all_map]
    congr 1
    · simp
    · exact congrArg (List.all s) (funext huc)
  rw [hall, hall, PL_strcasecmp_iff.mp h]

end nsHttp

theorem behind_append {c : UInt8} {s : NsCString} (h : c ∉ s) (t : NsCString) :
    behind c (s ++ c :: t) = some t := by
  induction s with
  | nil => exact if_pos rfl
  | cons d s ih =>
    rw [List.mem_cons, not_or] at h
    rw [List.cons_append, behind, if_neg (Ne.symm h.1), ih h.2]

theorem behind_suffix {c : UInt8} {s p : NsCString} (h : behind c s = some p) : p <:+ s := by
  induction s with
  | nil => exact absurd h (by simp [behind])
  | cons d s ih =>
    unfold behind at h
    split_ifs at h
    · obtain rfl := Option.some.inj h
      exact List.suffix_cons d s
    · exact (ih h).trans (List.suffix_cons d s)

namespace nsHttpHeaderArray

/-- A value that stands in a line as it is, but for white space behind it. -/
structure Plain (value : NsCString) : Prop where
  noNul : 0 ∉ value
  noEnd : splitLine value = none
  front : value.dropWhile HTTP_LWS = value

/-- White space stands neither in front of a value nor behind it. -/
structure Clean (value : NsCString) : Prop extends Plain value where
  back : value.rdropWhile HTTP_LWS = value

theorem dropWhile_rdropWhile (p : UInt8 → Bool) (s : NsCString) :
    ((s.dropWhile p).rdropWhile p).dropWhile p = (s.dropWhile p).rdropWhile p := by
  rw [List.dropWhile_eq_self_iff]
  intro hlen hfirst
  have hpre := List.rdropWhile_prefix p (s.dropWhile p)
  rw [List.IsPrefix.getElem hpre hlen] at hfirst
  have hself : (s.dropWhile p).dropWhile p = s.dropWhile p := List.dropWhile_idempotent p s
  exact List.dropWhile_eq_self_iff.mp hself (hlen.trans_le hpre.length_le) hfirst

/-- What a line says is a token and a clean value. -/
theorem field_clean {line name val : NsCString} (h : field line = some (name, val))
    (hline : IsLine line) : nsHttp.IsValidToken name = true ∧ Clean val := by
  have hnul := notMem_field h hline.1
  unfold field at h
  split at h
  · exact absurd h (by simp)
  · next p hp =>
    dsimp only at h
    split_ifs at h with htoken
    obtain ⟨rfl, rfl⟩ := Prod.mk.inj (Option.some.inj h)
    refine ⟨htoken, ⟨⟨hnul, ?_, dropWhile_rdropWhile _ p⟩, List.rdropWhile_idempotent _ _⟩⟩
    exact splitLine_of_prefix (List.rdropWhile_prefix _ _)
      (splitLine_of_suffix ((List.dropWhile_suffix _).trans (behind_suffix hp)) hline.2)

/-- The line of a header. -/
def written (e : nsEntry) : NsCString := cString e.header._val ++ ascii ": " ++ cString e.value

theorem written_eq {e : nsEntry} (hname : nsHttp.IsValidToken e.header._val = true)
    (hvalue : Clean e.value) : written e = e.header._val ++ colon :: space :: e.value := by
  rw [written, Net.cString_eq_self (nsHttp.notMem_token hname (by decide)),
    Net.cString_eq_self hvalue.noNul, List.append_assoc]
  rfl

/-- A clean header is read as it was written. -/
theorem field_written {e : nsEntry} (hname : nsHttp.IsValidToken e.header._val = true)
    (hvalue : Clean e.value) : field (written e) = some (e.header._val, e.value) := by
  have hcolon : colon ∉ e.header._val := nsHttp.notMem_token hname (by decide)
  have htake : (e.header._val ++ colon :: space :: e.value).takeWhile (· ≠ colon) =
      e.header._val := by
    have hall : ∀ c ∈ e.header._val, decide (c ≠ colon) = true := fun c hc =>
      decide_eq_true fun h => hcolon (h ▸ hc)
    rw [List.takeWhile_append_of_pos hall]
    simp
  have hblank : HTTP_LWS space = true := rfl
  rw [written_eq hname hvalue, field, behind_append hcolon]
  dsimp only
  rw [htake, if_pos hname, List.dropWhile_cons_of_pos hblank, hvalue.front, hvalue.back]

theorem isLine_written {e : nsEntry} (hname : nsHttp.IsValidToken e.header._val = true)
    (hvalue : Clean e.value) : IsLine (written e) := by
  rw [written_eq hname hvalue]
  have hnul : (0 : UInt8) ∉ e.header._val := nsHttp.notMem_token hname (by decide)
  have hCR : CR ∉ e.header._val := nsHttp.notMem_token hname (by decide)
  constructor
  · simp only [List.mem_append, List.mem_cons, not_or]
    exact ⟨hnul, by decide, by decide, hvalue.noNul⟩
  · rw [splitLine_append_none (by decide) (by decide)]
    refine ⟨?_, (splitLine_append_none (by decide) (by decide) [] e.value).mpr
      ⟨rfl, hvalue.noEnd⟩⟩
    cases hsplit : splitLine e.header._val with
    | none => rfl
    | some p => exact absurd (by rw [(splitLine_eq_some hsplit).1]; simp) hCR

end nsHttpHeaderArray

/-! ### The loop over the lines -/

namespace nsHttpResponseHead

theorem parseLoop_nil (head : nsHttpResponseHead) (t : AtomTable) :
    head.parseLoop t [] = (.ok, head, t) := by
  rw [parseLoop, if_pos rfl]

theorem parseLoop_cons (head : nsHttpResponseHead) (t : AtomTable) {line : NsCString}
    (h : splitLine line = none) (rest : NsCString) :
    head.parseLoop t (line ++ CR :: LF :: rest) =
      (head.ParseHeaderLine t line).1.parseLoop (head.ParseHeaderLine t line).2 rest := by
  rw [parseLoop, if_neg (by simp)]
  split
  · next hnone => exact absurd hnone (by rw [splitLine_append_end h]; simp)
  · next l r hsome =>
    rw [splitLine_append_end h] at hsome
    obtain ⟨rfl, rfl⟩ := Prod.mk.inj (Option.some.inj hsome)
    rfl

/-- Lines that were written one behind the other are parsed one after the other. -/
theorem parseLoop_lines (p : Heads) {lines : List NsCString}
    (h : ∀ l ∈ lines, splitLine l = none) :
    p.1.parseLoop p.2 (lines.flatMap fun l => l ++ [CR, LF]) =
      (.ok, p.run (lines.map .ParseHeaderLine)) := by
  induction lines generalizing p with
  | nil => exact parseLoop_nil p.1 p.2
  | cons l lines ih =>
    rw [List.flatMap_cons, List.append_assoc, List.cons_append, List.singleton_append,
      parseLoop_cons _ _ (h l List.mem_cons_self),
      ih _ fun l' hl' => h l' (List.mem_cons_of_mem _ hl')]
    rfl

/-- Whatever is parsed, it is parsed as lines. -/
theorem parseLoop_exists (p : Heads) {block : NsCString} (h : 0 ∉ block) :
    ∃ lines : List NsCString, (∀ l ∈ lines, IsLine l) ∧
      (p.1.parseLoop p.2 block).2 = p.run (lines.map .ParseHeaderLine) := by
  induction hn : block.length using Nat.strong_induction_on generalizing p block with
  | _ n ih =>
    subst hn
    cases hsplit : splitLine block with
    | none =>
      refine ⟨[], fun l hl => absurd hl List.not_mem_nil, ?_⟩
      rw [parseLoop]
      split_ifs
      · rfl
      · split
        · rfl
        · next hsome => exact absurd (hsplit.symm.trans hsome) (by simp)
    | some q =>
      obtain ⟨line, rest⟩ := q
      obtain ⟨rfl, hline⟩ := splitLine_eq_some hsplit
      simp only [List.mem_append, List.mem_cons, not_or] at h
      obtain ⟨lines, hlines, heq⟩ := ih rest.length (length_splitLine hsplit)
        (p.1.ParseHeaderLine p.2 line) h.2.2.2 rfl
      refine ⟨line :: lines, ?_, ?_⟩
      · exact List.forall_mem_cons.mpr ⟨⟨h.1, hline⟩, hlines⟩
      · rw [parseLoop_cons _ _ hline, heq]
        rfl

end nsHttpResponseHead

/-! ### The status line -/

open nsHttpVersion

/-- A status line as it is written. -/
def statusLine (version : nsHttpVersion) (status : UInt16) (text : NsCString) : NsCString :=
  ascii "HTTP/" ++ (if version = NS_HTTP_VERSION_1_1 then ascii "1.1 " else ascii "1.0 ") ++
    decimal status.toNat ++ ascii " " ++ text

theorem atoi_digit {c : UInt8} (hc : isdigit c = true) {d : UInt8} (hd : isdigit d = false)
    (s : NsCString) : atoi (c :: d :: s) = Int32.ofInt (c.toNat - 48 : ℕ) := by
  rw [atoi, List.dropWhile_cons_of_neg (by simp [Prefs.not_isspace_of_isdigit hc])]
  dsimp only
  rw [if_neg (Prefs.ne_of_isdigit hc rfl), if_neg (Prefs.ne_of_isdigit hc rfl), digitsValue,
    List.takeWhile_cons_of_pos hc, List.takeWhile_cons_of_neg (by simp [hd])]
  simp

theorem atoi_decimal (n : ℕ) {d : UInt8} (hd : isdigit d = false) (s : NsCString) :
    atoi (decimal n ++ d :: s) = Int32.ofInt n := by
  have hdigits : ∀ c ∈ decimal n, isdigit c = true := fun c hc => Prefs.isdigit_decimal hc
  have hvalue : digitsValue (decimal n ++ d :: s) = n := by
    rw [digitsValue, List.takeWhile_append_of_pos hdigits,
      List.takeWhile_cons_of_neg (by simp [hd]), List.append_nil]
    have h := Prefs.digitsValue_decimal n
    rwa [digitsValue, List.takeWhile_eq_self_iff.mpr hdigits] at h
  cases hdec : decimal n with
  | nil => exact absurd hdec (Prefs.decimal_ne_nil n)
  | cons c ds =>
    have hc : isdigit c = true := hdigits c (by simp [hdec])
    rw [hdec] at hvalue
    rw [List.cons_append, atoi,
      List.dropWhile_cons_of_neg (by simp [Prefs.not_isspace_of_isdigit hc])]
    dsimp only
    rw [if_neg (Prefs.ne_of_isdigit hc rfl), if_neg (Prefs.ne_of_isdigit hc rfl),
      ← List.cons_append, hvalue]

theorem ParseVersion_one {c : UInt8} (hc : isdigit c = true) (s : NsCString) :
    ParseVersion (ascii "HTTP/" ++ [49, dot, c, space] ++ s) =
      if Int32.ofInt (c.toNat - 48 : ℕ) ≥ 1 then NS_HTTP_VERSION_1_1 else NS_HTTP_VERSION_1_0 := by
  have hslash : ascii "HTTP/" = [72, 84, 84, 80, slash] := by decide
  have hhttp : ascii "HTTP" = [72, 84, 84, 80] := by decide
  have hone : atoi (49 :: dot :: c :: space :: s) = 1 := atoi_digit (by decide) (by decide) _
  rw [ParseVersion, hslash, hhttp, if_neg (by simp [PL_strncasecmp])]
  simp only [List.cons_append, List.nil_append, List.drop_succ_cons, List.drop_zero]
  rw [if_neg (by simp)]
  have hbehind : behind dot (slash :: 49 :: dot :: c :: space :: s) = some (c :: space :: s) := by
    simp [behind, dot, slash]
  rw [hbehind]
  dsimp only
  rw [hone, atoi_digit hc (by decide)]
  simp

theorem ParseVersion_statusLine {version : nsHttpVersion} (h : version ≠ NS_HTTP_VERSION_0_9)
    (status : UInt16) (text : NsCString) :
    ParseVersion (statusLine version status text) = version := by
  unfold statusLine
  cases version with
  | NS_HTTP_VERSION_0_9 => exact absurd rfl h
  | NS_HTTP_VERSION_1_0 =>
    have hver : ascii "1.0 " = [49, dot, 48, space] := by decide
    rw [if_neg (by decide), hver, List.append_assoc, List.append_assoc,
      ParseVersion_one (by decide)]
    rfl
  | NS_HTTP_VERSION_1_1 =>
    have hver : ascii "1.1 " = [49, dot, 49, space] := by decide
    rw [if_pos rfl, hver, List.append_assoc, List.append_assoc, ParseVersion_one (by decide)]
    rfl

theorem behind_statusLine (version : nsHttpVersion) (status : UInt16) (text : NsCString) :
    behind space (statusLine version status text) =
      some (decimal status.toNat ++ space :: text) := by
  have hshape : ∀ v : NsCString, space ∉ ascii "HTTP/" ++ v →
      behind space (ascii "HTTP/" ++ (v ++ [space]) ++ decimal status.toNat ++ ascii " " ++ text) =
        some (decimal status.toNat ++ space :: text) := fun v hv => by
    rw [← behind_append hv (decimal status.toNat ++ space :: text)]
    simp [show ascii " " = [space] from rfl]
  unfold statusLine
  split_ifs
  · exact hshape (ascii "1.1") (by decide)
  · exact hshape (ascii "1.0") (by decide)

/-- The status line of a head is read as it was written. -/
theorem ParseStatusLine_statusLine (head : nsHttpResponseHead) {version : nsHttpVersion}
    (h : version ≠ NS_HTTP_VERSION_0_9) {status : UInt16} (hstatus : status ≠ 0)
    (text : NsCString) :
    head.ParseStatusLine (statusLine version status text) =
      { head with mVersion := version, mStatus := status, mStatusText := text } := by
  have hspace : space ∉ decimal status.toNat := fun hmem =>
    absurd (Prefs.isdigit_decimal hmem) (by decide)
  have hnum : (Int32.ofInt (status.toNat : ℤ)).toUInt32.toUInt16 = status := by
    have hlt := status.toNat_lt
    rw [← UInt16.toNat_inj, UInt32.toNat_toUInt16]
    show (BitVec.ofInt 32 (status.toNat : ℤ)).toNat % 65536 = _
    rw [BitVec.toNat_ofInt]
    omega
  rw [nsHttpResponseHead.ParseStatusLine]
  dsimp only
  rw [ParseVersion_statusLine h, if_neg h, behind_statusLine]
  dsimp only
  rw [atoi_decimal _ (by decide), hnum, if_neg hstatus, behind_append hspace]
  rfl

end Kompozer.Http

import Kompozer.Prefs.Grammar
import Kompozer.Prefs.RoundTrip

/-! The reader accepts what the grammar generates. It is followed through comments, through a
quoted string piece by piece, and through a statement token by token; a comment returns to the
state it was met in. -/

namespace Kompozer.Prefs

open Grammar

/-! ### The conversion of a code unit -/

theorem trail_eq_or (c : UInt16) : (c &&& 0x3F).toUInt8 ||| 0x80 = Text.trail c.toUInt32 := by
  rw [Text.trail_eq, ← UInt8.toNat_inj]
  have hmod := Nat.and_two_pow_sub_one_eq_mod c.toNat 6
  have hor := or_low (k := 7) 1 (show c.toNat % 64 < 2 ^ 7 by omega)
  simp only [UInt8.toNat_or, UInt16.toNat_toUInt8, UInt16.toNat_and, UInt16.reduceToNat,
    UInt8.reduceToNat, UInt8.toNat_ofNat', UInt16.toNat_toUInt32, Nat.reducePow, Nat.reduceSub,
    Nat.reduceMul] at hmod hor ⊢
  rw [hmod, Nat.mod_eq_of_lt (show c.toNat % 64 < 256 by omega), Nat.or_comm, hor]
  omega

theorem trail_eq_or_long (n : UInt32) : (n &&& 0x3F).toUInt8 ||| 0x80 = Text.trail n := by
  rw [Text.trail, UInt8.or_comm, UInt32.and_comm]

theorem ucs4_eq (c l : UInt16) :
    ((c &&& 0x3FF).toUInt32 <<< 10) + (l &&& 0x3FF).toUInt32 + 0x10000 =
      Text.SURROGATE_TO_UCS4 c l := by
  simp [Text.SURROGATE_TO_UCS4, Text.PLANE1_BASE]

theorem convertUTF16toUTF8_eq (p : List UInt16) : convertUTF16toUTF8 p = Text.toUTF8 p := by
  fun_induction convertUTF16toUTF8 p with
  | case1 => rfl
  | case2 c cs h ih =>
    rw [Text.toUTF8.eq_def]
    simp [h, ih]
  | case3 c cs h h' ih =>
    rw [Text.toUTF8.eq_def, ih, trail_eq_or, UInt8.or_comm]
    simp [h, h']
  | case4 c cs h h' h'' ih =>
    rw [Text.toUTF8.eq_def, ih, trail_eq_or, trail_eq_or, UInt8.or_comm]
    simp [h, h', h'', Text.IS_SURROGATE]
  | case5 c h _ h'' high =>
    rw [Text.toUTF8.eq_def]
    simp [h, not_not.mp h'', high, Text.IS_SURROGATE, Text.IS_HIGH_SURROGATE]
  | case6 c h _ h'' high l cs low ucs4 ih =>
    have hucs4 : ucs4 = Text.SURROGATE_TO_UCS4 c l := ucs4_eq c l
    rw [Text.toUTF8.eq_def, ih, trail_eq_or_long, trail_eq_or_long, trail_eq_or_long, UInt8.or_comm,
      hucs4]
    simp [h, not_not.mp h'', high, low, Text.IS_SURROGATE, Text.IS_HIGH_SURROGATE,
      Text.IS_LOW_SURROGATE]
  | case7 c h _ h'' high l cs low ih =>
    rw [Text.toUTF8.eq_def]
    simp [h, not_not.mp h'', high, low, ih, Text.IS_SURROGATE, Text.IS_HIGH_SURROGATE,
      Text.IS_LOW_SURROGATE]
  | case8 c cs h _ h'' high ih =>
    rw [Text.toUTF8.eq_def]
    simp [h, not_not.mp h'', high, ih, Text.IS_SURROGATE, Text.IS_HIGH_SURROGATE]

theorem toNat_charOfNat {n : ℕ} (h : n < 0xD800 ∨ 0xDFFF < n ∧ n < 0x110000) :
    (Char.ofNat n).toNat = n := by
  have hvalid : n.isValidChar := h
  rw [Char.ofNat, dif_pos hvalid]
  rfl

theorem highUnit_iff {n : ℕ} (hn : n < 0x10000) :
    UInt16.ofNat n &&& 0xFC00 = 0xD800 ↔ IsHigh n := by
  have h := Text.highSurrogate_iff (UInt16.ofNat n)
  rw [UInt16.toNat_ofNat', Nat.mod_eq_of_lt hn, Text.IS_HIGH_SURROGATE, Bool.eq_iff_iff,
    beq_iff_eq, decide_eq_true_eq] at h
  exact h

/-- What is written for an escape of one unit. -/
theorem convert_unit {n : ℕ} (hn : n < 0x10000) (hh : ¬ IsHigh n) :
    convertUTF16toUTF8 [UInt16.ofNat n] = unitBytes n := by
  have hu : (UInt16.ofNat n).toNat = n := by
    rw [UInt16.toNat_ofNat']
    omega
  rw [convertUTF16toUTF8_eq, unitBytes]
  split_ifs with hs
  · have hlow : ¬ (0xD800 ≤ n ∧ n < 0xDC00) := hh
    have h0 : ¬ n < 0x80 := by omega
    have h1 : ¬ n < 0x800 := by omega
    have hsurr := decide_eq_true hs
    have hhigh := decide_eq_false hlow
    rw [Text.toUTF8.eq_def]
    simp only [Text.unit_one, Text.unit_two, Text.surrogate_iff, Text.highSurrogate_iff, hu, h0, h1,
      hsurr, hhigh, decide_false, Bool.not_true, Bool.false_eq_true, if_false]
    rfl
  · have hc : (Char.ofNat n).toNat = n := toNat_charOfNat (by omega)
    have hunits : utf16 (Char.ofNat n) = [UInt16.ofNat n] := by
      rw [utf16, hc, if_pos hn]
    have h := Text.toUTF8_append (Char.ofNat n) []
    rwa [hunits, List.append_nil, show Text.toUTF8 [] = [] from rfl, List.append_nil] at h

/-- What is written for a pair. -/
theorem convert_pair {high low : ℕ} (hh : IsHigh high) (hl : IsLow low) :
    convertUTF16toUTF8 [UInt16.ofNat high, UInt16.ofNat low] = pairBytes high low := by
  obtain ⟨h₁, h₂⟩ := hh
  obtain ⟨l₁, l₂⟩ := hl
  obtain ⟨n, hn⟩ : ∃ n, n = 0x10000 + (high - 0xD800) * 0x400 + (low - 0xDC00) := ⟨_, rfl⟩
  have hc : (Char.ofNat n).toNat = n := toNat_charOfNat (by omega)
  have hhigh : 0xD800 + (n - 0x10000) / 0x400 = high := by omega
  have hlow : 0xDC00 + (n - 0x10000) % 0x400 = low := by omega
  have hunits : utf16 (Char.ofNat n) = [UInt16.ofNat high, UInt16.ofNat low] := by
    rw [utf16, hc, if_neg (by omega), hhigh, hlow]
  have h := Text.toUTF8_append (Char.ofNat n) []
  rw [hunits, List.append_nil, show Text.toUTF8 [] = [] from rfl, List.append_nil] at h
  rw [convertUTF16toUTF8_eq, h, pairBytes, hn]

/-! ### Digits of an escape -/

theorem udigit_char (d : HexDigit) : udigit d.char = some (UInt16.ofNat d.value) := by
  obtain ⟨value, upper⟩ := d
  revert value upper
  decide

theorem HexDigit.number_concat (ds : List HexDigit) (d : HexDigit) :
    HexDigit.number (ds ++ [d]) = 16 * HexDigit.number ds + d.value := by
  simp [HexDigit.number]

theorem HexDigit.number_lt (ds : List HexDigit) : HexDigit.number ds < 16 ^ ds.length := by
  induction ds using List.reverseRecOn with
  | nil => simp [HexDigit.number]
  | append_singleton ds d ih =>
    have hd := d.value.isLt
    rw [HexDigit.number_concat, List.length_append, List.length_singleton, pow_succ]
    omega

theorem shift_or (n : ℕ) (d : Fin 16) :
    (UInt16.ofNat n <<< 4) ||| UInt16.ofNat d = UInt16.ofNat (16 * n + d) := by
  have hd := d.isLt
  have hor := or_low (k := 4) (n % 65536 * 16 % 65536 / 16) (show d.val < 2 ^ 4 by omega)
  have hdiv : 16 * (n % 65536 * 16 % 65536 / 16) = n % 65536 * 16 % 65536 := by omega
  rw [← UInt16.toNat_inj]
  simp only [UInt16.toNat_or, UInt16.toNat_shiftLeft, UInt16.toNat_ofNat', UInt16.reduceToNat,
    Nat.reducePow, Nat.reduceMod, Nat.shiftLeft_eq, hdiv] at hor ⊢
  rw [Nat.mod_eq_of_lt (show d.val < 65536 by omega), hor]
  omega

/-! ### Junk -/

namespace ParseVars

theorem readAll_cons_silent {c : UInt8} {buf : List UInt8} {state state' : ParseState}
    {ps ps' : ParseVars} (h : ps.read state c = .next state' ps' []) :
    ps.readAll (c :: buf) state = ps'.readAll buf state' := by
  rw [readAll, h]
  rfl

/-- A character that is read in another state as well. -/
theorem readAll_cons_congr {c : UInt8} {buf : List UInt8} {state state' : ParseState}
    {ps ps' : ParseVars} (h : ps.read state c = ps'.read state' c) :
    ps.readAll (c :: buf) state = ps'.readAll (c :: buf) state' := by
  rw [readAll, readAll, h]

/-- A comment block ends at the first end there is. -/
theorem readAll_block {body : List UInt8} (buf : List UInt8) (ps : ParseVars) :
    (¬ ascii "*/" <:+: body → ps.readAll (body ++ (ascii "*/" ++ buf)) .commentBlock =
      { ps with nextstate := .init }.readAll buf ps.nextstate) ∧
    (¬ ascii "*/" <:+: '*'.toUInt8 :: body →
      ps.readAll (body ++ (ascii "*/" ++ buf)) .commentBlockMaybeEnd =
        { ps with nextstate := .init }.readAll buf ps.nextstate) := by
  induction body with
  | nil => exact ⟨fun _ => rfl, fun _ => rfl⟩
  | cons c body ih =>
    obtain ⟨block, maybeEnd⟩ := ih
    have htail : ∀ {a : UInt8} {l : List UInt8}, ¬ ascii "*/" <:+: a :: l → ¬ ascii "*/" <:+: l :=
      fun h h' => h (List.infix_cons h')
    constructor
    · intro hopen
      by_cases hstar : c = '*'.toUInt8
      · have hread : ps.read .commentBlock c = .next .commentBlockMaybeEnd ps [] := by
          rw [read, round, if_pos hstar]
        rw [List.cons_append, readAll_cons_silent hread, maybeEnd (hstar ▸ hopen)]
      · have hread : ps.read .commentBlock c = .next .commentBlock ps [] := by
          rw [read, round, if_neg hstar]
        rw [List.cons_append, readAll_cons_silent hread, block (htail hopen)]
    · intro hopen
      have hslash : c ≠ '/'.toUInt8 := by
        rintro rfl
        exact hopen ⟨[], body, rfl⟩
      by_cases hstar : c = '*'.toUInt8
      · have hread : ps.read .commentBlockMaybeEnd c = .next .commentBlockMaybeEnd ps [] := by
          rw [read, round, if_neg hslash, if_pos hstar]
        rw [List.cons_append, readAll_cons_silent hread, maybeEnd (hstar ▸ htail hopen)]
      · have hread : ps.read .commentBlockMaybeEnd c = .next .commentBlock ps [] := by
          rw [read, round, if_neg hslash, if_neg hstar]
        rw [List.cons_append, readAll_cons_silent hread, block (htail (htail hopen))]

theorem readAll_line {body : List UInt8} {eol : UInt8} (hbody : ∀ c ∈ body, ¬ IsEol c)
    (heol : IsEol eol) (buf : List UInt8) (ps : ParseVars) :
    ps.readAll (body ++ eol :: buf) .untilEol =
      { ps with nextstate := .init }.readAll buf ps.nextstate := by
  simp only [IsEol] at hbody heol
  induction body with
  | nil =>
    have hread : ps.read .untilEol eol = .next ps.nextstate { ps with nextstate := .init } [] := by
      rw [read, round, if_pos heol]
    exact readAll_cons_silent hread
  | cons c body ih =>
    have hread : ps.read .untilEol c = .next .untilEol ps [] := by
      rw [read, round, if_neg (hbody c (by simp))]
    rw [List.cons_append, readAll_cons_silent hread,
      ih fun d hd => hbody d (List.mem_cons_of_mem c hd)]

/-- A piece of junk leads where the state wants to return to. -/
theorem readAll_junk {state : ParseState} {ps ps' : ParseVars}
    (hslash : ps.read state '/'.toUInt8 = .next .commentMaybeStart ps' [])
    (hws : ∀ c, IsWS c → ps.read state c = .next ps'.nextstate { ps' with nextstate := .init } [])
    (j : Junk) (buf : List UInt8) : ps.readAll (j.text ++ buf) state =
      { ps' with nextstate := .init }.readAll buf ps'.nextstate := by
  cases j with
  | ws c isWS => exact readAll_cons_silent (hws c isWS)
  | block body isOpen =>
    have htext : (Junk.block body isOpen).text ++ buf =
        '/'.toUInt8 :: '*'.toUInt8 :: (body ++ (ascii "*/" ++ buf)) := by
      simp [Junk.text, ascii]
    have hstar : ps'.read .commentMaybeStart '*'.toUInt8 = .next .commentBlock ps' [] := rfl
    rw [htext, readAll_cons_silent hslash, readAll_cons_silent hstar,
      (readAll_block buf ps').1 isOpen]
  | line body eol inLine isEol =>
    have htext : (Junk.line body eol inLine isEol).text ++ buf =
        '/'.toUInt8 :: '/'.toUInt8 :: (body ++ eol :: buf) := by
      simp [Junk.text, ascii]
    have hline : ps'.read .commentMaybeStart '/'.toUInt8 = .next .untilEol ps' [] := rfl
    rw [htext, readAll_cons_silent hslash, readAll_cons_silent hline, readAll_line inLine isEol]

/-- The states between two tokens of a statement. -/
def betweenTokens : List ParseState :=
  [.untilOpenParen, .untilName, .untilComma, .untilValue, .untilCloseParen, .untilSemicolon]

theorem nextstate_eta {ps : ParseVars} (h : ps.nextstate = .init) :
    { ps with nextstate := .init } = ps := by
  rw [← h]

/-- Between two tokens junk changes nothing. -/
theorem readAll_junkText {state : ParseState} (hstate : state ∈ betweenTokens) {ps : ParseVars}
    (hnext : ps.nextstate = .init) (js : List Junk) (buf : List UInt8) :
    ps.readAll (junkText js ++ buf) state = ps.readAll buf state := by
  have hslash : ps.read state '/'.toUInt8 =
      .next .commentMaybeStart { ps with nextstate := state } [] := by
    simp only [betweenTokens, List.mem_cons, List.not_mem_nil, or_false] at hstate
    rcases hstate with rfl | rfl | rfl | rfl | rfl | rfl <;> rfl
  have hws : ∀ c, IsWS c → ps.read state c = .next state { ps with nextstate := .init } [] := by
    intro c hc
    rw [nextstate_eta hnext]
    simp only [betweenTokens, IsWS, List.mem_cons, List.not_mem_nil, or_false] at hstate hc
    rcases hc with rfl | rfl | rfl | rfl | rfl | rfl <;>
      rcases hstate with rfl | rfl | rfl | rfl | rfl | rfl <;> rfl
  induction js with
  | nil => rfl
  | cons j js ih =>
    rw [junkText, List.flatMap_cons, List.append_assoc, readAll_junk hslash hws, ← ih,
      nextstate_eta hnext]
    rfl

theorem reset_reset (ps : ParseVars) : ps.reset.reset = ps.reset := by
  have hlb := lb_reset ps
  rw [reset, hlb]
  rfl

theorem nextstate_reset (ps : ParseVars) : ps.reset.nextstate = ps.nextstate := by
  rw [reset]
  split_ifs <;> rfl

/-- In front of a statement junk makes the machine ready for it. -/
theorem readAll_ljunkText {ps : ParseVars} (hnext : ps.nextstate = .init) (js : List LJunk)
    (buf : List UInt8) : ∃ ps' : ParseVars, ps.readAll (ljunkText js ++ buf) .init =
      ps'.readAll buf .init ∧ ps'.reset = ps.reset ∧ ps'.nextstate = .init := by
  induction js generalizing ps with
  | nil => exact ⟨ps, rfl, rfl, hnext⟩
  | cons j js ih =>
    have hreset : ps.reset.nextstate = .init := (nextstate_reset ps).trans hnext
    have hj : ps.readAll (j.text ++ (ljunkText js ++ buf)) .init =
        ps.reset.readAll (ljunkText js ++ buf) .init := by
      cases j with
      | junk j =>
        have hws : ∀ c, IsWS c → ps.read .init c =
            .next ps.reset.nextstate { ps.reset with nextstate := .init } [] := by
          intro c hc
          rw [nextstate_eta hreset, hreset]
          simp only [IsWS, List.mem_cons, List.not_mem_nil, or_false] at hc
          rcases hc with rfl | rfl | rfl | rfl | rfl | rfl <;> rfl
        have h := readAll_junk rfl hws j (ljunkText js ++ buf)
        rwa [nextstate_eta hreset, hreset] at h
      | bcomment body eol inLine isEol =>
        have htext : (LJunk.bcomment body eol inLine isEol).text ++ (ljunkText js ++ buf) =
            '#'.toUInt8 :: (body ++ eol :: (ljunkText js ++ buf)) := by
          simp [LJunk.text, ascii]
        have hhash : ps.read .init '#'.toUInt8 = .next .untilEol ps.reset [] := rfl
        rw [htext, readAll_cons_silent hhash, readAll_line inLine isEol, nextstate_eta hreset,
          hreset]
    obtain ⟨ps', hread, hps', hnext'⟩ := ih hreset
    refine ⟨ps', ?_, hps'.trans (reset_reset ps), hnext'⟩
    rw [ljunkText, List.flatMap_cons, List.append_assoc]
    exact hj.trans hread

/-! ### Escapes by number -/

/-- The machine behind some of the digits of an escape. -/
def digitsRead (ps : ParseVars) (ds : List HexDigit) : ParseVars :=
  { ps with
    esctmp := ps.esctmp ++ ds.map HexDigit.char, sindex := ps.sindex - ds.length,
    utf16 := (ps.utf16.1, .ofNat (HexDigit.number ds)) }

theorem digitsRead_nil {ps : ParseVars} (h : ps.utf16.2 = 0) : ps.digitsRead [] = ps := by
  obtain ⟨nextstate, smatch, sindex, utf16, esctmp, quotechar, lb, vb, vtype, fdefault⟩ := ps
  obtain ⟨high, low⟩ := utf16
  obtain rfl : low = 0 := h
  simp [digitsRead, HexDigit.number]

/-- One digit more. -/
theorem digitsRead_concat (ps : ParseVars) (ds : List HexDigit) (d : HexDigit) :
    { ps.digitsRead ds with
      esctmp := (ps.digitsRead ds).esctmp ++ [d.char],
      sindex := (ps.digitsRead ds).sindex - 1,
      utf16 := ((ps.digitsRead ds).utf16.1,
        ((ps.digitsRead ds).utf16.2 <<< 4) ||| UInt16.ofNat d.value) } =
      ps.digitsRead (ds ++ [d]) := by
  simp [digitsRead, HexDigit.number_concat, shift_or, Nat.sub_sub]

/-- Digits of an escape that more of them are to follow. -/
theorem readAll_hexDigits {ps : ParseVars} (hutf16 : ps.utf16.2 = 0) {ds : List HexDigit}
    (hlt : ds.length < ps.sindex) (buf : List UInt8) :
    ps.readAll (ds.map HexDigit.char ++ buf) .hexEscape =
      (ps.digitsRead ds).readAll buf .hexEscape := by
  induction ds using List.reverseRecOn generalizing buf with
  | nil => rw [digitsRead_nil hutf16, List.map_nil, List.nil_append]
  | append_singleton ds d ih =>
    rw [List.length_append, List.length_singleton] at hlt
    have hmore : (ps.digitsRead ds).sindex - 1 ≠ 0 := by
      show ps.sindex - ds.length - 1 ≠ 0
      omega
    have hread : (ps.digitsRead ds).read .hexEscape d.char =
        .next .hexEscape (ps.digitsRead (ds ++ [d])) [] := by
      rw [read, round, udigit_char]
      dsimp only
      rw [if_neg hmore, digitsRead_concat]
    rw [List.map_append, List.append_assoc, ih (by omega)]
    exact readAll_cons_silent hread

/-- All digits of an escape. -/
theorem readAll_allDigits {ps : ParseVars} (hutf16 : ps.utf16.2 = 0) {ds : List HexDigit}
    (hds : ds ≠ []) (hlen : ds.length = ps.sindex) (buf : List UInt8) :
    ps.readAll (ds.map HexDigit.char ++ buf) .hexEscape =
      if ps.utf16.1 ≠ 0 then
        ((ps.digitsRead ds).write (convertUTF16toUTF8
          [ps.utf16.1, .ofNat (HexDigit.number ds)])).readAll buf .quotedString
      else if UInt16.ofNat (HexDigit.number ds) &&& 0xFC00 = 0xD800 then
        { ps.digitsRead ds with utf16 := (.ofNat (HexDigit.number ds), 0) }.readAll buf
          .utf16LowSurrogate
      else
        ({ ps.digitsRead ds with
          utf16 := (.ofNat (HexDigit.number ds), .ofNat (HexDigit.number ds)) }.write
            (convertUTF16toUTF8 [.ofNat (HexDigit.number ds)])).readAll buf .quotedString := by
  obtain ⟨es, d, rfl⟩ := (List.eq_nil_or_concat ds).resolve_left hds
  rw [List.concat_eq_append] at hlen ⊢
  rw [List.length_append, List.length_singleton] at hlen
  have hlast : (ps.digitsRead es).sindex - 1 = 0 := by
    show ps.sindex - es.length - 1 = 0
    omega
  rw [List.map_append, List.append_assoc, readAll_hexDigits hutf16 (by omega)]
  have hnumber : ((ps.digitsRead es).utf16.2 <<< 4) ||| UInt16.ofNat d.value =
      UInt16.ofNat (HexDigit.number (es ++ [d])) := by
    rw [HexDigit.number_concat, ← shift_or]
    rfl
  have hconcat := digitsRead_concat ps es d
  by_cases hhigh : ps.utf16.1 ≠ 0
  · have hread : (ps.digitsRead es).read .hexEscape d.char = .next .quotedString
        ((ps.digitsRead (es ++ [d])).write (convertUTF16toUTF8
          [ps.utf16.1, .ofNat (HexDigit.number (es ++ [d]))])) [] := by
      rw [read, round, udigit_char]
      dsimp only
      rw [if_pos hlast, if_pos (show (ps.digitsRead es).utf16.1 ≠ 0 from hhigh), hconcat, hnumber]
      rfl
    rw [if_pos hhigh]
    exact readAll_cons_silent hread
  rw [if_neg hhigh]
  by_cases hunit : UInt16.ofNat (HexDigit.number (es ++ [d])) &&& 0xFC00 = 0xD800
  · have hread : (ps.digitsRead es).read .hexEscape d.char = .next .utf16LowSurrogate
        { ps.digitsRead (es ++ [d]) with
          utf16 := (.ofNat (HexDigit.number (es ++ [d])), 0) } [] := by
      rw [read, round, udigit_char]
      dsimp only
      rw [if_pos hlast, if_neg (show ¬ (ps.digitsRead es).utf16.1 ≠ 0 from hhigh), hnumber,
        if_pos hunit, ← hconcat]
    rw [if_pos hunit]
    exact readAll_cons_silent hread
  · have hread : (ps.digitsRead es).read .hexEscape d.char = .next .quotedString
        ({ ps.digitsRead (es ++ [d]) with
          utf16 := (.ofNat (HexDigit.number (es ++ [d])),
            .ofNat (HexDigit.number (es ++ [d]))) }.write
              (convertUTF16toUTF8 [.ofNat (HexDigit.number (es ++ [d]))])) [] := by
      rw [read, round, udigit_char]
      dsimp only
      rw [if_pos hlast, if_neg (show ¬ (ps.digitsRead es).utf16.1 ≠ 0 from hhigh), hnumber,
        if_neg hunit, ← hconcat]
    rw [if_neg hunit]
    exact readAll_cons_silent hread

/-! ### Pieces of a quoted string -/

/-- What is written to the line buffer, with the escapes forgotten. -/
def Wrote (ps : ParseVars) (s : CString) (ps' : ParseVars) : Prop :=
  ∃ sindex utf16 esctmp,
    ps' = { ps with sindex := sindex, utf16 := utf16, esctmp := esctmp, lb := ps.lb ++ s }

theorem Wrote.refl (ps : ParseVars) : ps.Wrote [] ps :=
  ⟨ps.sindex, ps.utf16, ps.esctmp, by simp⟩

theorem Wrote.trans {ps ps' ps'' : ParseVars} {s t : CString} (h : ps.Wrote s ps')
    (h' : ps'.Wrote t ps'') : ps.Wrote (s ++ t) ps'' := by
  obtain ⟨sindex, utf16, esctmp, rfl⟩ := h
  obtain ⟨sindex', utf16', esctmp', rfl⟩ := h'
  exact ⟨sindex', utf16', esctmp', by simp⟩

theorem Wrote.write (ps : ParseVars) (s : CString) : ps.Wrote s (ps.write s) :=
  ⟨ps.sindex, ps.utf16, ps.esctmp, rfl⟩

theorem Wrote.quotechar {ps ps' : ParseVars} {s : CString} (h : ps.Wrote s ps') :
    ps'.quotechar = ps.quotechar := by
  obtain ⟨sindex, utf16, esctmp, rfl⟩ := h
  rfl

theorem wrote_digitsRead (ps : ParseVars) (ds : List HexDigit) : ps.Wrote [] (ps.digitsRead ds) :=
  ⟨_, _, _, by rw [digitsRead, List.append_nil]⟩

/-- Where the machine is between two pieces: there may be the first half of a pair. -/
def BetweenPieces (state : ParseState) (ps : ParseVars) : Prop :=
  state = .quotedString ∨ (state = .utf16LowSurrogate ∧ ps.sindex = 0 ∧ ps.utf16.2 = 0)

theorem read_quotedString (c : UInt8) (ps : ParseVars) :
    ps.read .quotedString c = ps.round .quotedString c := by
  rw [read, round]
  split_ifs <;> rfl

theorem read_escSequence (c : UInt8) (ps : ParseVars) :
    ps.read .escSequence c = ps.round .escSequence c := by
  rw [read, round]
  split_ifs <;> rfl

/-- A character that begins no escape gives up the first half of a pair. -/
theorem readAll_plain {state : ParseState} {ps : ParseVars} (hstate : BetweenPieces state ps)
    {c : UInt8} (hc : c ≠ backslash) (buf : List UInt8) :
    ps.readAll (c :: buf) state = ps.readAll (c :: buf) .quotedString := by
  obtain rfl | ⟨rfl, hs, -⟩ := hstate
  · rfl
  · apply readAll_cons_congr
    have hround : ps.round .utf16LowSurrogate c = .again .quotedString ps := by
      simp [round, hs, hc]
    rw [read_quotedString, read, hround]

/-- So does an escape of another kind. -/
theorem readAll_backslash {state : ParseState} {ps : ParseVars} (hstate : BetweenPieces state ps)
    {k : UInt8} (hk : k = 'u'.toUInt8 → state = .quotedString) (buf : List UInt8) :
    ∃ ps', ps.readAll (backslash :: k :: buf) state = ps'.readAll (k :: buf) .escSequence ∧
      ps.Wrote [] ps' := by
  obtain rfl | ⟨rfl, hs, -⟩ := hstate
  · exact ⟨ps, readAll_cons_silent rfl, .refl ps⟩
  · have hu : k ≠ 'u'.toUInt8 := fun h => absurd (hk h) (by decide)
    have hfirst : ps.read .utf16LowSurrogate backslash =
        .next .utf16LowSurrogate { ps with sindex := 1 } [] := by
      simp [read, round, hs]
    refine ⟨{ ps with sindex := 1 }, ?_, 1, ps.utf16, ps.esctmp, by simp⟩
    rw [readAll_cons_silent hfirst]
    apply readAll_cons_congr
    have hround : { ps with sindex := 1 }.round .utf16LowSurrogate k =
        .again .escSequence { ps with sindex := 1 } := by
      simp [round, hu]
    rw [read_escSequence, read, hround]

/-- The number of digits of an escape. -/
def escDigits (k : UInt8) : ℕ :=
  if k = 'x'.toUInt8 then HEX_ESC_NUM_DIGITS else UTF16_ESC_NUM_DIGITS

/-- The machine behind the beginning of an escape by number. -/
structure Escaping (k : UInt8) (ps : ParseVars) : Prop where
  sindex : ps.sindex = escDigits k
  esctmp : ps.esctmp = [k]
  low : ps.utf16.2 = 0

theorem readAll_escape {state : ParseState} {ps : ParseVars} (hstate : BetweenPieces state ps)
    {k : UInt8} (hk : k = 'x'.toUInt8 ∨ k = 'u'.toUInt8) (buf : List UInt8) :
    ∃ ps', ps.readAll (backslash :: k :: buf) state = ps'.readAll buf .hexEscape ∧
      ps.Wrote [] ps' ∧ ps'.Escaping k ∧
      ps'.utf16.1 = if k = 'u'.toUInt8 ∧ state ≠ .quotedString then ps.utf16.1 else 0 := by
  by_cases hpair : k = 'u'.toUInt8 ∧ state ≠ .quotedString
  · -- the second half of a pair
    obtain ⟨rfl, hne⟩ := hpair
    obtain ⟨rfl, hs, hlow⟩ := hstate.resolve_left hne
    have hfirst : ps.read .utf16LowSurrogate backslash =
        .next .utf16LowSurrogate { ps with sindex := 1 } [] := by
      simp [read, round, hs]
    refine ⟨{ ps with sindex := UTF16_ESC_NUM_DIGITS, esctmp := ['u'.toUInt8] }, ?_,
      ⟨_, ps.utf16, _, by rw [List.append_nil]⟩, ⟨rfl, rfl, hlow⟩, ?_⟩
    · rw [readAll_cons_silent hfirst]
      exact readAll_cons_silent rfl
    · rw [if_pos ⟨rfl, hne⟩]
  · have hu : k = 'u'.toUInt8 → state = .quotedString := fun h => by
      by_contra hne
      exact hpair ⟨h, hne⟩
    obtain ⟨ps₁, hread, hwrote⟩ := readAll_backslash hstate hu buf
    refine ⟨{ ps₁ with esctmp := [k], utf16 := (0, 0), sindex := escDigits k }, ?_,
      hwrote.trans ⟨_, _, _, by rw [List.append_nil]⟩, ⟨rfl, rfl, rfl⟩, ?_⟩
    · rw [hread]
      obtain rfl | rfl := hk
      · exact readAll_cons_silent rfl
      · exact readAll_cons_silent rfl
    · rw [if_neg hpair]

/-- A code unit in full: it is written, or kept as the first half of a pair. -/
theorem readAll_unitDigits {k : UInt8} {ps : ParseVars} (hps : ps.Escaping k)
    (hfirst : ps.utf16.1 = 0) {ds : List HexDigit} (hlen : ds.length = escDigits k)
    (buf : List UInt8) : ∃ state' ps',
      ps.readAll (ds.map HexDigit.char ++ buf) .hexEscape = ps'.readAll buf state' ∧
      BetweenPieces state' ps' ∧ ps.Wrote (unitBytes (HexDigit.number ds)) ps' ∧
      (if IsHigh (HexDigit.number ds) then
        state' = .utf16LowSurrogate ∧ ps'.utf16.1 = .ofNat (HexDigit.number ds)
      else state' = .quotedString) := by
  have hdigits : 0 < escDigits k ∧ escDigits k ≤ 4 := by
    rw [escDigits]
    split_ifs <;> decide
  have hds : ds ≠ [] := List.ne_nil_of_length_pos (hlen ▸ hdigits.1)
  have hn : HexDigit.number ds < 0x10000 :=
    (HexDigit.number_lt ds).trans_le (hlen ▸ Nat.pow_le_pow_right (by decide) hdigits.2)
  have hall := readAll_allDigits hps.low hds (hlen.trans hps.sindex.symm) buf
  rw [if_neg (not_not.mpr hfirst)] at hall
  by_cases hhigh : IsHigh (HexDigit.number ds)
  · have hnone : unitBytes (HexDigit.number ds) = [] := if_pos ⟨hhigh.1, hhigh.2.trans (by decide)⟩
    rw [if_pos ((highUnit_iff hn).mpr hhigh)] at hall
    refine ⟨_, _, hall, .inr ⟨rfl, ?_, rfl⟩, ?_, ?_⟩
    · exact Nat.sub_eq_zero_of_le (hlen.trans hps.sindex.symm).ge
    · rw [hnone]
      exact ⟨_, _, _, by rw [digitsRead, List.append_nil]⟩
    · rw [if_pos hhigh]
      exact ⟨rfl, rfl⟩
  · rw [if_neg (mt (highUnit_iff hn).mp hhigh), convert_unit hn hhigh] at hall
    refine ⟨_, _, hall, .inl rfl, ⟨_, _, _, rfl⟩, ?_⟩
    rw [if_neg hhigh]

/-- The end of an escape that is none: the digits there are and the character that is not one. -/
theorem readAll_brokenDigits {k : UInt8} {ps : ParseVars} (hps : ps.Escaping k)
    {ds : List HexDigit} (hlen : ds.length < escDigits k) {c : UInt8} (hc : udigit c = none)
    (buf : List UInt8) : ∃ ps',
      ps.readAll (ds.map HexDigit.char ++ c :: buf) .hexEscape =
        ps'.readAll (c :: buf) .quotedString ∧ ps.Wrote (Piece.escape k ds) ps' := by
  refine ⟨(ps.digitsRead ds).write (Piece.escape k ds), ?_,
    (wrote_digitsRead ps ds).trans (.write _ _)⟩
  rw [readAll_hexDigits hps.low (by rw [hps.sindex]; exact hlen)]
  apply readAll_cons_congr
  have hesctmp : backslash :: (ps.digitsRead ds).esctmp = Piece.escape k ds := by
    rw [digitsRead, hps.esctmp, Piece.escape]
    rfl
  have hround : (ps.digitsRead ds).round .hexEscape c =
      .again .quotedString ((ps.digitsRead ds).write (Piece.escape k ds)) := by
    rw [round, hc, hesctmp]
  rw [read_quotedString, read, hround]

/-- A piece of a string, with the character behind it. -/
theorem readAll_piece {p : Piece} {state : ParseState} {ps : ParseVars}
    (hstate : BetweenPieces state ps) (hok : p.Ok ps.quotechar)
    (hunit : p.IsUnit → state = .quotedString) {c : UInt8}
    (hc : ∀ k ds, p = .broken k ds → udigit c = none) (buf : List UInt8) : ∃ state' ps',
      ps.readAll (p.text ++ c :: buf) state = ps'.readAll (c :: buf) state' ∧
      BetweenPieces state' ps' ∧ ps.Wrote p.bytes ps' ∧
      (state' = .quotedString ∨ ∃ ds, p = .unit ds ∧ IsHigh (HexDigit.number ds)) := by
  -- an escape of one character
  have hescape : ∀ k s, (k = 'u'.toUInt8 → state = .quotedString) →
      (∀ ps : ParseVars, ps.read .escSequence k = .next .quotedString (ps.write s) []) →
      ∃ state' ps', ps.readAll ([backslash, k] ++ c :: buf) state = ps'.readAll (c :: buf) state' ∧
        BetweenPieces state' ps' ∧ ps.Wrote s ps' ∧
        (state' = .quotedString ∨ ∃ ds, p = .unit ds ∧ IsHigh (HexDigit.number ds)) := by
    intro k s hk hread
    obtain ⟨ps₁, hps₁, hwrote⟩ := readAll_backslash hstate hk (c :: buf)
    exact ⟨.quotedString, ps₁.write s, hps₁.trans (readAll_cons_silent (hread ps₁)), .inl rfl,
      hwrote.trans (.write ps₁ s), .inl rfl⟩
  cases p with
  | char d =>
    obtain ⟨-, hback, hquote⟩ := hok
    have hread : ps.read .quotedString d = .next .quotedString (ps.write [d]) [] := by
      rw [read, round, if_neg hback, if_neg hquote]
    refine ⟨.quotedString, ps.write [d], ?_, .inl rfl, .write ps [d], .inl rfl⟩
    exact (readAll_plain hstate hback (c :: buf)).trans (readAll_cons_silent hread)
  | quoted d =>
    refine hescape d [d] ?_ fun ps => ?_
    · rintro rfl
      obtain h | h | h := hok <;> exact absurd h (by decide)
    · rw [read_escSequence, round, if_pos (show d = dquote ∨ d = squote ∨ d = backslash from hok)]
  | cr => exact hescape _ [CR] (fun h => absurd h (by decide)) fun ps => rfl
  | lf => exact hescape _ [LF] (fun h => absurd h (by decide)) fun ps => rfl
  | hex ds =>
    obtain ⟨ps₁, hread₁, hwrote₁, hps₁, hfirst⟩ :=
      readAll_escape hstate (.inl rfl) (ds.map HexDigit.char ++ c :: buf)
    rw [if_neg fun h => absurd h.1 (by decide)] at hfirst
    obtain ⟨state', ps', hread, hbetween, hwrote, hhigh⟩ :=
      readAll_unitDigits hps₁ hfirst hok.1 (c :: buf)
    -- two digits are no half of a pair
    have hlt : HexDigit.number ds < 16 ^ 2 := hok.1 ▸ HexDigit.number_lt ds
    rw [if_neg fun h => absurd (h.1.trans_lt hlt) (by decide)] at hhigh
    exact ⟨state', ps', hread₁.trans hread, hbetween, hwrote₁.trans hwrote, .inl hhigh⟩
  | unit ds =>
    obtain rfl := hunit trivial
    obtain ⟨ps₁, hread₁, hwrote₁, hps₁, hfirst⟩ :=
      readAll_escape hstate (.inr rfl) (ds.map HexDigit.char ++ c :: buf)
    rw [if_neg fun h => h.2 rfl] at hfirst
    obtain ⟨state', ps', hread, hbetween, hwrote, hhigh⟩ :=
      readAll_unitDigits hps₁ hfirst hok.1 (c :: buf)
    refine ⟨state', ps', hread₁.trans hread, hbetween, hwrote₁.trans hwrote, ?_⟩
    split_ifs at hhigh with h
    · exact .inr ⟨ds, rfl, h⟩
    · exact .inl hhigh
  | pair high low =>
    obtain rfl := hunit trivial
    obtain ⟨⟨hhighLen, hhigh⟩, hlowLen, hlow⟩ := hok
    obtain ⟨ps₁, hread₁, hwrote₁, hps₁, hfirst₁⟩ := readAll_escape hstate (.inr rfl)
      (high.map HexDigit.char ++ (Piece.escape 'u'.toUInt8 low ++ c :: buf))
    rw [if_neg fun h => h.2 rfl] at hfirst₁
    obtain ⟨state₂, ps₂, hread₂, hbetween₂, hwrote₂, hkept⟩ :=
      readAll_unitDigits hps₁ hfirst₁ hhighLen (Piece.escape 'u'.toUInt8 low ++ c :: buf)
    rw [if_pos hhigh] at hkept
    obtain ⟨rfl, hkept⟩ := hkept
    have hnone : unitBytes (HexDigit.number high) = [] :=
      if_pos ⟨hhigh.1, hhigh.2.trans (by decide)⟩
    rw [hnone] at hwrote₂
    obtain ⟨ps₃, hread₃, hwrote₃, hps₃, hfirst₃⟩ :=
      readAll_escape hbetween₂ (.inr rfl) (low.map HexDigit.char ++ c :: buf)
    rw [if_pos ⟨rfl, by decide⟩, hkept] at hfirst₃
    have hne : UInt16.ofNat (HexDigit.number high) ≠ 0 := by
      intro h
      have hnat := UInt16.toNat_inj.mpr h
      have hlt : HexDigit.number high < 0x10000 := hhigh.2.trans (by decide)
      rw [UInt16.toNat_ofNat', Nat.mod_eq_of_lt hlt] at hnat
      exact absurd (hhigh.1.trans_eq hnat) (by decide)
    have hlow₃ := readAll_allDigits hps₃.low (List.ne_nil_of_length_pos (hlowLen ▸ by decide))
      (hlowLen.trans hps₃.sindex.symm) (c :: buf)
    rw [if_pos (hfirst₃ ▸ hne), hfirst₃, convert_pair hhigh hlow] at hlow₃
    refine ⟨.quotedString, (ps₃.digitsRead low).write
      (pairBytes (HexDigit.number high) (HexDigit.number low)), ?_, .inl rfl, ?_, .inl rfl⟩
    · have htext : (Piece.pair high low).text ++ c :: buf = backslash :: 'u'.toUInt8 ::
          (high.map HexDigit.char ++ (Piece.escape 'u'.toUInt8 low ++ c :: buf)) := by
        simp [Piece.text, Piece.escape]
      have hescape₂ : Piece.escape 'u'.toUInt8 low ++ c :: buf =
          backslash :: 'u'.toUInt8 :: (low.map HexDigit.char ++ c :: buf) := rfl
      rw [htext, hread₁, hread₂, hescape₂, hread₃, hlow₃]
    · have hwrote := hwrote₁.trans (hwrote₂.trans (hwrote₃.trans
        ((wrote_digitsRead ps₃ low).trans
          (.write _ (pairBytes (HexDigit.number high) (HexDigit.number low))))))
      rwa [List.nil_append, List.nil_append, List.nil_append, List.nil_append] at hwrote
  | other d =>
    have hd : d ≠ 0 ∧ d ≠ dquote ∧ d ≠ squote ∧ d ≠ backslash ∧ d ≠ 'r'.toUInt8 ∧ d ≠ 'n'.toUInt8 ∧
        d ≠ 'x'.toUInt8 ∧ d ≠ 'u'.toUInt8 := by
      simpa [Piece.Ok] using hok
    refine hescape d [backslash, d] (fun h => absurd h hd.2.2.2.2.2.2.2) fun ps => ?_
    simp [read_escSequence, round, hd]
  | broken k ds =>
    have hk : k = 'x'.toUInt8 ∨ k = 'u'.toUInt8 := hok.imp And.left And.left
    have hlen : ds.length < escDigits k := by
      obtain ⟨rfl, hlen⟩ | ⟨rfl, hlen⟩ := hok <;> exact hlen
    obtain ⟨ps₁, hread₁, hwrote₁, hps₁, -⟩ :=
      readAll_escape hstate hk (ds.map HexDigit.char ++ c :: buf)
    obtain ⟨ps', hread, hwrote⟩ := readAll_brokenDigits hps₁ hlen (hc k ds rfl) buf
    exact ⟨.quotedString, ps', hread₁.trans hread, .inl rfl, hwrote₁.trans hwrote, .inl rfl⟩

/-- The pieces of a string, up to its quote. -/
theorem readAll_pieces {quote : UInt8} (hquote : udigit quote = none) {pieces : List Piece}
    (hstrung : Strung quote pieces) {state : ParseState} {ps : ParseVars}
    (hstate : BetweenPieces state ps) (hq : ps.quotechar = quote)
    (hunit : ∀ p ∈ pieces.head?, p.IsUnit → state = .quotedString) (buf : List UInt8) :
    ∃ state' ps', ps.readAll (pieces.flatMap Piece.text ++ quote :: buf) state =
      ps'.readAll (quote :: buf) state' ∧
      BetweenPieces state' ps' ∧ ps.Wrote (pieces.flatMap Piece.bytes) ps' := by
  induction pieces generalizing state ps with
  | nil => exact ⟨state, ps, rfl, hstate, .refl ps⟩
  | cons p rest ih =>
    obtain ⟨hok, hprecede, hrest⟩ := hstrung
    obtain ⟨c, tail, htail⟩ : ∃ c tail, rest.flatMap Piece.text ++ quote :: buf = c :: tail :=
      List.exists_cons_of_ne_nil (by simp)
    -- a broken escape ends at the next piece or at the quote
    have hc : ∀ k ds, p = .broken k ds → udigit c = none := by
      rintro k ds rfl
      cases htexts : rest.flatMap Piece.text with
      | nil =>
        rw [htexts] at htail
        rwa [← (List.cons.inj htail).1]
      | cons d tail' =>
        rw [htexts] at htail
        rw [← (List.cons.inj htail).1]
        exact hprecede d (by rw [htexts]; rfl)
    obtain ⟨state₁, ps₁, hread, hstate₁, hwrote, hnext⟩ :=
      readAll_piece hstate (hq ▸ hok) (hunit p rfl) hc tail
    have hunit₁ : ∀ q ∈ rest.head?, q.IsUnit → state₁ = .quotedString := by
      intro q hq hqUnit
      refine hnext.resolve_right ?_
      rintro ⟨ds, rfl, hhigh⟩
      exact hprecede hhigh q hq hqUnit
    obtain ⟨state', ps', hread', hstate', hwrote'⟩ :=
      ih hrest hstate₁ (hwrote.quotechar.trans hq) hunit₁
    refine ⟨state', ps', ?_, hstate', hwrote.trans hwrote'⟩
    rw [List.flatMap_cons, List.append_assoc, htail, hread, ← htail, hread']

/-- The machine behind a quoted string. -/
def closed (ps : ParseVars) : ParseVars := { ps.write [0] with nextstate := .init }

theorem readAll_quotedString (s : QuotedString) {ps : ParseVars} (hq : ps.quotechar = s.quote)
    (buf : List UInt8) : ∃ ps',
      ps.readAll (s.pieces.flatMap Piece.text ++ s.quote :: buf) .quotedString =
        ps'.closed.readAll buf ps'.nextstate ∧ ps.Wrote s.bytes ps' := by
  have hdigit : udigit s.quote = none := by
    obtain h | h := s.isQuote <;> rw [h] <;> rfl
  have hback : s.quote ≠ backslash := by
    obtain h | h := s.isQuote <;> rw [h] <;> decide
  obtain ⟨state', ps', hread, hstate', hwrote⟩ :=
    readAll_pieces hdigit s.strung (.inl rfl) hq (fun _ _ _ => rfl) buf
  have hend : ps'.read .quotedString s.quote = .next ps'.nextstate ps'.closed [] := by
    rw [read, round, if_neg hback, if_pos (hwrote.quotechar.trans hq).symm]
    rfl
  exact ⟨ps', by rw [hread, readAll_plain hstate' hback, readAll_cons_silent hend], hwrote⟩

end ParseVars

/-! ### Strings do not end early -/

theorem zero_not_mem_utf8EncodeChar {c : Char} (h : c.toNat ≠ 0) :
    0 ∉ String.utf8EncodeChar c := by
  have hne : ∀ n : ℕ, n % 256 ≠ 0 → (0 : UInt8) ≠ UInt8.ofNat n := by
    intro n hn h0
    have hnat := UInt8.toNat_inj.mpr h0
    rw [UInt8.toNat_ofNat'] at hnat
    exact hn hnat.symm
  have hchar := char_toNat c
  have hval : c.val.toNat = c.toNat := rfl
  rw [String.utf8EncodeChar, hval]
  split_ifs
  all_goals simp only [List.mem_cons, List.not_mem_nil, or_false, not_or]
  · exact hne _ (by omega)
  · exact ⟨hne _ (by omega), hne _ (by omega)⟩
  · exact ⟨hne _ (by omega), hne _ (by omega), hne _ (by omega)⟩
  · exact ⟨hne _ (by omega), hne _ (by omega), hne _ (by omega), hne _ (by omega)⟩

theorem zero_not_mem_unitBytes {n : ℕ} (h : n ≠ 0) (hn : n < 0x10000) : 0 ∉ unitBytes n := by
  rw [unitBytes]
  split_ifs with hs
  · exact List.not_mem_nil
  · exact zero_not_mem_utf8EncodeChar (by rwa [toNat_charOfNat (by omega)])

theorem zero_not_mem_escape {k : UInt8} (hk : k ≠ 0) (ds : List HexDigit) :
    0 ∉ Piece.escape k ds := by
  have hdigit : ∀ d : HexDigit, d.char ≠ 0 := by
    rintro ⟨value, upper⟩
    revert value upper
    decide
  rw [Piece.escape, List.mem_cons, List.mem_cons, List.mem_map]
  rintro (h | h | ⟨d, -, h⟩)
  · exact absurd h (by decide)
  · exact hk h.symm
  · exact hdigit d h

theorem zero_not_mem_bytes {quote : UInt8} {p : Piece} (h : p.Ok quote) : 0 ∉ p.bytes := by
  cases p with
  | char c => simpa [Piece.bytes] using h.1.symm
  | quoted c =>
    rw [Piece.bytes, List.mem_singleton]
    rintro rfl
    obtain h | h | h := h <;> exact absurd h (by decide)
  | cr => decide
  | lf => decide
  | hex ds =>
    have hlt : HexDigit.number ds < 16 ^ 2 := h.1 ▸ HexDigit.number_lt ds
    exact zero_not_mem_unitBytes h.2 (hlt.trans (by decide))
  | unit ds =>
    have hlt : HexDigit.number ds < 16 ^ 4 := h.1 ▸ HexDigit.number_lt ds
    exact zero_not_mem_unitBytes h.2 hlt
  | pair high low =>
    obtain ⟨⟨-, h₁, h₂⟩, -, h₃, h₄⟩ := h
    obtain ⟨n, hn⟩ : ∃ n, n = 0x10000 + (HexDigit.number high - 0xD800) * 0x400 +
      (HexDigit.number low - 0xDC00) := ⟨_, rfl⟩
    have hchar : (Char.ofNat n).toNat = n := toNat_charOfNat (by omega)
    rw [Piece.bytes, pairBytes, ← hn]
    exact zero_not_mem_utf8EncodeChar (by omega)
  | other c =>
    rw [Piece.bytes, List.mem_cons, List.mem_singleton]
    rintro (h0 | rfl)
    · exact absurd h0 (by decide)
    · exact h (by simp)
  | broken k ds =>
    refine zero_not_mem_escape ?_ ds
    obtain ⟨rfl, -⟩ | ⟨rfl, -⟩ := h <;> decide

theorem zero_not_mem_quotedString (s : QuotedString) : 0 ∉ s.bytes := by
  obtain ⟨quote, pieces, isQuote, strung⟩ := s
  show 0 ∉ pieces.flatMap Piece.bytes
  clear isQuote
  induction pieces with
  | nil => exact List.not_mem_nil
  | cons p rest ih =>
    rw [List.flatMap_cons, List.mem_append]
    exact not_or.mpr ⟨zero_not_mem_bytes strung.1, ih strung.2.2⟩

/-! ### Numbers in decimal -/

theorem isdigit_digits (v : IntegerValue) {c : UInt8} (hc : c ∈ v.digitsText) :
    isdigit c = true := by
  have hdigit : ∀ d : Fin 10, isdigit (.ofNat (48 + d.val)) = true := by decide
  obtain ⟨d, -, rfl⟩ := List.mem_map.mp hc
  exact hdigit d

theorem digitsValue_digits (v : IntegerValue) : digitsValue v.digitsText = v.magnitude := by
  have hall := List.takeWhile_eq_self_iff.mpr fun c hc => isdigit_digits v hc
  have hdigit : ∀ d : Fin 10, (UInt8.ofNat (48 + d.val)).toNat - 48 = d.val := by decide
  rw [digitsValue, hall, IntegerValue.digitsText, List.foldl_map, IntegerValue.magnitude]
  simp only [hdigit]

theorem exists_digits (v : IntegerValue) :
    ∃ c ds, v.digitsText = c :: ds ∧ isdigit c = true := by
  have hne : v.digitsText ≠ [] := mt List.map_eq_nil_iff.mp v.nonempty
  obtain ⟨c, ds, hcons⟩ := List.exists_cons_of_ne_nil hne
  exact ⟨c, ds, hcons, isdigit_digits v (by rw [hcons]; exact List.mem_cons_self)⟩

/-- `atoi` reads an integer of the grammar. -/
theorem atoi_integer (v : IntegerValue) : atoi v.text = Int32.ofInt v.value := by
  obtain ⟨c, ds, hcons, hc⟩ := exists_digits v
  have hvalue := digitsValue_digits v
  rw [IntegerValue.text, IntegerValue.value, hcons]
  rw [hcons] at hvalue
  cases hminus : v.minus with
  | none =>
    rw [IntegerValue.sign, List.nil_append, atoi,
      List.dropWhile_cons_of_neg (by simp [not_isspace_of_isdigit hc])]
    dsimp only
    rw [if_neg (ne_of_isdigit hc rfl), if_neg (ne_of_isdigit hc rfl), hvalue]
    rfl
  | some b =>
    cases b with
    | true =>
      show Int32.ofInt (-(digitsValue (c :: ds) : ℤ)) = _
      rw [hvalue]
      rfl
    | false =>
      show Int32.ofInt (digitsValue (c :: ds)) = _
      rw [hvalue]
      rfl

theorem zero_not_mem_integer (v : IntegerValue) : 0 ∉ v.text := by
  rw [IntegerValue.text, List.mem_append]
  have hsign : ∀ minus, 0 ∉ IntegerValue.sign minus := by decide
  exact not_or.mpr ⟨hsign v.minus, fun h => absurd (isdigit_digits v h) (by decide)⟩

theorem integer_ne_sign (v : IntegerValue) {c : UInt8} (hc : isdigit c = false) :
    v.text ≠ [c] := by
  obtain ⟨d, ds, hcons, hd⟩ := exists_digits v
  intro h
  have hmem : d ∈ v.text := by
    rw [IntegerValue.text, hcons]
    simp
  rw [h, List.mem_singleton] at hmem
  exact ne_of_isdigit hd hc hmem

/-! ### Statements -/

namespace ParseVars

/-- The machine in front of a value, with the name in the line buffer. -/
structure AtValue (name : CString) (defPref : Bool) (ps : ParseVars) : Prop where
  lb : ps.lb = name ++ [0]
  vb : ps.vb = .lb (name.length + 1)
  nextstate : ps.nextstate = .init
  fdefault : ps.fdefault = defPref

/-- A string begins where one may stand. -/
theorem readAll_quote {s : QuotedString} {state : ParseState} {ps ps' : ParseVars}
    (hquote : ps.read state s.quote = .next .quotedString ps' []) (hq : ps'.quotechar = s.quote)
    (buf : List UInt8) : ∃ ps₁,
      ps.readAll (s.text ++ buf) state = ps₁.closed.readAll buf ps'.nextstate ∧
        ps'.Wrote s.bytes ps₁ := by
  obtain ⟨ps₁, hread, hwrote⟩ := readAll_quotedString s hq buf
  have hnext : ps₁.nextstate = ps'.nextstate := by
    obtain ⟨sindex, utf16, esctmp, rfl⟩ := hwrote
    rfl
  refine ⟨ps₁, ?_, hwrote⟩
  rw [QuotedString.text, List.cons_append, List.append_assoc, List.singleton_append,
    readAll_cons_silent hquote, hread, hnext]

/-- A name up to the comma. -/
theorem readAll_nameText (name : QuotedString) {ps : ParseVars} (hlb : ps.lb = [])
    (js : List Junk) (buf : List UInt8) : ∃ ps' : ParseVars,
      ps.readAll (name.text ++ (junkText js ++ (ascii "," ++ buf))) .untilName =
        ps'.readAll buf .untilValue ∧
      ps'.AtValue name.bytes (ps.smatch = some .kPref) := by
  have hquote : ps.read .untilName name.quote = .next .quotedString { ps with
      fdefault := ps.smatch = some .kPref, quotechar := name.quote,
      nextstate := .untilComma } [] := by
    rw [read, round, if_pos name.isQuote]
  obtain ⟨ps₁, hread, hwrote⟩ := readAll_quote hquote rfl (junkText js ++ (ascii "," ++ buf))
  have hcomma : ps₁.closed.readAll (junkText js ++ (ascii "," ++ buf)) .untilComma =
      { ps₁.closed with vb := .lb ps₁.closed.lb.length }.readAll buf .untilValue := by
    rw [readAll_junkText (by decide) rfl]
    exact readAll_cons_silent rfl
  refine ⟨_, hread.trans hcomma, ?_⟩
  obtain ⟨sindex, utf16, esctmp, rfl⟩ := hwrote
  exact ⟨by simp [closed, write, hlb], by simp [closed, write, hlb], rfl, rfl⟩

theorem readAll_untilCloseParen {ps : ParseVars} (hnext : ps.nextstate = .init) (js : List Junk)
    (buf : List UInt8) : ps.readAll (junkText js ++ (ascii ")" ++ buf)) .untilCloseParen =
      ps.readAll buf .untilSemicolon := by
  rw [readAll_junkText (by decide) hnext]
  exact readAll_cons_silent rfl

/-- The end of a number: a parenthesis, white space or a comment. -/
theorem readAll_numberEnd {ps : ParseVars} (hnext : ps.nextstate = .init) (js : List Junk)
    (buf : List UInt8) : ps.readAll (junkText js ++ (ascii ")" ++ buf)) .intValue =
      (ps.write [0]).readAll buf .untilSemicolon := by
  cases js with
  | nil => exact readAll_cons_silent rfl
  | cons j js =>
    have hwritten : (ps.write [0]).nextstate = .init := hnext
    have hinit := nextstate_eta hwritten
    have hslash : ps.read .intValue '/'.toUInt8 =
        .next .commentMaybeStart { ps.write [0] with nextstate := .untilCloseParen } [] := rfl
    have hws : ∀ c, IsWS c → ps.read .intValue c =
        .next .untilCloseParen { ps.write [0] with nextstate := .init } [] := by
      intro c hc
      rw [hinit]
      simp only [IsWS, List.mem_cons, List.not_mem_nil, or_false] at hc
      rcases hc with rfl | rfl | rfl | rfl | rfl | rfl <;> rfl
    have hparen : (ps.write [0]).readAll (junkText js ++ (ascii ")" ++ buf)) .untilCloseParen =
        (ps.write [0]).readAll buf .untilSemicolon := readAll_untilCloseParen hwritten js buf
    have hj := readAll_junk hslash hws j (junkText js ++ (ascii ")" ++ buf))
    rw [← hparen, ← hinit, junkText, List.flatMap_cons, List.append_assoc]
    exact hj

/-- A value up to the parenthesis, and what the reader is then called with. -/
theorem readAll_valueText (v : ValueText) {name : CString} (hname : 0 ∉ name) {defPref : Bool}
    {ps : ParseVars} (hps : ps.AtValue name defPref) (js : List Junk) (buf : List UInt8) :
    ∃ ps' : ParseVars,
      ps.readAll (v.text ++ (junkText js ++ (ascii ")" ++ buf))) .untilValue =
        ps'.readAll buf .untilSemicolon ∧
      ps'.nextstate = .init ∧ ps'.pref_DoCallback = some ⟨name, some v.value, defPref⟩ := by
  cases v with
  | quoted s =>
    have hquote : ps.read .untilValue s.quote = .next .quotedString { ps with
        vtype := some .string, quotechar := s.quote, nextstate := .untilCloseParen } [] := by
      rw [read, round, if_pos s.isQuote]
    obtain ⟨ps₁, hread, hwrote⟩ := readAll_quote hquote rfl (junkText js ++ (ascii ")" ++ buf))
    refine ⟨ps₁.closed, hread.trans (readAll_untilCloseParen rfl js buf), rfl, ?_⟩
    · obtain ⟨sindex, utf16, esctmp, rfl⟩ := hwrote
      have hlb : ps.lb ++ s.bytes ++ [0] = name ++ [0] ++ (s.bytes ++ [0]) := by
        rw [hps.lb, List.append_assoc]
      simp only [pref_DoCallback, ParseVars.value, closed, write, hps.vb, hps.fdefault, hlb,
        cstringAt_value (zero_not_mem_quotedString s)]
      rw [List.append_assoc, List.singleton_append, cstringAt_zero hname]
      rfl
  | bool b =>
    have hword : ps.readAll (ValueText.text (.bool b)) .untilValue =
        (some .untilCloseParen, { ps with
          vb := .keyword (if b then .kTrue else .kFalse), vtype := some .bool,
          smatch := some (if b then .kTrue else .kFalse), sindex := if b then 4 else 5,
          nextstate := .init }, []) := by
      cases b <;> rfl
    refine ⟨_, (readAll_append_of_silent hword).trans (readAll_untilCloseParen rfl js buf), rfl, ?_⟩
    · have hcall : cstringAt (name ++ [0]) 0 = name := cstringAt_zero hname []
      simp only [pref_DoCallback, hps.lb, hps.fdefault, hcall]
      cases b <;> rfl
  | integer v fits =>
    have hnumber : ps.readAll v.text .untilValue =
        (some .intValue, { ps with vtype := some .int }.write v.text, []) := by
      obtain ⟨c, ds, hcons, hc⟩ := exists_digits v
      have hall : ∀ d ∈ c :: ds, isdigit d = true := fun d hd => isdigit_digits v (by rwa [hcons])
      have hds : ∀ d ∈ ds, isdigit d = true := fun d hd => hall d (List.mem_cons_of_mem c hd)
      rw [IntegerValue.text, hcons]
      rcases v.minus with _ | _ | _
      · exact readAll_number (.inl hc) hds ps
      · exact readAll_number (.inr (.inr rfl)) hall ps
      · exact readAll_number (.inr (.inl rfl)) hall ps
    have hinit : ({ ps with vtype := some .int }.write v.text).nextstate = .init := hps.nextstate
    refine ⟨_, (readAll_append_of_silent hnumber).trans (readAll_numberEnd hinit js buf), hinit, ?_⟩
    · have hlb : ps.lb ++ v.text ++ [0] = name ++ [0] ++ (v.text ++ [0]) := by
        rw [hps.lb, List.append_assoc]
      have hminus := integer_ne_sign v (show isdigit '-'.toUInt8 = false from rfl)
      have hplus := integer_ne_sign v (show isdigit '+'.toUInt8 = false from rfl)
      simp only [pref_DoCallback, ParseVars.value, write, hps.vb, hps.fdefault, hlb,
        cstringAt_value (zero_not_mem_integer v), hminus, hplus, or_self, if_false, atoi_integer]
      rw [List.append_assoc, List.singleton_append, cstringAt_zero hname]
      rfl

/-- The word a statement begins with. -/
theorem readAll_functionName (isUserPref : Bool) (ps : ParseVars) :
    ps.readAll (if isUserPref then ascii "user_pref" else ascii "pref") .init =
      (some .untilOpenParen, { ps.reset with
        smatch := some (if isUserPref then .kUserPref else .kPref),
        sindex := if isUserPref then 9 else 4, nextstate := .init }, []) := by
  cases isUserPref <;> rfl

/-- A statement calls the reader with its preference. -/
theorem readAll_function (f : PrefFunction) {ps : ParseVars} (hnext : ps.nextstate = .init)
    (buf : List UInt8) : ∃ ps' : ParseVars, ps'.nextstate = .init ∧
      ps.readAll (f.text ++ buf) .init =
        ((ps'.readAll buf .init).1, (ps'.readAll buf .init).2.1,
          f.call :: (ps'.readAll buf .init).2.2) := by
  have htext : f.text ++ buf = ljunkText f.ljunk ++
      ((if f.isUserPref then ascii "user_pref" else ascii "pref") ++ (junkText f.beforeOpen ++
        (ascii "(" ++ (junkText f.beforeName ++ (f.name.text ++ (junkText f.beforeComma ++
          (ascii "," ++ (junkText f.beforeValue ++ (f.value.text ++ (junkText f.beforeClose ++
            (ascii ")" ++ (junkText f.beforeSemicolon ++ (ascii ";" ++ buf))))))))))))) := by
    simp [PrefFunction.text, PrefFunction.args]
  rw [htext]
  obtain ⟨ps₁, hread₁, hreset, -⟩ := readAll_ljunkText hnext f.ljunk _
  rw [hread₁, readAll_append_of_silent (readAll_functionName f.isUserPref ps₁), hreset]
  -- behind the word the line buffer is empty
  obtain ⟨ps₂, hps₂⟩ : ∃ ps₂ : ParseVars, ps₂ = { ps.reset with
    smatch := some (if f.isUserPref then .kUserPref else .kPref),
    sindex := if f.isUserPref then 9 else 4, nextstate := .init } := ⟨_, rfl⟩
  have hnext₂ : ps₂.nextstate = .init := by rw [hps₂]
  have hlb₂ : ps₂.lb = [] := by
    rw [hps₂]
    exact lb_reset ps
  have hdefault : decide (ps₂.smatch = some .kPref) = !f.isUserPref := by
    rw [hps₂]
    cases f.isUserPref <;> rfl
  have hopen : ∀ tail, ps₂.readAll (ascii "(" ++ tail) .untilOpenParen =
      ps₂.readAll tail .untilName := fun tail => readAll_cons_silent rfl
  rw [← hps₂, readAll_junkText (by decide) hnext₂, hopen, readAll_junkText (by decide) hnext₂]
  obtain ⟨ps₃, hread₃, hps₃⟩ := readAll_nameText f.name hlb₂ f.beforeComma _
  rw [hread₃, readAll_junkText (by decide) hps₃.nextstate]
  obtain ⟨ps₄, hread₄, hnext₄, hcall⟩ :=
    readAll_valueText f.value (zero_not_mem_quotedString f.name) hps₃ f.beforeClose _
  rw [hdefault] at hcall
  rw [hread₄, readAll_junkText (by decide) hnext₄, readAll_append_of (readAll_semicolon hcall)]
  exact ⟨ps₄, hnext₄, rfl⟩

/-- Statements one after the other. -/
theorem readAll_functions (fs : List PrefFunction) {ps : ParseVars} (hnext : ps.nextstate = .init)
    (trailing : List LJunk) : ∃ ps' : ParseVars,
      ps.readAll (fs.flatMap PrefFunction.text ++ ljunkText trailing) .init =
        (some .init, ps', fs.map PrefFunction.call) := by
  induction fs generalizing ps with
  | nil =>
    obtain ⟨ps', hread, -, -⟩ := readAll_ljunkText hnext trailing []
    rw [List.append_nil] at hread
    exact ⟨ps', hread⟩
  | cons f fs ih =>
    obtain ⟨ps₁, hnext₁, hread₁⟩ :=
      readAll_function f hnext (fs.flatMap PrefFunction.text ++ ljunkText trailing)
    obtain ⟨ps', hread⟩ := ih hnext₁
    refine ⟨ps', ?_⟩
    rw [List.flatMap_cons, List.append_assoc, hread₁, hread]
    rfl

end ParseVars

/-- Every text of the grammar is accepted, and the reader is called for its preferences. -/
theorem PREF_ParseBuf_grammar (fs : List PrefFunction) (trailing : List LJunk) :
    (PREF_ParseBuf PREF_InitParseState (fs.flatMap PrefFunction.text ++ ljunkText trailing)).1 =
      true ∧
    (PREF_ParseBuf PREF_InitParseState
      (fs.flatMap PrefFunction.text ++ ljunkText trailing)).2.2 = fs.map PrefFunction.call := by
  have hnext : PREF_InitParseState.vars.nextstate = .init := rfl
  have hinit : PREF_InitParseState.state = .init := rfl
  obtain ⟨ps', hread⟩ := ParseVars.readAll_functions fs hnext trailing
  rw [PREF_ParseBuf, hinit, hread]
  exact ⟨rfl, rfl⟩

/-- A string ends at an escaped zero byte, and a number of more than 32 bits is another one. -/
theorem PREF_ParseBuf_cut :
    ((PREF_ParseBuf PREF_InitParseState (ascii "pref('" ++
      [Piece.char 97, .hex [⟨0, false⟩, ⟨0, false⟩], .char 98].flatMap Piece.text ++
        ascii "',1);")).2.2 = [⟨[97], some (.intVal 1), true⟩] ∧
      [Piece.char 97, .hex [⟨0, false⟩, ⟨0, false⟩], .char 98].flatMap Piece.bytes ≠ [97]) ∧
    ∃ n : PRInt32, (PREF_ParseBuf PREF_InitParseState (ascii "pref('a'," ++
      IntegerValue.text ⟨none, [4, 2, 9, 4, 9, 6, 7, 2, 9, 7], by decide⟩ ++ ascii ");")).2.2 =
        [⟨[97], some (.intVal n), true⟩] ∧
      n.toInt ≠ IntegerValue.value ⟨none, [4, 2, 9, 4, 9, 6, 7, 2, 9, 7], by decide⟩ := by
  refine ⟨?_, 1, ?_, ?_⟩
  · decide +kernel
  · decide +kernel
  · decide

end Kompozer.Prefs

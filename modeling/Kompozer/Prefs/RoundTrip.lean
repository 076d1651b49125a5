import Kompozer.Prefs.Buffering
import Kompozer.Prefs.SetGet
import Kompozer.Prefs.Writer
import Mathlib.Data.List.TakeWhile
import Mathlib.Data.Nat.Digits.Lemmas

/-! Reading what was saved. The reader is followed through a line part by part and then
through the lines of the file: it is called for each preference that was saved, with the
same name, type and value. -/

namespace Kompozer.Prefs

namespace ParseVars

/-! ### The parts of a line -/

/-- A text that is read without anything wrong and how it leaves the machine. -/
theorem readAll_append_of {A B : List UInt8} {state state₁ : ParseState} {ps ps₁ : ParseVars}
    {calls : List Call} (h : ps.readAll A state = (some state₁, ps₁, calls)) :
    ps.readAll (A ++ B) state =
      ((ps₁.readAll B state₁).1, (ps₁.readAll B state₁).2.1, calls ++ (ps₁.readAll B state₁).2.2) := by
  rw [readAll_append, h]

/-- A text that calls nobody. -/
theorem readAll_append_of_silent {A B : List UInt8} {state state₁ : ParseState}
    {ps ps₁ : ParseVars} (h : ps.readAll A state = (some state₁, ps₁, [])) :
    ps.readAll (A ++ B) state = ps₁.readAll B state₁ := by
  rw [readAll_append_of h]
  rfl

/-- Reading an escaped string writes the string. -/
theorem readAll_str_escape (s : CString) {ps : ParseVars} (hq : ps.quotechar = dquote) :
    ps.readAll (str_escape s) .quotedString = (some .quotedString, ps.write s, []) := by
  induction s generalizing ps with
  | nil => simp [str_escape, readAll, write]
  | cons c s ih =>
    have hchar : ps.readAll (escapeChar c) .quotedString = (some .quotedString, ps.write [c], []) := by
      rw [escapeChar]
      by_cases hLF : c = LF
      · rw [if_pos hLF, hLF]
        rfl
      by_cases hCR : c = CR
      · rw [if_neg hLF, if_pos hCR, hCR]
        rfl
      by_cases hback : c = backslash
      · rw [if_neg hLF, if_neg hCR, if_pos hback, hback]
        rfl
      by_cases hquote : c = dquote
      · rw [if_neg hLF, if_neg hCR, if_neg hback, if_pos hquote, hquote]
        rfl
      rw [if_neg hLF, if_neg hCR, if_neg hback, if_neg hquote]
      simp [readAll, read, round, hback, hq, hquote]
    have hwrite : (ps.write [c]).write s = ps.write (c :: s) := by simp [write]
    rw [str_escape, List.flatMap_cons, readAll_append_of_silent hchar, ← hwrite]
    exact ih hq

/-- The machine at the beginning of a line. -/
def reset (ps : ParseVars) : ParseVars :=
  if ps.lb ≠ [] then { ps with lb := [], vb := .null, vtype := none, fdefault := false } else ps

theorem lb_reset (ps : ParseVars) : ps.reset.lb = [] := by
  rw [reset]
  split_ifs with h
  · rfl
  · exact not_not.mp h

/-- The machine in front of a name. -/
def atName (ps : ParseVars) : ParseVars :=
  { ps.reset with
    smatch := some .kUserPref, sindex := 9, nextstate := .untilComma, quotechar := dquote,
    fdefault := false }

theorem readAll_user_pref (ps : ParseVars) :
    ps.readAll (ascii "user_pref(" ++ [dquote]) .init = (some .quotedString, ps.atName, []) := rfl

theorem readAll_comma {ps : ParseVars} (hq : ps.quotechar = dquote)
    (hnext : ps.nextstate = .untilComma) :
    ps.readAll (dquote :: ascii ", ") .quotedString =
      (some .untilValue, { ps with
        lb := ps.lb ++ [0], nextstate := .init, vb := .lb (ps.lb.length + 1) }, []) := by
  obtain ⟨nextstate, smatch, sindex, utf16, esctmp, quotechar, lb, vb, vtype, fdefault⟩ := ps
  subst hq hnext
  have hlen : (lb ++ [(0 : UInt8)]).length = lb.length + 1 := List.length_append
  rw [← hlen]
  rfl

/-- The machine in front of a value, with the name in the line buffer. -/
def atValue (ps : ParseVars) (name : CString) : ParseVars :=
  { ps.atName with lb := name ++ [0], nextstate := .init, vb := .lb (name.length + 1) }

theorem readAll_name (ps : ParseVars) (name : CString) :
    ps.readAll (ascii "user_pref(" ++ [dquote] ++ str_escape name ++ dquote :: ascii ", ") .init =
      (some .untilValue, ps.atValue name, []) := by
  have hlb : ps.atName.lb = [] := lb_reset ps
  have hname := @readAll_str_escape name ps.atName rfl
  have hcomma := @readAll_comma (ps.atName.write name) rfl rfl
  rw [List.append_assoc, readAll_append_of_silent (readAll_user_pref ps),
    readAll_append_of_silent hname, hcomma, atValue]
  simp [write, hlb]

/-! ### Calling the reader -/

theorem readAll_semicolon {ps : ParseVars} {call : Call} (h : ps.pref_DoCallback = some call) :
    ps.readAll (ascii ";") .untilSemicolon = (some .init, ps, [call]) := by
  show ps.readAll [';'.toUInt8] .untilSemicolon = _
  simp [readAll, read, round, h]

theorem readAll_closeParen {ps : ParseVars} {call : Call} (h : ps.pref_DoCallback = some call) :
    ps.readAll (ascii ");") .untilCloseParen = (some .init, ps, [call]) :=
  readAll_semicolon h

theorem cstringAt_zero {name : CString} (h : 0 ∉ name) (rest : List UInt8) :
    cstringAt (name ++ 0 :: rest) 0 = name := by
  rw [cstringAt, List.drop_zero, List.takeWhile_append_of_pos]
  · simp
  · intro c hc
    simpa using ne_of_mem_of_not_mem hc h

/-- The value behind the name. -/
theorem cstringAt_value {value : CString} (h : 0 ∉ value) (name : CString) :
    cstringAt (name ++ [0] ++ (value ++ [0])) (name.length + 1) = value := by
  have hlen : (name ++ [(0 : UInt8)]).length = name.length + 1 := List.length_append
  rw [cstringAt, ← hlen, List.drop_left]
  exact cstringAt_zero h []

end ParseVars

/-! ### Numbers -/

theorem decimal_ne_nil (n : ℕ) : decimal n ≠ [] := by
  rw [decimal]
  split_ifs with h
  · simp
  · simpa using Nat.digits_ne_nil_iff_ne_zero.mpr h

private theorem toNat_digit {d : ℕ} (hd : d < 10) : (UInt8.ofNat (48 + d)).toNat = 48 + d := by
  rw [UInt8.toNat_ofNat']
  omega

theorem isdigit_decimal {n : ℕ} {c : UInt8} (hc : c ∈ decimal n) : isdigit c = true := by
  rw [decimal] at hc
  split_ifs at hc
  · rw [List.mem_singleton.mp hc]
    decide
  · obtain ⟨d, hd, rfl⟩ := List.mem_map.mp hc
    have hlt := Nat.digits_lt_base (by decide) (List.mem_reverse.mp hd)
    rw [isdigit, Bool.and_eq_true, decide_eq_true_iff, decide_eq_true_iff, UInt8.le_iff_toNat_le,
      UInt8.le_iff_toNat_le, toNat_digit hlt]
    exact ⟨Nat.le_add_right 48 d, Nat.add_le_add_left (Nat.le_of_lt_succ hlt) 48⟩

theorem digitsValue_decimal (n : ℕ) : digitsValue (decimal n) = n := by
  have hall : (decimal n).takeWhile isdigit = decimal n :=
    List.takeWhile_eq_self_iff.mpr fun c hc => isdigit_decimal hc
  rw [digitsValue, hall, decimal]
  split_ifs with h
  · rw [h]
    rfl
  · rw [List.foldl_map, List.foldl_reverse]
    have hfold : ∀ ds : List ℕ, (∀ d ∈ ds, d < 10) →
        ds.foldr (fun d m => 10 * m + ((UInt8.ofNat (48 + d)).toNat - 48)) 0 = Nat.ofDigits 10 ds := by
      intro ds hds
      induction ds with
      | nil => rfl
      | cons d ds ih =>
        rw [List.foldr_cons, ih fun e he => hds e (List.mem_cons_of_mem d he),
          toNat_digit (hds d (by simp)), Nat.ofDigits_cons]
        omega
    rw [hfold _ fun d hd => Nat.digits_lt_base (by decide) hd, Nat.ofDigits_digits]

theorem not_isspace_of_isdigit {c : UInt8} (h : isdigit c = true) : isspace c = false := by
  rw [isdigit, Bool.and_eq_true, decide_eq_true_iff, UInt8.le_iff_toNat_le] at h
  have hle : 48 ≤ c.toNat := h.1
  have hne : c ≠ 32 := by
    rintro rfl
    exact absurd hle (by decide)
  have hgt : ¬ c ≤ 13 := by
    rw [UInt8.le_iff_toNat_le]
    exact Nat.not_le_of_lt (Nat.lt_of_lt_of_le (by decide) hle)
  simp [isspace, hne, hgt]

theorem ne_of_isdigit {c d : UInt8} (h : isdigit c = true) (hd : isdigit d = false) : c ≠ d := by
  rintro rfl
  rw [h] at hd
  exact absurd hd (by simp)

/-- `atoi` reads what `AppendInt` writes. -/
theorem atoi_appendInt (v : PRInt32) : atoi (appendInt v) = v := by
  rw [appendInt, atoi]
  split_ifs with hneg
  · have hminus : isspace '-'.toUInt8 = false := rfl
    rw [List.dropWhile_cons_of_neg (by simp [hminus])]
    dsimp only
    rw [if_pos rfl, digitsValue_decimal]
    have habs : -(v.toInt.natAbs : ℤ) = v.toInt := by omega
    rw [habs, Int32.ofInt_toInt]
  · obtain ⟨c, ds, hcons⟩ := List.exists_cons_of_ne_nil (decimal_ne_nil v.toInt.natAbs)
    have hc : isdigit c = true := isdigit_decimal (by rw [hcons]; exact List.mem_cons_self)
    have habs : (v.toInt.natAbs : ℤ) = v.toInt := by omega
    rw [hcons, List.dropWhile_cons_of_neg (by simp [not_isspace_of_isdigit hc])]
    dsimp only
    rw [if_neg (ne_of_isdigit hc rfl), if_neg (ne_of_isdigit hc rfl), ← hcons, digitsValue_decimal,
      habs, Int32.ofInt_toInt]

/-- A number is more than a sign. -/
theorem appendInt_ne_sign (v : PRInt32) {c : UInt8} (hc : isdigit c = false) :
    appendInt v ≠ [c] := by
  rw [appendInt]
  split_ifs with hneg
  · intro h
    exact decimal_ne_nil _ (List.cons.inj h).2
  · intro h
    have hmem : c ∈ decimal v.toInt.natAbs := by rw [h]; exact List.mem_singleton.mpr rfl
    rw [isdigit_decimal hmem] at hc
    exact absurd hc (by simp)

theorem zero_not_mem_appendInt (v : PRInt32) : 0 ∉ appendInt v := by
  have hzero : 0 ∉ decimal v.toInt.natAbs := fun h => absurd (isdigit_decimal h) (by decide)
  rw [appendInt]
  split_ifs
  · exact List.not_mem_cons_of_ne_of_not_mem (by decide) hzero
  · exact hzero

/-- No string of the value ends early. -/
def PrefValue.NulFree : PrefValue → Prop
  | stringVal s => 0 ∉ s
  | _ => True

namespace ParseVars

/-- Digits are written into the line buffer. -/
theorem readAll_digits {ds : CString} (hds : ∀ c ∈ ds, isdigit c = true) (ps : ParseVars) :
    ps.readAll ds .intValue = (some .intValue, ps.write ds, []) := by
  induction ds generalizing ps with
  | nil => simp [readAll, write]
  | cons c ds ih =>
    have hc := hds c (by simp)
    have hread : ps.read .intValue c = .next .intValue (ps.write [c]) [] := by
      rw [read, round, if_pos hc]
    rw [readAll, hread]
    dsimp only
    rw [ih fun d hd => hds d (List.mem_cons_of_mem c hd)]
    simp [write]

/-- A digit or a sign begins a number. -/
theorem readAll_number {c : UInt8}
    (hc : isdigit c = true ∨ c = '-'.toUInt8 ∨ c = '+'.toUInt8) {ds : CString}
    (hds : ∀ d ∈ ds, isdigit d = true) (ps : ParseVars) :
    ps.readAll (c :: ds) .untilValue =
      (some .intValue, { ps with vtype := some .int }.write (c :: ds), []) := by
  have hne : ∀ d, d ≠ '-'.toUInt8 → d ≠ '+'.toUInt8 → isdigit d = false → c ≠ d := by
    intro d hminus hplus hdigit
    rcases hc with hc | rfl | rfl
    · exact ne_of_isdigit hc hdigit
    · exact hminus.symm
    · exact hplus.symm
  have hread : ps.read .untilValue c =
      .next .intValue ({ ps with vtype := some .int }.write [c]) [] := by
    rw [read, round]
    rw [if_neg (not_or.mpr ⟨hne dquote (by decide) (by decide) rfl,
        hne squote (by decide) (by decide) rfl⟩),
      if_neg (not_or.mpr ⟨hne 't'.toUInt8 (by decide) (by decide) rfl,
        hne 'f'.toUInt8 (by decide) (by decide) rfl⟩), if_pos hc]
  rw [readAll, hread]
  dsimp only
  rw [readAll_digits hds]
  simp [write]

/-- A number is written into the line buffer. -/
theorem readAll_appendInt (v : PRInt32) (ps : ParseVars) :
    ps.readAll (appendInt v) .untilValue =
      (some .intValue, { ps with vtype := some .int }.write (appendInt v), []) := by
  rw [appendInt]
  split_ifs
  · exact readAll_number (.inr (.inl rfl)) (fun d hd => isdigit_decimal hd) ps
  · obtain ⟨c, ds, hcons⟩ := List.exists_cons_of_ne_nil (decimal_ne_nil v.toInt.natAbs)
    have hall : ∀ d ∈ c :: ds, isdigit d = true := fun d hd => isdigit_decimal (by rwa [hcons])
    rw [hcons]
    exact readAll_number (.inl (hall c (by simp)))
      (fun d hd => hall d (List.mem_cons_of_mem c hd)) ps

/-! ### A line -/

/-- Behind the name a value is read and the reader is called with both. -/
theorem readAll_value (ps : ParseVars) {name : CString} (hname : 0 ∉ name) {value : PrefValue}
    (hvalue : value.NulFree) : ∃ ps',
      (ps.atValue name).readAll (value.text ++ ascii ");") .untilValue =
        (some .init, ps', [⟨name, some value, false⟩]) := by
  cases value with
  | stringVal s =>
    -- the string goes into the line buffer behind the name
    have hquote : (ps.atValue name).readAll [dquote] .untilValue =
        (some .quotedString, { ps.atValue name with
          vtype := some .string, quotechar := dquote, nextstate := .untilCloseParen }, []) := rfl
    have hescape := @readAll_str_escape s { ps.atValue name with
      vtype := some .string, quotechar := dquote, nextstate := .untilCloseParen } rfl
    have hend : ({ ps.atValue name with
          vtype := some .string, quotechar := dquote,
          nextstate := .untilCloseParen }.write s).readAll [dquote] .quotedString =
        (some .untilCloseParen, ({ ps.atValue name with
          vtype := some .string, quotechar := dquote,
          nextstate := .init }.write s).write [0], []) := rfl
    have hcall : (({ ps.atValue name with
          vtype := some .string, quotechar := dquote,
          nextstate := .init }.write s).write [0]).pref_DoCallback =
        some ⟨name, some (.stringVal s), false⟩ := by
      have hlb : name ++ [0] ++ s ++ [0] = name ++ [0] ++ (s ++ [0]) := by simp
      simp only [pref_DoCallback, ParseVars.value, write, atValue, hlb, cstringAt_value hvalue]
      rw [List.append_assoc, List.singleton_append, cstringAt_zero hname]
      rfl
    have hrun := readAll_closeParen hcall
    rw [← readAll_append_of_silent hend, ← readAll_append_of_silent hescape,
      ← readAll_append_of_silent hquote] at hrun
    have htext : PrefValue.text (.stringVal s) ++ ascii ");" =
        [dquote] ++ (str_escape s ++ ([dquote] ++ ascii ");")) := by
      simp [PrefValue.text]
    rw [htext]
    exact ⟨_, hrun⟩
  | intVal v =>
    have hnumber := readAll_appendInt v (ps.atValue name)
    have hcall : (({ ps.atValue name with vtype := some .int }.write (appendInt v)).write
        [0]).pref_DoCallback = some ⟨name, some (.intVal v), false⟩ := by
      have hlb : name ++ [0] ++ appendInt v ++ [0] = name ++ [0] ++ (appendInt v ++ [0]) := by simp
      have hminus := appendInt_ne_sign v (c := '-'.toUInt8) rfl
      have hplus := appendInt_ne_sign v (c := '+'.toUInt8) rfl
      simp only [pref_DoCallback, ParseVars.value, write, atValue, hlb,
        cstringAt_value (zero_not_mem_appendInt v), hminus, hplus, or_self, if_false,
        atoi_appendInt]
      rw [List.append_assoc, List.singleton_append, cstringAt_zero hname]
      rfl
    have hparen : ({ ps.atValue name with vtype := some .int }.write (appendInt v)).readAll
        (ascii ")") .intValue = (some .untilSemicolon,
          ({ ps.atValue name with vtype := some .int }.write (appendInt v)).write [0], []) := rfl
    have hrun := readAll_semicolon hcall
    rw [← readAll_append_of_silent hparen, ← readAll_append_of_silent hnumber] at hrun
    exact ⟨_, hrun⟩
  | boolVal b =>
    have hcall : ∀ ps₁ : ParseVars, ps₁.lb = name ++ [0] → ps₁.vtype = some .bool →
        ps₁.vb = .keyword (if b then .kTrue else .kFalse) → ps₁.fdefault = false →
        ps₁.pref_DoCallback = some ⟨name, some (.boolVal b), false⟩ := by
      intro ps₁ hlb hvtype hvb hdefault
      simp only [pref_DoCallback, hvtype, hvb, hdefault, hlb]
      rw [show name ++ [0] = name ++ 0 :: [] from rfl, cstringAt_zero hname]
      cases b <;> rfl
    cases b with
    | true => exact ⟨_, readAll_closeParen (hcall _ rfl rfl rfl rfl)⟩
    | false => exact ⟨_, readAll_closeParen (hcall _ rfl rfl rfl rfl)⟩

/-- A line calls the reader once, with what was saved. -/
theorem readAll_prefLine (ps : ParseVars) {name : CString} (hname : 0 ∉ name) {value : PrefValue}
    (hvalue : value.NulFree) : ∃ ps',
      ps.readAll (prefLine name value) .init =
        (some .init, ps', [⟨name, some value, false⟩]) := by
  obtain ⟨ps', h⟩ := readAll_value ps hname hvalue
  refine ⟨ps', ?_⟩
  have hline : prefLine name value =
      (ascii "user_pref(" ++ [dquote] ++ str_escape name ++ dquote :: ascii ", ") ++
        (value.text ++ ascii ");") := by
    simp [prefLine]
  rw [hline, readAll_append_of_silent (readAll_name ps name), h]

/-- Line breaks between the lines are skipped. -/
theorem readAll_lineBreak (NS_LINEBREAK : LineBreak) (ps : ParseVars) :
    ∃ ps', ps.readAll NS_LINEBREAK.bytes .init = (some .init, ps', []) := by
  cases NS_LINEBREAK <;> exact ⟨_, rfl⟩

end ParseVars

/-! ### The file -/

/-- What is saved, with the names. -/
def PrefTable.savedPrefs (t : PrefTable) : List (CString × PrefValue) :=
  t.entries.filterMap fun s => s.2.saved.map (Prod.mk s.1)

/-- The same in the order of the file. -/
def PrefTable.sortedPrefs (t : PrefTable) : List (CString × PrefValue) :=
  t.savedPrefs.mergeSort fun a b => strcmpLe (prefLine a.1 a.2) (prefLine b.1 b.2)

theorem PrefTable.lines_eq (t : PrefTable) :
    t.lines = t.sortedPrefs.map fun s => prefLine s.1 s.2 := by
  have hlines : (t.entries.filterMap fun s => pref_savePref s.1 s.2) =
      t.savedPrefs.map fun s => prefLine s.1 s.2 := by
    rw [savedPrefs, List.map_filterMap]
    refine List.filterMap_congr fun s _ => ?_
    rw [pref_savePref, Option.map_map]
    rfl
  rw [lines, hlines, sortedPrefs]
  refine (List.map_mergeSort (f := fun s : CString × PrefValue => prefLine s.1 s.2) ?_).symm
  exact fun _ _ _ _ => rfl

/-- The call the reader makes for a preference that was saved. -/
def savedCall (s : CString × PrefValue) : Call := ⟨s.1, some s.2, false⟩

namespace ParseVars

set_option maxRecDepth 8000 in
theorem readAll_outHeader (NS_LINEBREAK : LineBreak) :
    PREF_InitParseState.vars.readAll (outHeader NS_LINEBREAK) .init =
      (some .init, PREF_InitParseState.vars, []) := by
  cases NS_LINEBREAK <;> decide +kernel

theorem readAll_lines (NS_LINEBREAK : LineBreak) (l : List (CString × PrefValue))
    (hl : ∀ s ∈ l, 0 ∉ s.1 ∧ s.2.NulFree) (ps : ParseVars) : ∃ ps',
      ps.readAll (l.flatMap fun s => prefLine s.1 s.2 ++ NS_LINEBREAK.bytes) .init =
        (some .init, ps', l.map savedCall) := by
  induction l generalizing ps with
  | nil => exact ⟨ps, rfl⟩
  | cons s l ih =>
    obtain ⟨hname, hvalue⟩ := hl s (by simp)
    obtain ⟨ps₁, hline⟩ := ps.readAll_prefLine hname hvalue
    obtain ⟨ps₂, hbreak⟩ := ps₁.readAll_lineBreak NS_LINEBREAK
    obtain ⟨ps₃, hrest⟩ := ih (fun q hq => hl q (List.mem_cons_of_mem s hq)) ps₂
    refine ⟨ps₃, ?_⟩
    rw [List.flatMap_cons, List.append_assoc, readAll_append_of hline,
      readAll_append_of_silent hbreak, hrest]
    rfl

end ParseVars

/-- The file is read without an error, and the reader is called for what was saved. -/
theorem PREF_ParseBuf_WritePrefFile (NS_LINEBREAK : LineBreak) {t : PrefTable}
    (ht : ∀ s ∈ t.savedPrefs, 0 ∉ s.1 ∧ s.2.NulFree) :
    (PREF_ParseBuf PREF_InitParseState (WritePrefFile NS_LINEBREAK t)).1 = true ∧
      (PREF_ParseBuf PREF_InitParseState (WritePrefFile NS_LINEBREAK t)).2.2 =
        t.sortedPrefs.map savedCall := by
  obtain ⟨ps₂, hlines⟩ := ParseVars.readAll_lines NS_LINEBREAK t.sortedPrefs
    (fun s hs => ht s (List.mem_mergeSort.mp hs)) PREF_InitParseState.vars
  have hread : PREF_InitParseState.vars.readAll (WritePrefFile NS_LINEBREAK t) .init =
      (some .init, ps₂, t.sortedPrefs.map savedCall) := by
    rw [WritePrefFile, t.lines_eq, List.flatMap_map,
      ParseVars.readAll_append_of_silent (ParseVars.readAll_outHeader NS_LINEBREAK)]
    exact hlines
  have hinit : PREF_InitParseState.state = .init := rfl
  rw [PREF_ParseBuf, hinit, hread]
  exact ⟨rfl, rfl⟩

end Kompozer.Prefs

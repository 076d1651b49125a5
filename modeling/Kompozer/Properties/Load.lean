import Kompozer.Text.Encoding
import Kompozer.Prefs.Accepts
import Mathlib

/-! Property files (`nsPersistentProperties::Load`). The text is what `Read` returns, one character
after the other; what is left of it begins with the character that was read ahead. -/

namespace Kompozer.Properties

def TAB : UInt16 := 9
def LF : UInt16 := 10
def CR : UInt16 := 13
def space : UInt16 := 32
def backslash : UInt16 := 92

/-- `\r` or `\n`. -/
def isEOL (c : UInt16) : Bool := c = CR || c = LF

/-- `trimThese`. -/
def isBlank (c : UInt16) : Bool := c = space || c = TAB

def IS_WHITE_SPACE (c : UInt16) : Bool := isBlank c || isEOL c

/-- `#` or `!`. -/
def isCommentMark (c : UInt16) : Bool := c = 35 || c = 33

/-- `=` or `:`. -/
def isSeparator (c : UInt16) : Bool := c = 61 || c = 58

/-- One line end. -/
def skipEOL (text : List UInt16) : List UInt16 :=
  let text := if text.head? = some CR then text.tail else text
  if text.head? = some LF then text.tail else text

def SkipWhiteSpace (text : List UInt16) : List UInt16 := text.dropWhile IS_WHITE_SPACE

def SkipLine (text : List UInt16) : List UInt16 := skipEOL (text.dropWhile fun c => !isEOL c)

/-- The value of a hexadecimal digit. -/
def hexDigit (c : UInt16) : Option UInt16 :=
  if 48 ≤ c && c ≤ 57 then some (c - 48)
  else if 97 ≤ c && c ≤ 102 then some (c - 97 + 10)
  else if 65 ≤ c && c ≤ 70 then some (c - 65 + 10)
  else none

theorem length_skipEOL_le (text : List UInt16) : (skipEOL text).length ≤ text.length := by
  unfold skipEOL
  simp only []
  split_ifs <;> simp only [List.length_tail, le_refl] <;> omega

/-- What follows a line end inside a value. -/
def skipIndent (text : List UInt16) : List UInt16 := (skipEOL text).dropWhile isBlank

theorem length_skipIndent_le (text : List UInt16) : (skipIndent text).length ≤ text.length :=
  (List.dropWhile_suffix isBlank).length_le.trans (length_skipEOL_le text)

/-- The loop over a value, up to the end of its line. The states 1 to 4 count the digits behind
`\u`, and a character whose digits were read is appended in state 5 or by the first character that
is no digit. A backslash at the end of the file makes a character of the result -1. -/
def valueLoop (text : List UInt16) (state : ℕ) (uchar : UInt16) (value : List UInt16) :
    List UInt16 × List UInt16 :=
  match text with
  | [] => (if state ≠ 0 then value ++ [uchar] else value, [])
  | c :: rest =>
    if isEOL c then (if state ≠ 0 then value ++ [uchar] else value, c :: rest)
    else if state = 0 then
      if c = backslash then
        match rest with
        | [] => valueLoop [] 0 uchar (value ++ [0xFFFF])
        | d :: rest' =>
          if isEOL d then valueLoop (skipIndent (d :: rest')) 0 uchar value
          else if d = 117 ∨ d = 85 then valueLoop rest' 1 0 value
          else if d = 116 then valueLoop rest' 0 uchar (value ++ [TAB])
          else if d = 110 then valueLoop rest' 0 uchar (value ++ [LF])
          else if d = 114 then valueLoop rest' 0 uchar (value ++ [CR])
          else valueLoop rest' 0 uchar (value ++ [d])
      else valueLoop rest 0 uchar (value ++ [c])
    else if state = 5 then valueLoop (c :: rest) 0 uchar (value ++ [uchar])
    else
      match hexDigit c with
      | some digit => valueLoop rest (state + 1) ((uchar <<< 4) ||| digit) value
      | none => valueLoop (c :: rest) 0 uchar (value ++ [uchar])
termination_by 2 * text.length + if state = 0 then 0 else 1
decreasing_by
  · simp
  · have hskip := length_skipIndent_le (d :: rest')
    rw [List.length_cons] at hskip
    simp only [List.length_cons, if_true]
    omega
  all_goals simp only [List.length_cons, if_true, if_false]
  all_goals
    split_ifs
    all_goals omega

/-- `Trim` of a value. -/
def Trim (value : List UInt16) : List UInt16 := (value.dropWhile isBlank).rdropWhile isBlank

/-- The table, from keys in UTF-8 to values. -/
abbrev PropertyTable := List UInt8 → Option (List UInt16)

/-- Keys and values are kept up to their null character. -/
def SetStringProperty (table : PropertyTable) (aKey : List UInt8) (aNewValue : List UInt16) :
    PropertyTable :=
  Function.update table (aKey.takeWhile (· ≠ 0)) (some (aNewValue.takeWhile (· ≠ 0)))

def GetStringProperty (table : PropertyTable) (aKey : List UInt8) : Option (List UInt16) :=
  table (aKey.takeWhile (· ≠ 0))

theorem length_valueLoop_le (text : List UInt16) (state : ℕ) (uchar : UInt16)
    (value : List UInt16) : (valueLoop text state uchar value).2.length ≤ text.length := by
  fun_induction valueLoop text state uchar value with
  | case1 => exact le_rfl
  | case2 => exact le_rfl
  | case3 => simp_all
  | case4 uchar value d rest' hd hc ih =>
    have hskip := length_skipIndent_le (d :: rest')
    rw [List.length_cons]
    omega
  | _ =>
    simp only [List.length_cons] at *
    omega

theorem length_SkipLine_lt {c : UInt16} (rest : List UInt16) (hc : isEOL c = false) :
    (SkipLine (c :: rest)).length < (c :: rest).length := by
  rw [SkipLine, List.dropWhile_cons_of_pos (by simp [hc]), List.length_cons]
  have hskip := length_skipEOL_le (rest.dropWhile fun c => !isEOL c)
  have hdrop := (List.dropWhile_suffix (fun c => !isEOL c) (l := rest)).length_le
  omega

theorem isEOL_commentMark {c : UInt16} (h : isCommentMark c = true) : isEOL c = false := by
  rw [isCommentMark, Bool.or_eq_true, decide_eq_true_iff, decide_eq_true_iff] at h
  rcases h with rfl | rfl <;> decide

/-- The next line and what is left behind it: a comment, or a key and its value. -/
def nextLine (text : List UInt16) : Option (Option (List UInt8 × List UInt16) × List UInt16) :=
  match SkipWhiteSpace text with
  | [] => none
  | c :: rest =>
    if isCommentMark c then some (none, SkipLine (c :: rest))
    else
      match (c :: rest).dropWhile fun c => !isSeparator c with
      | [] => none
      | _ :: line =>
        let key := (c :: rest).takeWhile fun c => !isSeparator c
        let value := valueLoop line 0 0 []
        some (some (Text.toUTF8 (key.rdropWhile isBlank), Trim value.1), value.2)

theorem length_nextLine_lt {text rest : List UInt16} {entry : Option (List UInt8 × List UInt16)}
    (h : nextLine text = some (entry, rest)) : rest.length < text.length := by
  have hle := (List.dropWhile_suffix IS_WHITE_SPACE (l := text)).length_le
  rw [← SkipWhiteSpace] at hle
  rw [nextLine] at h
  cases hskip : SkipWhiteSpace text with
  | nil => simp [hskip] at h
  | cons c tail =>
    rw [hskip] at hle
    simp only [hskip] at h
    split_ifs at h with hmark
    · rw [Option.some.injEq, Prod.mk.injEq] at h
      rw [← h.2]
      exact (length_SkipLine_lt tail (isEOL_commentMark hmark)).trans_le hle
    · have hle' := (List.dropWhile_suffix (fun c => !isSeparator c) (l := c :: tail)).length_le
      cases hkey : (c :: tail).dropWhile fun c => !isSeparator c with
      | nil => simp [hkey] at h
      | cons d line =>
        have hvalue := length_valueLoop_le line 0 0 []
        simp only [hkey, Option.some.injEq, Prod.mk.injEq] at h
        rw [hkey, List.length_cons] at hle'
        rw [← h.2]
        omega

/-- The loop over the lines. -/
def loadLoop (text : List UInt16) (table : PropertyTable) : PropertyTable :=
  match hline : nextLine text with
  | none => table
  | some (none, rest) => loadLoop rest table
  | some (some entry, rest) => loadLoop rest (SetStringProperty table entry.1 entry.2)
termination_by text.length
decreasing_by
  · exact length_nextLine_lt hline
  · exact length_nextLine_lt hline

/-- `Load` into an empty table. -/
def Load (text : List UInt16) : PropertyTable := loadLoop text fun _ => none

end Kompozer.Properties

/-! What a property file says is loaded: every value without the blanks at its ends, also those that
were written as escapes. -/

namespace Kompozer.Properties

open Prefs.Grammar (HexDigit)

/-! ### How a property file is written -/

/-- The ways of writing a character. -/
inductive Spelling : UInt16 → List UInt16 → Prop
  | tab : Spelling TAB [backslash, 116]
  | lf : Spelling LF [backslash, 110]
  | cr : Spelling CR [backslash, 114]
  | backslash : Spelling backslash [backslash, backslash]
  | plain {c} (h : c ≠ TAB) (h' : isEOL c = false) (h'' : c ≠ Properties.backslash) : Spelling c [c]
  | hex {c digits} (h : c ≠ TAB) (h' : isEOL c = false) (h'' : c ≠ Properties.backslash)
      (hlen : digits.length = 4) (hc : c = .ofNat (HexDigit.number digits)) :
      Spelling c (Properties.backslash :: 117 :: digits.map fun d => d.char.toUInt16)

/-- A line break inside a value: a backslash, a line end and indentation. -/
inductive LineBreak : List UInt16 → Prop
  | mk {eol indent} (heol : eol = [CR] ∨ eol = [LF] ∨ eol = [CR, LF])
      (hindent : ∀ c ∈ indent, isBlank c) : LineBreak (backslash :: (eol ++ indent))

/-- The characters of a value behind the first one. A space is not written as it is at the end or
behind a line break. -/
inductive WrittenTail : List UInt16 → List UInt16 → Prop
  | nil : WrittenTail [] []
  | cons {c value s text breaks} (hbreaks : ∀ b ∈ breaks, LineBreak b) (hs : Spelling c s)
      (hspace : breaks ≠ [] ∨ value = [] → s ≠ [space]) (h : WrittenTail value text) :
      WrittenTail (c :: value) (breaks.flatten ++ (s ++ text))

/-- A value and how it is written. -/
inductive WrittenValue : List UInt16 → List UInt16 → Prop
  | nil : WrittenValue [] []
  | cons {c value s text} (hs : Spelling c s) (hspace : s ≠ [space]) (h : WrittenTail value text) :
      WrittenValue (c :: value) (s ++ text)

/-- What follows is a line end or nothing. -/
def AtLineEnd (text : List UInt16) : Prop := ∀ c ∈ text.head?, isEOL c

/-- A key, as a text. -/
structure IsKey (key : List Char) : Prop where
  ne_nil : key ≠ []
  separator : ∀ c ∈ key, c ≠ '=' ∧ c ≠ ':' ∧ c ≠ '\x00'
  head : ∀ c ∈ key.head?, c ≠ '#' ∧ c ≠ '!' ∧ c ≠ ' ' ∧ c ≠ '\t' ∧ c ≠ '\r' ∧ c ≠ '\n'
  last : ∀ c ∈ key.getLast?, c ≠ ' ' ∧ c ≠ '\t' ∧ c ≠ '\r' ∧ c ≠ '\n'

/-- A file with its entries: white space and comments may stand between them. -/
inductive PropertyFile : List (List Char × List UInt16) → List UInt16 → Prop
  | done : PropertyFile [] []
  | white {c entries text} (hc : IS_WHITE_SPACE c) (h : PropertyFile entries text) :
      PropertyFile entries (c :: text)
  | comment {mark line entries text} (hmark : isCommentMark mark)
      (hline : ∀ c ∈ line, isEOL c = false) (hend : AtLineEnd text)
      (h : PropertyFile entries text) : PropertyFile entries (mark :: (line ++ text))
  | entry {key value separator line entries text} (hkey : IsKey key)
      (hseparator : isSeparator separator) (hvalue : WrittenValue value line) (hnull : 0 ∉ value)
      (hend : AtLineEnd text) (h : PropertyFile entries text) :
      PropertyFile ((key, value) :: entries) (key.flatMap utf16 ++ separator :: (line ++ text))

/-! ### Reading a value -/

section Value
variable {text rest value : List UInt16} {uchar c : UInt16}

theorem valueLoop_end (state : ℕ) (h : AtLineEnd rest) :
    valueLoop rest state uchar value = (if state ≠ 0 then value ++ [uchar] else value, rest) := by
  rw [valueLoop.eq_def]
  cases rest with
  | nil => rfl
  | cons c rest => exact if_pos (h c rfl)

/-- A character whose digits were read is appended whatever follows. -/
theorem valueLoop_five :
    valueLoop rest 5 uchar value = valueLoop rest 0 uchar (value ++ [uchar]) := by
  by_cases hend : AtLineEnd rest
  · rw [valueLoop_end 5 hend, valueLoop_end 0 hend]
    rfl
  · cases rest with
    | nil => exact absurd (by simp [AtLineEnd]) hend
    | cons c rest =>
      have hc : ¬ isEOL c = true := fun hc => hend (by simpa [AtLineEnd] using hc)
      conv_lhs => rw [valueLoop.eq_def]
      simp only [if_neg hc]
      rfl

theorem valueLoop_digit {state : ℕ} {digit : UInt16} (hstate : 1 ≤ state ∧ state ≤ 4)
    (h : hexDigit c = some digit) :
    valueLoop (c :: rest) state uchar value =
      valueLoop rest (state + 1) ((uchar <<< 4) ||| digit) value := by
  have hc : ¬ isEOL c = true := by
    intro hc
    rw [isEOL, Bool.or_eq_true, decide_eq_true_iff, decide_eq_true_iff] at hc
    have hnone : hexDigit c = none := by
      rcases hc with rfl | rfl <;> decide
    rw [hnone] at h
    cases h
  rw [valueLoop.eq_def]
  simp only [if_neg hc, if_neg (show ¬ state = 0 by omega), if_neg (show ¬ state = 5 by omega), h]

theorem valueLoop_plain (hc : isEOL c = false) (hb : c ≠ backslash) :
    valueLoop (c :: rest) 0 uchar value = valueLoop rest 0 uchar (value ++ [c]) := by
  rw [valueLoop.eq_def]
  simp only [if_neg (show ¬ isEOL c = true by simp [hc]), if_true, if_neg hb]

/-- A backslash and what follows it. -/
theorem valueLoop_backslash {d : UInt16} : valueLoop (backslash :: d :: rest) 0 uchar value =
    if isEOL d then valueLoop (skipIndent (d :: rest)) 0 uchar value
    else if d = 117 ∨ d = 85 then valueLoop rest 1 0 value
    else if d = 116 then valueLoop rest 0 uchar (value ++ [TAB])
    else if d = 110 then valueLoop rest 0 uchar (value ++ [LF])
    else if d = 114 then valueLoop rest 0 uchar (value ++ [CR])
    else valueLoop rest 0 uchar (value ++ [d]) := by
  conv_lhs => rw [valueLoop.eq_def]
  rfl

theorem hexDigit_char (d : HexDigit) : hexDigit d.char.toUInt16 = some (.ofNat d.value) := by
  obtain ⟨value, upper⟩ := d
  revert value upper
  decide

theorem valueLoop_digits {state n : ℕ} (digits : List HexDigit) (hstate : 1 ≤ state)
    (hlen : state + digits.length ≤ 5) :
    valueLoop ((digits.map fun d => d.char.toUInt16) ++ rest) state (.ofNat n) value =
      valueLoop rest (state + digits.length)
        (.ofNat (digits.foldl (fun n d => 16 * n + d.value) n)) value := by
  induction digits generalizing state n with
  | nil => rfl
  | cons d digits ih =>
    rw [List.length_cons] at hlen ⊢
    rw [List.map_cons, List.cons_append, valueLoop_digit ⟨hstate, by omega⟩ (hexDigit_char d),
      Prefs.shift_or, ih (by omega) (by omega), List.foldl_cons, Nat.add_assoc, Nat.add_comm 1]

/-- A character that is written in one of its ways is read. -/
theorem Spelling.read {s : List UInt16} (h : Spelling c s) :
    ∃ uchar', valueLoop (s ++ rest) 0 uchar value = valueLoop rest 0 uchar' (value ++ [c]) := by
  cases h with
  | tab => exact ⟨uchar, valueLoop_backslash⟩
  | lf => exact ⟨uchar, valueLoop_backslash⟩
  | cr => exact ⟨uchar, valueLoop_backslash⟩
  | backslash => exact ⟨uchar, valueLoop_backslash⟩
  | plain h h' h'' => exact ⟨uchar, valueLoop_plain h' h''⟩
  | @hex _ digits h h' h'' hlen hc =>
    refine ⟨.ofNat (HexDigit.number digits), ?_⟩
    have hstart : valueLoop (Properties.backslash :: 117 ::
        ((digits.map fun d => d.char.toUInt16) ++ rest)) 0 uchar value =
        valueLoop ((digits.map fun d => d.char.toUInt16) ++ rest) 1 (.ofNat 0) value :=
      valueLoop_backslash
    rw [List.cons_append, List.cons_append, hstart, valueLoop_digits digits le_rfl (by omega), hlen,
      valueLoop_five, hc]
    rfl

/-- A line break inside a value is skipped, with the blanks behind it. -/
theorem LineBreak.read {b : List UInt16} (h : LineBreak b)
    (hrest : ∀ c ∈ rest.head?, isBlank c = false ∧ c ≠ LF) :
    valueLoop (b ++ rest) 0 uchar value = valueLoop rest 0 uchar value := by
  obtain ⟨heol, hindent⟩ := h
  rename_i eol indent
  have hindent' : ∀ c ∈ (indent ++ rest).head?, c ≠ LF := by
    intro c hc
    cases indent with
    | nil => exact (hrest c hc).2
    | cons d indent =>
      obtain rfl : d = c := by simpa using hc
      rintro rfl
      exact absurd (hindent LF List.mem_cons_self) (by decide)
  have hskip : (indent ++ rest).dropWhile isBlank = rest := by
    rw [List.dropWhile_append_of_pos hindent]
    cases rest with
    | nil => rfl
    | cons c rest => rw [List.dropWhile_cons_of_neg (by simp [(hrest c rfl).1])]
  have heol' : skipEOL (eol ++ (indent ++ rest)) = indent ++ rest := by
    have hhead : (indent ++ rest).head? ≠ some LF := fun h => hindent' LF h rfl
    rcases heol with rfl | rfl | rfl
    · exact if_neg hhead
    · rfl
    · rfl
  obtain ⟨d, tail, heq, hd⟩ : ∃ d tail, eol ++ (indent ++ rest) = d :: tail ∧ isEOL d = true := by
    rcases heol with rfl | rfl | rfl
    · exact ⟨CR, _, rfl, by decide⟩
    · exact ⟨LF, _, rfl, by decide⟩
    · exact ⟨CR, _, rfl, by decide⟩
  rw [List.cons_append, List.append_assoc, heq, valueLoop_backslash, if_pos hd, skipIndent, ← heq,
    heol', hskip]

theorem breaks_read {breaks : List (List UInt16)} (h : ∀ b ∈ breaks, LineBreak b)
    (hrest : breaks ≠ [] → ∀ c ∈ rest.head?, isBlank c = false ∧ c ≠ LF) :
    valueLoop (breaks.flatten ++ rest) 0 uchar value = valueLoop rest 0 uchar value := by
  induction breaks with
  | nil => rfl
  | cons b breaks ih =>
    obtain ⟨hb, hbreaks⟩ := List.forall_mem_cons.mp h
    have hhead := hrest (List.cons_ne_nil _ _)
    have hnext : ∀ c ∈ (breaks.flatten ++ rest).head?, isBlank c = false ∧ c ≠ LF := by
      cases breaks with
      | nil => exact hhead
      | cons b' breaks =>
        cases hbreaks b' List.mem_cons_self with
        | mk heol hindent =>
          intro c hc
          obtain rfl : backslash = c := by simpa using hc
          exact ⟨by decide, by decide⟩
    rw [List.flatten_cons, List.append_assoc, hb.read hnext, ih hbreaks fun _ => hhead]

/-- A character does not begin like a line break or a blank, unless it is a space that stands for
itself. -/
theorem Spelling.head {s : List UInt16} (h : Spelling c s) (hspace : s ≠ [space]) :
    ∃ d t, s = d :: t ∧ isBlank d = false ∧ d ≠ LF := by
  cases h with
  | tab => exact ⟨_, _, rfl, by decide, by decide⟩
  | lf => exact ⟨_, _, rfl, by decide, by decide⟩
  | cr => exact ⟨_, _, rfl, by decide, by decide⟩
  | backslash => exact ⟨_, _, rfl, by decide, by decide⟩
  | hex => exact ⟨_, _, rfl, by decide, by decide⟩
  | plain h h' h'' =>
    refine ⟨_, _, rfl, ?_, ?_⟩
    · rw [isBlank, Bool.or_eq_false_iff, decide_eq_false_iff_not, decide_eq_false_iff_not]
      exact ⟨fun heq => hspace (by rw [heq]), h⟩
    · rintro rfl
      exact absurd h' (by decide)

theorem WrittenTail.read {written : List UInt16} (h : WrittenTail written text)
    (hend : AtLineEnd rest) :
    valueLoop (text ++ rest) 0 uchar value = (value ++ written, rest) := by
  induction h generalizing uchar value with
  | nil =>
    rw [List.nil_append, valueLoop_end 0 hend, List.append_nil]
    rfl
  | @cons c written s text breaks hbreaks hs hspace h ih =>
    have hhead : breaks ≠ [] → ∀ d ∈ (s ++ (text ++ rest)).head?, isBlank d = false ∧ d ≠ LF := by
      intro hne d hd
      obtain ⟨e, t, rfl, he⟩ := hs.head (hspace (.inl hne))
      obtain rfl : e = d := by simpa using hd
      exact he
    obtain ⟨uchar', hread⟩ : ∃ uchar', valueLoop (s ++ (text ++ rest)) 0 uchar value =
        valueLoop (text ++ rest) 0 uchar' (value ++ [c]) := hs.read
    rw [List.append_assoc, List.append_assoc, breaks_read hbreaks hhead, hread, ih,
      List.append_assoc, List.singleton_append]

/-- A value is read as it was written, up to the end of its line. -/
theorem WrittenValue.read {written : List UInt16} (h : WrittenValue written text)
    (hend : AtLineEnd rest) : valueLoop (text ++ rest) 0 uchar [] = (written, rest) := by
  cases h with
  | nil =>
    rw [List.nil_append, valueLoop_end 0 hend]
    rfl
  | @cons c _ s text hs hspace h =>
    obtain ⟨uchar', hread⟩ : ∃ uchar', valueLoop (s ++ (text ++ rest)) 0 uchar [] =
        valueLoop (text ++ rest) 0 uchar' ([] ++ [c]) := hs.read
    rw [List.append_assoc, hread, h.read hend]
    rfl

end Value

/-! ### Reading a key -/

/-- An ASCII unit stands for its character. -/
theorem utf16_ascii {c : Char} {u : UInt16} (h : u ∈ utf16 c) (hu : u.toNat < 128) :
    c.toNat = u.toNat := by
  have hchar := char_toNat c
  unfold utf16 at h
  split_ifs at h with hplane
  · rw [List.mem_singleton.mp h, UInt16.toNat_ofNat', Nat.mod_eq_of_lt hplane]
  · exfalso
    rcases List.mem_pair.mp h with rfl | rfl <;> rw [UInt16.toNat_ofNat'] at hu <;> omega

theorem utf16_ne_nil (c : Char) : utf16 c ≠ [] := by
  unfold utf16
  split_ifs <;> simp

section Key
variable {key : List Char} (h : IsKey key)
include h

theorem IsKey.no_separator : ∀ u ∈ key.flatMap utf16, isSeparator u = false := by
  intro u hu
  obtain ⟨c, hc, hu⟩ := List.mem_flatMap.mp hu
  obtain ⟨heq, hcolon, -⟩ := h.separator c hc
  rw [isSeparator, Bool.or_eq_false_iff, decide_eq_false_iff_not, decide_eq_false_iff_not]
  constructor
  · rintro rfl
    exact heq (char_ext (utf16_ascii hu (by decide)))
  · rintro rfl
    exact hcolon (char_ext (utf16_ascii hu (by decide)))

/-- A key begins with neither white space nor the mark of a comment. -/
theorem IsKey.head_unit : ∃ u units, key.flatMap utf16 = u :: units ∧ IS_WHITE_SPACE u = false ∧
    isCommentMark u = false := by
  obtain ⟨c, cs, rfl⟩ := List.exists_cons_of_ne_nil h.ne_nil
  obtain ⟨u, units, hunits⟩ := List.exists_cons_of_ne_nil (utf16_ne_nil c)
  have hu : u ∈ utf16 c := by
    rw [hunits]
    exact List.mem_cons_self
  obtain ⟨hhash, hbang, hspace, htab, hcr, hlf⟩ := h.head c rfl
  refine ⟨u, units ++ cs.flatMap utf16, by rw [List.flatMap_cons, hunits, List.cons_append], ?_, ?_⟩
  · simp only [IS_WHITE_SPACE, isBlank, isEOL, Bool.or_eq_false_iff, decide_eq_false_iff_not]
    refine ⟨⟨?_, ?_⟩, ?_, ?_⟩ <;> rintro rfl
    · exact hspace (char_ext (utf16_ascii hu (by decide)))
    · exact htab (char_ext (utf16_ascii hu (by decide)))
    · exact hcr (char_ext (utf16_ascii hu (by decide)))
    · exact hlf (char_ext (utf16_ascii hu (by decide)))
  · simp only [isCommentMark, Bool.or_eq_false_iff, decide_eq_false_iff_not]
    refine ⟨?_, ?_⟩ <;> rintro rfl
    · exact hhash (char_ext (utf16_ascii hu (by decide)))
    · exact hbang (char_ext (utf16_ascii hu (by decide)))

/-- Nothing is trimmed from a key. -/
theorem IsKey.trim : (key.flatMap utf16).rdropWhile isBlank = key.flatMap utf16 := by
  rw [List.rdropWhile_eq_self_iff]
  intro hne hblank
  have hkey := List.dropLast_append_getLast h.ne_nil
  generalize hc : key.getLast h.ne_nil = c at hkey
  obtain ⟨hspace, htab, -, -⟩ := h.last c (by
    rw [List.getLast?_eq_some_getLast h.ne_nil, hc]
    rfl)
  have hmem : (key.flatMap utf16).getLast hne ∈ utf16 c := by
    have hflat : key.flatMap utf16 = key.dropLast.flatMap utf16 ++ utf16 c := by
      conv_lhs => rw [← hkey]
      rw [List.flatMap_append, List.flatMap_singleton]
    have hlast : (key.flatMap utf16).getLast hne = (utf16 c).getLast (utf16_ne_nil c) := by
      simp only [hflat]
      exact List.getLast_append_of_right_ne_nil _ _ (utf16_ne_nil c)
    rw [hlast]
    exact List.getLast_mem _
  generalize (key.flatMap utf16).getLast hne = u at hblank hmem
  rw [isBlank, Bool.or_eq_true, decide_eq_true_iff, decide_eq_true_iff] at hblank
  rcases hblank with rfl | rfl
  · exact hspace (char_ext (utf16_ascii hmem (by decide)))
  · exact htab (char_ext (utf16_ascii hmem (by decide)))

/-- A key in UTF-8 has no null character. -/
theorem IsKey.no_null : 0 ∉ key.flatMap String.utf8EncodeChar := by
  intro hmem
  obtain ⟨c, hc, hzero⟩ := List.mem_flatMap.mp hmem
  refine Prefs.zero_not_mem_utf8EncodeChar (fun hnat => ?_) hzero
  exact (h.separator c hc).2.2 (char_ext hnat)

end Key

theorem takeWhile_no_null {α : Type*} [DecidableEq α] {z : α} {l : List α} (h : z ∉ l) :
    l.takeWhile (· ≠ z) = l :=
  List.takeWhile_eq_self_iff.mpr fun a ha => by simpa using ne_of_mem_of_not_mem ha h

/-- Keys that are different texts are different in UTF-8. -/
theorem utf8_injective : Function.Injective fun key : List Char =>
    key.flatMap String.utf8EncodeChar := by
  intro a b hab
  have henc : a.utf8Encode = b.utf8Encode := by
    rw [List.utf8Encode, List.utf8Encode]
    exact congrArg _ hab
  have hdec := congrArg ByteArray.utf8Decode? henc
  rw [List.utf8Decode?_utf8Encode, List.utf8Decode?_utf8Encode] at hdec
  simpa using hdec

section Lines
variable {text rest line : List UInt16} {table : PropertyTable} {c : UInt16}

/-- Texts with the same next line are loaded alike. -/
theorem loadLoop_congr (h : nextLine text = nextLine rest) :
    loadLoop text table = loadLoop rest table := by
  conv_lhs => rw [loadLoop.eq_def]
  conv_rhs => rw [loadLoop.eq_def]
  split <;> split <;> simp_all

theorem loadLoop_comment (h : nextLine text = some (none, rest)) :
    loadLoop text table = loadLoop rest table := by
  rw [loadLoop.eq_def]
  split <;> simp_all

theorem loadLoop_entry {entry : List UInt8 × List UInt16}
    (h : nextLine text = some (some entry, rest)) :
    loadLoop text table = loadLoop rest (SetStringProperty table entry.1 entry.2) := by
  rw [loadLoop.eq_def]
  split <;> simp_all

theorem loadLoop_nil : loadLoop [] table = table := by
  rw [loadLoop.eq_def]
  rfl

/-- White space in front of a line is skipped. -/
theorem loadLoop_white (hc : IS_WHITE_SPACE c) :
    loadLoop (c :: text) table = loadLoop text table := by
  have hskip : SkipWhiteSpace (c :: text) = SkipWhiteSpace text := List.dropWhile_cons_of_pos hc
  refine loadLoop_congr ?_
  rw [nextLine, nextLine, hskip]

theorem loadLoop_skipEOL : loadLoop (skipEOL text) table = loadLoop text table := by
  have htail {c : UInt16} {text : List UInt16} (hc : IS_WHITE_SPACE c = true)
      (h : text.head? = some c) : loadLoop text.tail table = loadLoop text table := by
    cases text with
    | nil => simp at h
    | cons d text =>
      obtain rfl : d = c := by simpa using h
      exact (loadLoop_white hc).symm
  unfold skipEOL
  simp only []
  split_ifs with hcr hlf hlf
  · rw [htail (by decide) hlf, htail (by decide) hcr]
  · exact htail (by decide) hcr
  · exact htail (by decide) hlf
  · rfl

/-- A comment is skipped. -/
theorem loadLoop_mark {mark : UInt16} (hmark : isCommentMark mark)
    (hline : ∀ c ∈ line, isEOL c = false) (hend : AtLineEnd rest) :
    loadLoop (mark :: (line ++ rest)) table = loadLoop rest table := by
  have hskip : SkipWhiteSpace (mark :: (line ++ rest)) = mark :: (line ++ rest) := by
    refine List.dropWhile_cons_of_neg ?_
    rw [isCommentMark, Bool.or_eq_true, decide_eq_true_iff, decide_eq_true_iff] at hmark
    rcases hmark with rfl | rfl <;> decide
  have hdrop : (mark :: (line ++ rest)).dropWhile (fun c => !isEOL c) = rest := by
    rw [List.dropWhile_cons_of_pos (by simp [isEOL_commentMark hmark]),
      List.dropWhile_append_of_pos fun c hc => by simp [hline c hc]]
    cases rest with
    | nil => rfl
    | cons c rest =>
      have hc := hend c rfl
      rw [List.dropWhile_cons_of_neg (by simp [hc])]
  have hnext : nextLine (mark :: (line ++ rest)) = some (none, skipEOL rest) := by
    rw [nextLine, hskip]
    simp only [if_pos hmark]
    rw [SkipLine, hdrop]
  rw [loadLoop_comment hnext, loadLoop_skipEOL]

/-- An entry is set, with its value trimmed. -/
theorem loadLoop_line {key : List Char} {value : List UInt16} {separator : UInt16}
    (hkey : IsKey key) (hseparator : isSeparator separator) (hvalue : WrittenValue value line)
    (hend : AtLineEnd rest) :
    loadLoop (key.flatMap utf16 ++ separator :: (line ++ rest)) table =
      loadLoop rest (SetStringProperty table (key.flatMap String.utf8EncodeChar) (Trim value)) := by
  obtain ⟨u, units, hunits, hwhite, hmark⟩ := hkey.head_unit
  have hsep := hkey.no_separator
  have htrim := hkey.trim
  have hskip : SkipWhiteSpace (key.flatMap utf16 ++ separator :: (line ++ rest)) =
      key.flatMap utf16 ++ separator :: (line ++ rest) := by
    rw [hunits, List.cons_append]
    exact List.dropWhile_cons_of_neg (by simp [hwhite])
  have hpos : ∀ c ∈ key.flatMap utf16, (!isSeparator c) = true := fun c hc => by simp [hsep c hc]
  have htake : (key.flatMap utf16 ++ separator :: (line ++ rest)).takeWhile
      (fun c => !isSeparator c) = key.flatMap utf16 := by
    rw [List.takeWhile_append_of_pos hpos, List.takeWhile_cons_of_neg (by simp [hseparator]),
      List.append_nil]
  have hdrop : (key.flatMap utf16 ++ separator :: (line ++ rest)).dropWhile
      (fun c => !isSeparator c) = separator :: (line ++ rest) := by
    rw [List.dropWhile_append_of_pos hpos, List.dropWhile_cons_of_neg (by simp [hseparator])]
  have hnext : nextLine (key.flatMap utf16 ++ separator :: (line ++ rest)) =
      some (some (key.flatMap String.utf8EncodeChar, Trim value), rest) := by
    rw [hunits] at htrim
    rw [hunits, List.cons_append] at htake hdrop hskip ⊢
    rw [nextLine, hskip]
    simp only [hmark, hdrop, htake, Bool.false_eq_true, if_false]
    rw [htrim, ← hunits, Text.toUTF8_text, hvalue.read hend]
  exact loadLoop_entry hnext

end Lines

/-! ### Files -/

/-- Each value is kept under its key. -/
def setAll (entries : List (List Char × List UInt16)) (table : PropertyTable) : PropertyTable :=
  entries.foldl (fun table entry =>
    SetStringProperty table (entry.1.flatMap String.utf8EncodeChar) (Trim entry.2)) table

theorem PropertyFile.load {entries : List (List Char × List UInt16)} {text : List UInt16}
    (h : PropertyFile entries text) (table : PropertyTable) :
    loadLoop text table = setAll entries table := by
  induction h generalizing table with
  | done => exact loadLoop_nil
  | white hc h ih => rw [loadLoop_white hc, ih]
  | comment hmark hline hend h ih => rw [loadLoop_mark hmark hline hend, ih]
  | entry hkey hseparator hvalue hnull hend h ih =>
    rw [loadLoop_line hkey hseparator hvalue hend, ih]
    rfl

/-- The table with some entries. -/
def tableOf (entries : List (List Char × List UInt16)) : PropertyTable := fun aKey =>
  (entries.find? fun entry => entry.1.flatMap String.utf8EncodeChar = aKey).map Prod.snd

/-- A value that neither begins nor ends with a blank. -/
def Unblanked (value : List UInt16) : Prop :=
  (∀ c ∈ value.head?, isBlank c = false) ∧ ∀ c ∈ value.getLast?, isBlank c = false

theorem Trim_eq_iff (value : List UInt16) : Trim value = value ↔ Unblanked value := by
  have hhead : value.dropWhile isBlank = value ↔ ∀ c ∈ value.head?, isBlank c = false := by
    rw [List.dropWhile_eq_self_iff]
    cases value <;> simp
  have hlast : value.rdropWhile isBlank = value ↔ ∀ c ∈ value.getLast?, isBlank c = false := by
    rw [List.rdropWhile_eq_self_iff]
    by_cases hne : value = []
    · simp [hne]
    · rw [List.getLast?_eq_some_getLast hne]
      simp [hne]
  rw [Unblanked, ← hhead, ← hlast, Trim]
  constructor
  · intro h
    have hle := ((List.dropWhile_suffix isBlank (l := value)).length_le)
    have hle' := (List.rdropWhile_prefix isBlank (value.dropWhile isBlank)).length_le
    have hlen := congrArg List.length h
    have hdrop : value.dropWhile isBlank = value :=
      (List.dropWhile_suffix isBlank).eq_of_length (by omega)
    rw [hdrop] at h
    exact ⟨hdrop, h⟩
  · rintro ⟨h, h'⟩
    rw [h, h']

theorem zero_notMem_Trim {value : List UInt16} (h : 0 ∉ value) : 0 ∉ Trim value := fun hmem =>
  h ((List.dropWhile_suffix isBlank).subset ((List.rdropWhile_prefix isBlank _).subset hmem))

theorem PropertyFile.entries_ok {entries : List (List Char × List UInt16)} {text : List UInt16}
    (h : PropertyFile entries text) : ∀ entry ∈ entries, IsKey entry.1 ∧ 0 ∉ entry.2 := by
  induction h with
  | done => simp
  | white _ _ ih => exact ih
  | comment _ _ _ _ ih => exact ih
  | entry hkey _ _ hnull _ _ ih => exact List.forall_mem_cons.mpr ⟨⟨hkey, hnull⟩, ih⟩

/-- Entries with different keys are all kept. -/
theorem setAll_eq {entries : List (List Char × List UInt16)}
    (hok : ∀ entry ∈ entries, IsKey entry.1 ∧ 0 ∉ entry.2) (hkeys : (entries.map Prod.fst).Nodup)
    (table : PropertyTable) (aKey : List UInt8) :
    setAll entries table aKey =
      ((entries.find? fun entry => entry.1.flatMap String.utf8EncodeChar = aKey).map fun entry =>
        Trim entry.2).or (table aKey) := by
  induction entries generalizing table with
  | nil => rfl
  | cons entry entries ih =>
    obtain ⟨⟨hkey, hnull⟩, hok'⟩ := List.forall_mem_cons.mp hok
    rw [List.map_cons, List.nodup_cons] at hkeys
    have hstep : setAll (entry :: entries) table = setAll entries
      (SetStringProperty table (entry.1.flatMap String.utf8EncodeChar) (Trim entry.2)) := rfl
    rw [hstep, ih hok' hkeys.2, SetStringProperty, takeWhile_no_null hkey.no_null,
      takeWhile_no_null (zero_notMem_Trim hnull)]
    by_cases heq : entry.1.flatMap String.utf8EncodeChar = aKey
    · have hnone : entries.find? (fun entry => entry.1.flatMap String.utf8EncodeChar = aKey) =
          none := by
        refine List.find?_eq_none.mpr fun other hother hsame => hkeys.1 ?_
        rw [decide_eq_true_iff] at hsame
        have hfst : other.1 = entry.1 := utf8_injective (hsame.trans heq.symm)
        rw [← hfst]
        exact List.mem_map_of_mem hother
      rw [hnone, List.find?_cons_of_pos (by simp [heq]), ← heq, Function.update_self]
      rfl
    · rw [Function.update_of_ne (Ne.symm heq), List.find?_cons_of_neg (by simp [heq])]

theorem isKey_a : IsKey ['a'] := ⟨by simp, by simp, by simp, by simp⟩

/-- `a=x`. -/
theorem propertyFile_x : PropertyFile [(['a'], [120])] [97, 61, 120] := by
  refine @PropertyFile.entry ['a'] [120] 61 [120] [] [] isKey_a (by decide) ?_ (by decide) ?_ .done
  · exact .cons (.plain (by decide) (by decide) (by decide)) (by decide) .nil
  · intro c hc
    cases hc

/-- `a=\u0020`. -/
theorem propertyFile_space : PropertyFile [(['a'], [32])] [97, 61, 92, 117, 48, 48, 50, 48] := by
  refine @PropertyFile.entry ['a'] [32] 61 [92, 117, 48, 48, 50, 48] [] [] isKey_a
    (by decide) ?_ (by decide) ?_ .done
  · refine @WrittenValue.cons 32 [] [92, 117, 48, 48, 50, 48] [] ?_ (by decide) .nil
    exact @Spelling.hex 32 [⟨0, false⟩, ⟨0, false⟩, ⟨2, false⟩, ⟨0, false⟩] (by decide) (by decide)
      (by decide) rfl (by decide)
  · intro c hc
    cases hc

end Kompozer.Properties

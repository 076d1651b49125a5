import Kompozer.Prefs.Table

/-! The reader of preference files (`prefread.cpp`): a machine that looks at one character
at a time and keeps what it knows between buffers in a `PrefParseState`. The line buffer
grows as it has to. Characters are those of the C locale. -/

namespace Kompozer.Prefs

/-- The states `PREF_PARSE_INIT` to `PREF_PARSE_UNTIL_EOL`. -/
inductive ParseState
  | init
  | matchString
  | untilName
  | quotedString
  | untilComma
  | untilValue
  | intValue
  | commentMaybeStart
  | commentBlock
  | commentBlockMaybeEnd
  | escSequence
  | hexEscape
  | utf16LowSurrogate
  | untilOpenParen
  | untilCloseParen
  | untilSemicolon
  | untilEol
  deriving DecidableEq, Repr

/-- The strings that are matched. -/
inductive Keyword
  | kUserPref
  | kPref
  | kTrue
  | kFalse
  deriving DecidableEq, Repr

/-- The bytes of a text of ASCII characters. -/
def ascii (s : String) : CString := s.toList.map Char.toUInt8

def dquote : UInt8 := 34
def squote : UInt8 := 39
def backslash : UInt8 := 92
def CR : UInt8 := 13
def LF : UInt8 := 10

def Keyword.text : Keyword → CString
  | kUserPref => ascii "user_pref"
  | kPref => ascii "pref"
  | kTrue => ascii "true"
  | kFalse => ascii "false"

/-- The value buffer: a place in the line buffer or one of the constants. -/
inductive ValueBuffer
  | null
  | lb (pos : ℕ)
  | keyword (k : Keyword)
  deriving DecidableEq, Repr

def UTF16_ESC_NUM_DIGITS : ℕ := 4
def HEX_ESC_NUM_DIGITS : ℕ := 2

/-- The members of `PrefParseState` that the loop works on in place. The line buffer holds
what is in front of its cursor, and `esctmp` what is in use of it. -/
structure ParseVars where
  nextstate : ParseState
  smatch : Option Keyword
  sindex : ℕ
  utf16 : UInt16 × UInt16
  esctmp : List UInt8
  quotechar : UInt8
  lb : List UInt8
  vb : ValueBuffer
  vtype : Option PrefType
  fdefault : Bool
  deriving DecidableEq

/-- `PrefParseState`. The loop works on a copy of the state and writes it back at the end. -/
structure PrefParseState where
  state : ParseState
  vars : ParseVars
  deriving DecidableEq

/-- `PREF_InitParseState`. -/
def PREF_InitParseState : PrefParseState where
  state := .init
  vars := ⟨.init, none, 0, (0, 0), [], 0, [], .null, none, false⟩

/-- What the reader is called with. Without a type there is no value to speak of. -/
structure Call where
  pref : CString
  val : Option PrefValue
  defPref : Bool
  deriving DecidableEq

/-! ### Characters -/

/-- `isspace`. -/
def isspace (c : UInt8) : Bool := c == 32 || (9 ≤ c && c ≤ 13)

/-- `isdigit`. -/
def isdigit (c : UInt8) : Bool := 48 ≤ c && c ≤ 57

/-- The string that begins at a place of a buffer. -/
def cstringAt (lb : List UInt8) (pos : ℕ) : CString := (lb.drop pos).takeWhile (· != 0)

/-- The digits at the front of a string, as a number. -/
def digitsValue (s : CString) : ℕ :=
  (s.takeWhile isdigit).foldl (fun n c => 10 * n + (c.toNat - 48)) 0

/-- `atoi`. A number that does not fit is the caller's problem. -/
def atoi (s : CString) : PRInt32 :=
  match s.dropWhile isspace with
  | [] => 0
  | c :: s =>
    if c = '-'.toUInt8 then Int32.ofInt (-(digitsValue s : ℤ))
    else if c = '+'.toUInt8 then Int32.ofInt (digitsValue s)
    else Int32.ofInt (digitsValue (c :: s))

/-- The value of a hexadecimal digit. -/
def udigit (c : UInt8) : Option UInt16 :=
  if 48 ≤ c && c ≤ 57 then some (c - 48).toUInt16
  else if 65 ≤ c && c ≤ 70 then some (c - 65 + 10).toUInt16
  else if 97 ≤ c && c ≤ 102 then some (c - 97 + 10).toUInt16
  else none

/-- `ConvertUTF16toUTF8`. -/
def convertUTF16toUTF8 : List UInt16 → List UInt8
  | [] => []
  | c :: cs =>
    if c &&& 0xFF80 = 0 then c.toUInt8 :: convertUTF16toUTF8 cs
    else if c &&& 0xF800 = 0 then
      [(c >>> 6).toUInt8 ||| 0xC0, (c &&& 0x3F).toUInt8 ||| 0x80] ++ convertUTF16toUTF8 cs
    else if c &&& 0xF800 ≠ 0xD800 then
      [(c >>> 12).toUInt8 ||| 0xE0, ((c >>> 6) &&& 0x3F).toUInt8 ||| 0x80,
        (c &&& 0x3F).toUInt8 ||| 0x80] ++ convertUTF16toUTF8 cs
    else if c &&& 0xFC00 = 0xD800 then
      match cs with
      | [] => []
      | l :: cs =>
        if l &&& 0xFC00 = 0xDC00 then
          let ucs4 : UInt32 := ((c &&& 0x3FF).toUInt32 <<< 10) + (l &&& 0x3FF).toUInt32 + 0x10000
          [(ucs4 >>> 18).toUInt8 ||| 0xF0, ((ucs4 >>> 12) &&& 0x3F).toUInt8 ||| 0x80,
            ((ucs4 >>> 6) &&& 0x3F).toUInt8 ||| 0x80, (ucs4 &&& 0x3F).toUInt8 ||| 0x80] ++
            convertUTF16toUTF8 cs
        else convertUTF16toUTF8 cs
    else convertUTF16toUTF8 cs

/-! ### One character -/

/-- How the body of the loop ends: the character was used, it was pushed back for the next
round, or the content is malformed. -/
inductive Round
  | next (state : ParseState) (ps : ParseVars) (calls : List Call)
  | again (state : ParseState) (ps : ParseVars)
  | malformed (ps : ParseVars)

namespace ParseVars

/-- `*ps->lbcur++ = c`. -/
def write (ps : ParseVars) (cs : List UInt8) : ParseVars := { ps with lb := ps.lb ++ cs }

/-- The value buffer as a string. -/
def value (ps : ParseVars) : CString :=
  match ps.vb with
  | .null => []
  | .lb pos => cstringAt ps.lb pos
  | .keyword k => k.text

/-- `pref_DoCallback`. -/
def pref_DoCallback (ps : ParseVars) : Option Call :=
  let call val := some ⟨cstringAt ps.lb 0, val, ps.fdefault⟩
  match ps.vtype with
  | some .string => call (some (.stringVal ps.value))
  | some .int =>
    -- malformed integer value
    if ps.value = ['-'.toUInt8] ∨ ps.value = ['+'.toUInt8] then none else call (some (.intVal (atoi ps.value)))
  | some .bool => call (some (.boolVal (ps.vb = .keyword .kTrue)))
  | none => call none

/-- The states between the parts of a line tolerate only whitespace and comments. -/
def junk (state : ParseState) (c : UInt8) (ps : ParseVars) : Round :=
  if c = '/'.toUInt8 then .next .commentMaybeStart { ps with nextstate := state } []
  else if !isspace c then .malformed ps
  else .next state ps []

/-- The body of the loop of `PREF_ParseBuf`. -/
def round (state : ParseState) (c : UInt8) (ps : ParseVars) : Round :=
  match state with
  | .init =>
    let ps :=
      if ps.lb ≠ [] then { ps with lb := [], vb := .null, vtype := none, fdefault := false } else ps
    if c = '/'.toUInt8 then .next .commentMaybeStart ps []
    else if c = '#'.toUInt8 then .next .untilEol ps []
    else if c = 'u'.toUInt8 ∨ c = 'p'.toUInt8 then
      let smatch := if c = 'u'.toUInt8 then Keyword.kUserPref else Keyword.kPref
      .next .matchString
        { ps with smatch := some smatch, sindex := 1, nextstate := .untilOpenParen } []
    else .next .init ps []
  | .matchString =>
    let smatch := (ps.smatch.map Keyword.text).getD [] ++ [0]
    let ps' := { ps with sindex := ps.sindex + 1 }
    if smatch[ps.sindex]? = some c then
      -- if we've matched all characters, then move to next state
      if smatch[ps.sindex + 1]? = some 0 then
        .next ps'.nextstate { ps' with nextstate := .init } []
      else .next .matchString ps' []
    else .malformed ps'
  | .quotedString =>
    if c = backslash then .next .escSequence ps []
    else if c = ps.quotechar then
      .next ps.nextstate { ps.write [0] with nextstate := .init } []
    else .next .quotedString (ps.write [c]) []
  | .untilName =>
    if c = dquote ∨ c = squote then
      .next .quotedString { ps with
        fdefault := ps.smatch = some .kPref, quotechar := c, nextstate := .untilComma } []
    else junk .untilName c ps
  | .untilComma =>
    if c = ','.toUInt8 then .next .untilValue { ps with vb := .lb ps.lb.length } []
    else junk .untilComma c ps
  | .untilValue =>
    if c = dquote ∨ c = squote then
      .next .quotedString { ps with
        vtype := some .string, quotechar := c, nextstate := .untilCloseParen } []
    else if c = 't'.toUInt8 ∨ c = 'f'.toUInt8 then
      let vb := if c = 't'.toUInt8 then Keyword.kTrue else Keyword.kFalse
      .next .matchString { ps with
        vb := .keyword vb, vtype := some .bool, smatch := some vb, sindex := 1,
        nextstate := .untilCloseParen } []
    else if isdigit c ∨ c = '-'.toUInt8 ∨ c = '+'.toUInt8 then
      .next .intValue ({ ps with vtype := some .int }.write [c]) []
    else junk .untilValue c ps
  | .intValue =>
    if isdigit c then .next .intValue (ps.write [c]) []
    else
      let ps := ps.write [0]
      if c = ')'.toUInt8 then .next .untilSemicolon ps []
      else if c = '/'.toUInt8 then .next .commentMaybeStart { ps with nextstate := .untilCloseParen } []
      else if isspace c then .next .untilCloseParen ps []
      else .malformed ps
  | .commentMaybeStart =>
    if c = '*'.toUInt8 then .next .commentBlock ps []
    else if c = '/'.toUInt8 then .next .untilEol ps []
    else .malformed ps
  | .commentBlock => .next (if c = '*'.toUInt8 then .commentBlockMaybeEnd else .commentBlock) ps []
  | .commentBlockMaybeEnd =>
    if c = '/'.toUInt8 then .next ps.nextstate { ps with nextstate := .init } []
    else if c = '*'.toUInt8 then .next .commentBlockMaybeEnd ps []
    else .next .commentBlock ps []
  | .escSequence =>
    if c = dquote ∨ c = squote ∨ c = backslash then .next .quotedString (ps.write [c]) []
    else if c = 'r'.toUInt8 then .next .quotedString (ps.write [CR]) []
    else if c = 'n'.toUInt8 then .next .quotedString (ps.write [LF]) []
    else if c = 'x'.toUInt8 ∨ c = 'u'.toUInt8 then
      .next .hexEscape { ps with
        esctmp := [c], utf16 := (0, 0),
        sindex := if c = 'x'.toUInt8 then HEX_ESC_NUM_DIGITS else UTF16_ESC_NUM_DIGITS } []
    else
      -- preserve the escape sequence
      .next .quotedString (ps.write [backslash, c]) []
  | .hexEscape =>
    match udigit c with
    | none =>
      -- bad escape sequence found, write out broken escape as-is
      .again .quotedString (ps.write (backslash :: ps.esctmp))
    | some udigit =>
      let utf16 := (ps.utf16.1, (ps.utf16.2 <<< 4) ||| udigit)
      let ps := { ps with esctmp := ps.esctmp ++ [c], utf16 := utf16, sindex := ps.sindex - 1 }
      if ps.sindex = 0 then
        if utf16.1 ≠ 0 then
          .next .quotedString (ps.write (convertUTF16toUTF8 [utf16.1, utf16.2])) []
        else if utf16.2 &&& 0xFC00 = 0xD800 then
          -- a high surrogate, can't convert until we have the low
          .next .utf16LowSurrogate { ps with utf16 := (utf16.2, 0) } []
        else
          .next .quotedString
            ({ ps with utf16 := (utf16.2, utf16.2) }.write (convertUTF16toUTF8 [utf16.2])) []
      else .next .hexEscape ps []
  | .utf16LowSurrogate =>
    if ps.sindex = 0 ∧ c = backslash then
      .next .utf16LowSurrogate { ps with sindex := ps.sindex + 1 } []
    else if ps.sindex = 1 ∧ c = 'u'.toUInt8 then
      .next .hexEscape { ps with sindex := UTF16_ESC_NUM_DIGITS, esctmp := ['u'.toUInt8] } []
    else .again (if ps.sindex = 1 then .escSequence else .quotedString) ps
  | .untilOpenParen => if c = '('.toUInt8 then .next .untilName ps [] else junk .untilOpenParen c ps
  | .untilCloseParen =>
    if c = ')'.toUInt8 then .next .untilSemicolon ps [] else junk .untilCloseParen c ps
  | .untilSemicolon =>
    if c = ';'.toUInt8 then
      match ps.pref_DoCallback with
      | none => .malformed ps
      | some call => .next .init ps [call]
    else junk .untilSemicolon c ps
  | .untilEol =>
    if c = CR ∨ c = LF ∨ c = 0x1A then .next ps.nextstate { ps with nextstate := .init } []
    else .next .untilEol ps []

/-- One character, read once more when it was pushed back. It is not pushed back twice. -/
def read (state : ParseState) (c : UInt8) (ps : ParseVars) : Round :=
  match ps.round state c with
  | .again state ps => ps.round state c
  | r => r

/-- The loop, which ends without a state when the content is malformed. -/
def readAll : List UInt8 → ParseState → ParseVars → Option ParseState × ParseVars × List Call
  | [], state, ps => (some state, ps, [])
  | c :: buf, state, ps =>
    match ps.read state c with
    | .next state ps calls =>
      let r := readAll buf state ps
      (r.1, r.2.1, calls ++ r.2.2)
    | .again _ ps => (none, ps, [])
    | .malformed ps => (none, ps, [])

end ParseVars

/-- `PREF_ParseBuf`: whether it succeeds, the parse state it leaves, and the calls of the
reader it makes. A failure returns before the state is written back. -/
def PREF_ParseBuf (ps : PrefParseState) (buf : List UInt8) : Bool × PrefParseState × List Call :=
  let r := ParseVars.readAll buf ps.state ps.vars
  (r.1.isSome, ⟨r.1.getD ps.state, r.2.1⟩, r.2.2)

end Kompozer.Prefs

import Kompozer.Prefs.Reader
import Kompozer.Text.Encoding

/-! The grammar in front of `PREF_ParseBuf` (`prefread.cpp`): the texts it generates and the
preferences they stand for. A quoted string is made of characters and of the escapes that the
reader names. Strings end at a zero byte, so no character and no escape stands for one, and a
number has 32 bits. -/

namespace Kompozer.Prefs.Grammar

/-! ### Between the tokens -/

/-- `WS`. -/
def IsWS (c : UInt8) : Prop := c ∈ [32, 9, 10, 11, 12, 13]

/-- The end of a line on a Mac, under Unix or DOS, and the end of a file under DOS. -/
def IsEol (c : UInt8) : Prop := c = CR ∨ c = LF ∨ c = 0x1A

/-- A piece of `JUNK`: white space, a comment block or a comment line. -/
inductive Junk
  | ws (c : UInt8) (isWS : IsWS c)
  | block (body : List UInt8) (isOpen : ¬ ascii "*/" <:+: body)
  | line (body : List UInt8) (eol : UInt8) (inLine : ∀ c ∈ body, ¬ IsEol c) (isEol : IsEol eol)

def Junk.text : Junk → List UInt8
  | ws c _ => [c]
  | block body _ => ascii "/*" ++ body ++ ascii "*/"
  | line body eol _ _ => ascii "//" ++ body ++ [eol]

/-- A piece of `LJUNK`, with the comment lines of a shell. -/
inductive LJunk
  | junk (j : Junk)
  | bcomment (body : List UInt8) (eol : UInt8) (inLine : ∀ c ∈ body, ¬ IsEol c) (isEol : IsEol eol)

def LJunk.text : LJunk → List UInt8
  | junk j => j.text
  | bcomment body eol _ _ => ascii "#" ++ body ++ [eol]

def junkText (js : List Junk) : List UInt8 := js.flatMap Junk.text

def ljunkText (js : List LJunk) : List UInt8 := js.flatMap LJunk.text

/-! ### Quoted strings -/

structure HexDigit where
  value : Fin 16
  upper : Bool
  deriving DecidableEq

namespace HexDigit

def char (d : HexDigit) : UInt8 :=
  if d.value < 10 then .ofNat (48 + d.value)
  else if d.upper then .ofNat (55 + d.value)
  else .ofNat (87 + d.value)

def number (ds : List HexDigit) : ℕ := ds.foldl (fun n d => 16 * n + d.value) 0

end HexDigit

/-- The code units of the first and of the second half of a pair. -/
def IsHigh (n : ℕ) : Prop := 0xD800 ≤ n ∧ n < 0xDC00

instance (n : ℕ) : Decidable (IsHigh n) := inferInstanceAs (Decidable (_ ∧ _))

def IsLow (n : ℕ) : Prop := 0xDC00 ≤ n ∧ n < 0xE000

/-- A code unit in UTF-8. Half a pair stands for nothing. -/
def unitBytes (n : ℕ) : List UInt8 :=
  if 0xD800 ≤ n ∧ n < 0xE000 then [] else String.utf8EncodeChar (Char.ofNat n)

def pairBytes (high low : ℕ) : List UInt8 :=
  String.utf8EncodeChar (Char.ofNat (0x10000 + (high - 0xD800) * 0x400 + (low - 0xDC00)))

/-- A piece of a quoted string: a character, an escaped quote or backslash, an escaped line break,
an escape by number, or an escape that is none and stands for itself. -/
inductive Piece
  | char (c : UInt8)
  | quoted (c : UInt8)
  | cr
  | lf
  | hex (ds : List HexDigit)
  | unit (ds : List HexDigit)
  | pair (high low : List HexDigit)
  | other (c : UInt8)
  | broken (k : UInt8) (ds : List HexDigit)

namespace Piece

def escape (k : UInt8) (ds : List HexDigit) : List UInt8 := backslash :: k :: ds.map HexDigit.char

def text : Piece → List UInt8
  | char c => [c]
  | quoted c => [backslash, c]
  | cr => [backslash, 'r'.toUInt8]
  | lf => [backslash, 'n'.toUInt8]
  | hex ds => escape 'x'.toUInt8 ds
  | unit ds => escape 'u'.toUInt8 ds
  | pair high low => escape 'u'.toUInt8 high ++ escape 'u'.toUInt8 low
  | other c => [backslash, c]
  | broken k ds => escape k ds

def bytes : Piece → CString
  | char c => [c]
  | quoted c => [c]
  | cr => [CR]
  | lf => [LF]
  | hex ds => unitBytes (HexDigit.number ds)
  | unit ds => unitBytes (HexDigit.number ds)
  | pair high low => pairBytes (HexDigit.number high) (HexDigit.number low)
  | other c => [backslash, c]
  | broken k ds => escape k ds

/-- The pieces there are between two quotes. -/
def Ok (quote : UInt8) : Piece → Prop
  | char c => c ≠ 0 ∧ c ≠ backslash ∧ c ≠ quote
  | quoted c => c = dquote ∨ c = squote ∨ c = backslash
  | cr => True
  | lf => True
  | hex ds => ds.length = 2 ∧ HexDigit.number ds ≠ 0
  | unit ds => ds.length = 4 ∧ HexDigit.number ds ≠ 0
  | pair high low => (high.length = 4 ∧ IsHigh (HexDigit.number high)) ∧
      low.length = 4 ∧ IsLow (HexDigit.number low)
  | other c =>
    c ∉ [0, dquote, squote, backslash, 'r'.toUInt8, 'n'.toUInt8, 'x'.toUInt8, 'u'.toUInt8]
  | broken k ds => (k = 'x'.toUInt8 ∧ ds.length < 2) ∨ (k = 'u'.toUInt8 ∧ ds.length < 4)

/-- A whole escape of a code unit. -/
def IsUnit : Piece → Prop
  | unit _ => True
  | pair _ _ => True
  | _ => False

/-- The first half of a pair stands alone only if no whole code unit follows, and an escape is
broken only if no digit follows. -/
def MayPrecede (rest : List Piece) : Piece → Prop
  | unit ds => IsHigh (HexDigit.number ds) → ∀ p ∈ rest.head?, ¬ p.IsUnit
  | broken _ _ => ∀ c ∈ (rest.flatMap text).head?, udigit c = none
  | _ => True

end Piece

def Strung (quote : UInt8) : List Piece → Prop
  | [] => True
  | p :: rest => p.Ok quote ∧ p.MayPrecede rest ∧ Strung quote rest

structure QuotedString where
  quote : UInt8
  pieces : List Piece
  isQuote : quote = dquote ∨ quote = squote
  strung : Strung quote pieces

namespace QuotedString

def text (s : QuotedString) : List UInt8 := s.quote :: (s.pieces.flatMap Piece.text ++ [s.quote])

def bytes (s : QuotedString) : CString := s.pieces.flatMap Piece.bytes

end QuotedString

/-! ### Statements -/

/-- `integer-value`: decimal digits with or without a sign. -/
structure IntegerValue where
  minus : Option Bool
  digits : List (Fin 10)
  nonempty : digits ≠ []

namespace IntegerValue

def sign : Option Bool → List UInt8
  | none => []
  | some true => ['-'.toUInt8]
  | some false => ['+'.toUInt8]

def digitsText (v : IntegerValue) : List UInt8 := v.digits.map fun d => .ofNat (48 + d.val)

def text (v : IntegerValue) : List UInt8 := sign v.minus ++ v.digitsText

def magnitude (v : IntegerValue) : ℕ := v.digits.foldl (fun n d => 10 * n + d.val) 0

def value (v : IntegerValue) : ℤ := if v.minus = some true then -v.magnitude else v.magnitude

end IntegerValue

/-- `pref-value`. -/
inductive ValueText
  | quoted (s : QuotedString)
  | bool (b : Bool)
  | integer (v : IntegerValue) (fits : -2 ^ 31 ≤ v.value ∧ v.value < 2 ^ 31)

namespace ValueText

def text : ValueText → List UInt8
  | quoted s => s.text
  | bool b => if b then ascii "true" else ascii "false"
  | integer v _ => v.text

def value : ValueText → PrefValue
  | quoted s => .stringVal s.bytes
  | bool b => .boolVal b
  | integer v _ => .intVal (Int32.ofInt v.value)

end ValueText

/-- `function`. -/
structure PrefFunction where
  ljunk : List LJunk
  isUserPref : Bool
  beforeOpen : List Junk
  beforeName : List Junk
  name : QuotedString
  beforeComma : List Junk
  beforeValue : List Junk
  value : ValueText
  beforeClose : List Junk
  beforeSemicolon : List Junk

namespace PrefFunction

def args (f : PrefFunction) : List UInt8 :=
  ascii "(" ++ junkText f.beforeName ++ f.name.text ++ junkText f.beforeComma ++ ascii "," ++
    junkText f.beforeValue ++ f.value.text ++ junkText f.beforeClose ++ ascii ")" ++
    junkText f.beforeSemicolon ++ ascii ";"

def text (f : PrefFunction) : List UInt8 :=
  ljunkText f.ljunk ++ (if f.isUserPref then ascii "user_pref" else ascii "pref") ++
    junkText f.beforeOpen ++ f.args

/-- The preference that is set, as a default value by `pref`. -/
def call (f : PrefFunction) : Call := ⟨f.name.bytes, some f.value.value, !f.isUserPref⟩

end PrefFunction

end Kompozer.Prefs.Grammar

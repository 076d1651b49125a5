import Kompozer.Prefs.Writer
import Mathlib.Data.List.DropRight
import Mathlib.Tactic.Common

/-! Strings of bytes as the URL code uses them: the string class (`nsTSubstring.cpp`), the
character helpers (`nsURLHelper.cpp`, `nsCRT.h`) and `ToInteger`. A pointer into a string is
the rest of the string, and behind the end there is a terminator. -/

namespace Kompozer.Net

open Prefs (PRInt32 ascii isdigit)

/-- A string with its length. It may hold terminators. -/
abbrev NsCString := List UInt8

def slash : UInt8 := 47
def colon : UInt8 := 58
def semicolon : UInt8 := 59
def question : UInt8 := 63
def hash : UInt8 := 35
def atSign : UInt8 := 64
def percent : UInt8 := 37
def dot : UInt8 := 46
def space : UInt8 := 32
def minus : UInt8 := 45
def pipe : UInt8 := 124
def openBracket : UInt8 := 91
def closeBracket : UInt8 := 93
def TAB : UInt8 := 9
def LF : UInt8 := 10
def CR : UInt8 := 13

/-- The character at a place, the terminator behind the end. -/
def charAt (s : NsCString) (i : ℕ) : UInt8 := s.getD i 0

/-- What a C function sees of a string. -/
def cString (s : NsCString) : NsCString := s.takeWhile (· ≠ 0)

/-! ### Cutting and replacing -/

theorem cString_eq_self {s : NsCString} (h : 0 ∉ s) : cString s = s :=
  List.takeWhile_eq_self_iff.mpr fun c hc => by simpa using fun h' : c = 0 => h (h' ▸ hc)

theorem rdropWhile_append {p : UInt8 → Bool} {c : UInt8} {f : NsCString} (s : NsCString)
    (hc : p c = false) (hf : ∀ x ∈ f, p x = true) :
    (s ++ c :: f).rdropWhile p = s ++ [c] := by
  have hrev : ∀ x ∈ f.reverse, p x = true := fun x hx => hf x (List.mem_reverse.mp hx)
  rw [List.rdropWhile, List.reverse_append, List.reverse_cons, List.append_assoc,
    List.dropWhile_append_of_pos hrev]
  simp [hc]

/-! ### Characters -/

/-- `nsCRT::IsAsciiAlpha`. -/
def isAsciiAlpha (c : UInt8) : Bool := (65 ≤ c && c ≤ 90) || (97 ≤ c && c ≤ 122)

/-- `ToLower`. -/
def toLower (c : UInt8) : UInt8 := if 65 ≤ c ∧ c ≤ 90 then c + 32 else c

/-- `net_ToLowerCase`. -/
def net_ToLowerCase (s : NsCString) : NsCString := s.map toLower

/-- A character of a scheme. -/
def isSchemeChar (c : UInt8) : Bool :=
  isAsciiAlpha c || isdigit c || c == 43 || c == dot || c == minus

/-- `net_IsValidScheme`. -/
def net_IsValidScheme (scheme : NsCString) : Bool :=
  (match scheme with
    | [] => false
    | c :: _ => isAsciiAlpha c) && scheme.all isSchemeChar

/-! ### `net_FilterURIString` -/

def isBlank (c : UInt8) : Bool := c == space || c == TAB || c == CR || c == LF

def isLineChar (c : UInt8) : Bool := c == TAB || c == CR || c == LF

/-- What `net_FilterURIString` leaves: no blanks in front, no tabs and line ends, and no
spaces at the end of what follows the last of these. -/
def filtered (str : NsCString) : NsCString :=
  let rest := (cString str).dropWhile isBlank
  let last := rest.rtakeWhile (!isLineChar ·)
  (rest.rdropWhile (!isLineChar ·)).filter (!isLineChar ·) ++ last.rdropWhile (· == space)

/-- `net_FilterURIString`. It writes a result if it leaves something out. -/
def net_FilterURIString (str : NsCString) : Option NsCString :=
  if (filtered str).length < (cString str).length then some (filtered str) else none

/-! ### `ToInteger` -/

/-- The letters of hexadecimal numbers. -/
def isHexLetter (c : UInt8) : Bool := (65 ≤ c && c ≤ 70) || (97 ≤ c && c ≤ 102)

/-- The loop over the digits. The radix is ten, so that a letter is an error. -/
def toIntegerLoop : NsCString → PRInt32 → Bool → Option PRInt32
  | [], result, _ => some result
  | c :: rest, result, haveValue =>
    if isdigit c then toIntegerLoop rest (10 * result + Int32.ofInt (c.toNat - 48)) true
    else if isHexLetter c then none
    else if (c == 88 || c == 120) && (!haveValue || result == 0) then
      toIntegerLoop rest result haveValue
    else if (c == hash || c == 43) && !haveValue then toIntegerLoop rest result haveValue
    else some result

/-- `ToInteger`, which passes over what does not begin a number. -/
def ToInteger (s : NsCString) : Option PRInt32 :=
  let isStart := fun c => isdigit c || isHexLetter c
  match s.dropWhile (!isStart ·) with
  | [] => none
  | c :: rest =>
    (toIntegerLoop (c :: rest) 0 false).map fun result =>
      if (s.takeWhile (!isStart ·)).contains minus then -result else result

end Kompozer.Net

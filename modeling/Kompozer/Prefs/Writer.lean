import Kompozer.Prefs.Reader
import Mathlib.Data.Nat.Digits.Defs

/-! The writer of preference files: `str_escape` and `pref_savePref` (`prefapi.cpp`) make a
line for each preference that has to be saved, and `WritePrefFile` (`nsPrefService.cpp`)
puts the sorted lines behind a comment. -/

namespace Kompozer.Prefs

/-- One character of `str_escape`. -/
def escapeChar (c : UInt8) : CString :=
  if c = LF then [backslash, 'n'.toUInt8]
  else if c = CR then [backslash, 'r'.toUInt8]
  else if c = backslash then [backslash, backslash]
  else if c = dquote then [backslash, dquote]
  else [c]

/-- `str_escape`. A null pointer adds nothing. -/
def str_escape (original : CString) : CString := original.flatMap escapeChar

/-- The digits of a number. -/
def decimal (n : ℕ) : CString :=
  if n = 0 then ['0'.toUInt8] else (Nat.digits 10 n).reverse.map fun d => UInt8.ofNat (48 + d)

/-- `AppendInt`. -/
def appendInt (aInteger : PRInt32) : CString :=
  if aInteger.toInt < 0 then '-'.toUInt8 :: decimal aInteger.toInt.natAbs
  else decimal aInteger.toInt.natAbs

/-- The value as `pref_savePref` writes it. -/
def PrefValue.text : PrefValue → CString
  | stringVal s => dquote :: (str_escape s ++ [dquote])
  | intVal v => appendInt v
  | boolVal b => ascii (if b then "true" else "false")

/-- Where `pref_savePref` gets the value from: the user value when there is one other than
the default value, or the default value of a locked preference. -/
def Slot.sourcePref {α : Type} (changed : α → α → Bool) (pref : Slot α) : Option α :=
  if pref.userSet && changed pref.defaultPref pref.userPref then some pref.userPref
  else if pref.locked then some pref.defaultPref
  else none

/-- The value that is saved. -/
def PrefHashEntry.saved : PrefHashEntry → Option PrefValue
  | string e => (e.sourcePref stringChanged).map fun s => .stringVal (s.getD [])
  | int e => (e.sourcePref wordChanged).map .intVal
  | bool e => (e.sourcePref wordChanged).map fun b => .boolVal (b ≠ PR_FALSE)

/-- A line of the file. -/
def prefLine (key : CString) (value : PrefValue) : CString :=
  ascii "user_pref(" ++ dquote :: (str_escape key ++ dquote :: (ascii ", " ++ value.text ++ ascii ");"))

/-- `pref_savePref`. -/
def pref_savePref (key : CString) (pref : PrefHashEntry) : Option CString :=
  pref.saved.map (prefLine key)

/-- `strcmp (s1, s2) <= 0`. -/
def strcmpLe : CString → CString → Bool
  | [], _ => true
  | _ :: _, [] => false
  | a :: s, b :: t => if a = b then strcmpLe s t else decide (a < b)

/-- `NS_LINEBREAK`. -/
inductive LineBreak
  | crlf
  | lf
  deriving DecidableEq

def LineBreak.bytes : LineBreak → CString
  | crlf => [CR, LF]
  | lf => [LF]

/-- The comment at the head of the file. -/
def outHeader (NS_LINEBREAK : LineBreak) : CString :=
  ascii "# Mozilla User Preferences" ++ NS_LINEBREAK.bytes ++ NS_LINEBREAK.bytes ++
    ascii "/* Do not edit this file." ++ NS_LINEBREAK.bytes ++ ascii " *" ++ NS_LINEBREAK.bytes ++
    ascii " * If you make changes to this file while the application is running," ++
    NS_LINEBREAK.bytes ++
    ascii " * the changes will be overwritten when the application exits." ++
    NS_LINEBREAK.bytes ++ ascii " *" ++ NS_LINEBREAK.bytes ++
    ascii " * To make a manual change to preferences, you can visit the URL about:config" ++
    NS_LINEBREAK.bytes ++
    ascii " * For more information, see http://www.mozilla.org/unix/customizing.html#prefs" ++
    NS_LINEBREAK.bytes ++ ascii " */" ++ NS_LINEBREAK.bytes ++ NS_LINEBREAK.bytes

/-- The lines of a table in the order in which they are written. -/
def PrefTable.lines (t : PrefTable) : List CString :=
  (t.entries.filterMap fun s => pref_savePref s.1 s.2).mergeSort strcmpLe

/-- `WritePrefFile`. -/
def WritePrefFile (NS_LINEBREAK : LineBreak) (t : PrefTable) : CString :=
  outHeader NS_LINEBREAK ++ t.lines.flatMap fun line => line ++ NS_LINEBREAK.bytes

end Kompozer.Prefs

import Kompozer.Prefs.SetGet
import Mathlib.Data.List.Sort

/-! The branch `editor.publish.` of the preferences as a script sees it (`nsPrefBranch.cpp`). A
name that a script gives is cut to eight bits a character and ends at the first zero byte; a text
is stored in UTF-8. The observers of these preferences do not fail. -/

namespace Kompozer.Publish

open Prefs NsResult

/-- A string of a script, without unpaired surrogates. -/
abbrev JSString := List Char

def js (s : String) : JSString := s.toList

/-! ### Strings of a script and strings of bytes -/

/-- The units of UTF-16 of a character. -/
def units (c : Char) : List UInt16 :=
  if c.toNat < 0x10000 then [UInt16.ofNat c.toNat]
  else [UInt16.ofNat (0xD800 + (c.toNat - 0x10000) / 0x400),
    UInt16.ofNat (0xDC00 + (c.toNat - 0x10000) % 0x400)]

/-- `js_DeflateString`. -/
def deflate (s : JSString) : CString := (s.flatMap units).map UInt16.toUInt8

/-- `js_InflateString`. -/
def inflate (s : CString) : JSString := s.map fun b => Char.ofNat b.toNat

/-- What a function that takes a terminated string sees of these bytes. -/
def terminated (s : CString) : CString := s.takeWhile (· ≠ 0)

/-- The bytes of a character. -/
def encode (c : Char) : CString :=
  let n := c.toNat
  if n < 0x80 then [.ofNat n]
  else if n < 0x800 then [.ofNat (0xC0 + n / 64), .ofNat (0x80 + n % 64)]
  else if n < 0x10000 then
    [.ofNat (0xE0 + n / 4096), .ofNat (0x80 + n / 64 % 64), .ofNat (0x80 + n % 64)]
  else [.ofNat (0xF0 + n / 262144), .ofNat (0x80 + n / 4096 % 64), .ofNat (0x80 + n / 64 % 64),
    .ofNat (0x80 + n % 64)]

/-- `NS_ConvertUCS2toUTF8`. -/
def toUTF8 (s : JSString) : CString := s.flatMap encode

/-- The characters of bytes, with `k` bytes left of a character whose first bits are `n`. -/
def decode : ℕ → ℕ → CString → Option JSString
  | 0, _, [] => some []
  | _ + 1, _, [] => none
  | 0, _, b :: s =>
    if b.toNat < 0x80 then (decode 0 0 s).map (Char.ofNat b.toNat :: ·)
    else if b.toNat < 0xC0 then none
    else if b.toNat < 0xE0 then decode 1 (b.toNat - 0xC0) s
    else if b.toNat < 0xF0 then decode 2 (b.toNat - 0xE0) s
    else decode 3 (b.toNat - 0xF0) s
  | k + 1, n, b :: s =>
    let n := n * 64 + (b.toNat - 0x80)
    if k = 0 then (decode 0 0 s).map (Char.ofNat n :: ·) else decode k n s

/-- `NS_ConvertUTF8toUCS2`, which gives nothing for bytes that are no UTF-8. -/
def ofUTF8 (s : CString) : JSString := (decode 0 0 s).getD []

/-- The order in which a script sorts strings. -/
def unitsLe : List UInt16 → List UInt16 → Bool
  | [], _ => true
  | _ :: _, [] => false
  | a :: s, b :: t => a < b || a == b && unitsLe s t

/-- `sort ()` of an array of strings. -/
def sort (l : List JSString) : List JSString :=
  l.insertionSort fun a b => unitsLe (a.flatMap units) (b.flatMap units) = true

/-! ### The branch -/

def mPrefRoot : CString := deflate (js "editor.publish.")

/-- `getPrefName`. -/
def getPrefName (aPrefName : JSString) : CString := mPrefRoot ++ terminated (deflate aPrefName)

/-- A setter of the branch. -/
def setPref (t : PrefTable) (aPrefName : JSString) (value : PrefValue) : NsResult × PrefTable :=
  t.hashPref (fun _ => .ok) (getPrefName aPrefName) value false

def setBoolPref (t : PrefTable) (aPrefName : JSString) (value : Bool) : NsResult × PrefTable :=
  setPref t aPrefName (.boolVal value)

def setIntPref (t : PrefTable) (aPrefName : JSString) (value : PRInt32) : NsResult × PrefTable :=
  setPref t aPrefName (.intVal value)

/-- `SetComplexValue` for an `nsISupportsString`. -/
def setComplexValue (t : PrefTable) (aPrefName data : JSString) : NsResult × PrefTable :=
  setPref t aPrefName (.stringVal (terminated (toUTF8 data)))

def getBoolPref (t : PrefTable) (aPrefName : JSString) : Except NsResult Bool :=
  (t.PREF_GetBoolPref (getPrefName aPrefName) false).map (· ≠ 0)

def getIntPref (t : PrefTable) (aPrefName : JSString) : Except NsResult PRInt32 :=
  t.PREF_GetIntPref (getPrefName aPrefName) false

/-- `GetComplexValue` for an `nsISupportsString`. -/
def getComplexValue (t : PrefTable) (aPrefName : JSString) : Except NsResult JSString :=
  (t.PREF_CopyCharPref (getPrefName aPrefName) false).map ofUTF8

/-- `pref_DeleteItem`: the preferences whose names begin with the branch, and the one with the name
of the branch without its last character. -/
def deletes (to_delete key : CString) : Bool :=
  to_delete.isPrefixOf key ||
    key.length + 1 == to_delete.length && (to_delete.take (to_delete.length - 1)).isPrefixOf key

/-- `DeleteBranch`. -/
def deleteBranch (t : PrefTable) (aStartingAt : JSString) : PrefTable :=
  let branch_name := getPrefName aStartingAt
  let branch_dot :=
    if 1 < branch_name.length ∧ branch_name.getLast? ≠ some 46 then branch_name ++ [46]
    else branch_name
  ⟨t.entries.filter fun e => !deletes branch_dot e.1, t.nodupKeys.sublist List.filter_sublist⟩

/-- `GetChildList`, with the names behind the root. -/
def getChildList (t : PrefTable) (aStartingAt : JSString) : List JSString :=
  let parent := getPrefName aStartingAt
  ((t.entries.map Sigma.fst).filter fun key => parent.isPrefixOf key).map fun key =>
    inflate (key.drop mPrefRoot.length)

/-- Prefs that don't exist throw, so the text is empty then. -/
def GetPublishStringPref (t : PrefTable) (name : JSString) : JSString :=
  if name = [] then [] else
    match getComplexValue t name with
    | .ok data => data
    | .error _ => []

def SetPublishStringPref (t : PrefTable) (name value : JSString) : PrefTable :=
  if name = [] then t else (setComplexValue t name value).2

end Kompozer.Publish

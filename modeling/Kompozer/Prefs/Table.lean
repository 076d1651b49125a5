import Kompozer.Xpcom
import Mathlib.Data.List.AList
import Mathlib.Tactic.Common

/-! The table of preferences (`prefapi.cpp`): a preference has a type, a default value, a
user value and two flags. That there is no default value is recorded as a default value that
no preference was thought to have. The table is one that `PREF_Init` made, and the observers
of a preference do not change the table here. -/

namespace Kompozer.Prefs

open NsResult

/-- A string of bytes without its terminator. -/
abbrev CString := List UInt8

abbrev PRInt32 := Int32
abbrev PRBool := Int32

def PR_TRUE : PRBool := 1
def PR_FALSE : PRBool := 0

/-- The two values a caller gives a `PRBool`. -/
def prBool (b : Bool) : PRBool := if b then PR_TRUE else PR_FALSE

def BOGUS_DEFAULT_INT_PREF_VALUE : PRInt32 := -5632
def BOGUS_DEFAULT_BOOL_PREF_VALUE : PRBool := -2

/-- A value with its type, as the callers of `pref_HashPref` give it. -/
inductive PrefValue
  | stringVal (s : CString)
  | intVal (v : PRInt32)
  | boolVal (b : Bool)
  deriving DecidableEq

/-- `PrefType`, without the flags it shares a byte with. -/
inductive PrefType
  | string
  | int
  | bool
  deriving DecidableEq

def PrefValue.type : PrefValue → PrefType
  | stringVal _ => .string
  | intVal _ => .int
  | boolVal _ => .bool

/-- The flags and the two values of a preference of one type. -/
structure Slot (α : Type) where
  locked : Bool
  userSet : Bool
  defaultPref : α
  userPref : α
  deriving DecidableEq

/-- `PrefHashEntry`. The value of a string is a pointer that may be null. -/
inductive PrefHashEntry
  | string (e : Slot (Option CString))
  | int (e : Slot PRInt32)
  | bool (e : Slot PRBool)
  deriving DecidableEq

namespace PrefHashEntry

def type : PrefHashEntry → PrefType
  | string _ => .string
  | int _ => .int
  | bool _ => .bool

def locked : PrefHashEntry → Bool
  | string e => e.locked
  | int e => e.locked
  | bool e => e.locked

def userSet : PrefHashEntry → Bool
  | string e => e.userSet
  | int e => e.userSet
  | bool e => e.userSet

end PrefHashEntry

/-- `gHashTable`. -/
abbrev PrefTable := AList fun _ : CString => PrefHashEntry

/-! ### Setting -/

/-- `pref_ValueChanged` for two strings. -/
def stringChanged : Option CString → Option CString → Bool
  | some oldValue, some newValue => oldValue != newValue
  | _, _ => true

/-- `pref_ValueChanged` for two numbers. -/
def wordChanged (oldValue newValue : Int32) : Bool := oldValue != newValue

namespace Slot
variable {α : Type} (changed : α → α → Bool)

/-- What `pref_HashPref` does to an entry of the right type, and whether the value that
counts has changed. -/
def set (value : α) (set_default : Bool) (e : Slot α) : Slot α × Bool :=
  if set_default then
    if !e.locked && changed e.defaultPref value then
      ({ e with defaultPref := value }, !e.userSet)
    else (e, false)
  else if !changed e.defaultPref value then
    -- the new value is the default value, so the user value is un-set
    if e.userSet then ({ e with userSet := false }, !e.locked) else (e, false)
  else if !e.userSet || changed e.userPref value then
    ({ e with userPref := value, userSet := true }, !e.locked)
  else (e, false)

/-- The value that counts, for a getter with or without the default flag. -/
def current (get_default : Bool) (e : Slot α) : α :=
  if get_default || e.locked || !e.userSet then e.defaultPref else e.userPref

end Slot

namespace PrefHashEntry

/-- A new entry. -/
def init : PrefType → PrefHashEntry
  | .string => string ⟨false, false, none, none⟩
  | .int => int ⟨false, false, BOGUS_DEFAULT_INT_PREF_VALUE, 0⟩
  | .bool => bool ⟨false, false, BOGUS_DEFAULT_BOOL_PREF_VALUE, 0⟩

/-- The rest of `pref_HashPref`, which refuses a value of another type. -/
def set (value : PrefValue) (set_default : Bool) : PrefHashEntry → Option (PrefHashEntry × Bool)
  | string e =>
    match value with
    | .stringVal s =>
      let r := e.set stringChanged (some s) set_default
      some (string r.1, r.2)
    | _ => none
  | int e =>
    match value with
    | .intVal v =>
      let r := e.set wordChanged v set_default
      some (int r.1, r.2)
    | _ => none
  | bool e =>
    match value with
    | .boolVal b =>
      let r := e.set wordChanged (prBool b) set_default
      some (bool r.1, r.2)
    | _ => none

end PrefHashEntry

namespace PrefTable
variable (pref_DoCallback : CString → NsResult)

/-- The entry `pref_HashPref` works on, which it adds when there is none. -/
def entryFor (t : PrefTable) (key : CString) (value : PrefValue) : PrefHashEntry :=
  (AList.lookup key t).getD (.init value.type)

/-- `pref_HashPref`, given what the observers return. -/
def hashPref (key : CString) (value : PrefValue) (set_default : Bool) (t : PrefTable) :
    NsResult × PrefTable :=
  match (t.entryFor key value).set value set_default with
  | none => (NS_ERROR_UNEXPECTED, t)
  | some (pref, valueChanged) =>
    (if valueChanged then pref_DoCallback key else .ok, AList.insert key pref t)

def PREF_SetCharPref (pref_name value : CString) (set_default : Bool) (t : PrefTable) :
    NsResult × PrefTable :=
  t.hashPref pref_DoCallback pref_name (.stringVal value) set_default

def PREF_SetIntPref (pref_name : CString) (value : PRInt32) (set_default : Bool)
    (t : PrefTable) : NsResult × PrefTable :=
  t.hashPref pref_DoCallback pref_name (.intVal value) set_default

def PREF_SetBoolPref (pref_name : CString) (value : Bool) (set_default : Bool)
    (t : PrefTable) : NsResult × PrefTable :=
  t.hashPref pref_DoCallback pref_name (.boolVal value) set_default

/-! ### Getting -/

def PREF_CopyCharPref (t : PrefTable) (pref_name : CString) (get_default : Bool) :
    Except NsResult CString :=
  match AList.lookup pref_name t with
  | some (.string e) =>
    match e.current get_default with
    | some stringVal => .ok stringVal
    | none => .error NS_ERROR_UNEXPECTED
  | _ => .error NS_ERROR_UNEXPECTED

/-- `PREF_GetCharPref`: a buffer of positive length is filled, else the length is asked
for. The type is not looked at: nothing can be said about an entry that is no string. -/
def PREF_GetCharPref (t : PrefTable) (pref_name : CString) (length : ℤ) (get_default : Bool) :
    Option (Except NsResult (CString ⊕ ℕ)) :=
  match AList.lookup pref_name t with
  | none => some (.error NS_ERROR_UNEXPECTED)
  | some (.string e) =>
    match e.current get_default with
    | none => some (.error NS_ERROR_UNEXPECTED)
    | some stringVal =>
      if length ≤ 0 then some (.ok (.inr (stringVal.length + 1)))
      else some (.ok (.inl (stringVal.take (min (length.toNat - 1) (stringVal.length + 1)))))
  | some _ => none

def PREF_GetIntPref (t : PrefTable) (pref_name : CString) (get_default : Bool) :
    Except NsResult PRInt32 :=
  match AList.lookup pref_name t with
  | some (.int e) =>
    if get_default || e.locked || !e.userSet then
      -- check to see if we even had a default
      if e.defaultPref = BOGUS_DEFAULT_INT_PREF_VALUE then .error NS_ERROR_UNEXPECTED
      else .ok e.defaultPref
    else .ok e.userPref
  | _ => .error NS_ERROR_UNEXPECTED

def PREF_GetBoolPref (t : PrefTable) (pref_name : CString) (get_default : Bool) :
    Except NsResult PRBool :=
  match AList.lookup pref_name t with
  | some (.bool e) =>
    if get_default || e.locked || !e.userSet then
      -- check to see if we even had a default
      if e.defaultPref = BOGUS_DEFAULT_BOOL_PREF_VALUE then .error NS_ERROR_UNEXPECTED
      else .ok e.defaultPref
    else .ok e.userPref
  | _ => .error NS_ERROR_UNEXPECTED

end PrefTable

end Kompozer.Prefs

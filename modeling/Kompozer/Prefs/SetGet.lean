import Kompozer.Prefs.Table

/-! A value that was set is what the getter returns, as long as it is not the number that
stands for a missing default value; a value of the wrong type is refused. -/

namespace Kompozer.Prefs

open NsResult

theorem stringChanged_eq_false {a b : Option CString} (h : stringChanged a b = false) :
    a = b := by
  cases a with
  | none => simp [stringChanged] at h
  | some s =>
    cases b with
    | none => simp [stringChanged] at h
    | some t => simpa [stringChanged] using h

theorem wordChanged_eq_false {a b : Int32} : wordChanged a b = false ↔ a = b := by
  simp [wordChanged]

/-! ### One entry -/

namespace Slot
variable {α : Type} {changed : α → α → Bool} {value : α} {set_default : Bool} {e : Slot α}

@[simp] theorem locked_set : (e.set changed value set_default).1.locked = e.locked := by
  rw [set]
  split_ifs <;> rfl

/-- What a set does to an entry that is not locked. -/
theorem set_unlocked (hchanged : ∀ a b, changed a b = false → a = b) (hlocked : e.locked = false) :
    (e.set changed value set_default).1 =
      if set_default then { e with defaultPref := value }
      else if changed e.defaultPref value then { e with userPref := value, userSet := true }
      else { e with userSet := false } := by
  obtain ⟨locked, userSet, defaultPref, userPref⟩ := e
  subst hlocked
  cases set_default with
  | true =>
    cases hd : changed defaultPref value with
    | true => simp [set, hd]
    | false =>
      obtain rfl := hchanged _ _ hd
      simp [set, hd]
  | false =>
    cases hd : changed defaultPref value with
    | false => cases userSet <;> simp [set, hd]
    | true =>
      cases userSet with
      | false => simp [set, hd]
      | true =>
        cases hu : changed userPref value with
        | true => simp [set, hd, hu]
        | false =>
          obtain rfl := hchanged _ _ hu
          simp [set, hd, hu]

/-- The value that counts after a set: the new one, unless it is a default value behind a
user value. -/
theorem current_set (hchanged : ∀ a b, changed a b = false → a = b) (hlocked : e.locked = false) :
    (e.set changed value set_default).1.current false =
      if set_default && e.userSet then e.userPref else value := by
  rw [set_unlocked hchanged hlocked]
  cases set_default with
  | true => cases hu : e.userSet <;> simp [current, hlocked]
  | false =>
    cases hd : changed e.defaultPref value with
    | true => simp [current, hlocked]
    | false => simp [current, hchanged _ _ hd]

/-- Whether the default value is what counts then, and is the given one. -/
theorem bogus_set (hchanged : ∀ a b, changed a b = false ↔ a = b) (hlocked : e.locked = false)
    (bogus : α) :
    ((e.set changed value set_default).1.userSet = false ∧
        (e.set changed value set_default).1.defaultPref = bogus) ↔
      value = bogus ∧ if set_default then e.userSet = false else e.defaultPref = bogus := by
  rw [set_unlocked (fun a b => (hchanged a b).mp) hlocked]
  cases set_default with
  | true => simp [and_comm]
  | false =>
    cases hd : changed e.defaultPref value with
    | true =>
      have hne : e.defaultPref ≠ value := by
        rw [Ne, ← hchanged, hd]
        simp
      simp only [if_true, Bool.false_eq_true, if_false, Bool.true_eq_false, false_and, false_iff]
      rintro ⟨rfl, h⟩
      exact hne h
    | false => simp [(hchanged _ _).mp hd]

end Slot

/-! ### The getters -/

namespace PrefTable
variable {t : PrefTable} {key : CString}

/-- The setter of the value's type. -/
def setPref (pref_DoCallback : CString → NsResult) (pref_name : CString) (value : PrefValue)
    (set_default : Bool) (t : PrefTable) : NsResult × PrefTable :=
  match value with
  | .stringVal s => t.PREF_SetCharPref pref_DoCallback pref_name s set_default
  | .intVal v => t.PREF_SetIntPref pref_DoCallback pref_name v set_default
  | .boolVal b => t.PREF_SetBoolPref pref_DoCallback pref_name b set_default

theorem setPref_eq (notify : CString → NsResult) (value : PrefValue) (set_default : Bool) :
    t.setPref notify key value set_default = t.hashPref notify key value set_default := by
  cases value <;> rfl

/-- The getter of the value's type, asked without the default flag, returns the value. -/
def Gets (t : PrefTable) (key : CString) : PrefValue → Prop
  | .stringVal s => t.PREF_CopyCharPref key false = .ok s ∧
      ∀ length : ℤ, s.length < length → t.PREF_GetCharPref key length false = some (.ok (.inl s))
  | .intVal v => t.PREF_GetIntPref key false = .ok v
  | .boolVal b => t.PREF_GetBoolPref key false = .ok (prBool b)

theorem gets_string {e : Slot (Option CString)} {s : CString}
    (h : AList.lookup key t = some (.string e)) :
    t.Gets key (.stringVal s) ↔ e.current false = some s := by
  rw [Gets, PREF_CopyCharPref, h]
  constructor
  · rintro ⟨hcopy, -⟩
    dsimp only at hcopy
    split at hcopy
    · rename_i hs
      rw [hs, Except.ok.inj hcopy]
    · cases hcopy
  · intro hs
    dsimp only
    rw [hs]
    refine ⟨rfl, fun length hlength => ?_⟩
    rw [PREF_GetCharPref, h]
    dsimp only
    rw [hs]
    dsimp only
    rw [if_neg (by omega), List.take_of_length_le (by omega)]

theorem gets_int {e : Slot PRInt32} {v : PRInt32} (hlocked : e.locked = false)
    (h : AList.lookup key t = some (.int e)) : t.Gets key (.intVal v) ↔
      e.current false = v ∧
        ¬ (e.userSet = false ∧ e.defaultPref = BOGUS_DEFAULT_INT_PREF_VALUE) := by
  rw [Gets, PREF_GetIntPref, h]
  cases hu : e.userSet with
  | true => simp [Slot.current, hlocked, hu]
  | false =>
    by_cases hb : e.defaultPref = BOGUS_DEFAULT_INT_PREF_VALUE
    · simp [Slot.current, hlocked, hu, hb]
    · simp [Slot.current, hlocked, hu, hb]

theorem gets_bool {e : Slot PRBool} {b : Bool} (hlocked : e.locked = false)
    (h : AList.lookup key t = some (.bool e)) : t.Gets key (.boolVal b) ↔
      e.current false = prBool b := by
  have hbogus : prBool b ≠ BOGUS_DEFAULT_BOOL_PREF_VALUE := by
    cases b <;> decide
  rw [Gets, PREF_GetBoolPref, h]
  cases hu : e.userSet with
  | true => simp [Slot.current, hlocked, hu]
  | false =>
    by_cases hb : e.defaultPref = BOGUS_DEFAULT_BOOL_PREF_VALUE
    · simp [Slot.current, hlocked, hu, hb, hbogus.symm]
    · simp [Slot.current, hlocked, hu, hb]

/-! ### The law -/

/-- No user value is in front of a default value that is set, and the value is not the
number that stands for no default value where that is what counts. -/
def Shows (value : PrefValue) (set_default : Bool) (pref : PrefHashEntry) : Prop :=
  match pref, value with
  | .string e, .stringVal s => set_default && e.userSet → e.userPref = some s
  | .bool e, .boolVal b => set_default && e.userSet → e.userPref = prBool b
  | .int e, .intVal v => (set_default && e.userSet → e.userPref = v) ∧
      ¬ (v = BOGUS_DEFAULT_INT_PREF_VALUE ∧
        if set_default then e.userSet = false
        else e.defaultPref = BOGUS_DEFAULT_INT_PREF_VALUE)
  | _, _ => True

/-- What setting a value and getting it back should be like, whatever the observers
return: a set of the right type that succeeds is seen by the getter, one of the wrong type
fails and changes nothing, and neither touches another preference. -/
structure SetGet (t : PrefTable) (key : CString) (value : PrefValue) (set_default : Bool) :
    Prop where
  get : ∀ notify, (t.entryFor key value).locked = false →
    (t.setPref notify key value set_default).1 = .ok →
    (t.setPref notify key value set_default).2.Gets key value
  others : ∀ notify other, other ≠ key →
    AList.lookup other (t.setPref notify key value set_default).2 = AList.lookup other t
  mismatch : ∀ notify, (t.entryFor key value).type ≠ value.type →
    (t.setPref notify key value set_default).1.failed = true ∧
      (t.setPref notify key value set_default).2 = t

/-- A value of the type of the entry is put into it. -/
theorem hashPref_of_set {notify : CString → NsResult} {value : PrefValue} {set_default : Bool}
    {r : PrefHashEntry × Bool} (h : (t.entryFor key value).set value set_default = some r) :
    t.hashPref notify key value set_default =
      (if r.2 then notify key else .ok, AList.insert key r.1 t) := by
  rw [hashPref, h]

/-- A value of another type is refused. -/
theorem set_eq_none_iff {pref : PrefHashEntry} {value : PrefValue} {set_default : Bool} :
    pref.set value set_default = none ↔ pref.type ≠ value.type := by
  cases pref <;> cases value <;> simp [PrefHashEntry.set, PrefHashEntry.type, PrefValue.type]

theorem hashPref_mismatch {notify : CString → NsResult} {value : PrefValue} {set_default : Bool}
    (h : (t.entryFor key value).type ≠ value.type) :
    t.hashPref notify key value set_default = (NS_ERROR_UNEXPECTED, t) := by
  rw [hashPref, set_eq_none_iff.mpr h]

theorem lookup_hashPref_ne {notify : CString → NsResult} {value : PrefValue} {set_default : Bool}
    {other : CString} (h : other ≠ key) :
    AList.lookup other (t.hashPref notify key value set_default).2 = AList.lookup other t := by
  rw [hashPref]
  split
  · rfl
  · exact AList.lookup_insert_ne h

/-- When the getter returns what was set. -/
theorem gets_hashPref_iff {notify : CString → NsResult} {value : PrefValue} {set_default : Bool}
    (htype : (t.entryFor key value).type = value.type)
    (hlocked : (t.entryFor key value).locked = false) :
    (t.hashPref notify key value set_default).2.Gets key value ↔
      Shows value set_default (t.entryFor key value) := by
  cases he : t.entryFor key value with
  | string e =>
    rw [he] at htype hlocked
    cases value with
    | stringVal s =>
      rw [hashPref_of_set (by rw [he]; rfl), gets_string (AList.lookup_insert t),
        Slot.current_set (fun a b => stringChanged_eq_false) hlocked]
      simp [Shows]
    | intVal v => simp [PrefHashEntry.type, PrefValue.type] at htype
    | boolVal b => simp [PrefHashEntry.type, PrefValue.type] at htype
  | int e =>
    rw [he] at htype hlocked
    have hl : e.locked = false := hlocked
    cases value with
    | stringVal s => simp [PrefHashEntry.type, PrefValue.type] at htype
    | intVal v =>
      rw [hashPref_of_set (by rw [he]; rfl),
        gets_int (by rw [Slot.locked_set, hl]) (AList.lookup_insert t),
        Slot.current_set (fun a b => wordChanged_eq_false.mp) hl,
        Slot.bogus_set (fun a b => wordChanged_eq_false) hl]
      simp [Shows]
    | boolVal b => simp [PrefHashEntry.type, PrefValue.type] at htype
  | bool e =>
    rw [he] at htype hlocked
    have hl : e.locked = false := hlocked
    cases value with
    | stringVal s => simp [PrefHashEntry.type, PrefValue.type] at htype
    | intVal v => simp [PrefHashEntry.type, PrefValue.type] at htype
    | boolVal b =>
      rw [hashPref_of_set (by rw [he]; rfl),
        gets_bool (by rw [Slot.locked_set, hl]) (AList.lookup_insert t),
        Slot.current_set (fun a b => wordChanged_eq_false.mp) hl]
      simp [Shows]

/-- The law holds for exactly the values that show. -/
theorem setGet_iff (t : PrefTable) (key : CString) (value : PrefValue) (set_default : Bool) :
    SetGet t key value set_default ↔
      ((t.entryFor key value).locked = false → Shows value set_default (t.entryFor key value)) := by
  constructor
  · intro h hlocked
    have hget := h.get (fun _ => .ok) hlocked
    rw [setPref_eq] at hget
    by_cases htype : (t.entryFor key value).type = value.type
    · refine (gets_hashPref_iff htype hlocked).mp (hget ?_)
      rw [hashPref]
      split
      · rename_i hnone
        exact absurd htype (set_eq_none_iff.mp hnone)
      · simp
    · cases hpref : t.entryFor key value <;> cases value <;>
        simp_all [Shows, PrefHashEntry.type, PrefValue.type]
  · intro h
    refine ⟨fun notify hlocked hok => ?_, fun notify other hne => ?_, fun notify htype => ?_⟩
    · rw [setPref_eq] at hok ⊢
      by_cases htype : (t.entryFor key value).type = value.type
      · exact (gets_hashPref_iff htype hlocked).mpr (h hlocked)
      · rw [hashPref_mismatch htype] at hok
        exact absurd hok (by simp [NS_ERROR_UNEXPECTED])
    · rw [setPref_eq]
      exact lookup_hashPref_ne hne
    · rw [setPref_eq, hashPref_mismatch htype]
      exact ⟨rfl, rfl⟩

/-- The law for a value that shows. -/
theorem setGet_of_shows (t : PrefTable) (key : CString) (value : PrefValue) (set_default : Bool)
    (h : (t.entryFor key value).locked = false → Shows value set_default (t.entryFor key value)) :
    SetGet t key value set_default :=
  (setGet_iff t key value set_default).mpr h

/-- The smallest number is a user value like any other. -/
theorem setGet_minimum : SetGet ∅ [120] (.intVal (-2147483648)) false :=
  setGet_of_shows ∅ [120] (.intVal (-2147483648)) false fun _ => by
    refine ⟨fun h => ?_, fun h => ?_⟩
    · cases h
    · exact absurd h.1 (by decide)

/-- A default value that is set behind another user value is not what the getter returns. -/
theorem not_setGet_default :
    ¬ SetGet (PREF_SetIntPref (fun _ => .ok) [120] 1 false ∅).2 [120] (.intVal 2) true := by
  intro h
  have hget := h.get (fun _ => .ok) (by decide) (by decide)
  exact absurd hget (by
    show ¬ _ = _
    decide)

end PrefTable

end Kompozer.Prefs

import Kompozer.Publish.PublishPrefs
import Mathlib.Data.List.TakeWhile

/-! What the operations of the branch do to the table, when the preferences they set have only
values of the user. -/

namespace Kompozer.Publish

open Prefs NsResult

/-! ### Strings -/

@[simp] theorem deflate_nil : deflate [] = [] := rfl

@[simp] theorem deflate_append (s u : JSString) : deflate (s ++ u) = deflate s ++ deflate u := by
  simp [deflate]

theorem terminated_eq {s : CString} (h : 0 ∉ s) : terminated s = s := by
  rw [terminated, List.takeWhile_eq_self_iff]
  intro b hb
  have hne : b ≠ 0 := fun h0 => h (h0 ▸ hb)
  simpa using hne

theorem toNat_lt (c : Char) : c.toNat < 0x110000 := by
  have := c.valid
  show c.val.toNat < _
  rcases this with h | h <;> omega

theorem decode_encode (c : Char) (s : CString) :
    decode 0 0 (encode c ++ s) = (decode 0 0 s).map (c :: ·) := by
  have hc := toNat_lt c
  have hof : Char.ofNat c.toNat = c := Char.ofNat_toNat c
  have hbyte : ∀ n < 256, (UInt8.ofNat n).toNat = n := fun n hn => UInt8.toNat_ofNat_of_lt' hn
  generalize hn : c.toNat = n at hc hof
  rw [encode, hn]
  split_ifs with h₁ h₂ h₃
  · have hb := hbyte n (by omega)
    simp only [List.cons_append, List.nil_append, decode, hb, if_pos h₁, hof]
  · have hb := hbyte (0xC0 + n / 64) (by omega)
    have hb₁ := hbyte (0x80 + n % 64) (by omega)
    have hsum : (0xC0 + n / 64 - 0xC0) * 64 + (0x80 + n % 64 - 0x80) = n := by omega
    simp only [List.cons_append, List.nil_append, decode, hb, hb₁, hsum, hof]
    rw [if_neg (by omega), if_neg (by omega), if_pos (by omega)]
    rfl
  · have hb := hbyte (0xE0 + n / 4096) (by omega)
    have hb₁ := hbyte (0x80 + n / 64 % 64) (by omega)
    have hb₂ := hbyte (0x80 + n % 64) (by omega)
    have hsum : ((0xE0 + n / 4096 - 0xE0) * 64 + (0x80 + n / 64 % 64 - 0x80)) * 64 +
        (0x80 + n % 64 - 0x80) = n := by omega
    simp only [List.cons_append, List.nil_append, decode, hb, hb₁, hb₂, hsum, hof]
    rw [if_neg (by omega), if_neg (by omega), if_neg (by omega), if_pos (by omega)]
    rfl
  · have hb := hbyte (0xF0 + n / 262144) (by omega)
    have hb₁ := hbyte (0x80 + n / 4096 % 64) (by omega)
    have hb₂ := hbyte (0x80 + n / 64 % 64) (by omega)
    have hb₃ := hbyte (0x80 + n % 64) (by omega)
    have hsum : (((0xF0 + n / 262144 - 0xF0) * 64 + (0x80 + n / 4096 % 64 - 0x80)) * 64 +
        (0x80 + n / 64 % 64 - 0x80)) * 64 + (0x80 + n % 64 - 0x80) = n := by omega
    simp only [List.cons_append, List.nil_append, decode, hb, hb₁, hb₂, hb₃, hsum, hof]
    rw [if_neg (by omega), if_neg (by omega), if_neg (by omega), if_neg (by omega)]
    rfl

/-- A text that is stored is read again. -/
theorem ofUTF8_toUTF8 (s : JSString) : ofUTF8 (toUTF8 s) = s := by
  have h : decode 0 0 (toUTF8 s) = some s := by
    induction s with
    | nil => rfl
    | cons c s ih =>
      show decode 0 0 (encode c ++ toUTF8 s) = _
      rw [decode_encode, ih]
      rfl
  rw [ofUTF8, h]
  rfl

/-- A byte as a character is cut to itself. -/
theorem deflate_inflate (s : CString) : deflate (inflate s) = s := by
  induction s with
  | nil => rfl
  | cons b s ih =>
    have hb := b.toNat_lt
    have hvalid : b.toNat.isValidChar := .inl (by omega)
    have hchar : (Char.ofNat b.toNat).toNat = b.toNat := by
      rw [Char.ofNat, dif_pos hvalid]
      rfl
    have hunits : units (Char.ofNat b.toNat) = [UInt16.ofNat b.toNat] := by
      rw [units, hchar, if_pos (by omega)]
    show deflate ([Char.ofNat b.toNat] ++ inflate s) = _
    rw [deflate_append, ih, deflate, List.flatMap_singleton, hunits]
    have hcut : (UInt16.ofNat b.toNat).toUInt8 = b := by
      apply UInt8.toNat_inj.mp
      rw [UInt16.toNat_toUInt8, UInt16.toNat_ofNat_of_lt' (Nat.lt_trans hb (by decide)),
        Nat.mod_eq_of_lt hb]
    exact congrArg (· :: s) hcut

theorem inflate_append (s u : CString) : inflate (s ++ u) = inflate s ++ inflate u :=
  List.map_append

theorem inflate_injective : Function.Injective inflate :=
  Function.LeftInverse.injective deflate_inflate

/-- What stands in front of two strings does not matter for their order. -/
theorem unitsLe_append_left (p s u : List UInt16) :
    unitsLe (p ++ s) (p ++ u) = unitsLe s u := by
  induction p with
  | nil => rfl
  | cons a p ih =>
    simp only [List.cons_append, unitsLe]
    rw [ih]
    simp

/-! ### Values of the user -/

/-- A preference that has only a value of the user. -/
def userEntry : PrefValue → PrefHashEntry
  | .stringVal s => .string ⟨false, true, none, some s⟩
  | .intVal v => .int ⟨false, true, BOGUS_DEFAULT_INT_PREF_VALUE, v⟩
  | .boolVal b => .bool ⟨false, true, BOGUS_DEFAULT_BOOL_PREF_VALUE, prBool b⟩

/-- A value that is not the number for no default value. -/
def Proper (value : PrefValue) : Prop := value ≠ .intVal BOGUS_DEFAULT_INT_PREF_VALUE

variable {t : PrefTable} {name : JSString} {key : CString} {value : PrefValue}

/-- Setting a preference that is not there. -/
theorem setPref_new (h : AList.lookup (getPrefName name) t = none) (hv : Proper value) :
    setPref t name value = (.ok, AList.insert (getPrefName name) (userEntry value) t) := by
  have hset : (PrefHashEntry.init value.type).set value false = some (userEntry value, true) := by
    cases value with
    | stringVal s => rfl
    | intVal v =>
      have hne : BOGUS_DEFAULT_INT_PREF_VALUE ≠ v := fun h => hv (congrArg _ h.symm)
      simp [PrefValue.type, PrefHashEntry.init, PrefHashEntry.set, Slot.set, wordChanged, hne,
        userEntry]
    | boolVal b => cases b <;> rfl
  rw [setPref, PrefTable.hashPref, PrefTable.entryFor, h]
  simp only [Option.getD_none, hset, if_true]

/-- Setting a text again. -/
theorem setPref_again {s u : CString}
    (h : AList.lookup (getPrefName name) t = some (userEntry (.stringVal s))) :
    setPref t name (.stringVal u) =
      (.ok, AList.insert (getPrefName name) (userEntry (.stringVal u)) t) := by
  have hset : (userEntry (.stringVal s)).set (.stringVal u) false =
      some (userEntry (.stringVal u), s != u) := by
    by_cases hsu : s = u
    · subst hsu
      simp [userEntry, PrefHashEntry.set, Slot.set, stringChanged]
    · simp [userEntry, PrefHashEntry.set, Slot.set, stringChanged, hsu]
  rw [setPref, PrefTable.hashPref, PrefTable.entryFor, h]
  simp only [Option.getD_some, hset, ite_self]

theorem getBoolPref_eq {b : Bool}
    (h : AList.lookup (getPrefName name) t = some (userEntry (.boolVal b))) :
    getBoolPref t name = .ok b := by
  rw [getBoolPref, PrefTable.PREF_GetBoolPref, h]
  cases b <;> rfl

theorem getIntPref_eq {v : PRInt32}
    (h : AList.lookup (getPrefName name) t = some (userEntry (.intVal v))) :
    getIntPref t name = .ok v := by
  rw [getIntPref, PrefTable.PREF_GetIntPref, h]
  rfl

/-- A text without a zero byte. -/
def Text (s : JSString) : Prop := 0 ∉ toUTF8 s

/-- The value that is stored for a text. -/
def text (s : JSString) : PrefValue := .stringVal (terminated (toUTF8 s))

theorem GetPublishStringPref_eq {s : JSString} (hname : name ≠ []) (hs : Text s)
    (h : AList.lookup (getPrefName name) t = some (userEntry (text s))) :
    GetPublishStringPref t name = s := by
  rw [GetPublishStringPref, if_neg hname, getComplexValue, PrefTable.PREF_CopyCharPref, h]
  show ofUTF8 (terminated (toUTF8 s)) = s
  rw [terminated_eq hs, ofUTF8_toUTF8]

/-- A preference that is not there. -/
theorem GetPublishStringPref_none (h : AList.lookup (getPrefName name) t = none) :
    GetPublishStringPref t name = [] := by
  rw [GetPublishStringPref, getComplexValue, PrefTable.PREF_CopyCharPref, h]
  split_ifs <;> rfl

theorem SetPublishStringPref_eq (hname : name ≠ []) (s : JSString) :
    SetPublishStringPref t name s = (setPref t name (text s)).2 :=
  if_neg hname

/-! ### Branches -/

theorem lookup_filter (p : CString → Bool) (t : PrefTable) (key : CString)
    (h : (t.entries.filter fun e => p e.1).NodupKeys) :
    AList.lookup key (⟨t.entries.filter fun e => p e.1, h⟩ : PrefTable) =
      if p key then AList.lookup key t else none := by
  show List.dlookup key (t.entries.filter fun e => p e.1) =
    if p key then List.dlookup key t.entries else none
  clear h
  induction t.entries with
  | nil => simp
  | cons e es ih =>
    by_cases hp : p e.1
    · rw [List.filter_cons, if_pos hp]
      by_cases hk : key = e.1
      · subst hk
        obtain ⟨k, v⟩ := e
        rw [List.dlookup_cons_eq, if_pos hp, List.dlookup_cons_eq]
      · rw [List.dlookup_cons_ne _ _ hk, List.dlookup_cons_ne _ _ hk, ih]
    · rw [List.filter_cons, if_neg hp, ih]
      split_ifs with hpk
      · have hk : key ≠ e.1 := fun hk => hp (hk ▸ hpk)
        rw [List.dlookup_cons_ne _ _ hk]
      · rfl

/-- The branch with a dot at its end. -/
def withDot (branch_name : CString) : CString :=
  if 1 < branch_name.length ∧ branch_name.getLast? ≠ some 46 then branch_name ++ [46]
  else branch_name

theorem lookup_deleteBranch (t : PrefTable) (aStartingAt : JSString) (key : CString) :
    AList.lookup key (deleteBranch t aStartingAt) =
      if deletes (withDot (getPrefName aStartingAt)) key then none else AList.lookup key t := by
  rw [deleteBranch]
  have := lookup_filter (fun k => !deletes (withDot (getPrefName aStartingAt)) k) t key
    (t.nodupKeys.sublist List.filter_sublist)
  refine this.trans ?_
  cases deletes (withDot (getPrefName aStartingAt)) key <;> rfl

theorem mem_getChildList {x : JSString} {aStartingAt : JSString} :
    x ∈ getChildList t aStartingAt ↔ ∃ key, (AList.lookup key t).isSome ∧
      getPrefName aStartingAt <+: key ∧ inflate (key.drop mPrefRoot.length) = x := by
  simp only [getChildList, List.mem_map, List.mem_filter, List.isPrefixOf_iff_prefix,
    AList.lookup_isSome, AList.mem_keys, AList.keys, List.keys, and_assoc]

end Kompozer.Publish

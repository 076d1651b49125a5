import Kompozer.Prefs.RoundTrip

/-! Reading the saved preferences over the same default values. Every preference the value that counts, but for a number equal to the one that stands for a missing default
value. -/

namespace Kompozer.Prefs

open NsResult

/-! ### Default values -/

/-- An entry with the default value and the lock of another one and no user value. -/
def Slot.SameDefault {α : Type} (e e₀ : Slot α) : Prop :=
  e₀.locked = e.locked ∧ e₀.userSet = false ∧ e₀.defaultPref = e.defaultPref

def PrefHashEntry.SameDefault : PrefHashEntry → PrefHashEntry → Prop
  | string e, string e₀ => e.SameDefault e₀
  | int e, int e₀ => e.SameDefault e₀
  | bool e, bool e₀ => e.SameDefault e₀
  | _, _ => False

/-- An entry without its user value. -/
def PrefHashEntry.unset : PrefHashEntry → PrefHashEntry
  | string e => string { e with userSet := false }
  | int e => int { e with userSet := false }
  | bool e => bool { e with userSet := false }

theorem PrefHashEntry.sameDefault_unset (e : PrefHashEntry) : e.SameDefault e.unset := by
  cases e <;> exact ⟨rfl, rfl, rfl⟩

/-- A table without its user values. -/
def PrefTable.defaults (t : PrefTable) : PrefTable where
  entries := t.entries.map fun s => ⟨s.1, s.2.unset⟩
  nodupKeys := by
    have hkeys : (t.entries.map fun s => (⟨s.1, s.2.unset⟩ : Sigma fun _ : CString =>
        PrefHashEntry)).keys = t.entries.keys := by
      simp [List.keys]
    rw [List.NodupKeys, hkeys]
    exact t.nodupKeys

/-- The table before the user's preferences are read: it has the default values and the
locks, and need not have the preferences without either. -/
structure SameDefaults (t t₀ : PrefTable) : Prop where
  known : ∀ key e, AList.lookup key t = some e →
    e.SameDefault ((AList.lookup key t₀).getD (.init e.type))
  unknown : ∀ key, AList.lookup key t = none → AList.lookup key t₀ = none

theorem SameDefaults.defaults (t : PrefTable) : SameDefaults t t.defaults := by
  have hlookup : ∀ key e, AList.lookup key t = some e →
      AList.lookup key t.defaults = some e.unset := fun key e he =>
    AList.mem_lookup_iff.mpr (List.mem_map.mpr ⟨⟨key, e⟩, AList.mem_lookup_iff.mp he, rfl⟩)
  refine ⟨fun key e he => ?_, fun key hkey => ?_⟩
  · rw [hlookup key e he]
    exact e.sameDefault_unset
  · cases he : AList.lookup key t.defaults with
    | none => rfl
    | some e =>
      obtain ⟨⟨name, e'⟩, hmem, heq⟩ := List.mem_map.mp (AList.mem_lookup_iff.mp he)
      obtain rfl : name = key := congrArg Sigma.fst heq
      have hlook : AList.lookup name t = some e' := AList.mem_lookup_iff.mpr hmem
      rw [hkey] at hlook
      exact absurd hlook (by simp)

/-- What the three getters return without the default flag. -/
def PrefTable.effective (t : PrefTable) (key : CString) :
    Except NsResult CString × Except NsResult PRInt32 × Except NsResult PRBool :=
  (t.PREF_CopyCharPref key false, t.PREF_GetIntPref key false, t.PREF_GetBoolPref key false)

/-- `PREF_ReaderCallback`, for all that was read. -/
def PREF_ReaderCallback (pref_DoCallback : CString → NsResult) (calls : List Call)
    (t : PrefTable) : PrefTable :=
  calls.foldl (fun t call => match call.val with
    | some value => (t.hashPref pref_DoCallback call.pref value call.defPref).2
    | none => t) t

/-! ### One entry -/

namespace Slot
variable {α : Type} {changed : α → α → Bool} {write : α → α} {e e₀ : Slot α}

/-- An entry with a default value after what was saved for another one was read. -/
def reloaded (changed : α → α → Bool) (write : α → α) (e e₀ : Slot α) : Slot α :=
  (e.sourcePref changed).elim e₀ fun v => (e₀.set changed (write v) false).1

/-- A user value touches neither the default value nor the lock. -/
theorem set_user (v : α) : (e.set changed v false).1.defaultPref = e.defaultPref := by
  rw [set, if_neg Bool.false_ne_true]
  split_ifs <;> rfl

/-- Where the values of an entry come from. -/
theorem set_values (changed : α → α → Bool) (e : Slot α) (v : α) (set_default : Bool) :
    ((e.set changed v set_default).1.defaultPref = e.defaultPref ∨
        (e.set changed v set_default).1.defaultPref = v) ∧
      ((e.set changed v set_default).1.userSet = true →
        (e.set changed v set_default).1.userPref = v ∨
          e.userSet = true ∧ (e.set changed v set_default).1.userPref = e.userPref) := by
  rw [set]
  split_ifs <;> simp_all

theorem reloaded_default (h : e.SameDefault e₀) :
    (reloaded changed write e e₀).locked = e.locked ∧
      (reloaded changed write e e₀).defaultPref = e.defaultPref := by
  obtain ⟨hl, -, hd⟩ := h
  rw [reloaded]
  cases e.sourcePref changed with
  | none => exact ⟨hl, hd⟩
  | some v => exact ⟨locked_set.trans hl, (set_user _).trans hd⟩

/-- The user value of an entry that is not locked is read again when it was saved. -/
theorem reloaded_unlocked (hchanged : ∀ a b, changed a b = false → a = b) (h : e.SameDefault e₀)
    (hwrite : e.userSet = true → write e.userPref = e.userPref) (hlocked : e.locked = false) :
    reloaded changed write e e₀ =
      if e.userSet && changed e.defaultPref e.userPref then
        { e₀ with userPref := e.userPref, userSet := true }
      else e₀ := by
  obtain ⟨hl, -, hd⟩ := h
  rw [reloaded, sourcePref]
  split_ifs with hs hl'
  · obtain ⟨hu, hc⟩ := Bool.and_eq_true_iff.mp hs
    rw [Option.elim_some, hwrite hu, set_unlocked hchanged (hl.trans hlocked), hd, hc]
    rfl
  · rw [hlocked] at hl'
    exact absurd hl' (by simp)
  · rfl

theorem current_reloaded (hchanged : ∀ a b, changed a b = false → a = b) (h : e.SameDefault e₀)
    (hwrite : e.userSet = true → write e.userPref = e.userPref) :
    (reloaded changed write e e₀).current false = e.current false := by
  cases hlocked : e.locked with
  | true =>
    obtain ⟨hl, hd⟩ := @reloaded_default _ changed write _ _ h
    rw [current, hl, hlocked, hd]
    simp [current, hlocked]
  | false =>
    rw [reloaded_unlocked hchanged h hwrite hlocked]
    obtain ⟨hl, hu, hd⟩ := h
    cases hs : e.userSet with
    | false => simp [current, hu, hd, hs]
    | true =>
      cases hc : changed e.defaultPref e.userPref with
      | true => simp [current, hl, hlocked, hs]
      | false => simp [current, hu, hd, hs, hlocked, hchanged _ _ hc]

end Slot

/-! ### What the getters return -/

/-- What a getter returns for a number: an error where there is no value. -/
def Slot.word (bogus : Int32) (e : Slot Int32) : Except NsResult Int32 :=
  if (e.locked || !e.userSet) && e.defaultPref = bogus then .error NS_ERROR_UNEXPECTED
  else .ok (e.current false)

/-- What a getter returns for a string. -/
def Slot.chars (e : Slot (Option CString)) : Except NsResult CString :=
  (e.current false).elim (.error NS_ERROR_UNEXPECTED) .ok

namespace PrefHashEntry

/-- What the three getters return for an entry. -/
def effective : PrefHashEntry →
    Except NsResult CString × Except NsResult PRInt32 × Except NsResult PRBool
  | string e => (e.chars, .error NS_ERROR_UNEXPECTED, .error NS_ERROR_UNEXPECTED)
  | int e =>
    (.error NS_ERROR_UNEXPECTED, e.word BOGUS_DEFAULT_INT_PREF_VALUE, .error NS_ERROR_UNEXPECTED)
  | bool e =>
    (.error NS_ERROR_UNEXPECTED, .error NS_ERROR_UNEXPECTED, e.word BOGUS_DEFAULT_BOOL_PREF_VALUE)

theorem effective_init (type : PrefType) : (init type).effective =
    (.error NS_ERROR_UNEXPECTED, .error NS_ERROR_UNEXPECTED, .error NS_ERROR_UNEXPECTED) := by
  cases type <;> rfl

/-- No preference is as good as one without any value. -/
theorem effective_getD {t : PrefTable} {key : CString} (type : PrefType) :
    t.effective key = ((AList.lookup key t).getD (init type)).effective := by
  rw [PrefTable.effective, PrefTable.PREF_CopyCharPref, PrefTable.PREF_GetIntPref,
    PrefTable.PREF_GetBoolPref]
  cases AList.lookup key t with
  | none => rw [Option.getD_none, effective_init]
  | some e =>
    rw [Option.getD_some]
    cases e with
    | string e =>
      rw [effective, Slot.chars]
      dsimp only
      cases e.current false <;> rfl
    | int e =>
      rw [effective, Slot.word]
      dsimp only
      by_cases hb : e.defaultPref = BOGUS_DEFAULT_INT_PREF_VALUE
      · cases hl : e.locked <;> cases hu : e.userSet <;> simp [Slot.current, hl, hu, hb]
      · cases hl : e.locked <;> cases hu : e.userSet <;> simp [Slot.current, hl, hu, hb]
    | bool e =>
      rw [effective, Slot.word]
      dsimp only
      by_cases hb : e.defaultPref = BOGUS_DEFAULT_BOOL_PREF_VALUE
      · cases hl : e.locked <;> cases hu : e.userSet <;> simp [Slot.current, hl, hu, hb]
      · cases hl : e.locked <;> cases hu : e.userSet <;> simp [Slot.current, hl, hu, hb]

/-! ### Reading an entry again -/

/-- Strings have no zero in them, a user's string is not null, and a `PRBool` is true or
false, or says that there is no default value. -/
def Proper : PrefHashEntry → Prop
  | string e => (∀ s, e.defaultPref = some s → 0 ∉ s) ∧
      (e.userSet = true → ∃ s, e.userPref = some s ∧ 0 ∉ s)
  | int _ => True
  | bool e => (e.defaultPref = BOGUS_DEFAULT_BOOL_PREF_VALUE ∨ ∃ b, e.defaultPref = prBool b) ∧
      (e.userSet = true → ∃ b, e.userPref = prBool b)

/-- A proper value that is set leaves an entry proper. -/
theorem Proper.set {e : PrefHashEntry} (he : e.Proper) {value : PrefValue} (hvalue : value.NulFree)
    {set_default : Bool} {r : PrefHashEntry × Bool} (h : e.set value set_default = some r) :
    r.1.Proper := by
  cases e with
  | string e =>
    cases value with
    | stringVal s =>
      obtain ⟨hd, hu⟩ := Slot.set_values stringChanged e (some s) set_default
      obtain rfl := Option.some.inj h
      refine ⟨fun x hx => ?_, fun hset => ?_⟩
      · rcases hd with hd | hd
        · exact he.1 x (hd ▸ hx)
        · rw [hd] at hx
          exact Option.some.inj hx ▸ hvalue
      · rcases hu hset with hu | ⟨hset, hu⟩
        · exact ⟨s, hu, hvalue⟩
        · rw [hu]
          exact he.2 hset
    | intVal v => cases h
    | boolVal b => cases h
  | int e =>
    cases value with
    | stringVal s => cases h
    | intVal v =>
      obtain rfl := Option.some.inj h
      trivial
    | boolVal b => cases h
  | bool e =>
    cases value with
    | stringVal s => cases h
    | intVal v => cases h
    | boolVal b =>
      obtain ⟨hd, hu⟩ := Slot.set_values wordChanged e (prBool b) set_default
      obtain rfl := Option.some.inj h
      refine ⟨?_, fun hset => ?_⟩
      · rcases hd with hd | hd
        · rw [hd]
          exact he.1
        · exact .inr ⟨b, hd⟩
      · rcases hu hset with hu | ⟨hset, hu⟩
        · exact ⟨b, hu⟩
        · rw [hu]
          exact he.2 hset

/-- A user value equal to a default value that looks as if there were none. -/
def Bogus : PrefHashEntry → Prop
  | int e => e.locked = false ∧ e.userSet = true ∧ e.userPref = BOGUS_DEFAULT_INT_PREF_VALUE ∧
      e.defaultPref = BOGUS_DEFAULT_INT_PREF_VALUE
  | _ => False

theorem type_of_saved {e : PrefHashEntry} {v : PrefValue} (h : e.saved = some v) :
    v.type = e.type := by
  cases e with
  | string e =>
    obtain ⟨s, -, rfl⟩ := Option.map_eq_some_iff.mp h
    rfl
  | int e =>
    obtain ⟨w, -, rfl⟩ := Option.map_eq_some_iff.mp h
    rfl
  | bool e =>
    obtain ⟨b, -, rfl⟩ := Option.map_eq_some_iff.mp h
    rfl

theorem SameDefault.type_eq {e e₀ : PrefHashEntry} (h : e.SameDefault e₀) : e₀.type = e.type := by
  cases e <;> cases e₀ <;> first | rfl | exact h.elim

/-- An entry with a default value after what was saved for another one was read. -/
def reloaded (e e₀ : PrefHashEntry) : PrefHashEntry :=
  e.saved.elim e₀ fun v => ((e₀.set v false).map Prod.fst).getD e₀

end PrefHashEntry

/-- The number that counts is the same again, or it was taken for a missing one. -/
theorem Slot.word_reloaded {write : Int32 → Int32} {e e₀ : Slot Int32} (bogus : Int32)
    (h : e.SameDefault e₀) (hwrite : e.userSet = true → write e.userPref = e.userPref) :
    (reloaded wordChanged write e e₀).word bogus = e.word bogus ↔
      ¬ (e.locked = false ∧ e.userSet = true ∧ e.userPref = bogus ∧ e.defaultPref = bogus) := by
  have hchanged : ∀ a b, wordChanged a b = false → a = b := fun a b => wordChanged_eq_false.mp
  have hcurrent := current_reloaded hchanged h hwrite
  obtain ⟨hl, hd⟩ := @reloaded_default _ wordChanged write _ _ h
  rw [word, word, hcurrent, hl, hd]
  cases hlocked : e.locked with
  | true => simp
  | false =>
    rw [reloaded_unlocked hchanged h hwrite hlocked]
    cases hs : e.userSet with
    | false => simp [h.2.1]
    | true =>
      cases hc : wordChanged e.defaultPref e.userPref with
      | true =>
        have hne : e.defaultPref ≠ e.userPref := by
          intro heq
          rw [wordChanged_eq_false.mpr heq] at hc
          exact absurd hc (by simp)
        simp only [Bool.and_self, if_true, Bool.not_true, Bool.or_self, Bool.false_and,
          Bool.false_eq_true, if_false, true_iff, not_and]
        exact fun _ _ hu hd => hne (hd.trans hu.symm)
      | false =>
        have heq : e.defaultPref = e.userPref := hchanged _ _ hc
        by_cases hb : e.defaultPref = bogus
        · simp [h.2.1, hb, ← heq]
        · simp [h.2.1, hb, ← heq]

namespace PrefHashEntry

/-- What counts is the same again. -/
theorem effective_reloaded {e e₀ : PrefHashEntry} (h : e.SameDefault e₀) (he : e.Proper) :
    (e.reloaded e₀).effective = e.effective ↔ ¬ e.Bogus := by
  cases e with
  | string e =>
    cases e₀ with
    | string e₀ =>
      have hre : (string e).reloaded (string e₀) =
          string (Slot.reloaded stringChanged (fun s => some (s.getD [])) e e₀) := by
        rw [reloaded, saved, Slot.reloaded]
        cases e.sourcePref stringChanged <;> rfl
      have hwrite : e.userSet = true → some (e.userPref.getD []) = e.userPref := by
        intro hu
        obtain ⟨s, hs, -⟩ := he.2 hu
        rw [hs]
        rfl
      have hcurrent := @Slot.current_reloaded _ _ (fun s => some (s.getD [])) e e₀
        (fun a b => stringChanged_eq_false) h hwrite
      rw [hre, effective, effective, Slot.chars, hcurrent]
      simp [Bogus, Slot.chars]
    | int e₀ => exact h.elim
    | bool e₀ => exact h.elim
  | int e =>
    cases e₀ with
    | string e₀ => exact h.elim
    | int e₀ =>
      have hre : (int e).reloaded (int e₀) = int (Slot.reloaded wordChanged id e e₀) := by
        rw [reloaded, saved, Slot.reloaded]
        cases e.sourcePref wordChanged <;> rfl
      rw [hre, effective, effective, Prod.mk.injEq, Prod.mk.injEq,
        Slot.word_reloaded _ h fun _ => rfl]
      simp [Bogus]
    | bool e₀ => exact h.elim
  | bool e =>
    cases e₀ with
    | string e₀ => exact h.elim
    | int e₀ => exact h.elim
    | bool e₀ =>
      have hre : (bool e).reloaded (bool e₀) =
          bool (Slot.reloaded wordChanged (fun b => prBool (b ≠ PR_FALSE)) e e₀) := by
        rw [reloaded, saved, Slot.reloaded]
        cases e.sourcePref wordChanged <;> rfl
      have hwrite : e.userSet = true →
          prBool (decide (e.userPref ≠ PR_FALSE)) = e.userPref := by
        intro hu
        obtain ⟨b, hb⟩ := he.2 hu
        rw [hb]
        cases b <;> rfl
      rw [hre, effective, effective, Prod.mk.injEq, Prod.mk.injEq,
        @Slot.word_reloaded (fun b => prBool (b ≠ PR_FALSE)) e e₀ _ h hwrite]
      have hbogus : ¬ (e.userSet = true ∧ e.userPref = BOGUS_DEFAULT_BOOL_PREF_VALUE) := by
        rintro ⟨hu, hb⟩
        obtain ⟨b, hb'⟩ := he.2 hu
        rw [hb'] at hb
        cases b <;> exact absurd hb (by decide)
      simp only [true_and, Bogus, not_false_eq_true, iff_true]
      tauto

end PrefHashEntry

/-! ### The table -/

namespace PrefTable
variable {t t₀ : PrefTable} {key : CString} {notify : CString → NsResult}

theorem mem_savedPrefs {v : PrefValue} :
    (key, v) ∈ t.savedPrefs ↔ ∃ e, AList.lookup key t = some e ∧ e.saved = some v := by
  rw [savedPrefs, List.mem_filterMap]
  constructor
  · rintro ⟨⟨name, e⟩, hmem, hsaved⟩
    obtain ⟨v', hv', heq⟩ := Option.map_eq_some_iff.mp hsaved
    obtain ⟨rfl, rfl⟩ := Prod.mk.inj heq
    exact ⟨e, AList.mem_lookup_iff.mpr hmem, hv'⟩
  · rintro ⟨e, hlookup, hsaved⟩
    exact ⟨⟨key, e⟩, AList.mem_lookup_iff.mp hlookup, by simp [hsaved]⟩

/-- No preference is saved twice. -/
theorem nodup_savedPrefs : (t.savedPrefs.map Prod.fst).Nodup := by
  refine List.Sublist.nodup ?_ t.nodupKeys
  rw [savedPrefs, List.keys]
  induction t.entries with
  | nil => simp
  | cons s l ih =>
    rw [List.filterMap_cons]
    cases s.2.saved with
    | none => exact ih.cons _
    | some v => exact ih.cons_cons _

theorem lookup_hashPref_congr {value : PrefValue} {set_default : Bool}
    (h : AList.lookup key t = AList.lookup key t₀) :
    AList.lookup key (t.hashPref notify key value set_default).2 =
      AList.lookup key (t₀.hashPref notify key value set_default).2 := by
  have hentry : t.entryFor key value = t₀.entryFor key value := by rw [entryFor, entryFor, h]
  rw [hashPref, hashPref, hentry]
  cases (t₀.entryFor key value).set value set_default with
  | none => exact h
  | some r => rw [AList.lookup_insert, AList.lookup_insert]

/-- Other preferences are not touched by what is read. -/
theorem lookup_readerCallback_of_not_mem {l : List (CString × PrefValue)}
    (h : key ∉ l.map Prod.fst) :
    AList.lookup key (PREF_ReaderCallback notify (l.map savedCall) t) = AList.lookup key t := by
  induction l generalizing t with
  | nil => rfl
  | cons s l ih =>
    rw [List.map_cons, List.mem_cons, not_or] at h
    rw [List.map_cons, PREF_ReaderCallback, List.foldl_cons]
    exact (ih h.2).trans (lookup_hashPref_ne h.1)

/-- A preference is set once by what is read. -/
theorem lookup_readerCallback_of_mem {l : List (CString × PrefValue)} {v : PrefValue}
    (hnodup : (l.map Prod.fst).Nodup) (h : (key, v) ∈ l) :
    AList.lookup key (PREF_ReaderCallback notify (l.map savedCall) t) =
      AList.lookup key (t.hashPref notify key v false).2 := by
  induction l generalizing t with
  | nil => exact absurd h (List.not_mem_nil)
  | cons s l ih =>
    rw [List.map_cons, List.nodup_cons] at hnodup
    rw [List.map_cons, PREF_ReaderCallback, List.foldl_cons]
    rcases List.mem_cons.mp h with rfl | hmem
    · exact lookup_readerCallback_of_not_mem hnodup.1
    · have hne : key ≠ s.1 := by
        rintro rfl
        exact hnodup.1 (List.mem_map.mpr ⟨(s.1, v), hmem, rfl⟩)
      refine (ih hnodup.2 hmem).trans (lookup_hashPref_congr ?_)
      exact lookup_hashPref_ne hne

/-- Each entry is read into one with its default value. -/
theorem lookup_reload (ht : SameDefaults t t₀) {e : PrefHashEntry}
    (h : AList.lookup key t = some e) :
    (AList.lookup key (PREF_ReaderCallback notify (t.sortedPrefs.map savedCall) t₀)).getD
        (.init e.type) = e.reloaded ((AList.lookup key t₀).getD (.init e.type)) := by
  have hperm : t.sortedPrefs.Perm t.savedPrefs := List.mergeSort_perm _ _
  have hnodup : (t.sortedPrefs.map Prod.fst).Nodup :=
    ((hperm.map Prod.fst).nodup_iff).mpr nodup_savedPrefs
  rw [PrefHashEntry.reloaded]
  cases hs : e.saved with
  | none =>
    have hnot : key ∉ t.sortedPrefs.map Prod.fst := by
      rintro hmem
      obtain ⟨⟨name, v⟩, hv, rfl⟩ := List.mem_map.mp hmem
      obtain ⟨e', he', hs'⟩ := mem_savedPrefs.mp (hperm.mem_iff.mp hv)
      rw [h] at he'
      rw [Option.some.inj he', hs'] at hs
      exact absurd hs (by simp)
    rw [lookup_readerCallback_of_not_mem hnot]
    rfl
  | some v =>
    have hmem : (key, v) ∈ t.sortedPrefs := hperm.mem_iff.mpr (mem_savedPrefs.mpr ⟨e, h, hs⟩)
    have htype : v.type = e.type := PrefHashEntry.type_of_saved hs
    have hentry : t₀.entryFor key v = (AList.lookup key t₀).getD (.init e.type) := by
      rw [entryFor, htype]
    have hset : (t₀.entryFor key v).set v false ≠ none := by
      rw [Ne, set_eq_none_iff, not_not, hentry, htype]
      exact (ht.known key e h).type_eq
    rw [lookup_readerCallback_of_mem hnodup hmem, hashPref, ← hentry]
    cases hr : (t₀.entryFor key v).set v false with
    | none => exact absurd hr hset
    | some r =>
      dsimp only
      rw [AList.lookup_insert, Option.elim_some, hr]
      rfl

/-- Every entry is proper and every name a string. -/
def Proper (t : PrefTable) : Prop :=
  ∀ key e, AList.lookup key t = some e → 0 ∉ key ∧ e.Proper

theorem Proper.nulFree (ht : t.Proper) {s : CString × PrefValue} (hs : s ∈ t.savedPrefs) :
    0 ∉ s.1 ∧ s.2.NulFree := by
  obtain ⟨e, he, hsaved⟩ := mem_savedPrefs.mp hs
  obtain ⟨hkey, hproper⟩ := ht s.1 e he
  refine ⟨hkey, ?_⟩
  cases e with
  | string e =>
    obtain ⟨o, ho, hv⟩ := Option.map_eq_some_iff.mp hsaved
    rw [← hv]
    rw [Slot.sourcePref] at ho
    split_ifs at ho with hu
    · obtain ⟨x, hx, hzero⟩ := hproper.2 (Bool.and_eq_true_iff.mp hu).1
      rw [← Option.some.inj ho, hx]
      exact hzero
    · rw [← Option.some.inj ho]
      cases hd : e.defaultPref with
      | none => exact List.not_mem_nil
      | some x => exact hproper.1 x hd
  | int e =>
    obtain ⟨w, -, hv⟩ := Option.map_eq_some_iff.mp hsaved
    rw [← hv]
    trivial
  | bool e =>
    obtain ⟨b, -, hv⟩ := Option.map_eq_some_iff.mp hsaved
    rw [← hv]
    trivial

/-- Setting a preference keeps a table proper. -/
theorem Proper.hashPref (ht : t.Proper) (hkey : 0 ∉ key) {value : PrefValue}
    (hvalue : value.NulFree) (set_default : Bool) :
    (t.hashPref notify key value set_default).2.Proper := by
  have hentry : (t.entryFor key value).Proper := by
    rw [entryFor]
    cases he : AList.lookup key t with
    | none => cases value <;> simp [PrefValue.type, PrefHashEntry.init, PrefHashEntry.Proper]
    | some e => exact (ht key e he).2
  rw [PrefTable.hashPref]
  cases hr : (t.entryFor key value).set value set_default with
  | none => exact ht
  | some r =>
    intro other e he
    dsimp only at he
    by_cases hother : other = key
    · subst hother
      rw [AList.lookup_insert, Option.some.injEq] at he
      subst he
      exact ⟨hkey, hentry.set hvalue hr⟩
    · rw [AList.lookup_insert_ne hother] at he
      exact ht other e he

end PrefTable

/-! ### Saving and reading again -/

/-- What saving and reading should be like: however the file is cut into buffers, it is read
without an error, the reader is called once for each preference that was saved, with its
name, type and value, and over the same default values every preference is what it was. -/
structure RoundTrip (NS_LINEBREAK : LineBreak) (t : PrefTable) : Prop where
  read : ∀ bufs, bufs.flatten = WritePrefFile NS_LINEBREAK t →
    (openPrefFile bufs PREF_InitParseState).1 = true ∧
      (openPrefFile bufs PREF_InitParseState).2.2.Perm (t.savedPrefs.map savedCall)
  effective : ∀ bufs, bufs.flatten = WritePrefFile NS_LINEBREAK t →
    ∀ notify t₀, SameDefaults t t₀ → ∀ key,
      (PREF_ReaderCallback notify (openPrefFile bufs PREF_InitParseState).2.2 t₀).effective key =
        t.effective key

namespace RoundTrip
variable (NS_LINEBREAK : LineBreak) {t : PrefTable}

/-- What is read back from the buffers of a file. -/
theorem openPrefFile_WritePrefFile (ht : t.Proper) {bufs : List (List UInt8)}
    (hbufs : bufs.flatten = WritePrefFile NS_LINEBREAK t) :
    (openPrefFile bufs PREF_InitParseState).1 = true ∧
      (openPrefFile bufs PREF_InitParseState).2.2 = t.sortedPrefs.map savedCall := by
  obtain ⟨hok, hcalls⟩ := PREF_ParseBuf_WritePrefFile NS_LINEBREAK (t := t) fun s hs => ht.nulFree hs
  rw [← hbufs] at hok hcalls
  obtain ⟨hok', hcalls'⟩ := openPrefFile_eq PREF_InitParseState bufs
  rw [strayCalls_wellFormed _ hok, List.append_nil] at hcalls'
  exact ⟨hok'.trans hok, hcalls'.trans hcalls⟩

/-- A preference is what it was unless its number was taken for a missing one. -/
theorem effective_iff (ht : t.Proper) {bufs : List (List UInt8)}
    (hbufs : bufs.flatten = WritePrefFile NS_LINEBREAK t) {notify : CString → NsResult}
    {t₀ : PrefTable} (h₀ : SameDefaults t t₀) {key : CString} {e : PrefHashEntry}
    (he : AList.lookup key t = some e) :
    (PREF_ReaderCallback notify (openPrefFile bufs PREF_InitParseState).2.2 t₀).effective key =
      t.effective key ↔ ¬ e.Bogus := by
  obtain ⟨-, hcalls⟩ := openPrefFile_WritePrefFile NS_LINEBREAK ht hbufs
  rw [hcalls, PrefHashEntry.effective_getD e.type, PrefTable.lookup_reload h₀ he,
    PrefHashEntry.effective_getD (t := t) e.type, he, Option.getD_some]
  exact PrefHashEntry.effective_reloaded (h₀.known key e he) (ht key e he).2

/-- A number that was taken for a missing one is lost. -/
theorem not_bogus (ht : t.Proper) (h : RoundTrip NS_LINEBREAK t) {key : CString}
    {e : PrefHashEntry} (he : AList.lookup key t = some e) : ¬ e.Bogus := by
  have hbufs : [WritePrefFile NS_LINEBREAK t].flatten = WritePrefFile NS_LINEBREAK t := by simp
  exact (effective_iff NS_LINEBREAK ht hbufs (.defaults t) he).mp
    (h.effective _ hbufs (fun _ => .ok) _ (.defaults t) key)

end RoundTrip

/-- Saving and reading gives everything back exactly when no user's number is taken for a
missing default value. -/
theorem roundTrip_iff (NS_LINEBREAK : LineBreak) {t : PrefTable} (ht : t.Proper) :
    RoundTrip NS_LINEBREAK t ↔ ∀ key e, AList.lookup key t = some e → ¬ e.Bogus := by
  constructor
  · intro h key e he
    exact h.not_bogus NS_LINEBREAK ht he
  · intro h
    refine ⟨fun bufs hbufs => ?_, fun bufs hbufs notify t₀ h₀ key => ?_⟩
    · obtain ⟨hok, hcalls⟩ := RoundTrip.openPrefFile_WritePrefFile NS_LINEBREAK ht hbufs
      rw [hcalls]
      exact ⟨hok, (List.mergeSort_perm _ _).map _⟩
    · cases he : AList.lookup key t with
      | some e => exact (RoundTrip.effective_iff NS_LINEBREAK ht hbufs h₀ he).mpr (h key e he)
      | none =>
        have hnot : key ∉ t.sortedPrefs.map Prod.fst := by
          intro hmem
          obtain ⟨⟨name, v⟩, hv, rfl⟩ := List.mem_map.mp hmem
          obtain ⟨e, he', -⟩ := PrefTable.mem_savedPrefs.mp
            ((List.mergeSort_perm _ _).mem_iff.mp hv)
          rw [he] at he'
          exact absurd he' (by simp)
        obtain ⟨-, hcalls⟩ := RoundTrip.openPrefFile_WritePrefFile NS_LINEBREAK ht hbufs
        rw [hcalls, PrefHashEntry.effective_getD .int,
          PrefTable.lookup_readerCallback_of_not_mem hnot, h₀.unknown key he,
          PrefHashEntry.effective_getD (t := t) .int, he]

/-- A table with a preference of each type, set by the user. -/
def sampleTable : PrefTable :=
  ⟨[⟨ascii "a", .string ⟨false, true, none, some [dquote, backslash, CR, LF, 200]⟩⟩,
    ⟨ascii "b", .int ⟨false, true, 7, -2147483648⟩⟩,
    ⟨ascii "c", .bool ⟨false, true, PR_FALSE, PR_TRUE⟩⟩], by
    show List.Nodup _
    decide⟩

theorem roundTrip_sampleTable : RoundTrip .lf sampleTable := by
  have hall : ∀ key e, AList.lookup key sampleTable = some e →
      (0 ∉ key ∧ e.Proper) ∧ ¬ e.Bogus := by
    intro key e he
    have hmem := AList.mem_lookup_iff.mp he
    simp only [sampleTable, List.mem_cons, List.not_mem_nil, or_false, Sigma.mk.injEq] at hmem
    rcases hmem with ⟨rfl, rfl⟩ | ⟨rfl, rfl⟩ | ⟨rfl, rfl⟩
    · exact ⟨⟨by decide, And.intro (fun _ h => by cases h) fun _ => ⟨_, rfl, by decide⟩⟩, id⟩
    · exact ⟨⟨by decide, trivial⟩, fun h => absurd h.2.2.1 (by decide)⟩
    · exact ⟨⟨by decide, And.intro (.inr ⟨false, rfl⟩) fun _ => ⟨true, rfl⟩⟩, id⟩
  exact (roundTrip_iff .lf fun key e he => (hall key e he).1).mpr fun key e he => (hall key e he).2

/-- A number set by the user, and then as the default value too. -/
def bogusTable : PrefTable :=
  let notify := fun _ => .ok
  let t := (PrefTable.PREF_SetIntPref notify (ascii "a") 5 true ∅).2
  let t := (PrefTable.PREF_SetIntPref notify (ascii "a") (-5632) false t).2
  (PrefTable.PREF_SetIntPref notify (ascii "a") (-5632) true t).2

theorem not_roundTrip_bogusTable : ¬ RoundTrip .lf bogusTable := by
  have hproper : bogusTable.Proper := by
    have hempty : PrefTable.Proper ∅ := fun key e he => by cases he
    have hkey : 0 ∉ ascii "a" := by decide
    have hint : ∀ v, PrefValue.NulFree (.intVal v) := fun _ => trivial
    exact ((hempty.hashPref hkey (hint 5) true).hashPref hkey (hint (-5632)) false).hashPref hkey
      (hint (-5632)) true
  have hlookup : AList.lookup (ascii "a") bogusTable = some (.int ⟨false, true, -5632, -5632⟩) := by
    decide
  intro h
  exact h.not_bogus .lf hproper hlookup ⟨rfl, rfl, rfl, rfl⟩

end Kompozer.Prefs

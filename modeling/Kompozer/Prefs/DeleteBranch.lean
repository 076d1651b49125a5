import Kompozer.Prefs.Table
import Mathlib.Data.List.Infix

/-! Deleting a branch of the preferences (`prefapi.cpp`): the enumeration of the table, and which
names are gone afterwards. -/

namespace Kompozer.Prefs

open NsResult

/-- The global variables that deleting touches. There is no table before it is made. -/
structure PrefStore where
  gHashTable : Option PrefTable
  gDirty : Bool

/-- `PL_strncmp`: so many characters are compared, up to the end of a string. -/
def PL_strncmp : CString → CString → ℕ → Ordering
  | _, _, 0 => .eq
  | [], [], _ + 1 => .eq
  | [], _ :: _, _ + 1 => .lt
  | _ :: _, [], _ + 1 => .gt
  | a :: s, b :: t, n + 1 => if a = b then PL_strncmp s t n else compare a b

/-- Whether `pref_DeleteItem` has the entry of a name removed. -/
def pref_DeleteItem (key to_delete : CString) : Bool :=
  let len : ℤ := to_delete.length
  -- "ldap" deletes "ldap.xxx" and "ldap", but not "ldap_1.xxx"
  PL_strncmp key to_delete len.toNat = .eq ∨
    (len - 1 = key.length ∧ PL_strncmp key to_delete (len - 1).toNat = .eq)

namespace PrefTable

/-- The loop of `PL_DHashTableEnumerate`, with an enumerator that has entries removed. -/
def enumerateLoop (etor : CString → Bool) : List CString → PrefTable → PrefTable
  | [], t => t
  | key :: keys, t => enumerateLoop etor keys (if etor key then AList.erase key t else t)

def enumerate (etor : CString → Bool) (t : PrefTable) : PrefTable :=
  enumerateLoop etor t.keys t

theorem lookup_enumerateLoop (etor : CString → Bool) (keys : List CString) (t : PrefTable)
    (key : CString) : (enumerateLoop etor keys t).lookup key =
      if key ∈ keys ∧ etor key = true then none else t.lookup key := by
  induction keys generalizing t with
  | nil => rw [enumerateLoop, if_neg (by simp)]
  | cons k keys ih =>
    rw [enumerateLoop, ih]
    by_cases hk : key = k
    · subst hk
      by_cases he : etor key = true <;> simp [he]
    · have hkeep : (if etor k then AList.erase k t else t).lookup key = t.lookup key := by
        split_ifs
        · exact AList.lookup_erase_ne hk
        · rfl
      simp only [hkeep, List.mem_cons, hk, false_or]

theorem lookup_enumerate (etor : CString → Bool) (t : PrefTable) (key : CString) :
    (t.enumerate etor).lookup key = if etor key = true then none else t.lookup key := by
  rw [enumerate, lookup_enumerateLoop]
  by_cases hk : key ∈ t.keys
  · simp only [hk, true_and]
  · rw [if_neg (fun h => hk h.1), AList.lookup_eq_none.mpr hk, ite_self]

end PrefTable

/-- The name that `PREF_DeleteBranch` compares with. -/
def branch_dot (branch_name : CString) : CString :=
  let len := branch_name.length
  if 1 < len ∧ branch_name.getLast? ≠ some 46 then branch_name ++ [46] else branch_name

def PREF_DeleteBranch (branch_name : CString) (s : PrefStore) : NsResult × PrefStore :=
  match s.gHashTable with
  | none => (NS_ERROR_NOT_INITIALIZED, s)
  | some gHashTable =>
    (.ok, ⟨some (gHashTable.enumerate fun key => pref_DeleteItem key (branch_dot branch_name)),
      true⟩)

/-! ### What is deleted -/

/-- A name is the branch itself or below it. -/
def InBranch (branch key : CString) : Prop := key = branch ∨ (branch ++ [46]) <+: key

instance (branch key : CString) : Decidable (InBranch branch key) :=
  inferInstanceAs (Decidable (_ ∨ _))

/-- The branch of a name that is given with or without its dot. -/
def branchOf (branch_name : CString) : CString :=
  if branch_name.getLast? = some 46 then branch_name.dropLast else branch_name

theorem PL_strncmp_eq {s t : CString} {n : ℕ} :
    PL_strncmp s t n = .eq ↔ s.take n = t.take n := by
  induction n generalizing s t with
  | zero => simp [PL_strncmp]
  | succ n ih =>
    cases s with
    | nil => cases t <;> simp [PL_strncmp]
    | cons a s =>
      cases t with
      | nil => simp [PL_strncmp]
      | cons b t =>
        rw [PL_strncmp, List.take_succ_cons, List.take_succ_cons, List.cons.injEq]
        split_ifs with h
        · rw [ih]
          exact ⟨fun ht => ⟨h, ht⟩, And.right⟩
        · exact ⟨fun hc => absurd (Std.LawfulEqCmp.eq_of_compare hc) h, fun ht => absurd ht.1 h⟩

/-- The first comparison is with all of the name, the second with all but its last character. -/
theorem pref_DeleteItem_iff {key to_delete : CString} :
    pref_DeleteItem key to_delete = true ↔ to_delete <+: key ∨ key = to_delete.dropLast := by
  have hall : PL_strncmp key to_delete to_delete.length = .eq ↔ to_delete <+: key := by
    rw [PL_strncmp_eq, List.take_length, List.prefix_iff_eq_take]
    exact eq_comm
  simp only [pref_DeleteItem, decide_eq_true_eq, Int.toNat_natCast, hall]
  cases to_delete with
  | nil => simp
  | cons b s =>
    have hlen : ((b :: s).length : ℤ) - 1 = (s.length : ℤ) := by simp
    rw [hlen, Int.toNat_natCast, PL_strncmp_eq, List.dropLast_eq_take]
    refine or_congr_right ⟨fun ⟨h, ht⟩ => ?_, fun h => ?_⟩
    · have hkey : s.length = key.length := Int.ofNat_inj.mp h
      rwa [hkey, List.take_length, ← hkey] at ht
    · rw [h]
      simp

theorem branch_dot_eq {branch_name : CString}
    (h : 2 ≤ branch_name.length ∨ branch_name = [46]) :
    branch_dot branch_name = branchOf branch_name ++ [46] := by
  rw [branch_dot, branchOf]
  by_cases hdot : branch_name.getLast? = some 46
  · rw [if_neg (fun h => h.2 hdot), if_pos hdot]
    exact (List.dropLast_append_getLast? 46 hdot).symm
  · rcases h with h | rfl
    · rw [if_pos ⟨h, hdot⟩, if_neg hdot]
    · exact absurd rfl hdot

theorem pref_DeleteItem_branch {branch_name : CString}
    (h : 2 ≤ branch_name.length ∨ branch_name = [46]) (key : CString) :
    pref_DeleteItem key (branch_dot branch_name) = true ↔ InBranch (branchOf branch_name) key := by
  rw [pref_DeleteItem_iff, branch_dot_eq h, List.dropLast_concat]
  exact or_comm

/-- Deleting a branch removes it and what is below it, with or without its dot, and nothing else.
The empty name is the root, with which everything goes. -/
theorem PREF_DeleteBranch_exact (branch_name : CString) (t : PrefTable) (gDirty : Bool) :
    ((2 ≤ branch_name.length ∨ branch_name = [46]) →
      ∃ t', PREF_DeleteBranch branch_name ⟨some t, gDirty⟩ = (.ok, ⟨some t', true⟩) ∧
        ∀ key, t'.lookup key =
          if InBranch (branchOf branch_name) key then none else t.lookup key) ∧
    (2 ≤ branch_name.length → branch_name.getLast? ≠ some 46 → ∀ s,
      PREF_DeleteBranch (branch_name ++ [46]) s = PREF_DeleteBranch branch_name s) ∧
    (branch_name = [] →
      ∃ t', PREF_DeleteBranch branch_name ⟨some t, gDirty⟩ = (.ok, ⟨some t', true⟩) ∧
        ∀ key, t'.lookup key = none) := by
  refine ⟨fun h => ⟨_, rfl, fun key => ?_⟩, fun hlen hdot s => ?_, ?_⟩
  · rw [PrefTable.lookup_enumerate]
    exact if_congr (pref_DeleteItem_branch h key) rfl rfl
  · have hsame : branch_dot (branch_name ++ [46]) = branch_dot branch_name := by
      rw [branch_dot_eq (.inl hlen), branch_dot_eq (.inl (by simp; omega)), branchOf, branchOf,
        if_neg hdot, if_pos List.getLast?_concat, List.dropLast_concat]
    rw [PREF_DeleteBranch, PREF_DeleteBranch, hsame]
  · rintro rfl
    refine ⟨_, rfl, fun key => ?_⟩
    rw [PrefTable.lookup_enumerate]
    exact if_pos (pref_DeleteItem_iff.mpr (.inl List.nil_prefix))

/-- A table with these names. -/
def namesTable (keys : List CString) : PrefTable :=
  keys.foldr (fun key t => AList.insert key (.init .bool) t) ∅

/-- Of `ab`, `ab.c` and `ab_1`, deleting `ab` leaves the last. -/
theorem PREF_DeleteBranch_sample : ∃ t',
    PREF_DeleteBranch [97, 98] ⟨some (namesTable [[97, 98], [97, 98, 46, 99], [97, 98, 95, 49]]),
      false⟩ = (.ok, ⟨some t', true⟩) ∧
    t'.lookup [97, 98] = none ∧ t'.lookup [97, 98, 46, 99] = none ∧
      (t'.lookup [97, 98, 95, 49]).isSome := by
  obtain ⟨t', hrun, hlook⟩ := (PREF_DeleteBranch_exact [97, 98]
    (namesTable [[97, 98], [97, 98, 46, 99], [97, 98, 95, 49]]) false).1 (.inl (by decide))
  refine ⟨t', hrun, ?_, ?_, ?_⟩ <;> rw [hlook] <;> decide

/-- Without a name a preference goes that is neither the branch nor below it, and with the name
`a` one that only starts with this letter. -/
theorem PREF_DeleteBranch_short :
    ((PREF_DeleteBranch [] ⟨some (namesTable [[98]]), false⟩).2.gHashTable.bind
        (AList.lookup [98])).isNone ∧ ¬ InBranch (branchOf []) [98] ∧
      (namesTable [[98]]).lookup [98] ≠ none ∧
    ((PREF_DeleteBranch [97] ⟨some (namesTable [[97, 98]]), false⟩).2.gHashTable.bind
        (AList.lookup [97, 98])).isNone ∧ ¬ InBranch (branchOf [97]) [97, 98] ∧
      (namesTable [[97, 98]]).lookup [97, 98] ≠ none := by
  decide

end Kompozer.Prefs

import Kompozer.Publish.Reading

/-! Deleting branches, and the list of the names of the sites. -/

namespace Kompozer.Publish

open Prefs NsResult

variable {t : PrefTable} {sites : List PublishData} {names : List JSString} {s : PublishData}

/-! ### Deleting -/

theorem deletes_of_begins {branch key : CString} (h : branch <+: key) : deletes branch key = true := by
  rw [deletes, Bool.or_eq_true, List.isPrefixOf_iff_prefix]
  exact .inl h

/-- A branch ends with a dot. -/
theorem withDot_snoc (branch : CString) : withDot (branch ++ [46]) = branch ++ [46] := by
  rw [withDot, if_neg]
  simp

theorem names_branch : withDot (getPrefName (js "site_name.")) = nameRoot := by
  decide

theorem data_branch : withDot (getPrefName (js "site_data.")) = dataRoot := by
  decide

/-- The branch with the data of a site. -/
def siteBranch (siteName : JSString) : CString := dataRoot ++ (deflate siteName ++ [46])

theorem site_branch {siteName : JSString} (h : Name siteName) :
    withDot (getPrefName (js "site_data." ++ siteName ++ js ".")) = siteBranch siteName := by
  have hkey := getPrefName_eq_append h (x := []) (by simp)
  rw [List.append_nil] at hkey
  rw [hkey, siteKey, deflate_nil, ← List.append_assoc, withDot_snoc, siteBranch, List.append_assoc]

/-- Roots of one length are not deleted with each other. -/
theorem deletes_root {a b x : CString} (hlen : a.length = b.length) (hne : a ≠ b) :
    deletes a (b ++ x) = false := by
  rw [deletes, Bool.or_eq_false_iff, Bool.and_eq_false_iff]
  constructor
  · rw [← Bool.not_eq_true, List.isPrefixOf_iff_prefix]
    rintro ⟨u, hu⟩
    exact hne (List.append_inj_left hu hlen)
  · left
    rw [beq_eq_false_iff_ne, List.length_append]
    omega

/-- The names are no part of the data of a site. -/
theorem deletes_names (siteName : JSString) (x : CString) :
    deletes (siteBranch siteName) (nameRoot ++ x) = false := by
  rw [deletes, Bool.or_eq_false_iff, Bool.and_eq_false_iff]
  constructor
  · rw [← Bool.not_eq_true, List.isPrefixOf_iff_prefix]
    rintro ⟨u, hu⟩
    rw [siteBranch, List.append_assoc] at hu
    exact roots_apart _ _ hu.symm
  · right
    rw [← Bool.not_eq_true, List.isPrefixOf_iff_prefix]
    have hcut : (siteBranch siteName).take ((siteBranch siteName).length - 1) =
        dataRoot ++ deflate siteName := by
      rw [siteBranch, ← List.append_assoc, List.length_append, List.length_singleton,
        Nat.add_sub_cancel, List.take_left]
    rw [hcut]
    rintro ⟨u, hu⟩
    rw [List.append_assoc] at hu
    exact roots_apart _ _ hu.symm

theorem Stored.delete_names (h : Stored t sites) :
    Stored (deleteBranch t (js "site_name.")) sites := by
  intro key pref hkey
  obtain ⟨x, rfl⟩ := hkey
  rw [lookup_deleteBranch, names_branch, deletes_root (by decide) (by decide)]
  exact h _ pref (List.prefix_append ..)

theorem numbered_delete_names (t : PrefTable) :
    Numbered (deleteBranch t (js "site_name.")) [] := by
  intro key pref hkey
  rw [lookup_deleteBranch, names_branch, if_pos (deletes_of_begins hkey)]
  simp

theorem stored_delete_data (t : PrefTable) : Stored (deleteBranch t (js "site_data.")) [] := by
  intro key pref hkey
  rw [lookup_deleteBranch, data_branch, if_pos (deletes_of_begins hkey)]
  simp

theorem Numbered.delete_data (h : Numbered t names) :
    Numbered (deleteBranch t (js "site_data.")) names := by
  intro key pref hkey
  obtain ⟨x, rfl⟩ := hkey
  rw [lookup_deleteBranch, data_branch, deletes_root (by decide) (by decide)]
  exact h _ pref (List.prefix_append ..)

theorem Numbered.delete_site (h : Numbered t names) {siteName : JSString} (hname : Name siteName) :
    Numbered (deleteBranch t (js "site_data." ++ siteName ++ js ".")) names := by
  intro key pref hkey
  obtain ⟨x, rfl⟩ := hkey
  rw [lookup_deleteBranch, site_branch hname, deletes_names]
  exact h _ pref (List.prefix_append ..)

/-- No preference of another site is deleted with the data of a site. -/
def Spared (siteName : JSString) (sites : List PublishData) : Prop :=
  ∀ s ∈ sites, s.siteName ≠ siteName → ∀ r ∈ record s,
    deletes (siteBranch siteName) (siteKey s.siteName r.1) = false

instance (siteName : JSString) (sites : List PublishData) : Decidable (Spared siteName sites) :=
  inferInstanceAs (Decidable (∀ s ∈ sites, _))

/-- The data of a site are deleted, and those of the others stay. -/
theorem Stored.delete_site (h : Stored t sites) {siteName : JSString} (hname : Name siteName)
    (hspared : Spared siteName sites) {others : List PublishData}
    (hothers : ∀ s, s ∈ others ↔ s ∈ sites ∧ s.siteName ≠ siteName) :
    Stored (deleteBranch t (js "site_data." ++ siteName ++ js ".")) others := by
  intro key pref hkey
  rw [lookup_deleteBranch, site_branch hname]
  constructor
  · intro hlookup
    split_ifs at hlookup with hdel
    obtain ⟨s, hs, r, hr, rfl, rfl⟩ := (h key pref hkey).mp hlookup
    refine ⟨s, (hothers s).mpr ⟨hs, ?_⟩, r, hr, rfl, rfl⟩
    rintro rfl
    apply hdel
    apply deletes_of_begins
    rw [siteBranch, siteKey]
    refine ⟨deflate r.1, ?_⟩
    simp only [List.append_assoc, List.singleton_append]
  · rintro ⟨s, hs, r, hr, rfl, rfl⟩
    obtain ⟨hs, hne⟩ := (hothers s).mp hs
    rw [hspared s hs hne r hr]
    exact h.lookup hs hr

/-! ### The names -/

theorem Numbered.name_eq (h : Numbered t names) {i : ℕ} {name : JSString}
    (hi : names[i]? = some name) (hname : Text name) :
    GetPublishStringPref t (js "site_name." ++ num i) = name := by
  apply GetPublishStringPref_eq _ hname
  · rw [getPrefName_num]
    exact h.lookup hi
  · exact List.cons_ne_nil _ _

/-- The preferences with the names. -/
theorem Numbered.children_perm (h : Numbered t names) :
    (getChildList t (js "site_name.")).Perm
      ((List.range names.length).map fun i => js "site_name." ++ num i) := by
  have hno : 0 ∉ deflate (js "site_name.") := by decide
  have hparent : getPrefName (js "site_name.") = nameRoot := getPrefName_eq hno
  have hbase : inflate (deflate (js "site_name.")) = js "site_name." := by decide
  have hdrop : ∀ i, inflate ((nameKey i).drop mPrefRoot.length) = js "site_name." ++ num i := by
    intro i
    rw [nameKey, nameRoot, List.append_assoc, List.drop_left, inflate_append, hbase,
      inflate_deflate_num]
  apply (List.perm_ext_iff_of_nodup (nodup_getChildList t hno) ?_).mpr
  · intro x
    rw [mem_getChildList, hparent, List.mem_map]
    constructor
    · rintro ⟨key, hsome, hpre, rfl⟩
      obtain ⟨pref, hpref⟩ := Option.isSome_iff_exists.mp hsome
      obtain ⟨i, name, hi, rfl, -⟩ := (h key pref hpre).mp hpref
      exact ⟨i, List.mem_range.mpr (List.getElem?_eq_some_iff.mp hi).1, (hdrop i).symm⟩
    · rintro ⟨i, hi, rfl⟩
      have hname := List.getElem?_eq_getElem (List.mem_range.mp hi)
      refine ⟨nameKey i, ?_, List.prefix_append .., hdrop i⟩
      rw [h.lookup hname]
      rfl
  · apply List.Nodup.map
    · intro j k hjk
      apply deflate_num_injective
      show deflate (num j) = deflate (num k)
      rw [List.append_cancel_left hjk]
    · exact List.nodup_range

/-- The list of the names. -/
theorem Numbered.GetSiteNameList_eq (h : Numbered t names)
    (hnames : ∀ name ∈ names, Name name ∧ Text name) (hne : names ≠ []) :
    ∃ l, GetSiteNameList t = some l ∧ l.Perm names := by
  have hmap : ((List.range names.length).map fun i => js "site_name." ++ num i).map
      (GetPublishStringPref t) = names := by
    apply List.ext_getElem?
    intro i
    rw [List.map_map, List.getElem?_map]
    by_cases hi : i < names.length
    · have hname := List.getElem?_eq_getElem hi
      rw [List.getElem?_range hi, hname]
      exact congrArg some (h.name_eq hname (hnames _ (List.getElem_mem hi)).2)
    · rw [List.getElem?_eq_none (by simpa using hi), List.getElem?_eq_none (by simpa using hi)]
      rfl
  have hperm : ((getChildList t (js "site_name.")).map (GetPublishStringPref t)).Perm names := by
    have := h.children_perm.map (GetPublishStringPref t)
    rwa [hmap] at this
  have hfilter : ((getChildList t (js "site_name.")).map (GetPublishStringPref t)).filter
      (fun n => n ≠ []) = (getChildList t (js "site_name.")).map (GetPublishStringPref t) := by
    rw [List.filter_eq_self]
    intro n hn
    simpa using (hnames n (hperm.mem_iff.mp hn)).1.1
  have hne' : (getChildList t (js "site_name.")).map (GetPublishStringPref t) ≠ [] := by
    intro hnil
    rw [hnil] at hperm
    exact hne hperm.symm.eq_nil
  refine ⟨_, ?_, (sort_perm _).trans hperm⟩
  have hchildren : getChildList t (js "site_name.") ≠ [] := by
    intro hnil
    rw [hnil] at hne'
    exact hne' rfl
  rw [GetSiteNameList, hfilter, if_neg hchildren, if_neg hne']

end Kompozer.Publish

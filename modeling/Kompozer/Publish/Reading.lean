import Kompozer.Publish.Sites

/-! Reading the data of a site from what is stored for some sites: they are the ones that were
saved, whatever is stored for the other sites and whatever the global variable was before. -/

namespace Kompozer.Publish

open Prefs NsResult

variable {t : PrefTable} {sites : List PublishData} {names : List JSString} {s : PublishData}

/-! ### The order of numbers with one digit -/

theorem unitsLe_total (a b : List UInt16) : unitsLe a b || unitsLe b a := by
  induction a generalizing b with
  | nil => rfl
  | cons x a ih =>
    cases b with
    | nil => rfl
    | cons y b =>
      simp only [unitsLe, Bool.or_eq_true, Bool.and_eq_true, decide_eq_true_eq, beq_iff_eq]
      rcases Nat.lt_trichotomy x.toNat y.toNat with h | h | h
      · exact .inl (.inl h)
      · obtain rfl := UInt16.toNat_inj.mp h
        have := ih b
        rw [Bool.or_eq_true] at this
        exact this.imp (fun h => .inr ⟨rfl, h⟩) (fun h => .inr ⟨rfl, h⟩)
      · exact .inr (.inl h)

theorem unitsLe_trans {a b c : List UInt16} (hab : unitsLe a b) (hbc : unitsLe b c) :
    unitsLe a c := by
  induction a generalizing b c with
  | nil => rfl
  | cons x a ih =>
    cases b with
    | nil => cases hab
    | cons y b =>
      cases c with
      | nil => cases hbc
      | cons z c =>
        simp only [unitsLe, Bool.or_eq_true, Bool.and_eq_true, decide_eq_true_eq,
          beq_iff_eq] at hab hbc ⊢
        rcases hab with h | ⟨rfl, h⟩ <;> rcases hbc with h' | ⟨rfl, h'⟩
        · exact .inl (UInt16.lt_trans h h')
        · exact .inl h
        · exact .inl h'
        · exact .inr ⟨rfl, ih h h'⟩

theorem sort_perm (l : List JSString) : (sort l).Perm l := List.perm_insertionSort _ l

/-- Names that differ in a number of one digit at their end are sorted by it. -/
theorem sort_numbered {base : JSString} {n : ℕ} (hn : n ≤ 10) {l : List JSString}
    (h : l.Perm ((List.range n).map fun k => base ++ num k)) :
    sort l = (List.range n).map fun k => base ++ num k := by
  have hle : ∀ j k, unitsLe ((base ++ num j).flatMap units) ((base ++ num k).flatMap units) =
      unitsLe ((num j).flatMap units) ((num k).flatMap units) := by
    intro j k
    rw [List.flatMap_append, List.flatMap_append, unitsLe_append_left]
  have hdigits : ∀ k < 10, ∀ j < k, unitsLe ((num j).flatMap units) ((num k).flatMap units) = true ∧
      unitsLe ((num k).flatMap units) ((num j).flatMap units) = false := by decide
  have hlt : ∀ {k}, k ∈ List.range n → k < 10 := fun hk =>
    Nat.lt_of_lt_of_le (List.mem_range.mp hk) hn
  let r : JSString → JSString → Prop := fun a b => unitsLe (a.flatMap units) (b.flatMap units) = true
  have htotal : Std.Total r := ⟨fun a b => by
    rw [← Bool.or_eq_true]
    exact unitsLe_total _ _⟩
  have htrans : IsTrans JSString r := ⟨fun a b c => unitsLe_trans⟩
  apply @List.Perm.eq_of_pairwise _ r
  · intro a b ha hb hab hba
    rw [sort, List.mem_insertionSort] at ha
    obtain ⟨j, hj, rfl⟩ := List.mem_map.mp (h.mem_iff.mp ha)
    obtain ⟨k, hk, rfl⟩ := List.mem_map.mp hb
    simp only [r, hle] at hab hba
    rcases Nat.lt_trichotomy j k with hjk | rfl | hjk
    · rw [(hdigits k (hlt hk) j hjk).2] at hba
      cases hba
    · rfl
    · rw [(hdigits j (hlt hj) k hjk).2] at hab
      cases hab
  · exact List.pairwise_insertionSort r l
  · rw [List.pairwise_map]
    apply List.pairwise_lt_range.imp_of_mem
    intro j k _ hk hjk
    simp only [r, hle]
    exact (hdigits k (hlt hk) j hjk).1
  · exact (sort_perm l).trans h

/-! ### Single preferences -/

/-- The names of the sites differ in eight bits a character. -/
def Apart (sites : List PublishData) : Prop :=
  sites.Pairwise fun s s' => deflate s.siteName ≠ deflate s'.siteName

instance (sites : List PublishData) : Decidable (Apart sites) :=
  inferInstanceAs (Decidable (sites.Pairwise _))

theorem Apart.eq (h : Apart sites) {s s' : PublishData} (hs : s ∈ sites) (hs' : s' ∈ sites)
    (heq : deflate s.siteName = deflate s'.siteName) : s = s' := by
  by_contra hne
  have hsymm : Std.Symm fun s s' : PublishData => deflate s.siteName ≠ deflate s'.siteName :=
    ⟨fun _ _ h => Ne.symm h⟩
  exact List.Pairwise.forall h hs hs' hne heq

theorem Stored.lookup (h : Stored t sites) (hs : s ∈ sites) {r : JSString × PrefValue}
    (hr : r ∈ record s) : AList.lookup (siteKey s.siteName r.1) t = some (userEntry r.2) :=
  (h _ _ (List.prefix_append ..)).mpr ⟨s, hs, r, hr, rfl, rfl⟩

/-- The name of a preference of a site. -/
theorem Stored.lookup_leaf (h : Stored t sites) (hs : s ∈ sites) (hname : Name s.siteName)
    {leaf : JSString} {value : PrefValue} (hr : (leaf, value) ∈ record s) :
    AList.lookup (getPrefName (js "site_data." ++ s.siteName ++ js "." ++ leaf)) t =
      some (userEntry value) := by
  rw [getPrefName_leaf hname (record_leaf hr)]
  exact h.lookup hs hr

theorem mem_record {r : JSString × PrefValue} (h : r ∈ fixedRecord s) : r ∈ record s :=
  List.mem_append_left _ (List.mem_append_left _ h)

/-- A text of a site. -/
theorem Stored.text_eq (h : Stored t sites) (hs : s ∈ sites) (hname : Name s.siteName)
    {leaf x : JSString} (hr : (leaf, text x) ∈ record s) (hx : Text x) :
    GetPublishStringPref t (js "site_data." ++ s.siteName ++ js "." ++ leaf) = x :=
  GetPublishStringPref_eq (data_name_ne_nil _ _) hx (h.lookup_leaf hs hname hr)

/-- The flags of a site do not depend on the global variable. -/
theorem Stored.flags_eq (h : Stored t sites) (hs : s ∈ sites) (hstor : Storable s)
    (security : Option PRInt32) :
    readFlags t (js "site_data." ++ s.siteName ++ js ".") { security := security } =
      { savePassword := s.savePassword, publishOtherFiles := s.publishOtherFiles, ipv6 := s.IPv6,
        passiveMode := s.passiveMode, treeSync := s.treeSync, security := some s.security } := by
  have hbool : ∀ leaf b, (leaf, PrefValue.boolVal b) ∈ fixedRecord s →
      getBoolPref t (js "site_data." ++ s.siteName ++ js "." ++ leaf) = .ok b :=
    fun leaf b hr => getBoolPref_eq (h.lookup_leaf hs hstor.name (mem_record hr))
  have hint : getIntPref t (js "site_data." ++ s.siteName ++ js "." ++ js "security") =
      .ok s.security :=
    getIntPref_eq (h.lookup_leaf hs hstor.name (mem_record (by simp [fixedRecord])))
  rw [readFlags, hbool _ s.savePassword (by simp [fixedRecord]),
    hbool _ s.publishOtherFiles (by simp [fixedRecord]), hbool _ s.IPv6 (by simp [fixedRecord]),
    hbool _ s.passiveMode (by simp [fixedRecord]), hbool _ s.treeSync (by simp [fixedRecord]), hint]
  rfl

theorem formatDir_nil : FormatDirForPublishing [] = [] := by
  rfl

/-- The directory of other files, which is empty for a site that does not publish them. -/
theorem Stored.otherDir_eq (h : Stored t sites) (hapart : Apart sites) (hs : s ∈ sites)
    (hstor : Storable s) :
    GetPublishStringPref t (js "site_data." ++ s.siteName ++ js "." ++ js "other_dir") =
      if s.publishOtherFiles then FormatDirForPublishing s.otherDir else [] := by
  by_cases hother : s.publishOtherFiles ∧ s.otherDir ≠ []
  · rw [if_pos hother.1]
    apply h.text_eq hs hstor.name _ hstor.otherDir
    apply List.mem_append_left
    apply List.mem_append_right
    rw [otherRecord, if_pos hother]
    exact List.mem_singleton_self _
  · have hempty : (if s.publishOtherFiles then FormatDirForPublishing s.otherDir else []) = [] := by
      split_ifs with hp
      · rw [not_and_not_right.mp hother hp, formatDir_nil]
      · rfl
    rw [hempty]
    apply GetPublishStringPref_none
    have hleaf : Leaf (js "other_dir") := .inl (by decide)
    rw [getPrefName_leaf hstor.name hleaf, Option.eq_none_iff_forall_ne_some]
    intro pref hpref
    obtain ⟨s', hs', r, hr, hkey, -⟩ := (h _ _ (List.prefix_append ..)).mp hpref
    obtain ⟨hname, hdefl⟩ := siteKey_inj hleaf (record_leaf hr) hkey
    obtain rfl := hapart.eq hs hs' hname
    rw [record, otherRecord, if_neg hother, List.append_nil, List.mem_append] at hr
    rcases hr with hr | hr
    · have hmem : deflate r.1 ∈ (fixedLeaves.dropLast).map deflate :=
        List.mem_map_of_mem (f := deflate) (List.mem_map_of_mem (f := Prod.fst) hr)
      rw [← hdefl] at hmem
      revert hmem
      decide
    · obtain ⟨j, dir, -, rfl⟩ := mem_dirRecord.mp hr
      rw [deflate_dirLeaf] at hdefl
      have hdot : 46 ∈ deflate (js "other_dir") := by
        rw [hdefl]
        simp
      revert hdot
      decide

/-! ### The directories -/

/-- No preference of another site stands where the directories of a site are. -/
def DirFree (sites : List PublishData) : Prop :=
  ∀ s ∈ sites, ∀ s' ∈ sites, s'.siteName ≠ s.siteName → ∀ r ∈ record s',
    ¬siteKey s.siteName (js "dir.") <+: siteKey s'.siteName r.1

instance (sites : List PublishData) : Decidable (DirFree sites) :=
  inferInstanceAs (Decidable (∀ s ∈ sites, ∀ s' ∈ sites, _))

/-- The name of a directory as `GetChildList` gives it, without its number. -/
def dirBase (siteName : JSString) : JSString :=
  inflate (deflate (js "site_data.") ++ (deflate siteName ++ 46 :: deflate (js "dir.")))

theorem siteKey_dirLeaf (siteName : JSString) (k : ℕ) : siteKey siteName (dirLeaf k) =
    mPrefRoot ++ deflate (dirBase siteName ++ num k) := by
  rw [deflate_append, dirBase, deflate_inflate, siteKey, dataRoot, dirLeaf, deflate_append]
  simp only [List.append_assoc, List.cons_append]

theorem getPrefName_dirBase {siteName : JSString} (h : Name siteName) (k : ℕ) :
    getPrefName (dirBase siteName ++ num k) = siteKey siteName (dirLeaf k) := by
  rw [siteKey_dirLeaf, getPrefName_eq]
  have hdir : deflate (dirBase siteName ++ num k) =
      deflate (js "site_data." ++ siteName ++ js ".") ++ deflate (dirLeaf k) := by
    rw [deflate_append, dirBase, deflate_inflate, dirLeaf, deflate_append, deflate_append,
      deflate_append]
    simp only [List.append_assoc]
    rfl
  rw [hdir, List.mem_append]
  exact fun h' => h'.elim (prefix_no_zero h) (Leaf.no_zero (.inr ⟨k, rfl⟩))

theorem nodup_getChildList (t : PrefTable) {aStartingAt : JSString}
    (h : 0 ∉ deflate aStartingAt) : (getChildList t aStartingAt).Nodup := by
  apply List.Nodup.map_on
  · intro x hx y hy heq
    rw [List.mem_filter, List.isPrefixOf_iff_prefix, getPrefName_eq h] at hx hy
    obtain ⟨u, rfl⟩ := (List.prefix_append ..).trans hx.2
    obtain ⟨v, rfl⟩ := (List.prefix_append ..).trans hy.2
    rw [List.drop_left, List.drop_left] at heq
    rw [inflate_injective heq]
  · exact (t.keys_nodup).filter _

/-- The directories of a site are found. -/
theorem Stored.dirs_perm (h : Stored t sites) (hapart : Apart sites) (hfree : DirFree sites)
    (hs : s ∈ sites) (hstor : Storable s) :
    (getChildList t (js "site_data." ++ s.siteName ++ js "." ++ js "dir.")).Perm
      ((List.range (storedDirs s.dirList).length).map fun k => dirBase s.siteName ++ num k) := by
  have hdot : 0 ∉ deflate (js "dir.") := by decide
  have hparent : 0 ∉ deflate (js "site_data." ++ s.siteName ++ js "." ++ js "dir.") := by
    rw [deflate_append, List.mem_append]
    exact fun h' => h'.elim (prefix_no_zero hstor.name) hdot
  have hdrop : ∀ k, inflate ((siteKey s.siteName (dirLeaf k)).drop mPrefRoot.length) =
      dirBase s.siteName ++ num k := by
    intro k
    have hbase : inflate (deflate (dirBase s.siteName)) = dirBase s.siteName := by
      rw [dirBase, deflate_inflate]
    rw [siteKey_dirLeaf, List.drop_left, deflate_append, inflate_append, hbase,
      inflate_deflate_num]
  apply (List.perm_ext_iff_of_nodup (nodup_getChildList t hparent) ?_).mpr
  · intro x
    rw [mem_getChildList, getPrefName_eq_append hstor.name hdot, List.mem_map]
    constructor
    · rintro ⟨key, hsome, hpre, rfl⟩
      obtain ⟨pref, hpref⟩ := Option.isSome_iff_exists.mp hsome
      have hroot : dataRoot <+: key := (List.prefix_append ..).trans hpre
      obtain ⟨s', hs', r, hr, rfl, -⟩ := (h key pref hroot).mp hpref
      by_cases hname : s'.siteName = s.siteName
      · obtain rfl := hapart.eq hs hs' (by rw [hname])
        rw [record, List.mem_append] at hr
        rcases hr with hr | hr
        · exfalso
          obtain ⟨u, hu⟩ := hpre
          rw [siteKey, siteKey, List.append_assoc, List.append_assoc] at hu
          have hleaf := List.cons_injective
            (List.append_cancel_left (List.append_cancel_left hu))
          apply (fixed_no_dot r.1 (fixedRecord_leaf hr)).1
          rw [← hleaf]
          exact List.mem_append_left _ (by decide)
        · obtain ⟨k, dir, hk, rfl⟩ := mem_dirRecord.mp hr
          have hlt := (List.getElem?_eq_some_iff.mp hk).1
          refine ⟨k, List.mem_range.mpr hlt, ?_⟩
          rw [← hdrop, Nat.zero_add]
      · exact absurd hpre (hfree s hs s' hs' hname r hr)
    · rintro ⟨k, hk, rfl⟩
      obtain ⟨dir, hdir⟩ : ∃ dir, (storedDirs s.dirList)[k]? = some dir :=
        ⟨_, List.getElem?_eq_getElem (List.mem_range.mp hk)⟩
      have hr : (dirLeaf (0 + k), text dir) ∈ record s :=
        List.mem_append_right _ (mem_dirRecord.mpr ⟨k, _, hdir, rfl⟩)
      rw [Nat.zero_add] at hr
      refine ⟨siteKey s.siteName (dirLeaf k), ?_, ?_, hdrop k⟩
      · rw [h.lookup hs hr]
        rfl
      · refine ⟨deflate (num k), ?_⟩
        rw [siteKey, siteKey, dirLeaf, deflate_append]
        simp only [List.append_assoc, List.cons_append]
  · apply List.Nodup.map
    · intro j k hjk
      apply deflate_num_injective
      show deflate (num j) = deflate (num k)
      rw [List.append_cancel_left hjk]
    · exact List.nodup_range

/-- What is read of the directories, in their order. -/
theorem Stored.readDirs_eq (h : Stored t sites) (hs : s ∈ sites) (hstor : Storable s)
    {j n : ℕ} (hn : j + n = (storedDirs s.dirList).length) {dirList : List JSString}
    (hlen : dirList.length = j + 1) :
    readDirs t j ((List.range' j n).map fun k => dirBase s.siteName ++ num k) dirList =
      dirList ++ (storedDirs s.dirList).drop j := by
  induction n generalizing j dirList with
  | zero =>
    rw [List.drop_of_length_le (by omega), List.append_nil]
    rfl
  | succ n ih =>
    have hj : j < (storedDirs s.dirList).length := by omega
    obtain ⟨dir, hdir⟩ : ∃ dir, dir = (storedDirs s.dirList)[j] := ⟨_, rfl⟩
    have hmem : dir ∈ storedDirs s.dirList := hdir ▸ List.getElem_mem hj
    have hne : dir ≠ [] := by
      have := (List.mem_filter.mp hmem).2
      simp only [ne_eq, decide_eq_true_eq] at this
      exact this.1
    have hr : (dirLeaf j, text dir) ∈ record s := by
      apply List.mem_append_right
      rw [mem_dirRecord]
      exact ⟨j, dir, by rw [hdir, List.getElem?_eq_getElem hj], by rw [Nat.zero_add]⟩
    have hread : GetPublishStringPref t (dirBase s.siteName ++ num j) = dir := by
      apply GetPublishStringPref_eq _ (hstor.dirs dir hmem)
      · rw [getPrefName_dirBase hstor.name]
        exact h.lookup hs hr
      · rw [dirBase, inflate, List.map_append]
        exact List.cons_ne_nil _ _
    have hassign : assign dirList (j + 1) dir = dirList ++ [dir] := by
      rw [assign, if_neg (by omega), hlen, Nat.sub_self]
      simp
    rw [List.range'_succ, List.map_cons, readDirs]
    simp only [hread, if_neg hne, hassign]
    rw [ih (by omega) (by rw [List.length_append, hlen]; rfl), List.append_assoc,
      List.drop_eq_getElem_cons hj, ← hdir]
    rfl

/-! ### The data of a site -/

variable (pm : PasswordManager)

/-- The data of a site as they are read, without its password and its list of directories.
Directories are in the form for publishing. -/
def plain (s : PublishData) : PublishData where
  siteName := s.siteName
  previousSiteName := s.siteName
  localPath := s.localPath
  username := s.username
  savePassword := s.savePassword
  publishUrl := s.publishUrl
  browseUrl := s.browseUrl
  browsePrefix := s.browsePrefix
  docDir := FormatDirForPublishing (FormatDirForPublishing s.docDir)
  otherDir :=
    if s.publishOtherFiles then FormatDirForPublishing (FormatDirForPublishing s.otherDir) else []
  publishOtherFiles := s.publishOtherFiles
  passiveMode := s.passiveMode
  IPv6 := s.IPv6
  security := s.security
  ftpPort := s.ftpPort
  treeSync := s.treeSync
  dirList := [[]]

/-- The data of a site as they are read. A password that is found counts as one to save. -/
def returned (s : PublishData) : PublishData :=
  let r := plain s
  { r with
    password := pm r
    savePassword := s.savePassword || pm r ≠ []
    dirList := [] :: storedDirs s.dirList }

theorem Stored.siteData_eq (h : Stored t sites) (hapart : Apart sites) (hs : s ∈ sites)
    (hstor : Storable s) : siteData t s.siteName
      { savePassword := s.savePassword, publishOtherFiles := s.publishOtherFiles, ipv6 := s.IPv6,
        passiveMode := s.passiveMode, treeSync := s.treeSync, security := some s.security }
      s.security = plain s := by
  have htext : ∀ leaf x, (leaf, text x) ∈ fixedRecord s → Text x →
      GetPublishStringPref t (js "site_data." ++ s.siteName ++ js "." ++ leaf) = x :=
    fun leaf x hr hx => h.text_eq hs hstor.name (mem_record hr) hx
  have hother : FormatDirForPublishing
      (if s.publishOtherFiles then FormatDirForPublishing s.otherDir else []) =
      if s.publishOtherFiles then FormatDirForPublishing (FormatDirForPublishing s.otherDir)
      else [] := by
    split_ifs <;> rfl
  rw [siteData]
  simp only [h.otherDir_eq hapart hs hstor, hother,
    htext _ _ (show (js "url", _) ∈ _ by simp [fixedRecord]) hstor.publishUrl,
    htext _ _ (show (js "local_path", _) ∈ _ by simp [fixedRecord]) hstor.localPath,
    htext _ _ (show (js "browse_url", _) ∈ _ by simp [fixedRecord]) hstor.browseUrl,
    htext _ _ (show (js "browse_prefix", _) ∈ _ by simp [fixedRecord]) hstor.browsePrefix,
    htext _ _ (show (js "username", _) ∈ _ by simp [fixedRecord]) hstor.username,
    htext _ _ (show (js "ftpPort", _) ∈ _ by simp [fixedRecord]) hstor.ftpPort,
    htext _ _ (show (js "doc_dir", _) ∈ _ by simp [fixedRecord]) hstor.docDir]
  rfl

/-- Reading a site gives what was saved for it, whatever the global variable is. -/
theorem Stored.GetPublishData_internal_eq (h : Stored t sites) (hapart : Apart sites)
    (hfree : DirFree sites) (hs : s ∈ sites) (hstor : Storable s) (security : Option PRInt32) :
    GetPublishData_internal pm t security s.siteName =
      (some (some (returned pm s)), some s.security) := by
  have hdirs := sort_numbered hstor.count (h.dirs_perm hapart hfree hs hstor)
  have hlen : (plain s).dirList.length = 0 + 1 := rfl
  have hread := h.readDirs_eq hs hstor (Nat.zero_add (storedDirs s.dirList).length) hlen
  rw [← List.range_eq_range', ← hdirs, List.drop_zero] at hread
  rw [GetPublishData_internal, if_neg hstor.name.1]
  simp only [h.flags_eq hs hstor, h.siteData_eq hapart hs hstor, returned]
  generalize pm (plain s) = password
  cases password with
  | nil =>
    simp only [if_true, hread, ne_eq, not_true_eq_false, decide_false, Bool.or_false]
    rfl
  | cons c password =>
    simp only [reduceCtorEq, if_false, hread, ne_eq, not_false_eq_true, decide_true, Bool.or_true]
    rfl

end Kompozer.Publish

import Kompozer.Publish.Keys

/-! What is stored for some sites, and how saving a site changes it. -/

namespace Kompozer.Publish

open Prefs NsResult

/-! ### The record of a site -/

/-- The directories that are stored. -/
def storedDirs (dirList : List JSString) : List JSString :=
  dirList.filter fun dir => dir ≠ [] ∧ dir ≠ js "/"

def dirRecord : ℕ → List JSString → List (JSString × PrefValue)
  | _, [] => []
  | k, dir :: dirs => (dirLeaf k, text dir) :: dirRecord (k + 1) dirs

/-- The preferences of a site with names that are always there. -/
def fixedRecord (s : PublishData) : List (JSString × PrefValue) :=
  [(js "url", text s.publishUrl), (js "local_path", text s.localPath),
    (js "browse_url", text s.browseUrl), (js "browse_prefix", text s.browsePrefix),
    (js "username", text s.username), (js "ftpPort", text s.ftpPort),
    (js "save_password", .boolVal s.savePassword),
    (js "publish_other_files", .boolVal s.publishOtherFiles), (js "ipv6", .boolVal s.IPv6),
    (js "passive_mode", .boolVal s.passiveMode), (js "tree_sync", .boolVal s.treeSync),
    (js "security", .intVal s.security), (js "doc_dir", text (FormatDirForPublishing s.docDir))]

/-- The directory of other files is stored for a site that publishes them. -/
def otherRecord (s : PublishData) : List (JSString × PrefValue) :=
  if s.publishOtherFiles ∧ s.otherDir ≠ [] then
    [(js "other_dir", text (FormatDirForPublishing s.otherDir))]
  else []

/-- What is stored for a site, under names behind its name. -/
def record (s : PublishData) : List (JSString × PrefValue) :=
  fixedRecord s ++ otherRecord s ++ dirRecord 0 (storedDirs s.dirList)

theorem mem_dirRecord {r : JSString × PrefValue} {k : ℕ} {dirs : List JSString} :
    r ∈ dirRecord k dirs ↔ ∃ j dir, dirs[j]? = some dir ∧ r = (dirLeaf (k + j), text dir) := by
  induction dirs generalizing k with
  | nil => simp [dirRecord]
  | cons d dirs ih =>
    rw [dirRecord, List.mem_cons, ih]
    constructor
    · rintro (rfl | ⟨j, dir, hj, rfl⟩)
      · exact ⟨0, d, rfl, rfl⟩
      · exact ⟨j + 1, dir, hj, by rw [Nat.add_assoc, Nat.add_comm 1 j]⟩
    · rintro ⟨j, dir, hj, rfl⟩
      cases j with
      | zero =>
        rw [List.getElem?_cons_zero, Option.some.injEq] at hj
        exact .inl (by rw [hj]; rfl)
      | succ j => exact .inr ⟨j, dir, hj, by rw [Nat.add_assoc, Nat.add_comm 1 j]⟩

theorem fixedRecord_sublist (s : PublishData) :
    ((fixedRecord s ++ otherRecord s).map Prod.fst).Sublist fixedLeaves := by
  rw [List.map_append, otherRecord]
  split_ifs
  · exact List.Sublist.refl fixedLeaves
  · rw [List.map_nil, List.append_nil]
    exact List.dropLast_sublist fixedLeaves

theorem fixedRecord_leaf {s : PublishData} {r : JSString × PrefValue}
    (h : r ∈ fixedRecord s ++ otherRecord s) : r.1 ∈ fixedLeaves :=
  (fixedRecord_sublist s).subset (List.mem_map_of_mem h)

theorem record_leaf {s : PublishData} {r : JSString × PrefValue} (h : r ∈ record s) :
    Leaf r.1 := by
  rw [record, List.mem_append] at h
  rcases h with h | h
  · exact .inl (fixedRecord_leaf h)
  · obtain ⟨j, dir, -, rfl⟩ := mem_dirRecord.mp h
    exact .inr ⟨_, rfl⟩

theorem dirRecord_nodup (k : ℕ) (dirs : List JSString) :
    ((dirRecord k dirs).map fun r => deflate r.1).Nodup := by
  induction dirs generalizing k with
  | nil => exact List.nodup_nil
  | cons d dirs ih =>
    rw [dirRecord, List.map_cons, List.nodup_cons]
    refine ⟨?_, ih (k + 1)⟩
    intro h
    obtain ⟨r, hr, heq⟩ := List.mem_map.mp h
    obtain ⟨j, dir, -, rfl⟩ := mem_dirRecord.mp hr
    simp only [deflate_dirLeaf] at heq
    have := deflate_num_injective (List.cons_injective (List.append_cancel_left heq))
    omega

/-- No name is twice in a record. -/
theorem record_nodup (s : PublishData) : ((record s).map fun r => deflate r.1).Nodup := by
  rw [record, List.map_append, List.nodup_append]
  refine ⟨?_, dirRecord_nodup _ _, ?_⟩
  · have hsub := (fixedRecord_sublist s).map deflate
    rw [List.map_map] at hsub
    exact hsub.nodup (by decide)
  · intro x hx y hy heq
    obtain ⟨r, hr, rfl⟩ := List.mem_map.mp hx
    obtain ⟨r', hr', rfl⟩ := List.mem_map.mp hy
    obtain ⟨j, dir, -, rfl⟩ := mem_dirRecord.mp hr'
    apply (fixed_no_dot r.1 (fixedRecord_leaf hr)).1
    rw [heq, deflate_dirLeaf]
    simp

/-- What can be stored: the names and the texts have no zero byte, and the number is not the one
for no default value. -/
structure Storable (s : PublishData) : Prop where
  name : Name s.siteName
  nameText : Text s.siteName
  publishUrl : Text s.publishUrl
  localPath : Text s.localPath
  browseUrl : Text s.browseUrl
  browsePrefix : Text s.browsePrefix
  username : Text s.username
  ftpPort : Text s.ftpPort
  docDir : Text (FormatDirForPublishing s.docDir)
  otherDir : Text (FormatDirForPublishing s.otherDir)
  dirs : ∀ dir ∈ storedDirs s.dirList, Text dir
  count : (storedDirs s.dirList).length ≤ 10
  security : s.security ≠ BOGUS_DEFAULT_INT_PREF_VALUE

instance (s : JSString) : Decidable (Text s) := inferInstanceAs (Decidable (0 ∉ toUTF8 s))

instance (s : JSString) : Decidable (Name s) :=
  inferInstanceAs (Decidable (s ≠ [] ∧ 0 ∉ deflate s))

theorem storable_iff (s : PublishData) : Storable s ↔ Name s.siteName ∧
    (∀ x ∈ [s.siteName, s.publishUrl, s.localPath, s.browseUrl, s.browsePrefix, s.username,
      s.ftpPort, FormatDirForPublishing s.docDir, FormatDirForPublishing s.otherDir], Text x) ∧
    (∀ dir ∈ storedDirs s.dirList, Text dir) ∧ (storedDirs s.dirList).length ≤ 10 ∧
    s.security ≠ BOGUS_DEFAULT_INT_PREF_VALUE := by
  simp only [List.forall_mem_cons, List.not_mem_nil, false_implies, implies_true, and_true]
  constructor
  · intro h
    exact ⟨h.name, ⟨h.nameText, h.publishUrl, h.localPath, h.browseUrl, h.browsePrefix, h.username,
      h.ftpPort, h.docDir, h.otherDir⟩, h.dirs, h.count, h.security⟩
  · rintro ⟨hname, ⟨h₁, h₂, h₃, h₄, h₅, h₆, h₇, h₈, h₉⟩, hdirs, hcount, hsecurity⟩
    exact ⟨hname, h₁, h₂, h₃, h₄, h₅, h₆, h₇, h₈, h₉, hdirs, hcount, hsecurity⟩

instance (s : PublishData) : Decidable (Storable s) := decidable_of_iff' _ (storable_iff s)

theorem Storable.proper {s : PublishData} (h : Storable s) {r : JSString × PrefValue}
    (hr : r ∈ record s) : Proper r.2 := by
  have htext : ∀ x, Proper (text x) := fun x h => PrefValue.noConfusion h
  have hbool : ∀ b, Proper (.boolVal b) := fun x h => PrefValue.noConfusion h
  rw [record, List.mem_append, List.mem_append] at hr
  rcases hr with (hr | hr) | hr
  · simp only [fixedRecord, List.mem_cons, List.not_mem_nil, or_false] at hr
    rcases hr with rfl | rfl | rfl | rfl | rfl | rfl | rfl | rfl | rfl | rfl | rfl | rfl | rfl
    any_goals exact htext _
    any_goals exact hbool _
    exact fun heq => h.security (PrefValue.intVal.inj heq)
  · rw [otherRecord] at hr
    split_ifs at hr
    · rw [List.mem_singleton.mp hr]
      exact htext _
    · cases hr
  · obtain ⟨j, dir, -, rfl⟩ := mem_dirRecord.mp hr
    exact htext _

/-! ### Writing a record -/

/-- The preferences of a record with their whole names. -/
def named (siteName : JSString) (rs : List (JSString × PrefValue)) : List (JSString × PrefValue) :=
  rs.map fun r => (js "site_data." ++ siteName ++ js "." ++ r.1, r.2)

def writes (es : List (JSString × PrefValue)) (t : PrefTable) : PrefTable :=
  es.foldl (fun t e => (setPref t e.1 e.2).2) t

theorem writes_append (es es' : List (JSString × PrefValue)) (t : PrefTable) :
    writes (es ++ es') t = writes es' (writes es t) := List.foldl_append

/-- Preferences that are not in the table and differ from each other. -/
structure Fresh (es : List (JSString × PrefValue)) (t : PrefTable) : Prop where
  absent : ∀ e ∈ es, AList.lookup (getPrefName e.1) t = none
  nodup : (es.map fun e => getPrefName e.1).Nodup
  proper : ∀ e ∈ es, Proper e.2

theorem Fresh.tail {e : JSString × PrefValue} {es : List (JSString × PrefValue)} {t : PrefTable}
    (h : Fresh (e :: es) t) : Fresh es (setPref t e.1 e.2).2 where
  absent := by
    intro e' he'
    have hnodup := h.nodup
    rw [List.map_cons, List.nodup_cons] at hnodup
    rw [setPref_new (h.absent e (by simp)) (h.proper e (by simp)), AList.lookup_insert_ne]
    · exact h.absent e' (by simp [he'])
    · intro heq
      exact hnodup.1 (heq ▸ List.mem_map_of_mem he')
  nodup := (List.nodup_cons.mp h.nodup).2
  proper := fun e' he' => h.proper e' (by simp [he'])

/-- New preferences are added, and the others stay. -/
theorem lookup_writes {es : List (JSString × PrefValue)} {t : PrefTable} (h : Fresh es t)
    (key : CString) (pref : PrefHashEntry) : AList.lookup key (writes es t) = some pref ↔
      (∃ e ∈ es, key = getPrefName e.1 ∧ pref = userEntry e.2) ∨ AList.lookup key t = some pref := by
  induction es generalizing t with
  | nil => simp [writes]
  | cons e es ih =>
    have hset := setPref_new (h.absent e (by simp)) (h.proper e (by simp))
    show AList.lookup key (writes es (setPref t e.1 e.2).2) = some pref ↔ _
    rw [ih h.tail, hset]
    by_cases hk : key = getPrefName e.1
    · subst hk
      have habs := h.absent e (by simp)
      rw [AList.lookup_insert, habs]
      constructor
      · rintro (⟨e', he', hkey, hpref⟩ | hpref)
        · exact .inl ⟨e', List.mem_cons_of_mem _ he', hkey, hpref⟩
        · exact .inl ⟨e, List.mem_cons_self, rfl, (Option.some.inj hpref).symm⟩
      · rintro (⟨e', he', hkey, hpref⟩ | hpref)
        · rcases List.mem_cons.mp he' with rfl | he'
          · exact .inr (by rw [hpref])
          · exact .inl ⟨e', he', hkey, hpref⟩
        · cases hpref
    · rw [AList.lookup_insert_ne hk]
      simp [hk]

theorem Fresh.append {es es' : List (JSString × PrefValue)} {t : PrefTable}
    (h : Fresh (es ++ es') t) : Fresh es t ∧ Fresh es' (writes es t) := by
  induction es generalizing t with
  | nil => exact ⟨⟨by simp, by simp, by simp⟩, h⟩
  | cons e es ih =>
    refine ⟨⟨fun e' he' => h.absent e' ?_, ?_, fun e' he' => h.proper e' ?_⟩, (ih h.tail).2⟩
    · exact List.mem_append_left _ he'
    · have hnodup := h.nodup
      rw [List.map_append] at hnodup
      exact (List.nodup_append.mp hnodup).1
    · exact List.mem_append_left _ he'

theorem setFlags_eq {es : List (JSString × PrefValue)} {t : PrefTable} (h : Fresh es t) :
    setFlags t es = writes es t := by
  induction es generalizing t with
  | nil => rfl
  | cons e es ih =>
    have htail := h.tail
    have hset := setPref_new (h.absent e (by simp)) (h.proper e (by simp))
    have hwrites : writes (e :: es) t = writes es (setPref t e.1 e.2).2 := rfl
    rw [hwrites, setFlags]
    rw [hset] at htail ⊢
    exact ih htail

theorem data_name_ne_nil (siteName leaf : JSString) :
    js "site_data." ++ siteName ++ js "." ++ leaf ≠ [] := by
  rw [List.append_assoc, List.append_assoc]
  exact List.cons_ne_nil _ _

theorem writeDirs_eq (siteName : JSString) (k : ℕ) (dirs : List JSString) (t : PrefTable) :
    writeDirs (js "site_data." ++ siteName ++ js ".") k dirs t =
      writes (named siteName (dirRecord k (storedDirs dirs))) t := by
  induction dirs generalizing k t with
  | nil => rfl
  | cons d dirs ih =>
    rw [writeDirs]
    split_ifs with hd
    · have hstored : storedDirs (d :: dirs) = d :: storedDirs dirs :=
        List.filter_cons_of_pos (by simpa using hd)
      rw [ih, hstored, List.append_assoc, SetPublishStringPref_eq (data_name_ne_nil _ _)]
      rfl
    · have hstored : storedDirs (d :: dirs) = storedDirs dirs :=
        List.filter_cons_of_neg (by simpa using hd)
      rw [ih, hstored]

/-! ### Saving a site -/

section
variable (io : IOService)

/-- The directories of a site after they are saved. -/
def savedDirs (s : PublishData) : List JSString :=
  sort (if s.saveDirs then
      let s₁ := if s.docDir = [] then s else AppendNewDirToList s s.docDir
      if (s.publishOtherFiles ∧ s.otherDir ≠ []) ∧ s₁.otherDir ≠ s₁.docDir then
        AppendNewDirToList s₁ s₁.otherDir
      else s₁
    else s).dirList

/-- The data of a site as they are left when they are saved. -/
def prepared (publishData : PublishData) : PublishData :=
  let s := FixupUsernamePasswordInPublishData io publishData
  { s with dirList := savedDirs s }

theorem siteName_prepared (d : PublishData) : (prepared io d).siteName = d.siteName := by
  show (FixupUsernamePasswordInPublishData io d).siteName = d.siteName
  rw [FixupUsernamePasswordInPublishData]
  split_ifs <;> rfl

/-- The texts in front of the flags. -/
def texts (s : PublishData) : List (JSString × PrefValue) :=
  [(js "url", text s.publishUrl), (js "local_path", text s.localPath),
    (js "browse_url", text s.browseUrl), (js "browse_prefix", text s.browsePrefix),
    (js "username", text s.username), (js "ftpPort", text s.ftpPort)]

def flags (s : PublishData) : List (JSString × PrefValue) :=
  [(js "save_password", .boolVal s.savePassword),
    (js "publish_other_files", .boolVal s.publishOtherFiles), (js "ipv6", .boolVal s.IPv6),
    (js "passive_mode", .boolVal s.passiveMode), (js "tree_sync", .boolVal s.treeSync),
    (js "security", .intVal s.security)]

def docDir (s : PublishData) : List (JSString × PrefValue) :=
  [(js "doc_dir", text (FormatDirForPublishing s.docDir))]

theorem named_record (n : JSString) (s : PublishData) : named n (record s) =
    named n (texts s) ++ (named n (flags s) ++ (named n (docDir s) ++
      (named n (otherRecord s) ++ named n (dirRecord 0 (storedDirs s.dirList))))) := by
  have hfixed : fixedRecord s = texts s ++ (flags s ++ docDir s) := rfl
  simp only [named, record, hfixed, List.map_append, List.append_assoc]

/-- Texts are written one after the other. -/
theorem writes_cons (n leaf x : JSString) (rs : List (JSString × PrefValue)) (t : PrefTable) :
    writes (named n ((leaf, text x) :: rs)) t =
      writes (named n rs) (SetPublishStringPref t (js "site_data." ++ n ++ js "." ++ leaf) x) := by
  rw [SetPublishStringPref_eq (data_name_ne_nil n leaf)]
  rfl

/-- A site whose preferences are not there is written as its record. -/
theorem SavePublishData_Internal_eq {t t₀ : PrefTable} {d s : PublishData} {i : ℕ}
    (hs : s = prepared io d)
    (ht : t₀ = SetPublishStringPref t (js "site_name." ++ num i) d.siteName)
    (h : Fresh (named s.siteName (record s)) t₀) :
    SavePublishData_Internal io t d i = (writes (named s.siteName (record s)) t₀, s) := by
  subst hs
  have hleft : (SavePublishData_Internal io t d i).2 = prepared io d := by
    simp only [SavePublishData_Internal, prepared, savedDirs, AppendNewDirToList]
    split_ifs <;> rfl
  refine Prod.ext ?_ hleft
  obtain ⟨f, hf⟩ : ∃ f, f = FixupUsernamePasswordInPublishData io d := ⟨_, rfl⟩
  have hdirs : (SavePublishData_Internal io t d i).2.dirList = savedDirs f := by
    rw [hleft, hf]
    rfl
  have hrec : named (prepared io d).siteName (record (prepared io d)) =
      named f.siteName (texts f) ++ (named f.siteName (flags f) ++ (named f.siteName (docDir f) ++
      (named f.siteName (otherRecord f) ++
        named f.siteName (dirRecord 0 (storedDirs (savedDirs f)))))) := by
    rw [named_record, hf]
    rfl
  rw [hrec] at h ⊢
  obtain ⟨-, hflags⟩ := h.append
  obtain ⟨hflags, -⟩ := hflags.append
  rw [writes_append, writes_append, writes_append, writes_append, ← setFlags_eq hflags,
    ← writeDirs_eq, ← hdirs]
  simp only [texts, docDir, otherRecord]
  rw [writes_cons, writes_cons, writes_cons, writes_cons, writes_cons, writes_cons, writes_cons,
    ht, hf]
  by_cases hother : (FixupUsernamePasswordInPublishData io d).publishOtherFiles ∧
      (FixupUsernamePasswordInPublishData io d).otherDir ≠ []
  · rw [if_pos hother, writes_cons, SavePublishData_Internal]
    simp only [if_pos hother]
    rfl
  · rw [if_neg hother, SavePublishData_Internal]
    simp only [if_neg hother]
    rfl

/-! ### What is stored -/

/-- The data of some sites are stored, and no others. -/
def Stored (t : PrefTable) (sites : List PublishData) : Prop :=
  ∀ key pref, dataRoot <+: key → (AList.lookup key t = some pref ↔
    ∃ s ∈ sites, ∃ r ∈ record s, key = siteKey s.siteName r.1 ∧ pref = userEntry r.2)

/-- Some names are stored with their numbers, and no others. -/
def Numbered (t : PrefTable) (names : List JSString) : Prop :=
  ∀ key pref, nameRoot <+: key → (AList.lookup key t = some pref ↔
    ∃ i name, names[i]? = some name ∧ key = nameKey i ∧ pref = userEntry (text name))

/-- An element of a list is replaced, or put behind its end. -/
def put (names : List JSString) (i : ℕ) (name : JSString) : List JSString :=
  names.take i ++ name :: names.drop (i + 1)

theorem getElem?_put {names : List JSString} {i : ℕ} (hi : i ≤ names.length) (name : JSString)
    (j : ℕ) : (put names i name)[j]? = if j = i then some name else names[j]? := by
  have hlen : (names.take i).length = i := List.length_take_of_le hi
  rw [put]
  by_cases hji : j < i
  · rw [List.getElem?_append_left (by omega), if_neg (Nat.ne_of_lt hji), List.getElem?_take,
      if_pos hji]
  · rw [List.getElem?_append_right (by omega), hlen]
    by_cases heq : j = i
    · rw [if_pos heq, heq, Nat.sub_self]
      rfl
    · obtain ⟨k, hk⟩ : ∃ k, j - i = k + 1 := ⟨j - i - 1, by omega⟩
      rw [if_neg heq, hk, List.getElem?_cons_succ, List.getElem?_drop]
      congr 1
      omega

variable {t : PrefTable} {sites : List PublishData} {names : List JSString}

theorem Numbered.lookup (h : Numbered t names) {i : ℕ} {name : JSString}
    (hi : names[i]? = some name) : AList.lookup (nameKey i) t = some (userEntry (text name)) :=
  (h _ _ (List.prefix_append ..)).mpr ⟨i, name, hi, rfl, rfl⟩

theorem Numbered.lookup_none (h : Numbered t names) {i : ℕ} (hi : names[i]? = none) :
    AList.lookup (nameKey i) t = none := by
  rw [Option.eq_none_iff_forall_ne_some]
  intro pref hpref
  obtain ⟨j, name, hj, hkey, -⟩ := (h _ _ (List.prefix_append ..)).mp hpref
  rw [← nameKey_injective hkey, hi] at hj
  cases hj

/-- A number gets another name. -/
theorem setName (h : Numbered t names) (i : ℕ) (name : JSString) :
    SetPublishStringPref t (js "site_name." ++ num i) name =
      AList.insert (nameKey i) (userEntry (text name)) t := by
  have hne : js "site_name." ++ num i ≠ [] := List.cons_ne_nil _ _
  rw [SetPublishStringPref_eq hne, ← getPrefName_num]
  cases hn : names[i]? with
  | none =>
    rw [setPref_new]
    · rw [getPrefName_num]
      exact h.lookup_none hn
    · exact fun h => PrefValue.noConfusion h
  | some old =>
    have hold := h.lookup hn
    rw [← getPrefName_num] at hold
    rw [text, setPref_again hold]

theorem Numbered.insert (h : Numbered t names) {i : ℕ} (hi : i ≤ names.length)
    (name : JSString) : Numbered (AList.insert (nameKey i) (userEntry (text name)) t)
      (put names i name) := by
  intro key pref hkey
  by_cases hk : key = nameKey i
  · subst hk
    rw [AList.lookup_insert]
    constructor
    · intro heq
      exact ⟨i, name, by rw [getElem?_put hi, if_pos rfl], rfl, (Option.some.inj heq).symm⟩
    · rintro ⟨j, name', hj, hkey', rfl⟩
      rw [← nameKey_injective hkey', getElem?_put hi, if_pos rfl] at hj
      rw [Option.some.inj hj]
  · rw [AList.lookup_insert_ne hk, h key pref hkey]
    apply exists_congr
    intro j
    apply exists_congr
    intro name'
    apply and_congr_left
    rintro ⟨rfl, -⟩
    rw [getElem?_put hi, if_neg fun hji => hk (by rw [hji])]

theorem Stored.insert (h : Stored t sites) (i : ℕ) (pref : PrefHashEntry) :
    Stored (AList.insert (nameKey i) pref t) sites := by
  intro key pref' hkey
  rw [AList.lookup_insert_ne]
  · exact h key pref' hkey
  · obtain ⟨x, rfl⟩ := hkey
    exact fun heq => roots_apart _ _ heq.symm

theorem getPrefName_record {s : PublishData} (hs : Storable s) {r : JSString × PrefValue}
    (hr : r ∈ record s) :
    getPrefName (js "site_data." ++ s.siteName ++ js "." ++ r.1) = siteKey s.siteName r.1 :=
  getPrefName_leaf hs.name (record_leaf hr)

/-- The preferences of a new site are not there. -/
theorem Stored.fresh (h : Stored t sites) {s : PublishData} (hs : Storable s)
    (hnew : ∀ s' ∈ sites, deflate s'.siteName ≠ deflate s.siteName) :
    Fresh (named s.siteName (record s)) t where
  absent := by
    intro e he
    obtain ⟨r, hr, rfl⟩ := List.mem_map.mp he
    rw [getPrefName_record hs hr, Option.eq_none_iff_forall_ne_some]
    intro pref hpref
    obtain ⟨s', hs', r', hr', hkey, -⟩ := (h _ _ (List.prefix_append ..)).mp hpref
    exact hnew s' hs' (siteKey_inj (record_leaf hr) (record_leaf hr') hkey).1.symm
  nodup := by
    have hkeys : (named s.siteName (record s)).map (fun e => getPrefName e.1) =
        ((record s).map fun r => deflate r.1).map
          fun x => dataRoot ++ (deflate s.siteName ++ 46 :: x) := by
      rw [named, List.map_map, List.map_map]
      apply List.map_congr_left
      intro r hr
      exact getPrefName_record hs hr
    rw [hkeys]
    apply (record_nodup s).map
    intro x y hxy
    exact List.cons_injective (List.append_cancel_left (List.append_cancel_left hxy))
  proper := by
    intro e he
    obtain ⟨r, hr, rfl⟩ := List.mem_map.mp he
    exact hs.proper (r := r) hr

/-- A new site is saved. -/
theorem save_new (hst : Stored t sites) (hnum : Numbered t names) {d s : PublishData} {i : ℕ}
    (hsd : s = prepared io d) (hs : Storable s)
    (hnew : ∀ s' ∈ sites, deflate s'.siteName ≠ deflate s.siteName) (hi : i ≤ names.length) :
    ∃ t', SavePublishData_Internal io t d i = (t', s) ∧ Stored t' (s :: sites) ∧
      Numbered t' (put names i s.siteName) := by
  have hset := setName hnum i d.siteName
  have hst₀ := hst.insert i (userEntry (text d.siteName))
  have hnum₀ := hnum.insert hi d.siteName
  have hfresh := hst₀.fresh hs hnew
  refine ⟨_, SavePublishData_Internal_eq io hsd hset.symm hfresh, ?_, ?_⟩
  · intro key pref hkey
    rw [lookup_writes hfresh, hst₀ key pref hkey]
    simp only [List.mem_cons, exists_eq_or_imp]
    apply or_congr_left
    constructor
    · rintro ⟨e, he, rfl, rfl⟩
      obtain ⟨r, hr, rfl⟩ := List.mem_map.mp he
      exact ⟨r, hr, getPrefName_record hs hr, rfl⟩
    · rintro ⟨r, hr, rfl, rfl⟩
      exact ⟨_, List.mem_map_of_mem hr, (getPrefName_record hs hr).symm, rfl⟩
  · have hname : d.siteName = s.siteName := by rw [hsd, siteName_prepared]
    intro key pref hkey
    rw [hname] at hnum₀
    rw [lookup_writes hfresh, hname, ← hnum₀ key pref hkey, or_iff_right]
    rintro ⟨e, he, heq, -⟩
    obtain ⟨r, hr, rfl⟩ := List.mem_map.mp he
    obtain ⟨x, rfl⟩ := hkey
    exact roots_apart _ _ (heq.trans (getPrefName_record hs hr))

end

end Kompozer.Publish

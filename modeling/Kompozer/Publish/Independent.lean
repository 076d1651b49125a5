import Kompozer.Publish.Branches
import Kompozer.Lib.Splice

/-! The sites are stored independently, over every run of saving and reading them, as long as no
step reaches the preferences of another site: a name is a part of the names of preferences, and
they are deleted and looked up by what they begin with. -/

namespace Kompozer.Publish

open Prefs NsResult

variable {t : PrefTable} {sites : List PublishData} {names : List JSString}
variable (io : IOService) (pm : PasswordManager)

/-! ### Steps -/

inductive Step
  | saveAll (siteArray : List PublishData) (defaultName : JSString)
  | save (publishData : PublishData)
  | get

/-- The preferences, and the global variable `security`. -/
abbrev State := PrefTable × Option PRInt32

def Step.run (σ : State) : Step → State
  | saveAll siteArray defaultName =>
    ((SavePublishSiteDataToPrefs io σ.1 siteArray defaultName).1, σ.2)
  | save publishData => ((SavePublishDataToPrefs io σ.1 publishData).1, σ.2)
  | get => (GetPublishSiteData pm σ.1 σ.2).2

def run (σ : State) (steps : List Step) : State := steps.foldl (Step.run io pm) σ

/-- The data with a name. -/
def withName (d : PublishData) : PublishData :=
  if d.siteName = [] then { d with siteName := CreateSiteNameFromUrl io d.publishUrl } else d

/-- The name a site had. -/
def previousName (d : PublishData) : JSString :=
  if d.previousSiteName = [] then d.siteName else d.previousSiteName

/-- The data of the other sites. -/
def others (siteName : JSString) (sites : List PublishData) : List PublishData :=
  sites.filter fun s => s.siteName ≠ siteName

/-- The data that were last saved for each site. A saved site takes the place of the one with its
previous name. -/
def Step.saved (sites : List PublishData) : Step → List PublishData
  | saveAll siteArray _ => siteArray.map (prepared io)
  | save d =>
    if d.localPath = [] then sites
    else if sites = [] then [prepared io (withName io d)]
    else
      let d := withName io d
      prepared io { d with previousSiteName := d.siteName } :: others (previousName d) sites
  | get => sites

def savedAfter (sites : List PublishData) (steps : List Step) : List PublishData :=
  steps.foldl (Step.saved io) sites

/-- The data can be stored next to each other. -/
structure Fit (sites : List PublishData) : Prop where
  storable : ∀ s ∈ sites, Storable s
  apart : Apart sites
  free : DirFree sites

/-- A step that reaches no preferences of other sites. -/
def Step.Ok (sites : List PublishData) (a : Step) : Prop :=
  match a with
  | saveAll _ _ => Fit (a.saved io sites)
  | save d => d.localPath ≠ [] → Fit (a.saved io sites) ∧
    ((∃ s ∈ sites, s.siteName = previousName (withName io d)) →
      Spared (previousName (withName io d)) sites)
  | get => True

def OkRun (sites : List PublishData) : List Step → Prop
  | [] => True
  | a :: steps => a.Ok io sites ∧ OkRun (a.saved io sites) steps

/-! ### What is stored after a step -/

/-- The data of the sites and their names are stored. -/
structure Holds (t : PrefTable) (sites : List PublishData) : Prop where
  fit : Fit sites
  stored : Stored t sites
  numbered : ∃ names, names.Perm (sites.map PublishData.siteName) ∧ Numbered t names

theorem Stored.perm {l m : List PublishData} (h : Stored t l) (hp : l.Perm m) : Stored t m := by
  intro key pref hkey
  rw [h key pref hkey]
  simp only [hp.mem_iff]

/-- A list with the images of another is the images of a list. -/
theorem exists_perm_map {α β : Type} (f : α → β) {m : List β} {l : List α}
    (h : m.Perm (l.map f)) : ∃ l' : List α, l'.Perm l ∧ l'.map f = m := by
  induction m generalizing l with
  | nil =>
    have hl : l = [] := List.map_eq_nil_iff.mp h.symm.eq_nil
    exact ⟨[], by rw [hl], rfl⟩
  | cons b m ih =>
    obtain ⟨a, ha, rfl⟩ := List.mem_map.mp (h.mem_iff.mp List.mem_cons_self)
    obtain ⟨A, B, rfl⟩ := List.append_of_mem ha
    have hcons : (f a :: m).Perm (f a :: (A ++ B).map f) := by
      have hmid : ((A ++ a :: B).map f).Perm ((a :: (A ++ B)).map f) := List.perm_middle.map f
      exact h.trans hmid
    obtain ⟨l', hl', rfl⟩ := ih hcons.cons_inv
    exact ⟨a :: l', (hl'.cons a).trans List.perm_middle.symm, rfl⟩

theorem put_length (names : List JSString) (name : JSString) :
    put names names.length name = names ++ [name] := by
  rw [put, List.take_length, List.drop_of_length_le (Nat.le_succ _)]

/-! ### Reading all sites -/

/-- The loop of `GetPublishSiteData`. -/
theorem getSites_eq (hfit : Fit sites) {rest : List PublishData} (done : List PublishData)
    (hrest : ∀ s ∈ rest, s ∈ sites) (h : Stored t sites)
    (hnum : Numbered t (done.map PublishData.siteName)) (security : Option PRInt32) :
    ∃ t' security', getSites pm (rest.map PublishData.siteName) t security
        (done.map (returned pm)) = (some ((done ++ rest).map (returned pm)), t', security') ∧
      Stored t' sites ∧ Numbered t' ((done ++ rest).map PublishData.siteName) := by
  induction rest generalizing t done security with
  | nil =>
    rw [List.append_nil]
    exact ⟨t, security, rfl, h, hnum⟩
  | cons s rest ih =>
    obtain ⟨hs, hrest⟩ := List.forall_mem_cons.mp hrest
    have hlen : (done.map (returned pm)).length = (done.map PublishData.siteName).length := by
      rw [List.length_map, List.length_map]
    have hnum' := hnum.insert (Nat.le_refl _) s.siteName
    rw [put_length, ← List.map_singleton (f := PublishData.siteName), ← List.map_append] at hnum'
    obtain ⟨t', security', heq, hst', hnum''⟩ :=
      ih (done ++ [s]) hrest (h.insert _ _) hnum' (some s.security)
    rw [List.append_assoc, List.singleton_append] at heq hnum''
    refine ⟨t', security', ?_, hst', hnum''⟩
    rw [List.map_cons, getSites, h.GetPublishData_internal_eq pm hfit.apart hfit.free hs
      (hfit.storable s hs)]
    simp only []
    rw [hlen, setName hnum, ← List.map_singleton (f := returned pm), ← List.map_append]
    exact heq

theorem storable_names (hfit : Fit sites) (hperm : names.Perm (sites.map PublishData.siteName)) :
    ∀ name ∈ names, Name name ∧ Text name := by
  intro name hname
  obtain ⟨s, hs, rfl⟩ := List.mem_map.mp (hperm.mem_iff.mp hname)
  exact ⟨(hfit.storable s hs).name, (hfit.storable s hs).nameText⟩

/-- The data of all sites are read as they were saved. -/
theorem Holds.GetPublishSiteData_eq (h : Holds t sites) (security : Option PRInt32) :
    ∃ r t' security', GetPublishSiteData pm t security = (r, t', security') ∧ Holds t' sites ∧
      (sites = [] ∧ r = none ∨ ∃ l, r = some l ∧ l.Perm (sites.map (returned pm))) := by
  obtain ⟨hfit, hst, names, hperm, hnum⟩ := h
  by_cases hne : sites = []
  · have hnames : names = [] := by
      rw [hne] at hperm
      exact hperm.eq_nil
    have hlist : GetSiteNameList t = none := by
      have hchildren := hnum.children_perm
      rw [hnames] at hchildren
      rw [GetSiteNameList, hchildren.eq_nil]
      rfl
    refine ⟨none, t, security, ?_, ⟨hfit, hst, names, hperm, hnum⟩, .inl ⟨hne, rfl⟩⟩
    rw [GetPublishSiteData, hlist]
  · have hnames : names ≠ [] := by
      rintro rfl
      exact hne (List.map_eq_nil_iff.mp hperm.symm.eq_nil)
    obtain ⟨l, hlist, hl⟩ := hnum.GetSiteNameList_eq (storable_names hfit hperm) hnames
    obtain ⟨sites', hsites', rfl⟩ := exists_perm_map PublishData.siteName (hl.trans hperm)
    obtain ⟨t', security', heq, hst', hnum'⟩ := getSites_eq pm hfit []
      (fun s hs => hsites'.mem_iff.mp hs) hst.delete_names (numbered_delete_names t) security
    rw [List.nil_append] at heq hnum'
    refine ⟨_, t', security', ?_, ⟨hfit, hst', _, hsites'.map _, hnum'⟩,
      .inr ⟨_, rfl, hsites'.map _⟩⟩
    rw [GetPublishSiteData, hlist]
    simp only [List.map_nil] at heq
    simp only [heq]
    cases hmap : sites'.map (returned pm) with
    | nil =>
      rw [List.map_eq_nil_iff.mp hmap] at hsites'
      exact absurd hsites'.symm.eq_nil hne
    | cons r l => rfl

/-! ### Saving sites -/

/-- The default site is a preference of its own. -/
theorem lookup_default (x : JSString) {key : CString}
    (hkey : dataRoot <+: key ∨ nameRoot <+: key) :
    AList.lookup key (SetPublishStringPref t (js "default_site") x) = AList.lookup key t := by
  have hname : getPrefName (js "default_site") = mPrefRoot ++ deflate (js "default_site") :=
    getPrefName_eq (by decide)
  have hfirst : (key.drop mPrefRoot.length).head? = some 115 := by
    rcases hkey with ⟨y, rfl⟩ | ⟨y, rfl⟩
    · rw [dataRoot, List.append_assoc, List.drop_left]
      rfl
    · rw [nameRoot, List.append_assoc, List.drop_left]
      rfl
  rw [SetPublishStringPref_eq (by decide), setPref, PrefTable.lookup_hashPref_ne]
  rintro rfl
  rw [hname, List.drop_left] at hfirst
  revert hfirst
  decide

theorem Stored.set_default (h : Stored t sites) (x : JSString) :
    Stored (SetPublishStringPref t (js "default_site") x) sites := by
  intro key pref hkey
  rw [lookup_default x (.inl hkey)]
  exact h key pref hkey

theorem Numbered.set_default (h : Numbered t names) (x : JSString) :
    Numbered (SetPublishStringPref t (js "default_site") x) names := by
  intro key pref hkey
  rw [lookup_default x (.inr hkey)]
  exact h key pref hkey

/-- The loop of `SavePublishSiteDataToPrefs`. -/
theorem saveSites_eq {rest : List PublishData} (done : List PublishData)
    (hfit : Fit (done ++ rest.map (prepared io))) (h : Stored t done)
    (hnum : Numbered t (done.map PublishData.siteName)) :
    ∃ t', saveSites io done.length rest t = (t', rest.map (prepared io)) ∧
      Stored t' (done ++ rest.map (prepared io)) ∧
      Numbered t' ((done ++ rest.map (prepared io)).map PublishData.siteName) := by
  induction rest generalizing t done with
  | nil =>
    rw [List.map_nil, List.append_nil]
    exact ⟨t, rfl, h, hnum⟩
  | cons d rest ih =>
    obtain ⟨s, hs⟩ : ∃ s, s = prepared io d := ⟨_, rfl⟩
    rw [List.map_cons, ← hs] at hfit ⊢
    have hnew : ∀ s' ∈ done, deflate s'.siteName ≠ deflate s.siteName := by
      intro s' hs'
      exact (List.pairwise_append.mp hfit.apart).2.2 s' hs' s List.mem_cons_self
    have hstor := hfit.storable s (by simp)
    obtain ⟨t₁, hsave, hst₁, hnum₁⟩ := save_new io h hnum hs hstor hnew
      (i := done.length) (by rw [List.length_map])
    have hput : put (done.map PublishData.siteName) done.length s.siteName =
        (done ++ [s]).map PublishData.siteName := by
      have := put_length (done.map PublishData.siteName) s.siteName
      rw [List.length_map] at this
      rw [this, List.map_append]
      rfl
    rw [hput] at hnum₁
    have hassoc : done ++ s :: rest.map (prepared io) = (done ++ [s]) ++ rest.map (prepared io) := by
      rw [List.append_assoc]
      rfl
    rw [hassoc] at hfit ⊢
    obtain ⟨t', heq, hst', hnum'⟩ := ih (done ++ [s]) hfit
      (hst₁.perm (List.perm_append_singleton s done).symm) hnum₁
    rw [List.length_append] at heq
    refine ⟨t', ?_, hst', hnum'⟩
    rw [saveSites, hsave]
    simp only []
    rw [show done.length + 1 = done.length + [s].length from rfl, heq]

/-- `SavePublishSiteDataToPrefs` stores its sites, whatever was there. -/
theorem holds_saveAll (t : PrefTable) {siteArray : List PublishData}
    (hfit : Fit (siteArray.map (prepared io))) (defaultName : JSString) :
    Holds (SavePublishSiteDataToPrefs io t siteArray defaultName).1
      (siteArray.map (prepared io)) := by
  have hst := stored_delete_data (deleteBranch t (js "site_name."))
  have hnum := (numbered_delete_names t).delete_data
  obtain ⟨t', heq, hst', hnum'⟩ := saveSites_eq io [] hfit hst hnum
  rw [List.nil_append] at hst' hnum'
  rw [List.length_nil] at heq
  simp only [SavePublishSiteDataToPrefs, heq]
  exact ⟨hfit, hst'.set_default _, _, List.Perm.refl _, hnum'.set_default _⟩

/-- The number of a name. -/
theorem Numbered.siteNumber_eq (h : Numbered t names) (hnames : ∀ name ∈ names, Text name)
    (name : JSString) : (∃ A B, names = A ++ name :: B ∧ siteNumber t name names.length = A.length) ∨
      name ∉ names ∧ siteNumber t name names.length = names.length := by
  have hget : ∀ i (hi : i < names.length),
      GetPublishStringPref t (js "site_name." ++ num i) = names[i] := fun i hi =>
    h.name_eq (List.getElem?_eq_getElem hi) (hnames _ (List.getElem_mem hi))
  rw [siteNumber]
  cases hfind : (List.range names.length).find? fun i =>
      GetPublishStringPref t (js "site_name." ++ num i) = name with
  | some i =>
    left
    have hi := List.mem_range.mp (List.mem_of_find?_eq_some hfind)
    have hname := List.find?_some hfind
    rw [decide_eq_true_eq, hget i hi] at hname
    obtain ⟨A, B, hAB, hA⟩ := exists_cut_of_getElem? (List.getElem?_eq_getElem hi)
    exact ⟨A, B, by rw [hAB, hname], hA.symm⟩
  | none =>
    right
    refine ⟨fun hmem => ?_, rfl⟩
    obtain ⟨i, hi, hname⟩ := List.getElem_of_mem hmem
    have := List.find?_eq_none.mp hfind i (List.mem_range.mpr hi)
    rw [decide_eq_true_eq, hget i hi] at this
    exact this hname

/-- The names of the other sites. -/
theorem map_others (siteName : JSString) (sites : List PublishData) :
    (others siteName sites).map PublishData.siteName =
      (sites.map PublishData.siteName).filter fun n => n ≠ siteName := by
  rw [others, List.filter_map]
  rfl

theorem Fit.names_nodup (h : Fit sites) : (sites.map PublishData.siteName).Nodup := by
  rw [List.Nodup, List.pairwise_map]
  exact h.apart.imp fun hne heq => hne (by rw [heq])

/-- A site is saved over the one with its previous name, or as a new one. -/
theorem holds_save (h : Holds t sites) {d s : PublishData} {name : JSString} (hs : s = prepared io d)
    (hfit : Fit (s :: others name sites))
    (hspared : (∃ s ∈ sites, s.siteName = name) → Spared name sites) {i n : ℕ}
    (hn : n = (getChildList t (js "site_name.")).length) (hi : i = siteNumber t name n) :
    Holds (SavePublishData_Internal io
      (if i < n then deleteBranch t (js "site_data." ++ name ++ js ".") else t) d i).1
      (s :: others name sites) := by
  obtain ⟨hfit₀, hst, names, hperm, hnum⟩ := h
  have hlen : n = names.length := by
    rw [hn, hnum.children_perm.length_eq, List.length_map, List.length_range]
  subst hlen
  have hstor : Storable s := hfit.storable s List.mem_cons_self
  have hnew : ∀ s' ∈ others name sites, deflate s'.siteName ≠ deflate s.siteName := by
    intro s' hs'
    exact ((List.pairwise_cons.mp hfit.apart).1 s' hs').symm
  have htexts : ∀ name ∈ names, Text name := fun n hn => (storable_names hfit₀ hperm n hn).2
  have hrest : (names.filter fun n => n ≠ name).Perm
      ((others name sites).map PublishData.siteName) := by
    rw [map_others]
    exact hperm.filter _
  rcases hnum.siteNumber_eq htexts name with ⟨A, B, rfl, hnumber⟩ | ⟨hmem, hnumber⟩
  · rw [← hi] at hnumber
    subst hnumber
    have hmem : name ∈ A ++ name :: B := by simp
    obtain ⟨s₀, hs₀, hs₀name⟩ := List.mem_map.mp (hperm.mem_iff.mp hmem)
    have hname : Name name := hs₀name ▸ (hfit₀.storable s₀ hs₀).name
    have hnodup : (A ++ name :: B).Nodup := hperm.nodup_iff.mpr hfit₀.names_nodup
    obtain ⟨hA, hB⟩ := not_mem_of_nodup_cut hnodup
    have hfilter : (A ++ name :: B).filter (fun n => n ≠ name) = A ++ B := by
      rw [List.filter_append, List.filter_cons_of_neg (by simp), List.filter_eq_self.mpr,
        List.filter_eq_self.mpr]
      · intro x hx
        have hne : x ≠ name := fun h => hB (h ▸ hx)
        simpa using hne
      · intro x hx
        have hne : x ≠ name := fun h => hA (h ▸ hx)
        simpa using hne
    have hothers : ∀ s, s ∈ others name sites ↔ s ∈ sites ∧ s.siteName ≠ name := fun s => by
      simp [others]
    have hst₁ := hst.delete_site hname (hspared ⟨s₀, hs₀, hs₀name⟩) hothers
    obtain ⟨t', heq, hst', hnum'⟩ := save_new io hst₁ (hnum.delete_site hname) hs hstor hnew
      (i := A.length) (by simp)
    rw [if_pos (by simp), heq]
    refine ⟨hfit, hst', _, ?_, hnum'⟩
    rw [hfilter] at hrest
    have hput : put (A ++ name :: B) A.length s.siteName = A ++ s.siteName :: B := by
      rw [put, List.take_left, List.drop_length_add_append]
      rfl
    rw [hput, List.map_cons]
    exact List.perm_middle.trans (hrest.cons _)
  · rw [hnumber] at hi
    subst hi
    rw [if_neg (Nat.lt_irrefl _)]
    have hall : others name sites = sites := by
      rw [others, List.filter_eq_self]
      intro x hx
      have hne : x.siteName ≠ name := fun h =>
        hmem (hperm.mem_iff.mpr (h ▸ List.mem_map_of_mem hx))
      simpa using hne
    rw [hall] at hfit hnew ⊢
    obtain ⟨t', heq, hst', hnum'⟩ := save_new io hst hnum hs hstor hnew (Nat.le_refl _)
    rw [heq]
    refine ⟨hfit, hst', _, ?_, hnum'⟩
    rw [put_length, List.map_cons]
    exact (List.perm_append_singleton _ _).trans (hperm.cons _)

theorem Holds.set_default (h : Holds t sites) (x : JSString) :
    Holds (SetPublishStringPref t (js "default_site") x) sites := by
  obtain ⟨hfit, hst, names, hperm, hnum⟩ := h
  exact ⟨hfit, hst.set_default x, names, hperm, hnum.set_default x⟩

/-- The number of sites is the number of names. -/
theorem Holds.siteCount (h : Holds t sites) :
    (getChildList t (js "site_name.")).length = sites.length := by
  obtain ⟨-, -, names, hperm, hnum⟩ := h
  rw [hnum.children_perm.length_eq, List.length_map, List.length_range, hperm.length_eq,
    List.length_map]

/-- A step that reaches no preferences of other sites stores what is saved. -/
theorem Holds.step {σ : State} (h : Holds σ.1 sites) {a : Step} (hok : a.Ok io sites) :
    Holds (a.run io pm σ).1 (a.saved io sites) := by
  cases a with
  | saveAll siteArray defaultName => exact holds_saveAll io σ.1 hok defaultName
  | get =>
    obtain ⟨r, t', security', heq, h', -⟩ := h.GetPublishSiteData_eq pm σ.2
    show Holds (GetPublishSiteData pm σ.1 σ.2).2.1 sites
    rw [heq]
    exact h'
  | save d =>
    show Holds (SavePublishDataToPrefs io σ.1 d).1 _
    simp only [Step.Ok, Step.saved] at hok ⊢
    rw [SavePublishDataToPrefs]
    by_cases hlocal : d.localPath = []
    · rw [if_pos hlocal, if_pos hlocal]
      exact h
    · rw [if_neg hlocal] at hok
      rw [if_neg hlocal, if_neg hlocal]
      obtain ⟨hfit, hspared⟩ := hok hlocal
      obtain ⟨d', hd'⟩ : ∃ d', d' = withName io d := ⟨_, rfl⟩
      have hwith : (if d.siteName = [] then
          { d with siteName := CreateSiteNameFromUrl io d.publishUrl } else d) = d' := hd'.symm
      rw [← hd'] at hfit hspared ⊢
      simp only [hwith]
      by_cases hsites : sites = []
      · have hcount : (getChildList σ.1 (js "site_name.")).length = 0 := by
          rw [h.siteCount, hsites]
          rfl
        rw [if_pos hsites] at hfit ⊢
        rw [if_pos hcount]
        exact @holds_saveAll io σ.1 [d'] hfit d'.siteName
      · have hcount : (getChildList σ.1 (js "site_name.")).length ≠ 0 := by
          rw [h.siteCount]
          exact fun h0 => hsites (List.eq_nil_of_length_eq_zero h0)
        rw [if_neg hsites] at hfit ⊢
        rw [if_neg hcount]
        have hsave := holds_save io h rfl hfit hspared rfl rfl
        rw [previousName] at hsave ⊢
        simp only []
        split_ifs at hsave ⊢
        all_goals first | exact hsave | exact hsave.set_default _

/-- What is read of the sites at the end of a run that begins with saving them all: for each the
data that were last saved for it, in the form for publishing. -/
theorem sites_independent (t : PrefTable) (security : Option PRInt32)
    (siteArray : List PublishData) (defaultName : JSString) (steps : List Step)
    (hok : OkRun io [] (.saveAll siteArray defaultName :: steps)) :
    let σ := run io pm (t, security) (.saveAll siteArray defaultName :: steps)
    let sites := savedAfter io [] (.saveAll siteArray defaultName :: steps)
    sites = [] ∧ (GetPublishSiteData pm σ.1 σ.2).1 = none ∨
      ∃ l, (GetPublishSiteData pm σ.1 σ.2).1 = some l ∧ l.Perm (sites.map (returned pm)) := by
  have hrun : ∀ (steps : List Step) (σ : State) (sites : List PublishData), Holds σ.1 sites →
      OkRun io sites steps → Holds (run io pm σ steps).1 (savedAfter io sites steps) := by
    intro steps
    induction steps with
    | nil => exact fun σ sites h _ => h
    | cons a steps ih => exact fun σ sites h hok => ih _ _ (h.step io pm hok.1) hok.2
  have h := hrun steps (Step.run io pm (t, security) (.saveAll siteArray defaultName)) _
    (holds_saveAll io t hok.1 defaultName) hok.2
  obtain ⟨r, t', security', heq, -, hr⟩ := h.GetPublishSiteData_eq pm
    (run io pm (t, security) (.saveAll siteArray defaultName :: steps)).2
  intro σ sites
  have hread : (GetPublishSiteData pm σ.1 σ.2).1 = r := congrArg Prod.fst heq
  rw [hread]
  exact hr

/-! ### Two sites -/

/-- A site with a name, a local path and a kind of security. -/
def site (siteName localPath : String) (security : PRInt32) : PublishData where
  siteName := js siteName
  previousSiteName := []
  localPath := js localPath
  username := js "me"
  savePassword := false
  publishUrl := js "ftp://host/"
  browseUrl := js "http://host/"
  browsePrefix := []
  docDir := js "docs/"
  otherDir := []
  publishOtherFiles := false
  dirList := [[], js "docs/", js "old/"]
  passiveMode := true
  IPv6 := false
  security := security
  ftpPort := js "21"
  treeSync := false

/-- A network service that knows no address. -/
def offline : IOService := ⟨fun _ => none, fun _ => none⟩

/-- Saving one of two sites again and reading both. -/
theorem sites_independent_two : ∃ l, (GetPublishSiteData (fun _ => [])
    (run offline (fun _ => []) (∅, none)
      [.saveAll [site "a" "/a" 2, site "b" "/b" 0] [], .save (site "a" "/c" 1)]).1 none).1 = some l ∧
    l.Perm [returned (fun _ => []) (prepared offline { site "a" "/c" 1 with
        previousSiteName := js "a" }),
      returned (fun _ => []) (prepared offline (site "b" "/b" 0))] := by
  have hok : OkRun offline [] [.saveAll [site "a" "/a" 2, site "b" "/b" 0] [],
      .save (site "a" "/c" 1)] :=
    ⟨⟨by decide +kernel, by decide +kernel, by decide +kernel⟩,
      fun _ => ⟨⟨by decide +kernel, by decide +kernel, by decide +kernel⟩,
        fun _ => by decide +kernel⟩, trivial⟩
  rcases sites_independent offline (fun _ => []) ∅ none _ _ _ hok with ⟨h, -⟩ | h
  · cases h
  · exact h

/-- The data of a site are lost when a site is saved whose name the other name continues behind a
dot, and what is read then of the number is that of the first site. -/
theorem continued_site_lost :
    let σ := run offline (fun _ => []) (∅, none)
      [.saveAll [site "a" "/a" 2, site "a.b" "/b" 0] [], .save (site "a" "/a" 2)]
    ((GetPublishSiteData (fun _ => []) σ.1 σ.2).1.map fun l => l.map fun s =>
        (s.siteName, s.localPath, s.security)) =
      some [(js "a", js "/a", 2), (js "a.b", [], 2)] := by
  decide +kernel

end Kompozer.Publish

import Kompozer.Lib.Trim
import Kompozer.Publish.Credentials

/-! The site to which a document belongs (`publishprefs.js`): the one with the longest address in
front of the document's directory, and the directory inside it. -/

namespace Kompozer.Publish

variable (io : IOService)

/-- The place behind the last slash. -/
def behindSlash (docUrl : JSString) : ℕ :=
  (lastIndexOf docUrl (js "/") docUrl.length).elim 0 (· + 1)

/-- The directory of a document, up to its last slash. -/
def directory (docUrl : JSString) : JSString := docUrl.take (behindSlash docUrl)

/-- Whether a site's address is found in front. An empty one is not. -/
def urlFound (baseUrl url : JSString) : Bool := url ≠ [] && indexOf baseUrl url = some 0

/-- The length of the match, and the data with the file and the directory inside the site. -/
def FillInMatchingPublishData (publishData : PublishData) (docUrl : JSString) : ℕ × PublishData :=
  if docUrl = [] then (0, publishData)
  else
    let baseUrl := directory docUrl
    let filename := docUrl.drop (behindSlash docUrl)
    let (baseUrl, username, _) := StripUsernamePassword io baseUrl
    let pubUrlFound := urlFound baseUrl publishData.publishUrl
    let browseUrlFound := urlFound baseUrl publishData.browseUrl
    if (pubUrlFound ∨ browseUrlFound) ∧
        (username = [] ∨ publishData.username = [] ∨ username = publishData.username) then
      let matchedLength :=
        if pubUrlFound then publishData.publishUrl.length else publishData.browseUrl.length
      if 0 < matchedLength then
        (matchedLength, { publishData with
          filename := filename
          docDir := FormatDirForPublishing (baseUrl.drop matchedLength) })
      else (matchedLength, publishData)
    else (0, publishData)

/-- The best site so far. -/
structure Found where
  siteIndex : ℤ := -1
  siteUrlLen : ℕ := 0
  dir : JSString := []

/-- The loop over the sites, from an index on. -/
def findLoop (docUrl : JSString) : ℕ → List PublishData → Found → Found
  | _, [], best => best
  | i, site :: sites, best =>
    let (len, tempData) := FillInMatchingPublishData io site docUrl
    findLoop docUrl (i + 1) sites
      (if best.siteUrlLen < len then ⟨i, len, tempData.docDir⟩ else best)

/-- The index of the site, or -1, and the directory inside it. No list of sites is an empty one. -/
def FindSiteIndexAndDocDir (publishSiteData : List PublishData) (docUrl : JSString) :
    ℤ × JSString :=
  if docUrl = [] ∨ GetScheme io docUrl = js "file" then (-1, [])
  else
    let best := findLoop io docUrl 0 publishSiteData {}
    (best.siteIndex, best.dir)

/-! ### Documents -/

/-- An address of a document, without white space in front and without a user. -/
structure Document (docUrl : JSString) : Prop where
  front : ∀ c ∈ docUrl.head?, isSpace c = false
  user : ∀ uri ∈ io.newURI (directory docUrl), uri.username = []

/-- The address with which a site matches a directory: the one where it is published, or else the
one where it is browsed. -/
def siteUrl (dir : JSString) (site : PublishData) : Option JSString :=
  if site.publishUrl ≠ [] ∧ site.publishUrl <+: dir then some site.publishUrl
  else if site.browseUrl ≠ [] ∧ site.browseUrl <+: dir then some site.browseUrl
  else none

variable {io}

theorem directory_eq (docUrl : JSString) :
    directory docUrl = [] ∨ ∃ x, directory docUrl = x ++ ['/'] := by
  rw [directory, behindSlash]
  cases hslash : lastIndexOf docUrl (js "/") docUrl.length with
  | none => exact .inl rfl
  | some i =>
    obtain ⟨-, hchar, -⟩ := (lastIndexOf_eq_some_iff (c := '/')).mp hslash
    refine .inr ⟨docUrl.take i, ?_⟩
    rw [Option.elim_some, List.take_add_one, hchar]
    rfl

theorem directory_append (docUrl : JSString) :
    directory docUrl ++ docUrl.drop (behindSlash docUrl) = docUrl :=
  List.take_append_drop _ _

/-- What ends in a slash has white space at most in front. -/
theorem TrimString_slash (x : JSString) :
    TrimString (x ++ ['/']) = x.dropWhile isSpace ++ ['/'] := by
  have hslash : isSpace '/' = false := by decide
  have htrim : TrimString (x ++ ['/']) =
      ((x ++ ['/']).dropWhile isSpace).rdropWhile isSpace := rfl
  rw [htrim, Lib.dropWhile_append_cons hslash, List.rdropWhile_concat_neg _ _ _ (by simp [hslash])]

theorem Document.trim {docUrl : JSString} (h : Document io docUrl) :
    TrimString (directory docUrl) = directory docUrl := by
  rcases directory_eq docUrl with hnil | ⟨x, hx⟩
  · rw [hnil]
    rfl
  · rw [hx, TrimString_slash]
    congr 1
    cases x with
    | nil => rfl
    | cons c x =>
      have hc : isSpace c = false := by
        refine h.front c ?_
        rw [← directory_append docUrl, hx]
        rfl
      exact List.dropWhile_cons_of_neg (by simp [hc])

/-- A document's directory stays as it is, and no user is found in it. -/
theorem Document.strip {docUrl : JSString} (h : Document io docUrl) :
    ∃ password, StripUsernamePassword io (directory docUrl) = (directory docUrl, [], password) := by
  rw [StripUsernamePassword, h.trim]
  split_ifs
  · exact ⟨_, rfl⟩
  · cases indexOf (directory docUrl) (js "@") with
    | none => exact ⟨_, rfl⟩
    | some atIndex =>
      dsimp only
      split_ifs
      · exact ⟨_, rfl⟩
      · cases huri : io.newURI (directory docUrl) with
        | none => exact ⟨_, rfl⟩
        | some uri =>
          have hname := h.user uri huri
          dsimp only
          rw [if_pos hname, hname]
          exact ⟨_, rfl⟩

/-! ### One site -/

theorem urlFound_iff {baseUrl url : JSString} :
    urlFound baseUrl url = true ↔ url ≠ [] ∧ url <+: baseUrl := by
  rw [urlFound, Bool.and_eq_true, decide_eq_true_iff, decide_eq_true_iff, indexOf_eq_some_iff]
  simp

theorem FillInMatchingPublishData_eq {docUrl : JSString} (h : Document io docUrl)
    (hne : docUrl ≠ []) (site : PublishData) :
    FillInMatchingPublishData io site docUrl =
      match siteUrl (directory docUrl) site with
      | none => (0, site)
      | some url => (url.length, { site with
          filename := docUrl.drop (behindSlash docUrl)
          docDir := FormatDirForPublishing ((directory docUrl).drop url.length) }) := by
  obtain ⟨password, hstrip⟩ := h.strip
  rw [FillInMatchingPublishData, if_neg hne, siteUrl]
  dsimp only
  rw [hstrip]
  dsimp only
  by_cases hpublish : site.publishUrl ≠ [] ∧ site.publishUrl <+: directory docUrl
  · have hfound := urlFound_iff.mpr hpublish
    rw [if_pos ⟨.inl hfound, .inl rfl⟩, if_pos hpublish, if_pos hfound,
      if_pos (List.length_pos_iff.mpr hpublish.1)]
  · have hfound : ¬ urlFound (directory docUrl) site.publishUrl = true :=
      mt urlFound_iff.mp hpublish
    rw [if_neg hpublish, if_neg hfound]
    by_cases hbrowse : site.browseUrl ≠ [] ∧ site.browseUrl <+: directory docUrl
    · rw [if_pos ⟨.inr (urlFound_iff.mpr hbrowse), .inl rfl⟩, if_pos hbrowse,
        if_pos (List.length_pos_iff.mpr hbrowse.1)]
    · rw [if_neg hbrowse, if_neg]
      exact fun hmatch => hmatch.1.elim hfound (mt urlFound_iff.mp hbrowse)

theorem siteUrl_eq_none_iff {dir : JSString} {site : PublishData} :
    siteUrl dir site = none ↔
      ∀ url ∈ [site.publishUrl, site.browseUrl], url ≠ [] → ¬ url <+: dir := by
  rw [siteUrl]
  split_ifs with hpublish hbrowse
  · simpa using fun h => absurd hpublish.2 (h hpublish.1)
  · simpa using fun _ => ⟨hbrowse.1, hbrowse.2⟩
  · simpa [not_and] using ⟨fun h => not_and.mp hpublish h, fun h => not_and.mp hbrowse h⟩

theorem siteUrl_spec {dir : JSString} {site : PublishData} {url : JSString}
    (h : siteUrl dir site = some url) : url ≠ [] ∧ url <+: dir := by
  rw [siteUrl] at h
  split_ifs at h with hpublish hbrowse
  · cases h
    exact hpublish
  · cases h
    exact hbrowse

/-! ### The directory inside a site -/

theorem FormatDirForPublishing_slash (x : JSString) :
    FormatDirForPublishing (x ++ ['/']) =
      if x.dropWhile isSpace = [] ∨ x.dropWhile isSpace = ['/'] then []
      else if (x.dropWhile isSpace).head? = some '/' then (x.dropWhile isSpace).drop 1 ++ ['/']
      else x.dropWhile isSpace ++ ['/'] := by
  rw [FormatDirForPublishing, TrimString_slash]
  generalize x.dropWhile isSpace = y
  have hends : ends '/' = true := by decide
  have htyped {z : JSString} (h : z ≠ [] ∧ z ≠ ['/']) :
      ¬ (z ++ ['/'] = [] ∨ z ++ ['/'] = js "/" ∨ z ++ ['/'] = js "//") := by
    rintro (hnil | hone | htwo)
    · simp at hnil
    · exact h.1 (List.append_left_injective ['/'] hone)
    · exact h.2 (List.append_left_injective ['/'] htwo)
  have hlast (w : Char) (z : JSString) : (w :: (z ++ ['/'])).getLast? = some '/' := by
    rw [← List.cons_append, List.getLast?_concat]
  cases y with
  | nil => rfl
  | cons c y =>
    by_cases hc : c = '/'
    · subst hc
      cases y with
      | nil => rfl
      | cons d y =>
        rw [if_neg (htyped (by simp)), if_neg (show ¬ (_ = [] ∨ _ = ['/']) by simp)]
        simp [hlast, hends]
    · rw [if_neg (htyped (by simp [hc])), if_neg (show ¬ (_ = [] ∨ _ = ['/']) by simp [hc])]
      simp [hc, hlast, hends]

/-- What a site's address leaves is the directory again unless it begins with a slash or white
space. -/
theorem FormatDirForPublishing_eq_iff {rest : JSString}
    (h : rest = [] ∨ ∃ x, rest = x ++ ['/']) :
    FormatDirForPublishing rest = rest ↔ ∀ c ∈ rest.head?, c ≠ '/' ∧ isSpace c = false := by
  rcases h with rfl | ⟨x, rfl⟩
  · exact iff_of_true rfl (by simp)
  · rw [FormatDirForPublishing_slash]
    cases x with
    | nil => exact iff_of_false (by simp) (by simp)
    | cons c x =>
      have hless : (x.dropWhile isSpace).length ≤ x.length :=
        (List.dropWhile_sublist isSpace).length_le
      by_cases hspace : isSpace c = true
      · refine iff_of_false (fun heq => ?_) fun hhead => ?_
        · rw [List.dropWhile_cons_of_pos hspace] at heq
          have hlength := congrArg List.length heq
          split_ifs at hlength
          · simp at hlength
          · simp at hlength
            omega
          · simp at hlength
            omega
        · have hnot := (hhead c rfl).2
          rw [hspace] at hnot
          cases hnot
      · rw [List.dropWhile_cons_of_neg hspace]
        by_cases hslash : c = '/'
        · subst hslash
          refine iff_of_false (fun heq => ?_) fun hhead => (hhead '/' rfl).1 rfl
          by_cases hone : x = []
          · simp [hone] at heq
          · rw [if_neg (by simp [hone]), if_pos (show ('/' :: x).head? = some '/' from rfl)] at heq
            have hlength := congrArg List.length heq
            simp at hlength
        · rw [if_neg (by simp [hslash]), if_neg (by simp [hslash])]
          refine iff_of_true rfl fun d hd => ?_
          cases hd
          exact ⟨hslash, by simpa using hspace⟩

theorem directory_drop (docUrl : JSString) (n : ℕ) :
    (directory docUrl).drop n = [] ∨ ∃ x, (directory docUrl).drop n = x ++ ['/'] := by
  rcases directory_eq docUrl with hnil | ⟨x, hx⟩
  · rw [hnil]
    exact .inl List.drop_nil
  · rw [hx]
    by_cases hn : n ≤ x.length
    · exact .inr ⟨x.drop n, List.drop_append_of_le_length hn⟩
    · refine .inl (List.drop_eq_nil_of_le ?_)
      rw [List.length_append, List.length_singleton]
      omega

/-- When the address, the directory and the file are the document's address again. -/
theorem reassembled_iff {docUrl url : JSString} (h : url <+: directory docUrl) :
    url ++ FormatDirForPublishing ((directory docUrl).drop url.length) ++
        docUrl.drop (behindSlash docUrl) = docUrl ↔
      ∀ c ∈ ((directory docUrl).drop url.length).head?, c ≠ '/' ∧ isSpace c = false := by
  have hrest := FormatDirForPublishing_eq_iff (directory_drop docUrl url.length)
  have hdirectory : url ++ (directory docUrl).drop url.length = directory docUrl :=
    List.prefix_iff_eq_append.mp h
  have hdocument := directory_append docUrl
  generalize docUrl.drop (behindSlash docUrl) = filename at hdocument ⊢
  generalize (directory docUrl).drop url.length = rest at hrest hdirectory ⊢
  rw [← hrest]
  constructor
  · intro hsame
    rw [← hdocument, ← hdirectory] at hsame
    exact List.append_cancel_left (List.append_cancel_right hsame)
  · intro hsame
    rw [hsame, hdirectory, hdocument]

/-! ### All sites -/

/-- What the loop has found among the sites so far. -/
def Best (dir : JSString) (sites : List PublishData) (best : Found) : Prop :=
  best.siteIndex = -1 ∧ best.siteUrlLen = 0 ∧ (∀ site ∈ sites, siteUrl dir site = none) ∨
    ∃ (i : ℕ) (site : PublishData) (url : JSString), best.siteIndex = i ∧ sites[i]? = some site ∧
      siteUrl dir site = some url ∧ best.siteUrlLen = url.length ∧
      best.dir = FormatDirForPublishing (dir.drop url.length) ∧
      ∀ site' ∈ sites, ∀ url' ∈ siteUrl dir site', url'.length ≤ url.length

/-- The step of the loop: one more site. -/
theorem Best.step {docUrl : JSString} (h : Document io docUrl) (hne : docUrl ≠ [])
    {sites : List PublishData} {best : Found} (hbest : Best (directory docUrl) sites best)
    (site : PublishData) :
    Best (directory docUrl) (sites ++ [site])
      (if best.siteUrlLen < (FillInMatchingPublishData io site docUrl).1 then
        ⟨sites.length, (FillInMatchingPublishData io site docUrl).1,
          (FillInMatchingPublishData io site docUrl).2.docDir⟩
      else best) := by
  rw [FillInMatchingPublishData_eq h hne]
  have hmem {P : PublishData → Prop} (hall : ∀ site' ∈ sites, P site') (hsite : P site) :
      ∀ site' ∈ sites ++ [site], P site' := by
    intro site' hsite'
    rcases List.mem_append.mp hsite' with hsite' | hsite'
    · exact hall site' hsite'
    · rwa [List.mem_singleton.mp hsite']
  have hfirst : (sites ++ [site])[sites.length]? = some site := List.getElem?_concat_length
  cases hurl : siteUrl (directory docUrl) site with
  | none =>
    rw [if_neg (by simp)]
    rcases hbest with ⟨hindex, hlen, hnone⟩ | ⟨i, site', url, hindex, hat, hmatch, hlen, hdir, hall⟩
    · exact .inl ⟨hindex, hlen, hmem hnone hurl⟩
    · have hlt := (List.getElem?_eq_some_iff.mp hat).1
      refine .inr ⟨i, site', url, hindex, ?_, hmatch, hlen, hdir, hmem hall ?_⟩
      · rwa [List.getElem?_append_left hlt]
      · rw [hurl]
        simp
  | some url =>
    have hpos : 0 < url.length := List.length_pos_iff.mpr (siteUrl_spec hurl).1
    rcases hbest with
      ⟨hindex, hlen, hnone⟩ | ⟨i, site', best', hindex, hat, hmatch, hlen, hdir, hall⟩
    · rw [if_pos (by rwa [hlen])]
      refine .inr ⟨sites.length, site, url, rfl, hfirst, hurl, rfl, rfl, hmem ?_ ?_⟩
      · intro site' hsite' url' hurl'
        rw [hnone site' hsite'] at hurl'
        cases hurl'
      · rw [hurl]
        simp
    · split_ifs with hlonger
      · rw [hlen] at hlonger
        refine .inr ⟨sites.length, site, url, rfl, hfirst, hurl, rfl, rfl, hmem ?_ ?_⟩
        · exact fun site' hsite' url' hurl' => (hall site' hsite' url' hurl').trans hlonger.le
        · rw [hurl]
          simp
      · have hlt := (List.getElem?_eq_some_iff.mp hat).1
        refine .inr ⟨i, site', best', hindex, ?_, hmatch, hlen, hdir, hmem hall ?_⟩
        · rwa [List.getElem?_append_left hlt]
        · rw [hurl, ← hlen]
          simpa using hlonger

theorem Best.run {docUrl : JSString} (h : Document io docUrl) (hne : docUrl ≠ [])
    (sites : List PublishData) {done : List PublishData} {best : Found}
    (hbest : Best (directory docUrl) done best) :
    Best (directory docUrl) (done ++ sites) (findLoop io docUrl done.length sites best) := by
  induction sites generalizing done best with
  | nil => rwa [List.append_nil]
  | cons site sites ih =>
    have hstep := ih (hbest.step h hne site)
    rwa [List.append_assoc, List.length_append] at hstep

variable (io) in
/-- What is found for a document: no site where there is none, and else one whose match is the
longest, with the directory inside it. -/
structure FindsSite (sites : List PublishData) (docUrl : JSString) : Prop where
  absent : (FindSiteIndexAndDocDir io sites docUrl).1 = -1 ↔
    GetScheme io docUrl = js "file" ∨ ∀ site ∈ sites, ∀ url ∈ [site.publishUrl, site.browseUrl],
      url ≠ [] → ¬ url <+: directory docUrl
  found : (FindSiteIndexAndDocDir io sites docUrl).1 ≠ -1 →
    ∃ (i : ℕ) (site : PublishData) (url docDir : JSString),
      FindSiteIndexAndDocDir io sites docUrl = (↑i, docDir) ∧ sites[i]? = some site ∧
      siteUrl (directory docUrl) site = some url ∧
      (∀ site' ∈ sites, ∀ url' ∈ siteUrl (directory docUrl) site', url'.length ≤ url.length) ∧
      docDir = FormatDirForPublishing ((directory docUrl).drop url.length) ∧
      (url ++ docDir ++ docUrl.drop (behindSlash docUrl) = docUrl ↔
        ∀ c ∈ ((directory docUrl).drop url.length).head?, c ≠ '/' ∧ isSpace c = false)

/-- Among the addresses in front of a document's directory, the longest match decides, unless the
document is a file. -/
theorem FindSiteIndexAndDocDir_finds (sites : List PublishData) {docUrl : JSString}
    (h : Document io docUrl) : FindsSite io sites docUrl := by
  have hskipped (hskip : docUrl = [] ∨ GetScheme io docUrl = js "file") :
      FindSiteIndexAndDocDir io sites docUrl = (-1, []) := if_pos hskip
  by_cases hne : docUrl = []
  · refine ⟨?_, ?_⟩
    · rw [hskipped (.inl hne), hne]
      refine iff_of_true rfl (.inr fun site _ url _ hurl hprefix => hurl ?_)
      exact List.prefix_nil.mp hprefix
    · rw [hskipped (.inl hne)]
      exact fun h => absurd rfl h
  by_cases hfile : GetScheme io docUrl = js "file"
  · refine ⟨?_, ?_⟩
    · rw [hskipped (.inr hfile)]
      exact iff_of_true rfl (.inl hfile)
    · rw [hskipped (.inr hfile)]
      exact fun h => absurd rfl h
  have hrun := @Best.run io docUrl h hne sites [] {} (.inl ⟨rfl, rfl, by simp⟩)
  have heq : FindSiteIndexAndDocDir io sites docUrl =
      ((findLoop io docUrl 0 sites {}).siteIndex, (findLoop io docUrl 0 sites {}).dir) :=
    if_neg (by simp [hne, hfile])
  rw [List.nil_append, List.length_nil] at hrun
  rcases hrun with
    ⟨hindex, -, hnone⟩ | ⟨i, site, url, hindex, hat, hmatch, -, hdir, hall⟩
  · refine ⟨?_, ?_⟩
    · rw [heq, hindex]
      exact iff_of_true rfl (.inr fun site hsite => siteUrl_eq_none_iff.mp (hnone site hsite))
    · rw [heq, hindex]
      exact fun h => absurd rfl h
  · refine ⟨?_, fun _ => ?_⟩
    · rw [heq, hindex]
      refine iff_of_false (by simp) fun habsent => ?_
      have hnone := habsent.resolve_left hfile site (List.mem_of_getElem? hat)
      rw [siteUrl_eq_none_iff.mpr hnone] at hmatch
      cases hmatch
    · refine ⟨i, site, url, (findLoop io docUrl 0 sites {}).dir, ?_, hat, hmatch, hall, hdir, ?_⟩
      · rw [heq, hindex]
      · rw [hdir]
        exact reassembled_iff (siteUrl_spec hmatch).2

/-- A network service for addresses without users. -/
def plainService : IOService where
  newURI s := some { username := [], password := [], host := (s.drop 7).takeWhile (· ≠ '/') }
  extractScheme s := some (s.takeWhile (· ≠ ':'))

/-- A site with nothing but its addresses. -/
def siteAt (publishUrl browseUrl : JSString) : PublishData where
  siteName := js "site"
  previousSiteName := []
  localPath := []
  username := []
  savePassword := false
  publishUrl := publishUrl
  browseUrl := browseUrl
  browsePrefix := []
  docDir := []
  otherDir := []
  publishOtherFiles := true
  dirList := []
  passiveMode := false
  IPv6 := false
  security := 0
  ftpPort := []
  treeSync := false

theorem FindSiteIndexAndDocDir_finds_second :
    FindsSite plainService [siteAt (js "http://h/") [], siteAt [] (js "http://h/a/")]
        (js "http://h/a/b/x") ∧
      FindSiteIndexAndDocDir plainService [siteAt (js "http://h/") [], siteAt [] (js "http://h/a/")]
        (js "http://h/a/b/x") = (1, js "b/") := by
  have hdocument : Document plainService (js "http://h/a/b/x") := by
    have hhead : (js "http://h/a/b/x").head? = some 'h' := by decide +kernel
    refine ⟨fun c hc => ?_, fun uri huri => ?_⟩
    · rw [hhead] at hc
      cases hc
      decide
    · cases huri
      rfl
  exact ⟨FindSiteIndexAndDocDir_finds _ hdocument, by decide +kernel⟩

/-- Files have no site; a browse address is not looked at where the publish address matches; and
a slash behind the match is not in the directory. -/
theorem FindSiteIndexAndDocDir_differs :
    (FindSiteIndexAndDocDir plainService [siteAt (js "file:///a/") []] (js "file:///a/x")).1 = -1 ∧
      FindSiteIndexAndDocDir plainService
        [siteAt (js "http://h/") (js "http://h/a/b/"), siteAt (js "http://h/a/") []]
        (js "http://h/a/b/x") = (1, js "b/") ∧
      FindSiteIndexAndDocDir plainService [siteAt (js "http://h") []] (js "http://h/a/x") =
        (0, js "a/") ∧
      js "http://h" ++ js "a/" ++ js "x" ≠ js "http://h/a/x" := by
  refine ⟨?_, ?_, ?_, ?_⟩ <;> decide +kernel

end Kompozer.Publish

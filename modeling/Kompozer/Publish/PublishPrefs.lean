import Kompozer.Publish.PrefBranch

/-! Publishing sites in the preferences (`publishprefs.js`). The network service and the password
manager are parameters. Passwords are not in the preferences; that `SavePassword` stores them is
not part of it. -/

namespace Kompozer.Publish

open Prefs NsResult

/-- What `newURI` gives of an address. -/
structure URI where
  username : JSString
  password : JSString
  host : JSString

/-- What is used of the network service: both may throw. -/
structure IOService where
  newURI : JSString → Option URI
  extractScheme : JSString → Option JSString

/-- The object with the data of a site. A name that is not there is empty. -/
structure PublishData where
  siteName : JSString
  previousSiteName : JSString
  localPath : JSString
  filename : JSString := []
  username : JSString
  password : JSString := []
  savePassword : Bool
  publishUrl : JSString
  browseUrl : JSString
  browsePrefix : JSString
  docDir : JSString
  otherDir : JSString
  publishOtherFiles : Bool
  saveDirs : Bool := false
  dirList : List JSString
  passiveMode : Bool
  IPv6 : Bool
  security : PRInt32
  ftpPort : JSString
  treeSync : Bool
  notInSiteData : Bool := false

/-! ### Texts -/

/-- What `\s` matches. -/
def isSpace (c : Char) : Bool :=
  c.toNat ∈ [9, 10, 11, 12, 13, 32, 0xA0, 0x1680, 0x2028, 0x2029, 0x202F, 0x3000] ||
    0x2000 ≤ c.toNat && c.toNat ≤ 0x200B

def TrimString (s : JSString) : JSString :=
  (((s.dropWhile isSpace).reverse).dropWhile isSpace).reverse

def IsUrlAboutBlank (urlString : JSString) : Bool :=
  (js "about:").isPrefixOf urlString || (js "chrome://").isPrefixOf urlString

/-- The index where a text occurs first. -/
def indexOf (s t : JSString) : Option ℕ :=
  (List.range (s.length + 1)).find? fun i => t.isPrefixOf (s.drop i)

variable (io : IOService)

def GetScheme (urlspec : JSString) : JSString :=
  let resultUrl := TrimString urlspec
  if resultUrl = [] then []
  else ((io.extractScheme resultUrl).getD []).map Char.toLower

def GetHost (urlspec : JSString) : JSString :=
  if urlspec = [] then []
  else match io.newURI urlspec with
    | some uri => uri.host
    | none => []

/-- The address without the user, and the user and the password. -/
def StripUsernamePassword (urlspec : JSString) : JSString × JSString × JSString :=
  let urlspec := TrimString urlspec
  if urlspec = [] ∨ IsUrlAboutBlank urlspec then (urlspec, [], [])
  else match indexOf urlspec (js "@") with
    | none => (urlspec, [], [])
    | some atIndex =>
      if atIndex = 0 then (urlspec, [], [])
      else match io.newURI urlspec with
        | none => (urlspec, [], [])
        | some uri =>
          if uri.username = [] then (urlspec, uri.username, uri.password)
          else match indexOf urlspec uri.username with
            | none => (urlspec, uri.username, uri.password)
            | some usernameStart =>
              (urlspec.take usernameStart ++ urlspec.drop (atIndex + 1), uri.username, uri.password)

/-- A character after which no slash is put. -/
def ends (c : Char) : Bool := c ∈ ['/', '=', '&', '?']

def FormatUrlForPublishing (url : JSString) : JSString :=
  let url := TrimString (StripUsernamePassword io url).1
  match url.getLast? with
  | none => url
  | some lastChar => if ends lastChar then url else url ++ ['/']

def FormatDirForPublishing (dir : JSString) : JSString :=
  let dir := TrimString dir
  if dir = [] ∨ dir = js "/" ∨ dir = js "//" then []
  else
    let dir := if dir.head? = some '/' then dir.drop 1 else dir
    match dir.getLast? with
    | none => dir
    | some lastChar => if 1 < dir.length ∧ !ends lastChar then dir ++ ['/'] else dir

/-- The user and the password become fields of their own. -/
def FixupUsernamePasswordInPublishData (publishData : PublishData) : PublishData :=
  if publishData.publishUrl = [] then publishData
  else
    let (url, user, pass) := StripUsernamePassword io publishData.publishUrl
    { publishData with
      publishUrl := FormatUrlForPublishing io url
      username := if user = [] then publishData.username else user
      password := if pass = [] then publishData.password else pass
      browseUrl := FormatUrlForPublishing io publishData.browseUrl }

/-! ### Getting the data of a site -/

/-- A number in a name. -/
def num (n : ℕ) : JSString := Nat.toDigits 10 n

/-- The flags of a site. The variable `security` is not declared, so it is a global one, which has
no value at first. -/
structure Flags where
  savePassword : Bool := false
  publishOtherFiles : Bool := true
  ipv6 : Bool := false
  passiveMode : Bool := false
  treeSync : Bool := false
  security : Option PRInt32

/-- A statement of a `try` block. When it throws, the rest of the block is left out. -/
def tryThen {α β : Type} (get : Except NsResult α) (next : α → β) (caught : β) : β :=
  match get with
  | .ok v => next v
  | .error _ => caught

/-- The flags are read in one `try` block. -/
def readFlags (t : PrefTable) (prefPrefix : JSString) (f : Flags) : Flags :=
  tryThen (getBoolPref t (prefPrefix ++ js "save_password"))
    (fun v => let f := { f with savePassword := v }
      tryThen (getBoolPref t (prefPrefix ++ js "publish_other_files"))
        (fun v => let f := { f with publishOtherFiles := v }
          tryThen (getBoolPref t (prefPrefix ++ js "ipv6"))
            (fun v => let f := { f with ipv6 := v }
              tryThen (getBoolPref t (prefPrefix ++ js "passive_mode"))
                (fun v => let f := { f with passiveMode := v }
                  tryThen (getBoolPref t (prefPrefix ++ js "tree_sync"))
                    (fun v => let f := { f with treeSync := v }
                      tryThen (getIntPref t (prefPrefix ++ js "security"))
                        (fun v => { f with security := some v }) f) f) f) f) f) f

/-- The password manager: what it has for some data. -/
abbrev PasswordManager := PublishData → JSString

variable (pm : PasswordManager)

/-- An element of an array is given a value. Elements in between that have none are empty. -/
def assign (l : List JSString) (i : ℕ) (v : JSString) : List JSString :=
  if i < l.length then l.set i v else l ++ List.replicate (i - l.length) [] ++ [v]

/-- The directories are read from preferences, from the `j`-th on. -/
def readDirs (t : PrefTable) : ℕ → List JSString → List JSString → List JSString
  | _, [], dirList => dirList
  | j, pref :: dirPrefs, dirList =>
    let dirName := GetPublishStringPref t pref
    readDirs t (j + 1) dirPrefs (if dirName = [] then dirList else assign dirList (j + 1) dirName)

/-- The data of a site that are in single preferences. -/
def siteData (t : PrefTable) (siteName : JSString) (f : Flags) (security : PRInt32) :
    PublishData :=
  let prefPrefix := js "site_data." ++ siteName ++ js "."
  { siteName := siteName
    previousSiteName := siteName
    localPath := GetPublishStringPref t (prefPrefix ++ js "local_path")
    filename := []
    username := GetPublishStringPref t (prefPrefix ++ js "username")
    savePassword := f.savePassword
    publishUrl := GetPublishStringPref t (prefPrefix ++ js "url")
    browseUrl := GetPublishStringPref t (prefPrefix ++ js "browse_url")
    browsePrefix := GetPublishStringPref t (prefPrefix ++ js "browse_prefix")
    docDir := FormatDirForPublishing (GetPublishStringPref t (prefPrefix ++ js "doc_dir"))
    otherDir := FormatDirForPublishing (GetPublishStringPref t (prefPrefix ++ js "other_dir"))
    publishOtherFiles := f.publishOtherFiles
    saveDirs := false
    passiveMode := f.passiveMode
    IPv6 := f.ipv6
    security := security
    ftpPort := GetPublishStringPref t (prefPrefix ++ js "ftpPort")
    treeSync := f.treeSync
    dirList := [[]] }

/-- `GetPublishData_internal`: the data, and the global variable after it. Without a name there is
no data; the first result is `none` when a variable without a value is read. -/
def GetPublishData_internal (t : PrefTable) (security : Option PRInt32) (siteName : JSString) :
    Option (Option PublishData) × Option PRInt32 :=
  if siteName = [] then (some none, security)
  else
    let prefPrefix := js "site_data." ++ siteName ++ js "."
    let f := readFlags t prefPrefix { security := security }
    match f.security with
    | none => (none, none)
    | some security =>
      let publishData := siteData t siteName f security
      let publishData := { publishData with password := pm publishData }
      let publishData :=
        if publishData.password = [] then publishData else { publishData with savePassword := true }
      let dirPrefs := sort (getChildList t (prefPrefix ++ js "dir."))
      (some (some { publishData with dirList := readDirs t 0 dirPrefs publishData.dirList }),
        some security)

/-- `GetSiteNameList (true, false)`. -/
def GetSiteNameList (t : PrefTable) : Option (List JSString) :=
  let siteNamePrefs := getChildList t (js "site_name.")
  if siteNamePrefs = [] then none
  else
    let siteNameList := (siteNamePrefs.map (GetPublishStringPref t)).filter (· ≠ [])
    if siteNameList = [] then none else some (sort siteNameList)

/-- The loop of `GetPublishSiteData`. The names of the sites that have data are stored again. -/
def getSites : List JSString → PrefTable → Option PRInt32 → List PublishData →
    Option (List PublishData) × PrefTable × Option PRInt32
  | [], t, security, siteArray => (some siteArray, t, security)
  | siteName :: siteNameList, t, security, siteArray =>
    match GetPublishData_internal pm t security siteName with
    | (none, security) => (none, t, security)
    | (some none, security) =>
      getSites siteNameList (deleteBranch t (js "site_data." ++ siteName ++ js ".")) security siteArray
    | (some (some publishData), security) =>
      getSites siteNameList
        (SetPublishStringPref t (js "site_name." ++ num siteArray.length) siteName) security
        (siteArray ++ [publishData])

/-- `GetPublishSiteData`: the data of all sites, if there are any and nothing throws. -/
def GetPublishSiteData (t : PrefTable) (security : Option PRInt32) :
    Option (List PublishData) × PrefTable × Option PRInt32 :=
  match GetSiteNameList t with
  | none => (none, t, security)
  | some siteNameList =>
    match getSites pm siteNameList (deleteBranch t (js "site_name.")) security [] with
    | (some [], t, security) => (none, t, security)
    | r => r

/-! ### Saving the data of a site -/

def AppendNewDirToList (publishData : PublishData) (newDir : JSString) : PublishData :=
  let newDir := FormatDirForPublishing newDir
  if newDir = [] ∨ newDir ∈ publishData.dirList then publishData
  else { publishData with dirList := publishData.dirList ++ [newDir] }

/-- The flags are set in one `try` block. -/
def setFlags (t : PrefTable) : List (JSString × PrefValue) → PrefTable
  | [] => t
  | (name, value) :: rest =>
    match setPref t name value with
    | (rv, t) => if rv.failed then t else setFlags t rest

/-- The directories are stored without the root. -/
def writeDirs (prefPrefix : JSString) : ℕ → List JSString → PrefTable → PrefTable
  | _, [], t => t
  | dirIndex, dir :: dirList, t =>
    if dir ≠ [] ∧ dir ≠ js "/" then
      writeDirs prefPrefix (dirIndex + 1) dirList
        (SetPublishStringPref t (prefPrefix ++ js "dir." ++ num dirIndex) dir)
    else writeDirs prefPrefix dirIndex dirList t

/-- `SavePublishData_Internal`: the preferences, and the data as they are left. -/
def SavePublishData_Internal (t : PrefTable) (publishData : PublishData) (siteIndex : ℕ) :
    PrefTable × PublishData :=
  let t := SetPublishStringPref t (js "site_name." ++ num siteIndex) publishData.siteName
  let publishData := FixupUsernamePasswordInPublishData io publishData
  let prefPrefix := js "site_data." ++ publishData.siteName ++ js "."
  let t := SetPublishStringPref t (prefPrefix ++ js "url") publishData.publishUrl
  let t := SetPublishStringPref t (prefPrefix ++ js "local_path") publishData.localPath
  let t := SetPublishStringPref t (prefPrefix ++ js "browse_url") publishData.browseUrl
  let t := SetPublishStringPref t (prefPrefix ++ js "browse_prefix") publishData.browsePrefix
  let t := SetPublishStringPref t (prefPrefix ++ js "username") publishData.username
  let t := SetPublishStringPref t (prefPrefix ++ js "ftpPort") publishData.ftpPort
  let t := setFlags t [
    (prefPrefix ++ js "save_password", .boolVal publishData.savePassword),
    (prefPrefix ++ js "publish_other_files", .boolVal publishData.publishOtherFiles),
    (prefPrefix ++ js "ipv6", .boolVal publishData.IPv6),
    (prefPrefix ++ js "passive_mode", .boolVal publishData.passiveMode),
    (prefPrefix ++ js "tree_sync", .boolVal publishData.treeSync),
    (prefPrefix ++ js "security", .intVal publishData.security)]
  let t := SetPublishStringPref t (prefPrefix ++ js "doc_dir")
    (FormatDirForPublishing publishData.docDir)
  let other := publishData.publishOtherFiles ∧ publishData.otherDir ≠ []
  let t := if other then SetPublishStringPref t (prefPrefix ++ js "other_dir")
      (FormatDirForPublishing publishData.otherDir)
    else t
  let publishData :=
    if publishData.saveDirs then
      let publishData := if publishData.docDir = [] then publishData
        else AppendNewDirToList publishData publishData.docDir
      if other ∧ publishData.otherDir ≠ publishData.docDir then
        AppendNewDirToList publishData publishData.otherDir
      else publishData
    else publishData
  let publishData := { publishData with dirList := sort publishData.dirList }
  (writeDirs prefPrefix 0 publishData.dirList t, publishData)

/-- The loop of `SavePublishSiteDataToPrefs`. -/
def saveSites : ℕ → List PublishData → PrefTable → PrefTable × List PublishData
  | _, [], t => (t, [])
  | i, publishData :: siteArray, t =>
    let (t, publishData) := SavePublishData_Internal io t publishData i
    let (t, siteArray) := saveSites (i + 1) siteArray t
    (t, publishData :: siteArray)

/-- `SavePublishSiteDataToPrefs`: the preferences, and the data as they are left. -/
def SavePublishSiteDataToPrefs (t : PrefTable) (siteArray : List PublishData)
    (defaultName : JSString) : PrefTable × List PublishData :=
  -- all preferences of the sites are made anew
  let t := deleteBranch (deleteBranch t (js "site_name.")) (js "site_data.")
  let defaultFound := siteArray.any fun s => s.siteName = defaultName
  let (t, saved) := saveSites io 0 siteArray t
  let defaultName := match siteArray with
    | [] => defaultName
    | s :: _ => if defaultFound then defaultName else s.siteName
  (SetPublishStringPref t (js "default_site") defaultName, saved)

/-- `CreateSiteNameFromUrl`, which its only caller here gives no list to look for the name in. -/
def CreateSiteNameFromUrl (url : JSString) : JSString :=
  GetHost io url ++ js " (" ++ GetScheme io url ++ js ")"

/-- The number of the site with a name, or the number of sites. -/
def siteNumber (t : PrefTable) (previousSiteName : JSString) (siteCount : ℕ) : ℕ :=
  ((List.range siteCount).find? fun i =>
    GetPublishStringPref t (js "site_name." ++ num i) = previousSiteName).getD siteCount

/-- `SavePublishDataToPrefs`: the preferences, and the data as they are left if they are saved. -/
def SavePublishDataToPrefs (t : PrefTable) (publishData : PublishData) :
    PrefTable × Option PublishData :=
  if publishData.localPath = [] then (t, none)
  else
    let publishData := if publishData.siteName = [] then
        { publishData with siteName := CreateSiteNameFromUrl io publishData.publishUrl }
      else publishData
    let siteCount := (getChildList t (js "site_name.")).length
    if siteCount = 0 then
      let (t, saved) := SavePublishSiteDataToPrefs io t [publishData] publishData.siteName
      (t, saved.head?)
    else
      let previousSiteName := if publishData.previousSiteName = [] then publishData.siteName
        else publishData.previousSiteName
      let i := siteNumber t previousSiteName siteCount
      let t := if i < siteCount then
          deleteBranch t (js "site_data." ++ previousSiteName ++ js ".")
        else t
      let publishData := { publishData with previousSiteName := publishData.siteName }
      let (t, publishData) := SavePublishData_Internal io t publishData i
      let defaultSiteName := GetPublishStringPref t (js "default_site")
      let t := if previousSiteName = defaultSiteName ∧ publishData.siteName ≠ defaultSiteName then
          SetPublishStringPref t (js "default_site") publishData.siteName
        else t
      (t, some { publishData with notInSiteData := false })

end Kompozer.Publish

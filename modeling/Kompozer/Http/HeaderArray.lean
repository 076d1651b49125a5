import Kompozer.Net.Bytes
import Mathlib.Data.List.Nodup

/-! Headers of a message (`nsHttpHeaderArray.cpp`), the atoms that stand for their names
(`nsHttp.cpp`, `nsHttpAtomList.h`) and the comparisons of C strings that read them (`strccmp.c`,
`strcstr.c`). Memory is always there. -/

namespace Kompozer.Http

open Net (NsCString cString CR LF colon space TAB)
open Prefs (ascii)

/-! ### Comparisons of C strings -/

/-- The table `uc`. -/
def uc (c : UInt8) : UInt8 := if 97 ≤ c ∧ c ≤ 122 then c - 32 else c

/-- `PL_strcasecmp` finds no difference. -/
def PL_strcasecmp (a b : NsCString) : Bool := a.map uc = b.map uc

/-- `PL_strncasecmp` finds no difference. -/
def PL_strncasecmp : NsCString → NsCString → ℕ → Bool
  | _, _, 0 => true
  | [], [], _ => true
  | a :: s, b :: t, max + 1 => uc a = uc b && PL_strncasecmp s t max
  | _, _, _ => false

/-- `PL_strcasestr`. -/
def PL_strcasestr (little : NsCString) : NsCString → Option NsCString
  | [] => none
  | c :: big =>
    if little ≠ [] ∧ PL_strncasecmp (c :: big) little little.length then some (c :: big)
    else PL_strcasestr little big

theorem PL_strcasestr_suffix {little big s : NsCString} (h : PL_strcasestr little big = some s) :
    s <:+ big ∧ s ≠ [] := by
  induction big with
  | nil => exact absurd h (by simp [PL_strcasestr])
  | cons c big ih =>
    unfold PL_strcasestr at h
    split_ifs at h
    · obtain rfl := Option.some.inj h
      exact ⟨List.suffix_refl _, List.cons_ne_nil c big⟩
    · exact ⟨(ih h).1.trans (List.suffix_cons c big), (ih h).2⟩

/-- What stands behind the character that `PL_strchr` finds. -/
def behind (c : UInt8) : NsCString → Option NsCString
  | [] => none
  | d :: s => if d = c then some s else behind c s

/-! ### Atoms -/

/-- An atom is known by the spelling that the table holds. -/
structure nsHttpAtom where
  _val : NsCString
  deriving DecidableEq, Repr

namespace nsHttp

def Authorization : nsHttpAtom := ⟨ascii "Authorization"⟩
def Cache_Control : nsHttpAtom := ⟨ascii "Cache-Control"⟩
def Connection : nsHttpAtom := ⟨ascii "Connection"⟩
def Content_Length : nsHttpAtom := ⟨ascii "Content-Length"⟩
def Content_Type : nsHttpAtom := ⟨ascii "Content-Type"⟩
def From : nsHttpAtom := ⟨ascii "From"⟩
def Host : nsHttpAtom := ⟨ascii "Host"⟩
def If_Modified_Since : nsHttpAtom := ⟨ascii "If-Modified-Since"⟩
def If_Unmodified_Since : nsHttpAtom := ⟨ascii "If-Unmodified-Since"⟩
def Keep_Alive : nsHttpAtom := ⟨ascii "Keep-Alive"⟩
def Location : nsHttpAtom := ⟨ascii "Location"⟩
def Max_Forwards : nsHttpAtom := ⟨ascii "Max-Forwards"⟩
def Pragma : nsHttpAtom := ⟨ascii "Pragma"⟩
def Proxy_Authenticate : nsHttpAtom := ⟨ascii "Proxy-Authenticate"⟩
def Proxy_Authorization : nsHttpAtom := ⟨ascii "Proxy-Authorization"⟩
def Proxy_Connection : nsHttpAtom := ⟨ascii "Proxy-Connection"⟩
def Referer : nsHttpAtom := ⟨ascii "Referer"⟩
def Set_Cookie : nsHttpAtom := ⟨ascii "Set-Cookie"⟩
def Trailer : nsHttpAtom := ⟨ascii "Trailer"⟩
def Transfer_Encoding : nsHttpAtom := ⟨ascii "Transfer-Encoding"⟩
def Upgrade : nsHttpAtom := ⟨ascii "Upgrade"⟩
def User_Agent : nsHttpAtom := ⟨ascii "User-Agent"⟩
def WWW_Authenticate : nsHttpAtom := ⟨ascii "WWW-Authenticate"⟩

/-- The names of `nsHttpAtomList.h`. -/
def atomNames : List String :=
  ["Accept", "Accept-Charset", "Accept-Encoding", "Accept-Language", "Accept-Ranges", "Age",
    "Allow", "Authentication", "Authorization", "Cache-Control", "Connection", "Content-Base",
    "Content-Encoding", "Content-Language", "Content-Length", "Content-Location", "Content-MD5",
    "Content-Range", "Content-Transfer-Encoding", "Content-Type", "Cookie", "Date", "DAV",
    "Depth", "Derived-From", "Destination", "Etag", "Expect", "Expires", "Forwarded", "From",
    "Host", "If", "If-Match", "If-Match-Any", "If-Modified-Since", "If-None-Match",
    "If-None-Match-Any", "If-Range", "If-Unmodified-Since", "Keep-Alive", "Last-Modified",
    "Lock-Token", "Link", "Location", "Max-Forwards", "Message-Id", "Mime", "Overwrite",
    "Pragma", "Proxy-Authenticate", "Proxy-Authorization", "Proxy-Connection", "Range",
    "Referer", "Retry-After", "Server", "Set-Cookie", "Set-Cookie2", "Status-URI", "TE",
    "Title", "Timeout", "Trailer", "Transfer-Encoding", "URI", "Upgrade", "User-Agent", "Vary",
    "Version", "WWW-Authenticate", "Warning", "CONNECT", "COPY", "DELETE", "GET", "HEAD",
    "INDEX", "LOCK", "M-POST", "MKCOL", "MOVE", "OPTIONS", "POST", "PROPFIND", "PROPPATCH",
    "PUT", "TRACE", "UNLOCK"]

def atomList : List nsHttpAtom := atomNames.map fun s => ⟨ascii s⟩

theorem mem_atomList {s : String} (h : s ∈ atomNames) : (⟨ascii s⟩ : nsHttpAtom) ∈ atomList :=
  List.mem_map_of_mem h

/-- The characters of a token. -/
def kValidTokenMap : List ℕ :=
  [0, 0, 0, 0, 0, 0, 0, 0,
   0, 0, 0, 0, 0, 0, 0, 0,
   0, 0, 0, 0, 0, 0, 0, 0,
   0, 0, 0, 0, 0, 0, 0, 0,
   0, 1, 0, 1, 1, 1, 1, 1,
   0, 0, 1, 1, 0, 1, 1, 0,
   1, 1, 1, 1, 1, 1, 1, 1,
   1, 1, 0, 0, 0, 0, 0, 0,
   0, 1, 1, 1, 1, 1, 1, 1,
   1, 1, 1, 1, 1, 1, 1, 1,
   1, 1, 1, 1, 1, 1, 1, 1,
   1, 1, 1, 0, 0, 0, 1, 1,
   1, 1, 1, 1, 1, 1, 1, 1,
   1, 1, 1, 1, 1, 1, 1, 1,
   1, 1, 1, 1, 1, 1, 1, 1,
   1, 1, 1, 0, 1, 0, 1, 0]

def isTokenChar (c : UInt8) : Bool := c ≤ 127 && kValidTokenMap.getD c.toNat 0 ≠ 0

/-- `IsValidToken`. -/
def IsValidToken (s : NsCString) : Bool := s ≠ [] && s.all isTokenChar

end nsHttp

/-- The table of atoms. Names that differ in upper and lower case only have one atom. -/
structure AtomTable where
  atoms : List nsHttpAtom
  distinct : atoms.Pairwise fun a b => PL_strcasecmp a._val b._val = false
  known : ∀ a ∈ nsHttp.atomList, a ∈ atoms

namespace AtomTable

/-- An atom for a name that the table does not have. -/
def add (t : AtomTable) (str : NsCString)
    (h : ∀ a ∈ t.atoms, PL_strcasecmp a._val str = false) : AtomTable where
  atoms := t.atoms ++ [⟨str⟩]
  distinct := List.pairwise_append.mpr ⟨t.distinct, List.pairwise_singleton _ _, fun a ha b hb => by
    rw [List.mem_singleton.mp hb]
    exact h a ha⟩
  known a ha := List.mem_append_left _ (t.known a ha)

/-- `ResolveAtom`. -/
def ResolveAtom (t : AtomTable) (str : NsCString) : nsHttpAtom × AtomTable :=
  match h : t.atoms.find? fun a => PL_strcasecmp a._val str with
  | some atom => (atom, t)
  | none => (⟨str⟩, t.add str fun a ha => by simpa using List.find?_eq_none.mp h a ha)

/-- `CreateAtomTable`. -/
def CreateAtomTable : AtomTable where
  atoms := nsHttp.atomList
  distinct := by
    have h : (nsHttp.atomList.map fun a => a._val.map uc).Nodup := by decide +kernel
    exact (List.pairwise_map.mp h).imp fun hne => decide_eq_false hne
  known _ ha := ha

end AtomTable

/-! ### Headers -/

structure nsEntry where
  header : nsHttpAtom
  value : NsCString
  deriving DecidableEq, Repr

/-- The entry of a header is changed, or dropped. -/
def onEntry (header : nsHttpAtom) (f : nsEntry → Option NsCString) : List nsEntry → List nsEntry
  | [] => []
  | e :: l =>
    if e.header = header then
      match f e with
      | none => l
      | some value => { e with value } :: l
    else e :: onEntry header f l

theorem onEntry_headers (header : nsHttpAtom) (f : nsEntry → Option NsCString) (l : List nsEntry) :
    ((onEntry header f l).map nsEntry.header).Sublist (l.map nsEntry.header) := by
  induction l with
  | nil => exact List.Sublist.slnil
  | cons e l ih =>
    unfold onEntry
    split_ifs with h
    · split
      · exact List.sublist_cons_self _ _
      · exact List.Sublist.refl _
    · exact ih.cons_cons _

/-- `nsHttpHeaderArray`. A header has one entry. -/
structure nsHttpHeaderArray where
  mHeaders : List nsEntry := []
  nodup : (mHeaders.map nsEntry.header).Nodup := by exact List.nodup_nil

namespace nsHttpHeaderArray

/-- `LookupEntry`. -/
def LookupEntry (hs : nsHttpHeaderArray) (header : nsHttpAtom) : Option nsEntry :=
  hs.mHeaders.find? fun e => e.header = header

/-- `GetHeader`, nothing for `NS_ERROR_NOT_AVAILABLE`. -/
def GetHeader (hs : nsHttpHeaderArray) (header : nsHttpAtom) : Option NsCString :=
  (hs.LookupEntry header).map nsEntry.value

/-- `PeekHeader`. -/
def PeekHeader (hs : nsHttpHeaderArray) (header : nsHttpAtom) : Option NsCString :=
  (hs.GetHeader header).map cString

/-- `CanAppendToHeader`. -/
def CanAppendToHeader (header : nsHttpAtom) : Bool :=
  header ≠ nsHttp.Content_Type && header ≠ nsHttp.Content_Length &&
  header ≠ nsHttp.User_Agent && header ≠ nsHttp.Referer && header ≠ nsHttp.Host &&
  header ≠ nsHttp.Authorization && header ≠ nsHttp.Proxy_Authorization &&
  header ≠ nsHttp.If_Modified_Since && header ≠ nsHttp.If_Unmodified_Since &&
  header ≠ nsHttp.From && header ≠ nsHttp.Location && header ≠ nsHttp.Max_Forwards

/-- What stands between two values of a header. -/
def delimiter (header : nsHttpAtom) : NsCString :=
  if header = nsHttp.Set_Cookie ∨ header = nsHttp.WWW_Authenticate ∨
      header = nsHttp.Proxy_Authenticate then [LF]
  else ascii ", "

theorem LookupEntry_eq_none {hs : nsHttpHeaderArray} {header : nsHttpAtom}
    (h : hs.LookupEntry header = none) : header ∉ hs.mHeaders.map nsEntry.header := by
  intro hmem
  obtain ⟨e, he, rfl⟩ := List.mem_map.mp hmem
  simpa using List.find?_eq_none.mp h e he

/-- An entry behind the others. -/
def append (hs : nsHttpHeaderArray) (header : nsHttpAtom) (value : NsCString)
    (h : header ∉ hs.mHeaders.map nsEntry.header) : nsHttpHeaderArray where
  mHeaders := hs.mHeaders ++ [⟨header, value⟩]
  nodup := by
    rw [List.map_append]
    refine List.nodup_append.mpr ⟨hs.nodup, List.nodup_singleton _, ?_⟩
    intro a ha b hb hab
    have hb : b = header := List.mem_singleton.mp hb
    exact h (by rwa [← hb, ← hab])

/-- The entry of a header is changed, or dropped. -/
def change (hs : nsHttpHeaderArray) (header : nsHttpAtom) (f : nsEntry → Option NsCString) :
    nsHttpHeaderArray where
  mHeaders := onEntry header f hs.mHeaders
  nodup := hs.nodup.sublist (onEntry_headers header f hs.mHeaders)

/-- `SetHeader`. -/
def SetHeader (hs : nsHttpHeaderArray) (header : nsHttpAtom) (value : NsCString) (merge : Bool) :
    nsHttpHeaderArray :=
  match h : hs.LookupEntry header with
  | none => if value = [] then hs else hs.append header value (LookupEntry_eq_none h)
  | some _ =>
    if value = [] then if merge then hs else hs.change header fun _ => none
    else if merge && CanAppendToHeader header then
      hs.change header fun entry => some (entry.value ++ delimiter header ++ value)
    else hs.change header fun _ => some value

/-- The white space inside of a line. -/
def HTTP_LWS (c : UInt8) : Bool := c = space || c = TAB

/-- The name and the value of a header line, if it is not malformed. -/
def field (line : NsCString) : Option (NsCString × NsCString) :=
  match behind colon line with
  | none => none
  | some p =>
    let name := line.takeWhile (· ≠ colon)
    if nsHttp.IsValidToken name then some (name, (p.dropWhile HTTP_LWS).rdropWhile HTTP_LWS)
    else none

/-- `ParseHeaderLine`, with the header and the value that it answers. -/
def ParseHeaderLine (hs : nsHttpHeaderArray) (t : AtomTable) (line : NsCString) :
    Option (nsHttpAtom × NsCString) × nsHttpHeaderArray × AtomTable :=
  match field line with
  | none => (none, hs, t)
  | some (name, val) =>
    let (atom, t) := t.ResolveAtom name
    (some (atom, val), hs.SetHeader atom val true, t)

end nsHttpHeaderArray

end Kompozer.Http

import Kompozer.Net.Bytes

/-! The URL parsers (`nsURLParsers.cpp`, not on Windows): they cut a text into segments and
read nothing else. A segment that is not there has a length below zero. -/

namespace Kompozer.Net

open Prefs (PRInt32)
open NsResult

/-- `URLSegment`. Texts are shorter than 2^31 bytes; a place below zero stands for the
unsigned number it wraps to. -/
structure URLSegment where
  mPos : ℤ := 0
  mLen : ℤ := -1
  deriving DecidableEq, Repr

/-- A segment moved by what is in front of it. -/
def URLSegment.shift (seg : URLSegment) (diff : ℤ) : URLSegment :=
  { seg with mPos := seg.mPos + diff }

@[simp] theorem URLSegment.mLen_shift (seg : URLSegment) (diff : ℤ) :
    (seg.shift diff).mLen = seg.mLen := rfl

@[simp] theorem URLSegment.shift_zero (seg : URLSegment) : seg.shift 0 = seg := by
  rw [URLSegment.shift, Int.add_zero]

/-- The text of a segment. -/
def URLSegment.text (seg : URLSegment) (spec : NsCString) : NsCString :=
  (spec.drop seg.mPos.toNat).take seg.mLen.toNat

/-- The types of URLs, each with its parser. -/
inductive URLType
  | URLTYPE_STANDARD
  | URLTYPE_AUTHORITY
  | URLTYPE_NO_AUTHORITY
  deriving DecidableEq, Repr

/-- `CountConsecutiveSlashes`. -/
def CountConsecutiveSlashes (str : NsCString) : ℕ := (str.takeWhile (· == slash)).length

/-- A path, a query, a reference or a parameter begins. -/
def endsAuthority (c : UInt8) : Bool :=
  c == slash || c == question || c == hash || c == semicolon

/-! ### `ParseURL` -/

/-- What the first loop of `ParseURL` finds: blanks, and the places of the first characters of
some kinds. -/
structure SchemeScan where
  offset : ℕ := 0
  stop : Option ℕ := none
  colon : Option ℕ := none
  slash : Option ℕ := none
  deriving DecidableEq

/-- The first loop of `ParseURL`. -/
def scanScheme : NsCString → ℕ → SchemeScan → SchemeScan
  | [], _, s => s
  | c :: rest, p, s =>
    if c = 0 ∨ s.colon.isSome ∨ s.slash.isSome then s
    else if isBlank c then scanScheme rest (p + 1) { s with offset := s.offset + 1 }
    else if c = colon then scanScheme rest (p + 1) { s with colon := some p }
    else if endsAuthority c then scanScheme rest (p + 1) { s with slash := some p }
    else if c = atSign ∨ c = openBracket then
      scanScheme rest (p + 1) { s with stop := s.stop <|> some p }
    else scanScheme rest (p + 1) s

/-- The colon behind a scheme. One that follows an `@` or a `[` is disregarded. -/
def SchemeScan.schemeColon (s : SchemeScan) : Option ℕ :=
  match s.colon, s.stop with
  | some c, some stop => if stop < c then none else some c
  | c, _ => c

/-- The length without trailing white space and control characters. -/
def trimmedLength (spec : NsCString) : ℕ := max 1 (spec.rdropWhile (· ≤ 32)).length

/-- `nsStdURLParser::ParseAfterScheme`. A terminator ends the authority, too. -/
def stdParseAfterScheme (spec : NsCString) : URLSegment × URLSegment :=
  let nslash := CountConsecutiveSlashes spec
  let auth := (spec.drop nslash).takeWhile fun c => !(endsAuthority c || c == 0)
  let p := nslash + auth.length
  if nslash = 0 ∨ nslash = 2 then
    if p < spec.length then (⟨nslash, auth.length⟩, ⟨p, spec.length - p⟩)
    else (⟨nslash, spec.length - nslash⟩, ⟨0, -1⟩)
  else if nslash = 1 then (⟨0, -1⟩, ⟨0, spec.length⟩)
  else (⟨2, 0⟩, ⟨2, spec.length - 2⟩)

/-- `nsAuthURLParser::ParseAfterScheme`. -/
def authParseAfterScheme (spec : NsCString) : URLSegment × URLSegment :=
  let nslash := CountConsecutiveSlashes spec
  let auth := (spec.drop nslash).takeWhile (!endsAuthority ·)
  let p := nslash + auth.length
  if p < spec.length then (⟨nslash, auth.length⟩, ⟨p, spec.length - p⟩)
  else (⟨nslash, spec.length - nslash⟩, ⟨0, -1⟩)

/-- `nsNoAuthURLParser::ParseAfterScheme`. -/
def noAuthParseAfterScheme (spec : NsCString) : URLSegment × URLSegment :=
  let nslash := CountConsecutiveSlashes spec
  if nslash = 2 then
    let auth := (spec.drop 2).takeWhile (· ≠ slash)
    let p := 2 + auth.length
    if p < spec.length then (⟨2, auth.length⟩, ⟨p, spec.length - p⟩)
    else (⟨2, spec.length - 2⟩, ⟨0, -1⟩)
  else
    let pos := if nslash < 2 then 0 else 2
    (⟨pos, 0⟩, ⟨pos, spec.length - pos⟩)

/-- `ParseAfterScheme`. -/
def ParseAfterScheme : URLType → NsCString → URLSegment × URLSegment
  | .URLTYPE_STANDARD => stdParseAfterScheme
  | .URLTYPE_AUTHORITY => authParseAfterScheme
  | .URLTYPE_NO_AUTHORITY => noAuthParseAfterScheme

/-- `ParseURL`: the scheme, the authority and the path. It fails at a scheme that is malformed
or has two colons behind it. -/
def ParseURL (type : URLType) (spec : NsCString) :
    Option (URLSegment × URLSegment × URLSegment) :=
  let s := scanScheme spec 0 {}
  let rest := spec.drop s.offset
  if rest = [] then some (⟨0, -1⟩, ⟨0, 0⟩, ⟨0, 0⟩)
  else
    let trimmed := rest.take (trimmedLength rest)
    match s.schemeColon with
    | some p =>
      let scheme := rest.take (p - s.offset)
      if !net_IsValidScheme scheme || charAt spec (p + 1) = colon then none
      else
        let (auth, path) := ParseAfterScheme type (trimmed.drop (p + 1 - s.offset))
        some (⟨s.offset, p - s.offset⟩, auth.shift (p + 1), path.shift (p + 1))
    | none =>
      let (auth, path) := ParseAfterScheme type trimmed
      some (⟨0, -1⟩, auth.shift s.offset, path.shift s.offset)

/-! ### The authority -/

/-- What `ParseAuthority` finds. What it does not come to stays as it was cleared. -/
structure AuthorityParts where
  username : URLSegment := {}
  password : URLSegment := {}
  hostname : URLSegment := {}
  port : PRInt32 := -1
  deriving DecidableEq

/-- `nsAuthURLParser::ParseUserInfo`. There has to be a user name. -/
def authParseUserInfo (userinfo : NsCString) : Option (URLSegment × URLSegment) :=
  if userinfo = [] then some ({}, {})
  else
    let username := userinfo.takeWhile (· ≠ colon)
    if username.length < userinfo.length then
      if username = [] then none
      else some (⟨0, username.length⟩,
        ⟨username.length + 1, userinfo.length - (username.length + 1)⟩)
    else some (⟨0, userinfo.length⟩, {})

/-- `ParseUserInfo`. -/
def ParseUserInfo : URLType → NsCString → Option (URLSegment × URLSegment)
  | .URLTYPE_NO_AUTHORITY, _ => some ({}, {})
  | _, userinfo => authParseUserInfo userinfo

/-- The backward loop of `ParseServerInfo` over a reversed text that ends in front of its first
character: the length in front of the colon, or none at a space. -/
def scanServerInfo : NsCString → (colon : Option ℕ) → (bracket : Bool) → Option (Option ℕ)
  | [], c, _ => some c
  | [_], c, _ => some c
  | a :: b :: rest, c, bracket =>
    if a = closeBracket then scanServerInfo (b :: rest) c true
    else if a = colon then
      scanServerInfo (b :: rest) (if bracket then c else some (rest.length + 1)) bracket
    else if a = space then none
    else scanServerInfo (b :: rest) c bracket

/-- `nsAuthURLParser::ParseServerInfo`. -/
def authParseServerInfo (serverinfo : NsCString) : Option (URLSegment × PRInt32) :=
  if serverinfo = [] then some (⟨0, 0⟩, -1)
  else do
    match ← scanServerInfo serverinfo.reverse none false with
    | some c => some (⟨0, c⟩, (ToInteger (serverinfo.drop (c + 1))).getD (-1))
    | none => some (⟨0, serverinfo.length⟩, -1)

/-- `nsAuthURLParser::ParseAuthority`. The user info ends at the last `@`. -/
def authParseAuthority (auth : NsCString) : NsResult × AuthorityParts :=
  if auth = [] then (.ok, { hostname := ⟨0, 0⟩ })
  else if atSign ∈ auth then
    let userinfo := (auth.rdropWhile (· ≠ atSign)).dropLast
    match authParseUserInfo userinfo with
    | none => (NS_ERROR_MALFORMED_URI, {})
    | some (username, password) =>
      match authParseServerInfo (auth.drop (userinfo.length + 1)) with
      | none => (NS_ERROR_MALFORMED_URI, { username, password })
      | some (hostname, port) =>
        (.ok, ⟨username, password, hostname.shift (userinfo.length + 1), port⟩)
  else
    match authParseServerInfo auth with
    | none => (NS_ERROR_MALFORMED_URI, {})
    | some (hostname, port) => (.ok, { hostname, port })

/-- `ParseAuthority`. -/
def ParseAuthority : URLType → NsCString → NsResult × AuthorityParts
  | .URLTYPE_NO_AUTHORITY, auth => (.ok, { hostname := ⟨0, auth.length⟩ })
  | _, auth => authParseAuthority auth

/-! ### The path -/

/-- What `ParsePath` finds. -/
structure PathParts where
  filepath : URLSegment
  param : URLSegment
  query : URLSegment
  ref : URLSegment
  deriving DecidableEq

/-- `ParsePath` on the path and what follows it up to the end of the string. The search for a
query and a reference goes up to a terminator. -/
def ParsePath (path : NsCString) (pathLen : ℕ) : PathParts :=
  let s := cString path
  -- a query only counts in front of the reference
  let front := s.takeWhile (· ≠ hash)
  let ref_beg := if front.length < s.length then some (front.length + 1) else none
  let file := front.takeWhile (· ≠ question)
  let query_beg := if file.length < front.length then some (file.length + 1) else none
  let query : URLSegment := match query_beg, ref_beg with
    | some q, some r => ⟨q, r - 1 - q⟩
    | some q, none => ⟨q, pathLen - q⟩
    | none, _ => {}
  let ref : URLSegment := match ref_beg with
    | some r => ⟨r, pathLen - r⟩
    | none => {}
  let pathEnd := match query_beg, ref_beg with
    | some q, _ => q - 1
    | none, some r => r - 1
    | none, none => pathLen
  -- the first semicolon behind the last slash
  let whole := path.take pathEnd
  let name := whole.rtakeWhile (· ≠ slash)
  let filename := name.takeWhile (· ≠ semicolon)
  let fileEnd := pathEnd - name.length + filename.length
  if filename.length < name.length then
    ⟨if fileEnd = 0 then {} else ⟨0, fileEnd⟩, ⟨fileEnd + 1, pathEnd - (fileEnd + 1)⟩, query, ref⟩
  else ⟨if pathEnd = 0 then {} else ⟨0, pathEnd⟩, {}, query, ref⟩

/-- What `ParseFilePath` finds. -/
structure FilePathParts where
  directory : URLSegment := {}
  basename : URLSegment
  extension : URLSegment := {}
  deriving DecidableEq

/-- `ParseFileName`: the extension is behind the last dot, which is not the first character.
There is none if the name ends with a dot. -/
def ParseFileName (filename : NsCString) : URLSegment × URLSegment :=
  let front := (filename.drop 1).rdropWhile (· ≠ dot)
  if filename.getLast? ≠ some dot ∧ front ≠ [] then
    (⟨0, front.length⟩, ⟨front.length + 1, filename.length - (front.length + 1)⟩)
  else (⟨0, filename.length⟩, {})

/-- `ParseFilePath`. The names `.` and `..` belong to the directory. -/
def ParseFilePath (filepath : NsCString) : FilePathParts :=
  if filepath = [] then { basename := ⟨0, 0⟩ }
  else
    let front := filepath.rdropWhile (· ≠ slash)
    if front ≠ [] then
      let name := filepath.drop front.length
      let directory := if name = [dot] ∨ name = [dot, dot] then filepath else front
      let (basename, extension) := ParseFileName (filepath.drop directory.length)
      ⟨⟨0, directory.length⟩, basename.shift directory.length, extension.shift directory.length⟩
    else
      let (basename, extension) := ParseFileName filepath
      { basename, extension }

end Kompozer.Net

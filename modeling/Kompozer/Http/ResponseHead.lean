import Kompozer.Http.HeaderArray
import Kompozer.Prefs.Reader
import Kompozer.Xpcom

/-! The head of a response (`nsHttpResponseHead.cpp`): the status line, the headers and what is
kept of some of them. The type and the charset of the content, which nothing here reads, are left
out. -/

namespace Kompozer.Http

open Net (NsCString cString CR LF colon space dot slash)
open Prefs (ascii isdigit atoi decimal)

/-! ### Numbers and lines -/

/-- The loop of `ParseInt64`, with what it leaves unread. -/
def digitsInt64 (r : Int64) : NsCString → Option (Int64 × NsCString)
  | [] => some (r, [])
  | c :: input =>
    if isdigit c then
      let next := 10 * r + Int64.ofNat (c.toNat - 48)
      if next < r then none else digitsInt64 next input
    else some (r, c :: input)

/-- `ParseInt64` of a string that holds nothing more. -/
def ParseInt64 (input : NsCString) : Option Int64 :=
  match input with
  | [] => none
  | c :: _ =>
    if isdigit c then
      match digitsInt64 0 input with
      | some (r, []) => some r
      | _ => none
    else none

/-- The text before the end of a line and the one behind it, where `PL_strstr` finds `"\r\n"`. -/
def splitLine : NsCString → Option (NsCString × NsCString)
  | c :: d :: s =>
    if c = CR ∧ d = LF then some ([], s)
    else (splitLine (d :: s)).map fun p => (c :: p.1, p.2)
  | _ => none

theorem length_splitLine {s line rest : NsCString} (h : splitLine s = some (line, rest)) :
    rest.length < s.length := by
  fun_induction splitLine s generalizing line with
  | case1 c d s hend =>
    simp only [Option.some.injEq, Prod.mk.injEq] at h
    rw [← h.2, List.length_cons, List.length_cons]
    omega
  | case2 c d s hend ih =>
    obtain ⟨⟨l, r⟩, hsome, heq⟩ := Option.map_eq_some_iff.mp h
    obtain ⟨-, rfl⟩ := Prod.mk.inj heq
    exact Nat.lt_succ_of_lt (ih hsome)
  | case3 => exact absurd h (by simp)

/-! ### The head -/

/-- `nsHttpVersion`. -/
inductive nsHttpVersion
  | NS_HTTP_VERSION_0_9
  | NS_HTTP_VERSION_1_0
  | NS_HTTP_VERSION_1_1
  deriving DecidableEq, Repr

open nsHttpVersion

/-- `nsHttpResponseHead`. -/
structure nsHttpResponseHead where
  mHeaders : nsHttpHeaderArray := {}
  mVersion : nsHttpVersion := NS_HTTP_VERSION_1_1
  mStatus : UInt16 := 200
  mStatusText : NsCString := []
  mContentLength : Int64 := -1
  mCacheControlNoStore : Bool := false
  mCacheControlNoCache : Bool := false
  mPragmaNoCache : Bool := false

/-- `ParseVersion`. -/
def ParseVersion (str : NsCString) : nsHttpVersion :=
  if PL_strncasecmp str (ascii "HTTP") 4 = false then NS_HTTP_VERSION_0_9
  else
    let str := str.drop 4
    if str.head? ≠ some slash then NS_HTTP_VERSION_1_0
    else
      match behind dot str with
      | none => NS_HTTP_VERSION_1_0
      | some p =>
        let major := atoi (str.drop 1)
        let minor := atoi p
        if major > 1 ∨ (major = 1 ∧ minor ≥ 1) then NS_HTTP_VERSION_1_1
        else NS_HTTP_VERSION_1_0

/-- The loop of `ParseCacheControl` over the places of `no-cache`: one of them has no `=` behind
it. -/
def noCacheLoop (s : NsCString) : Bool :=
  match h : PL_strcasestr (ascii "no-cache") s with
  | none => false
  | some s' => (s'.drop 8).head? ≠ some 61 || noCacheLoop (s'.drop 8)
termination_by s.length
decreasing_by
  have hle := (PL_strcasestr_suffix h).1.length_le
  have hpos := List.length_pos_iff.mpr (PL_strcasestr_suffix h).2
  rw [List.length_drop]
  omega

namespace nsHttpResponseHead

/-- `ParseCacheControl` of a header's value, or of none. -/
def ParseCacheControl (head : nsHttpResponseHead) (val : Option NsCString) : nsHttpResponseHead :=
  match val with
  | none | some [] => { head with mCacheControlNoCache := false, mCacheControlNoStore := false }
  | some val => { head with
      mCacheControlNoCache := head.mCacheControlNoCache || noCacheLoop val
      mCacheControlNoStore :=
        head.mCacheControlNoStore || (PL_strcasestr (ascii "no-store") val).isSome }

/-- `ParsePragma`. -/
def ParsePragma (head : nsHttpResponseHead) (val : Option NsCString) : nsHttpResponseHead :=
  match val with
  | none | some [] => { head with mPragmaNoCache := false }
  | some val => { head with
      mPragmaNoCache := head.mPragmaNoCache || (PL_strcasestr (ascii "no-cache") val).isSome }

/-- `SetHeader`. -/
def SetHeader (head : nsHttpResponseHead) (hdr : nsHttpAtom) (val : NsCString) (merge : Bool) :
    nsHttpResponseHead :=
  let head := { head with mHeaders := head.mHeaders.SetHeader hdr val merge }
  if hdr = nsHttp.Cache_Control then
    head.ParseCacheControl (head.mHeaders.PeekHeader hdr)
  else if hdr = nsHttp.Pragma then head.ParsePragma (head.mHeaders.PeekHeader hdr)
  else head

/-- `ParseStatusLine`. -/
def ParseStatusLine (head : nsHttpResponseHead) (line : NsCString) : nsHttpResponseHead :=
  let head := { head with mVersion := ParseVersion line }
  if head.mVersion = NS_HTTP_VERSION_0_9 then
    { head with mStatus := 200, mStatusText := ascii "OK" }
  else
    match behind space line with
    | none => { head with mStatus := 200, mStatusText := ascii "OK" }
    | some line =>
      let status := (atoi line).toUInt32.toUInt16
      { head with
        mStatus := if status = 0 then 200 else status
        mStatusText := (behind space line).getD (ascii "OK") }

/-- `ParseHeaderLine`. -/
def ParseHeaderLine (head : nsHttpResponseHead) (t : AtomTable) (line : NsCString) :
    nsHttpResponseHead × AtomTable :=
  match head.mHeaders.ParseHeaderLine t line with
  | (none, mHeaders, t) => ({ head with mHeaders }, t)
  | (some (hdr, val), mHeaders, t) =>
    let head := { head with mHeaders }
    (if hdr = nsHttp.Content_Length then
        { head with mContentLength := (ParseInt64 val).getD head.mContentLength }
      else if hdr = nsHttp.Cache_Control then head.ParseCacheControl (some val)
      else if hdr = nsHttp.Pragma then head.ParsePragma (some val)
      else head, t)

/-- The headers that `Flatten` leaves out as transient. -/
def transient (header : nsHttpAtom) : Bool :=
  header = nsHttp.Connection || header = nsHttp.Proxy_Connection || header = nsHttp.Keep_Alive ||
  header = nsHttp.WWW_Authenticate || header = nsHttp.Proxy_Authenticate ||
  header = nsHttp.Trailer || header = nsHttp.Transfer_Encoding || header = nsHttp.Upgrade ||
  header = nsHttp.Set_Cookie

/-- `Flatten` with `pruneTransients`. -/
def Flatten (head : nsHttpResponseHead) : NsCString :=
  if head.mVersion = NS_HTTP_VERSION_0_9 then []
  else
    ascii "HTTP/" ++ (if head.mVersion = NS_HTTP_VERSION_1_1 then ascii "1.1 " else ascii "1.0 ") ++
    decimal head.mStatus.toNat ++ ascii " " ++ head.mStatusText ++ [CR, LF] ++
    head.mHeaders.mHeaders.flatMap fun e =>
      if transient e.header then []
      else cString e.header._val ++ ascii ": " ++ cString e.value ++ [CR, LF]

/-- The loop of `Parse` over the header lines. -/
def parseLoop (head : nsHttpResponseHead) (t : AtomTable) (block : NsCString) :
    NsResult × nsHttpResponseHead × AtomTable :=
  if block = [] then (.ok, head, t)
  else
    match h : splitLine block with
    | none => (.NS_ERROR_UNEXPECTED, head, t)
    | some (line, rest) =>
      let (head, t) := head.ParseHeaderLine t line
      parseLoop head t rest
termination_by block.length
decreasing_by exact length_splitLine h

/-- `Parse`. -/
def Parse (head : nsHttpResponseHead) (t : AtomTable) (block : NsCString) :
    NsResult × nsHttpResponseHead × AtomTable :=
  match splitLine block with
  | none => (.NS_ERROR_UNEXPECTED, head, t)
  | some (line, rest) => (head.ParseStatusLine line).parseLoop t rest

end nsHttpResponseHead

end Kompozer.Http

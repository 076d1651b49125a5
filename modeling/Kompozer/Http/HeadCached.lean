import Kompozer.Http.HeadValues

/-! A head that is flattened and parsed again, as the cache does. The calls that made the head
decide whether it is read back as it was. -/

namespace Kompozer.Http

open Net (NsCString cString CR LF colon space)
open Prefs (ascii decimal)
open nsHttpHeaderArray (Clean CanAppendToHeader delimiter written)
open nsHttpResponseHead (transient)
open nsHttpVersion Edit

/-! ### Atoms that are known by name -/

/-- The atom of a name if no other names are known. -/
def atomOf (name : NsCString) : nsHttpAtom := (AtomTable.CreateAtomTable.ResolveAtom name).1

theorem special_of_notMem {a : nsHttpAtom} (h : a ∉ nsHttp.atomList) :
    transient a = false ∧ CanAppendToHeader a = true ∧ delimiter a = ascii ", " := by
  have hmem : ∀ b ∈ [nsHttp.Connection, nsHttp.Proxy_Connection, nsHttp.Keep_Alive,
      nsHttp.WWW_Authenticate, nsHttp.Proxy_Authenticate, nsHttp.Trailer, nsHttp.Transfer_Encoding,
      nsHttp.Upgrade, nsHttp.Set_Cookie, nsHttp.Content_Type, nsHttp.Content_Length,
      nsHttp.User_Agent, nsHttp.Referer, nsHttp.Host, nsHttp.Authorization,
      nsHttp.Proxy_Authorization, nsHttp.If_Modified_Since, nsHttp.If_Unmodified_Since,
      nsHttp.From, nsHttp.Location, nsHttp.Max_Forwards], b ∈ nsHttp.atomList := by
    simp only [List.forall_mem_cons, List.not_mem_nil, false_implies, implies_true, and_true]
    refine ⟨?_, ?_, ?_, ?_, ?_, ?_, ?_, ?_, ?_, ?_, ?_, ?_, ?_, ?_, ?_, ?_, ?_, ?_, ?_, ?_, ?_⟩ <;>
      exact nsHttp.mem_atomList (by simp [nsHttp.atomNames])
  have hne : ∀ b ∈ _, a ≠ b := fun b hb hab => h (hab ▸ hmem b hb)
  simp only [List.forall_mem_cons] at hne
  simp [transient, CanAppendToHeader, delimiter, hne]

theorem delimiter_of_not_transient {a : nsHttpAtom} (h : transient a = false) :
    delimiter a = ascii ", " := by
  refine if_neg ?_
  rintro (rfl | rfl | rfl) <;> exact absurd h (by decide)

section Names

variable {t : AtomTable} {a : nsHttpAtom} {name : NsCString}

theorem atomOf_cases (ha : a ∈ t.atoms) (h : PL_strcasecmp a._val name = true) :
    atomOf name = a ∨ (atomOf name ∉ nsHttp.atomList ∧ a ∉ nsHttp.atomList) := by
  by_cases hknown : a ∈ nsHttp.atomList
  · exact .inl (congrArg Prod.fst
      (AtomTable.ResolveAtom_of_mem (t := AtomTable.CreateAtomTable) hknown h))
  · refine .inr ⟨fun hmem => ?_, hknown⟩
    have hname := AtomTable.CreateAtomTable.ResolveAtom_strcasecmp name
    have heq : atomOf name = a := AtomTable.eq_of_mem (t.known _ hmem) ha
      (PL_strcasecmp_iff.mpr ((PL_strcasecmp_iff.mp hname).trans (PL_strcasecmp_iff.mp h).symm))
    exact hknown (heq ▸ hmem)

theorem transient_atomOf (ha : a ∈ t.atoms) (h : PL_strcasecmp a._val name = true) :
    transient (atomOf name) = transient a := by
  rcases atomOf_cases ha h with heq | ⟨hname, hknown⟩
  · rw [heq]
  · rw [(special_of_notMem hname).1, (special_of_notMem hknown).1]

theorem edits_congr {other : NsCString} (h : PL_strcasecmp name other = true)
    (calls : List Call) : edits name calls = edits other calls := by
  unfold edits
  congr 1
  funext p
  rw [PL_strcasecmp, PL_strcasecmp, PL_strcasecmp_iff.mp h]

theorem readsBack_atomOf (ha : a ∈ t.atoms) (h : PL_strcasecmp a._val name = true)
    (es : List Edit) : ReadsBack (atomOf name) es ↔ ReadsBack a es := by
  have hname := AtomTable.CreateAtomTable.ResolveAtom_strcasecmp name
  have htoken : nsHttp.IsValidToken (atomOf name)._val = nsHttp.IsValidToken a._val :=
    nsHttp.IsValidToken_congr (PL_strcasecmp_iff.mpr
      ((PL_strcasecmp_iff.mp hname).trans (PL_strcasecmp_iff.mp h).symm))
  have happend : CanAppendToHeader (atomOf name) = CanAppendToHeader a := by
    rcases atomOf_cases ha h with heq | ⟨hother, hknown⟩
    · rw [heq]
    · rw [(special_of_notMem hother).2.1, (special_of_notMem hknown).2.1]
  rw [ReadsBack, ReadsBack, htoken, happend]

end Names

/-! ### Heads that are received -/

/-- The head that a status line and calls behind it make. -/
def received (t : AtomTable) (line : NsCString) (calls : List Call) : Heads :=
  Heads.run (({} : nsHttpResponseHead).ParseStatusLine line, t) calls

theorem fromLines_edits {calls : List Call} (hcalls : ∀ c ∈ calls, c.Valid) (a : nsHttpAtom) :
    FromLines a (edits a._val calls) := by
  intro v hv
  obtain ⟨⟨name, e⟩, hp, hedit⟩ := List.mem_filterMap.mp hv
  obtain ⟨c, hc, htarget⟩ := List.mem_filterMap.mp hp
  dsimp only at hedit
  split_ifs at hedit with hname
  obtain rfl := Option.some.inj hedit
  cases c with
  | SetHeader n value => exact absurd (Prod.mk.inj (Option.some.inj htarget)).2 (by simp)
  | ParseHeaderLine l =>
    obtain ⟨f, hf, heq⟩ := Option.map_eq_some_iff.mp htarget
    obtain ⟨rfl, hv⟩ := Prod.mk.inj heq
    obtain rfl := Edit.merge.inj hv
    have hclean := nsHttpHeaderArray.field_clean hf (hcalls _ hc)
    exact ⟨by rw [← nsHttp.IsValidToken_congr hname]; exact hclean.1, hclean.2⟩

/-- A header that was edited has an atom. -/
theorem exists_atom {p : Heads} {calls : List Call} (hcalls : ∀ c ∈ calls, c.Valid)
    {name : NsCString} (h : edits name calls ≠ []) :
    ∃ a ∈ (p.run calls).2.atoms, PL_strcasecmp a._val name = true := by
  induction calls using List.reverseRecOn with
  | nil => exact absurd rfl h
  | append_singleton calls c ih =>
    have hc : c.Valid := hcalls c (by simp)
    have hcalls' : ∀ c ∈ calls, c.Valid := fun c' hc' => hcalls c' (List.mem_append_left _ hc')
    rw [Heads.run_append]
    by_cases hedits : edits name calls = []
    · rw [edits_append, hedits, List.nil_append] at h
      rw [Call.run_eq hc]
      cases htarget : c.target with
      | none => exact absurd (by simp [edits, htarget]) h
      | some f =>
        by_cases hname : PL_strcasecmp f.1 name = true
        · refine ⟨_, AtomTable.ResolveAtom_mem _ f.1, PL_strcasecmp_iff.mpr ?_⟩
          exact (PL_strcasecmp_iff.mp (AtomTable.ResolveAtom_strcasecmp _ f.1)).trans
            (PL_strcasecmp_iff.mp hname)
        · exact absurd (by simp [edits, htarget, hname]) h
    · obtain ⟨a, ha, hname⟩ := ih hcalls' hedits
      exact ⟨a, Call.within_run hc _ a ha, hname⟩

/-! ### The text -/

theorem splitLine_of_notMem {s : NsCString} (h : CR ∉ s) : splitLine s = none := by
  cases hsplit : splitLine s with
  | none => rfl
  | some p => exact absurd (by rw [(splitLine_eq_some hsplit).1]; simp) h

theorem splitLine_statusLine (version : nsHttpVersion) (status : UInt16) {text : NsCString}
    (h : splitLine text = none) : splitLine (statusLine version status text) = none := by
  have hdigits : CR ∉ decimal status.toNat := fun hmem =>
    absurd (Prefs.isdigit_decimal hmem) (by decide)
  have hfront : CR ∉ ascii "HTTP/" ++
      (if version = NS_HTTP_VERSION_1_1 then ascii "1.1 " else ascii "1.0 ") ++
      decimal status.toNat := by
    simp only [List.mem_append, not_or]
    refine ⟨⟨by decide, ?_⟩, hdigits⟩
    split_ifs <;> decide
  rw [statusLine, List.append_assoc]
  exact (splitLine_append_none (by decide) (by decide) _ text).mpr
    ⟨splitLine_of_notMem hfront, h⟩

namespace nsHttpResponseHead

variable (head : nsHttpResponseHead)

/-- The entries that `Flatten` writes. -/
def kept : List nsEntry := head.mHeaders.mHeaders.filter fun e => !transient e.header

/-- The head that only has the status line. -/
def bare : nsHttpResponseHead :=
  { mVersion := head.mVersion, mStatus := head.mStatus, mStatusText := head.mStatusText }

variable {head}

theorem Flatten_eq (h : head.mVersion ≠ NS_HTTP_VERSION_0_9) :
    head.Flatten = statusLine head.mVersion head.mStatus head.mStatusText ++
      CR :: LF :: (head.kept.map written).flatMap fun l => l ++ [CR, LF] := by
  have hlines : ∀ entries : List nsEntry, (entries.flatMap fun e =>
      if transient e.header then []
      else cString e.header._val ++ ascii ": " ++ cString e.value ++ [CR, LF]) =
      ((entries.filter fun e => !transient e.header).map written).flatMap fun l =>
        l ++ [CR, LF] := by
    intro entries
    induction entries with
    | nil => rfl
    | cons e entries ih =>
      rw [List.flatMap_cons, ih]
      by_cases he : transient e.header = true
      · simp [he]
      · simp [he, written]
  rw [Flatten, if_neg h, hlines, statusLine, kept, List.append_assoc _ [CR, LF]]
  rfl

theorem Parse_Flatten (hversion : head.mVersion ≠ NS_HTTP_VERSION_0_9) (hstatus : head.mStatus ≠ 0)
    (htext : splitLine head.mStatusText = none) (t : AtomTable) :
    Parse {} t head.Flatten =
      head.bare.parseLoop t ((head.kept.map written).flatMap fun l => l ++ [CR, LF]) := by
  rw [Flatten_eq hversion, Parse,
    splitLine_append_end (splitLine_statusLine head.mVersion head.mStatus htext)]
  dsimp only
  rw [ParseStatusLine_statusLine _ hversion hstatus]
  rfl

end nsHttpResponseHead

/-! ### Written entries -/

theorem filter_eq_find {l : List nsEntry} (h : (l.map nsEntry.header).Nodup) (a : nsHttpAtom) :
    (l.filter fun e => e.header = a) = (l.find? fun e => e.header = a).toList := by
  induction l with
  | nil => rfl
  | cons e l ih =>
    rw [List.map_cons, List.nodup_cons] at h
    by_cases he : e.header = a
    · have hrest : (l.filter fun e => e.header = a) = [] :=
        List.filter_eq_nil_iff.mpr fun e' he' hae => h.1 (by
          rw [he, ← of_decide_eq_true hae]
          exact List.mem_map_of_mem he')
      rw [List.filter_cons_of_pos (by simpa using he), List.find?_cons_of_pos (by simpa using he),
        hrest]
      rfl
    · rw [List.filter_cons_of_neg (by simpa using he), List.find?_cons_of_neg (by simpa using he)]
      exact ih h.2

/-- The lines of clean entries edit a header once if it has an entry. -/
theorem edits_written {t : AtomTable} {a : nsHttpAtom} (ha : a ∈ t.atoms) {entries : List nsEntry}
    (hmem : ∀ e ∈ entries, e.header ∈ t.atoms)
    (hclean : ∀ e ∈ entries, nsHttp.IsValidToken e.header._val = true ∧ Clean e.value) :
    edits a._val ((entries.map written).map .ParseHeaderLine) =
      (entries.filter fun e => e.header = a).map fun e => .merge e.value := by
  induction entries with
  | nil => rfl
  | cons e entries ih =>
    have ih := ih (fun e' he' => hmem e' (List.mem_cons_of_mem _ he'))
      fun e' he' => hclean e' (List.mem_cons_of_mem _ he')
    obtain ⟨htoken, hvalue⟩ := hclean e List.mem_cons_self
    have htarget : (Call.ParseHeaderLine (written e)).target =
        some (e.header._val, .merge e.value) := by
      rw [Call.target, nsHttpHeaderArray.field_written htoken hvalue]
      rfl
    have hiff : PL_strcasecmp e.header._val a._val = true ↔ e.header = a :=
      ⟨AtomTable.eq_of_mem (hmem e List.mem_cons_self) ha, fun h => by
        rw [h]
        exact PL_strcasecmp_iff.mpr rfl⟩
    have hone : edits a._val [.ParseHeaderLine (written e)] =
        if PL_strcasecmp e.header._val a._val then [.merge e.value] else [] := by
      cases h : PL_strcasecmp e.header._val a._val <;> simp [edits, htarget, h]
    rw [List.map_cons, List.map_cons, ← List.singleton_append, edits_append, ih, hone]
    by_cases he : e.header = a
    · rw [if_pos (hiff.mpr he), List.filter_cons_of_pos (by simpa using he)]
      rfl
    · rw [if_neg (mt hiff.mp he), List.filter_cons_of_neg (by simpa using he)]
      rfl

/-! ### What is read back -/

/-- A head is read back as it was, but for the headers that are pruned. -/
structure SameHead (head cached : nsHttpResponseHead) : Prop where
  version : cached.mVersion = head.mVersion
  status : cached.mStatus = head.mStatus
  statusText : cached.mStatusText = head.mStatusText
  headers : ∀ a, transient a = false → cached.mHeaders.GetHeader a = head.mHeaders.GetHeader a
  contentLength : cached.mContentLength = head.mContentLength
  noCache : cached.mCacheControlNoCache = head.mCacheControlNoCache
  noStore : cached.mCacheControlNoStore = head.mCacheControlNoStore
  pragma : cached.mPragmaNoCache = head.mPragmaNoCache

/-- A flag of a header is found since the header was last replaced if and only if it is found
since it was last cleared. -/
def FlagKept (found : NsCString → Bool) (es : List Edit) : Prop :=
  (fromLast isReplace es).any (Edit.found found) = (afterLast clears es).any (Edit.found found)

/-- The last length that a line of `Content-Length` brought is the one of the last value, whichever
call brought that. -/
def LengthKept (es : List Edit) : Prop :=
  (((fromLast isReplace es).filter brings).getLast?.bind fun e => ParseInt64 e.value).getD (-1) =
    (es.filterMap length?).getLast?.getD (-1)

/-- Calls that make a head which is read back as it was. -/
structure Kept (calls : List Call) : Prop where
  values : ∀ name, transient (atomOf name) = false → ReadsBack (atomOf name) (edits name calls)
  contentLength : LengthKept (edits (ascii "Content-Length") calls)
  noCache : FlagKept noCacheLoop (edits (ascii "Cache-Control") calls)
  noStore : FlagKept noStore (edits (ascii "Cache-Control") calls)
  pragma : FlagKept pragmaNoCache (edits (ascii "Pragma") calls)

/-- A head without headers. -/
theorem Heads.run_bare {t : AtomTable} {p : Heads} (hp : p.1.mHeaders = {}) {calls : List Call}
    (hcalls : ∀ c ∈ calls, c.Valid) {a : nsHttpAtom} (ha : a ∈ t.atoms)
    (hwithin : (p.run calls).2.Within t) :
    (p.run calls).1.mHeaders.GetHeader a = (edits a._val calls).foldl (Edit.apply a) none := by
  rw [run_GetHeader ha hcalls hwithin, hp]
  rfl

section Cached

variable (t : AtomTable) {t' : AtomTable} (line : NsCString) {calls : List Call}
  (hcalls : ∀ c ∈ calls, c.Valid) (hwithin : (received t line calls).2.Within t')

include hcalls in
/-- The status line of a head that is received. -/
theorem received_status :
    (received t line calls).1.mVersion = (({} : nsHttpResponseHead).ParseStatusLine line).mVersion ∧
      (received t line calls).1.mStatus = (({} : nsHttpResponseHead).ParseStatusLine line).mStatus ∧
      (received t line calls).1.mStatusText =
        (({} : nsHttpResponseHead).ParseStatusLine line).mStatusText :=
  ⟨Heads.run_frame (q := nsHttpResponseHead.mVersion) (fun _ _ _ => rfl) hcalls,
    Heads.run_frame (q := nsHttpResponseHead.mStatus) (fun _ _ _ => rfl) hcalls,
    Heads.run_frame (q := nsHttpResponseHead.mStatusText) (fun _ _ _ => rfl) hcalls⟩

theorem ParseStatusLine_version (head : nsHttpResponseHead) (line : NsCString) :
    (head.ParseStatusLine line).mVersion = ParseVersion line := by
  unfold nsHttpResponseHead.ParseStatusLine
  dsimp only
  split_ifs
  · rfl
  · split <;> rfl

theorem ParseStatusLine_status (head : nsHttpResponseHead) (line : NsCString) :
    (head.ParseStatusLine line).mStatus ≠ 0 := by
  unfold nsHttpResponseHead.ParseStatusLine
  dsimp only
  have hdefault : (200 : UInt16) ≠ 0 := by decide
  split_ifs
  · exact hdefault
  · split
    · exact hdefault
    · dsimp only
      split_ifs with h
      · exact hdefault
      · exact h

theorem ParseStatusLine_statusText (head : nsHttpResponseHead) (h : splitLine line = none) :
    splitLine (head.ParseStatusLine line).mStatusText = none := by
  unfold nsHttpResponseHead.ParseStatusLine
  dsimp only
  have hdefault : splitLine (ascii "OK") = none := by decide
  split_ifs
  · exact hdefault
  · split
    · exact hdefault
    · next rest hrest =>
      dsimp only
      cases htext : behind space rest with
      | none => exact hdefault
      | some text => exact splitLine_of_suffix ((behind_suffix htext).trans (behind_suffix hrest)) h

theorem received_bare : (({} : nsHttpResponseHead).ParseStatusLine line).mHeaders = {} ∧
    (({} : nsHttpResponseHead).ParseStatusLine line).mContentLength = -1 ∧
    (({} : nsHttpResponseHead).ParseStatusLine line).mCacheControlNoCache = false ∧
    (({} : nsHttpResponseHead).ParseStatusLine line).mCacheControlNoStore = false ∧
    (({} : nsHttpResponseHead).ParseStatusLine line).mPragmaNoCache = false := by
  unfold nsHttpResponseHead.ParseStatusLine
  dsimp only
  split_ifs
  · exact ⟨rfl, rfl, rfl, rfl, rfl⟩
  · split <;> exact ⟨rfl, rfl, rfl, rfl, rfl⟩

include hcalls hwithin in
/-- The value of a header of a head that is received. -/
theorem received_GetHeader {a : nsHttpAtom} (ha : a ∈ t'.atoms) :
    (received t line calls).1.mHeaders.GetHeader a =
      (edits a._val calls).foldl (Edit.apply a) none :=
  Heads.run_bare (received_bare line).1 hcalls ha hwithin

include hcalls in
/-- The names of the values that can be read back are the ones of the atoms. -/
theorem values_iff : (∀ name, transient (atomOf name) = false →
      ReadsBack (atomOf name) (edits name calls)) ↔
    ∀ a ∈ (received t line calls).2.atoms, transient a = false →
      ∀ v, (received t line calls).1.mHeaders.GetHeader a = some v →
        nsHttp.IsValidToken a._val = true ∧ Clean v := by
  have hself : (received t line calls).2.Within (received t line calls).2 := fun _ ha => ha
  constructor
  · intro h a ha htransient
    have hrefl : PL_strcasecmp a._val a._val = true := PL_strcasecmp_iff.mpr rfl
    have hreads := h a._val (by rwa [transient_atomOf ha hrefl])
    rw [readsBack_atomOf ha hrefl, readsBack_iff (delimiter_of_not_transient htransient)
      (fromLines_edits hcalls a)] at hreads
    rwa [received_GetHeader t line hcalls hself ha]
  · intro h name htransient
    by_cases hedits : edits name calls = []
    · rw [hedits]
      intro earlier value later heq
      exact absurd heq (by simp)
    · obtain ⟨a, ha, hname⟩ := exists_atom (p := (_, t)) hcalls hedits
      rw [transient_atomOf ha hname] at htransient
      have h := h a ha htransient
      rw [received_GetHeader t line hcalls hself ha] at h
      rw [readsBack_atomOf ha hname, ← edits_congr hname,
        readsBack_iff (delimiter_of_not_transient htransient) (fromLines_edits hcalls a)]
      exact h

end Cached

/-! ### Reading a head back whose values are clean -/

/-- In values that can be read back no part is hidden behind a zero byte. -/
theorem found_of_readsBack {a : nsHttpAtom} {es : List Edit} (hlines : FromLines a es)
    (happend : CanAppendToHeader a = true) (h : ReadsBack a es) (found : NsCString → Bool) :
    (fromLast isReplace es).any (Edit.found found) =
      (fromLast isReplace es).any (found ·.value) := by
  have hself : ∀ e ∈ fromLast isReplace es, cString e.value = e.value := by
    intro e he
    cases e with
    | merge v =>
      have hmem : Edit.merge v ∈ es := fromLast_subset isReplace es he
      exact Net.cString_eq_self (hlines v hmem).2.noNul
    | replace v =>
      by_cases hv : v = []
      · rw [hv]
        rfl
      · obtain ⟨earlier, later, heq, hlater⟩ := mem_fromLast he rfl
        rcases h earlier v later heq hlater hv with ⟨-, hno⟩ | ⟨-, hplain, -⟩
        · exact absurd (hno.symm.trans happend) (by decide)
        · exact Net.cString_eq_self hplain.noNul
  rw [Bool.eq_iff_iff, List.any_eq_true, List.any_eq_true]
  exact exists_congr fun e => and_congr_right fun he => by rw [Edit.found, hself e he]

theorem LookupEntry_of_mem {hs : nsHttpHeaderArray} {e : nsEntry} (h : e ∈ hs.mHeaders) :
    hs.LookupEntry e.header = some e := by
  have hmem : e ∈ hs.mHeaders.filter fun e' => e'.header = e.header :=
    List.mem_filter.mpr ⟨h, by simp⟩
  rw [filter_eq_find hs.nodup, Option.mem_toList] at hmem
  exact hmem

namespace nsHttpResponseHead

/-- The values that `Flatten` writes are clean. -/
def CleanHead (head : nsHttpResponseHead) : Prop :=
  ∀ a, transient a = false → ∀ v, head.mHeaders.GetHeader a = some v →
    nsHttp.IsValidToken a._val = true ∧ Clean v ∧ v ≠ []

variable {head : nsHttpResponseHead} {t t' : AtomTable} (hclean : head.CleanHead)
  (hmem : ∀ a ∈ head.mHeaders.mHeaders.map nsEntry.header, a ∈ t.atoms)

/-- The calls of `Parse`. -/
def keptCalls (head : nsHttpResponseHead) : List Call :=
  (head.kept.map written).map .ParseHeaderLine

include hclean

theorem clean_kept {e : nsEntry} (he : e ∈ head.kept) :
    nsHttp.IsValidToken e.header._val = true ∧ Clean e.value := by
  obtain ⟨hentry, htransient⟩ := List.mem_filter.mp he
  have hvalue : head.mHeaders.GetHeader e.header = some e.value := by
    rw [nsHttpHeaderArray.GetHeader, LookupEntry_of_mem hentry]
    rfl
  have h := hclean e.header (by simpa using htransient) e.value hvalue
  exact ⟨h.1, h.2.1⟩

theorem valid_keptCalls : ∀ c ∈ head.keptCalls, c.Valid := by
  intro c hc
  obtain ⟨l, hl, rfl⟩ := List.mem_map.mp hc
  obtain ⟨e, he, rfl⟩ := List.mem_map.mp hl
  exact nsHttpHeaderArray.isLine_written (clean_kept hclean he).1 (clean_kept hclean he).2

include hmem in
/-- Each header that is kept has one line. -/
theorem edits_keptCalls {a : nsHttpAtom} (ha : a ∈ t.atoms) (htransient : transient a = false) :
    edits a._val head.keptCalls = (head.mHeaders.GetHeader a).toList.map .merge := by
  have hkept : ∀ e ∈ head.kept, e.header ∈ t.atoms := fun e he =>
    hmem _ (List.mem_map_of_mem (List.mem_filter.mp he).1)
  have hfilter : (head.kept.filter fun e => e.header = a) =
      head.mHeaders.mHeaders.filter fun e => e.header = a := by
    rw [kept, List.filter_filter]
    refine List.filter_congr fun e _ => ?_
    by_cases he : e.header = a
    · simp [he, htransient]
    · simp [he]
  rw [keptCalls, edits_written ha hkept fun e he => clean_kept hclean he, hfilter,
    filter_eq_find head.mHeaders.nodup, nsHttpHeaderArray.GetHeader,
    nsHttpHeaderArray.LookupEntry]
  cases head.mHeaders.mHeaders.find? fun e => e.header = a <;> rfl

include hmem in
/-- The state beside the headers is parsed from the values. -/
theorem derived_keptCalls {p : Heads} (hp : p.1 = head.bare) :
    (p.run head.keptCalls).1.mContentLength =
        ((head.mHeaders.GetHeader nsHttp.Content_Length).bind ParseInt64).getD (-1) ∧
      (p.run head.keptCalls).1.mCacheControlNoCache =
        (head.mHeaders.GetHeader nsHttp.Cache_Control).any noCacheLoop ∧
      (p.run head.keptCalls).1.mCacheControlNoStore =
        (head.mHeaders.GetHeader nsHttp.Cache_Control).any noStore ∧
      (p.run head.keptCalls).1.mPragmaNoCache =
        (head.mHeaders.GetHeader nsHttp.Pragma).any pragmaNoCache := by
  have hflag : ∀ (a : nsHttpAtom) (found : NsCString → Bool), transient a = false →
      ((head.mHeaders.GetHeader a).toList.map Edit.merge).foldl (flagged found) false =
        (head.mHeaders.GetHeader a).any found := by
    intro a found ha
    cases hv : head.mHeaders.GetHeader a with
    | none => rfl
    | some v =>
      obtain ⟨-, hvalue, hne⟩ := hclean a ha v hv
      have hstr : cString v = v := Net.cString_eq_self hvalue.noNul
      simp [flagged, Edit.value, hstr, hne]
  have hedits := fun {a} => edits_keptCalls (a := a) hclean hmem
  have hrun := Heads.run_derived (p := p) (valid_keptCalls hclean)
  rw [hedits (t.known _ nsHttp.Content_Length_mem) (by decide),
    hedits (t.known _ nsHttp.Cache_Control_mem) (by decide),
    hedits (t.known _ nsHttp.Pragma_mem) (by decide), hp] at hrun
  obtain ⟨hlength, hnoCache, hnoStore, hpragma⟩ := hrun
  refine ⟨hlength.trans ?_, hnoCache.trans (hflag _ _ (by decide)),
    hnoStore.trans (hflag _ _ (by decide)), hpragma.trans (hflag _ _ (by decide))⟩
  cases head.mHeaders.GetHeader nsHttp.Content_Length <;> rfl

include hmem in
/-- The headers that are kept are read back. -/
theorem GetHeader_keptCalls {p : Heads} (hp : p.1 = head.bare) (hwithin : t.Within p.2)
    {a : nsHttpAtom} (htransient : transient a = false) :
    (p.run head.keptCalls).1.mHeaders.GetHeader a = head.mHeaders.GetHeader a := by
  have hvalid := valid_keptCalls hclean
  have hmem' : ∀ b ∈ head.mHeaders.mHeaders.map nsEntry.header,
      b ∈ (p.run head.keptCalls).2.atoms := fun b hb =>
    Heads.within_run hvalid p b (hwithin b (hmem b hb))
  by_cases ha : a ∈ (p.run head.keptCalls).2.atoms
  · rw [Heads.run_bare (by rw [hp]; rfl) hvalid ha fun _ h => h,
      edits_keptCalls hclean hmem' ha htransient]
    cases hv : head.mHeaders.GetHeader a with
    | none => rfl
    | some v => exact @nsHttpHeaderArray.stored_none a v (hclean a htransient v hv).2.2 true
  · have hno : ∀ hs : nsHttpHeaderArray, a ∉ hs.mHeaders.map nsEntry.header →
        hs.GetHeader a = none := fun hs h =>
      nsHttpHeaderArray.GetHeader_eq_none.mpr (List.find?_eq_none.mpr fun e he hea =>
        h (of_decide_eq_true hea ▸ List.mem_map_of_mem he))
    have hheaders := Heads.run_headers (p := p) hvalid (by rw [hp]; simp [bare])
    rw [hno _ fun h => ha (hheaders a h), hno _ fun h => ha (hmem' a h)]

end nsHttpResponseHead

/-! ### When a head is read back -/

section Main

variable (t : AtomTable) {t' : AtomTable} {line : NsCString} {calls : List Call}
  (hline : IsLine line) (hversion : ParseVersion line ≠ NS_HTTP_VERSION_0_9)
  (hcalls : ∀ c ∈ calls, c.Valid)

include hcalls in
theorem received_headers : ∀ a ∈ (received t line calls).1.mHeaders.mHeaders.map nsEntry.header,
    a ∈ (received t line calls).2.atoms :=
  Heads.run_headers hcalls (by rw [(received_bare line).1]; simp)

include hcalls in
theorem cleanHead_iff : (received t line calls).1.CleanHead ↔
    ∀ name, transient (atomOf name) = false → ReadsBack (atomOf name) (edits name calls) := by
  rw [values_iff t line hcalls]
  have hself : (received t line calls).2.Within (received t line calls).2 := fun _ ha => ha
  constructor
  · exact fun h a _ htransient v hv => ⟨(h a htransient v hv).1, (h a htransient v hv).2.1⟩
  · intro h a htransient v hv
    have ha : a ∈ (received t line calls).2.atoms := by
      refine received_headers t hcalls a ?_
      by_contra hno
      have hnone : (received t line calls).1.mHeaders.GetHeader a = none :=
        nsHttpHeaderArray.GetHeader_eq_none.mpr (List.find?_eq_none.mpr fun e he hea =>
          hno (of_decide_eq_true hea ▸ List.mem_map_of_mem he))
      exact absurd (hnone.symm.trans hv) (by simp)
    obtain ⟨htoken, hvalue⟩ := h a ha htransient v hv
    rw [received_GetHeader t line hcalls hself ha] at hv
    exact ⟨htoken, hvalue, foldl_apply_ne_nil hv⟩

include hcalls in
/-- A flag that is parsed from the value is the one that the calls left if it is kept. -/
theorem flag_iff (hclean : (received t line calls).1.CleanHead) {a : nsHttpAtom}
    (hknown : a ∈ nsHttp.atomList) (htransient : transient a = false)
    (happend : CanAppendToHeader a = true) {found : NsCString → Bool} (hlocal : Local found) :
    ((received t line calls).1.mHeaders.GetHeader a).any found =
        (edits a._val calls).foldl (flagged found) false ↔
      FlagKept found (edits a._val calls) := by
  have hself : (received t line calls).2.Within (received t line calls).2 := fun _ ha => ha
  have ha : a ∈ (received t line calls).2.atoms := (received t line calls).2.known a hknown
  have hlines := fromLines_edits hcalls a
  have hdelimiter := delimiter_of_not_transient htransient
  have hget := received_GetHeader t line hcalls hself ha
  have hreads : ReadsBack a (edits a._val calls) := by
    rw [readsBack_iff hdelimiter hlines, ← hget]
    exact fun v hv => ⟨(hclean a htransient v hv).1, (hclean a htransient v hv).2.1⟩
  rw [hget, foldl_apply_any hlocal happend hdelimiter, foldl_flagged, FlagKept,
    found_of_readsBack hlines happend hreads]

include hcalls in
/-- The length that is parsed from the value is the one that the calls left if it is kept. -/
theorem length_iff :
    (((received t line calls).1.mHeaders.GetHeader nsHttp.Content_Length).bind
        ParseInt64).getD (-1) =
        (edits nsHttp.Content_Length._val calls).foldl measured (-1) ↔
      LengthKept (edits nsHttp.Content_Length._val calls) := by
  have hself : (received t line calls).2.Within (received t line calls).2 := fun _ ha => ha
  have ha := (received t line calls).2.known nsHttp.Content_Length nsHttp.Content_Length_mem
  rw [received_GetHeader t line hcalls hself ha, foldl_apply_last (by decide), foldl_measured,
    LengthKept, Option.bind_map]
  rfl

include hline hversion hcalls

theorem received_Parse (t' : AtomTable) :
    nsHttpResponseHead.Parse {} t' (received t line calls).1.Flatten =
      (received t line calls).1.bare.parseLoop t'
        (((received t line calls).1.kept.map written).flatMap fun l => l ++ [CR, LF]) := by
  obtain ⟨hv, hs, htext⟩ := received_status t line hcalls
  refine nsHttpResponseHead.Parse_Flatten ?_ ?_ ?_ t'
  · rwa [hv, ParseStatusLine_version]
  · rw [hs]
    exact ParseStatusLine_status _ _
  · rw [htext]
    exact ParseStatusLine_statusText _ _ hline.2

/-- A value that is read from a text is clean. -/
theorem cleanHead_of_same (hwithin : (received t line calls).2.Within t')
    (h : SameHead (received t line calls).1
      (nsHttpResponseHead.Parse {} t' (received t line calls).1.Flatten).2.1) :
    (received t line calls).1.CleanHead := by
  rw [cleanHead_iff t hcalls, values_iff t line hcalls]
  intro a ha htransient v hv
  have hnul : (0 : UInt8) ∉
      ((received t line calls).1.kept.map written).flatMap fun l => l ++ [CR, LF] := by
    have hcstr : ∀ s : NsCString, (0 : UInt8) ∉ cString s := fun s hmem => by
      simpa using List.mem_takeWhile_imp hmem
    intro hmem
    obtain ⟨l, hl, hmem⟩ := List.mem_flatMap.mp hmem
    obtain ⟨e, -, rfl⟩ := List.mem_map.mp hl
    rw [written] at hmem
    simp only [List.mem_append] at hmem
    rcases hmem with ((hmem | hmem) | hmem) | hmem
    · exact hcstr _ hmem
    · exact absurd hmem (by decide)
    · exact hcstr _ hmem
    · exact absurd hmem (by decide)
  obtain ⟨lines, hlines, hrun⟩ := nsHttpResponseHead.parseLoop_exists
    (((received t line calls).1.bare, t') : Heads) hnul
  have hvalid : ∀ c ∈ lines.map Call.ParseHeaderLine, c.Valid := by
    intro c hc
    obtain ⟨l, hl, rfl⟩ := List.mem_map.mp hc
    exact hlines l hl
  have hself := Heads.within_run hvalid (((received t line calls).1.bare, t') : Heads)
  have hsame := h.headers a htransient
  rw [received_Parse t hline hversion hcalls, hrun, hv,
    Heads.run_bare rfl hvalid (hself a (hwithin a ha)) fun _ h => h] at hsame
  refine clean_merges (delimiter_of_not_transient htransient) (fromLines_edits hvalid a) ?_ hsame
  intro e he
  obtain ⟨⟨name, e'⟩, hp, hedit⟩ := List.mem_filterMap.mp he
  obtain ⟨c, hc, htarget⟩ := List.mem_filterMap.mp hp
  obtain ⟨l, -, rfl⟩ := List.mem_map.mp hc
  obtain ⟨f, -, heq⟩ := Option.map_eq_some_iff.mp htarget
  obtain ⟨-, rfl⟩ := Prod.mk.inj heq
  dsimp only at hedit
  split_ifs at hedit
  obtain rfl := Option.some.inj hedit
  rfl

/-- A head whose values are clean is read back up to the state beside the headers. -/
theorem sameHead_of_clean (hwithin : (received t line calls).2.Within t')
    (hclean : (received t line calls).1.CleanHead) :
    (nsHttpResponseHead.Parse {} t' (received t line calls).1.Flatten).1 = .ok ∧
      (SameHead (received t line calls).1
          (nsHttpResponseHead.Parse {} t' (received t line calls).1.Flatten).2.1 ↔
        LengthKept (edits (ascii "Content-Length") calls) ∧
          FlagKept noCacheLoop (edits (ascii "Cache-Control") calls) ∧
          FlagKept noStore (edits (ascii "Cache-Control") calls) ∧
          FlagKept pragmaNoCache (edits (ascii "Pragma") calls)) := by
  obtain ⟨hbare, hlength, hnoCache, hnoStore, hpragma⟩ := received_bare line
  have hstate := Heads.run_derived (p := (({} : nsHttpResponseHead).ParseStatusLine line, t)) hcalls
  rw [hlength, hnoCache, hnoStore, hpragma] at hstate
  have hmem := @received_headers t line calls hcalls
  have hvalid := nsHttpResponseHead.valid_keptCalls hclean
  have hlines : ∀ l ∈ (received t line calls).1.kept.map written, splitLine l = none := by
    intro l hl
    obtain ⟨e, he, rfl⟩ := List.mem_map.mp hl
    have h := nsHttpResponseHead.clean_kept hclean he
    exact (nsHttpHeaderArray.isLine_written h.1 h.2).2
  have hrun := nsHttpResponseHead.parseLoop_lines
    (((received t line calls).1.bare, t') : Heads) hlines
  have hderived := nsHttpResponseHead.derived_keptCalls hclean hmem
    (p := ((received t line calls).1.bare, t')) rfl
  rw [received_Parse t hline hversion hcalls, hrun]
  refine ⟨rfl, ?_⟩
  have hlengthIff := @length_iff t line calls hcalls
  have hnoCacheIff := flag_iff t hcalls hclean nsHttp.Cache_Control_mem
    (by decide) (by decide) noCacheLoop_local
  have hnoStoreIff := flag_iff t hcalls hclean nsHttp.Cache_Control_mem
    (by decide) (by decide) noStore_local
  have hpragmaIff := flag_iff t hcalls hclean nsHttp.Pragma_mem
    (by decide) (by decide) pragmaNoCache_local
  rw [← hderived.1, ← hstate.1] at hlengthIff
  rw [← hderived.2.1, ← hstate.2.1] at hnoCacheIff
  rw [← hderived.2.2.1, ← hstate.2.2.1] at hnoStoreIff
  rw [← hderived.2.2.2, ← hstate.2.2.2] at hpragmaIff
  constructor
  · exact fun h => ⟨hlengthIff.mp h.contentLength, hnoCacheIff.mp h.noCache,
      hnoStoreIff.mp h.noStore, hpragmaIff.mp h.pragma⟩
  · intro h
    refine ⟨?_, ?_, ?_, fun a htransient => ?_, hlengthIff.mpr h.1, hnoCacheIff.mpr h.2.1,
      hnoStoreIff.mpr h.2.2.1, hpragmaIff.mpr h.2.2.2⟩
    · exact Heads.run_frame (q := nsHttpResponseHead.mVersion) (fun _ _ _ => rfl) hvalid
    · exact Heads.run_frame (q := nsHttpResponseHead.mStatus) (fun _ _ _ => rfl) hvalid
    · exact Heads.run_frame (q := nsHttpResponseHead.mStatusText) (fun _ _ _ => rfl) hvalid
    · exact nsHttpResponseHead.GetHeader_keptCalls hclean hmem rfl hwithin htransient

/-- The cached head is the head that was received, if and only if the calls are kept. -/
theorem sameHead_iff_kept (hwithin : (received t line calls).2.Within t') :
    (nsHttpResponseHead.Parse {} t' (received t line calls).1.Flatten).1 = .ok ∧
        SameHead (received t line calls).1
          (nsHttpResponseHead.Parse {} t' (received t line calls).1.Flatten).2.1 ↔
      Kept calls := by
  constructor
  · rintro ⟨-, hsame⟩
    have hclean := cleanHead_of_same t hline hversion hcalls hwithin hsame
    obtain ⟨hlength, hnoCache, hnoStore, hpragma⟩ :=
      (sameHead_of_clean t hline hversion hcalls hwithin hclean).2.mp hsame
    exact ⟨(cleanHead_iff t hcalls).mp hclean, hlength, hnoCache, hnoStore, hpragma⟩
  · intro h
    have hclean := (@cleanHead_iff t line calls hcalls).mpr h.values
    obtain ⟨hok, hiff⟩ := sameHead_of_clean t hline hversion hcalls hwithin hclean
    exact ⟨hok, hiff.mpr ⟨h.contentLength, h.noCache, h.noStore, h.pragma⟩⟩

end Main

/-- Two lines of a header that is cached. -/
def storedLines : List Call :=
  [.ParseHeaderLine (ascii "Cache-Control: no-store"),
    .ParseHeaderLine (ascii "Cache-Control: max-age=5")]

theorem sameHead_storedLines :
    let p := received AtomTable.CreateAtomTable (ascii "HTTP/1.1 200 OK") storedLines
    SameHead p.1 (nsHttpResponseHead.Parse {} p.2 p.1.Flatten).2.1 := by
  refine ((sameHead_iff_kept AtomTable.CreateAtomTable ⟨by decide +kernel, by decide +kernel⟩
    (by decide +kernel) ?_ fun _ ha => ha).mpr ?_).2
  · simp only [storedLines, List.forall_mem_cons]
    exact ⟨⟨by decide +kernel, by decide +kernel⟩, ⟨by decide +kernel, by decide +kernel⟩,
      fun _ h => absurd h List.not_mem_nil⟩
  · have hlength : edits (ascii "Content-Length") storedLines = [] := by decide +kernel
    have hpragma : edits (ascii "Pragma") storedLines = [] := by decide +kernel
    have hflag : ∀ found, FlagKept found (edits (ascii "Cache-Control") storedLines) := by
      intro found
      have hfrom : fromLast isReplace (edits (ascii "Cache-Control") storedLines) =
          edits (ascii "Cache-Control") storedLines := by decide +kernel
      have hafter : afterLast clears (edits (ascii "Cache-Control") storedLines) =
          edits (ascii "Cache-Control") storedLines := by decide +kernel
      rw [FlagKept, hfrom, hafter]
    refine ⟨fun name _ earlier value later heq => ?_, ?_, hflag _, hflag _, ?_⟩
    · have hmem : Edit.replace value ∈ edits name storedLines := by
        rw [heq]
        simp
      obtain ⟨p, hp, hedit⟩ := List.mem_filterMap.mp hmem
      have htargets : storedLines.filterMap Call.target =
          [(ascii "Cache-Control", .merge (ascii "no-store")),
            (ascii "Cache-Control", .merge (ascii "max-age=5"))] := by decide +kernel
      rw [htargets] at hp
      simp only [List.mem_cons, List.not_mem_nil, or_false] at hp
      rcases hp with rfl | rfl <;> exact absurd hedit (by dsimp only; split_ifs <;> simp)
    · rw [hlength]
      rfl
    · rw [hpragma]
      rfl

/-- A line of a header that is cached and an empty one behind it. -/
def clearedLines : List Call :=
  [.ParseHeaderLine (ascii "Cache-Control: no-store"), .ParseHeaderLine (ascii "Cache-Control:")]

theorem not_sameHead_clearedLines :
    let p := received AtomTable.CreateAtomTable (ascii "HTTP/1.1 200 OK") clearedLines
    ¬SameHead p.1 (nsHttpResponseHead.Parse {} p.2 p.1.Flatten).2.1 := by
  have hcalls : ∀ c ∈ clearedLines, c.Valid := by
    simp only [clearedLines, List.forall_mem_cons]
    exact ⟨⟨by decide +kernel, by decide +kernel⟩, ⟨by decide +kernel, by decide +kernel⟩,
      fun _ h => absurd h List.not_mem_nil⟩
  intro p h
  have hclean := cleanHead_of_same AtomTable.CreateAtomTable
    ⟨by decide +kernel, by decide +kernel⟩ (by decide +kernel) hcalls (fun _ ha => ha) h
  have hkept := ((sameHead_of_clean AtomTable.CreateAtomTable
    ⟨by decide +kernel, by decide +kernel⟩ (by decide +kernel) hcalls (fun _ ha => ha) hclean).2.mp
      h).2.2.1
  have hedits : edits (ascii "Cache-Control") clearedLines =
      [.merge (ascii "no-store"), .merge []] := by decide +kernel
  rw [hedits] at hkept
  exact absurd hkept (by
    show ¬_ = _
    decide +kernel)

end Kompozer.Http

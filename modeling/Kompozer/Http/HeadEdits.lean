import Kompozer.Http.ResponseHead

/-! What a run of header lines and of `SetHeader` leaves of one header and of the flags that are
kept beside it. A run edits a header by merging and by replacing, and the other edits of the run
do not matter. -/

namespace Kompozer.Http

open Net (NsCString cString CR LF colon space TAB)
open Prefs (ascii)

/-! ### Atoms -/

namespace nsHttp

theorem Cache_Control_mem : Cache_Control ∈ atomList := mem_atomList (by simp [atomNames])

theorem Content_Length_mem : Content_Length ∈ atomList := mem_atomList (by simp [atomNames])

theorem Pragma_mem : Pragma ∈ atomList := mem_atomList (by simp [atomNames])

end nsHttp

theorem PL_strcasecmp_iff {a b : NsCString} : PL_strcasecmp a b = true ↔ a.map uc = b.map uc :=
  decide_eq_true_iff

namespace AtomTable

variable {t t' : AtomTable} {a b : nsHttpAtom} {str : NsCString}

/-- A table knows the atoms that another one knows. -/
def Within (t t' : AtomTable) : Prop := ∀ a ∈ t.atoms, a ∈ t'.atoms

theorem eq_of_mem (ha : a ∈ t.atoms) (hb : b ∈ t.atoms)
    (h : PL_strcasecmp a._val b._val = true) : a = b := by
  by_contra hne
  have hpair := List.pairwise_iff_getElem.mp t.distinct
  obtain ⟨i, hi, rfl⟩ := List.mem_iff_getElem.mp ha
  obtain ⟨j, hj, rfl⟩ := List.mem_iff_getElem.mp hb
  rcases Nat.lt_trichotomy i j with hij | rfl | hij
  · exact absurd h (by rw [hpair i j hi hj hij]; decide)
  · exact hne rfl
  · rw [PL_strcasecmp_iff] at h
    exact absurd (PL_strcasecmp_iff.mpr h.symm) (by rw [hpair j i hj hi hij]; decide)

theorem ResolveAtom_of_mem (ha : a ∈ t.atoms) (h : PL_strcasecmp a._val str = true) :
    t.ResolveAtom str = (a, t) := by
  unfold ResolveAtom
  split
  · next b hfind =>
    have hb := List.find?_some hfind
    rw [PL_strcasecmp_iff] at h hb
    rw [eq_of_mem (List.mem_of_find?_eq_some hfind) ha (PL_strcasecmp_iff.mpr (hb.trans h.symm))]
  · next hfind => exact absurd h (by simpa using List.find?_eq_none.mp hfind a ha)

theorem ResolveAtom_mem (t : AtomTable) (str : NsCString) :
    (t.ResolveAtom str).1 ∈ (t.ResolveAtom str).2.atoms := by
  unfold ResolveAtom
  split
  · next hfind => exact List.mem_of_find?_eq_some hfind
  · exact List.mem_append_right _ (List.mem_singleton.mpr rfl)

theorem ResolveAtom_strcasecmp (t : AtomTable) (str : NsCString) :
    PL_strcasecmp (t.ResolveAtom str).1._val str = true := by
  unfold ResolveAtom
  split
  · next b hfind =>
    have hb := List.find?_some hfind
    exact hb
  · exact PL_strcasecmp_iff.mpr rfl

theorem within_ResolveAtom (t : AtomTable) (str : NsCString) : t.Within (t.ResolveAtom str).2 := by
  intro a ha
  unfold ResolveAtom
  split
  · exact ha
  · exact List.mem_append_left _ ha

/-- The atom of a name is the one that a greater table has for it. -/
theorem ResolveAtom_eq_iff (hwithin : (t.ResolveAtom str).2.Within t') (ha : a ∈ t'.atoms) :
    (t.ResolveAtom str).1 = a ↔ PL_strcasecmp str a._val = true := by
  have hname := PL_strcasecmp_iff.mp (t.ResolveAtom_strcasecmp str)
  constructor
  · rintro rfl
    exact PL_strcasecmp_iff.mpr hname.symm
  · intro h
    exact eq_of_mem (hwithin _ (t.ResolveAtom_mem str)) ha
      (PL_strcasecmp_iff.mpr (hname.trans (PL_strcasecmp_iff.mp h)))

end AtomTable

/-! ### One header of an array -/

namespace nsHttpHeaderArray

variable {hs : nsHttpHeaderArray} {header : nsHttpAtom}

/-- What `SetHeader` leaves of a header's value. -/
def stored (header : nsHttpAtom) (old : Option NsCString) (value : NsCString) (merge : Bool) :
    Option NsCString :=
  if value = [] then if merge then old else none
  else match old with
    | none => some value
    | some w =>
      if merge && CanAppendToHeader header then some (w ++ delimiter header ++ value)
      else some value

theorem stored_nil (old : Option NsCString) (merge : Bool) :
    stored header old [] merge = if merge then old else none := rfl

theorem stored_none {value : NsCString} (h : value ≠ []) (merge : Bool) :
    stored header none value merge = some value := if_neg h

theorem stored_some (w : NsCString) {value : NsCString} (h : value ≠ []) (merge : Bool) :
    stored header (some w) value merge =
      if merge && CanAppendToHeader header then some (w ++ delimiter header ++ value)
      else some value := if_neg h

theorem stored_replace (old : Option NsCString) (value : NsCString) :
    stored header old value false = if value = [] then none else some value := by
  cases old <;> rfl

theorem GetHeader_eq_none : hs.GetHeader header = none ↔ hs.LookupEntry header = none :=
  Option.map_eq_none_iff

theorem find_onEntry (header : nsHttpAtom) (f : nsEntry → Option NsCString) {l : List nsEntry}
    (h : (l.map nsEntry.header).Nodup) (a : nsHttpAtom) :
    ((onEntry header f l).find? fun e => e.header = a).map nsEntry.value =
      if a = header then (l.find? fun e => e.header = a).bind f
      else (l.find? fun e => e.header = a).map nsEntry.value := by
  induction l with
  | nil => simp [onEntry]
  | cons e l ih =>
    rw [List.map_cons, List.nodup_cons] at h
    unfold onEntry
    by_cases he : e.header = header
    · rw [if_pos he]
      by_cases ha : a = header
      · subst ha
        rw [if_pos rfl, List.find?_cons_of_pos (by simpa using he)]
        cases hf : f e with
        | none =>
          have hnone : (l.find? fun e => e.header = a) = none :=
            List.find?_eq_none.mpr fun e' he' hae => h.1 (by
              rw [he, ← of_decide_eq_true hae]
              exact List.mem_map_of_mem he')
          simp [hnone, hf]
        | some v => simp [hf, he]
      · have hne : ¬e.header = a := fun h' => ha (h'.symm.trans he)
        rw [if_neg ha, List.find?_cons_of_neg (by simpa using hne)]
        cases f e with
        | none => rfl
        | some v => simp [hne]
    · rw [if_neg he]
      by_cases hea : e.header = a
      · have ha : a ≠ header := fun h' => he (hea.trans h')
        rw [if_neg ha, List.find?_cons_of_pos (by simpa using hea),
          List.find?_cons_of_pos (by simpa using hea)]
      · rw [List.find?_cons_of_neg (by simpa using hea),
          List.find?_cons_of_neg (by simpa using hea)]
        exact ih h.2

theorem GetHeader_change (hs : nsHttpHeaderArray) (header : nsHttpAtom)
    (f : nsEntry → Option NsCString) (a : nsHttpAtom) :
    (hs.change header f).GetHeader a =
      if a = header then (hs.LookupEntry a).bind f else hs.GetHeader a :=
  find_onEntry header f hs.nodup a

theorem GetHeader_append (value : NsCString) (h : header ∉ hs.mHeaders.map nsEntry.header)
    (a : nsHttpAtom) :
    (hs.append header value h).GetHeader a =
      if a = header then some value else hs.GetHeader a := by
  unfold GetHeader LookupEntry append
  rw [List.find?_append]
  split_ifs with ha
  · subst ha
    have hnone : (hs.mHeaders.find? fun e => e.header = a) = none :=
      List.find?_eq_none.mpr fun e he hae =>
        h (of_decide_eq_true hae ▸ List.mem_map_of_mem he)
    simp [hnone]
  · simp [Ne.symm ha]

theorem GetHeader_SetHeader (hs : nsHttpHeaderArray) (header : nsHttpAtom) (value : NsCString)
    (merge : Bool) (a : nsHttpAtom) :
    (hs.SetHeader header value merge).GetHeader a =
      if a = header then stored header (hs.GetHeader header) value merge else hs.GetHeader a := by
  unfold SetHeader
  split
  · next hlookup =>
    have hnone : hs.GetHeader header = none := GetHeader_eq_none.mpr hlookup
    by_cases hvalue : value = []
    · subst hvalue
      rw [if_pos rfl, stored_nil, hnone, ite_self]
      split_ifs with ha
      · rw [ha, hnone]
      · rfl
    · rw [if_neg hvalue, GetHeader_append, hnone, stored_none hvalue]
  · next e hlookup =>
    have hsome : hs.GetHeader header = some e.value := by rw [GetHeader, hlookup]; rfl
    by_cases ha : a = header
    · subst ha
      rw [if_pos rfl, hsome]
      by_cases hvalue : value = []
      · subst hvalue
        rw [if_pos rfl, stored_nil]
        split_ifs
        · exact hsome
        · rw [GetHeader_change, if_pos rfl, hlookup]
          rfl
      · rw [if_neg hvalue, stored_some _ hvalue]
        split_ifs <;>
        · rw [GetHeader_change, if_pos rfl, hlookup]
          rfl
    · rw [if_neg ha]
      split_ifs <;> first
        | rfl
        | rw [GetHeader_change, if_neg ha]

theorem SetHeader_headers (hs : nsHttpHeaderArray) (header : nsHttpAtom) (value : NsCString)
    (merge : Bool) {a : nsHttpAtom}
    (h : a ∈ (hs.SetHeader header value merge).mHeaders.map nsEntry.header) :
    a = header ∨ a ∈ hs.mHeaders.map nsEntry.header := by
  unfold SetHeader at h
  split at h
  · split_ifs at h
    · exact .inr h
    · rw [append, List.map_append, List.mem_append] at h
      exact h.symm.imp_left List.mem_singleton.mp
  · split_ifs at h
    · exact .inr h
    all_goals exact .inr ((onEntry_headers _ _ _).subset h)

end nsHttpHeaderArray

/-! ### Runs -/

/-- What is done to a head behind its status line. -/
inductive Call
  | ParseHeaderLine (line : NsCString)
  | SetHeader (name value : NsCString)
  deriving DecidableEq, Repr

/-- A head and the table of its atoms. -/
abbrev Heads := nsHttpResponseHead × AtomTable

def Call.run (p : Heads) : Call → Heads
  | .ParseHeaderLine line => p.1.ParseHeaderLine p.2 line
  | .SetHeader name value =>
    (p.1.SetHeader (p.2.ResolveAtom name).1 value false, (p.2.ResolveAtom name).2)

def Heads.run (p : Heads) (calls : List Call) : Heads := calls.foldl Call.run p

/-- An edit of a header's value. -/
inductive Edit
  | merge (value : NsCString)
  | replace (value : NsCString)
  deriving DecidableEq, Repr

namespace Edit

def value : Edit → NsCString
  | merge v => v
  | replace v => v

def isReplace : Edit → Bool
  | merge _ => false
  | replace _ => true

/-- What an edit leaves of the header's value. -/
def apply (header : nsHttpAtom) (old : Option NsCString) (e : Edit) : Option NsCString :=
  nsHttpHeaderArray.stored header old e.value !e.isReplace

end Edit

/-- The name of the header that a call edits and the edit. A malformed line has none. -/
def Call.target : Call → Option (NsCString × Edit)
  | .ParseHeaderLine line => (nsHttpHeaderArray.field line).map fun p => (p.1, .merge p.2)
  | .SetHeader name value => some (name, .replace value)

/-- The edits of the header of a name. -/
def edits (name : NsCString) (calls : List Call) : List Edit :=
  (calls.filterMap Call.target).filterMap fun p =>
    if PL_strcasecmp p.1 name then some p.2 else none

theorem Heads.run_append (p : Heads) (calls : List Call) (c : Call) :
    p.run (calls ++ [c]) = c.run (p.run calls) := List.foldl_concat ..

theorem edits_append (name : NsCString) (calls calls' : List Call) :
    edits name (calls ++ calls') = edits name calls ++ edits name calls' := by
  rw [edits, List.filterMap_append, List.filterMap_append]
  rfl

/-- A C string that is one line. -/
def IsLine (s : NsCString) : Prop := 0 ∉ s ∧ splitLine s = none

/-- Calls as callers make them: a header line is one line and a name is a C string. -/
def Call.Valid : Call → Prop
  | .ParseHeaderLine line => IsLine line
  | .SetHeader name _ => 0 ∉ name

/-! ### One edit -/

/-- What a flag of `Cache-Control` or `Pragma` is after an edit of its header. -/
def flagged (found : NsCString → Bool) (flag : Bool) (e : Edit) : Bool :=
  if cString e.value = [] then false else flag || found (cString e.value)

/-- What the length is after an edit of `Content-Length`. -/
def measured (length : Int64) : Edit → Int64
  | .merge v => (ParseInt64 v).getD length
  | .replace _ => length

/-- `no-store` is found. -/
def noStore (val : NsCString) : Bool := (PL_strcasestr (ascii "no-store") val).isSome

/-- `no-cache` is found in a `Pragma`. -/
def pragmaNoCache (val : NsCString) : Bool := (PL_strcasestr (ascii "no-cache") val).isSome

namespace nsHttpResponseHead

variable (head : nsHttpResponseHead) (t : AtomTable)

/-- What an edit leaves of a head. -/
def edit (hdr : nsHttpAtom) (e : Edit) : nsHttpResponseHead where
  mHeaders := head.mHeaders.SetHeader hdr e.value !e.isReplace
  mVersion := head.mVersion
  mStatus := head.mStatus
  mStatusText := head.mStatusText
  mContentLength :=
    if hdr = nsHttp.Content_Length then measured head.mContentLength e else head.mContentLength
  mCacheControlNoCache :=
    if hdr = nsHttp.Cache_Control then flagged noCacheLoop head.mCacheControlNoCache e
    else head.mCacheControlNoCache
  mCacheControlNoStore :=
    if hdr = nsHttp.Cache_Control then flagged noStore head.mCacheControlNoStore e
    else head.mCacheControlNoStore
  mPragmaNoCache :=
    if hdr = nsHttp.Pragma then flagged pragmaNoCache head.mPragmaNoCache e
    else head.mPragmaNoCache

theorem ParseCacheControl_eq (val : Option NsCString) :
    head.ParseCacheControl val = { head with
      mCacheControlNoCache := if val.getD [] = [] then false
        else head.mCacheControlNoCache || noCacheLoop (val.getD [])
      mCacheControlNoStore := if val.getD [] = [] then false
        else head.mCacheControlNoStore || noStore (val.getD []) } := by
  match val with
  | none => rfl
  | some [] => rfl
  | some (_ :: _) => rfl

theorem ParsePragma_eq (val : Option NsCString) :
    head.ParsePragma val = { head with
      mPragmaNoCache := if val.getD [] = [] then false
        else head.mPragmaNoCache || pragmaNoCache (val.getD []) } := by
  match val with
  | none => rfl
  | some [] => rfl
  | some (_ :: _) => rfl

theorem PeekHeader_replaced (hs : nsHttpHeaderArray) (hdr : nsHttpAtom) (val : NsCString) :
    ((hs.SetHeader hdr val false).PeekHeader hdr).getD [] = cString val := by
  rw [nsHttpHeaderArray.PeekHeader, nsHttpHeaderArray.GetHeader_SetHeader, if_pos rfl,
    nsHttpHeaderArray.stored_replace]
  split_ifs with h
  · rw [h]
    rfl
  · rfl

theorem SetHeader_eq (hdr : nsHttpAtom) (val : NsCString) :
    head.SetHeader hdr val false = head.edit hdr (.replace val) := by
  have hpeek := PeekHeader_replaced head.mHeaders hdr val
  unfold SetHeader edit
  by_cases hcc : hdr = nsHttp.Cache_Control
  · subst hcc
    rw [if_pos rfl, ParseCacheControl_eq, hpeek]
    rfl
  · by_cases hpragma : hdr = nsHttp.Pragma
    · subst hpragma
      rw [if_neg hcc, if_pos rfl, ParsePragma_eq, hpeek]
      rfl
    · simp only [if_neg hcc, if_neg hpragma, measured, ite_self]
      rfl

theorem ParseHeaderLine_of_none {line : NsCString} (h : nsHttpHeaderArray.field line = none) :
    head.ParseHeaderLine t line = (head, t) := by
  rw [ParseHeaderLine, nsHttpHeaderArray.ParseHeaderLine, h]

theorem ParseHeaderLine_of_some {line name val : NsCString}
    (h : nsHttpHeaderArray.field line = some (name, val)) (hval : 0 ∉ val) :
    head.ParseHeaderLine t line =
      (head.edit (t.ResolveAtom name).1 (.merge val), (t.ResolveAtom name).2) := by
  have hcstr : cString val = val := Net.cString_eq_self hval
  rw [ParseHeaderLine, nsHttpHeaderArray.ParseHeaderLine, h]
  refine Prod.ext ?_ rfl
  show ite _ _ _ = _
  unfold edit
  generalize (t.ResolveAtom name).1 = hdr
  by_cases hlen : hdr = nsHttp.Content_Length
  · subst hlen
    rfl
  · by_cases hcc : hdr = nsHttp.Cache_Control
    · subst hcc
      rw [if_neg hlen, if_pos rfl, ParseCacheControl_eq]
      simp only [flagged, Edit.value, hcstr]
      rfl
    · by_cases hpragma : hdr = nsHttp.Pragma
      · subst hpragma
        rw [if_neg hlen, if_neg hcc, if_pos rfl, ParsePragma_eq]
        simp only [flagged, Edit.value, hcstr]
        rfl
      · simp only [if_neg hlen, if_neg hcc, if_neg hpragma]
        rfl

end nsHttpResponseHead

/-! ### Lines -/

theorem notMem_behind {c b : UInt8} {s p : NsCString} (h : behind c s = some p) (hb : b ∉ s) :
    b ∉ p := by
  induction s with
  | nil => exact absurd h (by simp [behind])
  | cons d s ih =>
    rw [List.mem_cons, not_or] at hb
    unfold behind at h
    split_ifs at h
    · obtain rfl := Option.some.inj h
      exact hb.2
    · exact ih h hb.2

theorem notMem_field {line name val : NsCString} {b : UInt8}
    (h : nsHttpHeaderArray.field line = some (name, val)) (hb : b ∉ line) : b ∉ val := by
  unfold nsHttpHeaderArray.field at h
  split at h
  · exact absurd h (by simp)
  · next p hp =>
    dsimp only at h
    split_ifs at h
    obtain ⟨-, rfl⟩ := Prod.mk.inj (Option.some.inj h)
    intro hmem
    exact notMem_behind hp hb ((List.dropWhile_sublist _).subset
      ((List.rdropWhile_prefix _ _).subset hmem))

/-! ### Runs as edits -/

/-- A call that has no target does nothing, and every other one is an edit. -/
theorem Call.run_eq {c : Call} (h : c.Valid) (p : Heads) :
    c.run p = match c.target with
      | none => p
      | some (name, e) => (p.1.edit (p.2.ResolveAtom name).1 e, (p.2.ResolveAtom name).2) := by
  cases c with
  | SetHeader name value => exact Prod.ext (p.1.SetHeader_eq _ value) rfl
  | ParseHeaderLine line =>
    cases hfield : nsHttpHeaderArray.field line with
    | none =>
      rw [target, hfield]
      exact p.1.ParseHeaderLine_of_none p.2 hfield
    | some f =>
      rw [target, hfield]
      exact p.1.ParseHeaderLine_of_some p.2 hfield (notMem_field hfield h.1)

theorem Call.within_run {c : Call} (h : c.Valid) (p : Heads) : p.2.Within (c.run p).2 := by
  rw [run_eq h]
  cases c.target with
  | none => exact fun _ ha => ha
  | some q => exact p.2.within_ResolveAtom q.1

theorem Heads.within_run {calls : List Call} (h : ∀ c ∈ calls, c.Valid) (p : Heads) :
    p.2.Within (p.run calls).2 := by
  induction calls using List.reverseRecOn with
  | nil => exact fun _ ha => ha
  | append_singleton calls c ih =>
    intro a ha
    rw [run_append]
    exact Call.within_run (h c (by simp)) _ a
      (ih (fun c' hc' => h c' (List.mem_append_left _ hc')) a ha)

/-- What edits of one header change alone, they change one after the other. -/
theorem Heads.run_fold {α : Type} {q : nsHttpResponseHead → α} {step : α → Edit → α}
    {a : nsHttpAtom} (hq : ∀ head hdr e,
      q (nsHttpResponseHead.edit head hdr e) = if hdr = a then step (q head) e else q head)
    {t : AtomTable} (ha : a ∈ t.atoms) (p : Heads) {calls : List Call}
    (hvalid : ∀ c ∈ calls, c.Valid) (hwithin : (p.run calls).2.Within t) :
    q (p.run calls).1 = (edits a._val calls).foldl step (q p.1) := by
  induction calls using List.reverseRecOn with
  | nil => rfl
  | append_singleton calls c ih =>
    have hc : c.Valid := hvalid c (by simp)
    have ih := ih (fun c' hc' => hvalid c' (List.mem_append_left _ hc'))
    rw [run_append] at hwithin ⊢
    rw [edits_append, List.foldl_append, ← ih fun b hb => hwithin b (Call.within_run hc _ b hb)]
    rw [Call.run_eq hc] at hwithin ⊢
    cases htarget : c.target with
    | none => simp [edits, htarget]
    | some f =>
      rw [htarget] at hwithin
      have hiff := AtomTable.ResolveAtom_eq_iff hwithin ha
      show q (nsHttpResponseHead.edit _ _ _) = _
      rw [hq]
      by_cases heq : ((p.run calls).2.ResolveAtom f.1).1 = a
      · rw [if_pos heq]
        simp [edits, htarget, hiff.mp heq]
      · rw [if_neg heq]
        simp [edits, htarget, mt hiff.mpr heq]

section Closed

variable {p : Heads} {calls : List Call} {t : AtomTable}

theorem Heads.run_GetHeader {a : nsHttpAtom} (ha : a ∈ t.atoms) (hvalid : ∀ c ∈ calls, c.Valid)
    (hwithin : (p.run calls).2.Within t) :
    (p.run calls).1.mHeaders.GetHeader a =
      (edits a._val calls).foldl (Edit.apply a) (p.1.mHeaders.GetHeader a) := by
  refine run_fold (q := fun h => h.mHeaders.GetHeader a) ?_ ha p hvalid hwithin
  intro head hdr e
  show (head.mHeaders.SetHeader hdr e.value _).GetHeader a = _
  rw [nsHttpHeaderArray.GetHeader_SetHeader]
  by_cases h : hdr = a
  · subst h
    rw [if_pos rfl, if_pos rfl, Edit.apply]
  · rw [if_neg (Ne.symm h), if_neg h]

theorem Heads.run_derived (hvalid : ∀ c ∈ calls, c.Valid) :
    (p.run calls).1.mContentLength =
        (edits nsHttp.Content_Length._val calls).foldl measured p.1.mContentLength ∧
      (p.run calls).1.mCacheControlNoCache =
        (edits nsHttp.Cache_Control._val calls).foldl (flagged noCacheLoop)
          p.1.mCacheControlNoCache ∧
      (p.run calls).1.mCacheControlNoStore =
        (edits nsHttp.Cache_Control._val calls).foldl (flagged noStore) p.1.mCacheControlNoStore ∧
      (p.run calls).1.mPragmaNoCache =
        (edits nsHttp.Pragma._val calls).foldl (flagged pragmaNoCache) p.1.mPragmaNoCache := by
  have hknown : ∀ a ∈ nsHttp.atomList, a ∈ (p.run calls).2.atoms := (p.run calls).2.known
  have hself : (p.run calls).2.Within (p.run calls).2 := fun _ ha => ha
  refine ⟨?_, ?_, ?_, ?_⟩
  · exact run_fold (fun _ _ _ => rfl) (hknown _ nsHttp.Content_Length_mem) p hvalid hself
  · exact run_fold (fun _ _ _ => rfl) (hknown _ nsHttp.Cache_Control_mem) p hvalid hself
  · exact run_fold (fun _ _ _ => rfl) (hknown _ nsHttp.Cache_Control_mem) p hvalid hself
  · exact run_fold (fun _ _ _ => rfl) (hknown _ nsHttp.Pragma_mem) p hvalid hself

/-- What an edit never changes. -/
theorem Heads.run_frame {α : Type} {q : nsHttpResponseHead → α}
    (hq : ∀ head hdr e, q (nsHttpResponseHead.edit head hdr e) = q head)
    (hvalid : ∀ c ∈ calls, c.Valid) : q (p.run calls).1 = q p.1 := by
  induction calls using List.reverseRecOn with
  | nil => rfl
  | append_singleton calls c ih =>
    rw [run_append, Call.run_eq (hvalid c (by simp)),
      ← ih fun c' hc' => hvalid c' (List.mem_append_left _ hc')]
    cases c.target with
    | none => rfl
    | some f => exact hq _ _ _

/-- The headers of a head have their atoms in the table. -/
theorem Heads.run_headers (hvalid : ∀ c ∈ calls, c.Valid)
    (h : ∀ a ∈ p.1.mHeaders.mHeaders.map nsEntry.header, a ∈ p.2.atoms) :
    ∀ a ∈ (p.run calls).1.mHeaders.mHeaders.map nsEntry.header, a ∈ (p.run calls).2.atoms := by
  induction calls using List.reverseRecOn with
  | nil => exact h
  | append_singleton calls c ih =>
    have ih := ih fun c' hc' => hvalid c' (List.mem_append_left _ hc')
    rw [run_append, Call.run_eq (hvalid c (by simp))]
    cases c.target with
    | none => exact ih
    | some f =>
      intro a ha
      rcases nsHttpHeaderArray.SetHeader_headers _ _ _ _ ha with rfl | ha
      · exact AtomTable.ResolveAtom_mem _ _
      · exact AtomTable.within_ResolveAtom _ _ a (ih a ha)

end Closed

end Kompozer.Http

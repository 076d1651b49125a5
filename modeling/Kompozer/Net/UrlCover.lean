import Kompozer.Net.Spans
import Kompozer.Lib.Trim

/-! What `ParseURL` and `ParseAuthority` cover. The first loop of `ParseURL` moves the start of the
text for every white space that it comes to, also for one behind another character: then the
text that is parsed begins too far behind. -/

namespace Kompozer.Net

open Prefs (ascii)

/-! ### The first loop -/

/-- A character at which the first loop ends. -/
def endsScan (c : UInt8) : Bool := c == 0 || c == colon || endsAuthority c

/-- What the first loop passes over. -/
def scanHead (spec : NsCString) : NsCString := spec.takeWhile (!endsScan ·)

def opensHost (c : UInt8) : Bool := c == atSign || c == openBracket

/-- The colon of a scheme comes first. -/
def SchemeFirst (spec : NsCString) : Prop :=
  (spec.drop (scanHead spec).length).head? = some colon ∧
    ∀ c ∈ scanHead spec, opensHost c = false

instance (spec : NsCString) : Decidable (SchemeFirst spec) :=
  @instDecidableAnd _ _ _ (List.decidableBAll _ (scanHead spec))

/-- No white space follows another character in front of the first separator. -/
def Unbroken (spec : NsCString) : Prop :=
  ∀ c ∈ (scanHead spec).dropWhile isBlank, isBlank c = false

instance (spec : NsCString) : Decidable (Unbroken spec) :=
  List.decidableBAll _ ((scanHead spec).dropWhile isBlank)

theorem scanScheme_done {rest : NsCString} {p : ℕ} {s : SchemeScan}
    (h : s.colon.isSome ∨ s.slash.isSome) : scanScheme rest p s = s := by
  cases rest with
  | nil => rfl
  | cons c rest => rw [scanScheme, if_pos (.inr h)]

theorem scanHead_cons {c : UInt8} (h : endsScan c = false) (rest : NsCString) :
    scanHead (c :: rest) = c :: scanHead rest := by
  rw [scanHead, List.takeWhile_cons_of_pos (by simp [h])]
  rfl

theorem scanHead_end {c : UInt8} (h : endsScan c = true) (rest : NsCString) :
    scanHead (c :: rest) = [] := by
  rw [scanHead, List.takeWhile_cons_of_neg (by simp [h])]

theorem endsScan_not_blank {c : UInt8} (h : endsScan c = true) : isBlank c = false := by
  simp only [endsScan, endsAuthority, Bool.or_eq_true, beq_iff_eq] at h
  rcases h with (rfl | rfl) | ((rfl | rfl) | rfl) | rfl <;> decide

theorem blank_not_opensHost {c : UInt8} (h : isBlank c = true) : opensHost c = false := by
  simp only [isBlank, Bool.or_eq_true, beq_iff_eq] at h
  rcases h with ((rfl | rfl) | rfl) | rfl <;> decide

/-- What the first loop has found behind a part of the text: it counts the white space, and the
first character of a host is in front of the place where it ends. -/
structure Scanned (head : NsCString) (next : Option UInt8) (p : ℕ) (s s' : SchemeScan) :
    Prop where
  offset : s'.offset = s.offset + head.countP isBlank
  colon : s'.colon = if next = some colon then some (p + head.length) else none
  stop_none : s'.stop = none ↔ s.stop = none ∧ ∀ c ∈ head, opensHost c = false
  stop_lt : ∀ q ∈ s'.stop, s.stop = some q ∨ q < p + head.length

/-- One more character in front. -/
theorem Scanned.cons {head : NsCString} {next : Option UInt8} {p : ℕ} {s s₁ s' : SchemeScan}
    {c : UInt8} (h : Scanned head next (p + 1) s₁ s')
    (hoffset : s₁.offset = s.offset + if isBlank c then 1 else 0)
    (hstop : s₁.stop = if opensHost c then s.stop <|> some p else s.stop) :
    Scanned (c :: head) next p s s' where
  offset := by
    rw [h.offset, hoffset, List.countP_cons]
    omega
  colon := by
    rw [h.colon, List.length_cons]
    congr 2
    omega
  stop_none := by
    rw [h.stop_none, hstop, List.forall_mem_cons, ← and_assoc]
    refine and_congr_left fun _ => ?_
    cases hc : opensHost c <;> cases s.stop <;> simp
  stop_lt q hq := by
    rw [List.length_cons]
    rcases h.stop_lt q hq with hs | hlt
    · rw [hstop] at hs
      split_ifs at hs
      · cases hs' : s.stop with
        | none =>
          rw [hs'] at hs
          obtain rfl := Option.some.inj hs
          exact .inr (by omega)
        | some q' =>
          rw [hs'] at hs
          exact .inl hs
      · exact .inl hs
    · exact .inr (by omega)

theorem scanScheme_scanned (rest : NsCString) (p : ℕ) {s : SchemeScan} (hcolon : s.colon = none)
    (hslash : s.slash = none) :
    Scanned (scanHead rest) (rest.drop (scanHead rest).length).head? p s
      (scanScheme rest p s) := by
  induction rest generalizing p s with
  | nil => exact ⟨rfl, hcolon, by simp [scanScheme, scanHead], fun q hq => .inl hq⟩
  | cons c rest ih =>
    rw [scanScheme]
    by_cases hend : endsScan c = true
    · rw [scanHead_end hend]
      by_cases h0 : c = 0
      · subst h0
        rw [if_pos (.inl rfl)]
        exact ⟨rfl, hcolon, by simp, fun q hq => .inl hq⟩
      rw [if_neg (by simp [h0, hcolon, hslash]), if_neg (by simp [endsScan_not_blank hend])]
      by_cases hc : c = colon
      · rw [if_pos hc, scanScheme_done (.inl rfl)]
        exact ⟨rfl, by simp [hc], by simp, fun q hq => .inl hq⟩
      · have hauth : endsAuthority c = true := by simpa [endsScan, h0, hc] using hend
        rw [if_neg hc, if_pos hauth, scanScheme_done (.inr rfl)]
        exact ⟨rfl, by simp [hc, hcolon], by simp, fun q hq => .inl hq⟩
    · have hend' : endsScan c = false := by simpa using hend
      have hparts := hend'
      simp only [endsScan, Bool.or_eq_false_iff, beq_eq_false_iff_ne] at hparts
      obtain ⟨⟨h0, hc⟩, hauth⟩ := hparts
      rw [scanHead_cons hend', List.length_cons, List.drop_succ_cons,
        if_neg (by simp [h0, hcolon, hslash])]
      split_ifs with hblank hauth' hhost
      · exact (ih (p + 1) (s := { s with offset := s.offset + 1 }) hcolon hslash).cons
          (by simp [hblank]) (by simp [blank_not_opensHost hblank])
      · exact absurd hauth' (by simp [hauth])
      · have hopens : opensHost c = true := by simpa [opensHost] using hhost
        exact (ih (p + 1) (s := { s with stop := s.stop <|> some p }) hcolon hslash).cons
          (by simp [hblank]) (by simp [hopens])
      · have hopens : opensHost c = false := by simpa [opensHost] using hhost
        exact (ih (p + 1) hcolon hslash).cons (by simp [hblank]) (by simp [hopens])

/-- The white space that the first loop counts. -/
theorem scanScheme_offset (spec : NsCString) :
    (scanScheme spec 0 {}).offset = (scanHead spec).countP isBlank := by
  simpa using (scanScheme_scanned spec 0 (s := {}) rfl rfl).offset

/-- A colon counts if it comes first and no host begins in front of it. -/
theorem scanScheme_schemeColon (spec : NsCString) :
    (scanScheme spec 0 {}).schemeColon =
      if SchemeFirst spec then some (scanHead spec).length else none := by
  have hscan := scanScheme_scanned spec 0 (s := {}) rfl rfl
  have hcolon := hscan.colon
  have hnone := hscan.stop_none
  have hlt := hscan.stop_lt
  rw [Nat.zero_add] at hcolon
  rw [SchemeScan.schemeColon]
  generalize scanScheme spec 0 {} = s at hcolon hnone hlt ⊢
  rw [hcolon]
  split_ifs with hnext hfirst hfirst
  · rw [hnone.mpr ⟨rfl, hfirst.2⟩]
  · cases hstop : s.stop with
    | none => exact absurd ⟨hnext, (hnone.mp hstop).2⟩ hfirst
    | some q =>
      have hq : q < (scanHead spec).length := by simpa using hlt q hstop
      exact if_pos hq
  · exact absurd hfirst.1 hnext
  · rfl

/-! ### Behind the scheme -/

/-- The authority and the path behind their separator. -/
def afterPieces (sep : NsCString) (auth path : URLSegment) : List Piece :=
  if auth.mLen < 0 then [([], auth), (sep, path)] else [(sep, auth), ([], path)]

/-- An authority up to a character, behind a separator. -/
theorem cut_spans (sep rest : NsCString) (inAuth : UInt8 → Bool) :
    let p := sep.length + (rest.takeWhile inAuth).length
    let parts : URLSegment × URLSegment :=
      if p < (sep ++ rest).length then
        (⟨sep.length, (rest.takeWhile inAuth).length⟩, ⟨p, (sep ++ rest).length - p⟩)
      else (⟨sep.length, (sep ++ rest).length - sep.length⟩, ⟨0, -1⟩)
    Spans 0 (afterPieces sep parts.1 parts.2) (sep ++ rest) := by
  dsimp only
  split_ifs with hlt
  · obtain ⟨back, hback⟩ := List.takeWhile_prefix (l := rest) inAuth
    generalize rest.takeWhile inAuth = auth at hback hlt ⊢
    subst hback
    have hspan := Spans.present sep auth (Spans.single (0 + sep.length + auth.length) [] back)
    have hlen : ((sep ++ (auth ++ back)).length : ℤ) - (sep.length + auth.length : ℕ) =
        back.length := by
      simp only [List.length_append]
      push_cast
      omega
    rw [afterPieces, if_neg (by simp), hlen]
    simpa using hspan
  · have hspan := Spans.present sep rest (@Spans.absentSingle (0 + sep.length + rest.length) []
      ⟨0, -1⟩ (by decide))
    have hlen : ((sep ++ rest).length : ℤ) - sep.length = rest.length := by
      simp only [List.length_append]
      push_cast
      omega
    rw [hlen, afterPieces, if_neg (by simp)]
    simpa using hspan

/-- An empty authority in front of a path. -/
theorem emptyAuth_spans (sep rest : NsCString) :
    Spans 0 (afterPieces sep ⟨sep.length, 0⟩ ⟨sep.length, (sep ++ rest).length - sep.length⟩)
      (sep ++ rest) := by
  have hspan := Spans.present sep [] (Spans.single (0 + sep.length + 0) [] rest)
  have hlen : ((sep ++ rest).length : ℤ) - sep.length = rest.length := by
    simp only [List.length_append]
    push_cast
    omega
  rw [hlen, afterPieces, if_neg (by simp)]
  simpa using hspan

/-- The slashes in front. -/
theorem slashes_append (spec : NsCString) :
    ∃ rest, spec = List.replicate (CountConsecutiveSlashes spec) slash ++ rest := by
  have hall : ∀ c ∈ spec.takeWhile (· == slash), c = slash := fun c hc => by
    simpa using List.mem_takeWhile_imp hc
  refine ⟨spec.dropWhile (· == slash), ?_⟩
  rw [CountConsecutiveSlashes, ← List.eq_replicate_of_mem hall, List.takeWhile_append_dropWhile]

theorem emptyAuth_slashes {spec rest : NsCString} {n k : ℕ} (hk : k ≤ n)
    (hspec : spec = List.replicate n slash ++ rest) :
    Spans 0 (afterPieces (List.replicate k slash) ⟨k, 0⟩ ⟨k, spec.length - k⟩) spec := by
  have hsplit : spec = List.replicate k slash ++ (List.replicate (n - k) slash ++ rest) := by
    rw [← List.append_assoc, ← List.replicate_add, Nat.add_sub_cancel' hk, hspec]
  have hspan := emptyAuth_spans (List.replicate k slash) (List.replicate (n - k) slash ++ rest)
  rwa [← hsplit, List.length_replicate] at hspan

/-- Each parser covers what is behind a scheme. -/
theorem ParseAfterScheme_spans (type : URLType) (spec : NsCString) :
    ∃ n, Spans 0 (afterPieces (List.replicate n slash) (ParseAfterScheme type spec).1
      (ParseAfterScheme type spec).2) spec := by
  obtain ⟨rest, hrest⟩ := slashes_append spec
  generalize hn : CountConsecutiveSlashes spec = n at hrest
  have hdrop : spec.drop n = rest := by
    rw [hrest]
    simp
  have hcut := cut_spans (List.replicate n slash) rest
  rw [← hrest, List.length_replicate] at hcut
  cases type with
  | URLTYPE_STANDARD =>
    rw [ParseAfterScheme, stdParseAfterScheme, hn, hdrop]
    by_cases h02 : n = 0 ∨ n = 2
    · rw [if_pos h02]
      exact ⟨n, hcut _⟩
    by_cases h1 : n = 1
    · rw [if_neg h02, if_pos h1]
      refine ⟨0, .absent [] neg_one_lt_zero ?_⟩
      simpa using Spans.single 0 [] spec
    · rw [if_neg h02, if_neg h1]
      exact ⟨2, emptyAuth_slashes (by omega) hrest⟩
  | URLTYPE_AUTHORITY =>
    rw [ParseAfterScheme, authParseAfterScheme, hn, hdrop]
    exact ⟨n, hcut _⟩
  | URLTYPE_NO_AUTHORITY =>
    rw [ParseAfterScheme, noAuthParseAfterScheme, hn]
    by_cases h2 : n = 2
    · subst h2
      rw [if_pos rfl, hdrop]
      exact ⟨2, hcut _⟩
    · rw [if_neg h2]
      by_cases hlt : n < 2
      · rw [if_pos hlt]
        exact ⟨0, emptyAuth_slashes (Nat.zero_le n) hrest⟩
      · rw [if_neg hlt]
        exact ⟨2, emptyAuth_slashes (by omega) hrest⟩

/-! ### The URL -/

/-- The text that is parsed. White space in front is left out; at the end white space and control
characters are, but not the first character. -/
def trimmedSpec (spec : NsCString) : NsCString :=
  let rest := spec.dropWhile isBlank
  rest.take (trimmedLength rest)

/-- The segments of a URL. The colon behind a scheme and the slashes stand in front of the first
one behind the scheme. -/
def urlPieces (nslash : ℕ) (scheme auth path : URLSegment) : List Piece :=
  ([], scheme) ::
    afterPieces ((if scheme.mLen < 0 then [] else [colon]) ++ List.replicate nslash slash) auth path

/-- The segments are within the spec, in order and disjoint, and they cover what is parsed of it. -/
structure UrlCovers (spec : NsCString) (scheme auth path : URLSegment) : Prop where
  bounds : ∀ seg ∈ [scheme, auth, path], 0 ≤ seg.mLen →
    0 ≤ seg.mPos ∧ seg.mPos + seg.mLen ≤ spec.length
  disjoint : ([scheme, auth, path].filter (0 ≤ ·.mLen)).Pairwise
    fun a b => a.mPos + a.mLen ≤ b.mPos
  cover : (trimmedSpec spec = [] ∧ ∀ seg ∈ [scheme, auth, path], seg.mLen ≤ 0) ∨
    ∃ nslash, Spans (spec.takeWhile isBlank).length (urlPieces nslash scheme auth path)
      (trimmedSpec spec)

/-- What `ParseURL` finds, unless it fails, covers the spec. -/
def ParsedCovers (type : URLType) (spec : NsCString) : Prop :=
  ∀ scheme auth path, ParseURL type spec = some (scheme, auth, path) →
    UrlCovers spec scheme auth path

theorem urlPieces_segments (nslash : ℕ) (scheme auth path : URLSegment) :
    (urlPieces nslash scheme auth path).map Prod.snd = [scheme, auth, path] := by
  rw [urlPieces, afterPieces]
  split_ifs <;> rfl

/-- Bounds and order follow from the layout. -/
theorem UrlCovers.of_spans {spec : NsCString} {scheme auth path : URLSegment} {nslash : ℕ}
    (h : Spans (spec.takeWhile isBlank).length (urlPieces nslash scheme auth path)
      (trimmedSpec spec)) : UrlCovers spec scheme auth path := by
  have hsegs := urlPieces_segments nslash scheme auth path
  have hlen : (spec.takeWhile isBlank).length + (trimmedSpec spec).length ≤ spec.length := by
    have hall := congrArg List.length (List.takeWhile_append_dropWhile (p := isBlank) (l := spec))
    have htake := List.length_take_le' (trimmedLength (spec.dropWhile isBlank))
      (spec.dropWhile isBlank)
    rw [List.length_append] at hall
    rw [trimmedSpec]
    omega
  refine ⟨?_, ?_, .inr ⟨nslash, h⟩⟩
  · intro seg hseg hpos
    rw [← hsegs, List.mem_map] at hseg
    obtain ⟨p, hp, rfl⟩ := hseg
    have hstart := h.mPos_le p hp hpos
    have hend := h.end_le p hp hpos
    omega
  · rw [← hsegs, List.filter_map, List.pairwise_map]
    exact h.pairwise

/-- There is an authority or a path. -/
theorem ParseAfterScheme_there (type : URLType) (spec : NsCString) :
    0 ≤ (ParseAfterScheme type spec).1.mLen ∨ 0 ≤ (ParseAfterScheme type spec).2.mLen := by
  have hle : CountConsecutiveSlashes spec ≤ spec.length :=
    (List.takeWhile_prefix _).length_le
  cases type with
  | URLTYPE_STANDARD =>
    rw [ParseAfterScheme, stdParseAfterScheme]
    split_ifs <;> simp
    omega
  | URLTYPE_AUTHORITY =>
    rw [ParseAfterScheme, authParseAfterScheme]
    split_ifs <;> simp
    omega
  | URLTYPE_NO_AUTHORITY =>
    rw [ParseAfterScheme, noAuthParseAfterScheme]
    split_ifs with h2
    · dsimp only
      split_ifs <;> simp
      omega
    · exact .inl le_rfl
    · exact .inl le_rfl

theorem Spans.colon_piece {pos : ℕ} {sep text : NsCString} {seg : URLSegment}
    {pieces : List Piece} (hseg : 0 ≤ seg.mLen) (h : Spans (pos + 1) ((sep, seg) :: pieces) text) :
    Spans pos (([colon] ++ sep, seg) :: pieces) (colon :: text) := by
  cases h with
  | absent _ hlt => exact absurd hseg (not_le.mpr hlt)
  | present _ t h =>
    have hend : pos + ([colon] ++ sep).length + t.length = pos + 1 + sep.length + t.length := by
      simp only [List.length_append, List.length_singleton]
      omega
    have hpos : ((pos : ℤ) + ([colon] ++ sep).length) = ((pos + 1 : ℕ) : ℤ) + sep.length := by
      simp only [List.length_append, List.length_singleton]
      push_cast
      omega
    have hspan := Spans.present ([colon] ++ sep) t (h.move hend)
    rwa [hpos] at hspan

/-- The colon of the scheme belongs to the separator. -/
theorem Spans.colon_first {pos : ℕ} {sep text : NsCString} {auth path : URLSegment}
    (h : Spans (pos + 1) (afterPieces sep auth path) text)
    (hthere : 0 ≤ auth.mLen ∨ 0 ≤ path.mLen) :
    Spans pos (afterPieces ([colon] ++ sep) auth path) (colon :: text) := by
  rw [afterPieces] at h ⊢
  split_ifs at h ⊢ with hauth
  · exact .absent [] hauth
      ((h.of_absent hauth).colon_piece (hthere.resolve_left (not_le.mpr hauth)))
  · exact h.colon_piece (not_lt.mp hauth)

theorem takeWhile_isBlank_scanHead (spec : NsCString) :
    (scanHead spec).takeWhile isBlank = spec.takeWhile isBlank := by
  induction spec with
  | nil => rfl
  | cons c rest ih =>
    by_cases hend : endsScan c = true
    · rw [scanHead_end hend, List.takeWhile_cons_of_neg (by simp [endsScan_not_blank hend])]
      rfl
    · rw [scanHead_cons (by simpa using hend), List.takeWhile_cons, List.takeWhile_cons, ih]

/-- What is passed over behind the white space in front. -/
def scanBody (spec : NsCString) : NsCString := (scanHead spec).dropWhile isBlank

theorem lead_append_scanBody (spec : NsCString) :
    spec.takeWhile isBlank ++ scanBody spec = scanHead spec := by
  rw [← takeWhile_isBlank_scanHead, scanBody, List.takeWhile_append_dropWhile]

/-- The body and what the loop stops at. -/
theorem scanBody_append (spec : NsCString) :
    scanBody spec ++ spec.drop (scanHead spec).length = spec.dropWhile isBlank := by
  have hall : scanHead spec ++ spec.drop (scanHead spec).length = spec := by
    rw [scanHead, Lib.drop_length_takeWhile, List.takeWhile_append_dropWhile]
  apply @List.append_cancel_left _ (spec.takeWhile isBlank)
  rw [← List.append_assoc, lead_append_scanBody, hall, List.takeWhile_append_dropWhile]

theorem offset_eq (spec : NsCString) :
    (scanScheme spec 0 {}).offset =
      (spec.takeWhile isBlank).length + (scanBody spec).countP isBlank := by
  have hlead : (spec.takeWhile isBlank).countP isBlank = (spec.takeWhile isBlank).length :=
    List.countP_eq_length.mpr fun c hc => List.mem_takeWhile_imp hc
  rw [scanScheme_offset, ← lead_append_scanBody, List.countP_append, hlead]

theorem unbroken_iff (spec : NsCString) : Unbroken spec ↔ (scanBody spec).countP isBlank = 0 := by
  rw [List.countP_eq_zero]
  simp [Unbroken, scanBody]

/-- The text without the end that is trimmed. -/
theorem take_trimmedLength {front back : NsCString} {c : UInt8} (hc : ¬ c ≤ 32) :
    (front ++ c :: back).take (trimmedLength (front ++ c :: back)) =
      front ++ c :: back.rdropWhile (· ≤ 32) := by
  have hdrop := Lib.rdropWhile_append_cons (p := (decide <| · ≤ (32 : UInt8))) (c := c)
    (by simpa using hc) front back
  have hprefix := List.rdropWhile_prefix (decide <| · ≤ (32 : UInt8)) (front ++ c :: back)
  have hlen : trimmedLength (front ++ c :: back) =
      (front ++ c :: back.rdropWhile (· ≤ 32)).length := by
    rw [trimmedLength, hdrop, List.length_append, List.length_cons]
    omega
  rw [hdrop] at hprefix
  rw [hlen, ← List.prefix_iff_eq_take.mp hprefix]

theorem afterPieces_shift (sep : NsCString) (auth path : URLSegment) (k : ℤ) :
    (afterPieces sep auth path).map (fun p => (p.1, p.2.shift k)) =
      afterPieces sep (auth.shift k) (path.shift k) := by
  rw [afterPieces, afterPieces, URLSegment.mLen_shift]
  split_ifs <;> rfl

/-- What is behind a scheme, at its place. -/
theorem ParseAfterScheme_shift (type : URLType) (spec : NsCString) (k : ℕ) :
    ∃ n, Spans k (afterPieces (List.replicate n slash)
      ((ParseAfterScheme type spec).1.shift k) ((ParseAfterScheme type spec).2.shift k)) spec := by
  obtain ⟨n, h⟩ := ParseAfterScheme_spans type spec
  refine ⟨n, ?_⟩
  rw [← afterPieces_shift]
  exact h.shift k

theorem spec_eq_of_schemeFirst {spec : NsCString} (h : SchemeFirst spec) :
    ∃ after, spec.drop (scanHead spec).length = colon :: after := by
  cases hd : spec.drop (scanHead spec).length with
  | nil =>
    have hnext := h.1
    rw [hd] at hnext
    cases hnext
  | cons c after =>
    have hnext := h.1
    rw [hd] at hnext
    exact ⟨after, by rw [Option.some.inj hnext]⟩

variable {type : URLType} {spec : NsCString}

/-- Behind the white space in front the parsers cover the spec. -/
theorem Unbroken.covers (h : Unbroken spec) : ParsedCovers type spec := by
  intro scheme auth path hparse
  have hoffset : (scanScheme spec 0 {}).offset = (spec.takeWhile isBlank).length := by
    rw [offset_eq, (unbroken_iff spec).mp h, Nat.add_zero]
  have hrest : spec.drop (spec.takeWhile isBlank).length = spec.dropWhile isBlank :=
    Lib.drop_length_takeWhile isBlank spec
  rw [ParseURL] at hparse
  dsimp only at hparse
  rw [scanScheme_schemeColon, hoffset, hrest] at hparse
  split at hparse
  · rename_i hnil
    obtain ⟨rfl, rfl, rfl⟩ : scheme = ⟨0, -1⟩ ∧ auth = ⟨0, 0⟩ ∧ path = ⟨0, 0⟩ := by
      simpa [eq_comm] using hparse
    refine ⟨by simp, by decide, .inl ⟨?_, by simp⟩⟩
    rw [trimmedSpec, hnil]
    rfl
  · by_cases hfirst : SchemeFirst spec
    · rw [if_pos hfirst] at hparse
      dsimp only at hparse
      split at hparse
      · cases hparse
      · obtain ⟨after, hafter⟩ := spec_eq_of_schemeFirst hfirst
        have hbody := scanBody_append spec
        have hhead := congrArg List.length (lead_append_scanBody spec)
        rw [hafter] at hbody
        rw [List.length_append] at hhead
        have htrim : trimmedSpec spec =
            scanBody spec ++ colon :: after.rdropWhile (· ≤ 32) := by
          rw [trimmedSpec, ← hbody]
          exact take_trimmedLength (by decide)
        have hdrop : (trimmedSpec spec).drop
            ((scanHead spec).length + 1 - (spec.takeWhile isBlank).length) =
              after.rdropWhile (· ≤ 32) := by
          rw [htrim, show (scanHead spec).length + 1 - (spec.takeWhile isBlank).length =
            (scanBody spec).length + 1 by omega]
          simp
        rw [trimmedSpec] at hdrop
        rw [hdrop] at hparse
        obtain ⟨n, hspan⟩ := ParseAfterScheme_shift type (after.rdropWhile (· ≤ 32))
          ((scanHead spec).length + 1)
        have hthere := ParseAfterScheme_there type (after.rdropWhile (· ≤ 32))
        have hscheme : (⟨(spec.takeWhile isBlank).length,
            (scanHead spec).length - (spec.takeWhile isBlank).length⟩ : URLSegment) =
              ⟨(spec.takeWhile isBlank).length + ([] : NsCString).length,
                (scanBody spec).length⟩ := by
          rw [URLSegment.mk.injEq]
          exact ⟨by simp, by omega⟩
        obtain ⟨rfl, rfl, rfl⟩ : scheme = _ ∧ auth = _ ∧ path = _ := by
          simpa [eq_comm] using hparse
        refine @UrlCovers.of_spans _ _ _ _ n ?_
        rw [urlPieces, if_neg (by simp; omega), htrim, hscheme]
        refine .present [] (scanBody spec) (Spans.move (hspan.colon_first hthere) ?_)
        simp only [List.length_nil]
        omega
    · rw [if_neg hfirst] at hparse
      dsimp only at hparse
      obtain ⟨n, hspan⟩ := ParseAfterScheme_shift type (trimmedSpec spec)
        (spec.takeWhile isBlank).length
      obtain ⟨rfl, rfl, rfl⟩ : scheme = ⟨0, -1⟩ ∧
          auth = (ParseAfterScheme type (trimmedSpec spec)).1.shift
            (spec.takeWhile isBlank).length ∧
          path = (ParseAfterScheme type (trimmedSpec spec)).2.shift
            (spec.takeWhile isBlank).length := by
        simpa [trimmedSpec, eq_comm] using hparse
      exact @UrlCovers.of_spans _ _ _ _ n (.absent [] neg_one_lt_zero hspan)

/-! ### White space in front of the first separator -/

/-- The text that is parsed begins behind the white space in front. -/
theorem offset_lt_of_broken (h : ¬ Unbroken spec) :
    (spec.takeWhile isBlank).length < (scanScheme spec 0 {}).offset := by
  rw [unbroken_iff] at h
  rw [offset_eq]
  omega

/-- The first character that is not white space, which is no separator. -/
theorem scanBody_cons_of_broken (h : ¬ Unbroken spec) :
    ∃ c rest, scanBody spec = c :: rest ∧ isBlank c = false ∧ endsScan c = false := by
  rcases Lib.eq_nil_or_head_dropWhile isBlank (scanHead spec) with hnil | ⟨c, rest, hc, hblank⟩
  · rw [unbroken_iff, scanBody, hnil] at h
    exact absurd rfl h
  · have hmem : c ∈ scanHead spec := by
      have hall : c ∈ (scanHead spec).dropWhile isBlank := by simp [hc]
      exact (List.dropWhile_sublist _).subset hall
    exact ⟨c, rest, hc, hblank, by simpa using List.mem_takeWhile_imp hmem⟩

theorem offset_lt_length (h : ¬ Unbroken spec) :
    (scanScheme spec 0 {}).offset < (scanHead spec).length := by
  obtain ⟨c, rest, hbody, hblank, -⟩ := scanBody_cons_of_broken h
  have hhead := congrArg List.length (lead_append_scanBody spec)
  have hle := List.countP_le_length (p := isBlank) (l := rest)
  rw [List.length_append, hbody, List.length_cons] at hhead
  rw [offset_eq, hbody, List.countP_cons_of_neg (by simp [hblank])]
  omega

/-- As many characters are left out as there is white space, but not the first ones. -/
theorem exists_blank_behind (h : ¬ Unbroken spec) :
    ∃ c ∈ (scanHead spec).drop (scanScheme spec 0 {}).offset, isBlank c = true := by
  have hlt := offset_lt_length h
  have hlead := offset_lt_of_broken h
  have hcount := scanScheme_offset spec
  obtain ⟨c, rest, hbody, hblank, -⟩ := scanBody_cons_of_broken h
  generalize (scanScheme spec 0 {}).offset = W at hlt hlead hcount ⊢
  by_contra hnone
  have hbehind : ((scanHead spec).drop W).countP isBlank = 0 :=
    List.countP_eq_zero.mpr fun c hc hblank => hnone ⟨c, hc, hblank⟩
  rw [← List.take_append_drop W (scanHead spec), List.countP_append, hbehind, Nat.add_zero]
    at hcount
  have hall : ∀ d ∈ (scanHead spec).take W, isBlank d = true := by
    rw [← List.countP_eq_length, ← hcount, List.length_take]
    omega
  have hmem : c ∈ (scanHead spec).take W := by
    obtain ⟨k, hk⟩ : ∃ k, W = (spec.takeWhile isBlank).length + (k + 1) :=
      ⟨W - (spec.takeWhile isBlank).length - 1, by omega⟩
    subst hk
    rw [← lead_append_scanBody, hbody, List.take_length_add_append]
    simp
  rw [hall c hmem] at hblank
  cases hblank

/-- Some of the white space is in the scheme then, which is malformed. -/
theorem ParseURL_broken_scheme (h : ¬ Unbroken spec) (hfirst : SchemeFirst spec) :
    ParseURL type spec = none := by
  have hlt := offset_lt_length h
  obtain ⟨c, hc, hblank⟩ := exists_blank_behind h
  have hhead : scanHead spec = spec.take (scanHead spec).length :=
    List.prefix_iff_eq_take.mp (List.takeWhile_prefix _)
  have hlen := (List.takeWhile_prefix (l := spec) (!endsScan ·)).length_le
  have hne : spec.drop (scanScheme spec 0 {}).offset ≠ [] := by
    rw [Ne, List.drop_eq_nil_iff, not_le]
    exact lt_of_lt_of_le hlt hlen
  have hscheme : (spec.drop (scanScheme spec 0 {}).offset).take
      ((scanHead spec).length - (scanScheme spec 0 {}).offset) =
        (scanHead spec).drop (scanScheme spec 0 {}).offset := by
    rw [← List.drop_take, ← hhead]
  have hinvalid :
      net_IsValidScheme ((scanHead spec).drop (scanScheme spec 0 {}).offset) = false := by
    rw [net_IsValidScheme.eq_def, Bool.and_eq_false_iff]
    refine .inr (List.all_eq_false.mpr ⟨c, hc, ?_⟩)
    simp only [isBlank, Bool.or_eq_true, beq_iff_eq] at hblank
    rcases hblank with ((rfl | rfl) | rfl) | rfl <;> decide
  rw [ParseURL]
  dsimp only
  rw [scanScheme_schemeColon, if_pos hfirst, if_neg hne]
  dsimp only
  rw [hscheme, hinvalid]
  rfl

/-- The first segment that is there stands behind the separator. -/
theorem Spans.exists_first {pos : ℕ} {sep text : NsCString} {auth path : URLSegment}
    (h : Spans pos (afterPieces sep auth path) text) (hthere : 0 ≤ auth.mLen ∨ 0 ≤ path.mLen) :
    ∃ seg ∈ [auth, path], 0 ≤ seg.mLen ∧ seg.mPos = pos + sep.length ∧ sep <+: text := by
  have hpiece : ∀ {seg : URLSegment} {pieces : List Piece} {text : NsCString}, 0 ≤ seg.mLen →
      Spans pos ((sep, seg) :: pieces) text → seg.mPos = pos + sep.length ∧ sep <+: text := by
    intro seg pieces text hseg h
    cases h with
    | absent _ hlt => exact absurd hseg (not_le.mpr hlt)
    | present _ t h => exact ⟨rfl, List.prefix_append ..⟩
  rw [afterPieces] at h
  split_ifs at h with hauth
  · have hpath := hthere.resolve_left (not_le.mpr hauth)
    exact ⟨path, by simp, hpath, hpiece hpath (h.of_absent hauth)⟩
  · exact ⟨auth, by simp, not_lt.mp hauth, hpiece (not_lt.mp hauth) h⟩

theorem mem_afterPieces (sep : NsCString) {auth path seg : URLSegment} (h : seg ∈ [auth, path]) :
    ∃ delim, (delim, seg) ∈ afterPieces sep auth path := by
  have hsegs : (afterPieces sep auth path).map Prod.snd = [auth, path] := by
    rw [afterPieces]
    split_ifs <;> rfl
  rw [← hsegs, List.mem_map] at h
  obtain ⟨⟨delim, _⟩, hmem, rfl⟩ := h
  exact ⟨delim, hmem⟩

theorem not_covers_of_broken (h : ¬ Unbroken spec) (hfirst : ¬ SchemeFirst spec) :
    ¬ ParsedCovers type spec := by
  intro hcovers
  have hlt := offset_lt_of_broken h
  obtain ⟨c, rest, hbody, hblank, hend⟩ := scanBody_cons_of_broken h
  have hdrop : spec.dropWhile isBlank = c :: (rest ++ spec.drop (scanHead spec).length) := by
    rw [← scanBody_append, hbody, List.cons_append]
  have htrim : (trimmedSpec spec).head? = some c := by
    rw [trimmedSpec, hdrop, trimmedLength, List.head?_take]
    simp
  have hne : spec.drop (scanScheme spec 0 {}).offset ≠ [] := by
    have hlen := offset_lt_length h
    have hhead := (List.takeWhile_prefix (l := spec) (!endsScan ·)).length_le
    rw [Ne, List.drop_eq_nil_iff, not_le]
    exact lt_of_lt_of_le hlen hhead
  generalize hW : (scanScheme spec 0 {}).offset = W at hlt hne
  generalize htext : (spec.drop W).take (trimmedLength (spec.drop W)) = text
  have hparse : ParseURL type spec = some (⟨0, -1⟩, (ParseAfterScheme type text).1.shift W,
      (ParseAfterScheme type text).2.shift W) := by
    rw [ParseURL]
    dsimp only
    rw [scanScheme_schemeColon, if_neg hfirst, hW, if_neg hne, htext]
  obtain ⟨n, hspan⟩ := ParseAfterScheme_shift type text W
  rcases (hcovers _ _ _ hparse).cover with ⟨hnil, -⟩ | ⟨k, hcover⟩
  · rw [hnil] at htrim
    cases htrim
  · rw [urlPieces, if_pos (by decide), List.nil_append] at hcover
    have hthere := ParseAfterScheme_there type text
    obtain ⟨seg, hseg, hlen, hpos, hprefix⟩ := (hcover.of_absent (by decide)).exists_first hthere
    have hfrom : (W : ℤ) ≤ seg.mPos := by
      obtain ⟨sep, hmem⟩ := mem_afterPieces (List.replicate n slash) hseg
      exact hspan.mPos_le _ hmem hlen
    rw [List.length_replicate] at hpos
    obtain ⟨k, rfl⟩ : ∃ j, k = j + 1 := ⟨k - 1, by omega⟩
    obtain ⟨back, hback⟩ := hprefix
    rw [← hback, List.replicate_succ, List.cons_append, List.head?_cons] at htrim
    obtain rfl := Option.some.inj htrim
    exact absurd hend (by decide)

theorem parsedCovers_iff (type : URLType) (spec : NsCString) :
    ParsedCovers type spec ↔ Unbroken spec ∨ SchemeFirst spec := by
  constructor
  · intro hcovers
    by_contra hnot
    rw [not_or] at hnot
    exact not_covers_of_broken hnot.1 hnot.2 hcovers
  · intro h
    by_cases hunbroken : Unbroken spec
    · exact hunbroken.covers
    · intro scheme auth path hparse
      rw [ParseURL_broken_scheme hunbroken (h.resolve_left hunbroken)] at hparse
      cases hparse

/-! ### The authority -/

/-- The number of a port, which stays undefined without a text for it. -/
def portNumber : Option NsCString → Prefs.PRInt32
  | none => -1
  | some text => (ToInteger text).getD (-1)

/-- The segments of an authority. An `@` stands in front of the host also if the user info is
empty. -/
def authorityPieces (auth : NsCString) (a : AuthorityParts) : List Piece :=
  [([], a.username), ([colon], a.password), (if atSign ∈ auth then [atSign] else [], a.hostname)]

/-- The user name, the password and the host cover the authority up to the port, which is the number
of what is behind its colon. -/
def AuthorityCovers (auth : NsCString) (a : AuthorityParts) : Prop :=
  ∃ front port, auth = front ++ optional colon port ∧ Spans 0 (authorityPieces auth a) front ∧
    a.port = portNumber port

theorem authParseUserInfo_spans {userinfo : NsCString} {username password : URLSegment}
    (h : authParseUserInfo userinfo = some (username, password)) :
    Spans 0 [([], username), ([colon], password)] userinfo := by
  rw [authParseUserInfo] at h
  by_cases hnil : userinfo = []
  · rw [if_pos hnil] at h
    obtain ⟨rfl, rfl⟩ : username = {} ∧ password = {} := by simpa [eq_comm] using h
    rw [hnil]
    exact .absent [] neg_one_lt_zero (.absentSingle 0 [colon] neg_one_lt_zero)
  rw [if_neg hnil] at h
  rcases Lib.takeWhile_ne_cut colon userinfo with hall | ⟨pass, hcut⟩
  · rw [hall, if_neg (lt_irrefl _)] at h
    obtain ⟨rfl, rfl⟩ : username = ⟨0, userinfo.length⟩ ∧ password = {} := by
      simpa [eq_comm] using h
    have hspan := Spans.first userinfo 
      (@Spans.absentSingle userinfo.length [colon] {} neg_one_lt_zero)
    rwa [List.append_nil] at hspan
  · generalize userinfo.takeWhile (· ≠ colon) = user at hcut h
    subst hcut
    have hlt : user.length < (user ++ colon :: pass).length := by simp
    rw [if_pos hlt] at h
    split_ifs at h with huser
    have hlen : ((user ++ colon :: pass).length : ℤ) - (user.length + 1) = pass.length := by
      simp only [List.length_append, List.length_cons]
      push_cast
      omega
    rw [hlen] at h
    obtain ⟨rfl, rfl⟩ : username = ⟨0, user.length⟩ ∧
        password = ⟨user.length + ([colon] : NsCString).length, pass.length⟩ := by
      simpa [eq_comm] using h
    exact .first user (.single user.length [colon] pass)

/-- The colon that the backward loop finds. -/
theorem scanServerInfo_colon {l : NsCString} {c : Option ℕ} {bracket : Bool} {k : ℕ}
    (h : scanServerInfo l c bracket = some (some k)) :
    c = some k ∨ ∃ post pre, l = post ++ colon :: pre ∧ pre.length = k := by
  have hmore {a : UInt8} {l : NsCString} :
      (∃ post pre, l = post ++ colon :: pre ∧ pre.length = k) →
        ∃ post pre, a :: l = post ++ colon :: pre ∧ pre.length = k := by
    rintro ⟨post, pre, rfl, hpre⟩
    exact ⟨a :: post, pre, rfl, hpre⟩
  fun_induction scanServerInfo l c bracket with
  | case1 c bracket => exact .inl (Option.some.inj h)
  | case2 a c bracket => exact .inl (Option.some.inj h)
  | case3 b rest c bracket ih => exact (ih h).imp id hmore
  | case4 b rest c bracket _ ih =>
    rcases ih h with hc | hthere
    · split_ifs at hc
      · exact .inl hc
      · exact .inr ⟨[], b :: rest, rfl, by simpa using hc⟩
    · exact .inr (hmore hthere)
  | case5 => cases h
  | case6 a b rest c bracket _ _ _ ih => exact (ih h).imp id hmore

/-- The host, and behind it the port. -/
theorem authParseServerInfo_cut {serverinfo : NsCString} {hostname : URLSegment}
    {port : Prefs.PRInt32} (h : authParseServerInfo serverinfo = some (hostname, port)) :
    ∃ front text, serverinfo = front ++ optional colon text ∧ hostname = ⟨0, front.length⟩ ∧
      port = portNumber text := by
  rw [authParseServerInfo] at h
  split_ifs at h with hnil
  · obtain ⟨rfl, rfl⟩ : hostname = ⟨0, 0⟩ ∧ port = -1 := by simpa [eq_comm] using h
    exact ⟨[], none, by simp [hnil], rfl, rfl⟩
  · rw [Option.bind_eq_bind, Option.bind_eq_some_iff] at h
    obtain ⟨found, hscan, h⟩ := h
    cases found with
    | none =>
      obtain ⟨rfl, rfl⟩ : hostname = ⟨0, serverinfo.length⟩ ∧ port = -1 := by
        simpa [eq_comm] using h
      exact ⟨serverinfo, none, by simp, rfl, rfl⟩
    | some k =>
      obtain ⟨post, pre, hrev, hpre⟩ := (scanServerInfo_colon hscan).resolve_left (by simp)
      have hcut : serverinfo = pre.reverse ++ colon :: post.reverse := by
        rw [← List.reverse_reverse serverinfo, hrev]
        simp
      have hdrop : serverinfo.drop (k + 1) = post.reverse := by
        have hlen : k + 1 = (pre.reverse ++ [colon]).length := by simp [hpre]
        rw [hcut, ← List.singleton_append, ← List.append_assoc, hlen, List.drop_left]
      dsimp only at h
      rw [hdrop] at h
      obtain ⟨rfl, rfl⟩ : hostname = ⟨0, k⟩ ∧ port = (ToInteger post.reverse).getD (-1) := by
        simpa [eq_comm] using h
      exact ⟨pre.reverse, some post.reverse, hcut, by simp [hpre], rfl⟩

/-- The user info ends at the last `@`. -/
theorem cut_last_at {auth : NsCString} (h : atSign ∈ auth) :
    ∃ userinfo server, auth.rdropWhile (· ≠ atSign) = userinfo ++ [atSign] ∧
      auth = userinfo ++ atSign :: server := by
  rcases Lib.eq_nil_or_getLast_rdropWhile (· ≠ atSign) auth with hnil | ⟨userinfo, c, hlast, hc⟩
  · rw [List.rdropWhile_eq_nil_iff] at hnil
    exact absurd (hnil atSign h) (by simp)
  · obtain rfl : c = atSign := by simpa using hc
    obtain ⟨server, hserver⟩ := List.rdropWhile_prefix (· ≠ atSign) auth
    rw [hlast] at hserver
    exact ⟨userinfo, server, hlast, by simp [← hserver]⟩

theorem authParseAuthority_covers {auth : NsCString} {a : AuthorityParts}
    (h : authParseAuthority auth = (.ok, a)) : AuthorityCovers auth a := by
  rw [authParseAuthority] at h
  split_ifs at h with hnil hat
  · obtain rfl : a = { hostname := ⟨0, 0⟩ } := by simpa [eq_comm] using h
    subst hnil
    refine ⟨[], none, rfl, ?_, rfl⟩
    exact .absent [] neg_one_lt_zero (.absent [colon] neg_one_lt_zero (.single 0 [] []))
  · obtain ⟨userinfo, server, hlast, hauth⟩ := cut_last_at hat
    have hdrop : auth.drop (userinfo.length + 1) = server := by
      have hlen : userinfo.length + 1 = (userinfo ++ [atSign]).length := by simp
      rw [hauth, ← List.singleton_append, ← List.append_assoc, hlen, List.drop_left]
    rw [hlast, List.dropLast_concat] at h
    dsimp only at h
    rw [hdrop] at h
    split at h
    · cases h
    · rename_i username password huser
      split at h
      · cases h
      · rename_i hostname port hserver
        obtain rfl : a = ⟨username, password, hostname.shift (userinfo.length + 1), port⟩ := by
          simpa [eq_comm] using h
        obtain ⟨front, text, hcut, rfl, hport⟩ := authParseServerInfo_cut hserver
        refine ⟨userinfo ++ ([atSign] ++ front), text, by simp [hauth, hcut], ?_, hport⟩
        rw [authorityPieces, if_pos hat]
        have hhost := Spans.single (0 + userinfo.length) [atSign] front
        have hspan := (authParseUserInfo_spans huser).append hhost
        simpa [URLSegment.shift] using hspan
  · split at h
    · cases h
    · rename_i hostname port hserver
      obtain rfl : a = { hostname, port } := by simpa [eq_comm] using h
      obtain ⟨front, text, hcut, rfl, hport⟩ := authParseServerInfo_cut hserver
      refine ⟨front, text, hcut, ?_, hport⟩
      rw [authorityPieces, if_neg hat]
      have hspan := Spans.single 0 [] front
      exact .absent [] neg_one_lt_zero (.absent [colon] neg_one_lt_zero hspan)

/-- `ParseURL` covers the spec exactly if no white space stands behind another character in front of
the first separator, or if this is the colon of a scheme, which is malformed then. `ParseAuthority`
covers the authority. -/
theorem ParseURL_covers (type : URLType) (spec : NsCString) :
    (ParsedCovers type spec ↔ Unbroken spec ∨ SchemeFirst spec) ∧
      ∀ auth a, ParseAuthority .URLTYPE_AUTHORITY auth = (.ok, a) → AuthorityCovers auth a :=
  ⟨parsedCovers_iff type spec, fun _ _ h => authParseAuthority_covers h⟩

/-- A URL with all its parts, and an authority with all of its own. -/
theorem ParseURL_covers_http :
    ParsedCovers .URLTYPE_AUTHORITY (ascii " http://u:p@h:8/x ") ∧
      AuthorityCovers (ascii "u:p@h:8") ⟨⟨0, 1⟩, ⟨2, 1⟩, ⟨4, 1⟩, 8⟩ :=
  ⟨(ParseURL_covers .URLTYPE_AUTHORITY (ascii " http://u:p@h:8/x ")).1.mpr (.inl (by decide)),
    (ParseURL_covers .URLTYPE_AUTHORITY []).2 (ascii "u:p@h:8") _ (by decide)⟩

/-- Of `a b/c` the first character is in no segment. -/
theorem ParseURL_loses_character :
    ParseURL .URLTYPE_STANDARD (ascii "a b/c") = some (⟨0, -1⟩, ⟨1, 2⟩, ⟨3, 2⟩) ∧
      ¬ ParsedCovers .URLTYPE_STANDARD (ascii "a b/c") :=
  ⟨by decide, not_covers_of_broken (by decide) (by decide)⟩

end Kompozer.Net

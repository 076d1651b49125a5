import Kompozer.Net.Bytes
import Mathlib

/-! A path relative to a directory (`net_ResolveRelativePath` in `nsURLHelper.cpp`). It is compared
with the resolution on a stack of segments: the two agree as long as nothing stands behind a `..`
that takes away a segment of the relative path. There the flag for the delimiter stays set. -/

namespace Kompozer.Net

open Prefs (ascii)

/-! ### The loop -/

/-- `path.RFind ("/", PR_FALSE, offset)`, for the number of the characters up to `offset`. -/
def RFindSlash (path : NsCString) : ℕ → Option ℕ
  | 0 => none
  | n + 1 => if charAt path n = slash then some n else RFindSlash path n

/-- The variables of the loop. -/
structure Resolving where
  name : NsCString
  path : NsCString
  needsDelim : Bool
  deriving DecidableEq

/-- A delimiter is found. -/
def Resolving.delimiter (s : Resolving) : Option Resolving :=
  if s.name = [dot, dot] then
    let offset : ℤ := s.path.length - if s.needsDelim then 1 else 2
    if offset < 0 then none
    else
      match RFindSlash s.path (offset.toNat + 1) with
      | some pos => some ⟨[], s.path.take (pos + 1), s.needsDelim⟩
      | none => some ⟨[], [], s.needsDelim⟩
  else if s.name = [] ∨ s.name = [dot] then some ⟨[], s.path, s.needsDelim⟩
  else some ⟨[], (if s.needsDelim then s.path ++ [slash] else s.path) ++ s.name, true⟩

/-- The loop over the relative path. What begins with `#`, `;` or `?` is appended. -/
def resolveLoop : NsCString → Resolving → Option NsCString
  | [], s => s.delimiter.map (·.path)
  | c :: rest, s =>
    if c = 0 then s.delimiter.map (·.path)
    else if c = hash ∨ c = semicolon ∨ c = question then
      s.delimiter.map fun s => s.path ++ c :: rest
    else if c = slash then s.delimiter.bind (resolveLoop rest)
    else resolveLoop rest { s with name := s.name ++ [c] }

/-- `net_ResolveRelativePath`. There is no result for a malformed URI. -/
def net_ResolveRelativePath (relativePath basePath : NsCString) : Option NsCString :=
  resolveLoop relativePath
    ⟨[], basePath, basePath ≠ [] && basePath.getLast? ≠ some slash⟩

/-! ### Resolution on a stack -/

/-- One segment on a stack that has the innermost one first. -/
def stackStep (stack : List NsCString) (seg : NsCString) : Option (List NsCString) :=
  if seg = [] ∨ seg = [dot] then some stack
  else if seg = [dot, dot] then if stack = [] then none else some stack.tail
  else some (seg :: stack)

/-- The path of a directory. -/
def dirText : List NsCString → NsCString
  | [] => [slash]
  | seg :: outer => dirText outer ++ (seg ++ [slash])

/-- The segments of a path that begins and ends with a slash. -/
def baseStack (base : NsCString) : List NsCString :=
  (base.tail.splitOn slash).dropLast.reverse

def isPathEnd (c : UInt8) : Bool := c == 0 || c == hash || c == semicolon || c == question

def pathPart (rel : NsCString) : NsCString := rel.takeWhile (!isPathEnd ·)

/-- What follows the path. Behind a terminator nothing is read. -/
def pathTail (rel : NsCString) : NsCString :=
  let tail := rel.dropWhile (!isPathEnd ·)
  if tail.head? = some 0 then [] else tail

def stackResolve (base rel : NsCString) : Option (List NsCString) :=
  ((pathPart rel).splitOn slash).foldlM stackStep (baseStack base)

/-- A path for a stack, with a delimiter behind the last segment or without one. -/
def Renders (stack : List NsCString) (text : NsCString) : Prop :=
  text = dirText stack ∨
    ∃ seg outer, stack = seg :: outer ∧ seg ≠ [] ∧ text = dirText outer ++ seg

/-- The result is that of the stack, and a failure is one of the stack. -/
def ResolvesTo (base rel : NsCString) (result : Option NsCString) : Prop :=
  match stackResolve base rel with
  | none => result = none
  | some stack => ∃ text, Renders stack text ∧ result = some (text ++ pathTail rel)

/-- The segments that are not ignored. -/
def pathNames (rel : NsCString) : List NsCString :=
  ((pathPart rel).splitOn slash).filter fun seg => seg ≠ [] && seg ≠ [dot]

/-- The loop pops as the stack does: the `..` in front leave the base, or a `..` behind a segment
of the relative path is the last of its segments. -/
def PopsOnce (base rel : NsCString) : Prop :=
  (baseStack base).length < ((pathNames rel).takeWhile (· = [dot, dot])).length ∨
    [dot, dot] ∉ ((pathNames rel).dropWhile (· = [dot, dot])).dropLast

instance (base rel : NsCString) : Decidable (PopsOnce base rel) :=
  inferInstanceAs (Decidable (_ ∨ _))

/-! ### The text of a stack -/

theorem dirText_eq (stack : List NsCString) :
    dirText stack = slash :: stack.reverse.flatMap (· ++ [slash]) := by
  induction stack with
  | nil => rfl
  | cons seg outer ih => simp [dirText, ih]

theorem dirText_concat (stack : List NsCString) : ∃ body, dirText stack = body ++ [slash] := by
  cases stack with
  | nil => exact ⟨[], rfl⟩
  | cons seg outer => exact ⟨dirText outer ++ seg, (List.append_assoc ..).symm⟩

theorem splitOn_dirText {stack : List NsCString} (h : ∀ seg ∈ stack, slash ∉ seg)
    (rest : NsCString) :
    (dirText stack ++ rest).tail.splitOn slash = stack.reverse ++ rest.splitOn slash := by
  have hbody : ∀ (rest : NsCString), (stack.reverse.flatMap (· ++ [slash]) ++ rest).splitOn slash =
      stack.reverse ++ rest.splitOn slash := by
    induction stack with
    | nil => intro rest; rfl
    | cons seg outer ih =>
      intro rest
      have hseg : slash ∉ seg := h seg (by simp)
      have hcut := ih (fun x hx => h x (by simp [hx])) (seg ++ slash :: rest)
      rw [List.splitOn_append_cons_self_of_not_mem hseg] at hcut
      simpa using hcut
  rw [dirText_eq]
  exact hbody rest

theorem splitOn_nil : ([] : NsCString).splitOn slash = [[]] := rfl

theorem slash_notMem_splitOn (text : NsCString) : ∀ seg ∈ text.splitOn slash, slash ∉ seg := by
  induction text with
  | nil => simp
  | cons c text ih =>
    rw [List.splitOn_cons_eq_if_modifyHead]
    split_ifs with hc
    · simpa using ih
    · obtain ⟨seg, segs, hsegs⟩ := List.exists_cons_of_ne_nil (List.splitOn_ne_nil slash text)
      rw [hsegs] at ih ⊢
      have hne : slash ≠ c := fun h => hc (by simp [h])
      simpa [hne] using ih

theorem slash_notMem_baseStack (base : NsCString) : ∀ seg ∈ baseStack base, slash ∉ seg :=
  fun seg hseg => slash_notMem_splitOn base.tail seg
    (List.dropLast_subset _ (List.mem_reverse.mp hseg))

theorem flatMap_intercalate {segs : List NsCString} (h : segs ≠ []) :
    segs.flatMap (· ++ [slash]) = [slash].intercalate segs ++ [slash] := by
  induction segs with
  | nil => exact absurd rfl h
  | cons seg segs ih =>
    cases segs with
    | nil => simp
    | cons seg' segs =>
      rw [List.flatMap_cons, ih (by simp), List.intercalate_cons_cons]
      simp

/-- A path that begins and ends with a slash is that of its segments. -/
theorem dirText_baseStack {base : NsCString} (hfirst : base.head? = some slash)
    (hlast : base.getLast? = some slash) : dirText (baseStack base) = base := by
  obtain ⟨rest, rfl⟩ : ∃ rest, base = slash :: rest := by
    cases base with
    | nil => cases hfirst
    | cons c rest => exact ⟨rest, by rw [Option.some.inj hfirst]⟩
  rw [dirText_eq, baseStack, List.reverse_reverse, List.tail_cons]
  rcases List.eq_nil_or_concat rest with rfl | ⟨body, c, rfl⟩
  · rfl
  · rw [List.concat_eq_append, ← List.cons_append, List.getLast?_concat] at hlast
    obtain rfl := Option.some.inj hlast
    have hsplit := List.splitOn_append_cons_self (a := slash) body []
    rw [splitOn_nil] at hsplit
    rw [List.concat_eq_append, hsplit, List.dropLast_concat,
      flatMap_intercalate (List.splitOn_ne_nil slash body), List.intercalate_splitOn]

/-! ### The loop on segments -/

def takeSegment (s : Resolving) (seg : NsCString) : Option Resolving :=
  Resolving.delimiter { s with name := seg }

theorem name_delimiter {s s' : Resolving} (h : s.delimiter = some s') : s'.name = [] := by
  rw [Resolving.delimiter] at h
  split at h
  · dsimp only at h
    generalize (s.path.length : ℤ) - (if s.needsDelim then 1 else 2) = offset at h
    split at h
    · cases h
    · split at h <;> (cases h; rfl)
  · split at h <;> (cases h; rfl)

theorem resolveLoop_pathEnd {c : UInt8} (h : isPathEnd c = true) (rest : NsCString)
    (s : Resolving) :
    resolveLoop (c :: rest) s = s.delimiter.map fun s => s.path ++ pathTail (c :: rest) := by
  have htail : pathTail (c :: rest) = if c = 0 then [] else c :: rest := by
    simp [pathTail, h]
  rw [resolveLoop, htail]
  split_ifs with h0 hc hslash
  · simp
  · rfl
  · subst hslash
    exact absurd h (by decide)
  · simp [isPathEnd, h0] at h
    tauto

/-- The loop takes the segments one by one, behind what stands in the name. -/
theorem resolveLoop_eq (rel : NsCString) (s : Resolving) :
    resolveLoop rel s =
      ((((pathPart rel).splitOn slash).modifyHead (s.name ++ ·)).foldlM takeSegment s).map
        fun s => s.path ++ pathTail rel := by
  induction rel generalizing s with
  | nil =>
    rw [resolveLoop]
    cases hd : s.delimiter <;> simp [pathPart, pathTail, takeSegment, hd]
  | cons c rest ih =>
    by_cases hend : isPathEnd c = true
    · rw [resolveLoop_pathEnd hend]
      have hpart : pathPart (c :: rest) = [] := by simp [pathPart, hend]
      rw [hpart]
      cases hd : s.delimiter <;> simp [takeSegment, hd]
    · have hpart : pathPart (c :: rest) = c :: pathPart rest := by simp [pathPart, hend]
      have htail : pathTail (c :: rest) = pathTail rest := by simp [pathTail, hend]
      have h0 : c ≠ 0 := fun h => hend (by simp [isPathEnd, h])
      have hc : ¬ (c = hash ∨ c = semicolon ∨ c = question) := by
        simp [isPathEnd, h0] at hend
        tauto
      obtain ⟨seg, segs, hsegs⟩ :=
        List.exists_cons_of_ne_nil (List.splitOn_ne_nil slash (pathPart rest))
      rw [resolveLoop, if_neg h0, if_neg hc, hpart, htail, List.splitOn_cons_eq_if_modifyHead]
      by_cases hslash : c = slash
      · rw [if_pos hslash, if_pos (by simpa using hslash), List.modifyHead_cons,
          List.append_nil, List.foldlM_cons]
        cases hd : s.delimiter with
        | none => simp [takeSegment, hd]
        | some s' =>
          have hs' : s'.name = [] := name_delimiter hd
          simp [takeSegment, hd, ih, hs', hsegs]
      · rw [if_neg hslash, if_neg (by simpa using hslash), ih, hsegs]
        simp [takeSegment]

theorem RFindSlash_eq {y z : NsCString} (hy : slash ∉ y) (A : NsCString) {n : ℕ}
    (hn : n = A.length + 1 + y.length) :
    RFindSlash (A ++ slash :: (y ++ z)) n = some A.length := by
  subst hn
  have hlast : ∀ i, i ≤ y.length →
      RFindSlash (A ++ slash :: (y ++ z)) (A.length + 1 + i) = some A.length := by
    intro i hi
    induction i with
    | zero => simp [RFindSlash, charAt]
    | succ i ih =>
      have hchar : charAt (A ++ slash :: (y ++ z)) (A.length + 1 + i) = y[i] := by
        rw [charAt, List.getD_eq_getElem?_getD, List.getElem?_append_right (by omega),
          show A.length + 1 + i - A.length = i + 1 by omega, List.getElem?_cons_succ,
          List.getElem?_append_left hi, List.getElem?_eq_getElem hi]
        rfl
      have hne : y[i] ≠ slash := fun h => hy (h ▸ List.getElem_mem hi)
      rw [← Nat.add_assoc, RFindSlash, hchar, if_neg hne]
      exact ih (by omega)
  exact hlast y.length le_rfl

/-! ### What the loop has resolved -/

/-- At the end of a directory, behind a name, or behind a `..` that took away a name. -/
inductive Mode
  | dir
  | name
  | popped
  deriving DecidableEq

/-- The segments in the path of the loop. -/
structure Place where
  mode : Mode
  stack : List NsCString

namespace Place

def text (p : Place) : NsCString :=
  match p.mode, p.stack with
  | .name, seg :: outer => dirText outer ++ seg
  | _, stack => dirText stack

def state (p : Place) : Resolving := ⟨[], p.text, p.mode ≠ .dir⟩

/-- Behind a `..` that took away a name nothing is popped, and a name gets a second delimiter. -/
def step (p : Place) (seg : NsCString) : Option Place :=
  if seg = [] ∨ seg = [dot] then some p
  else if seg = [dot, dot] then
    match p.mode with
    | .dir => if p.stack = [] then none else some ⟨.dir, p.stack.tail⟩
    | .name => some ⟨.popped, p.stack.tail⟩
    | .popped => some p
  else
    match p.mode with
    | .popped => some ⟨.name, seg :: [] :: p.stack⟩
    | _ => some ⟨.name, seg :: p.stack⟩

/-- No segment holds a slash, and behind a name there is one. -/
structure Fair (p : Place) : Prop where
  free : ∀ seg ∈ p.stack, slash ∉ seg
  named : p.mode = .name → ∃ seg outer, p.stack = seg :: outer ∧ seg ≠ []

theorem Fair.step {p p' : Place} {seg : NsCString} (h : p.Fair) (hseg : slash ∉ seg)
    (hstep : p.step seg = some p') : p'.Fair := by
  have htail : ∀ x ∈ p.stack.tail, slash ∉ x := fun x hx => h.free x (List.mem_of_mem_tail hx)
  rw [Place.step] at hstep
  split at hstep
  · cases hstep
    exact h
  · rename_i hskip
    have hnamed : ∀ outer, (∀ x ∈ outer, slash ∉ x) → Fair ⟨.name, seg :: outer⟩ :=
      fun outer houter => ⟨by simpa [hseg] using houter,
        fun _ => ⟨seg, outer, rfl, fun hnil => hskip (.inl hnil)⟩⟩
    split at hstep
    · split at hstep
      · split at hstep
        · cases hstep
        · cases hstep
          exact ⟨htail, by rintro ⟨⟩⟩
      · cases hstep
        exact ⟨htail, by rintro ⟨⟩⟩
      · cases hstep
        exact h
    · split at hstep
      · cases hstep
        exact hnamed _ (by simpa using h.free)
      · cases hstep
        exact hnamed _ h.free

end Place

/-- A `..` behind a directory and a segment leads back to the directory. -/
theorem delimiter_back {seg : NsCString} (hseg : slash ∉ seg) (outer : List NsCString)
    (needsDelim : Bool) :
    Resolving.delimiter
        ⟨[dot, dot], dirText outer ++ (seg ++ if needsDelim then [] else [slash]), needsDelim⟩ =
      some ⟨[], dirText outer, needsDelim⟩ := by
  obtain ⟨body, hbody⟩ := dirText_concat outer
  obtain ⟨delim, hdelim, hlen⟩ : ∃ delim : NsCString,
      delim = (if needsDelim then [] else [slash]) ∧
        delim.length = (if needsDelim then 0 else 1) := by
    cases needsDelim <;> exact ⟨_, rfl, rfl⟩
  rw [← hdelim]
  have htext : dirText outer ++ (seg ++ delim) = body ++ slash :: (seg ++ delim) := by
    simp [hbody]
  have hlength : (dirText outer ++ (seg ++ delim)).length =
      body.length + 1 + seg.length + delim.length := by
    rw [htext]
    simp
    omega
  have hoffset : ((dirText outer ++ (seg ++ delim)).length : ℤ) - (if needsDelim then 1 else 2) =
      body.length + seg.length := by
    rw [hlength]
    cases needsDelim <;> simp_all <;> omega
  have hfind : RFindSlash (dirText outer ++ (seg ++ delim))
      ((body.length + seg.length : ℤ).toNat + 1) = some body.length := by
    rw [htext]
    exact RFindSlash_eq hseg body (by omega)
  rw [Resolving.delimiter, if_pos rfl]
  dsimp only
  rw [hoffset, if_neg (by omega), hfind]
  dsimp only
  rw [htext, hbody, List.take_append, List.take_of_length_le (by omega)]
  simp

theorem delimiter_root :
    Resolving.delimiter ⟨[dot, dot], [slash], false⟩ = none := by decide

namespace Place

/-- A delimiter of the loop is a step. -/
theorem delimiter_state {p : Place} (h : p.Fair) (seg : NsCString) :
    takeSegment p.state seg = (p.step seg).map state := by
  obtain ⟨mode, stack⟩ := p
  rw [takeSegment, Place.step]
  by_cases hskip : seg = [] ∨ seg = [dot]
  · have hup : seg ≠ [dot, dot] := by rcases hskip with rfl | rfl <;> decide
    rw [if_pos hskip, Resolving.delimiter, if_neg hup, if_pos hskip]
    rfl
  rw [if_neg hskip]
  by_cases hup : seg = [dot, dot]
  · subst hup
    rw [if_pos rfl]
    cases mode with
    | dir =>
      cases stack with
      | nil => exact delimiter_root
      | cons seg outer => exact delimiter_back (h.free seg (by simp)) outer false
    | name =>
      obtain ⟨seg, outer, rfl, -⟩ := h.named rfl
      have hback := delimiter_back (h.free seg (by simp)) outer true
      rw [if_pos rfl, List.append_nil] at hback
      exact hback
    | popped =>
      have hback := @delimiter_back [] (by simp) stack true
      rw [if_pos rfl, List.append_nil, List.append_nil] at hback
      exact hback
  · rw [if_neg hup, Resolving.delimiter, if_neg hup, if_neg hskip]
    cases mode with
    | dir => rfl
    | name =>
      obtain ⟨seg', outer, rfl, -⟩ := h.named rfl
      simp [state, text, dirText]
    | popped => simp [state, text, dirText]

/-- The loop over segments is a walk. -/
theorem foldlM_state {p : Place} (h : p.Fair) {segs : List NsCString}
    (hsegs : ∀ seg ∈ segs, slash ∉ seg) :
    segs.foldlM takeSegment p.state = (segs.foldlM step p).map state := by
  induction segs generalizing p with
  | nil => rfl
  | cons seg segs ih =>
    rw [List.foldlM_cons, List.foldlM_cons, delimiter_state h]
    cases hstep : p.step seg with
    | none => rfl
    | some p' =>
      exact ih (h.step (hsegs seg (by simp)) hstep) fun x hx => hsegs x (by simp [hx])

theorem Fair.foldlM {p p' : Place} {segs : List NsCString} (h : p.Fair)
    (hsegs : ∀ seg ∈ segs, slash ∉ seg) (hrun : segs.foldlM Place.step p = some p') : p'.Fair := by
  induction segs generalizing p with
  | nil =>
    cases hrun
    exact h
  | cons seg segs ih =>
    rw [List.foldlM_cons, Option.bind_eq_bind, Option.bind_eq_some_iff] at hrun
    obtain ⟨p₁, hstep, hrun⟩ := hrun
    exact ih (h.step (hsegs seg (by simp)) hstep) (fun x hx => hsegs x (by simp [hx])) hrun

end Place

/-! ### The segments that are not ignored -/

/-- A segment that is not ignored. -/
def Counts (seg : NsCString) : Prop := seg ≠ [] ∧ seg ≠ [dot]

theorem Counts.not_skip {seg : NsCString} (h : Counts seg) : ¬ (seg = [] ∨ seg = [dot]) :=
  not_or.mpr h

theorem counts_of_mem_pathNames {rel seg : NsCString} (h : seg ∈ pathNames rel) : Counts seg := by
  simpa [Counts] using (List.mem_filter.mp h).2

theorem slash_notMem_pathNames {rel seg : NsCString} (h : seg ∈ pathNames rel) : slash ∉ seg :=
  slash_notMem_splitOn _ seg (List.mem_filter.mp h).1

theorem foldlM_pathNames {σ : Type*} {f : σ → NsCString → Option σ}
    (hf : ∀ s seg, seg = [] ∨ seg = [dot] → f s seg = some s) (rel : NsCString) (s : σ) :
    ((pathPart rel).splitOn slash).foldlM f s = (pathNames rel).foldlM f s := by
  rw [pathNames]
  induction (pathPart rel).splitOn slash generalizing s with
  | nil => rfl
  | cons seg segs ih =>
    by_cases hskip : seg = [] ∨ seg = [dot]
    · rw [List.foldlM_cons, hf s seg hskip,
        List.filter_cons_of_neg (by rcases hskip with rfl | rfl <;> decide)]
      exact ih s
    · rw [List.filter_cons_of_pos (by simpa using hskip), List.foldlM_cons, List.foldlM_cons]
      exact congrArg _ (funext ih)

theorem stackStep_up (stack : List NsCString) :
    stackStep stack [dot, dot] = if stack = [] then none else some stack.tail := by
  rw [stackStep, if_neg (by decide), if_pos rfl]

theorem stackStep_name {seg : NsCString} (h : Counts seg) (hup : seg ≠ [dot, dot])
    (stack : List NsCString) : stackStep stack seg = some (seg :: stack) := by
  rw [stackStep, if_neg h.not_skip, if_neg hup]

namespace Place

theorem step_up (mode : Mode) (stack : List NsCString) :
    step ⟨mode, stack⟩ [dot, dot] =
      match mode with
      | .dir => if stack = [] then none else some ⟨.dir, stack.tail⟩
      | .name => some ⟨.popped, stack.tail⟩
      | .popped => some ⟨.popped, stack⟩ := by
  rw [step, if_neg (by decide), if_pos rfl]
  cases mode <;> rfl

theorem step_name {seg : NsCString} (h : Counts seg) (hup : seg ≠ [dot, dot]) (mode : Mode)
    (stack : List NsCString) :
    step ⟨mode, stack⟩ seg =
      some ⟨.name, seg :: if mode = .popped then [] :: stack else stack⟩ := by
  rw [step, if_neg h.not_skip, if_neg hup]
  cases mode <;> rfl

end Place

/-! ### Where the two agree -/

theorem foldlM_stackStep_ups (stack : List NsCString) (n : ℕ) :
    (List.replicate n [dot, dot]).foldlM stackStep stack =
      if stack.length < n then none else some (stack.drop n) := by
  induction n generalizing stack with
  | zero => simp
  | succ n ih =>
    rw [List.replicate_succ, List.foldlM_cons, stackStep_up]
    cases stack with
    | nil => simp
    | cons seg outer => simpa using ih outer

theorem foldlM_step_ups (stack : List NsCString) (n : ℕ) :
    (List.replicate n [dot, dot]).foldlM Place.step ⟨.dir, stack⟩ =
      if stack.length < n then none else some ⟨.dir, stack.drop n⟩ := by
  induction n generalizing stack with
  | zero => simp
  | succ n ih =>
    rw [List.replicate_succ, List.foldlM_cons, Place.step_up]
    cases stack with
    | nil => simp
    | cons seg outer => simpa using ih outer

theorem foldlM_stackStep_names {names : List NsCString} (h : ∀ seg ∈ names, Counts seg)
    (hup : [dot, dot] ∉ names) (stack : List NsCString) :
    names.foldlM stackStep stack = some (names.reverse ++ stack) := by
  induction names generalizing stack with
  | nil => rfl
  | cons seg names ih =>
    rw [List.mem_cons, not_or] at hup
    rw [List.foldlM_cons, stackStep_name (h seg (by simp)) (Ne.symm hup.1)]
    simpa using ih (fun x hx => h x (by simp [hx])) hup.2 (seg :: stack)

theorem foldlM_step_names {names : List NsCString} (h : ∀ seg ∈ names, Counts seg)
    (hup : [dot, dot] ∉ names) {mode : Mode} (hmode : mode ≠ .popped) (stack : List NsCString) :
    names.foldlM Place.step ⟨mode, stack⟩ =
      some ⟨if names = [] then mode else .name, names.reverse ++ stack⟩ := by
  induction names generalizing mode stack with
  | nil => rfl
  | cons seg names ih =>
    rw [List.mem_cons, not_or] at hup
    rw [List.foldlM_cons, Place.step_name (h seg (by simp)) (Ne.symm hup.1), if_neg hmode]
    have hname : Mode.name ≠ .popped := by decide
    simpa using ih (fun x hx => h x (by simp [hx])) hup.2 hname (seg :: stack)

/-- A `..` behind names is resolved if it is the last segment. -/
theorem follow {names : List NsCString} (h : ∀ seg ∈ names, Counts seg)
    (hhead : names.head? ≠ some [dot, dot]) (hup : [dot, dot] ∉ names.dropLast)
    (stack : List NsCString) :
    ∃ p, names.foldlM Place.step ⟨.dir, stack⟩ = some p ∧
      names.foldlM stackStep stack = some p.stack := by
  rcases List.eq_nil_or_concat names with rfl | ⟨front, last, rfl⟩
  · exact ⟨_, rfl, rfl⟩
  rw [List.concat_eq_append] at h hhead hup ⊢
  rw [List.dropLast_concat] at hup
  have hfront : ∀ seg ∈ front, Counts seg := fun x hx => h x (by simp [hx])
  rw [List.foldlM_append, List.foldlM_append, foldlM_stackStep_names hfront hup,
    foldlM_step_names hfront hup (by decide)]
  by_cases hlast : last = [dot, dot]
  · subst hlast
    cases front with
    | nil => exact absurd rfl hhead
    | cons seg front =>
      have hne : (seg :: front).reverse ++ stack ≠ [] := by simp
      refine ⟨⟨.popped, ((seg :: front).reverse ++ stack).tail⟩, ?_, ?_⟩
      · simp [Place.step_up]
      · simp [stackStep_up]
  · have hcounts := h last (by simp)
    refine ⟨⟨.name, last :: (front.reverse ++ stack)⟩, ?_, ?_⟩
    · have hmode : (if front = [] then Mode.dir else .name) ≠ .popped := by split_ifs <;> decide
      simp [Place.step_name hcounts hlast, hmode]
    · simp [stackStep_name hcounts hlast]

/-! ### Where they part -/

/-- The loop has kept a segment, or holds an empty one, that the stack does not have. `outer` is
the stack at the `..` that took away a name. -/
structure Apart (outer : List NsCString) (p : Place) (stack : List NsCString) : Prop where
  kept : ∃ names rest, stack = names ++ rest ∧ [] ∉ names ∧ rest.length ≤ outer.length
  held : p = ⟨.popped, outer⟩ ∧ stack.length < outer.length ∨
    ∃ names, p.stack = names ++ [] :: outer ∧ (p.mode = .name ∧ names ≠ [] ∨ p.mode = .popped)

theorem Apart.ne {outer stack : List NsCString} {p : Place} (h : Apart outer p stack) :
    stack ≠ p.stack := by
  intro heq
  rcases h.held with ⟨rfl, hlt⟩ | ⟨names, hp, -⟩
  · exact absurd hlt (by simp [heq])
  · obtain ⟨pushed, rest, hstack, hpushed, hrest⟩ := h.kept
    have hcut : pushed ++ rest = (names ++ [[]]) ++ outer := by
      rw [← hstack, heq, hp, List.append_assoc, List.singleton_append]
    rcases List.append_eq_append_iff.mp hcut with ⟨mid, hmid, hrest'⟩ | ⟨mid, hmid, -⟩
    · cases mid with
      | nil =>
        rw [List.append_nil] at hmid
        exact hpushed (hmid ▸ by simp)
      | cons seg mid =>
        rw [hrest', List.length_append, List.length_cons] at hrest
        omega
    · exact hpushed (hmid ▸ by simp)

/-- Whatever follows the `..`, they part. -/
theorem apart_start {seg : NsCString} (h : Counts seg) (outer : List NsCString) :
    ∃ p, Place.step ⟨.popped, outer⟩ seg = some p ∧
      ∀ stack ∈ stackStep outer seg, Apart outer p stack := by
  by_cases hup : seg = [dot, dot]
  · subst hup
    refine ⟨_, Place.step_up .popped outer, fun stack hstack => ?_⟩
    rw [stackStep_up] at hstack
    cases outer with
    | nil => cases hstack
    | cons seg outer =>
      cases hstack
      exact ⟨⟨[], outer, rfl, by simp, by simp⟩, .inl ⟨rfl, by simp⟩⟩
  · refine ⟨_, Place.step_name h hup .popped outer, fun stack hstack => ?_⟩
    rw [stackStep_name h hup] at hstack
    cases hstack
    exact ⟨⟨[seg], outer, rfl, by simpa using Ne.symm h.1, le_rfl⟩,
      .inr ⟨[seg], rfl, .inl ⟨rfl, by simp⟩⟩⟩

theorem Apart.kept_step {outer stack stack' : List NsCString} {p : Place} {seg : NsCString}
    (h : Apart outer p stack) (hseg : Counts seg) (hstack : stackStep stack seg = some stack') :
    ∃ names rest, stack' = names ++ rest ∧ [] ∉ names ∧ rest.length ≤ outer.length := by
  obtain ⟨names, rest, rfl, hnames, hrest⟩ := h.kept
  by_cases hup : seg = [dot, dot]
  · subst hup
    rw [stackStep_up] at hstack
    split_ifs at hstack
    cases hstack
    cases names with
    | nil => exact ⟨[], rest.tail, rfl, hnames, by simp; omega⟩
    | cons name names => exact ⟨names, rest, rfl, by simp_all, hrest⟩
  · rw [stackStep_name hseg hup] at hstack
    cases hstack
    exact ⟨seg :: names, rest, rfl, by simpa [hnames] using Ne.symm hseg.1, hrest⟩

theorem Apart.step {outer stack : List NsCString} {p : Place} {seg : NsCString}
    (h : Apart outer p stack) (hseg : Counts seg) :
    ∃ p', p.step seg = some p' ∧ ∀ stack' ∈ stackStep stack seg, Apart outer p' stack' := by
  obtain ⟨mode, places⟩ := p
  by_cases hup : seg = [dot, dot]
  · subst hup
    rcases h.held with ⟨hp, hlt⟩ | ⟨names, hp, ⟨hmode, hnames⟩ | hmode⟩
    · cases hp
      refine ⟨_, Place.step_up .popped outer, fun stack' hstack => ?_⟩
      refine ⟨h.kept_step hseg hstack, .inl ⟨rfl, ?_⟩⟩
      rw [stackStep_up] at hstack
      cases stack with
      | nil => cases hstack
      | cons seg rest =>
        cases hstack
        exact Nat.lt_of_succ_lt hlt
    · dsimp only at hp hmode
      subst hp hmode
      refine ⟨_, Place.step_up .name _, fun stack' hstack => ?_⟩
      refine ⟨h.kept_step hseg hstack, .inr ⟨names.tail, ?_, .inr rfl⟩⟩
      exact List.tail_append_of_ne_nil hnames
    · dsimp only at hp hmode
      subst hp hmode
      refine ⟨_, Place.step_up .popped _, fun stack' hstack => ?_⟩
      exact ⟨h.kept_step hseg hstack, .inr ⟨names, rfl, .inr rfl⟩⟩
  · refine ⟨_, Place.step_name hseg hup mode places, fun stack' hstack => ?_⟩
    refine ⟨h.kept_step hseg hstack, .inr ?_⟩
    rcases h.held with ⟨hp, -⟩ | ⟨names, hp, ⟨hmode, -⟩ | hmode⟩
    · cases hp
      exact ⟨[seg], rfl, .inl ⟨rfl, by simp⟩⟩
    · dsimp only at hp hmode
      subst hp hmode
      exact ⟨seg :: names, rfl, .inl ⟨rfl, by simp⟩⟩
    · dsimp only at hp hmode
      subst hp hmode
      exact ⟨seg :: [] :: names, rfl, .inl ⟨rfl, by simp⟩⟩

/-- Behind a name of the relative path the loop does not fail. -/
theorem foldlM_step_isSome {p : Place} (h : p.mode ≠ .dir) {names : List NsCString}
    (hnames : ∀ seg ∈ names, Counts seg) : ∃ p', names.foldlM Place.step p = some p' := by
  induction names generalizing p with
  | nil => exact ⟨p, rfl⟩
  | cons seg names ih =>
    obtain ⟨mode, stack⟩ := p
    obtain ⟨p₁, hstep, hmode⟩ : ∃ p₁, Place.step ⟨mode, stack⟩ seg = some p₁ ∧
        p₁.mode ≠ .dir := by
      by_cases hup : seg = [dot, dot]
      · rw [hup, Place.step_up]
        cases mode with
        | dir => exact absurd rfl h
        | name => exact ⟨_, rfl, by rintro ⟨⟩⟩
        | popped => exact ⟨_, rfl, by rintro ⟨⟩⟩
      · exact ⟨_, Place.step_name (hnames seg (by simp)) hup mode stack, by rintro ⟨⟩⟩
    rw [List.foldlM_cons, hstep]
    exact ih hmode fun x hx => hnames x (by simp [hx])

theorem Apart.foldlM {outer stack stack' : List NsCString} {p p' : Place}
    {names : List NsCString} (h : Apart outer p stack) (hnames : ∀ seg ∈ names, Counts seg)
    (hp : names.foldlM Place.step p = some p')
    (hstack : names.foldlM stackStep stack = some stack') : Apart outer p' stack' := by
  induction names generalizing p stack with
  | nil =>
    cases hp
    cases hstack
    exact h
  | cons seg names ih =>
    rw [List.foldlM_cons, Option.bind_eq_bind, Option.bind_eq_some_iff] at hp hstack
    obtain ⟨p₁, hp₁, hp⟩ := hp
    obtain ⟨stack₁, hstack₁, hstack⟩ := hstack
    obtain ⟨p₂, hp₂, hapart⟩ := h.step (hnames seg (by simp))
    obtain rfl : p₁ = p₂ := Option.some.inj (hp₁.symm.trans hp₂)
    exact ih (hapart _ hstack₁) (fun x hx => hnames x (by simp [hx])) hp hstack

/-- With a segment behind a `..` that takes away a name they part. -/
theorem part {names : List NsCString} (h : ∀ seg ∈ names, Counts seg)
    (hhead : names.head? ≠ some [dot, dot]) (hup : [dot, dot] ∈ names.dropLast)
    (stack : List NsCString) :
    ∃ p, names.foldlM Place.step ⟨.dir, stack⟩ = some p ∧
      names.foldlM stackStep stack ≠ some p.stack := by
  -- the first `..`, and the segment behind it
  obtain ⟨front, rest, hcut, hfree⟩ := List.eq_append_cons_of_mem hup
  obtain ⟨seg, more, rfl⟩ : ∃ seg more, names = front ++ [dot, dot] :: seg :: more := by
    have hne : names ≠ [] := by
      rintro rfl
      cases hup
    have hnames := List.dropLast_concat_getLast hne
    rw [hcut, List.append_assoc, List.cons_append] at hnames
    obtain ⟨seg, more, hseg⟩ :=
      List.exists_cons_of_ne_nil (List.concat_ne_nil (names.getLast hne) rest)
    exact ⟨seg, more, by rw [← hseg]; exact hnames.symm⟩
  have hfront : ∀ x ∈ front, Counts x := fun x hx => h x (by simp [hx])
  have hne : front ≠ [] := by
    rintro rfl
    exact hhead rfl
  obtain ⟨p₁, hp₁, hstart⟩ := apart_start (h seg (by simp)) (front.reverse ++ stack).tail
  have hrun : (front ++ [dot, dot] :: seg :: more).foldlM Place.step ⟨.dir, stack⟩ =
      more.foldlM Place.step p₁ := by
    rw [List.foldlM_append, foldlM_step_names hfront hfree (by decide), if_neg hne]
    simp [Place.step_up, hp₁]
  have hstack : (front ++ [dot, dot] :: seg :: more).foldlM stackStep stack =
      (stackStep (front.reverse ++ stack).tail seg).bind (more.foldlM stackStep) := by
    rw [List.foldlM_append, foldlM_stackStep_names hfront hfree]
    simp [stackStep_up, hne]
  have hmore : ∀ x ∈ more, Counts x := fun x hx => h x (by simp [hx])
  have hbehind : ∀ x ∈ seg :: more, Counts x := fun x hx => h x (by simp_all)
  obtain ⟨p, hp⟩ := foldlM_step_isSome (p := ⟨.popped, (front.reverse ++ stack).tail⟩)
    (by rintro ⟨⟩) hbehind
  rw [List.foldlM_cons, hp₁] at hp
  refine ⟨p, hrun.trans hp, fun heq => ?_⟩
  rw [hstack, Option.bind_eq_some_iff] at heq
  obtain ⟨stack₁, hstack₁, heq⟩ := heq
  exact ((hstart stack₁ hstack₁).foldlM hmore hp heq).ne rfl

/-! ### The result -/

theorem free_stackStep {stack stack' : List NsCString} {seg : NsCString}
    (h : ∀ x ∈ stack, slash ∉ x) (hseg : slash ∉ seg)
    (hstep : stackStep stack seg = some stack') : ∀ x ∈ stack', slash ∉ x := by
  rw [stackStep] at hstep
  split_ifs at hstep
  · cases hstep
    exact h
  · cases hstep
    exact fun x hx => h x (List.mem_of_mem_tail hx)
  · cases hstep
    simpa [hseg] using h

theorem free_foldlM {stack stack' : List NsCString} {segs : List NsCString}
    (h : ∀ x ∈ stack, slash ∉ x) (hsegs : ∀ seg ∈ segs, slash ∉ seg)
    (hrun : segs.foldlM stackStep stack = some stack') : ∀ x ∈ stack', slash ∉ x := by
  induction segs generalizing stack with
  | nil =>
    cases hrun
    exact h
  | cons seg segs ih =>
    rw [List.foldlM_cons, Option.bind_eq_bind, Option.bind_eq_some_iff] at hrun
    obtain ⟨stack₁, hstep, hrun⟩ := hrun
    exact ih (free_stackStep h (hsegs seg (by simp)) hstep) (fun x hx => hsegs x (by simp [hx]))
      hrun

/-- The segments of a text for a stack: an empty one behind the last delimiter. -/
theorem splitOn_renders {stack : List NsCString} {text : NsCString}
    (hfree : ∀ seg ∈ stack, slash ∉ seg) (h : Renders stack text) :
    text.tail.splitOn slash = stack.reverse ++ [[]] ∨
      text.tail.splitOn slash = stack.reverse ∧ [] ∉ stack.head? := by
  rcases h with rfl | ⟨seg, outer, rfl, hseg, rfl⟩
  · left
    simpa using splitOn_dirText hfree []
  · right
    rw [List.forall_mem_cons] at hfree
    rw [splitOn_dirText hfree.2, List.splitOn_eq_singleton hfree.1]
    exact ⟨(List.reverse_cons ..).symm, by simpa using hseg⟩

theorem renders_inj {stack stack' : List NsCString} {text : NsCString}
    (hfree : ∀ seg ∈ stack, slash ∉ seg) (hfree' : ∀ seg ∈ stack', slash ∉ seg)
    (h : Renders stack text) (h' : Renders stack' text) : stack = stack' := by
  have hlast {a b : List NsCString} (hab : a.reverse ++ [[]] = b.reverse) :
      [] ∈ b.head? := by
    rw [← List.getLast?_reverse, ← hab, List.getLast?_concat]
    rfl
  rcases splitOn_renders hfree h with hs | ⟨hs, hne⟩ <;>
    rcases splitOn_renders hfree' h' with hs' | ⟨hs', hne'⟩ <;> rw [hs] at hs'
  · exact List.reverse_injective (List.append_cancel_right hs')
  · exact absurd (hlast hs') hne'
  · exact absurd (hlast hs'.symm) hne
  · exact List.reverse_injective hs'

theorem Place.Fair.renders {p : Place} (h : p.Fair) : Renders p.stack p.text := by
  obtain ⟨mode, stack⟩ := p
  cases mode with
  | dir => exact .inl rfl
  | name =>
    obtain ⟨seg, outer, rfl, hseg⟩ := h.named rfl
    exact .inr ⟨seg, outer, rfl, hseg, rfl⟩
  | popped => exact .inl rfl

variable {base : NsCString}

/-- The result is read off the walk over the segments that are not ignored. -/
theorem net_ResolveRelativePath_eq (hfirst : base.head? = some slash)
    (hlast : base.getLast? = some slash) (rel : NsCString) :
    net_ResolveRelativePath rel base =
      ((pathNames rel).foldlM Place.step ⟨.dir, baseStack base⟩).map
        fun p => p.text ++ pathTail rel := by
  have hfair : Place.Fair ⟨.dir, baseStack base⟩ :=
    ⟨slash_notMem_baseStack base, by rintro ⟨⟩⟩
  have hstate : (⟨[], base, base ≠ [] && base.getLast? ≠ some slash⟩ : Resolving) =
      Place.state ⟨.dir, baseStack base⟩ := by
    simp [Place.state, Place.text, dirText_baseStack hfirst hlast, hlast]
  have hskip : ∀ (p : Place) seg, seg = [] ∨ seg = [dot] → p.step seg = some p :=
    fun p seg h => if_pos h
  obtain ⟨seg, segs, hsegs⟩ :=
    List.exists_cons_of_ne_nil (List.splitOn_ne_nil slash (pathPart rel))
  rw [net_ResolveRelativePath, resolveLoop_eq, hstate, ← foldlM_pathNames hskip]
  have hname : (pathPart rel |>.splitOn slash).modifyHead
      ((Place.state ⟨.dir, baseStack base⟩).name ++ ·) = (pathPart rel).splitOn slash := by
    rw [hsegs]
    rfl
  rw [hname, Place.foldlM_state hfair (slash_notMem_splitOn _), Option.map_map]
  rfl

theorem stackResolve_eq (base rel : NsCString) :
    stackResolve base rel = (pathNames rel).foldlM stackStep (baseStack base) := by
  have hskip : ∀ (stack : List NsCString) seg, seg = [] ∨ seg = [dot] →
      stackStep stack seg = some stack := fun stack seg h => if_pos h
  exact foldlM_pathNames hskip rel (baseStack base)

/-- For a walk that does not fail the result is right if the stacks are the same. -/
theorem resolvesTo_iff (hfirst : base.head? = some slash) (hlast : base.getLast? = some slash)
    {rel : NsCString} {p : Place}
    (hp : (pathNames rel).foldlM Place.step ⟨.dir, baseStack base⟩ = some p) :
    ResolvesTo base rel (net_ResolveRelativePath rel base) ↔
      (pathNames rel).foldlM stackStep (baseStack base) = some p.stack := by
  have hfair : p.Fair :=
    Place.Fair.foldlM ⟨slash_notMem_baseStack base, by rintro ⟨⟩⟩
      (fun seg hseg => slash_notMem_pathNames hseg) hp
  rw [ResolvesTo, stackResolve_eq, net_ResolveRelativePath_eq hfirst hlast, hp, Option.map_some]
  cases hs : (pathNames rel).foldlM stackStep (baseStack base) with
  | none => simp
  | some stack =>
    have hfree : ∀ seg ∈ stack, slash ∉ seg :=
      free_foldlM (slash_notMem_baseStack base) (fun seg hseg => slash_notMem_pathNames hseg) hs
    constructor
    · rintro ⟨text, htext, heq⟩
      obtain rfl := List.append_cancel_right (Option.some.inj heq)
      rw [renders_inj hfree hfair.free htext hfair.renders]
    · intro heq
      obtain rfl := Option.some.inj heq
      exact ⟨p.text, hfair.renders, rfl⟩

/-- `net_ResolveRelativePath` resolves on a stack exactly if nothing follows a `..` that takes away
a segment of the relative path. -/
theorem net_ResolveRelativePath_stack (base rel : NsCString) (hfirst : base.head? = some slash)
    (hlast : base.getLast? = some slash) :
    ResolvesTo base rel (net_ResolveRelativePath rel base) ↔ PopsOnce base rel := by
  obtain ⟨n, hn⟩ : ∃ n, (pathNames rel).takeWhile (· = [dot, dot]) =
      List.replicate n [dot, dot] :=
    ⟨_, List.eq_replicate_of_mem fun x hx => by simpa using List.mem_takeWhile_imp hx⟩
  generalize hrest : (pathNames rel).dropWhile (· = [dot, dot]) = rest
  have hnames : pathNames rel = List.replicate n [dot, dot] ++ rest := by
    rw [← hn, ← hrest, List.takeWhile_append_dropWhile]
  have hcounts : ∀ seg ∈ rest, Counts seg := fun seg hseg =>
    @counts_of_mem_pathNames rel seg (by simp [hnames, hseg])
  have hhead : rest.head? ≠ some [dot, dot] := by
    intro h
    have hnot := List.head?_dropWhile_not (· = [dot, dot]) (pathNames rel)
    rw [hrest, h] at hnot
    simp at hnot
  have hwalk := foldlM_step_ups (baseStack base) n
  have hstack := foldlM_stackStep_ups (baseStack base) n
  rw [PopsOnce, hn, hrest, List.length_replicate]
  by_cases hdeep : (baseStack base).length < n
  · -- both leave the root
    rw [if_pos hdeep] at hwalk hstack
    have hnone : stackResolve base rel = none := by
      rw [stackResolve_eq, hnames, List.foldlM_append, hstack]
      rfl
    have hfail : net_ResolveRelativePath rel base = none := by
      rw [net_ResolveRelativePath_eq hfirst hlast, hnames, List.foldlM_append, hwalk]
      rfl
    rw [ResolvesTo, hnone]
    exact iff_of_true hfail (.inl hdeep)
  · rw [if_neg hdeep] at hwalk hstack
    have hp₁ : (pathNames rel).foldlM Place.step ⟨.dir, baseStack base⟩ =
        rest.foldlM Place.step ⟨.dir, (baseStack base).drop n⟩ := by
      rw [hnames, List.foldlM_append, hwalk]
      rfl
    have hs₁ : (pathNames rel).foldlM stackStep (baseStack base) =
        rest.foldlM stackStep ((baseStack base).drop n) := by
      rw [hnames, List.foldlM_append, hstack]
      rfl
    by_cases hup : [dot, dot] ∈ rest.dropLast
    · obtain ⟨p, hp, hne⟩ := part hcounts hhead hup ((baseStack base).drop n)
      rw [resolvesTo_iff hfirst hlast (hp₁.trans hp), hs₁]
      exact iff_of_false hne (not_or.mpr ⟨hdeep, not_not_intro hup⟩)
    · obtain ⟨p, hp, heq⟩ := follow hcounts hhead hup ((baseStack base).drop n)
      rw [resolvesTo_iff hfirst hlast (hp₁.trans hp), hs₁]
      exact iff_of_true heq (.inr hup)

/-- In front of the last segment a `..` takes away one that was pushed. -/
theorem net_ResolveRelativePath_stack_names :
    ResolvesTo (ascii "/a/b/") (ascii "../c/./d/..#x")
      (net_ResolveRelativePath (ascii "../c/./d/..#x") (ascii "/a/b/")) :=
  (net_ResolveRelativePath_stack (ascii "/a/b/") (ascii "../c/./d/..#x") (by decide)
    (by decide)).mpr (by decide)

/-- Behind such a `..` a delimiter is written twice: `b/../c` in `/a/` is `/a//c`. -/
theorem net_ResolveRelativePath_delimiter_twice :
    ¬ ∀ base rel : NsCString, base.head? = some slash → base.getLast? = some slash →
      ResolvesTo base rel (net_ResolveRelativePath rel base) := by
  intro h
  have hpath := h (ascii "/a/") (ascii "b/../c") (by decide) (by decide)
  have hstack : stackResolve (ascii "/a/") (ascii "b/../c") = some [ascii "c", ascii "a"] := by
    decide
  have hresult : net_ResolveRelativePath (ascii "b/../c") (ascii "/a/") =
      some (ascii "/a//c") := by decide
  have htail : pathTail (ascii "b/../c") = [] := by decide
  rw [ResolvesTo, hstack, hresult, htail] at hpath
  obtain ⟨text, htext, heq⟩ := hpath
  rw [List.append_nil] at heq
  obtain rfl := Option.some.inj heq
  rcases htext with htext | ⟨seg, outer, hcons, -, htext⟩
  · exact absurd htext (by decide)
  · cases hcons
    exact absurd htext (by decide)

end Kompozer.Net

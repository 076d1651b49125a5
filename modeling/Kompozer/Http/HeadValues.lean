import Kompozer.Http.HeadLines

/-! What edits leave of a header and of the state beside the headers, from the edits themselves.
The value has what came since the last edit that replaced it; a flag has what came since the last
edit that cleared it. -/

namespace Kompozer.Http

open Net (NsCString cString CR LF colon space)
open Prefs (ascii decimal)

/-! ### Searches in merged values -/

theorem PL_strncasecmp_iff {s little : NsCString} :
    PL_strncasecmp s little little.length = true ↔ little.map uc <+: s.map uc := by
  induction little generalizing s with
  | nil => simp [PL_strncasecmp]
  | cons d little ih =>
    cases s with
    | nil => simp [PL_strncasecmp]
    | cons c s =>
      rw [List.length_cons, PL_strncasecmp, Bool.and_eq_true, decide_eq_true_iff, ih,
        List.map_cons, List.map_cons, List.cons_prefix_cons, eq_comm]

theorem prefix_append_cons {α : Type} {m x y : List α} {d : α} (hd : d ∉ m) :
    m <+: x ++ d :: y ↔ m <+: x := by
  constructor
  · intro h
    rcases Nat.lt_or_ge x.length m.length with hlt | hle
    · have hx : x ++ [d] <+: x ++ d :: y := ⟨y, by simp⟩
      have hm : x ++ [d] <+: m := List.prefix_of_prefix_length_le hx h (by simpa using hlt)
      exact absurd (hm.subset (by simp)) hd
    · exact List.prefix_of_prefix_length_le h (List.prefix_append x _) hle
  · exact fun h => h.trans (List.prefix_append x _)

section Search

variable {little : NsCString} {c : UInt8}

theorem PL_strcasestr_cons (little : NsCString) (c : UInt8) (big : NsCString) :
    PL_strcasestr little (c :: big) =
      if little ≠ [] ∧ PL_strncasecmp (c :: big) little little.length then some (c :: big)
      else PL_strcasestr little big := rfl

/-- A search does not find a place that lies across a character it does not look for. -/
theorem PL_strcasestr_append (hc : uc c ∉ little.map uc) (hlittle : little ≠ [])
    (a b : NsCString) :
    PL_strcasestr little (a ++ c :: b) =
      match PL_strcasestr little a with
      | some s => some (s ++ c :: b)
      | none => PL_strcasestr little b := by
  induction a with
  | nil =>
    have hno : ¬PL_strncasecmp (c :: b) little little.length = true := by
      rw [PL_strncasecmp_iff]
      intro h
      have h := (prefix_append_cons (x := []) (y := b.map uc) hc).mp h
      exact hlittle (by simpa using h)
    rw [List.nil_append, PL_strcasestr_cons, if_neg fun h => hno h.2]
    rfl
  | cons d a ih =>
    have hiff : PL_strncasecmp (d :: (a ++ c :: b)) little little.length = true ↔
        PL_strncasecmp (d :: a) little little.length = true := by
      rw [PL_strncasecmp_iff, PL_strncasecmp_iff, ← List.cons_append, List.map_append]
      exact prefix_append_cons hc
    rw [List.cons_append, PL_strcasestr_cons, PL_strcasestr_cons, ih]
    by_cases h : PL_strncasecmp (d :: a) little little.length = true
    · rw [if_pos ⟨hlittle, hiff.mpr h⟩, if_pos ⟨hlittle, h⟩]
      rfl
    · rw [if_neg fun h' => h (hiff.mp h'.2), if_neg fun h' => h h'.2]

theorem PL_strcasestr_length {big s : NsCString} (h : PL_strcasestr little big = some s) :
    little.length ≤ s.length := by
  induction big with
  | nil => exact absurd h (by simp [PL_strcasestr])
  | cons d big ih =>
    unfold PL_strcasestr at h
    split_ifs at h with hfound
    · obtain rfl := Option.some.inj h
      simpa using (PL_strncasecmp_iff.mp hfound.2).length_le
    · exact ih h

theorem noCacheLoop_of_none {s : NsCString} (h : PL_strcasestr (ascii "no-cache") s = none) :
    noCacheLoop s = false := by
  rw [noCacheLoop]
  split
  · rfl
  · next hsome => exact absurd (h.symm.trans hsome) (by simp)

theorem noCacheLoop_of_some {s s' : NsCString}
    (h : PL_strcasestr (ascii "no-cache") s = some s') :
    noCacheLoop s = (decide ((s'.drop 8).head? ≠ some 61) || noCacheLoop (s'.drop 8)) := by
  rw [noCacheLoop]
  split
  · next hnone => exact absurd (h.symm.trans hnone) (by simp)
  · next s'' hsome =>
    obtain rfl := Option.some.inj (h.symm.trans hsome)
    rfl

theorem noCacheLoop_append (hc : uc c ∉ (ascii "no-cache").map uc) (hne : c ≠ 61)
    (a b : NsCString) : noCacheLoop (a ++ c :: b) = (noCacheLoop a || noCacheLoop b) := by
  induction hn : a.length using Nat.strong_induction_on generalizing a with
  | _ n ih =>
    subst hn
    have happend := PL_strcasestr_append hc (by decide) a b
    cases ha : PL_strcasestr (ascii "no-cache") a with
    | none =>
      rw [ha] at happend
      rw [noCacheLoop_of_none ha, Bool.false_or]
      cases hb : PL_strcasestr (ascii "no-cache") b with
      | none => rw [noCacheLoop_of_none hb, noCacheLoop_of_none (happend.trans hb)]
      | some s => rw [noCacheLoop_of_some hb, noCacheLoop_of_some (happend.trans hb)]
    | some s =>
      rw [ha] at happend
      have hlen : 8 ≤ s.length := PL_strcasestr_length ha
      have hle := (PL_strcasestr_suffix ha).1.length_le
      have hshort : (s.drop 8).length < a.length := by
        rw [List.length_drop]
        omega
      rw [noCacheLoop_of_some ha, noCacheLoop_of_some happend, List.drop_append_of_le_length hlen,
        ih _ hshort (s.drop 8) rfl]
      cases hs : s.drop 8 with
      | nil => simp [hne]
      | cons d s => rw [List.cons_append, List.head?_cons, List.head?_cons, Bool.or_assoc]

end Search

/-- A search that finds in a merged value what it finds in one of its parts. -/
structure Local (found : NsCString → Bool) : Prop where
  nil : found [] = false
  merged (w v : NsCString) : found (w ++ ascii ", " ++ v) = (found w || found v)

theorem PL_strcasestr_local {little : NsCString} (h : ∀ c ∈ ascii ", ", uc c ∉ little.map uc)
    (hne : little ≠ []) : Local fun s => (PL_strcasestr little s).isSome where
  nil := rfl
  merged w v := by
    have hblank : PL_strcasestr little (space :: v) = PL_strcasestr little v :=
      PL_strcasestr_append (h space (by decide)) hne [] v
    have hcomma := PL_strcasestr_append (h 44 (by decide)) hne w (space :: v)
    rw [List.append_assoc]
    show (PL_strcasestr little (w ++ 44 :: space :: v)).isSome = _
    rw [hcomma, hblank]
    cases PL_strcasestr little w <;> rfl

theorem noStore_local : Local noStore := PL_strcasestr_local (by decide +kernel) (by decide)

theorem pragmaNoCache_local : Local pragmaNoCache :=
  PL_strcasestr_local (by decide +kernel) (by decide)

theorem noCacheLoop_local : Local noCacheLoop where
  nil := by rw [noCacheLoop_of_none rfl]
  merged w v := by
    rw [List.append_assoc]
    show noCacheLoop (w ++ 44 :: space :: v) = _
    rw [noCacheLoop_append (by decide +kernel) (by decide)]
    show (noCacheLoop w || noCacheLoop ([] ++ space :: v)) = _
    rw [noCacheLoop_append (by decide +kernel) (by decide), noCacheLoop_of_none (s := []) rfl,
      Bool.false_or]

/-! ### The last edits -/

/-- The elements from the last one that satisfies `p`, all of them if none does. -/
def fromLast {α : Type} (p : α → Bool) : List α → List α
  | [] => []
  | x :: l => if l.any p then fromLast p l else x :: l

/-- The elements behind the last one that satisfies `p`. -/
def afterLast {α : Type} (p : α → Bool) (l : List α) : List α := l.rtakeWhile fun x => !p x

theorem fromLast_concat {α : Type} (p : α → Bool) (l : List α) (x : α) :
    fromLast p (l ++ [x]) = if p x then [x] else fromLast p l ++ [x] := by
  induction l with
  | nil => simp [fromLast]
  | cons y l ih =>
    rw [List.cons_append, fromLast, ih, List.any_append, fromLast]
    by_cases hx : p x = true
    · simp [hx]
    · by_cases hl : l.any p = true <;> simp [hx, hl]

theorem fromLast_subset {α : Type} (p : α → Bool) (l : List α) : fromLast p l ⊆ l := by
  induction l with
  | nil => exact List.Subset.refl _
  | cons x l ih =>
    unfold fromLast
    split_ifs
    · exact fun y hy => List.mem_cons_of_mem _ (ih hy)
    · exact List.Subset.refl _

theorem mem_fromLast {α : Type} {p : α → Bool} {l : List α} {x : α} (hx : x ∈ fromLast p l)
    (hp : p x = true) : ∃ earlier later, l = earlier ++ x :: later ∧ ∀ y ∈ later, p y = false := by
  induction l with
  | nil => exact absurd hx List.not_mem_nil
  | cons y l ih =>
    unfold fromLast at hx
    split_ifs at hx with hl
    · obtain ⟨earlier, later, rfl, hlater⟩ := ih hx
      exact ⟨y :: earlier, later, rfl, hlater⟩
    · have hnone : ∀ z ∈ l, p z = false := by simpa using hl
      rcases List.mem_cons.mp hx with rfl | hmem
      · exact ⟨[], l, rfl, hnone⟩
      · exact absurd (hnone x hmem) (by simp [hp])

theorem afterLast_concat {α : Type} (p : α → Bool) (l : List α) (x : α) :
    afterLast p (l ++ [x]) = if p x then [] else afterLast p l ++ [x] := by
  unfold afterLast
  split_ifs with h
  · exact List.rtakeWhile_concat_neg _ _ _ (by simp [h])
  · exact List.rtakeWhile_concat_pos _ _ _ (by simpa using h)

/-- Either nothing satisfies `p`, or there is a last one that does. -/
theorem exists_last {α : Type} (p : α → Bool) (l : List α) :
    (∀ x ∈ l, p x = false) ∨
      ∃ earlier x later, l = earlier ++ x :: later ∧ p x = true ∧ ∀ y ∈ later, p y = false := by
  induction l with
  | nil => exact .inl fun x hx => absurd hx List.not_mem_nil
  | cons y l ih =>
    rcases ih with hnone | ⟨earlier, x, later, rfl, hx, hlater⟩
    · by_cases hy : p y = true
      · exact .inr ⟨[], y, l, rfl, hy, hnone⟩
      · exact .inl (List.forall_mem_cons.mpr ⟨by simpa using hy, hnone⟩)
    · exact .inr ⟨y :: earlier, x, later, rfl, hx, hlater⟩

namespace Edit

/-- Something is found in the value of an edit. -/
def found (p : NsCString → Bool) (e : Edit) : Bool := p (cString e.value)

/-- An edit clears a flag. -/
def clears (e : Edit) : Bool := cString e.value = []

/-- The length that an edit of `Content-Length` brings. -/
def length? : Edit → Option Int64
  | merge v => ParseInt64 v
  | replace _ => none

variable {header : nsHttpAtom} {es : List Edit}

theorem foldl_flagged (p : NsCString → Bool) (es : List Edit) :
    es.foldl (flagged p) false = (afterLast clears es).any (found p) := by
  induction es using List.reverseRecOn with
  | nil => rfl
  | append_singleton es e ih =>
    rw [List.foldl_concat, afterLast_concat, ih, flagged]
    by_cases h : cString e.value = []
    · have hclears : e.clears = true := decide_eq_true h
      rw [if_pos h, if_pos hclears]
      rfl
    · rw [if_neg h, if_neg (by simpa [clears] using h), List.any_append]
      simp [found]

theorem foldl_measured (length : Int64) (es : List Edit) :
    es.foldl measured length = (es.filterMap length?).getLast?.getD length := by
  induction es using List.reverseRecOn with
  | nil => rfl
  | append_singleton es e ih =>
    rw [List.foldl_concat, ih, List.filterMap_append]
    cases e with
    | replace v => simp [measured, length?]
    | merge v =>
      cases hv : ParseInt64 v with
      | none => simp [measured, length?, hv]
      | some n => simp [measured, length?, hv]

theorem apply_nil (old : Option NsCString) {e : Edit} (h : e.value = []) :
    apply header old e = if e.isReplace then none else old := by
  rw [apply, h, nsHttpHeaderArray.stored_nil]
  cases e.isReplace <;> rfl

theorem apply_ne_nil {old : Option NsCString} {e : Edit} (h : ∀ v, old = some v → v ≠ [])
    {v : NsCString} (hv : apply header old e = some v) : v ≠ [] := by
  by_cases hvalue : e.value = []
  · rw [apply_nil old hvalue] at hv
    split_ifs at hv
    exact h v hv
  · cases old with
    | none =>
      rw [apply, nsHttpHeaderArray.stored_none hvalue] at hv
      rwa [← Option.some.inj hv]
    | some w =>
      rw [apply, nsHttpHeaderArray.stored_some w hvalue] at hv
      split_ifs at hv
      · rw [← Option.some.inj hv]
        simp [hvalue]
      · rwa [← Option.some.inj hv]

/-- The value of a header is not empty. -/
theorem foldl_apply_ne_nil {v : NsCString} (h : es.foldl (apply header) none = some v) :
    v ≠ [] := by
  induction es using List.reverseRecOn generalizing v with
  | nil => exact absurd h (by simp)
  | append_singleton es e ih =>
    rw [List.foldl_concat] at h
    exact apply_ne_nil (fun w hw => ih hw) h

/-- A header that does not take a further value has the last one. -/
theorem foldl_apply_last (happend : nsHttpHeaderArray.CanAppendToHeader header = false)
    (es : List Edit) : es.foldl (apply header) none =
      ((fromLast isReplace es).filter (·.value ≠ [])).getLast?.map value := by
  induction es using List.reverseRecOn with
  | nil => rfl
  | append_singleton es e ih =>
    rw [List.foldl_concat, fromLast_concat, ih]
    by_cases hvalue : e.value = []
    · rw [apply_nil _ hvalue]
      split_ifs
      · simp [hvalue]
      · simp [List.filter_append, hvalue]
    · have hstored : ∀ old, apply header old e = some e.value := by
        intro old
        cases old with
        | none => exact nsHttpHeaderArray.stored_none hvalue _
        | some w =>
          rw [apply, nsHttpHeaderArray.stored_some w hvalue, happend, Bool.and_false,
            if_neg (by decide)]
      rw [hstored]
      split_ifs
      · simp [hvalue]
      · simp [List.filter_append, hvalue]

/-- In the value of a header that takes further values something is found that is found in one
of them. -/
theorem foldl_apply_any {p : NsCString → Bool} (hp : Local p)
    (happend : nsHttpHeaderArray.CanAppendToHeader header = true)
    (hdelimiter : nsHttpHeaderArray.delimiter header = ascii ", ") (es : List Edit) :
    (es.foldl (apply header) none).any p = (fromLast isReplace es).any (p ·.value) := by
  induction es using List.reverseRecOn with
  | nil => rfl
  | append_singleton es e ih =>
    rw [List.foldl_concat, fromLast_concat]
    by_cases hvalue : e.value = []
    · rw [apply_nil _ hvalue]
      split_ifs
      · simp [hvalue, hp.nil]
      · rw [ih, List.any_append]
        simp [hvalue, hp.nil]
    · split_ifs with hreplace
      · have hstored : apply header (es.foldl (apply header) none) e = some e.value := by
          rw [apply, hreplace]
          exact (nsHttpHeaderArray.stored_replace _ _).trans (if_neg hvalue)
        rw [hstored]
        simp
      · rw [List.any_append, ← ih, apply]
        cases es.foldl (apply header) none with
        | none =>
          rw [nsHttpHeaderArray.stored_none hvalue]
          simp
        | some w =>
          have happly : (!e.isReplace && nsHttpHeaderArray.CanAppendToHeader header) = true := by
            simp [hreplace, happend]
          rw [nsHttpHeaderArray.stored_some w hvalue, if_pos happly, hdelimiter, Option.any_some,
            Option.any_some, hp.merged]
          simp

/-! ### Values that lines carry -/

open nsHttpHeaderArray (Plain Clean HTTP_LWS CanAppendToHeader)

/-- A further value comes from an edit. -/
def brings (e : Edit) : Bool := e.value ≠ []

/-- The value that the last `SetHeader` left can be written into a line and read from it: it was
overwritten since, or its name is a token and no part of it gets lost in a line. White space behind
it is kept only if a further value stands there. -/
def ReadsBack (header : nsHttpAtom) (es : List Edit) : Prop :=
  ∀ earlier value later, es = earlier ++ .replace value :: later →
    (∀ e ∈ later, e.isReplace = false) → value ≠ [] →
    (later.any brings = true ∧ CanAppendToHeader header = false) ∨
      (nsHttp.IsValidToken header._val = true ∧ Plain value ∧
        (later.any brings = true ∨ value.rdropWhile HTTP_LWS = value))

/-- What the edits of one header are if the lines are lines. -/
def FromLines (header : nsHttpAtom) (es : List Edit) : Prop :=
  ∀ v, Edit.merge v ∈ es → nsHttp.IsValidToken header._val = true ∧ Clean v

/-- A clean value behind another one. -/
theorem plain_merged {w v : NsCString} (hw : w ≠ []) (hv : Clean v) (hne : v ≠ []) :
    (Plain (w ++ ascii ", " ++ v) ↔ Plain w) ∧
      (w ++ ascii ", " ++ v).rdropWhile HTTP_LWS = w ++ ascii ", " ++ v := by
  have hshape : w ++ ascii ", " ++ v = w ++ 44 :: space :: v := List.append_assoc _ _ _
  have hsplit : splitLine (w ++ 44 :: space :: v) = none ↔ splitLine w = none := by
    rw [splitLine_append_none (by decide) (by decide)]
    refine ⟨And.left, fun h => ⟨h, ?_⟩⟩
    exact (splitLine_append_none (by decide) (by decide) [] v).mpr ⟨rfl, hv.noEnd⟩
  have hnul : 0 ∉ w ++ 44 :: space :: v ↔ 0 ∉ w := by
    simp only [List.mem_append, List.mem_cons, not_or]
    exact ⟨And.left, fun h => ⟨h, by decide, by decide, hv.noNul⟩⟩
  have hfront : (w ++ 44 :: space :: v).dropWhile HTTP_LWS = w ++ 44 :: space :: v ↔
      w.dropWhile HTTP_LWS = w := by
    cases w with
    | nil => exact absurd rfl hw
    | cons c w => simp [List.dropWhile_eq_self_iff]
  rw [hshape]
  refine ⟨⟨fun h => ⟨hnul.mp h.noNul, hsplit.mp h.noEnd, hfront.mp h.front⟩,
    fun h => ⟨hnul.mpr h.noNul, hsplit.mpr h.noEnd, hfront.mpr h.front⟩⟩, ?_⟩
  have hback := hv.back
  rw [List.rdropWhile_eq_self_iff] at hback ⊢
  intro hl
  have hlast : (w ++ 44 :: space :: v).getLast hl = v.getLast hne := by simp [hne]
  rw [hlast]
  exact hback hne

/-- One more value that a line brought. -/
theorem apply_merge (hdelimiter : nsHttpHeaderArray.delimiter header = ascii ", ") {w u : NsCString}
    (hw : w ≠ []) (hclean : Clean u) (hu : u ≠ []) :
    ∃ v ≠ [], apply header (some w) (merge u) = some v ∧ v.rdropWhile HTTP_LWS = v ∧
      (Plain v ↔ (CanAppendToHeader header = true → Plain w)) := by
  have hstored := @nsHttpHeaderArray.stored_some header w u hu true
  by_cases happend : CanAppendToHeader header = true
  · have hmerged := plain_merged hw hclean hu
    rw [happend, hdelimiter] at hstored
    refine ⟨_, by simp [hu], hstored, hmerged.2, hmerged.1.trans ?_⟩
    simp [happend]
  · rw [Bool.not_eq_true] at happend
    rw [happend] at hstored
    refine ⟨u, hu, hstored, hclean.back, ?_⟩
    simp [happend, hclean.toPlain]

/-- Values that lines brought behind a value. -/
theorem foldl_merges (hdelimiter : nsHttpHeaderArray.delimiter header = ascii ", ")
    {later : List Edit} (hlines : FromLines header later)
    (hlater : ∀ e ∈ later, e.isReplace = false) {w : NsCString} (hw : w ≠ []) :
    ∃ v, later.foldl (apply header) (some w) = some v ∧
      if later.any brings then
        v.rdropWhile HTTP_LWS = v ∧ (Plain v ↔ (CanAppendToHeader header = true → Plain w))
      else v = w := by
  induction later generalizing w with
  | nil => exact ⟨w, rfl, rfl⟩
  | cons e later ih =>
    cases e with
    | replace v => exact absurd (hlater _ List.mem_cons_self) (by simp [isReplace])
    | merge u =>
      have ih := fun {w} hw => ih (fun v hv => hlines v (List.mem_cons_of_mem _ hv))
        (fun e he => hlater e (List.mem_cons_of_mem _ he)) (w := w) hw
      rw [List.foldl_cons, List.any_cons]
      by_cases hu : u = []
      · have hbrings : brings (merge u) = false := decide_eq_false (not_not_intro hu)
        have happly : apply header (some w) (merge u) = some w := apply_nil _ hu
        rw [happly, hbrings, Bool.false_or]
        exact ih hw
      · have hbrings : brings (merge u) = true := decide_eq_true hu
        obtain ⟨x, hx, happly, hback, hplain⟩ :=
          apply_merge hdelimiter hw (hlines u List.mem_cons_self).2 hu
        obtain ⟨v, hv, hrest⟩ := ih hx
        rw [happly, hbrings, Bool.true_or]
        refine ⟨v, hv, ?_⟩
        rw [if_pos rfl]
        split_ifs at hrest
        · refine ⟨hrest.1, hrest.2.trans ?_⟩
          rw [hplain]
          exact ⟨fun h happend => h happend happend, fun h happend _ => h happend⟩
        · rw [hrest]
          exact ⟨hback, hplain⟩

/-- Values that lines brought alone are clean. -/
theorem clean_merges (hdelimiter : nsHttpHeaderArray.delimiter header = ascii ", ")
    {es : List Edit} (hlines : FromLines header es) (hmerge : ∀ e ∈ es, e.isReplace = false)
    {v : NsCString} (hv : es.foldl (apply header) none = some v) :
    nsHttp.IsValidToken header._val = true ∧ Clean v := by
  induction es with
  | nil => exact absurd hv (by simp)
  | cons e es ih =>
    cases e with
    | replace v => exact absurd (hmerge _ List.mem_cons_self) (by simp [isReplace])
    | merge u =>
      have hlines' : FromLines header es := fun v hv => hlines v (List.mem_cons_of_mem _ hv)
      have hmerge' : ∀ e ∈ es, e.isReplace = false := fun e he =>
        hmerge e (List.mem_cons_of_mem _ he)
      obtain ⟨htoken, hclean⟩ := hlines u List.mem_cons_self
      rw [List.foldl_cons] at hv
      by_cases hu : u = []
      · have happly : apply header none (merge u) = none := apply_nil _ hu
        rw [happly] at hv
        exact ih hlines' hmerge' hv
      · have happly : apply header none (merge u) = some u :=
          nsHttpHeaderArray.stored_none hu true
        obtain ⟨x, hx, hrest⟩ := foldl_merges hdelimiter hlines' hmerge' hu
        rw [happly, hx] at hv
        obtain rfl := Option.some.inj hv
        refine ⟨htoken, ?_⟩
        split_ifs at hrest
        · exact ⟨hrest.2.mpr fun _ => hclean.toPlain, hrest.1⟩
        · rw [hrest]
          exact hclean

/-- The value that is left of the edits is clean where the last one of `SetHeader` can be
written. -/
theorem readsBack_iff (hdelimiter : nsHttpHeaderArray.delimiter header = ascii ", ")
    {es : List Edit} (hlines : FromLines header es) :
    ReadsBack header es ↔ ∀ v, es.foldl (apply header) none = some v →
      nsHttp.IsValidToken header._val = true ∧ Clean v := by
  -- The lines behind the last `SetHeader` decide, whatever came before it.
  have hcut : ∀ earlier value later, es = earlier ++ .replace value :: later → value ≠ [] →
      (∀ e ∈ later, e.isReplace = false) → ∃ v, es.foldl (apply header) none = some v ∧
        if later.any brings then nsHttp.IsValidToken header._val = true ∧
          v.rdropWhile HTTP_LWS = v ∧ (Plain v ↔ (CanAppendToHeader header = true → Plain value))
        else v = value := by
    rintro earlier value later rfl hvalue hlater
    have hlines' : FromLines header later := fun v hv =>
      hlines v (List.mem_append_right _ (List.mem_cons_of_mem _ hv))
    obtain ⟨v, hv, hrest⟩ := foldl_merges hdelimiter hlines' hlater hvalue
    refine ⟨v, ?_, ?_⟩
    · have happly : ∀ old, apply header old (replace value) = some value := fun old =>
        (nsHttpHeaderArray.stored_replace old value).trans (if_neg hvalue)
      rw [List.foldl_append, List.foldl_cons, happly, hv]
    · split_ifs at hrest ⊢ with hmore
      · obtain ⟨e, he, -⟩ := List.any_eq_true.mp hmore
        cases e with
        | replace u => exact absurd (hlater _ he) (by simp [isReplace])
        | merge u => exact ⟨(hlines' u he).1, hrest⟩
      · exact hrest
  constructor
  · intro h v hv
    rcases exists_last isReplace es with hnone | ⟨earlier, e, later, heq, he, hlater⟩
    · exact clean_merges hdelimiter hlines hnone hv
    · cases e with
      | merge u => exact absurd he (by simp [isReplace])
      | replace value =>
        by_cases hvalue : value = []
        · have happly : ∀ old, apply header old (replace value) = none := fun old =>
            (nsHttpHeaderArray.stored_replace old value).trans (if_pos hvalue)
          rw [heq, List.foldl_append, List.foldl_cons, happly] at hv
          exact clean_merges hdelimiter (fun u hu => hlines u (by
            rw [heq]
            exact List.mem_append_right _ (List.mem_cons_of_mem _ hu))) hlater hv
        · obtain ⟨v', hv', hrest⟩ := hcut earlier value later heq hvalue hlater
          obtain rfl := Option.some.inj (hv'.symm.trans hv)
          rcases h earlier value later heq hlater hvalue with
            ⟨hmore, happend⟩ | ⟨htoken, hplain, hback⟩
          · rw [if_pos hmore, happend] at hrest
            exact ⟨hrest.1, hrest.2.2.mpr (by simp), hrest.2.1⟩
          · refine ⟨htoken, ?_⟩
            split_ifs at hrest with hmore
            · exact ⟨hrest.2.2.mpr fun _ => hplain, hrest.2.1⟩
            · rw [hrest]
              exact ⟨hplain, hback.resolve_left hmore⟩
  · intro h earlier value later heq hlater hvalue
    obtain ⟨v, hv, hrest⟩ := hcut earlier value later heq hvalue hlater
    obtain ⟨htoken, hclean⟩ := h v hv
    by_cases hmore : later.any brings = true
    · rw [if_pos hmore] at hrest
      by_cases happend : CanAppendToHeader header = true
      · exact .inr ⟨htoken, hrest.2.2.mp hclean.toPlain happend, .inl hmore⟩
      · exact .inl ⟨hmore, by simpa using happend⟩
    · rw [if_neg hmore] at hrest
      rw [← hrest]
      exact .inr ⟨htoken, hclean.toPlain, .inr hclean.back⟩

end Edit

end Kompozer.Http

import Kompozer.Composer.SourceTree

/-! Marks around the selection in the source (`viewSource.js`): a mark at the end of a text or in
front of it is put behind its element or before it. -/

namespace Kompozer.Composer

open DomNode

/-! ### Marking -/

def ZWSP : Char := '\u200B'

/-- Both marks are the same. -/
def MARK_SELECTION_START : List Char := List.replicate 5 ZWSP

def MARK_SELECTION_END : List Char := List.replicate 5 ZWSP

/-- A range of the selection. A node is given by its path, as `getPath` finds it. -/
structure Range where
  startContainer : List ℕ
  startOffset : ℕ
  endContainer : List ℕ
  endOffset : ℕ

/-- `commonAncestorContainer`. -/
def commonAncestor : List ℕ → List ℕ → List ℕ
  | i :: p, j :: q => if i = j then i :: commonAncestor p q else []
  | [], _ => []
  | _ :: _, [] => []

def DomNode.isBody : DomNode → Bool
  | element nodeName _ => nodeName.toLower = "body"
  | text _ _ => false
  | comment _ => false

/-- Whether a node or one around it is a body. -/
def isInBody (doc : DomNode) (node : List ℕ) : Bool :=
  node.inits.any fun p => (doc.at? p).any isBody

def parentIsBody (doc : DomNode) (node : List ℕ) : Bool := (doc.at? node.dropLast).any isBody

/-- Whether a node is the `lastChild` of its parent. -/
def isLastChild (doc : DomNode) (node : List ℕ) : Bool :=
  (doc.at? node.dropLast).any fun parent =>
    node.getLast?.any fun i => i + 1 = parent.childNodes.length

/-- A text before the parent of a node, or behind it. Beside the root no text can be. -/
def markBesideParent (doc : DomNode) (node : List ℕ) (offset : ℕ) (mark : List Char) :
    Option DomNode :=
  match node.dropLast.reverse with
  | [] => none
  | k :: up =>
    doc.update (fun n => n.insertBefore (text false mark) (if offset = 0 then k else k + 1))
      up.reverse

/-- A mark at a boundary. A text of some length says whether it is put inside. Where there is no
node an exception is thrown. -/
def markAt (doc : DomNode) (container : List ℕ) (offset : ℕ) (mark : List Char)
    (inside : ℕ → Bool) : Option DomNode :=
  match doc.at? container with
  | none => none
  | some (text _ data) =>
    if inside data.length then doc.update (fun n => n.insertData offset mark) container
    else markBesideParent doc container offset mark
  | some _ => doc.update (fun n => n.insertBefore (text false mark) offset) container

def markEnd (doc : DomNode) (endContainer : List ℕ) (endOffset : ℕ) : Option DomNode :=
  markAt doc endContainer endOffset MARK_SELECTION_END fun length =>
    (0 < endOffset && endOffset < length) || endContainer = [] || parentIsBody doc endContainer

def markStart (doc : DomNode) (startContainer : List ℕ) (startOffset : ℕ) : Option DomNode :=
  markAt doc startContainer startOffset MARK_SELECTION_START fun length =>
    (0 < startOffset && startOffset < length) || startContainer = [] ||
      !isLastChild doc startContainer || parentIsBody doc startContainer

/-- The path of the start was found before the end was marked. -/
def addSelectionMarkers (doc : DomNode) (range : Range) : Option DomNode :=
  if isInBody doc (commonAncestor range.startContainer range.endContainer) then
    (markEnd doc range.endContainer range.endOffset).bind fun doc =>
      markStart doc range.startContainer range.startOffset
  else some doc

/-! ### Selections -/

/-- A selection that is not collapsed, in a body. -/
structure Selection (doc : DomNode) (range : Range) : Prop where
  start : ∃ m, doc.at? range.startContainer = some m ∧ range.startOffset ≤ m.length
  finish : ∃ m, doc.at? range.endContainer = some m ∧ range.endOffset ≤ m.length
  order : IsBefore range.startContainer range.startOffset range.endContainer range.endOffset
  body : isInBody doc (commonAncestor range.startContainer range.endContainer) = true

/-- The text between the boundaries of a range. -/
def selected (doc : DomNode) (range : Range) : List Char :=
  (doc.before range.endContainer range.endOffset).drop
    (doc.before range.startContainer range.startOffset).length

/-- The marks stand around the selected text, they are the first two that a search finds and
there are no others, and the tree is as it was when they are taken out. -/
structure Bracketed (doc : DomNode) (range : Range) (doc' : DomNode) : Prop where
  text : doc'.allText =
    doc.before range.startContainer range.startOffset ++ (MARK_SELECTION_START ++
      (selected doc range ++ (MARK_SELECTION_END ++
        doc.after range.endContainer range.endOffset)))
  first : ∀ a r, doc'.allText = a ++ (MARK_SELECTION_START ++ r) →
    (doc.before range.startContainer range.startOffset).length ≤ a.length
  second : ∀ a r, selected doc range ++ (MARK_SELECTION_END ++
      doc.after range.endContainer range.endOffset) = a ++ (MARK_SELECTION_END ++ r) →
    (selected doc range).length ≤ a.length
  last : ¬ MARK_SELECTION_END <:+: doc.after range.endContainer range.endOffset
  tree : ∃ t, Unmark MARK_SELECTION_START doc' t ∧ Unmark MARK_SELECTION_END t doc

/-- A text before a mark, in which there is none and where none begins. -/
def NoMark (a : List Char) : Prop := ¬ MARK_SELECTION_START <:+: a ∧ a.getLast? ≠ some ZWSP

/-- Whether marks can be told from the text. -/
structure Unmarked (doc : DomNode) (range : Range) : Prop where
  front : NoMark (doc.before range.startContainer range.startOffset)
  between : NoMark (selected doc range)
  back : ¬ MARK_SELECTION_END <:+: doc.after range.endContainer range.endOffset

/-- A text whose mark may go beside its parent. -/
def Beside (doc : DomNode) (node : List ℕ) : Prop :=
  (∃ cdata data, doc.at? node = some (text cdata data)) ∧ parentIsBody doc node = false

/-- There is no text in the siblings before a node. -/
def NoTextBefore (doc : DomNode) (node : List ℕ) : Prop :=
  ∀ g i parent, node = g ++ [i] → doc.at? g = some parent →
    texts (parent.childNodes.take i) = []

/-- There is no text in the siblings behind a node but such as is in a mark. -/
def NoTextBehind (doc : DomNode) (node : List ℕ) : Prop :=
  ∀ g i parent, node = g ++ [i] → doc.at? g = some parent →
    ∀ c ∈ texts (parent.childNodes.drop (i + 1)), c = ZWSP

/-- What a selection may be marked for: there are no marks, no comment is at its boundaries, and a
mark that goes beside a parent passes no text, and does not come before the start. -/
structure Bracketable (doc : DomNode) (range : Range) : Prop where
  unmarked : Unmarked doc range
  start : ∀ m ∈ doc.at? range.startContainer, m.isComment = false
  finish : ∀ m ∈ doc.at? range.endContainer, m.isComment = false
  endFront : Beside doc range.endContainer → range.endOffset = 0 →
    NoTextBefore doc range.endContainer ∧
      (range.endContainer.dropLast <+: range.startContainer →
        range.startContainer = range.endContainer.dropLast ∧
          range.startOffset ≤ MARK_SELECTION_END.length)
  endBehind : Beside doc range.endContainer → 0 < range.endOffset →
    (∀ m ∈ doc.at? range.endContainer, range.endOffset = m.length) →
      NoTextBehind doc range.endContainer
  startFront : Beside doc range.startContainer → range.startOffset = 0 →
    isLastChild doc range.startContainer = true →
      range.endContainer ≠ range.startContainer.dropLast → NoTextBefore doc range.startContainer

/-! ### Where a mark is put -/

variable {doc : DomNode} {c : List ℕ} {o : ℕ} {mark : List Char} {inside : ℕ → Bool}

theorem markAt_here {m : DomNode} (hm : doc.at? c = some m)
    (h : ∀ cdata data, m = text cdata data → inside data.length = true) :
    markAt doc c o mark inside = doc.update (put mark o) c := by
  rw [markAt, hm]
  cases m with
  | element name cs => exact update_congr hm rfl
  | text cdata data =>
    dsimp only
    rw [if_pos (h cdata data rfl)]
    exact update_congr hm rfl
  | comment data => exact update_congr hm rfl

/-- Two levels above a text there is an element. -/
theorem at?_parents {g : List ℕ} {k i : ℕ} {m : DomNode} (h : doc.at? (g ++ [k, i]) = some m) :
    ∃ name cs name' cs', doc.at? g = some (element name cs) ∧
      cs[k]? = some (element name' cs') ∧ cs'[i]? = some m := by
  obtain ⟨n, hn, h⟩ := at?_append.mp h
  obtain ⟨n', hn', h⟩ := at?_cons.mp h
  obtain ⟨n'', hn'', h⟩ := at?_cons.mp h
  cases h
  cases n with
  | element name cs =>
    cases n' with
    | element name' cs' => exact ⟨name, cs, name', cs', hn, hn', hn''⟩
    | text cdata data => cases hn''
    | comment data => cases hn''
  | text cdata data => cases hn'
  | comment data => cases hn'

theorem markAt_beside {g : List ℕ} {k i : ℕ} {cdata : Bool} {data : List Char}
    (hm : doc.at? (g ++ [k, i]) = some (text cdata data)) (h : inside data.length = false) :
    markAt doc (g ++ [k, i]) o mark inside =
      doc.update (put mark (if o = 0 then k else k + 1)) g := by
  obtain ⟨name, cs, name', cs', hg, -⟩ := at?_parents hm
  have hdrop : (g ++ [k, i]).dropLast.reverse = k :: g.reverse := by simp
  rw [markAt, hm]
  dsimp only
  rw [if_neg (by simp [h]), markBesideParent, hdrop]
  dsimp only
  rw [List.reverse_reverse]
  exact update_congr hg rfl

/-- A comment takes no mark. -/
theorem markAt_comment {m : DomNode} (hm : doc.at? c = some m) (hkind : m.isComment = true) :
    markAt doc c o mark inside = none := by
  cases m with
  | element name cs => cases hkind
  | text cdata data => cases hkind
  | comment data =>
    rw [markAt, hm]
    dsimp only
    cases h : doc.update (fun n => n.insertBefore (text false mark) o) c with
    | none => rfl
    | some t =>
      obtain ⟨n, n', hn, hn'⟩ := update_at? h
      rw [hm] at hn
      cases hn
      cases hn'

/-- In a body, a text whose parent is none has two parents. -/
theorem parents_of_body {node : List ℕ} (hbody : isInBody doc node = true) (hnode : node <+: c)
    (hbeside : Beside doc c) : ∃ g k i, c = g ++ [k, i] := by
  obtain ⟨⟨cdata, data, htext⟩, hparent⟩ := hbeside
  obtain ⟨b, hb, hbody⟩ := List.any_eq_true.mp hbody
  obtain ⟨n, hn, hisBody⟩ := (Option.any_eq_true isBody (doc.at? b)).mp hbody
  obtain ⟨r, rfl⟩ := ((List.mem_inits b node).mp hb).trans hnode
  rcases List.eq_nil_or_concat r with rfl | ⟨r, i, rfl⟩
  · rw [List.append_nil, hn] at htext
    cases htext
    cases hisBody
  · rcases List.eq_nil_or_concat r with rfl | ⟨r, k, rfl⟩
    · have hdrop : (b ++ List.concat [] i).dropLast = b := by simp
      rw [parentIsBody, hdrop, hn, Option.any_some, hisBody] at hparent
      cases hparent
    · exact ⟨b ++ r, k, i, by simp⟩

theorem commonAncestor_prefix (p q : List ℕ) :
    commonAncestor p q <+: p ∧ commonAncestor p q <+: q := by
  induction p generalizing q with
  | nil => exact ⟨List.prefix_refl _, List.nil_prefix⟩
  | cons i p ih =>
    cases q with
    | nil => exact ⟨List.nil_prefix, List.prefix_refl _⟩
    | cons j q =>
      rw [commonAncestor]
      split_ifs with hij
      · subst hij
        exact ⟨List.cons_prefix_cons.mpr ⟨rfl, (ih q).1⟩, List.cons_prefix_cons.mpr ⟨rfl, (ih q).2⟩⟩
      · exact ⟨List.nil_prefix, List.nil_prefix⟩

/-- A mark is put at its boundary, or beside the parent of its text. -/
theorem markAt_cases {m : DomNode} (hm : doc.at? c = some m) {stays : Bool}
    (hinside : ∀ length, inside length =
      ((0 < o && o < length) || c = [] || stays || parentIsBody doc c))
    (hparents : Beside doc c → ∃ g k i, c = g ++ [k, i]) :
    markAt doc c o mark inside = doc.update (put mark o) c ∧
        (Beside doc c → stays = false → 0 < o ∧ o < m.length) ∨
      ∃ g k i cdata data, c = g ++ [k, i] ∧ m = text cdata data ∧ Beside doc c ∧ stays = false ∧
        ¬ (0 < o ∧ o < data.length) ∧
        markAt doc c o mark inside = doc.update (put mark (if o = 0 then k else k + 1)) g := by
  by_cases hin : ∀ cdata data, m = text cdata data → inside data.length = true
  · refine .inl ⟨markAt_here hm hin, fun hbeside hstays => ?_⟩
    obtain ⟨g, k, i, rfl⟩ := hparents hbeside
    obtain ⟨⟨cdata, data, htext⟩, hparent⟩ := hbeside
    rw [hm] at htext
    have htrue := hin cdata data (Option.some.inj htext)
    rw [hinside, hparent, hstays] at htrue
    rw [Option.some.inj htext]
    simpa [DomNode.length] using htrue
  · simp only [not_forall, Bool.not_eq_true] at hin
    obtain ⟨cdata, data, rfl, hout⟩ := hin
    have hfalse := hout
    rw [hinside] at hfalse
    simp only [Bool.or_eq_false_iff, Bool.and_eq_false_iff, decide_eq_false_iff_not] at hfalse
    obtain ⟨⟨⟨hoffset, hroot⟩, hstays⟩, hparent⟩ := hfalse
    have hbeside : Beside doc c := ⟨⟨cdata, data, hm⟩, hparent⟩
    obtain ⟨g, k, i, rfl⟩ := hparents hbeside
    exact .inr ⟨g, k, i, cdata, data, rfl, rfl, hbeside, hstays, by tauto, markAt_beside hm hout⟩

theorem markEnd_cases {m : DomNode} (hm : doc.at? c = some m)
    (hparents : Beside doc c → ∃ g k i, c = g ++ [k, i]) :
    markEnd doc c o = doc.update (put MARK_SELECTION_END o) c ∧
        (Beside doc c → 0 < o ∧ o < m.length) ∨
      ∃ g k i cdata data, c = g ++ [k, i] ∧ m = text cdata data ∧ Beside doc c ∧
        ¬ (0 < o ∧ o < data.length) ∧
        markEnd doc c o = doc.update (put MARK_SELECTION_END (if o = 0 then k else k + 1)) g := by
  have hcases := @markAt_cases doc c o MARK_SELECTION_END
    (fun length => (0 < o && o < length) || c = [] || parentIsBody doc c) m hm false
    (fun length => by rw [Bool.or_false]) hparents
  rcases hcases with ⟨heq, hin⟩ | ⟨g, k, i, cdata, data, hc, hm', hbeside, -, hrange, heq⟩
  · exact .inl ⟨heq, fun hbeside => hin hbeside rfl⟩
  · exact .inr ⟨g, k, i, cdata, data, hc, hm', hbeside, hrange, heq⟩

theorem markStart_cases {m : DomNode} (hm : doc.at? c = some m)
    (hparents : Beside doc c → ∃ g k i, c = g ++ [k, i]) :
    markStart doc c o = doc.update (put MARK_SELECTION_START o) c ∧
        (Beside doc c → isLastChild doc c = true → 0 < o ∧ o < m.length) ∨
      ∃ g k i cdata data, c = g ++ [k, i] ∧ m = text cdata data ∧ Beside doc c ∧
        isLastChild doc c = true ∧ ¬ (0 < o ∧ o < data.length) ∧
        markStart doc c o =
          doc.update (put MARK_SELECTION_START (if o = 0 then k else k + 1)) g := by
  have hcases := @markAt_cases doc c o MARK_SELECTION_START
    (fun length => (0 < o && o < length) || c = [] || !isLastChild doc c || parentIsBody doc c) m hm
    (!isLastChild doc c) (fun _ => rfl) hparents
  rcases hcases with ⟨heq, hin⟩ | ⟨g, k, i, cdata, data, hc, hm', hbeside, hstays, hrange, heq⟩
  · exact .inl ⟨heq, fun hbeside hlast => hin hbeside (by rw [hlast]; rfl)⟩
  · exact .inr ⟨g, k, i, cdata, data, hc, hm', hbeside, by simpa using hstays, hrange, heq⟩

/-! ### What a mark beside a parent passes -/

theorem isLastChild_concat {g : List ℕ} {i : ℕ} {parent : DomNode}
    (hp : doc.at? g = some parent) :
    isLastChild doc (g ++ [i]) = true ↔ i + 1 = parent.childNodes.length := by
  rw [isLastChild, List.dropLast_concat, hp]
  simp

theorem before_parents {g : List ℕ} {name name' : String} {cs cs' : List DomNode} {k i : ℕ}
    {m : DomNode} (hg : doc.at? g = some (element name cs)) (hk : cs[k]? = some (element name' cs'))
    (hi : cs'[i]? = some m) (o : ℕ) :
    doc.before (g ++ [k, i]) o = doc.before g k ++ (texts (cs'.take i) ++ m.textTo o) := by
  have hk' : (element name cs).childNodes[k]? = some (element name' cs') := hk
  have hi' : (element name' cs').childNodes[i]? = some m := hi
  have hplace := before_append hg [] k
  rw [List.append_nil] at hplace
  have hinner : (element name cs).before [k, i] o =
      texts (cs.take k) ++ (texts (cs'.take i) ++ m.textTo o) := by
    rw [before, hk']
    dsimp only
    rw [before, hi']
    rfl
  rw [before_append hg [k, i] o, hplace, hinner, List.append_assoc]
  rfl

theorem noTextBefore_iff {g : List ℕ} {k i : ℕ} {name' : String} {cs' : List DomNode}
    (hp : doc.at? (g ++ [k]) = some (element name' cs')) :
    NoTextBefore doc (g ++ [k, i]) ↔ texts (cs'.take i) = [] := by
  have hsplit : g ++ [k, i] = (g ++ [k]) ++ [i] := by simp
  constructor
  · exact fun h => h _ _ _ hsplit hp
  · intro h g' i' parent heq hparent
    obtain ⟨rfl, hi⟩ := List.append_inj' (hsplit.symm.trans heq) rfl
    cases hi
    rw [hp] at hparent
    cases hparent
    exact h

theorem noTextBehind_iff {g : List ℕ} {k i : ℕ} {name' : String} {cs' : List DomNode}
    (hp : doc.at? (g ++ [k]) = some (element name' cs')) :
    NoTextBehind doc (g ++ [k, i]) ↔ ∀ c ∈ texts (cs'.drop (i + 1)), c = ZWSP := by
  have hsplit : g ++ [k, i] = (g ++ [k]) ++ [i] := by simp
  constructor
  · exact fun h => h _ _ _ hsplit hp
  · intro h g' i' parent heq hparent
    obtain ⟨rfl, hi⟩ := List.append_inj' (hsplit.symm.trans heq) rfl
    cases hi
    rw [hp] at hparent
    cases hparent
    exact h

theorem at?_parent {g : List ℕ} {name name' : String} {cs cs' : List DomNode} {k : ℕ}
    (hg : doc.at? g = some (element name cs)) (hk : cs[k]? = some (element name' cs')) :
    doc.at? (g ++ [k]) = some (element name' cs') :=
  at?_append.mpr ⟨_, hg, at?_cons.mpr ⟨_, hk, rfl⟩⟩

theorem before_front {g : List ℕ} {k i : ℕ} {cdata : Bool} {data : List Char}
    (h : doc.at? (g ++ [k, i]) = some (text cdata data)) :
    doc.before g k = doc.before (g ++ [k, i]) 0 ↔ NoTextBefore doc (g ++ [k, i]) := by
  obtain ⟨name, cs, name', cs', hg, hk, hi⟩ := at?_parents h
  rw [noTextBefore_iff (at?_parent hg hk), before_parents hg hk hi, textTo, List.take_zero,
    List.append_nil, List.self_eq_append_right]

theorem before_behind {g : List ℕ} {name name' : String} {cs cs' : List DomNode} {k i : ℕ}
    {cdata : Bool} {data : List Char} (hg : doc.at? g = some (element name cs))
    (hk : cs[k]? = some (element name' cs')) (hi : cs'[i]? = some (text cdata data)) :
    doc.before g (k + 1) =
      doc.before (g ++ [k, i]) data.length ++ texts (cs'.drop (i + 1)) := by
  have hplace (j : ℕ) : doc.before g j = doc.before g 0 ++ texts (cs.take j) := by
    have := before_append hg [] j
    rwa [List.append_nil] at this
  have hinner : texts cs' = texts (cs'.take i) ++ (data ++ texts (cs'.drop (i + 1))) := by
    have hsplit := congrArg texts (@childNodes_split (element name' cs') _ i hi)
    rwa [texts_append, texts_cons] at hsplit
  have hnext : texts (cs.take (k + 1)) = texts (cs.take k) ++ texts cs' := by
    rw [List.take_add_one, hk, texts_append, Option.toList_some, texts_cons, texts_nil,
      List.append_nil]
    rfl
  rw [before_parents hg hk hi, textTo, List.take_length, hplace (k + 1), hplace k, hnext, hinner]
  simp only [List.append_assoc]

theorem passes_front {g : List ℕ} {k i : ℕ} {cdata : Bool} {data : List Char}
    (h : doc.at? (g ++ [k, i]) = some (text cdata data)) :
    (∃ y, (∀ c ∈ y, c = ZWSP) ∧ doc.before g k = doc.before (g ++ [k, i]) 0 ++ y) ↔
      NoTextBefore doc (g ++ [k, i]) := by
  rw [← before_front h]
  constructor
  · rintro ⟨y, -, heq⟩
    obtain ⟨name, cs, name', cs', hg, hk, hi⟩ := at?_parents h
    have hsplit := before_parents hg hk hi 0
    have hnone := heq
    rw [hsplit, List.append_assoc, List.self_eq_append_right, List.append_eq_nil_iff] at hnone
    rw [hsplit, hnone.1, List.append_nil]
  · exact fun heq => ⟨[], by simp, by rw [heq, List.append_nil]⟩

theorem passes_behind {g : List ℕ} {k i : ℕ} {cdata : Bool} {data : List Char}
    (h : doc.at? (g ++ [k, i]) = some (text cdata data)) :
    (∃ y, (∀ c ∈ y, c = ZWSP) ∧
        doc.before g (k + 1) = doc.before (g ++ [k, i]) data.length ++ y) ↔
      NoTextBehind doc (g ++ [k, i]) := by
  obtain ⟨name, cs, name', cs', hg, hk, hi⟩ := at?_parents h
  rw [noTextBehind_iff (at?_parent hg hk), before_behind hg hk hi]
  simp

/-! ### Behind the mark for the end -/

theorem DomNode.Grown.isBody {e : ℕ} {m m' : DomNode} (h : Grown e m m') : m'.isBody = m.isBody := by
  cases h with
  | element name h => rfl
  | text cdata h => rfl
  | comment d => rfl

/-- The document with the mark for the end, and the start where it was. -/
structure EndMarked (doc t : DomNode) (c q : List ℕ) (o o' : ℕ) (m : DomNode) : Prop where
  put : doc.update (put MARK_SELECTION_END o') q = some t
  order : NotAfter c o q o'
  node : doc.at? c = some m
  offset : o ≤ m.length

namespace EndMarked

variable {t m : DomNode} {q : List ℕ} {o' : ℕ}

theorem parent {g : List ℕ} {i : ℕ} (h : EndMarked doc t (g ++ [i]) q o o' m) :
    ∃ name cs cs', doc.at? g = some (element name cs) ∧ t.at? g = some (element name cs') ∧
      cs'.length = cs.length + (if g = q then 1 else 0) ∧ i < cs.length := by
  obtain ⟨n, hn, hi⟩ := at?_append.mp h.node
  obtain ⟨m', hm', -⟩ := at?_cons.mp hi
  cases n with
  | element name cs =>
    have hlt : i < cs.length := (List.getElem?_eq_some_iff.mp hm').1
    obtain ⟨-, n', hn', hgrown⟩ := put_notAfter h.put h.order.front hn hlt.le
    cases hgrown with
    | element name hlength => exact ⟨name, cs, _, hn, hn', hlength, hlt⟩
  | text cdata data => cases hm'
  | comment data => cases hm'

theorem beside_iff (h : EndMarked doc t c q o o' m) : Beside t c ↔ Beside doc c := by
  obtain ⟨-, m', hm', hgrown⟩ := put_notAfter h.put h.order h.node h.offset
  have htext : (∃ cdata data, t.at? c = some (text cdata data)) ↔
      ∃ cdata data, doc.at? c = some (text cdata data) := by
    rw [hm', h.node]
    simpa using hgrown.text_iff
  have hparent : parentIsBody t c = parentIsBody doc c := by
    rcases List.eq_nil_or_concat c with rfl | ⟨g, i, rfl⟩
    · rw [parentIsBody, parentIsBody, List.dropLast_nil, hm', h.node]
      exact hgrown.isBody
    · rw [List.concat_eq_append] at h ⊢
      obtain ⟨name, cs, cs', hdoc, ht, -⟩ := h.parent
      rw [parentIsBody, parentIsBody, List.dropLast_concat, hdoc, ht]
      rfl
  rw [Beside, Beside, htext, hparent]

theorem isLastChild_iff (h : EndMarked doc t c q o o' m) :
    isLastChild t c = true ↔ isLastChild doc c = true ∧ q ≠ c.dropLast := by
  rcases List.eq_nil_or_concat c with rfl | ⟨g, i, rfl⟩
  · have hnot (d : DomNode) : isLastChild d [] = false := by
      rw [isLastChild]
      cases d.at? [].dropLast <;> rfl
    rw [hnot, hnot]
    simp
  · rw [List.concat_eq_append] at h ⊢
    obtain ⟨name, cs, cs', hdoc, ht, hlength, hi⟩ := h.parent
    rw [isLastChild_concat hdoc, isLastChild_concat ht, List.dropLast_concat]
    change i + 1 = cs'.length ↔ i + 1 = cs.length ∧ q ≠ g
    rw [hlength]
    split_ifs with hgq
    · subst hgq
      refine iff_of_false (by omega) fun h => h.2 rfl
    · rw [Nat.add_zero]
      exact ⟨fun h => ⟨h, Ne.symm hgq⟩, fun h => h.1⟩

/-- What the mark for the start makes of the document. -/
theorem start (h : EndMarked doc t c q o o' m) (hkind : m.isComment = false)
    (hparents : Beside doc c → ∃ g k i, c = g ++ [k, i]) :
    ∃ t' b r, markStart t c o = some t' ∧ Unmark MARK_SELECTION_START t' t ∧
      t'.allText = b ++ MARK_SELECTION_START ++ r ∧ b ++ r = t.allText ∧ b <+: doc.before c o ∧
      (b = doc.before c o ↔ (Beside doc c → o = 0 → isLastChild doc c = true →
        q ≠ c.dropLast → NoTextBefore doc c)) := by
  obtain ⟨hbefore, m', hm', hgrown⟩ := put_notAfter h.put h.order h.node h.offset
  have hoffset : o ≤ m'.length := h.offset.trans hgrown.length_le
  rcases markStart_cases (o := o) hm' (fun hbeside => hparents (h.beside_iff.mp hbeside)) with
    ⟨heq, hin⟩ | ⟨g, k, i, cdata, data, rfl, rfl, hbeside, hlast, hrange, heq⟩
  · obtain ⟨m'', hm''⟩ := exists_put MARK_SELECTION_START (hgrown.isComment.trans hkind) hoffset
    obtain ⟨t', ht'⟩ := exists_update hm' hm''
    refine ⟨t', t.before c o, t.after c o, heq.trans ht', unmark_put ht',
      allText_put ht', before_append_after hm' o, ?_, iff_of_true hbefore ?_⟩
    · rw [hbefore]
    · intro hbeside ho hlast hq
      have hlast' := h.isLastChild_iff.mpr ⟨hlast, hq⟩
      have hpos := (hin (h.beside_iff.mpr hbeside) hlast').1
      omega
  · have hput (j : ℕ) : ∃ t', t.update (DomNode.put MARK_SELECTION_START j) g = some t' := by
      obtain ⟨name, cs, name', cs', hg, -⟩ := at?_parents hm'
      exact exists_update hg rfl
    obtain ⟨hlastDoc, hq⟩ := h.isLastChild_iff.mp hlast
    have hbesideDoc := h.beside_iff.mp hbeside
    obtain ⟨cdata', data', hdoc⟩ := hbesideDoc.1
    obtain ⟨nameT, csT, name', cs', hgT, hkT, hiT⟩ := at?_parents hm'
    by_cases ho : o = 0
    · rw [if_pos ho] at heq
      obtain ⟨t', ht'⟩ := hput k
      obtain ⟨name, cs, _, _, hg, hk, hi⟩ := at?_parents hdoc
      have hframe := (put_notAfter h.put h.order.front hg
        (List.getElem?_eq_some_iff.mp hk).1.le).1
      refine ⟨t', t.before g k, t.after g k, heq.trans ht', unmark_put ht',
        allText_put ht', before_append_after hgT k, ?_, ?_⟩
      · rw [hframe, before_parents hg hk hi]
        exact List.prefix_append _ _
      · rw [hframe, ho, before_front hdoc]
        exact ⟨fun h _ _ _ _ => h, fun h => h hbesideDoc rfl hlastDoc hq⟩
    · rw [if_neg ho] at heq
      obtain ⟨t', ht'⟩ := hput (k + 1)
      have hend : o = data.length := by
        have : o ≤ data.length := hoffset
        omega
      have hsplit : g ++ [k, i] = (g ++ [k]) ++ [i] := by simp
      have hlastT : i + 1 = cs'.length := by
        rw [hsplit] at hlast
        exact (isLastChild_concat (at?_parent hgT hkT)).mp hlast
      have hsame : t.before g (k + 1) = t.before (g ++ [k, i]) o := by
        rw [hend, before_behind hgT hkT hiT, hlastT, List.drop_length, texts_nil, List.append_nil]
      refine ⟨t', t.before g (k + 1), t.after g (k + 1), heq.trans ht',
        unmark_put ht', allText_put ht', before_append_after hgT (k + 1), ?_, ?_⟩
      · rw [hsame, hbefore]
      · exact iff_of_true (hsame.trans hbefore) fun _ ho' => absurd ho' ho

end EndMarked

/-! ### Texts with marks -/

/-- A search finds a mark behind a text, and none earlier, exactly if none is in the text and none
begins there. -/
theorem first_iff {a r : List Char} :
    (∀ b r', a ++ (MARK_SELECTION_START ++ r) = b ++ (MARK_SELECTION_START ++ r') →
      a.length ≤ b.length) ↔ NoMark a := by
  constructor
  · intro h
    constructor
    · rintro ⟨b, c, rfl⟩
      have hlength := h b (c ++ (MARK_SELECTION_START ++ r)) (by simp only [List.append_assoc])
      simp [MARK_SELECTION_START] at hlength
    · intro hlast
      obtain ⟨b, rfl⟩ := List.getLast?_eq_some_iff.mp hlast
      have hlength := h b (ZWSP :: r) (by simp [MARK_SELECTION_START, List.replicate])
      simp at hlength
  · rintro ⟨hno, hlast⟩ b r' heq
    by_contra hlt
    have hprefix : b <+: a := List.prefix_of_prefix_length_le ⟨_, heq.symm⟩ ⟨_, rfl⟩ (by omega)
    obtain ⟨c, rfl⟩ := hprefix
    rw [List.append_assoc, List.append_cancel_left_eq] at heq
    have hpos : c ≠ [] := by
      rintro rfl
      simp at hlt
    by_cases hlong : MARK_SELECTION_START.length ≤ c.length
    · have hmark : MARK_SELECTION_START <+: c :=
        List.prefix_of_prefix_length_le ⟨_, heq.symm⟩ ⟨_, rfl⟩ hlong
      exact hno (hmark.isInfix.trans (List.suffix_append b c).isInfix)
    · have hmark : c <+: MARK_SELECTION_START :=
        List.prefix_of_prefix_length_le ⟨_, heq⟩ ⟨_, rfl⟩ (by omega)
      have hz : c.getLast hpos = ZWSP :=
        List.eq_of_mem_replicate (hmark.subset (List.getLast_mem hpos))
      refine hlast ?_
      rw [List.getLast?_append_of_ne_nil b hpos, List.getLast?_eq_some_getLast hpos, hz]

theorem mark_comm_iff {a : List Char} :
    MARK_SELECTION_END ++ a = a ++ MARK_SELECTION_END ↔ ∀ c ∈ a, c = ZWSP := by
  constructor
  · intro h
    induction a with
    | nil => simp
    | cons c a ih =>
      have hhead : ZWSP = c := List.head_eq_of_cons_eq h
      subst hhead
      have htail : MARK_SELECTION_END ++ a = a ++ MARK_SELECTION_END := by
        have := List.tail_eq_of_cons_eq h
        simpa [MARK_SELECTION_END, List.replicate] using this
      simpa using ih htail
  · intro h
    rw [List.eq_replicate_of_mem h, MARK_SELECTION_END, List.replicate_append_replicate,
      List.replicate_append_replicate, Nat.add_comm]

/-- The whole text is right exactly if both marks are. -/
theorem marked_text_iff {b r start selected back before after : List Char}
    (hsame : before ++ after = start ++ (selected ++ back))
    (hr : b ++ r = before ++ (MARK_SELECTION_END ++ after))
    (hb : b <+: start) (hbefore : b = start → start <+: before)
    (hfront : NoMark start) (hbetween : NoMark selected) :
    b ++ MARK_SELECTION_START ++ r =
        start ++ (MARK_SELECTION_START ++ (selected ++ (MARK_SELECTION_END ++ back))) ↔
      b = start ∧ ∃ y, (∀ c ∈ y, c = ZWSP) ∧ before = start ++ selected ++ y := by
  rw [List.append_assoc]
  constructor
  · intro h
    have hstart : b = start := hb.eq_of_length_le (first_iff.mpr hfront b r h.symm)
    refine ⟨hstart, ?_⟩
    obtain ⟨w, rfl⟩ := hbefore hstart
    subst hstart
    rw [List.append_assoc] at hr hsame
    have hmarked := List.append_cancel_left (List.append_cancel_left h)
    rw [List.append_cancel_left hr] at hmarked
    have hsame := List.append_cancel_left hsame
    have hselected : selected <+: w := by
      refine List.prefix_of_prefix_length_le ⟨_, hsame.symm⟩ ⟨_, rfl⟩ ?_
      exact first_iff.mpr hbetween w after hmarked.symm
    obtain ⟨y, rfl⟩ := hselected
    refine ⟨y, mark_comm_iff.mp ?_, by rw [List.append_assoc]⟩
    rw [List.append_assoc, List.append_cancel_left_eq] at hmarked hsame
    rw [← hsame, ← List.append_assoc, ← List.append_assoc] at hmarked
    exact (List.append_cancel_right hmarked).symm
  · rintro ⟨rfl, y, hy, rfl⟩
    simp only [List.append_assoc, List.append_cancel_left_eq] at hsame hr
    rw [hr, ← hsame, ← List.append_assoc y, ← mark_comm_iff.mpr hy, List.append_assoc]

variable {range : Range} {t : DomNode} {q : List ℕ} {o' : ℕ}

theorem Selection.selected_eq (h : Selection doc range) :
    doc.before range.endContainer range.endOffset =
      doc.before range.startContainer range.startOffset ++ selected doc range := by
  obtain ⟨m, hm, -⟩ := h.start
  obtain ⟨m', hm', -⟩ := h.finish
  obtain ⟨rest, hrest⟩ := h.order.notAfter.before_prefix hm hm'
  rw [selected, ← hrest, List.drop_left]

theorem Bracketed.unmarked {doc' : DomNode} (h : Bracketed doc range doc') : Unmarked doc range :=
  ⟨first_iff.mp fun a r heq => h.first a r (h.text.trans heq), first_iff.mp h.second, h.last⟩

theorem Unmarked.bracketed {doc' : DomNode} (h : Unmarked doc range)
    (htext : doc'.allText = doc.before range.startContainer range.startOffset ++
      (MARK_SELECTION_START ++ (selected doc range ++ (MARK_SELECTION_END ++
        doc.after range.endContainer range.endOffset))))
    (htree : ∃ t, Unmark MARK_SELECTION_START doc' t ∧ Unmark MARK_SELECTION_END t doc) :
    Bracketed doc range doc' :=
  ⟨htext, fun a r heq => first_iff.mpr h.front a r (htext.symm.trans heq),
    first_iff.mpr h.between, h.back, htree⟩

/-- Where the start is not after the mark for the end, all is right exactly if no mark passes any
text. -/
theorem bracketed_iff (h : Selection doc range) (hclear : Unmarked doc range)
    (hput : doc.update (put MARK_SELECTION_END o') q = some t)
    (horder : NotAfter range.startContainer range.startOffset q o') :
    (∃ doc', markStart t range.startContainer range.startOffset = some doc' ∧
        Bracketed doc range doc') ↔
      (∀ m ∈ doc.at? range.startContainer, m.isComment = false) ∧
        (∃ y, (∀ c ∈ y, c = ZWSP) ∧
          doc.before q o' = doc.before range.endContainer range.endOffset ++ y) ∧
        (Beside doc range.startContainer → range.startOffset = 0 →
          isLastChild doc range.startContainer = true → q ≠ range.startContainer.dropLast →
            NoTextBefore doc range.startContainer) := by
  obtain ⟨m, hm, ho⟩ := h.start
  obtain ⟨mE, hmE, -⟩ := h.finish
  obtain ⟨mq, -, hmq, -⟩ := update_at? hput
  cases hkind : m.isComment with
  | true =>
    obtain ⟨-, m', hm', hgrown⟩ := put_notAfter hput horder hm ho
    have hnone : markStart t range.startContainer range.startOffset = none :=
      markAt_comment hm' (hgrown.isComment.trans hkind)
    refine iff_of_false (by simp [hnone]) fun hright => ?_
    rw [hright.1 m hm] at hkind
    cases hkind
  | false =>
    have hmarked : EndMarked doc t range.startContainer q range.startOffset o' m :=
      ⟨hput, horder, hm, ho⟩
    obtain ⟨t', b, r, hstart, htree, htext, hall, hprefix, hb⟩ := hmarked.start hkind fun hbeside =>
      parents_of_body h.body ( commonAncestor_prefix _ _).1 hbeside
    have hwhole : doc.before range.startContainer range.startOffset ++
        (selected doc range ++ doc.after range.endContainer range.endOffset) = doc.allText := by
      rw [← List.append_assoc, ← h.selected_eq, before_append_after hmE]
    have hr := hall.trans (allText_put hput)
    rw [List.append_assoc] at hr
    have htextIff := marked_text_iff ((before_append_after hmq o').trans hwhole.symm) hr hprefix
      (fun _ => horder.before_prefix hm hmq) hclear.front hclear.between
    rw [← h.selected_eq] at htextIff
    constructor
    · rintro ⟨doc', hdoc', hbracketed⟩
      rw [hstart] at hdoc'
      cases hdoc'
      obtain ⟨hbS, hbefore⟩ := htextIff.mp (htext.symm.trans hbracketed.text)
      refine ⟨fun m' hm' => ?_, hbefore, hb.mp hbS⟩
      rw [hm] at hm'
      cases hm'
      exact hkind
    · rintro ⟨-, hq, hfront⟩
      refine ⟨t', hstart, hclear.bracketed ?_ ⟨t, htree, unmark_put hput⟩⟩
      exact htext.trans (htextIff.mpr ⟨hb.mpr hfront, hq⟩)

/-- A mark in the other one is as one before it. -/
theorem mark_in_mark (o : ℕ) (r : List Char) :
    MARK_SELECTION_END.take o ++ (MARK_SELECTION_START ++ (MARK_SELECTION_END.drop o ++ r)) =
      MARK_SELECTION_START ++ (MARK_SELECTION_END ++ r) := by
  have hlength : min o 5 + 5 + (5 - o) = 5 + 5 := by omega
  rw [MARK_SELECTION_END, MARK_SELECTION_START, List.take_replicate, List.drop_replicate,
    ← List.append_assoc, ← List.append_assoc, ← List.append_assoc,
    List.replicate_append_replicate, List.replicate_append_replicate,
    List.replicate_append_replicate, hlength]

/-- Where the mark for the end comes before the element in which the start is, the start is found
in the mark, or nowhere. -/
theorem bracketed_front_iff (h : Selection doc range) (hclear : Unmarked doc range) {g : List ℕ}
    {k i : ℕ} {cdata : Bool} {data : List Char}
    (htext : doc.at? (g ++ [k, i]) = some (text cdata data))
    (hend : range.endContainer = g ++ [k, i]) (ho : range.endOffset = 0)
    (hput : doc.update (put MARK_SELECTION_END k) g = some t)
    (hinside : g ++ [k] <+: range.startContainer) :
    (∃ doc', markStart t range.startContainer range.startOffset = some doc' ∧
        Bracketed doc range doc') ↔
      range.startContainer = g ++ [k] ∧ range.startOffset ≤ MARK_SELECTION_END.length ∧
        NoTextBefore doc (g ++ [k, i]) := by
  obtain ⟨name, cs, name', cs', hg, hk, hi⟩ := at?_parents htext
  obtain ⟨s, hs⟩ := hinside
  have hmarkedAt : t.at? g = some (element name
      (cs.take k ++ text false MARK_SELECTION_END :: cs.drop k)) := at?_update hput hg rfl
  have hkLt : k < cs.length := (List.getElem?_eq_some_iff.mp hk).1
  have hmark : (cs.take k ++ text false MARK_SELECTION_END :: cs.drop k)[k]? =
      some (text false MARK_SELECTION_END) := by
    rw [List.getElem?_append_right (by simp), List.length_take, min_eq_left hkLt.le, Nat.sub_self]
    rfl
  have hnode : t.at? (g ++ [k]) = some (text false MARK_SELECTION_END) :=
    at?_append.mpr ⟨_, hmarkedAt, at?_cons.mpr ⟨_, hmark, rfl⟩⟩
  cases s with
  | cons j s =>
    -- in the mark there is no node
    have hnone : t.at? range.startContainer = none := by
      rw [← hs, Option.eq_none_iff_forall_ne_some]
      intro m hm
      obtain ⟨m', hm', hm⟩ := at?_append.mp hm
      obtain rfl := Option.some.inj (hnode.symm.trans hm')
      obtain ⟨c, hc, -⟩ := at?_cons.mp hm
      cases hc
    refine iff_of_false (by simp [markStart, markAt, hnone]) fun hright => ?_
    have hlength := congrArg List.length (hs.trans hright.1)
    simp at hlength
  | nil =>
    rw [List.append_nil] at hs
    have hnotLast : isLastChild t (g ++ [k]) = false := by
      rw [Bool.eq_false_iff, Ne, isLastChild_concat hmarkedAt]
      simp [childNodes]
      omega
    have hstart : markStart t (g ++ [k]) range.startOffset =
        t.update (put MARK_SELECTION_START range.startOffset) (g ++ [k]) :=
      markAt_here hnode fun cdata data _ => by rw [hnotLast]; simp
    rw [hs] at hstart
    have hbefore : t.before g k = doc.before g k :=
      (put_notAfter hput (notAfter_refl g k) hg hkLt.le).1
    have hlow : doc.before g k <+: doc.before range.startContainer range.startOffset := by
      have hle := (notAfter_refl (g ++ [k]) range.startOffset).front.before_prefix hg
        (at?_parent hg hk)
      rwa [hs] at hle
    have hfront : NoTextBefore doc (g ++ [k, i]) ↔
        doc.before g k = doc.before range.startContainer range.startOffset ∧
          ∃ y, (∀ c ∈ y, c = ZWSP) ∧ doc.before g k =
            doc.before range.startContainer range.startOffset ++ selected doc range ++ y := by
      rw [← before_front htext, ← ho, ← hend, h.selected_eq]
      constructor
      · intro heq
        -- the start is between two boundaries with the same text before them
        have hhigh : doc.before range.startContainer range.startOffset <+: doc.before g k :=
          ⟨_, heq.symm⟩
        exact ⟨hlow.eq_of_length_le hhigh.length_le, [], by simp, by rw [heq, List.append_nil]⟩
      · rintro ⟨heq, y, -, hy⟩
        rw [heq, List.append_assoc, List.self_eq_append_right, List.append_eq_nil_iff] at hy
        rw [heq, hy.1, List.append_nil]
    have hmarks : doc.before g k ++ (MARK_SELECTION_END ++ doc.after g k) = t.allText := by
      rw [allText_put hput, List.append_assoc]
    have hwhole : doc.before range.startContainer range.startOffset ++
        (selected doc range ++ doc.after range.endContainer range.endOffset) = doc.allText := by
      obtain ⟨mE, hmE, -⟩ := h.finish
      rw [← List.append_assoc, ← h.selected_eq, before_append_after hmE]
    have htextIff := marked_text_iff ((before_append_after hg k).trans hwhole.symm) rfl hlow
      (fun heq => by rw [heq]) hclear.front hclear.between
    have htwo {t' : DomNode} (ht' : t.update (put MARK_SELECTION_START range.startOffset)
        range.startContainer = some t') : t'.allText =
          doc.before g k ++ MARK_SELECTION_START ++ (MARK_SELECTION_END ++ doc.after g k) := by
      rw [← hs] at ht'
      have hto : t.before (g ++ [k]) range.startOffset =
          doc.before g k ++ MARK_SELECTION_END.take range.startOffset := by
        rw [before_child hmarkedAt hmark, hbefore]
        rfl
      have hfrom : t.after (g ++ [k]) range.startOffset =
          MARK_SELECTION_END.drop range.startOffset ++ doc.after g k := by
        have hall := before_append_after hnode range.startOffset
        rw [hto, ← hmarks, List.append_assoc] at hall
        refine @List.append_cancel_left _ (MARK_SELECTION_END.take range.startOffset) _ _ ?_
        rw [List.append_cancel_left hall, ← List.append_assoc, List.take_append_drop]
      rw [allText_put ht', hto, hfrom]
      simp only [List.append_assoc]
      rw [mark_in_mark]
    constructor
    · rintro ⟨doc', hdoc', hbracketed⟩
      rw [hstart] at hdoc'
      obtain ⟨n, n', hn, hput'⟩ := update_at? hdoc'
      rw [← hs] at hn
      obtain rfl := Option.some.inj (hnode.symm.trans hn)
      refine ⟨hs.symm, ?_, hfront.mpr (htextIff.mp ((htwo hdoc').symm.trans hbracketed.text))⟩
      by_contra hlong
      rw [put, insertData, if_neg hlong] at hput'
      cases hput'
    · rintro ⟨-, hoffset, hnoText⟩
      obtain ⟨t', ht'⟩ := exists_update hnode (put_text hoffset MARK_SELECTION_START)
      rw [hs] at ht'
      refine ⟨t', hstart.trans ht',
        hclear.bracketed ?_ ⟨t, unmark_put ht', unmark_put hput⟩⟩
      exact (htwo ht').trans (htextIff.mpr (hfront.mp hnoText))

/-- A start that is the last text in its parent is not beside the element in which the end is. -/
theorem Selection.parent_ne (h : Selection doc range) {g : List ℕ} {k i : ℕ} {cdata : Bool}
    {data : List Char} (htext : doc.at? (g ++ [k, i]) = some (text cdata data))
    (hend : range.endContainer = g ++ [k, i]) (hbeside : Beside doc range.startContainer)
    (hlast : isLastChild doc range.startContainer = true) :
    g ≠ range.startContainer.dropLast ∧ range.endContainer ≠ range.startContainer.dropLast := by
  obtain ⟨g', k', i', hs⟩ := parents_of_body h.body ( commonAncestor_prefix _ _).1 hbeside
  obtain ⟨⟨cdata', data', hstart⟩, -⟩ := hbeside
  have hsplit : range.startContainer = (g' ++ [k']) ++ [i'] := by rw [hs]; simp
  rw [hs] at hstart
  obtain ⟨name', cs', nameS, csS, hg', hk', hi'⟩ := at?_parents hstart
  have hparent := at?_parent hg' hk'
  rw [hsplit, isLastChild_concat hparent] at hlast
  rw [hsplit, List.dropLast_concat, hend]
  constructor
  · rintro rfl
    obtain ⟨n, hn, hchild⟩ := at?_append.mp htext
    obtain rfl := Option.some.inj (hparent.symm.trans hn)
    obtain ⟨c, hc, hcm⟩ := at?_cons.mp hchild
    have horder := h.order
    rw [hsplit, hend, isBefore_append] at horder
    have hkLt : k < csS.length := (List.getElem?_eq_some_iff.mp hc).1
    have hle : i' ≤ k := horder.elim Nat.le_of_lt fun h => h.1.le
    have hsame : i' = k := by
      change i' + 1 = csS.length at hlast
      omega
    subst hsame
    obtain rfl := Option.some.inj (hi'.symm.trans hc)
    obtain ⟨c, hc, -⟩ := at?_cons.mp hcm
    cases hc
  · intro heq
    rw [heq, hparent] at htext
    cases htext

/-- What is asked of the end alone. -/
theorem bracketable_iff (hclear : Unmarked doc range)
    (hfinish : ∀ m ∈ doc.at? range.endContainer, m.isComment = false) {q : List ℕ} {moved : Prop}
    (hfront : Beside doc range.startContainer → isLastChild doc range.startContainer = true →
      (q ≠ range.startContainer.dropLast ↔ range.endContainer ≠ range.startContainer.dropLast))
    (hmoved : moved ↔ (Beside doc range.endContainer → range.endOffset = 0 →
        NoTextBefore doc range.endContainer ∧
          (range.endContainer.dropLast <+: range.startContainer →
            range.startContainer = range.endContainer.dropLast ∧
              range.startOffset ≤ MARK_SELECTION_END.length)) ∧
      (Beside doc range.endContainer → 0 < range.endOffset →
        (∀ m ∈ doc.at? range.endContainer, range.endOffset = m.length) →
          NoTextBehind doc range.endContainer)) :
    ((∀ m ∈ doc.at? range.startContainer, m.isComment = false) ∧ moved ∧
        (Beside doc range.startContainer → range.startOffset = 0 →
          isLastChild doc range.startContainer = true → q ≠ range.startContainer.dropLast →
            NoTextBefore doc range.startContainer)) ↔
      Bracketable doc range := by
  constructor
  · rintro ⟨hstart, hmv, hs⟩
    exact ⟨hclear, hstart, hfinish, (hmoved.mp hmv).1, (hmoved.mp hmv).2,
      fun hb ho hl hne => hs hb ho hl ((hfront hb hl).mpr hne)⟩
  · intro h
    exact ⟨h.start, hmoved.mpr ⟨h.endFront, h.endBehind⟩,
      fun hb ho hl hne => h.startFront hb ho hl ((hfront hb hl).mp hne)⟩

theorem addSelectionMarkers_iff (h : Selection doc range) :
    (∃ doc', addSelectionMarkers doc range = some doc' ∧ Bracketed doc range doc') ↔
      Bracketable doc range := by
  by_cases hclear : Unmarked doc range
  swap
  · refine iff_of_false ?_ fun hright => hclear hright.unmarked
    rintro ⟨doc', -, hbracketed⟩
    exact hclear hbracketed.unmarked
  obtain ⟨m, hm, ho⟩ := h.finish
  rw [addSelectionMarkers, if_pos h.body]
  cases hkind : m.isComment with
  | true =>
    have hnone : markEnd doc range.endContainer range.endOffset = none := markAt_comment hm hkind
    refine iff_of_false (by simp [hnone]) fun hright => ?_
    rw [hright.finish m hm] at hkind
    cases hkind
  | false =>
    have hfinish : ∀ m ∈ doc.at? range.endContainer, m.isComment = false := by
      intro m' hm'
      rw [hm] at hm'
      cases hm'
      exact hkind
    have hparents : Beside doc range.endContainer → ∃ g k i, range.endContainer = g ++ [k, i] :=
      parents_of_body h.body ( commonAncestor_prefix _ _).2
    rcases markEnd_cases (o := range.endOffset) hm hparents with
      ⟨heq, hin⟩ | ⟨g, k, i, cdata, data, hend, rfl, hbeside, hrange, heq⟩
    · obtain ⟨m', hm'⟩ := exists_put MARK_SELECTION_END hkind ho
      obtain ⟨t, ht⟩ := exists_update hm hm'
      rw [heq, ht, Option.bind_some, bracketed_iff h hclear ht h.order.notAfter]
      refine bracketable_iff hclear hfinish (fun _ _ => Iff.rfl)
        (iff_of_true ⟨[], by simp, (List.append_nil _).symm⟩ ⟨?_, ?_⟩)
      · intro hb hzero
        have hpos := (hin hb).1
        omega
      · intro hb _ hlast
        have hlt := (hin hb).2
        have hlength := hlast m hm
        omega
    · have htext := hm
      rw [hend] at htext
      obtain ⟨name, cs, name', cs', hg, hk, hi⟩ := at?_parents htext
      have hparent : range.endContainer.dropLast = g ++ [k] := by rw [hend]; simp
      have hput (j : ℕ) : ∃ t, doc.update (put MARK_SELECTION_END j) g = some t :=
        exists_update hg rfl
      have hne (hb : Beside doc range.startContainer)
          (hl : isLastChild doc range.startContainer = true) :
          g ≠ range.startContainer.dropLast ↔
            range.endContainer ≠ range.startContainer.dropLast :=
        iff_of_true (h.parent_ne htext hend hb hl).1 (h.parent_ne htext hend hb hl).2
      by_cases hzero : range.endOffset = 0
      · obtain ⟨t, ht⟩ := hput k
        rw [if_pos hzero, ht] at heq
        rw [heq, Option.bind_some]
        by_cases hinside : g ++ [k] <+: range.startContainer
        · rw [bracketed_front_iff h hclear htext hend hzero ht hinside]
          constructor
          · rintro ⟨hstart, hoffset, hno⟩
            have helement := at?_parent hg hk
            rw [← hstart] at helement
            refine ⟨hclear, ?_, hfinish, ?_, ?_, ?_⟩
            · intro m' hm'
              rw [helement] at hm'
              cases hm'
              rfl
            · rw [hparent, hend]
              exact fun _ _ => ⟨hno, fun _ => ⟨hstart, hoffset⟩⟩
            · intro _ hpos
              omega
            · rintro ⟨⟨cdata', data', hstartText⟩, -⟩
              rw [helement] at hstartText
              cases hstartText
          · intro hright
            obtain ⟨hno, hmoved⟩ := hright.endFront hbeside hzero
            rw [hparent] at hmoved
            rw [← hend]
            exact ⟨(hmoved hinside).1, (hmoved hinside).2, hno⟩
        · have horder := h.order.notAfter
          rw [hend] at horder
          rw [bracketed_iff h hclear ht (horder.before_node hinside)]
          refine bracketable_iff hclear hfinish hne ?_
          rw [hend, hzero, passes_front htext, ← hend, hparent]
          constructor
          · exact fun hno => ⟨fun _ _ => ⟨hno, fun hp => absurd hp hinside⟩,
              fun _ hpos => absurd hpos (lt_irrefl 0)⟩
          · exact fun hall => (hall.1 hbeside rfl).1
      · obtain ⟨t, ht⟩ := hput (k + 1)
        rw [if_neg hzero, ht] at heq
        rw [heq, Option.bind_some]
        have hlength : range.endOffset = data.length := by
          have : range.endOffset ≤ data.length := ho
          omega
        have horder := h.order.notAfter
        rw [hend] at horder
        rw [bracketed_iff h hclear ht horder.behind]
        refine bracketable_iff hclear hfinish hne ?_
        rw [hend, hlength, passes_behind htext, ← hend]
        constructor
        · exact fun hno => ⟨fun _ hz => absurd (hlength.trans hz) hzero, fun _ _ _ => hno⟩
        · intro hall
          refine hall.2 hbeside (by omega) fun m' hm' => ?_
          rw [hm] at hm'
          cases hm'
          rfl

/-- A paragraph in a body. -/
def page (childNodes : List DomNode) : DomNode :=
  element "html" [element "head" [], element "body" [element "p" childNodes]]

/-- In `<p>ab<b>cd</b></p>` the mark for an end behind the `d` goes behind the `b`. -/
theorem addSelectionMarkers_behind :
    ∃ doc', addSelectionMarkers (page [text false ['a', 'b'], element "b" [text false ['c', 'd']]])
        ⟨[1, 0, 0], 1, [1, 0, 1, 0], 2⟩ = some doc' ∧
      Bracketed (page [text false ['a', 'b'], element "b" [text false ['c', 'd']]])
        ⟨[1, 0, 0], 1, [1, 0, 1, 0], 2⟩ doc' := by
  have hstart : (page [text false ['a', 'b'], element "b" [text false ['c', 'd']]]).at? [1, 0, 0] =
      some (text false ['a', 'b']) := rfl
  have hend : (page [text false ['a', 'b'], element "b" [text false ['c', 'd']]]).at?
      [1, 0, 1, 0] = some (text false ['c', 'd']) := rfl
  refine (addSelectionMarkers_iff ?_).mpr ?_
  · exact ⟨⟨_, hstart, by decide⟩, ⟨_, hend, by decide⟩, by simp [IsBefore], by decide +kernel⟩
  · refine ⟨⟨⟨by decide +kernel, by decide +kernel⟩, ⟨by decide +kernel, by decide +kernel⟩,
      by decide +kernel⟩, ?_, ?_, ?_, ?_, ?_⟩
    · rintro m hm
      cases hm
      rfl
    · rintro m hm
      cases hm
      rfl
    · rintro - hzero
      cases hzero
    · intro _ _ _
      exact (noTextBehind_iff (g := [1, 0]) (k := 1) (i := 0) rfl).mpr (by simp)
    · rintro - hzero
      cases hzero

/-- In `<p><b>a</b>b</p>` the mark for an end before the last `b` goes before the paragraph. Then
the start is looked for in it. -/
theorem addSelectionMarkers_throws :
    Selection (page [element "b" [text false ['a']], text false ['b']])
        ⟨[1, 0, 0, 0], 0, [1, 0, 1], 0⟩ ∧
      addSelectionMarkers (page [element "b" [text false ['a']], text false ['b']])
        ⟨[1, 0, 0, 0], 0, [1, 0, 1], 0⟩ = none := by
  have hstart : (page [element "b" [text false ['a']], text false ['b']]).at? [1, 0, 0, 0] =
      some (text false ['a']) := rfl
  have hend : (page [element "b" [text false ['a']], text false ['b']]).at? [1, 0, 1] =
      some (text false ['b']) := rfl
  refine ⟨⟨⟨_, hstart, by decide⟩, ⟨_, hend, by decide⟩, by simp [IsBefore], by decide +kernel⟩, ?_⟩
  refine Option.isNone_iff_eq_none.mp ?_
  decide +kernel

end Kompozer.Composer

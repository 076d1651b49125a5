import Kompozer.Composer.Wrapping

/-! A page in which some of the notes of an older page are shown inside elements of the editor. All
other nodes are as they were, up to an element in the place of each of these notes. -/

namespace Kompozer.Composer

open Dom NsResult

/-! ### One note -/

namespace Kind

/-- The picture in front of a note. -/
def ofImage (src : String) : Kind :=
  element none [("_moz_dummy", chars "true"), ("src", chars src)]

/-- The element around a note. -/
def ofSpan (text : DOMString) : Kind :=
  element (some NVU_NS)
    [("xmlns", NVU_NS), ("title", text.map fun c => if c = 10 then 32 else c)]

@[simp] theorem isNote_ofImage (src : String) : (ofImage src).isNote = false := rfl
@[simp] theorem isNvu_ofImage (src : String) : (ofImage src).isNvu = false := rfl
@[simp] theorem isNote_ofSpan (text : DOMString) : (ofSpan text).isNote = false := rfl
@[simp] theorem isNvu_ofSpan (text : DOMString) : (ofSpan text).isNvu = true := by
  simp [ofSpan, isNvu]

@[simp] theorem getAttribute_ofSpan (text : DOMString) :
    (ofSpan text).getAttribute "xmlns" = some NVU_NS := rfl

end Kind

namespace Page

variable {pg : Page} {p c s i : NodeId} {A B : List NodeId}

/-- Only notes inside a node are accepted. -/
theorem note_of_acceptNote (h : pg.acceptNote c = true) :
    (pg.kind c).isNote = true ∧ ∃ p, pg.doc.mParent c = some p := by
  rw [acceptNote, Bool.and_eq_true] at h
  refine ⟨h.1, ?_⟩
  cases hp : pg.doc.mParent c with
  | none => simp [hp] at h
  | some p => exact ⟨p, rfl⟩

/-- What the nodes are when the element for a note and its picture are there. -/
def dressed (pg : Page) (anchor n : NodeId) : Kind :=
  if n = pg.doc.fresh + 1 then Kind.ofSpan (pg.span anchor).2.2 else
    if n = pg.doc.fresh then Kind.ofImage (pg.span anchor).2.1 else pg.kind n

theorem newNodes_eq (anchor : NodeId) : pg.newNodes anchor =
    (⟨twoMore pg.doc (pg.span anchor).1, pg.dressed anchor⟩, pg.doc.fresh, pg.doc.fresh + 1) := by
  have hfresh : (pg.doc.create (.element "img" [])).fresh = pg.doc.fresh + 1 := rfl
  simp only [newNodes, createElement, createElementNS, setAttribute, twoMore, hfresh,
    Prod.mk.injEq, mk.injEq, true_and, and_true]
  funext n
  simp only [dressed, Function.update_apply]
  by_cases hs : n = pg.doc.fresh + 1
  · simp [hs, Kind.setAttribute, Kind.ofSpan]
  · by_cases hi : n = pg.doc.fresh
    · subst hi
      simp [Kind.setAttribute, Kind.ofImage]
    · simp [hs, hi]

theorem insertBefore_eq {doc : Document} {parent child : NodeId} {ref : Option NodeId}
    (h : pg.doc.insertBefore parent child ref = (.ok, doc)) :
    pg.insertBefore parent child ref = some { pg with doc := doc } := by
  rw [insertBefore, h]
  rfl

theorem removeChild_eq {doc : Document} {parent child : NodeId}
    (h : pg.doc.removeChild parent child = (.ok, doc)) :
    pg.removeChild parent child = some { pg with doc := doc } := by
  rw [removeChild, h]
  rfl

/-- A note is put into an element. -/
theorem exists_wrap (hd : pg.doc.WellFormed) (hp : pg.doc.children p = A ++ c :: B)
    (hc : pg.doc.children c = []) : ∃ doc, Enclosed pg.doc p c A B (pg.span c).1 doc ∧
      pg.wrap c = some ⟨doc, pg.dressed c⟩ := by
  have hcp : pg.doc.mParent c = some p := (hd.parent_iff p c).mpr (by simp [hp])
  obtain ⟨d₃, d₄, d₅, h₃, h₄, h₅, henc⟩ := exists_enclosed hd hp hc (pg.span c).1
  refine ⟨d₅, henc, ?_⟩
  rw [Document.appendChild] at h₄ h₅
  simp only [wrap, newNodes_eq, mParent_twoMore hd, hcp, Option.bind_eq_bind, Option.bind_some]
  rw [insertBefore_eq h₃, Option.bind_some, appendChild, insertBefore_eq h₄, Option.bind_some,
    appendChild, insertBefore_eq h₅]

/-- A note is taken out of its element. -/
theorem exists_unwrap (hd : pg.doc.WellFormed) (hp : pg.doc.children p = A ++ s :: B)
    (hs : pg.doc.children s = [i, c]) (hc : pg.doc.children c = []) :
    ∃ doc, Released pg.doc p c s i A B doc ∧ pg.unwrap s = some ⟨doc, pg.kind⟩ := by
  obtain ⟨d₁, d₂, h₁, h₂, hrel⟩ := exists_released hd hp hs hc
  refine ⟨d₂, hrel, ?_⟩
  have hsp : pg.doc.mParent s = some p := (hd.parent_iff p s).mpr (by simp [hp])
  have hi : pg.doc.getNextSibling i = some c :=
    Document.getNextSibling_eq hd (p := s) (A := []) (B := [c]) hs
  have hn : pg.doc.getNextSibling c = none :=
    Document.getNextSibling_eq hd (p := s) (A := [i]) (B := []) hs
  simp only [unwrap, hs, hsp, hi, List.head?_cons, Option.bind_eq_bind, Option.bind_some,
    List.length_cons, List.length_nil, moveOut, hn]
  rw [insertBefore_eq h₁]
  exact removeChild_eq h₂

end Page

/-! ### Many notes -/

/-- The notes that are shown, each with its picture and its element. -/
abbrev Shows := NodeId → Option (NodeId × NodeId)

/-- The node in the place of a node. -/
def Shows.outer (S : Shows) (n : NodeId) : NodeId :=
  match S n with
  | some (_, span) => span
  | none => n

theorem Shows.outer_none {S : Shows} {n : NodeId} (h : S n = none) : S.outer n = n := by
  rw [outer, h]

theorem Shows.outer_some {S : Shows} {n i s : NodeId} (h : S n = some (i, s)) : S.outer n = s := by
  rw [outer, h]

theorem Shows.outer_empty : Shows.outer (fun _ => none) = id := rfl

/-- A page with well-formed contents. -/
structure Page.WellFormed (pg : Page) : Prop where
  doc : pg.doc.WellFormed
  isText : ∀ n, (pg.kind n).isNote = true → pg.doc.isText n = true

/-- The page `pg'` is the page `pg` with the notes of `S` inside elements of the editor. -/
structure Wrapped (pg : Page) (S : Shows) (pg' : Page) : Prop where
  wellFormed : pg'.doc.WellFormed
  fresh : pg.doc.fresh ≤ pg'.doc.fresh
  body : ∀ n < pg.doc.fresh,
    pg'.doc.body n = (pg.doc.body n).withChildren ((pg.doc.children n).map S.outer)
  parent : ∀ n < pg.doc.fresh, S n = none → pg'.doc.mParent n = pg.doc.mParent n
  kind : ∀ n < pg.doc.fresh, pg'.kind n = pg.kind n
  note : ∀ c i s, S c = some (i, s) → (pg.kind c).isNote = true ∧ (pg.doc.mParent c).isSome
  image : ∀ c i s, S c = some (i, s) → pg.doc.fresh ≤ i ∧ pg'.doc.children i = [] ∧
    ∃ src, pg'.kind i = .ofImage src
  span : ∀ c i s, S c = some (i, s) → pg.doc.fresh ≤ s ∧ pg'.doc.children s = [i, c] ∧
    ∃ text, pg'.kind s = .ofSpan text

namespace Wrapped

variable {pg pg' : Page} {S : Shows} {c i s p : NodeId} {A B : List NodeId}

theorem refl (hpg : pg.WellFormed) : Wrapped pg (fun _ => none) pg where
  wellFormed := hpg.doc
  fresh := Nat.le_refl _
  body n _ := by
    rw [Shows.outer_empty, List.map_id]
    exact (Body.withChildren_children _).symm
  parent _ _ _ := rfl
  kind _ _ := rfl
  note _ _ _ h := by cases h
  image _ _ _ h := by cases h
  span _ _ _ h := by cases h

theorem children (h : Wrapped pg S pg') {n : NodeId} (hn : n < pg.doc.fresh) :
    pg'.doc.children n = (pg.doc.children n).map S.outer := by
  rw [Document.children, h.body n hn]
  cases ht : pg.doc.isText n with
  | false => exact Body.children_withChildren ht _
  | true =>
    rw [Document.children_of_isText ht]
    cases hb : pg.doc.body n with
    | text t => rfl
    | element tag cs => simp [Document.isText, hb, Body.isText] at ht

/-- A note has no children. -/
theorem note_children (h : Wrapped pg S pg') (hpg : pg.WellFormed) (hc : c < pg.doc.fresh)
    (hnote : (pg.kind c).isNote = true) : pg'.doc.children c = [] := by
  rw [h.children hc, Document.children_of_isText (hpg.isText c hnote), List.map_nil]

theorem map_outer_update {v : Option (NodeId × NodeId)} {cs : List NodeId} (hc : c ∉ cs) :
    cs.map (Shows.outer (Function.update S c v)) = cs.map S.outer := by
  apply List.map_congr_left
  intro x hx
  have hxc : x ≠ c := by
    rintro rfl
    exact hc hx
  rw [Shows.outer, Shows.outer, Function.update_of_ne hxc]

/-- The children of a page after what is shown has changed at one of them. -/
theorem body_update (hpg : pg.WellFormed) {v : Option (NodeId × NodeId)} {n q : NodeId}
    (hq : pg.doc.mParent c = some q) (hn : n ≠ q) :
    (pg.doc.children n).map (Shows.outer (Function.update S c v)) =
      (pg.doc.children n).map S.outer := by
  apply map_outer_update
  intro hc
  rw [← hpg.doc.parent_iff, hq, Option.some.injEq] at hc
  exact hn hc.symm

/-- One more note is shown. -/
theorem wrap (h : Wrapped pg S pg') (hpg : pg.WellFormed) (hnone : S c = none)
    (hnote : (pg.kind c).isNote = true) (hp : pg.doc.mParent c = some p) :
    ∃ pg'' s i, pg'.wrap c = some pg'' ∧
      Wrapped pg (Function.update S c (some (i, s))) pg'' := by
  have hpf := hpg.doc.parent_lt hp
  have hcf := hpg.doc.child_lt hp
  obtain ⟨A, B, hAB, hcA, hcB⟩ := hpg.doc.exists_cut hp
  have hch : pg'.doc.children p = A.map S.outer ++ c :: B.map S.outer := by
    rw [h.children hpf, hAB, List.map_append, List.map_cons, Shows.outer_none hnone]
  obtain ⟨doc, henc, hwrap⟩ := Page.exists_wrap h.wellFormed hch (h.note_children hpg hcf hnote)
  have hold : ∀ n < pg'.doc.fresh, n ≠ pg'.doc.fresh ∧ n ≠ pg'.doc.fresh + 1 := fun n hn =>
    ⟨Nat.ne_of_lt hn, Nat.ne_of_lt (Nat.lt_succ_of_lt hn)⟩
  have hkind : ∀ n < pg'.doc.fresh, pg'.dressed c n = pg'.kind n := by
    intro n hn
    rw [Page.dressed, if_neg (hold n hn).2, if_neg (hold n hn).1]
  have hkeep : ∀ n < pg'.doc.fresh, n ≠ p → doc.body n = pg'.doc.body n := by
    intro n hn hnp
    rw [henc.body, if_neg hnp, if_neg (hold n hn).2, if_neg (hold n hn).1]
  have hnew : ∀ n, pg.doc.fresh ≤ n → n ≠ p := fun n hn => Nat.ne_of_gt (Nat.lt_of_lt_of_le hpf hn)
  refine ⟨_, pg'.doc.fresh + 1, pg'.doc.fresh, hwrap, henc.wellFormed, ?_, ?_, ?_, ?_, ?_, ?_, ?_⟩
  · rw [henc.fresh]
    exact Nat.le_add_right_of_le h.fresh
  · intro n hn
    have hn' := Nat.lt_of_lt_of_le hn h.fresh
    by_cases hnp : n = p
    · subst hnp
      rw [henc.body, if_pos rfl, h.body n hn, Body.withChildren_withChildren, hAB, List.map_append,
        List.map_cons, map_outer_update hcA, map_outer_update hcB,
        Shows.outer_some (Function.update_self ..)]
    · rw [hkeep n hn' hnp, h.body n hn, body_update hpg hp hnp]
  · intro n hn hnone'
    have hn' := Nat.lt_of_lt_of_le hn h.fresh
    have hnc : n ≠ c := by
      rintro rfl
      rw [Function.update_self] at hnone'
      cases hnone'
    rw [Function.update_of_ne hnc] at hnone'
    rw [henc.parent, if_neg hnc, if_neg (hold n hn').1, if_neg (hold n hn').2, h.parent n hn hnone']
  · intro n hn
    rw [← h.kind n hn]
    exact hkind n (Nat.lt_of_lt_of_le hn h.fresh)
  · intro c' i s hc'
    by_cases hcc : c' = c
    · rw [hcc, hp]
      exact ⟨hnote, rfl⟩
    · rw [Function.update_of_ne hcc] at hc'
      exact h.note c' i s hc'
  · intro c' i s hc'
    by_cases hcc : c' = c
    · rw [hcc, Function.update_self, Option.some.injEq, Prod.mk.injEq] at hc'
      obtain ⟨rfl, rfl⟩ := hc'
      have hne : pg'.doc.fresh ≠ pg'.doc.fresh + 1 := Nat.ne_of_lt (Nat.lt_succ_self _)
      refine ⟨h.fresh, ?_, (pg'.span c).2.1, ?_⟩
      · rw [Document.children, henc.body, if_neg (hnew _ h.fresh), if_neg hne, if_pos rfl]
        rfl
      · show pg'.dressed c pg'.doc.fresh = _
        rw [Page.dressed, if_neg hne, if_pos rfl]
    · rw [Function.update_of_ne hcc] at hc'
      obtain ⟨hi, hich, src, hkindi⟩ := h.image c' i s hc'
      have hif : i < pg'.doc.fresh := h.wellFormed.child_lt
        ((h.wellFormed.parent_iff s i).mpr (by simp [(h.span c' i s hc').2.1]))
      refine ⟨hi, ?_, src, (hkind i hif).trans hkindi⟩
      rw [Document.children, hkeep i hif (hnew i hi)]
      exact hich
  · intro c' i s hc'
    by_cases hcc : c' = c
    · rw [hcc, Function.update_self, Option.some.injEq, Prod.mk.injEq] at hc'
      obtain ⟨rfl, rfl⟩ := hc'
      refine ⟨Nat.le_succ_of_le h.fresh, ?_, (pg'.span c).2.2, ?_⟩
      · rw [Document.children, henc.body, if_neg (hnew _ (Nat.le_succ_of_le h.fresh)), if_pos rfl,
          hcc]
        rfl
      · show pg'.dressed c (pg'.doc.fresh + 1) = _
        rw [Page.dressed, if_pos rfl]
    · rw [Function.update_of_ne hcc] at hc'
      obtain ⟨hs, hsch, text, hkinds⟩ := h.span c' i s hc'
      have hsf : s < pg'.doc.fresh := h.wellFormed.parent_lt
        ((h.wellFormed.parent_iff s i).mpr (by simp [hsch]))
      refine ⟨hs, ?_, text, (hkind s hsf).trans hkinds⟩
      rw [Document.children, hkeep s hsf (hnew s hs)]
      exact hsch

/-- Different notes have different elements and pictures. -/
theorem span_ne (h : Wrapped pg S pg') {c' i' s' : NodeId} (hc : S c = some (i, s))
    (hc' : S c' = some (i', s')) (hne : c' ≠ c) : s' ≠ s ∧ i' ≠ s := by
  have hs := (h.span c i s hc).2.1
  constructor
  · rintro rfl
    have hs' := (h.span c' i' s' hc').2.1
    rw [hs] at hs'
    simp only [List.cons.injEq, and_true] at hs'
    exact hne hs'.2.symm
  · rintro rfl
    have hi' := (h.image c' i' s' hc').2.1
    rw [hs] at hi'
    cases hi'

/-- A note is no longer shown. -/
theorem unwrap (h : Wrapped pg S pg') (hpg : pg.WellFormed) (hc : S c = some (i, s)) :
    ∃ pg'', pg'.unwrap s = some pg'' ∧ Wrapped pg (Function.update S c none) pg'' := by
  obtain ⟨hnote, hp⟩ := h.note c i s hc
  obtain ⟨p, hp⟩ := Option.isSome_iff_exists.mp hp
  have hpf := hpg.doc.parent_lt hp
  have hcf := hpg.doc.child_lt hp
  obtain ⟨A, B, hAB, hcA, hcB⟩ := hpg.doc.exists_cut hp
  obtain ⟨hs, hsch, text, hkinds⟩ := h.span c i s hc
  have hch : pg'.doc.children p = A.map S.outer ++ s :: B.map S.outer := by
    rw [h.children hpf, hAB, List.map_append, List.map_cons, Shows.outer_some hc]
  obtain ⟨doc, hrel, hunwrap⟩ := Page.exists_unwrap h.wellFormed hch hsch
    (h.note_children hpg hcf hnote)
  have hnew : ∀ n, pg.doc.fresh ≤ n → n ≠ p := fun n hn => Nat.ne_of_gt (Nat.lt_of_lt_of_le hpf hn)
  have hold : ∀ n < pg.doc.fresh, n ≠ s := fun n hn => Nat.ne_of_lt (Nat.lt_of_lt_of_le hn hs)
  have hkeep : ∀ n, n ≠ s → n ≠ p → doc.body n = pg'.doc.body n := by
    intro n hns hnp
    rw [hrel.body, if_neg hnp, if_neg hns]
  refine ⟨_, hunwrap, hrel.wellFormed, ?_, ?_, ?_, ?_, ?_, ?_, ?_⟩
  · rw [hrel.fresh]
    exact h.fresh
  · intro n hn
    by_cases hnp : n = p
    · subst hnp
      rw [hrel.body, if_pos rfl, h.body n hn, Body.withChildren_withChildren, hAB, List.map_append,
        List.map_cons, map_outer_update hcA, map_outer_update hcB,
        Shows.outer_none (Function.update_self ..)]
    · rw [hkeep n (hold n hn) hnp, h.body n hn, body_update hpg hp hnp]
  · intro n hn hnone
    rw [hrel.parent, if_neg (hold n hn)]
    by_cases hnc : n = c
    · rw [if_pos hnc, hnc, hp]
    · rw [Function.update_of_ne hnc] at hnone
      rw [if_neg hnc, h.parent n hn hnone]
  · exact h.kind
  · intro c' i' s' hc'
    by_cases hcc : c' = c
    · rw [hcc, Function.update_self] at hc'
      cases hc'
    · rw [Function.update_of_ne hcc] at hc'
      exact h.note c' i' s' hc'
  · intro c' i' s' hc'
    by_cases hcc : c' = c
    · rw [hcc, Function.update_self] at hc'
      cases hc'
    · rw [Function.update_of_ne hcc] at hc'
      obtain ⟨hi, hich, hkindi⟩ := h.image c' i' s' hc'
      refine ⟨hi, ?_, hkindi⟩
      rw [Document.children, hkeep i' (h.span_ne hc hc' hcc).2 (hnew i' hi)]
      exact hich
  · intro c' i' s' hc'
    by_cases hcc : c' = c
    · rw [hcc, Function.update_self] at hc'
      cases hc'
    · rw [Function.update_of_ne hcc] at hc'
      obtain ⟨hs', hsch', hkinds'⟩ := h.span c' i' s' hc'
      refine ⟨hs', ?_, hkinds'⟩
      rw [Document.children, hkeep s' (h.span_ne hc hc' hcc).1 (hnew s' hs')]
      exact hsch'

end Wrapped

end Kompozer.Composer

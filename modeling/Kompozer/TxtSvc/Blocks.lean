import Kompozer.TxtSvc.Document

/-! The walks of the text services document. The walk to the front ends on the first text node of a
block, the walk to the back on the first text node of the next block, and from there the walk to the
front leads to the block before. -/

namespace Kompozer.TxtSvc

open Zones

variable {p q s y : Place nsIContent} {x : nsIContent} {ps bk l r : List (Place nsIContent)}
  {prev : Option nsIContent} {it : Iterator}

/-- The blocks of a list of nodes. -/
def blocks (nodes : List nsIContent) : List (List nsIContent) :=
  zones IsTextNode IsBlockNode HasSameBlockNodeParent nodes

/-- The text nodes of its block behind a text node. -/
def blockBody (x : nsIContent) (nodes : List nsIContent) : List nsIContent :=
  body IsTextNode IsBlockNode HasSameBlockNodeParent x nodes

/-! ### The walk to the front -/

theorem currentBlockLoop_text (hp : IsTextNode p.node = true) :
    currentBlockLoop none (p :: ps) = currentBlockLoop (some p) ps := by
  rw [currentBlockLoop, if_pos hp]
  rfl

theorem currentBlockLoop_same (hp : IsTextNode p.node = true) :
    currentBlockLoop (some y) (p :: ps) =
      if HasSameBlockNodeParent p.node y.node then currentBlockLoop (some p) ps else some y := by
  rw [currentBlockLoop, if_pos hp]
  rfl

theorem currentBlockLoop_skip (hp : IsTextNode p.node = false) :
    currentBlockLoop none (p :: ps) = currentBlockLoop none ps := by
  rw [currentBlockLoop, if_neg (by simp [hp])]
  rfl

theorem currentBlockLoop_other (hp : IsTextNode p.node = false) :
    currentBlockLoop (some y) (p :: ps) =
      if IsBlockNode p.node then some y else currentBlockLoop (some y) ps := by
  rw [currentBlockLoop, if_neg (by simp [hp])]
  rfl

/-- The walk to the front ends on a text node. -/
theorem currentBlockLoop_isText (l : List (Place nsIContent))
    (hy : ∀ y ∈ it, IsTextNode y.node = true) (h : currentBlockLoop it l = some s) :
    IsTextNode s.node = true := by
  induction l generalizing it with
  | nil => exact hy s h
  | cons p ps ih =>
    rw [currentBlockLoop] at h
    split_ifs at h with hp
    · exact ih (by rintro _ ⟨⟩; exact hp) h
    · exact hy s h
    · exact hy s h
    · exact ih hy h

theorem exists_currentBlockLoop (y : Place nsIContent) (l : List (Place nsIContent)) :
    ∃ s, currentBlockLoop (some y) l = some s := by
  induction l generalizing y with
  | nil => exact ⟨y, rfl⟩
  | cons p ps ih =>
    rw [currentBlockLoop]
    split_ifs
    · exact ih p
    · exact ⟨y, rfl⟩
    · exact ⟨y, rfl⟩
    · exact ih y

/-- The first text node of a block. -/
def Heads (s : Place nsIContent) : Prop := currentBlockLoop none s.back = some s

theorem heads_iff (hs : IsTextNode s.node = true) :
    Heads s ↔ currentBlockLoop (some s) s.behind = some s := by
  rw [Heads, Place.back_eq, currentBlockLoop_text hs]

/-- Without a text node in front the walk stays where it is. -/
theorem currentBlockLoop_of_others (hl : ∀ p ∈ l, IsTextNode p.node = false) :
    currentBlockLoop (some y) l = some y := by
  induction l with
  | nil => rfl
  | cons p ps ih =>
    rw [currentBlockLoop_other (hl p List.mem_cons_self),
      ih fun q hq => hl q (List.mem_cons_of_mem _ hq), ite_self]

/-- The walk to the front ends on the first text node of a block. -/
theorem heads_of_loop (hl : ∀ l₁ z l₂, l = l₁ ++ z :: l₂ → z.behind = l₂)
    (hy : currentBlockLoop (some y) y.behind = currentBlockLoop (some y) l)
    (h : currentBlockLoop (some y) l = some s) : currentBlockLoop (some s) s.behind = some s := by
  induction l generalizing y with
  | nil =>
    obtain rfl := Option.some.inj h
    exact hy
  | cons p ps ih =>
    have hps : ∀ l₁ z l₂, ps = l₁ ++ z :: l₂ → z.behind = l₂ := fun l₁ z l₂ he =>
      hl (p :: l₁) z l₂ (by rw [he, List.cons_append])
    -- where the walk ends at `p`, `y` is the node it ends on
    have hstop (he : currentBlockLoop (some y) (p :: ps) = some y) :
        currentBlockLoop (some s) s.behind = some s := by
      obtain rfl := Option.some.inj (he.symm.trans h)
      exact hy.trans he
    cases hp : IsTextNode p.node with
    | true =>
      have he : currentBlockLoop (some y) (p :: ps) =
          if HasSameBlockNodeParent p.node y.node then currentBlockLoop (some p) ps else some y :=
        currentBlockLoop_same hp
      split_ifs at he with hs
      · rw [he] at h
        exact ih hps (by rw [hl [] p ps rfl]) h
      · exact hstop he
    | false =>
      have he : currentBlockLoop (some y) (p :: ps) =
          if IsBlockNode p.node then some y else currentBlockLoop (some y) ps :=
        currentBlockLoop_other hp
      split_ifs at he with hb
      · exact hstop he
      · rw [he] at h
        exact ih hps (hy.trans he) h

theorem heads_of_current (hp : IsTextNode p.node = true)
    (h : currentBlockLoop none p.back = some s) : IsTextNode s.node = true ∧ Heads s := by
  have hs := currentBlockLoop_isText _ (by simp) h
  refine ⟨hs, (heads_iff hs).mpr ?_⟩
  rw [Place.back_eq, currentBlockLoop_text hp] at h
  exact heads_of_loop (fun l₁ z l₂ he => Place.split_behind he) rfl h

/-! ### The walk to the back -/

/-- Walked back from here, a text node `x` is met before any block node, and its block begins at
`r`. -/
structure Seen (bk : List (Place nsIContent)) (x : nsIContent) (r : Iterator) : Prop where
  fresh : currentBlockLoop none bk = r
  held : ∀ y, currentBlockLoop (some y) bk = if HasSameBlockNodeParent x y.node then r else some y

/-- Walked back from here, a block node is met before any text node. -/
structure Crossed (bk : List (Place nsIContent)) (r : Iterator) : Prop where
  fresh : currentBlockLoop none bk = r
  held : ∀ y, currentBlockLoop (some y) bk = some y

theorem seen_text (hp : IsTextNode p.node = true) :
    Seen (p :: bk) p.node (currentBlockLoop none (p :: bk)) where
  fresh := rfl
  held y := by rw [currentBlockLoop_same hp, currentBlockLoop_text hp]

theorem Seen.text (h : Seen bk x it) (hp : IsTextNode p.node = true)
    (hs : HasSameBlockNodeParent x p.node = true) : Seen (p :: bk) p.node it := by
  have he : currentBlockLoop none (p :: bk) = it := by
    rw [currentBlockLoop_text hp, h.held, if_pos hs]
  rw [← he]
  exact seen_text hp

theorem Seen.other (h : Seen bk x it) (hp : IsTextNode p.node = false)
    (hb : IsBlockNode p.node = false) : Seen (p :: bk) x it where
  fresh := by rw [currentBlockLoop_skip hp, h.fresh]
  held y := by rw [currentBlockLoop_other hp, if_neg (by simp [hb]), h.held]

theorem Seen.cross (h : Seen bk x it) (hp : IsTextNode p.node = false)
    (hb : IsBlockNode p.node = true) : Crossed (p :: bk) it where
  fresh := by rw [currentBlockLoop_skip hp, h.fresh]
  held y := by rw [currentBlockLoop_other hp, if_pos hb]

theorem Crossed.other (h : Crossed bk it) (hp : IsTextNode p.node = false) :
    Crossed (p :: bk) it where
  fresh := by rw [currentBlockLoop_skip hp, h.fresh]
  held y := by rw [currentBlockLoop_other hp, h.held, ite_self]

theorem nextBlockLoop_text (hp : IsTextNode p.node = true) :
    nextBlockLoop (some x) false (p :: ps) =
      if HasSameBlockNodeParent x p.node then nextBlockLoop (some p.node) false ps else some p := by
  rw [nextBlockLoop, if_pos hp]
  rfl

theorem nextBlockLoop_none (hp : IsTextNode p.node = true) :
    nextBlockLoop none false (p :: ps) = nextBlockLoop (some p.node) false ps := by
  rw [nextBlockLoop, if_pos hp]
  rfl

theorem nextBlockLoop_other (hp : IsTextNode p.node = false) :
    nextBlockLoop prev false (p :: ps) = nextBlockLoop prev (IsBlockNode p.node) ps := by
  rw [nextBlockLoop, if_neg (by simp [hp]), Bool.false_or]

theorem nextBlockLoop_crossed (ps : List (Place nsIContent)) :
    nextBlockLoop prev true (p :: ps) =
      if IsTextNode p.node then some p else nextBlockLoop prev true ps := by
  rw [nextBlockLoop]
  rfl

/-- The node a walk to the back ends on, with the nodes in between. -/
structure Reached (bk ps : List (Place nsIContent)) (r : Iterator) (q : Place nsIContent) :
    Prop where
  isText : IsTextNode q.node = true
  exists_split : ∃ l rest, ps = l ++ q :: rest ∧ currentBlockLoop none (l.reverse ++ bk) = r ∧
    currentBlockLoop (some q) (l.reverse ++ bk) = some q

theorem Reached.cons (h : Reached (p :: bk) ps it q) : Reached bk (p :: ps) it q := by
  obtain ⟨hq, l, rest, rfl, hn, hs⟩ := h
  refine ⟨hq, p :: l, rest, rfl, ?_, ?_⟩
  · rw [List.reverse_cons, List.append_assoc]
    exact hn
  · rw [List.reverse_cons, List.append_assoc]
    exact hs

theorem Crossed.reached (h : Crossed bk it) (hn : nextBlockLoop prev true ps = some q) :
    Reached bk ps it q := by
  induction ps generalizing bk with
  | nil => cases hn
  | cons p ps ih =>
    rw [nextBlockLoop_crossed] at hn
    split_ifs at hn with hp
    · obtain rfl := Option.some.inj hn
      exact ⟨hp, [], ps, rfl, h.fresh, h.held _⟩
    · exact (ih (h.other (by simpa using hp)) hn).cons

theorem Seen.reached (h : Seen bk x it) (hn : nextBlockLoop (some x) false ps = some q) :
    Reached bk ps it q := by
  induction ps generalizing bk x with
  | nil => cases hn
  | cons p ps ih =>
    cases hp : IsTextNode p.node with
    | true =>
      rw [nextBlockLoop_text hp] at hn
      split_ifs at hn with hs
      · exact (ih (h.text hp hs) hn).cons
      · obtain rfl := Option.some.inj hn
        exact ⟨hp, [], ps, rfl, h.fresh, by rw [List.reverse_nil, List.nil_append, h.held, if_neg hs]⟩
    | false =>
      rw [nextBlockLoop_other hp] at hn
      cases hb : IsBlockNode p.node with
      | true =>
        rw [hb] at hn
        exact ((h.cross hp hb).reached hn).cons
      | false =>
        rw [hb] at hn
        exact (ih (h.other hp hb) hn).cons

theorem nextBlockLoop_ahead (hp : IsTextNode p.node = true) :
    nextBlockLoop none false p.ahead = nextBlockLoop (some p.node) false p.beyond := by
  rw [Place.ahead_eq, nextBlockLoop_none hp]

/-- The walk to the back ends on the first text node of a block, and the walk to the front from the
node before it ends where the walk to the front from the start would. -/
theorem next_heads (hp : IsTextNode p.node = true)
    (h : nextBlockLoop (some p.node) false p.beyond = some q) :
    IsTextNode q.node = true ∧ Heads q ∧ q.after.length < p.after.length ∧
      ∃ z, q.prev = some z ∧ currentBlockLoop none z.back = currentBlockLoop none p.back := by
  have hseen : Seen p.back p.node (currentBlockLoop none p.back) := by
    rw [Place.back_eq]
    exact seen_text hp
  obtain ⟨hq, l, rest, hb, hn, hs⟩ := hseen.reached h
  obtain ⟨hr, hbehind⟩ := Place.split_beyond hb
  rw [← hbehind] at hn hs
  refine ⟨hq, (heads_iff hq).mpr hs, ?_, ?_⟩
  · rw [← p.map_beyond, hb, ← q.map_beyond, hr]
    simp
    omega
  · cases hz : q.prev with
    | none =>
      have : q.behind = [] := by rw [Place.behind, hz]; rfl
      rw [this, Place.back_eq] at hbehind
      simp at hbehind
    | some z =>
      refine ⟨z, rfl, ?_⟩
      rw [← hn, Place.behind, hz]
      rfl

end Kompozer.TxtSvc

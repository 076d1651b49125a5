import Kompozer.Lib.Zones

/-! The nodes of a document as the text services document sees them (`nsTextServicesDocument.cpp`):
text nodes, block nodes, and the block a node lies in. The trees the nodes come from are read in
document post-order. -/

namespace Kompozer.TxtSvc

/-! ### Nodes -/

/-- An element among its siblings. -/
structure Step where
  index : ℕ
  tag : String
deriving DecidableEq, Repr

/-- An element, by the way from it up to the root. The empty way is the null pointer, the tail is
`GetParent`. -/
abbrev Way := List Step

inductive Kind
  | text (data : List UInt16)
  | other
  | element
deriving DecidableEq, Repr

/-- A node: its place below its parent, what it is, and its `Tag`. -/
structure nsIContent where
  index : ℕ
  kind : Kind
  tag : String
  parent : Way
deriving DecidableEq, Repr

/-- The tags of `nsTSAtomList.h`. -/
def inlineTags : List String :=
  ["a", "address", "big", "blink", "b", "cite", "code", "dfn", "em", "font", "i", "kbd", "keygen",
    "nobr", "s", "samp", "small", "spacer", "span", "strike", "strong", "sub", "sup", "tt", "u",
    "var", "wbr"]

/-- `IsBlockNode`, of a tag. -/
def IsBlockTag (tag : String) : Bool := !inlineTags.contains tag

def IsBlockNode (content : nsIContent) : Bool := IsBlockTag content.tag

def IsTextNode (content : nsIContent) : Bool :=
  match content.kind with
  | .text _ => true
  | _ => false

/-- `while (p && !IsBlockNode(p)) p = p->GetParent()`. -/
def blockFrom : Way → Way
  | [] => []
  | s :: up => if IsBlockTag s.tag then s :: up else blockFrom up

/-- The block parent of a node. -/
def blockParent (content : nsIContent) : Way := blockFrom content.parent

def HasSameBlockNodeParent (content1 content2 : nsIContent) : Bool :=
  let p1 := content1.parent
  let p2 := content2.parent
  -- quick test
  if p1 = p2 then true else blockFrom p1 = blockFrom p2

theorem HasSameBlockNodeParent_iff (c c' : nsIContent) :
    HasSameBlockNodeParent c c' = true ↔ blockParent c = blockParent c' := by
  simp only [HasSameBlockNodeParent, blockParent]
  split_ifs with h
  · exact iff_of_true rfl (congrArg blockFrom h)
  · exact decide_eq_true_iff

/-! ### Trees -/

/-- A node with the nodes below it; a comment and the like are `other`. -/
inductive Tree
  | text (data : List UInt16)
  | other (tag : String)
  | element (tag : String) (kids : List Tree)

/-- What is met on the way through a tree. -/
inductive Event
  | begins (n : nsIContent)
  | ends (n : nsIContent)
  | leaf (n : nsIContent)
deriving DecidableEq

namespace Tree

/-- The node at the top of a tree, as a child of `up`. -/
def node (index : ℕ) (up : Way) : Tree → nsIContent
  | text data => ⟨index, .text data, "#text", up⟩
  | other tag => ⟨index, .other, tag, up⟩
  | element tag _ => ⟨index, .element, tag, up⟩

mutual
/-- The nodes in document post-order. -/
def postorder (index : ℕ) (up : Way) : Tree → List nsIContent
  | text data => [(text data).node index up]
  | other tag => [(other tag).node index up]
  | element tag kids => postorderAll 0 (⟨index, tag⟩ :: up) kids ++ [(element tag []).node index up]
def postorderAll (index : ℕ) (up : Way) : List Tree → List nsIContent
  | [] => []
  | t :: ts => t.postorder index up ++ postorderAll (index + 1) up ts
end

mutual
/-- The text nodes in document order. -/
def textNodes (index : ℕ) (up : Way) : Tree → List nsIContent
  | text data => [(text data).node index up]
  | other _ => []
  | element tag kids => textNodesAll 0 (⟨index, tag⟩ :: up) kids
def textNodesAll (index : ℕ) (up : Way) : List Tree → List nsIContent
  | [] => []
  | t :: ts => t.textNodes index up ++ textNodesAll (index + 1) up ts
end

mutual
/-- The beginnings and ends of the elements, and the other nodes between them. -/
def events (index : ℕ) (up : Way) : Tree → List Event
  | text data => [.leaf ((text data).node index up)]
  | other tag => [.leaf ((other tag).node index up)]
  | element tag kids => .begins ((element tag []).node index up) ::
      (eventsAll 0 (⟨index, tag⟩ :: up) kids ++ [.ends ((element tag []).node index up)])
def eventsAll (index : ℕ) (up : Way) : List Tree → List Event
  | [] => []
  | t :: ts => t.events index up ++ eventsAll (index + 1) up ts
end

end Tree

/-- The node an iterator in post-order comes to at an event. -/
def Event.visited : Event → Option nsIContent
  | .begins _ => none
  | .ends n => some n
  | .leaf n => some n

/-- The event is the beginning or end of a block element. -/
def Event.ofBlock : Event → Bool
  | .begins n => IsBlockNode n
  | .ends n => IsBlockNode n
  | .leaf _ => false

/-- The event is a node without children that is no text but counts as a block. -/
def Event.ofBlockLeaf : Event → Bool
  | .leaf n => !IsTextNode n && IsBlockNode n
  | _ => false

def Event.ofText : Event → Bool
  | .leaf n => IsTextNode n
  | _ => false

namespace Tree

variable {t : Tree} {ts : List Tree} {index : ℕ} {up : Way} {n : nsIContent}

mutual
theorem filterMap_events (t : Tree) (index : ℕ) (up : Way) :
    (t.events index up).filterMap Event.visited = t.postorder index up := by
  cases t with
  | text data => rfl
  | other tag => rfl
  | element tag kids =>
    rw [events, postorder, List.filterMap_cons_none rfl, List.filterMap_append,
      filterMap_eventsAll kids]
    rfl
theorem filterMap_eventsAll (ts : List Tree) (index : ℕ) (up : Way) :
    (eventsAll index up ts).filterMap Event.visited = postorderAll index up ts := by
  cases ts with
  | nil => rfl
  | cons t ts =>
    rw [eventsAll, postorderAll, List.filterMap_append, filterMap_events t, filterMap_eventsAll ts]
end

mutual
theorem filter_postorder (t : Tree) (index : ℕ) (up : Way) :
    (t.postorder index up).filter IsTextNode = t.textNodes index up := by
  cases t with
  | text data => rfl
  | other tag => rfl
  | element tag kids =>
    rw [postorder, textNodes, List.filter_append, filter_postorderAll kids]
    exact List.append_nil _
theorem filter_postorderAll (ts : List Tree) (index : ℕ) (up : Way) :
    (postorderAll index up ts).filter IsTextNode = textNodesAll index up ts := by
  cases ts with
  | nil => rfl
  | cons t ts =>
    rw [postorderAll, textNodesAll, List.filter_append, filter_postorder t, filter_postorderAll ts]
end

mutual
theorem ends_element (t : Tree) (index : ℕ) (up : Way) :
    ∀ n, .ends n ∈ t.events index up → IsTextNode n = false := by
  cases t with
  | text data => simp [events]
  | other tag => simp [events]
  | element tag kids =>
    intro n hn
    rw [events] at hn
    rcases List.mem_append.mp (List.mem_of_ne_of_mem (by simp) hn) with hn | hn
    · exact ends_elementAll kids _ _ n hn
    · cases List.mem_singleton.mp hn
      rfl
theorem ends_elementAll (ts : List Tree) (index : ℕ) (up : Way) :
    ∀ n, .ends n ∈ eventsAll index up ts → IsTextNode n = false := by
  cases ts with
  | nil => simp [eventsAll]
  | cons t ts =>
    intro n hn
    rw [eventsAll] at hn
    rcases List.mem_append.mp hn with hn | hn
    · exact ends_element t _ _ n hn
    · exact ends_elementAll ts _ _ n hn
end

/-! ### No node is met twice -/

/-- The indices on the way from a node to the root. -/
def indices (n : nsIContent) : List ℕ := n.index :: n.parent.map Step.index

mutual
theorem suffix_indices (t : Tree) (index : ℕ) (up : Way) :
    ∀ n ∈ t.postorder index up, index :: up.map Step.index <:+ indices n := by
  cases t with
  | text data => simp [postorder, node, indices]
  | other tag => simp [postorder, node, indices]
  | element tag kids =>
    intro n hn
    rw [postorder, List.mem_append, List.mem_singleton] at hn
    rcases hn with hn | rfl
    · obtain ⟨i, -, h⟩ := suffix_indicesAll kids 0 (⟨index, tag⟩ :: up) n hn
      exact (List.suffix_cons i _).trans h
    · exact List.suffix_refl _
theorem suffix_indicesAll (ts : List Tree) (index : ℕ) (up : Way) :
    ∀ n ∈ postorderAll index up ts, ∃ i, index ≤ i ∧ i :: up.map Step.index <:+ indices n := by
  cases ts with
  | nil => simp [postorderAll]
  | cons t ts =>
    intro n hn
    rw [postorderAll, List.mem_append] at hn
    rcases hn with hn | hn
    · exact ⟨index, Nat.le_refl _, suffix_indices t index up n hn⟩
    · obtain ⟨i, hi, h⟩ := suffix_indicesAll ts (index + 1) up n hn
      exact ⟨i, by omega, h⟩
end

mutual
theorem nodup_postorder (t : Tree) (index : ℕ) (up : Way) : (t.postorder index up).Nodup := by
  cases t with
  | text data => simp [postorder]
  | other tag => simp [postorder]
  | element tag kids =>
    rw [postorder]
    refine List.Nodup.append (nodup_postorderAll kids _ _) (by simp) ?_
    rw [List.disjoint_singleton]
    intro hn
    obtain ⟨i, -, h⟩ := suffix_indicesAll kids _ _ _ hn
    -- the element is not below itself
    have := h.length_le
    simp only [indices, node, List.length_cons, List.length_map] at this
    omega
theorem nodup_postorderAll (ts : List Tree) (index : ℕ) (up : Way) :
    (postorderAll index up ts).Nodup := by
  cases ts with
  | nil => simp [postorderAll]
  | cons t ts =>
    rw [postorderAll]
    refine List.Nodup.append (nodup_postorder t _ _) (nodup_postorderAll ts _ _) ?_
    intro n hn hn'
    have h := suffix_indices t index up n hn
    obtain ⟨i, hi, h'⟩ := suffix_indicesAll ts (index + 1) up n hn'
    have he : index :: up.map Step.index = i :: up.map Step.index :=
      (List.suffix_of_suffix_length_le h h' (by simp)).eq_of_length (by simp)
    have := (List.cons.inj he).1
    omega
end

end Tree

/-! ### Ways through a tree -/

/-- Events that lead from inside one element to inside another. -/
inductive Leads : Way → List Event → Way → Prop
  | nil (up) : Leads up [] up
  | begins {n l up} : Leads (⟨n.index, n.tag⟩ :: n.parent) l up → Leads n.parent (.begins n :: l) up
  | ends {n l up} : Leads n.parent l up → Leads (⟨n.index, n.tag⟩ :: n.parent) (.ends n :: l) up
  | leaf {n l up} : Leads n.parent l up → Leads n.parent (.leaf n :: l) up

variable {a b c : Way} {l r : List Event} {x y : nsIContent}

theorem Leads.append (hl : Leads a l b) (hr : Leads b r c) : Leads a (l ++ r) c := by
  induction hl with
  | nil => exact hr
  | begins _ ih => exact .begins (ih hr)
  | ends _ ih => exact .ends (ih hr)
  | leaf _ ih => exact .leaf (ih hr)

theorem Leads.split (h : Leads a (l ++ r) c) : ∃ b, Leads a l b ∧ Leads b r c := by
  induction l generalizing a with
  | nil => exact ⟨a, .nil a, h⟩
  | cons e l ih =>
    rw [List.cons_append] at h
    cases h with
    | begins h =>
      obtain ⟨b, hb, hr⟩ := ih h
      exact ⟨b, .begins hb, hr⟩
    | ends h =>
      obtain ⟨b, hb, hr⟩ := ih h
      exact ⟨b, .ends hb, hr⟩
    | leaf h =>
      obtain ⟨b, hb, hr⟩ := ih h
      exact ⟨b, .leaf hb, hr⟩

mutual
theorem Tree.leads_events (t : Tree) (index : ℕ) (up : Way) : Leads up (t.events index up) up := by
  cases t with
  | text data => exact .leaf (n := (Tree.text data).node index up) (.nil _)
  | other tag => exact .leaf (n := (Tree.other tag).node index up) (.nil _)
  | element tag kids =>
    rw [Tree.events]
    exact .begins (n := (Tree.element tag []).node index up)
      ((Tree.leads_eventsAll kids _ _).append (.ends (.nil _)))
theorem Tree.leads_eventsAll (ts : List Tree) (index : ℕ) (up : Way) :
    Leads up (Tree.eventsAll index up ts) up := by
  cases ts with
  | nil => exact .nil up
  | cons t ts =>
    rw [Tree.eventsAll]
    exact (Tree.leads_events t _ _).append (Tree.leads_eventsAll ts _ _)
end

/-- The blocks a way goes through. -/
def blocksOn (up : Way) : ℕ := up.countP fun s => IsBlockTag s.tag

theorem blocksOn_blockFrom (up : Way) : blocksOn (blockFrom up) = blocksOn up := by
  induction up with
  | nil => rfl
  | cons s up ih =>
    rw [blockFrom]
    split_ifs with h
    · rfl
    · rw [ih]
      simp [blocksOn, h]

/-- Where no block ends, every block that begins makes the way longer. -/
theorem Leads.blocksOn_eq (h : Leads a l b) (hl : ∀ n, .ends n ∈ l → IsBlockNode n = false) :
    blocksOn b = blocksOn a + l.countP Event.ofBlock := by
  induction h with
  | nil => rfl
  | @begins n l up _ ih =>
    rw [ih fun m hm => hl m (List.mem_cons_of_mem _ hm)]
    cases hb : IsBlockTag n.tag
    · simp [blocksOn, Event.ofBlock, IsBlockNode, hb]
    · simp [blocksOn, Event.ofBlock, IsBlockNode, hb]
      omega
  | @ends n l up _ ih =>
    have hn := hl n List.mem_cons_self
    rw [ih fun m hm => hl m (List.mem_cons_of_mem _ hm), blocksOn, blocksOn,
      List.countP_cons_of_neg (by simpa [IsBlockNode] using hn),
      List.countP_cons_of_neg (by simpa [Event.ofBlock] using hn)]
  | leaf _ ih =>
    rw [ih fun m hm => hl m (List.mem_cons_of_mem _ hm),
      List.countP_cons_of_neg (by simp [Event.ofBlock])]

/-- The events between two texts. -/
theorem Tree.leads_between {t : Tree} {index : ℕ} {up : Way} {before between after : List Event}
    (h : t.events index up = before ++ .leaf x :: (between ++ .leaf y :: after)) :
    Leads x.parent between y.parent := by
  have hl := t.leads_events index up
  rw [h] at hl
  obtain ⟨a, -, hl⟩ := hl.split
  cases hl with
  | leaf hl =>
    obtain ⟨b, hb, hl⟩ := hl.split
    cases hl with
    | leaf _ => exact hb

/-- A block that begins between two texts with the same block parent ends between them. -/
theorem Leads.visited_iff (h : Leads x.parent l y.parent) (hl : ∀ e ∈ l, e.ofText = false) :
    (blockParent x = blockParent y ∧ ∀ c ∈ l.filterMap Event.visited, IsBlockNode c = false) ↔
      blockParent x = blockParent y ∧ ∀ e ∈ l, e.ofBlock = false ∧ e.ofBlockLeaf = false := by
  refine and_congr_right fun hp => ⟨fun hv e he => ?_, fun he c hc => ?_⟩
  · have hends : ∀ n, .ends n ∈ l → IsBlockNode n = false := fun n hn =>
      hv n (List.mem_filterMap.mpr ⟨_, hn, rfl⟩)
    have hcount : l.countP Event.ofBlock = 0 := by
      have := h.blocksOn_eq hends
      rw [← blocksOn_blockFrom, ← blocksOn_blockFrom x.parent] at this
      simp only [blockParent] at hp
      rw [hp] at this
      omega
    refine ⟨by simpa using List.countP_eq_zero.mp hcount e he, ?_⟩
    cases e with
    | begins n => rfl
    | ends n => rfl
    | leaf n =>
      rw [Event.ofBlockLeaf, hv n (List.mem_filterMap.mpr ⟨_, he, rfl⟩), Bool.and_false]
  · obtain ⟨e, hmem, hc⟩ := List.mem_filterMap.mp hc
    obtain ⟨hb, hleaf⟩ := he e hmem
    have ht := hl e hmem
    cases e with
    | begins n => cases hc
    | ends n =>
      cases hc
      exact hb
    | leaf n =>
      cases hc
      rw [Event.ofText] at ht
      simpa [Event.ofBlockLeaf, ht] using hleaf

end Kompozer.TxtSvc

import Kompozer.TxtSvc.Blocks

/-! The offset tables of the blocks. The table of a block lists its text nodes one behind the other,
and the loop of a client sees the tables of all blocks. -/

namespace Kompozer.TxtSvc

open Zones

variable {p q s : Place nsIContent} {x : nsIContent} {ps l r : List (Place nsIContent)}
  {prev : Option nsIContent}

/-- The length of the text of a node. -/
def dataLength (n : nsIContent) : ℕ :=
  match n.kind with
  | .text data => data.length
  | _ => 0

/-- Entries for text nodes one behind the other. -/
def entries (offset : ℕ) : List nsIContent → List OffsetEntry
  | [] => []
  | n :: ns => .new n offset (dataLength n) :: entries (offset + dataLength n) ns

@[simp] theorem map_entries (offset : ℕ) (ns : List nsIContent) :
    (entries offset ns).map OffsetEntry.mNode = ns := by
  induction ns generalizing offset with
  | nil => rfl
  | cons n ns ih => rw [entries, List.map_cons, ih, OffsetEntry.new]

/-! ### One table -/

theorem offsetTableLoop_text (offset : ℕ) (hp : IsTextNode p.node = true) :
    offsetTableLoop prev offset (p :: ps) =
      if prev.all fun c => HasSameBlockNodeParent c p.node then
        (.new p.node offset (dataLength p.node) ::
            (offsetTableLoop (some p.node) (offset + dataLength p.node) ps).1,
          (match p.node.kind with | .text str => str | _ => []) ++
            (offsetTableLoop (some p.node) (offset + dataLength p.node) ps).2.1, some p)
      else ([], [], none) := by
  obtain ⟨before, ⟨index, kind, tag, parent⟩, after⟩ := p
  cases kind with
  | text data => rfl
  | other => cases hp
  | element => cases hp

theorem offsetTableLoop_other (offset : ℕ) (hp : IsTextNode p.node = false) :
    offsetTableLoop prev offset (p :: ps) =
      if IsBlockNode p.node then ([], [], none) else offsetTableLoop prev offset ps := by
  obtain ⟨before, ⟨index, kind, tag, parent⟩, after⟩ := p
  cases kind with
  | text data => cases hp
  | other => rfl
  | element => rfl

theorem offsetTableLoop_body (x : nsIContent) (offset : ℕ) (ps : List (Place nsIContent)) :
    (offsetTableLoop (some x) offset ps).1 = entries offset (blockBody x (ps.map Place.node)) := by
  induction ps generalizing x offset with
  | nil => rfl
  | cons p ps ih =>
    rw [List.map_cons, blockBody]
    cases hp : IsTextNode p.node with
    | true =>
      rw [offsetTableLoop_text offset hp, body_mark hp, Option.all_some]
      split_ifs with hs
      · rw [ih, entries, blockBody]
      · rfl
    | false =>
      rw [offsetTableLoop_other offset hp, body_other hp]
      split_ifs with hb
      · rfl
      · exact ih x offset

/-- The table made from the first text node of a block. -/
theorem offsetTableLoop_ahead (hp : IsTextNode p.node = true) :
    (offsetTableLoop none 0 p.ahead).1 = entries 0 (p.node :: blockBody p.node p.after) ∧
      (offsetTableLoop none 0 p.ahead).2.2 = some p := by
  rw [Place.ahead_eq, offsetTableLoop_text 0 hp, if_pos (by rfl)]
  refine ⟨?_, rfl⟩
  simp only []
  rw [offsetTableLoop_body, Place.map_beyond, entries]

/-- `CreateOffsetTable` on a text node: the table of its block, the iterator on the block's first
text node. -/
theorem CreateOffsetTable_eq (hp : IsTextNode p.node = true)
    (hs : currentBlockLoop none p.back = some s) :
    CreateOffsetTable (some p) .eValid =
      ⟨.NS_OK, entries 0 (s.node :: blockBody s.node s.after), some s, .eValid,
        (offsetTableLoop none 0 s.ahead).2.1⟩ := by
  obtain ⟨htable, hfirst⟩ := offsetTableLoop_ahead (heads_of_current hp hs).1
  have hcur : FirstTextNodeInCurrentBlock (some p) = (.NS_OK, some s) := by
    rw [FirstTextNodeInCurrentBlock]
    exact congrArg _ hs
  have hahead : Iterator.ahead (some s) = s.ahead := rfl
  simp only [CreateOffsetTable, hcur, hahead, hfirst, htable]
  rfl

/-! ### The blocks of a list -/

theorem blocks_text (hx : IsTextNode x = true) (ns : List nsIContent) :
    blocks (x :: ns) =
      if joined IsTextNode IsBlockNode HasSameBlockNodeParent x ns then consHead x (blocks ns)
      else [x] :: blocks ns := by
  rw [blocks, zones, if_pos hx]
  rfl

theorem blocks_other (hx : IsTextNode x = false) (ns : List nsIContent) :
    blocks (x :: ns) = blocks ns := by
  rw [blocks, zones, if_neg (by simp [hx])]
  rfl

/-- The blocks from the place a walk to the back ends on. -/
def blocksFrom (it : Iterator) : List (List nsIContent) :=
  it.elim [] fun q => blocks (q.node :: q.after)

theorem blocksFrom_crossed (hps : ∀ l₁ z l₂, ps = l₁ ++ z :: l₂ → z.beyond = l₂) :
    blocks (ps.map Place.node) = blocksFrom (nextBlockLoop prev true ps) := by
  induction ps with
  | nil => rfl
  | cons p ps ih =>
    rw [nextBlockLoop_crossed]
    split_ifs with hp
    · rw [← hps [] p ps rfl, List.map_cons, Place.map_beyond]
      rfl
    · rw [List.map_cons, blocks_other (by simpa using hp)]
      exact ih fun l₁ z l₂ he => hps (p :: l₁) z l₂ (by rw [he, List.cons_append])

/-- A block, and the blocks from the next one on. -/
theorem blocks_cons (hx : IsTextNode x = true)
    (hps : ∀ l₁ z l₂, ps = l₁ ++ z :: l₂ → z.beyond = l₂) :
    blocks (x :: ps.map Place.node) =
      (x :: blockBody x (ps.map Place.node)) :: blocksFrom (nextBlockLoop (some x) false ps) := by
  induction ps generalizing x with
  | nil =>
    rw [List.map_nil, blocks_text hx]
    rfl
  | cons p ps ih =>
    have hps' : ∀ l₁ z l₂, ps = l₁ ++ z :: l₂ → z.beyond = l₂ := fun l₁ z l₂ he =>
      hps (p :: l₁) z l₂ (by rw [he, List.cons_append])
    rw [List.map_cons, blocks_text hx, blockBody]
    cases hp : IsTextNode p.node with
    | true =>
      rw [joined_mark hp, body_mark hp, nextBlockLoop_text hp]
      split_ifs with hs
      · rw [ih hp hps']
        rfl
      · rw [← hps [] p ps rfl, Place.map_beyond]
        rfl
    | false =>
      rw [joined_other hp, body_other hp, nextBlockLoop_other hp, blocks_other hp]
      cases hb : IsBlockNode p.node with
      | true =>
        rw [if_pos rfl, if_pos rfl, if_neg Bool.false_ne_true, blocksFrom_crossed hps']
      | false =>
        have ih := ih hx hps'
        rw [blocks_text hx] at ih
        rw [if_neg Bool.false_ne_true, if_neg Bool.false_ne_true]
        exact ih

theorem blocks_place (hp : IsTextNode p.node = true) :
    blocks (p.node :: p.after) =
      (p.node :: blockBody p.node p.after) ::
        blocksFrom (nextBlockLoop (some p.node) false p.beyond) := by
  rw [← p.map_beyond]
  exact blocks_cons hp fun l₁ z l₂ he => (Place.split_beyond he).1

end Kompozer.TxtSvc

/-! Going through a document block by block. A client that starts with `FirstBlock` and calls
`NextBlock` until `IsDone` sees every text node once, and `PrevBlock` undoes `NextBlock`. -/

namespace Kompozer.TxtSvc

variable {p q s z : Place nsIContent} {nodes : List nsIContent} {x y : nsIContent}

namespace nsTextServicesDocument

variable {d : nsTextServicesDocument}

/-! ### The iterator of a document -/

@[simp] theorem getFirstTextNode_iterator (find : Iterator → nsresult × Iterator)
    (p : Place nsIContent) : (getFirstTextNode find (some p)).2.2 = some p := by
  simp only [getFirstTextNode]
  split_ifs <;> rfl

@[simp] theorem getFirstTextNode_result (find : Iterator → nsresult × Iterator)
    (p : Place nsIContent) (h : ∀ it, (find it).1 = .NS_OK) :
    (getFirstTextNode find (some p)).1 = .NS_OK := by
  simp only [getFirstTextNode]
  rw [if_neg (by simp [h])]
  rfl

/-- The document is in the block of a text node. -/
structure OnText (d : nsTextServicesDocument) (p : Place nsIContent) : Prop where
  iterator : d.mIterator = some p
  status : d.mIteratorStatus = .eValid
  isText : IsTextNode p.node = true

/-- The document is in a block or has no block. -/
def Sound (d : nsTextServicesDocument) : Prop :=
  d.mIteratorStatus = .eIsDone ∨ ∃ p, d.OnText p

theorem OnText.not_done (h : d.OnText p) : d.IsDone = false := by
  simp [IsDone, h.status]

theorem keepTrack_onText (d : nsTextServicesDocument) (hp : IsTextNode p.node = true) :
    (d.keepTrack (some p) .eValid).2.OnText p := by
  simp only [keepTrack, if_pos, GetFirstTextNodeInPrevBlock, GetFirstTextNodeInNextBlock,
    getFirstTextNode_iterator]
  exact ⟨rfl, rfl, hp⟩

theorem keepTrack_result (d : nsTextServicesDocument) (p : Place nsIContent) :
    (d.keepTrack (some p) .eValid).1 = .NS_OK := by
  simp only [keepTrack, if_pos, GetFirstTextNodeInPrevBlock, GetFirstTextNodeInNextBlock,
    getFirstTextNode_iterator]
  exact getFirstTextNode_result _ _ fun _ => rfl

theorem moveBlock_onText {find : Iterator → nsresult × Iterator}
    (hf : find d.mIterator = (.NS_OK, some q)) (hq : IsTextNode q.node = true) :
    (d.moveBlock find).2.OnText q ∧ (d.moveBlock find).1 = .NS_OK := by
  have he : d.moveBlock find = d.keepTrack (some q) .eValid := by
    simp only [moveBlock, hf]
    rfl
  rw [he]
  exact ⟨keepTrack_onText d hq, keepTrack_result d q⟩

theorem moveBlock_done {find : Iterator → nsresult × Iterator} (hf : (find d.mIterator).2 = none) :
    (d.moveBlock find).2.mIteratorStatus = .eIsDone := by
  simp only [moveBlock, hf]
  split_ifs with _ hdone
  · rfl
  · rfl
  · exact absurd rfl hdone

/-! ### What a call does -/

theorem OnText.nextBlock (h : d.OnText p)
    (hn : nextBlockLoop (some p.node) false p.beyond = some q) :
    d.NextBlock.2.OnText q := by
  have hq := (next_heads h.isText hn).1
  have hf : FirstTextNodeInNextBlock d.mIterator = (.NS_OK, some q) := by
    rw [h.iterator, FirstTextNodeInNextBlock]
    exact congrArg _ ((nextBlockLoop_ahead h.isText).trans hn)
  simp only [NextBlock, h.status]
  exact (moveBlock_onText hf hq).1

theorem OnText.nextBlock_done (h : d.OnText p)
    (hn : nextBlockLoop (some p.node) false p.beyond = none) :
    d.NextBlock.2.mIteratorStatus = .eIsDone := by
  simp only [NextBlock, h.status]
  refine moveBlock_done ?_
  rw [h.iterator, FirstTextNodeInNextBlock]
  exact (nextBlockLoop_ahead h.isText).trans hn

/-- `PrevBlock` leads from the node in front of a block to the first text node of its block. -/
theorem OnText.find_prev (h : d.OnText p) (hs : currentBlockLoop none p.back = some s)
    (hz : s.prev = some z) :
    FirstTextNodeInPrevBlock d.mIterator = (.NS_OK, currentBlockLoop none z.back) := by
  have hcur : FirstTextNodeInCurrentBlock (some p) = (.NS_OK, some s) := by
    rw [FirstTextNodeInCurrentBlock]
    exact congrArg _ hs
  have hprev : Iterator.Prev (some s) = some z := hz
  simp only [FirstTextNodeInPrevBlock, h.iterator, hcur, hprev]
  rfl

theorem OnText.prevBlock (h : d.OnText p) (hs : currentBlockLoop none p.back = some s)
    (hz : s.prev = some z) (hq : currentBlockLoop none z.back = some q) :
    d.PrevBlock.2.OnText q ∧ d.PrevBlock.1 = .NS_OK := by
  have hf := h.find_prev hs hz
  rw [hq] at hf
  simp only [PrevBlock, h.status]
  exact moveBlock_onText hf (currentBlockLoop_isText _ (by simp) hq)

theorem OnText.prevBlock_sound (h : d.OnText p) : d.PrevBlock.2.Sound := by
  obtain ⟨s, hs⟩ := exists_currentBlockLoop p p.behind
  rw [← currentBlockLoop_text h.isText, ← Place.back_eq] at hs
  cases hz : s.prev with
  | none =>
    left
    simp only [PrevBlock, h.status]
    refine moveBlock_done ?_
    have hcur : FirstTextNodeInCurrentBlock (some p) = (.NS_OK, some s) := by
      rw [FirstTextNodeInCurrentBlock]
      exact congrArg _ hs
    have hprev : Iterator.Prev (some s) = none := hz
    simp only [FirstTextNodeInPrevBlock, h.iterator, hcur, hprev]
    rfl
  | some z =>
    cases hq : currentBlockLoop none z.back with
    | none =>
      left
      simp only [PrevBlock, h.status]
      refine moveBlock_done ?_
      rw [h.find_prev hs hz, hq]
    | some q => exact .inr ⟨q, (h.prevBlock hs hz hq).1⟩

theorem OnText.currentTextBlock (h : d.OnText p) (hs : currentBlockLoop none p.back = some s) :
    d.GetCurrentTextBlock = (.NS_OK, (offsetTableLoop none 0 s.ahead).2.1, { d with
      mOffsetTable := entries 0 (s.node :: blockBody s.node s.after)
      mIterator := some s }) := by
  simp only [GetCurrentTextBlock, h.iterator, h.status, CreateOffsetTable_eq h.isText hs]

theorem OnText.currentTextBlock_onText (h : d.OnText p)
    (hs : currentBlockLoop none p.back = some s) : d.GetCurrentTextBlock.2.2.OnText s := by
  rw [h.currentTextBlock hs]
  exact ⟨rfl, h.status, (heads_of_current h.isText hs).1⟩

/-- What the loop of `FirstTextNode` and `LastTextNode` finds. -/
theorem textNodeLoop_eq (l : List (Place nsIContent)) :
    ((∀ p ∈ l, IsTextNode p.node = false) ∧ textNodeLoop l = (none, .eIsDone)) ∨
      ∃ a p b, l = a ++ p :: b ∧ (∀ q ∈ a, IsTextNode q.node = false) ∧
        IsTextNode p.node = true ∧ textNodeLoop l = (some p, .eValid) := by
  induction l with
  | nil => exact .inl ⟨by simp, rfl⟩
  | cons p l ih =>
    rw [textNodeLoop]
    split_ifs with hp
    · exact .inr ⟨[], p, l, rfl, by simp, hp, rfl⟩
    · have hp : IsTextNode p.node = false := by simpa using hp
      rcases ih with ⟨hl, he⟩ | ⟨a, q, b, rfl, ha, hq, he⟩
      · exact .inl ⟨by simpa [hp] using hl, he⟩
      · exact .inr ⟨p :: a, q, b, rfl, by simpa [hp] using ha, hq, he⟩

theorem firstBlock_onText (d : nsTextServicesDocument)
    (h : FirstTextNode nodes = (some p, .eValid)) (hp : IsTextNode p.node = true) :
    (d.FirstBlock nodes).2.OnText p := by
  simp only [FirstBlock, h, if_pos, GetFirstTextNodeInNextBlock, getFirstTextNode_iterator]
  exact ⟨rfl, rfl, hp⟩

theorem firstBlock_done (d : nsTextServicesDocument)
    (h : FirstTextNode nodes = (none, .eIsDone)) :
    (d.FirstBlock nodes).2.mIteratorStatus = .eIsDone := by
  simp only [FirstBlock, h]
  rfl

theorem lastBlock_sound (d : nsTextServicesDocument) : (d.LastBlock nodes).2.Sound := by
  rcases textNodeLoop_eq (Iterator.Last nodes).back with ⟨-, he⟩ | ⟨a, p, b, -, -, hp, he⟩
  · left
    simp only [LastBlock, LastTextNode, he]
    rfl
  · right
    obtain ⟨s, hs⟩ := exists_currentBlockLoop p p.behind
    rw [← currentBlockLoop_text hp, ← Place.back_eq] at hs
    have hcur : FirstTextNodeInCurrentBlock (some p) = (.NS_OK, some s) := by
      rw [FirstTextNodeInCurrentBlock]
      exact congrArg _ hs
    refine ⟨s, ?_⟩
    simp only [LastBlock, LastTextNode, he, hcur, ne_eq, not_true_eq_false, if_false, if_true,
      GetFirstTextNodeInPrevBlock, getFirstTextNode_iterator]
    exact ⟨rfl, rfl, currentBlockLoop_isText _ (by simp) hs⟩

/-! ### Runs -/

theorem Sound.call (h : d.Sound) (c : Call) : (c.run nodes d).Sound := by
  cases c with
  | firstBlock =>
    rcases textNodeLoop_eq (Iterator.First nodes).ahead with ⟨-, he⟩ | ⟨a, p, b, -, -, hp, he⟩
    · exact .inl (firstBlock_done d he)
    · exact .inr ⟨p, firstBlock_onText d he hp⟩
  | lastBlock => exact lastBlock_sound d
  | prevBlock =>
    rcases h with h | ⟨p, h⟩
    · exact .inl (by simp only [Call.run, PrevBlock, h])
    · exact h.prevBlock_sound
  | nextBlock =>
    rcases h with h | ⟨p, h⟩
    · exact .inl (by simp only [Call.run, NextBlock, h])
    · cases hn : nextBlockLoop (some p.node) false p.beyond with
      | none => exact .inl (h.nextBlock_done hn)
      | some q => exact .inr ⟨q, h.nextBlock hn⟩
  | getCurrentTextBlock =>
    rcases h with h | ⟨p, h⟩
    · left
      simp only [Call.run, GetCurrentTextBlock, CreateOffsetTable, h]
      rfl
    · obtain ⟨s, hs⟩ := exists_currentBlockLoop p p.behind
      rw [← currentBlockLoop_text h.isText, ← Place.back_eq] at hs
      exact .inr ⟨s, h.currentTextBlock_onText hs⟩

theorem Sound.run (h : d.Sound) (calls : List Call) : (d.run nodes calls).Sound := by
  induction calls generalizing d with
  | nil => exact h
  | cons c calls ih => exact ih (h.call c)

theorem init_sound (nodes : List nsIContent) : (init nodes).Sound := .inl rfl

/-- `PrevBlock` behind `NextBlock`. -/
theorem OnText.prev_next (h : d.OnText p) (hs : currentBlockLoop none p.back = some s)
    (hn : d.NextBlock.2.IsDone = false) :
    d.NextBlock.2.PrevBlock.1 = .NS_OK ∧ d.NextBlock.2.PrevBlock.2.OnText s := by
  cases hq : nextBlockLoop (some p.node) false p.beyond with
  | none => simp [IsDone, h.nextBlock_done hq] at hn
  | some q =>
    obtain ⟨-, hheads, -, z, hz, hback⟩ := next_heads h.isText hq
    obtain ⟨hon, hres⟩ := (h.nextBlock hq).prevBlock hheads hz (hback.trans hs)
    exact ⟨hres, hon⟩

/-! ### The loop of a client -/

theorem OnText.blocksLoop (h : d.OnText p) (hp : Heads p) {k : ℕ} (hk : p.after.length + 2 ≤ k) :
    d.blocksLoop k = some ((blocks (p.node :: p.after)).map (entries 0)) := by
  induction k generalizing d p with
  | zero => omega
  | succ k ih =>
    have hcur := h.currentTextBlock hp
    have hon := h.currentTextBlock_onText hp
    rw [nsTextServicesDocument.blocksLoop, if_neg (by simp [h.not_done]), blocks_place h.isText]
    simp only [List.map_cons]
    cases hn : nextBlockLoop (some p.node) false p.beyond with
    | none =>
      have hdone := hon.nextBlock_done hn
      obtain ⟨k, rfl⟩ : ∃ m, k = m + 1 := ⟨k - 1, by omega⟩
      rw [nsTextServicesDocument.blocksLoop, if_pos (by simp [IsDone, hdone]), hcur]
      rfl
    | some q =>
      obtain ⟨-, hq, hlen, -⟩ := next_heads h.isText hn
      rw [ih (hon.nextBlock hn) hq (by omega), hcur]
      rfl

/-- The tables of a client are those of the blocks. -/
theorem blocksLoop_eq (nodes : List nsIContent) (d : nsTextServicesDocument) :
    (d.FirstBlock nodes).2.blocksLoop (nodes.length + 1) =
      some ((blocks nodes).map (entries 0)) := by
  cases nodes with
  | nil => rfl
  | cons n ns =>
    have hmap := Place.map_ahead ⟨[], n, ns⟩
    rcases textNodeLoop_eq (Place.ahead ⟨[], n, ns⟩) with ⟨hl, he⟩ | ⟨a, p, b, hl, ha, hp, he⟩
    · have hdone : (d.FirstBlock (n :: ns)).2.mIteratorStatus = .eIsDone := firstBlock_done d he
      have hb : blocks (n :: ns) = [] := by
        have hall : ∀ c ∈ n :: ns, IsTextNode c = false := by
          intro c hc
          rw [← hmap] at hc
          obtain ⟨w, hw, rfl⟩ := List.mem_map.mp hc
          exact hl w hw
        have h : blocks (n :: ns ++ []) = blocks [] := Zones.zones_of_unmarked hall
        rw [List.append_nil] at h
        exact h
      rw [nsTextServicesDocument.blocksLoop, if_pos (by simp [IsDone, hdone]), hb]
      rfl
    · have hon : (d.FirstBlock (n :: ns)).2.OnText p := firstBlock_onText d he hp
      obtain ⟨hb, hbehind⟩ := Place.split_ahead hl
      have hheads : Heads p := by
        refine (heads_iff hp).mpr (currentBlockLoop_of_others fun w hw => ?_)
        rw [hbehind] at hw
        exact ha w (by simpa [Place.behind, Place.prev] using hw)
      have hsplit : n :: ns = a.map Place.node ++ p.node :: p.after := by
        rw [← hmap, hl, List.map_append, List.map_cons, ← hb, Place.map_beyond]
      have hblocks : blocks (n :: ns) = blocks (p.node :: p.after) := by
        rw [hsplit]
        refine Zones.zones_of_unmarked fun c hc => ?_
        obtain ⟨w, hw, rfl⟩ := List.mem_map.mp hc
        exact ha w hw
      have hlen : (n :: ns).length = (a.map Place.node).length + (p.after.length + 1) := by
        rw [hsplit, List.length_append, List.length_cons]
      rw [hblocks, hon.blocksLoop hheads (by omega)]

end nsTextServicesDocument

/-! ### The blocks of a tree -/

open nsTextServicesDocument

theorem textNodes_nodup (root : Tree) : (root.textNodes 0 []).Nodup := by
  rw [← Tree.filter_postorder]
  exact (Tree.nodup_postorder root 0 []).filter _

/-- Two text nodes without a text node between them, in document order, share a block exactly when
they have the same block parent and neither the beginning or end of a block element nor a childless
node that counts as a block stands between them. -/
theorem mem_block_iff {root : Tree} {before between after : List Event}
    (h : root.events 0 [] = before ++ .leaf x :: (between ++ .leaf y :: after))
    (hx : IsTextNode x = true) (hy : IsTextNode y = true)
    (hb : ∀ e ∈ between, e.ofText = false) :
    (∃ t ∈ blocks (root.postorder 0 []), x ∈ t ∧ y ∈ t) ↔
      blockParent x = blockParent y ∧ ∀ e ∈ between, e.ofBlock = false ∧ e.ofBlockLeaf = false := by
  have hpost : root.postorder 0 [] = before.filterMap Event.visited ++
      x :: (between.filterMap Event.visited ++ y :: after.filterMap Event.visited) := by
    rw [← Tree.filterMap_events, h, List.filterMap_append,
      List.filterMap_cons_some (f := Event.visited) (b := x) rfl, List.filterMap_append,
      List.filterMap_cons_some (f := Event.visited) (b := y) rfl]
  have hnodup := Tree.nodup_postorder root 0 []
  rw [hpost] at hnodup
  rw [hpost, ← (Tree.leads_between h).visited_iff hb, ← HasSameBlockNodeParent_iff]
  refine Zones.mem_zone_iff hnodup hx hy fun c hc => ?_
  obtain ⟨e, he, hc⟩ := List.mem_filterMap.mp hc
  have ht := hb e he
  cases e with
  | begins n => cases hc
  | ends n =>
    cases hc
    exact root.ends_element 0 [] _ (by rw [h]; simp [he])
  | leaf n =>
    cases hc
    exact ht

/-- `PrevBlock` behind `NextBlock` leads back to the block before. -/
theorem prev_next {d : nsTextServicesDocument} (h : d.Sound) (hn : d.NextBlock.2.IsDone = false) :
    d.NextBlock.2.PrevBlock.1 = .NS_OK ∧
      d.NextBlock.2.PrevBlock.2.mIterator = d.GetCurrentTextBlock.2.2.mIterator ∧
      d.NextBlock.2.PrevBlock.2.GetCurrentTextBlock.2.1 = d.GetCurrentTextBlock.2.1 ∧
      d.NextBlock.2.PrevBlock.2.GetCurrentTextBlock.2.2.mOffsetTable =
        d.GetCurrentTextBlock.2.2.mOffsetTable := by
  rcases h with h | ⟨p, h⟩
  · simp [NextBlock, h, IsDone] at hn
  · obtain ⟨s, hs⟩ := exists_currentBlockLoop p p.behind
    rw [← currentBlockLoop_text h.isText, ← Place.back_eq] at hs
    obtain ⟨hres, hon⟩ := h.prev_next hs hn
    have hheads := (heads_of_current h.isText hs).2
    rw [hon.currentTextBlock hheads, h.currentTextBlock hs]
    exact ⟨hres, hon.iterator, rfl, rfl⟩

/-- Block iteration over a document: the tables a client sees hold every text node once and in
document order, two consecutive text nodes are in one table exactly when no block lies between them,
and after any calls a `NextBlock` that does not run off the end is undone by `PrevBlock`. -/
theorem block_iteration (root : Tree) :
    (∀ d : nsTextServicesDocument, ∃ tables,
      (d.FirstBlock (root.postorder 0 [])).2.blocksLoop ((root.postorder 0 []).length + 1) =
        some tables ∧
      (∀ t ∈ tables, t = entries 0 (t.map OffsetEntry.mNode)) ∧
      tables.flatten.map OffsetEntry.mNode = root.textNodes 0 [] ∧
      (root.textNodes 0 []).Nodup ∧
      ∀ before x between y after,
        root.events 0 [] = before ++ .leaf x :: (between ++ .leaf y :: after) →
        IsTextNode x = true → IsTextNode y = true → (∀ e ∈ between, e.ofText = false) →
        ((∃ t ∈ tables, x ∈ t.map OffsetEntry.mNode ∧ y ∈ t.map OffsetEntry.mNode) ↔
          blockParent x = blockParent y ∧
            ∀ e ∈ between, e.ofBlock = false ∧ e.ofBlockLeaf = false)) ∧
    ∀ calls, ∀ d, d = (init (root.postorder 0 [])).run (root.postorder 0 []) calls →
      d.NextBlock.2.IsDone = false →
      d.NextBlock.2.PrevBlock.1 = .NS_OK ∧
        d.NextBlock.2.PrevBlock.2.mIterator = d.GetCurrentTextBlock.2.2.mIterator ∧
        d.NextBlock.2.PrevBlock.2.GetCurrentTextBlock.2.1 = d.GetCurrentTextBlock.2.1 ∧
        d.NextBlock.2.PrevBlock.2.GetCurrentTextBlock.2.2.mOffsetTable =
          d.GetCurrentTextBlock.2.2.mOffsetTable := by
  refine ⟨fun d => ⟨_, blocksLoop_eq _ d, ?_, ?_, textNodes_nodup root, ?_⟩, ?_⟩
  · intro t ht
    obtain ⟨b, -, rfl⟩ := List.mem_map.mp ht
    rw [map_entries]
  · have hflat : (blocks (root.postorder 0 [])).flatten =
        (root.postorder 0 []).filter IsTextNode := Zones.flatten_zones _
    rw [← Tree.filter_postorder, ← hflat, List.map_flatten, List.map_map]
    have hid : List.map OffsetEntry.mNode ∘ entries 0 = id := funext fun b => map_entries 0 b
    rw [hid, List.map_id]
  · intro before x between y after h hx hy hb
    rw [← mem_block_iff h hx hy hb]
    simp only [List.mem_map, exists_exists_and_eq_and]
    simp only [← List.mem_map, map_entries]
  · intro calls d hd hn
    subst hd
    exact prev_next ((init_sound _).run calls) hn

/-- A paragraph whose first block runs into an inline element, and a paragraph in it. -/
def nested : Tree :=
  .element "p" [.text [97], .element "b" [.text [98]], .element "p" [.text [99]]]

theorem block_iteration_sample :
    (∃ tables, ((init []).FirstBlock (nested.postorder 0 [])).2.blocksLoop 7 = some tables ∧
      ∃ t ∈ tables, ⟨0, .text [97], "#text", [⟨0, "p"⟩]⟩ ∈ t.map OffsetEntry.mNode ∧
        ⟨0, .text [98], "#text", [⟨1, "b"⟩, ⟨0, "p"⟩]⟩ ∈ t.map OffsetEntry.mNode) ∧
    ((init (nested.postorder 0 [])).run (nested.postorder 0 []) [.firstBlock]).NextBlock.2.PrevBlock.1
      = .NS_OK := by
  obtain ⟨htables, hprev⟩ := block_iteration nested
  constructor
  · obtain ⟨tables, hloop, -, -, -, hiff⟩ := htables (init [])
    refine ⟨tables, hloop, ?_⟩
    exact (hiff [.begins ⟨0, .element, "p", []⟩] _ [.begins ⟨1, .element, "b", [⟨0, "p"⟩]⟩] _
      [.ends ⟨1, .element, "b", [⟨0, "p"⟩]⟩, .begins ⟨2, .element, "p", [⟨0, "p"⟩]⟩,
        .leaf ⟨0, .text [99], "#text", [⟨2, "p"⟩, ⟨0, "p"⟩]⟩,
        .ends ⟨2, .element, "p", [⟨0, "p"⟩]⟩, .ends ⟨0, .element, "p", []⟩]
      rfl rfl rfl (by decide)).mpr (by decide +kernel)
  · exact (hprev [.firstBlock] _ rfl (by decide +kernel)).1

/-- Two texts of a paragraph with a comment between them. -/
def commented : Tree := .element "p" [.text [97], .other "#comment", .text [98]]

/-- The texts around a comment are in two blocks, though no element begins or ends between them. -/
theorem comment_splits_block :
    ¬ ∀ (root : Tree) (d : nsTextServicesDocument) (tables : List (List OffsetEntry)),
      (d.FirstBlock (root.postorder 0 [])).2.blocksLoop ((root.postorder 0 []).length + 1) =
        some tables →
      ∀ before x between y after,
        root.events 0 [] = before ++ .leaf x :: (between ++ .leaf y :: after) →
        IsTextNode x = true → IsTextNode y = true → (∀ e ∈ between, e.ofText = false) →
        ((∃ t ∈ tables, x ∈ t.map OffsetEntry.mNode ∧ y ∈ t.map OffsetEntry.mNode) ↔
          blockParent x = blockParent y ∧ ∀ e ∈ between, e.ofBlock = false) := by
  intro h
  have hp : ∀ n : nsIContent, n = ⟨0, .text [97], "#text", [⟨0, "p"⟩]⟩ ∨
      n = ⟨2, .text [98], "#text", [⟨0, "p"⟩]⟩ → blockParent n = [⟨0, "p"⟩] := by
    rintro n (rfl | rfl) <;> decide +kernel
  have := (h commented (init []) _ (blocksLoop_eq _ _)
    [.begins ⟨0, .element, "p", []⟩] ⟨0, .text [97], "#text", [⟨0, "p"⟩]⟩
    [.leaf ⟨1, .other, "#comment", [⟨0, "p"⟩]⟩] ⟨2, .text [98], "#text", [⟨0, "p"⟩]⟩
    [.ends ⟨0, .element, "p", []⟩] rfl rfl rfl (by decide)).mpr
    ⟨(hp _ (.inl rfl)).trans (hp _ (.inr rfl)).symm, by decide⟩
  revert this
  decide +kernel

end Kompozer.TxtSvc

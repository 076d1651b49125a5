import Kompozer.Dom.Operations

/-! Walking over a tree in document order (`nsTreeWalker.cpp`). The walker keeps a node and looks
from there at the tree as it is, so it may be changed behind it. -/

namespace Kompozer.Dom

/-! ### The walker -/

namespace Document

variable (d : Document) (accept : NodeId → Bool)

/-- `FirstChildOf`: a child that is not accepted is searched itself. The number bounds the
levels. -/
def firstChildOf : ℕ → NodeId → Option NodeId
  | 0, _ => none
  | k + 1, n => (d.children n).findSome? fun c => if accept c then some c else firstChildOf k c

/-- `ChildOf`: the children behind a child are searched. -/
def childOf (k : ℕ) (n : NodeId) (childNum : ℕ) : Option NodeId :=
  ((d.children n).drop (childNum + 1)).findSome? fun c =>
    if accept c then some c else d.firstChildOf accept k c

/-- The loop of `NextInDocumentOrderOf` up to the root. -/
def nextAbove (root : NodeId) : ℕ → NodeId → Option NodeId
  | 0, _ => none
  | k + 1, n => do
    let parent ← d.mParent n
    let childNum ← (d.children parent).idxOf? n
    match d.childOf accept d.fresh parent childNum with
    | some sibling => some sibling
    | none => if parent = root then none else nextAbove root k parent

/-- `NextNode` from a node. -/
def nextNode (root n : NodeId) : Option NodeId :=
  match d.firstChildOf accept d.fresh n with
  | some c => some c
  | none => if n = root then none else d.nextAbove accept root d.fresh n

end Document

/-! ### Trees -/

/-- A node with the trees below it. -/
inductive Tree
  | node (id : NodeId) (kids : List Tree)

namespace Tree

def id : Tree → NodeId
  | node n _ => n

def kids : Tree → List Tree
  | node _ ts => ts

mutual
/-- The nodes in document order. -/
def preorder : Tree → List NodeId
  | node n ts => n :: preorderAll ts
def preorderAll : List Tree → List NodeId
  | [] => []
  | t :: ts => t.preorder ++ preorderAll ts
end

mutual
/-- A store holds the tree. -/
def Shown (d : Document) : Tree → Prop
  | node n ts => d.children n = ts.map id ∧ ShownAll d ts
def ShownAll (d : Document) : List Tree → Prop
  | [] => True
  | t :: ts => t.Shown d ∧ ShownAll d ts
end

variable {d : Document} {t s : Tree} {ts : List Tree} {n : NodeId}

theorem preorder_eq (t : Tree) : t.preorder = t.id :: preorderAll t.kids := by
  cases t
  rw [preorder]
  rfl

@[simp] theorem preorderAll_append (ts us : List Tree) :
    preorderAll (ts ++ us) = preorderAll ts ++ preorderAll us := by
  induction ts with
  | nil => rfl
  | cons t ts ih => rw [List.cons_append, preorderAll, preorderAll, ih, List.append_assoc]

theorem Shown.children (h : t.Shown d) : d.children t.id = t.kids.map id := by
  cases t
  rw [Shown] at h
  exact h.1

theorem Shown.all (h : t.Shown d) : ShownAll d t.kids := by
  cases t
  rw [Shown] at h
  exact h.2

theorem ShownAll.mem (h : ShownAll d ts) (ht : t ∈ ts) : t.Shown d := by
  induction ts with
  | nil => cases ht
  | cons u ts ih =>
    rw [ShownAll] at h
    rcases List.mem_cons.mp ht with rfl | ht
    · exact h.1
    · exact ih h.2 ht

theorem mem_preorderAll : n ∈ preorderAll ts ↔ ∃ t ∈ ts, n ∈ t.preorder := by
  induction ts with
  | nil => simp [preorderAll]
  | cons t ts ih => simp [preorderAll, ih]

mutual
/-- A tree is about the children of its nodes only. -/
theorem Shown.congr {d' : Document} : {t : Tree} → t.Shown d →
    (∀ n ∈ t.preorder, d'.children n = d.children n) → t.Shown d'
  | node n ts, ht, h => by
    rw [Shown] at ht ⊢
    rw [h n (by simp [preorder])]
    exact ⟨ht.1, ShownAll.congr ht.2 fun m hm => h m (by simp [preorder, hm])⟩
theorem ShownAll.congr {d' : Document} : {ts : List Tree} → ShownAll d ts →
    (∀ n ∈ preorderAll ts, d'.children n = d.children n) → ShownAll d' ts
  | [], _, _ => trivial
  | t :: ts, hts, h => by
    rw [ShownAll] at hts ⊢
    exact ⟨Shown.congr hts.1 fun m hm => h m (by simp [preorderAll, hm]),
      ShownAll.congr hts.2 fun m hm => h m (by simp [preorderAll, hm])⟩
end

/-! ### Places -/

/-- A subtree, with the nodes in front of it and behind it in document order. -/
inductive At (t : Tree) : List NodeId → Tree → List NodeId → Prop
  | root : At t [] t []
  | child {A B : List NodeId} {n : NodeId} {L R : List Tree} {s : Tree} :
    At t A (node n (L ++ s :: R)) B →
    At t (A ++ n :: preorderAll L) s (preorderAll R ++ B)

theorem At.preorder {A B : List NodeId} (h : At t A s B) : t.preorder = A ++ s.preorder ++ B := by
  induction h with
  | root => simp
  | child _ ih =>
    rw [ih, Tree.preorder, preorderAll_append, preorderAll]
    simp

theorem At.shown {A B : List NodeId} (h : At t A s B) (ht : t.Shown d) : s.Shown d := by
  induction h with
  | root => exact ht
  | child _ ih => exact ih.all.mem (by simp [kids])

theorem At.trans {A A' B B' : List NodeId} {u : Tree} (h : At t A u B) (h' : At u A' s B') :
    At t (A ++ A') s (B' ++ B) := by
  induction h' with
  | root => simpa using h
  | child _ ih =>
    have := At.child ih
    simpa using this

/-- A node has one place in a list without repetitions. -/
theorem cut_unique {A A' B B' : List NodeId} {a : NodeId} (h : (A ++ a :: B).Nodup)
    (heq : A ++ a :: B = A' ++ a :: B') : A = A' ∧ B = B' := by
  obtain ⟨hA, hB⟩ := not_mem_of_nodup_cut h
  obtain ⟨h₁, -, h₂⟩ := (List.append_cons_inj_of_notMem hA hB).mp heq
  exact ⟨h₁, h₂⟩

/-- Only the root is at the place of the root. -/
theorem At.eq_root {A B : List NodeId} (h : At t A s B) (hnodup : t.preorder.Nodup)
    (hid : s.id = t.id) : A = [] ∧ B = [] := by
  have hpre := h.preorder
  rw [preorder_eq s, hid, List.append_assoc, List.cons_append] at hpre
  have hroot : ([] : List NodeId) ++ t.id :: preorderAll t.kids =
      A ++ t.id :: (preorderAll s.kids ++ B) := by
    rw [← hpre, preorder_eq t]
    rfl
  obtain ⟨rfl, -⟩ := cut_unique (by rw [List.nil_append, ← preorder_eq]; exact hnodup) hroot
  generalize hA : ([] : List NodeId) = A at h
  cases h with
  | root => exact ⟨rfl, rfl⟩
  | child => simp at hA

mutual
/-- Every node of a tree has a place. -/
theorem exists_at (x : NodeId) : (t : Tree) → x ∈ t.preorder → ∃ A s B, At t A s B ∧ s.id = x
  | node n ts, hx => by
    rw [Tree.preorder] at hx
    rcases List.mem_cons.mp hx with rfl | hx
    · exact ⟨_, _, _, .root, rfl⟩
    · obtain ⟨u, hu, A, s, B, hs, hid⟩ := exists_at_all x ts hx
      obtain ⟨L, R, rfl⟩ := List.append_of_mem hu
      exact ⟨_, s, _, (At.child .root).trans hs, hid⟩
theorem exists_at_all (x : NodeId) : (ts : List Tree) → x ∈ preorderAll ts →
    ∃ u ∈ ts, ∃ A s B, At u A s B ∧ s.id = x
  | [], hx => by cases hx
  | u :: ts, hx => by
    rw [preorderAll] at hx
    rcases List.mem_append.mp hx with hx | hx
    · exact ⟨u, by simp, exists_at x u hx⟩
    · obtain ⟨v, hv, h⟩ := exists_at_all x ts hx
      exact ⟨v, by simp [hv], h⟩
end

/-! ### Nodes of a tree in a well-formed store -/

/-- What is in a tree is below its root. -/
theorem Shown.ancestor (hd : d.WellFormed) (ht : t.Shown d) {x : NodeId} (hx : x ∈ t.preorder) :
    d.Ancestor t.id x := by
  obtain ⟨A, s, B, hs, rfl⟩ := exists_at x t hx
  clear hx
  induction hs with
  | root => exact .refl _
  | @child A B n L R s hat ih =>
    have hshown := hat.shown ht
    have hmem : s.id ∈ d.children n := by
      rw [show d.children n = _ from hshown.children]
      simp [kids]
    exact .of_parent ((hd.parent_iff n s.id).mpr hmem) ih

/-- Of two ancestors of a node one is above the other. -/
theorem ancestor_or (d : Document) {a b n : NodeId} (ha : d.Ancestor a n) (hb : d.Ancestor b n) :
    d.Ancestor a b ∨ d.Ancestor b a := by
  induction ha using Relation.ReflTransGen.head_induction_on with
  | refl => exact .inr hb
  | @head m q hmq _ ih =>
    rcases hb.cases_parent with rfl | ⟨q', hq', hb⟩
    · left
      exact .head hmq ‹_›
    · rw [hmq, Option.some.injEq] at hq'
      subst hq'
      exact ih hb

/-- Trees below one node have no node in common. -/
theorem disjoint_siblings (hd : d.WellFormed) {p : NodeId} {u v : Tree}
    (hu : u.Shown d) (hv : v.Shown d) (hup : d.mParent u.id = some p)
    (hvp : d.mParent v.id = some p) (hne : u.id ≠ v.id) {x : NodeId} (hxu : x ∈ u.preorder) :
    x ∉ v.preorder := by
  have hno : ∀ a b, d.mParent a = some p → d.mParent b = some p → a ≠ b → ¬d.Ancestor a b := by
    intro a b ha hb hab h
    rcases h.cases_parent with heq | ⟨q, hq, h⟩
    · exact hab heq
    · rw [hb, Option.some.injEq] at hq
      subst hq
      exact hd.not_ancestor_parent ha h
  intro hxv
  rcases ancestor_or d (hu.ancestor hd hxu) (hv.ancestor hd hxv) with h | h
  · exact hno _ _ hup hvp hne h
  · exact hno _ _ hvp hup (Ne.symm hne) h

mutual
/-- No node is twice in a tree. -/
theorem Shown.nodup (hd : d.WellFormed) : (t : Tree) → t.Shown d → t.preorder.Nodup
  | node n ts, ht => by
    rw [Tree.preorder, List.nodup_cons]
    have hpar : ∀ u ∈ ts, d.mParent u.id = some n := by
      intro u hu
      rw [hd.parent_iff, show d.children n = _ from ht.children]
      exact List.mem_map_of_mem hu
    have hids : (ts.map id).Nodup := by
      have hnodup := hd.nodup n
      rwa [show d.children n = ts.map id from ht.children] at hnodup
    refine ⟨fun hn => ?_, ShownAll.nodup hd n ts ht.all hpar hids⟩
    obtain ⟨u, hu, hx⟩ := mem_preorderAll.mp hn
    exact hd.not_ancestor_parent (hpar u hu) ((ht.all.mem hu).ancestor hd hx)
theorem ShownAll.nodup (hd : d.WellFormed) (n : NodeId) : (ts : List Tree) → ShownAll d ts →
    (∀ u ∈ ts, d.mParent u.id = some n) → (ts.map id).Nodup → (preorderAll ts).Nodup
  | [], _, _, _ => List.nodup_nil
  | u :: ts, hall, hpar, hids => by
    rw [ShownAll] at hall
    rw [List.map_cons, List.nodup_cons] at hids
    obtain ⟨hu, hts⟩ := List.forall_mem_cons.mp hpar
    rw [preorderAll, List.nodup_append]
    refine ⟨Shown.nodup hd u hall.1, ShownAll.nodup hd n ts hall.2 hts hids.2, ?_⟩
    rintro x hxu y hy rfl
    obtain ⟨v, hv, hxv⟩ := mem_preorderAll.mp hy
    have hne : u.id ≠ v.id := fun heq => hids.1 (by rw [heq]; exact List.mem_map_of_mem hv)
    exact disjoint_siblings hd hall.1 (hall.2.mem hv) hu (hts v hv) hne hxu hxv
end

/-- Below the root of a tree every node has a parent. -/
theorem Shown.exists_parent (hd : d.WellFormed) (ht : t.Shown d) {x : NodeId}
    (hx : x ∈ preorderAll t.kids) : ∃ p, d.mParent x = some p := by
  have hxt : x ∈ t.preorder := by simp [preorder_eq, hx]
  rcases (ht.ancestor hd hxt).cases_parent with heq | ⟨p, hp, -⟩
  · have hnodup := Shown.nodup hd t ht
    rw [preorder_eq, List.nodup_cons, heq] at hnodup
    exact absurd hx hnodup.1
  · exact ⟨p, hp⟩

/-- A tree is in its store. -/
theorem Shown.lt_fresh (hd : d.WellFormed) (ht : t.Shown d) (hroot : t.id < d.fresh) {x : NodeId}
    (hx : x ∈ t.preorder) : x < d.fresh := by
  rcases (ht.ancestor hd hx).cases_parent with heq | ⟨p, hp, -⟩
  · rwa [← heq]
  · exact hd.child_lt hp

/-- A tree has no more nodes than its store. -/
theorem Shown.length_le (hd : d.WellFormed) (ht : t.Shown d) (hroot : t.id < d.fresh) :
    t.preorder.length ≤ d.fresh := by
  have hsub : t.preorder ⊆ List.range d.fresh := by
    intro x hx
    rw [List.mem_range]
    exact ht.lt_fresh hd hroot hx
  simpa using (List.subperm_of_subset (Shown.nodup hd t ht) hsub).length_le

end Tree

/-! ### The walker visits in document order -/

namespace Tree

variable {d : Document} {t s : Tree} {accept : NodeId → Bool}

theorem findSome?_kids {k : ℕ} {ts : List Tree}
    (h : ∀ u ∈ ts, d.firstChildOf accept k u.id = (preorderAll u.kids).find? accept) :
    (ts.map id).findSome? (fun c => if accept c then some c else d.firstChildOf accept k c) =
      (preorderAll ts).find? accept := by
  induction ts with
  | nil => rfl
  | cons u ts ih =>
    obtain ⟨hu, hts⟩ := List.forall_mem_cons.mp h
    rw [List.map_cons, List.findSome?_cons, preorderAll, preorder_eq, List.cons_append,
      List.find?_cons, List.find?_append, ih hts, hu]
    by_cases hacc : accept u.id
    · simp [hacc]
    · simp only [hacc, Bool.false_eq_true, if_false]
      cases (preorderAll u.kids).find? accept <;> rfl

/-- The search below a node. -/
theorem firstChildOf_eq {k : ℕ} (ht : t.Shown d) (hk : t.preorder.length ≤ k + 1) :
    d.firstChildOf accept (k + 1) t.id = (preorderAll t.kids).find? accept := by
  induction k generalizing t with
  | zero =>
    have hkids : t.kids = [] := by
      rw [preorder_eq, List.length_cons] at hk
      cases hts : t.kids with
      | nil => rfl
      | cons u ts =>
        rw [hts, preorderAll, preorder_eq] at hk
        simp at hk
    rw [Document.firstChildOf, ht.children, hkids]
    rfl
  | succ k ih =>
    rw [Document.firstChildOf, ht.children]
    apply findSome?_kids
    intro u hu
    apply ih (ht.all.mem hu)
    obtain ⟨L, R, hts⟩ := List.append_of_mem hu
    rw [preorder_eq, hts, preorderAll_append, preorderAll] at hk
    simp only [List.length_cons, List.length_append] at hk
    omega

/-- The search behind a node. -/
theorem nextAbove_eq (hd : d.WellFormed) (ht : t.Shown d) (hroot : t.id < d.fresh)
    {A B : List NodeId} (hs : At t A s B) {k : ℕ} (hk : A.length ≤ k) (hne : s.id ≠ t.id) :
    d.nextAbove accept t.id k s.id = B.find? accept := by
  induction hs generalizing k with
  | root => exact absurd rfl hne
  | @child A B n L R s hat ih =>
    rw [List.length_append, List.length_cons] at hk
    obtain ⟨k, rfl⟩ : ∃ j, k = j + 1 := ⟨k - 1, by omega⟩
    have hshown := hat.shown ht
    have hch : d.children n = L.map id ++ s.id :: R.map id := by
      rw [show d.children n = _ from hshown.children]
      simp [kids]
    have hpar : d.mParent s.id = some n := by
      rw [hd.parent_iff, hch]
      simp
    have hidx : (d.children n).idxOf? s.id = some L.length := by
      rw [hch, idxOf?_append_cons _ (not_mem_of_nodup_cut (hch ▸ hd.nodup n)).1, List.length_map]
    have hchild : d.childOf accept d.fresh n L.length = (preorderAll R).find? accept := by
      have hdrop : (d.children n).drop (L.length + 1) = R.map id := by
        rw [hch, ← List.length_map (f := id), List.drop_length_add_append]
        rfl
      rw [Document.childOf, hdrop]
      apply findSome?_kids
      intro u hu
      have hushown : u.Shown d := hshown.all.mem (by simp [kids, hu])
      have hulen := hushown.length_le hd (hd.child_lt ((hd.parent_iff n u.id).mpr (by
        rw [hch]
        simp [List.mem_map_of_mem hu])))
      obtain ⟨j, hj⟩ := Nat.exists_eq_succ_of_ne_zero (Nat.ne_of_gt (Nat.zero_lt_of_lt hroot))
      rw [hj] at hulen ⊢
      exact firstChildOf_eq hushown hulen
    rw [Document.nextAbove, hpar]
    simp only [Option.bind_eq_bind, Option.bind_some, hidx, hchild]
    rw [List.find?_append]
    cases (preorderAll R).find? accept with
    | some x => rfl
    | none =>
      show (if n = t.id then none else d.nextAbove accept t.id k n) = B.find? accept
      split_ifs with hn
      · obtain ⟨-, rfl⟩ := hat.eq_root (Shown.nodup hd t ht) hn
        rfl
      · exact ih (by omega) hn

/-- `NextNode` gives the first node behind a node, in document order, that is accepted. -/
theorem nextNode_eq (hd : d.WellFormed) (ht : t.Shown d) (hroot : t.id < d.fresh)
    {A B : List NodeId} {n : NodeId} (hn : t.preorder = A ++ n :: B) :
    d.nextNode accept t.id n = B.find? accept := by
  have hnodup := Shown.nodup hd t ht
  have hlen := ht.length_le hd hroot
  obtain ⟨A', s, B', hs, rfl⟩ := exists_at n t (by rw [hn]; simp)
  have hpre := hs.preorder
  rw [preorder_eq s, List.append_assoc, List.cons_append] at hpre
  obtain ⟨rfl, rfl⟩ := cut_unique (hn ▸ hnodup) (hn.symm.trans hpre)
  have hslen : s.preorder.length ≤ d.fresh := by
    rw [hs.preorder] at hlen
    simp only [List.length_append] at hlen
    omega
  have hA : A.length ≤ d.fresh := by
    rw [hn, List.length_append] at hlen
    omega
  obtain ⟨j, hj⟩ := Nat.exists_eq_succ_of_ne_zero (Nat.ne_of_gt (Nat.zero_lt_of_lt hroot))
  have hfirst : d.firstChildOf accept d.fresh s.id = (preorderAll s.kids).find? accept := by
    rw [hj] at hslen ⊢
    exact firstChildOf_eq (hs.shown ht) hslen
  rw [Document.nextNode, hfirst, List.find?_append]
  cases (preorderAll s.kids).find? accept with
  | some x => rfl
  | none =>
    show (if s.id = t.id then none else d.nextAbove accept t.id d.fresh s.id) = B'.find? accept
    split_ifs with hid
    · obtain ⟨-, rfl⟩ := hs.eq_root hnodup hid
      rfl
    · exact nextAbove_eq hd ht hroot hs hA hid

end Tree

end Kompozer.Dom

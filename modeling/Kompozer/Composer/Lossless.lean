import Kompozer.Composer.Wrapped
import Mathlib.Data.List.Find

/-! Showing the notes of a tree and hiding them again gives back the tree. The walker has always
found the next node before the current one is moved, and everything behind the current node in
document order is still as it was. -/

namespace Kompozer.Composer

open Dom NsResult Tree

/-! ### The tree with some notes shown -/

namespace Shows

variable (S : Shows)

mutual
/-- A shown note is in its element, behind the picture. -/
def tree : Tree → Tree
  | .node n ts =>
    match S n with
    | some (image, span) => .node span [.node image [], .node n (treeAll ts)]
    | none => .node n (treeAll ts)
def treeAll : List Tree → List Tree
  | [] => []
  | t :: ts => tree t :: treeAll ts
end

/-- What stands for a node in document order. -/
def expand (n : NodeId) : List NodeId :=
  match S n with
  | some (image, span) => [span, image, n]
  | none => [n]

variable {S}

theorem expand_none {n : NodeId} (h : S n = none) : S.expand n = [n] := by rw [expand, h]

theorem expand_some {n i s : NodeId} (h : S n = some (i, s)) : S.expand n = [s, i, n] := by
  rw [expand, h]

theorem flatMap_expand {ns : List NodeId} (h : ∀ n ∈ ns, S n = none) :
    ns.flatMap S.expand = ns := by
  induction ns with
  | nil => rfl
  | cons n ns ih =>
    obtain ⟨hn, hns⟩ := List.forall_mem_cons.mp h
    rw [List.flatMap_cons, expand_none hn, ih hns]
    rfl

/-- The elements of other notes are found as before. -/
theorem findSome?_update {c : NodeId} {ns : List NodeId} (hc : c ∉ ns) :
    (ns.findSome? fun n => (Function.update S c none n).map Prod.snd) =
      ns.findSome? fun n => (S n).map Prod.snd := by
  induction ns with
  | nil => rfl
  | cons n ns ih =>
    rw [List.mem_cons, not_or] at hc
    rw [List.findSome?_cons, List.findSome?_cons, Function.update_of_ne (Ne.symm hc.1), ih hc.2]

theorem id_tree (t : Tree) : (S.tree t).id = S.outer t.id := by
  cases t with
  | node n ts =>
    rw [tree]
    show _ = S.outer n
    cases h : S n with
    | none => rw [outer_none h]; rfl
    | some v => rw [outer_some h]; rfl

theorem map_id_treeAll (ts : List Tree) :
    (S.treeAll ts).map Tree.id = (ts.map Tree.id).map S.outer := by
  induction ts with
  | nil => rw [treeAll]; rfl
  | cons t ts ih => rw [treeAll, List.map_cons, id_tree, ih]; rfl

mutual
theorem preorder_tree : (t : Tree) → (S.tree t).preorder = t.preorder.flatMap S.expand
  | .node n ts => by
    rw [tree, Tree.preorder, List.flatMap_cons]
    cases h : S n with
    | none =>
      rw [expand_none h, ← preorder_treeAll ts]
      exact Tree.preorder.eq_1 ..
    | some v =>
      rw [expand_some h, ← preorder_treeAll ts]
      simp [Tree.preorder, preorderAll]
theorem preorder_treeAll : (ts : List Tree) →
    preorderAll (S.treeAll ts) = (preorderAll ts).flatMap S.expand
  | [] => by
    rw [treeAll]
    rfl
  | t :: ts => by
    rw [treeAll, preorderAll, preorderAll, List.flatMap_append, preorder_tree t,
      preorder_treeAll ts]
end

end Shows

variable {pg pg' : Page} {S : Shows} {t : Tree}

namespace Wrapped

mutual
/-- The page with notes shown holds the tree with these notes shown. -/
theorem shown (h : Wrapped pg S pg') : (t : Tree) → t.Shown pg.doc →
    (∀ n ∈ t.preorder, n < pg.doc.fresh) → (S.tree t).Shown pg'.doc
  | .node n ts, ht, hold => by
    have hn : n < pg.doc.fresh := hold n (by simp [Tree.preorder])
    have hch : pg'.doc.children n = (S.treeAll ts).map Tree.id := by
      rw [h.children hn, show pg.doc.children n = _ from ht.children, Shows.map_id_treeAll]
      rfl
    have hall := shownAll h ts ht.all fun x hx => hold x (by simp [Tree.preorder, hx])
    rw [Shows.tree]
    cases hS : S n with
    | none =>
      show Tree.Shown _ _
      rw [Tree.Shown]
      exact ⟨hch, hall⟩
    | some v =>
      obtain ⟨i, s⟩ := v
      simp only [Tree.Shown, ShownAll, and_true]
      exact ⟨(h.span n i s hS).2.1, (h.image n i s hS).2.1, hch, hall⟩
theorem shownAll (h : Wrapped pg S pg') : (ts : List Tree) → ShownAll pg.doc ts →
    (∀ n ∈ preorderAll ts, n < pg.doc.fresh) → ShownAll pg'.doc (S.treeAll ts)
  | [], _, _ => by
    rw [Shows.treeAll]
    trivial
  | t :: ts, hall, hold => by
    rw [ShownAll] at hall
    rw [Shows.treeAll, ShownAll]
    exact ⟨shown h t hall.1 fun x hx => hold x (by simp [preorderAll, hx]),
      shownAll h ts hall.2 fun x hx => hold x (by simp [preorderAll, hx])⟩
end

/-! ### What the walkers find -/

/-- The next node, behind a node that is there now. -/
theorem nextNode_eq (h : Wrapped pg S pg') (hpg : pg.WellFormed) (ht : t.Shown pg.doc)
    (hroot : t.id < pg.doc.fresh) (hS : S t.id = none) {accept : NodeId → Bool}
    {A B : List NodeId} {n : NodeId} (hn : t.preorder.flatMap S.expand = A ++ n :: B) :
    pg'.doc.nextNode accept t.id n = B.find? accept := by
  have hold : ∀ x ∈ t.preorder, x < pg.doc.fresh := fun x hx => ht.lt_fresh hpg.doc hroot hx
  have hid : (S.tree t).id = t.id := by rw [Shows.id_tree, Shows.outer_none hS]
  rw [← hid]
  apply Tree.nextNode_eq h.wellFormed (h.shown t ht hold)
  · rw [hid]
    exact Nat.lt_of_lt_of_le hroot h.fresh
  · rw [Shows.preorder_tree, hn]

/-- A note that is not shown yet is accepted as before. -/
theorem acceptNote_eq (h : Wrapped pg S pg') (hpg : pg.WellFormed) {n : NodeId}
    (hn : n < pg.doc.fresh) (hS : S n = none) : pg'.acceptNote n = pg.acceptNote n := by
  rw [Page.acceptNote, Page.acceptNote, h.kind n hn, h.parent n hn hS]
  cases hp : pg.doc.mParent n with
  | none => rfl
  | some p => simp only [h.kind p (hpg.doc.parent_lt hp)]

/-- What is shown is not accepted again. -/
theorem acceptNote_expand (h : Wrapped pg S pg') (hpg : pg.WellFormed) {n : NodeId}
    (hn : n < pg.doc.fresh) (hS : pg.acceptNote n = true → (S n).isSome = true) :
    ∀ x ∈ S.expand n, pg'.acceptNote x = false := by
  intro x hx
  cases hSn : S n with
  | none =>
    rw [Shows.expand_none hSn, List.mem_singleton] at hx
    rw [hx, h.acceptNote_eq hpg hn hSn]
    by_contra hacc
    rw [hSn] at hS
    simp at hS
    exact hacc hS
  | some v =>
    obtain ⟨i, s⟩ := v
    obtain ⟨-, hch, text, hkinds⟩ := h.span n i s hSn
    obtain ⟨-, -, src, hkindi⟩ := h.image n i s hSn
    rw [Shows.expand_some hSn] at hx
    simp only [List.mem_cons, List.not_mem_nil, or_false] at hx
    rcases hx with rfl | rfl | rfl
    · simp [Page.acceptNote, hkinds]
    · simp [Page.acceptNote, hkindi]
    · have hp : pg'.doc.mParent x = some s :=
        (h.wellFormed.parent_iff s x).mpr (by simp [hch])
      simp [Page.acceptNote, hp, hkinds]

/-- The elements of the editor are those of the notes that are shown. -/
theorem find?_acceptSpan (h : Wrapped pg S pg') {B : List NodeId}
    (hB : ∀ n ∈ B, n < pg.doc.fresh ∧ (pg.kind n).isNvu = false) :
    (B.flatMap S.expand).find? pg'.acceptSpan = B.findSome? fun n => (S n).map Prod.snd := by
  induction B with
  | nil => rfl
  | cons n B ih =>
    obtain ⟨⟨hn, hnvu⟩, hB⟩ := List.forall_mem_cons.mp hB
    rw [List.flatMap_cons, List.find?_append, ih hB, List.findSome?_cons]
    cases hS : S n with
    | none =>
      rw [Shows.expand_none hS]
      simp [Page.acceptSpan, h.kind n hn, hnvu]
    | some v =>
      obtain ⟨i, s⟩ := v
      obtain ⟨-, -, text, hkinds⟩ := h.span n i s hS
      rw [Shows.expand_some hS]
      simp [Page.acceptSpan, hkinds]

/-! ### The loops -/

/-- The rest of the first loop: the notes of `A` are shown, those of `B` are not yet. -/
theorem wrapFrom_eq (hpg : pg.WellFormed) (ht : t.Shown pg.doc) (hroot : t.id < pg.doc.fresh)
    {k : ℕ} {A B : List NodeId} (h : Wrapped pg S pg') (hAB : preorderAll t.kids = A ++ B)
    (hk : B.length ≤ k) (hS : ∀ n, (S n).isSome ↔ n ∈ A ∧ pg.acceptNote n) :
    ∃ pg'' S', pg'.wrapFrom t.id k (B.find? pg.acceptNote) = some pg'' ∧ Wrapped pg S' pg'' ∧
      ∀ n, (S' n).isSome ↔ n ∈ preorderAll t.kids ∧ pg.acceptNote n := by
  induction k generalizing pg' S A B with
  | zero =>
    have hB : B = [] := List.eq_nil_of_length_eq_zero (Nat.le_zero.mp hk)
    subst hB
    rw [List.append_nil] at hAB
    exact ⟨pg', S, rfl, h, by rw [hAB]; exact hS⟩
  | succ k ih =>
    have hnodup : (t.id :: (A ++ B)).Nodup := by
      rw [← hAB, ← preorder_eq]
      exact Shown.nodup hpg.doc t ht
    have hnone : ∀ n, n ∉ A → S n = none := by
      intro n hn
      rw [← Option.not_isSome_iff_eq_none, hS]
      exact fun h => hn h.1
    cases hfind : B.find? pg.acceptNote with
    | none =>
      refine ⟨pg', S, rfl, h, fun n => ?_⟩
      rw [hS, hAB, List.mem_append]
      constructor
      · exact fun hn => ⟨.inl hn.1, hn.2⟩
      · rintro ⟨hn | hn, hacc⟩
        · exact ⟨hn, hacc⟩
        · exact absurd hacc (List.find?_eq_none.mp hfind n hn)
    | some c =>
      obtain ⟨hacc, C, D, rfl, hC⟩ := List.find?_eq_some_iff_append.mp hfind
      obtain ⟨hrootAB, hAB'⟩ := List.nodup_cons.mp hnodup
      obtain ⟨-, hCD, hdisj⟩ := List.nodup_append.mp hAB'
      have hnA : ∀ n ∈ C ++ c :: D, n ∉ A := fun n hn hnA => hdisj n hnA n hn rfl
      have hSroot : S t.id = none := hnone _ fun hA => hrootAB (List.mem_append_left _ hA)
      have hSc : S c = none := hnone c (hnA c (by simp))
      have hSD : ∀ n ∈ D, S n = none := fun n hn => hnone n (hnA n (by simp [hn]))
      have hDf : ∀ n ∈ D, n < pg.doc.fresh := by
        intro n hn
        apply ht.lt_fresh hpg.doc hroot
        rw [preorder_eq, hAB]
        simp [hn]
      -- the next node is behind the note, where nothing has changed
      have hcut : t.preorder.flatMap S.expand =
          (t.id :: (A ++ C)).flatMap S.expand ++ c :: D := by
        rw [preorder_eq, hAB, ← List.append_assoc, ← List.cons_append, List.flatMap_append,
          List.flatMap_cons (x := c), Shows.expand_none hSc, Shows.flatMap_expand hSD]
        rfl
      have htmp : pg'.doc.nextNode pg'.acceptNote t.id c = D.find? pg.acceptNote := by
        rw [h.nextNode_eq hpg ht hroot hSroot hcut]
        exact List.find?_congr fun n hn => h.acceptNote_eq hpg (hDf n hn) (hSD n hn)
      obtain ⟨hnote, p, hp⟩ := Page.note_of_acceptNote hacc
      obtain ⟨pg'', s, i, hwrap, h''⟩ := h.wrap hpg hSc hnote hp
      have hrec : pg'.wrapFrom t.id (k + 1) (some c) =
          pg''.wrapFrom t.id k (D.find? pg.acceptNote) := by
        rw [Page.wrapFrom, htmp, Option.bind_eq_bind, hwrap, Option.bind_some]
      rw [hrec]
      apply ih h'' (A := A ++ C ++ [c])
      · rw [hAB]
        simp
      · simp only [List.length_append, List.length_cons] at hk
        omega
      · intro n
        by_cases hn : n = c
        · subst hn
          simp [hacc]
        · have hiff : n ∈ A ++ C ++ [c] ∧ pg.acceptNote n = true ↔
              n ∈ A ∧ pg.acceptNote n = true := by
            simp only [List.mem_append, List.mem_singleton, hn, or_false]
            constructor
            · rintro ⟨hA | hnC, hnacc⟩
              · exact ⟨hA, hnacc⟩
              · have := hC n hnC
                simp [hnacc] at this
            · exact fun ⟨hA, hnacc⟩ => ⟨.inl hA, hnacc⟩
          rw [Function.update_of_ne hn, hiff, hS]

/-- The rest of the second loop: only notes of `B` are still shown. -/
theorem unwrapFrom_eq (hpg : pg.WellFormed) (ht : t.Shown pg.doc) (hroot : t.id < pg.doc.fresh)
    (hno : ∀ n ∈ t.preorder, (pg.kind n).isNvu = false) {k : ℕ} {A B : List NodeId}
    (h : Wrapped pg S pg') (hAB : preorderAll t.kids = A ++ B) (hk : B.length ≤ k)
    (hS : ∀ n, (S n).isSome → n ∈ B) :
    ∃ pg'', pg'.unwrapFrom t.id k (B.findSome? fun n => (S n).map Prod.snd) = some pg'' ∧
      Wrapped pg (fun _ => none) pg'' := by
  induction k generalizing pg' S A B with
  | zero =>
    have hB : B = [] := List.eq_nil_of_length_eq_zero (Nat.le_zero.mp hk)
    subst hB
    have hnone : S = fun _ => none := by
      funext n
      rw [← Option.not_isSome_iff_eq_none]
      exact fun hn => List.not_mem_nil (hS n hn)
    exact ⟨pg', rfl, hnone ▸ h⟩
  | succ k ih =>
    have hnodup : (t.id :: (A ++ B)).Nodup := by
      rw [← hAB, ← preorder_eq]
      exact Shown.nodup hpg.doc t ht
    have hnone : ∀ n, n ∉ B → S n = none := by
      intro n hn
      rw [← Option.not_isSome_iff_eq_none]
      exact fun h => hn (hS n h)
    cases hfind : B.findSome? fun n => (S n).map Prod.snd with
    | none =>
      have hempty : S = fun _ => none := by
        funext n
        by_cases hn : n ∈ B
        · simpa using List.findSome?_eq_none_iff.mp hfind n hn
        · exact hnone n hn
      exact ⟨pg', rfl, hempty ▸ h⟩
    | some s =>
      obtain ⟨C, c, D, rfl, hc, hC⟩ := List.findSome?_eq_some_iff.mp hfind
      obtain ⟨⟨i, s⟩, hSc, rfl⟩ := Option.map_eq_some_iff.mp hc
      obtain ⟨hrootAB, hAB'⟩ := List.nodup_cons.mp hnodup
      obtain ⟨-, hCD, -⟩ := List.nodup_append.mp hAB'
      obtain ⟨hcC, hcD⟩ := not_mem_of_nodup_cut hCD
      have hSroot : S t.id = none := hnone _ fun hB => hrootAB (List.mem_append_right _ hB)
      have hmem : ∀ n ∈ C ++ c :: D, n < pg.doc.fresh ∧ (pg.kind n).isNvu = false := by
        intro n hn
        have hnt : n ∈ t.preorder := by
          rw [preorder_eq, hAB]
          exact List.mem_cons_of_mem _ (List.mem_append_right _ hn)
        exact ⟨ht.lt_fresh hpg.doc hroot hnt, hno n hnt⟩
      -- the next node is behind the element with its picture and its note
      have hcut : t.preorder.flatMap S.expand =
          (t.id :: (A ++ C)).flatMap S.expand ++ s :: (i :: c :: D.flatMap S.expand) := by
        rw [preorder_eq, hAB, ← List.append_assoc, ← List.cons_append, List.flatMap_append,
          List.flatMap_cons (x := c), Shows.expand_some hSc]
        rfl
      have hi : pg'.acceptSpan i = false := by
        obtain ⟨-, -, src, hkindi⟩ := h.image c i s hSc
        rw [Page.acceptSpan, hkindi, Kind.isNvu_ofImage]
      have hc : pg'.acceptSpan c = false := by
        obtain ⟨hcf, hnvu⟩ := hmem c (by simp)
        rw [Page.acceptSpan, h.kind c hcf, hnvu]
      have htmp : pg'.doc.nextNode pg'.acceptSpan t.id s =
          D.findSome? fun n => (S n).map Prod.snd := by
        rw [h.nextNode_eq hpg ht hroot hSroot hcut, List.find?_cons_of_neg (by simp [hi]),
          List.find?_cons_of_neg (by simp [hc])]
        exact h.find?_acceptSpan fun n hn => hmem n (by simp [hn])
      obtain ⟨pg'', hunwrap, h''⟩ := h.unwrap hpg hSc
      have hD : (D.findSome? fun n => (S n).map Prod.snd) =
          D.findSome? fun n => (Function.update S c none n).map Prod.snd :=
        (Shows.findSome?_update hcD).symm
      have hrec : pg'.unwrapFrom t.id (k + 1) (some s) = pg''.unwrapFrom t.id k
          (D.findSome? fun n => (Function.update S c none n).map Prod.snd) := by
        rw [Page.unwrapFrom, htmp, Option.bind_eq_bind, hunwrap, Option.bind_some, hD]
      rw [hrec]
      apply ih h'' (A := A ++ C ++ [c])
      · rw [hAB]
        simp
      · simp only [List.length_append, List.length_cons] at hk
        omega
      · intro n hn
        by_cases hnc : n = c
        · rw [hnc, Function.update_self] at hn
          cases hn
        · rw [Function.update_of_ne hnc] at hn
          rcases List.mem_append.mp (hS n hn) with hnC | hnD
          · have := hC n hnC
            rw [Option.map_eq_none_iff] at this
            rw [this] at hn
            cases hn
          · exact (List.mem_cons.mp hnD).resolve_left hnc

end Wrapped

/-! ### Showing, showing again and hiding -/

namespace Wrapped

/-- `MakePhpAndCommentsVisible` shows every note that is accepted. -/
theorem of_visible (hpg : pg.WellFormed) (ht : t.Shown pg.doc) (hroot : t.id < pg.doc.fresh) :
    ∃ pg' S, pg.MakePhpAndCommentsVisible t.id = some pg' ∧ Wrapped pg S pg' ∧
      ∀ n, (S n).isSome ↔ n ∈ preorderAll t.kids ∧ pg.acceptNote n := by
  have hfirst : pg.doc.nextNode pg.acceptNote t.id t.id =
      (preorderAll t.kids).find? pg.acceptNote :=
    Tree.nextNode_eq hpg.doc ht hroot (A := []) (preorder_eq t)
  have hlen := ht.length_le hpg.doc hroot
  rw [preorder_eq, List.length_cons] at hlen
  rw [Page.MakePhpAndCommentsVisible, hfirst]
  exact wrapFrom_eq hpg ht hroot (refl hpg) (A := []) rfl (Nat.le_of_succ_le hlen) (by simp)

/-- Then no note is accepted. -/
theorem visible_eq (h : Wrapped pg S pg') (hpg : pg.WellFormed) (ht : t.Shown pg.doc)
    (hroot : t.id < pg.doc.fresh)
    (hS : ∀ n, (S n).isSome ↔ n ∈ preorderAll t.kids ∧ pg.acceptNote n) :
    pg'.MakePhpAndCommentsVisible t.id = some pg' := by
  have hnodup := Shown.nodup hpg.doc t ht
  rw [preorder_eq, List.nodup_cons] at hnodup
  have hSroot : S t.id = none := by
    rw [← Option.not_isSome_iff_eq_none, hS]
    exact fun h => hnodup.1 h.1
  have hcut : t.preorder.flatMap S.expand = [] ++ t.id :: (preorderAll t.kids).flatMap S.expand := by
    rw [preorder_eq, List.flatMap_cons, Shows.expand_none hSroot]
    rfl
  have hfirst : pg'.doc.nextNode pg'.acceptNote t.id t.id = none := by
    rw [h.nextNode_eq hpg ht hroot hSroot hcut, List.find?_eq_none]
    intro x hx
    obtain ⟨n, hn, hx⟩ := List.mem_flatMap.mp hx
    have hnf : n < pg.doc.fresh := ht.lt_fresh hpg.doc hroot (by simp [preorder_eq, hn])
    rw [h.acceptNote_expand hpg hnf (fun hacc => (hS n).mpr ⟨hn, hacc⟩) x hx]
    simp
  rw [Page.MakePhpAndCommentsVisible, hfirst]
  cases pg'.doc.fresh <;> rfl

/-- `MakePhpAndCommentsInvisible` hides every note that is shown. -/
theorem exists_invisible (h : Wrapped pg S pg') (hpg : pg.WellFormed) (ht : t.Shown pg.doc)
    (hroot : t.id < pg.doc.fresh) (hno : ∀ n ∈ t.preorder, (pg.kind n).isNvu = false)
    (hS : ∀ n, (S n).isSome → n ∈ preorderAll t.kids) :
    ∃ pg'', pg'.MakePhpAndCommentsInvisible t.id = some pg'' ∧ Wrapped pg (fun _ => none) pg'' := by
  have hnodup := Shown.nodup hpg.doc t ht
  rw [preorder_eq, List.nodup_cons] at hnodup
  have hSroot : S t.id = none := by
    rw [← Option.not_isSome_iff_eq_none]
    exact fun h => hnodup.1 (hS _ h)
  have hcut : t.preorder.flatMap S.expand = [] ++ t.id :: (preorderAll t.kids).flatMap S.expand := by
    rw [preorder_eq, List.flatMap_cons, Shows.expand_none hSroot]
    rfl
  have hfirst : pg'.doc.nextNode pg'.acceptSpan t.id t.id =
      (preorderAll t.kids).findSome? fun n => (S n).map Prod.snd := by
    rw [h.nextNode_eq hpg ht hroot hSroot hcut]
    apply h.find?_acceptSpan
    intro n hn
    have hnt : n ∈ t.preorder := by simp [preorder_eq, hn]
    exact ⟨ht.lt_fresh hpg.doc hroot hnt, hno n hnt⟩
  have hlen := ht.length_le hpg.doc hroot
  rw [preorder_eq, List.length_cons] at hlen
  rw [Page.MakePhpAndCommentsInvisible, hfirst]
  exact unwrapFrom_eq hpg ht hroot hno h (A := []) rfl
    (Nat.le_trans (Nat.le_of_succ_le hlen) h.fresh) hS

/-- When no note is shown, the nodes are as they were. -/
theorem restored (h : Wrapped pg (fun _ => none) pg') {n : NodeId} (hn : n < pg.doc.fresh) :
    pg'.doc.body n = pg.doc.body n ∧ pg'.doc.mParent n = pg.doc.mParent n ∧
      pg'.kind n = pg.kind n := by
  refine ⟨?_, h.parent n hn rfl, h.kind n hn⟩
  rw [h.body n hn, Shows.outer_empty, List.map_id]
  exact Body.withChildren_children _

/-- The tree is shown as it was. -/
theorem tree_restored (h : Wrapped pg (fun _ => none) pg') (ht : t.Shown pg.doc)
    (hold : ∀ n ∈ t.preorder, n < pg.doc.fresh) : t.Shown pg'.doc := by
  apply ht.congr
  intro n hn
  rw [Document.children, (h.restored (hold n hn)).1]
  rfl

end Wrapped

/-- In a tree without elements of the editor, every comment and processing instruction whose
parent does not carry the editor's `xmlns` is put into one element; showing again does nothing;
and hiding gives back the tree, with all nodes of the page as they were. -/
theorem notes_lossless (hpg : pg.WellFormed) (ht : t.Shown pg.doc) (hroot : t.id < pg.doc.fresh)
    (hno : ∀ n ∈ t.preorder, (pg.kind n).isNvu = false) :
    ∃ pg₁ pg₂ S, pg.MakePhpAndCommentsVisible t.id = some pg₁ ∧
      (∀ n, (S n).isSome ↔ n ∈ preorderAll t.kids ∧ (pg.kind n).isNote ∧
        ∀ p, pg.doc.mParent n = some p → (pg.kind p).getAttribute "xmlns" ≠ some NVU_NS) ∧
      Wrapped pg S pg₁ ∧ (S.tree t).Shown pg₁.doc ∧
      pg₁.MakePhpAndCommentsVisible t.id = some pg₁ ∧
      pg₁.MakePhpAndCommentsInvisible t.id = some pg₂ ∧ t.Shown pg₂.doc ∧
      ∀ n < pg.doc.fresh, pg₂.doc.body n = pg.doc.body n ∧
        pg₂.doc.mParent n = pg.doc.mParent n ∧ pg₂.kind n = pg.kind n := by
  have hold : ∀ n ∈ t.preorder, n < pg.doc.fresh := fun n hn => ht.lt_fresh hpg.doc hroot hn
  obtain ⟨pg₁, S, hvis, h₁, hS⟩ := Wrapped.of_visible hpg ht hroot
  obtain ⟨pg₂, hinv, h₂⟩ := h₁.exists_invisible hpg ht hroot hno fun n hn => ((hS n).mp hn).1
  refine ⟨pg₁, pg₂, S, hvis, ?_, h₁, h₁.shown t ht hold, h₁.visible_eq hpg ht hroot hS, hinv,
    h₂.tree_restored ht hold, fun n hn => h₂.restored hn⟩
  intro n
  rw [hS]
  apply and_congr_right
  intro hn
  obtain ⟨p, hp⟩ := ht.exists_parent hpg.doc hn
  simp [Page.acceptNote, hp]

/-! ### A comment in a paragraph -/

/-- A comment in an element in the root. -/
def paragraph : Document where
  mParent n := if n = 1 then some 0 else if n = 2 then some 1 else none
  body n := if n = 0 then .element "body" [1] else if n = 1 then .element "p" [2] else .text []
  fresh := 3

/-- The page in which the paragraph has the given attributes. -/
def commentIn (attributes : List (String × DOMString)) : Page where
  doc := paragraph
  kind n := if n = 0 then .element none [] else
    if n = 1 then .element none attributes else .comment

theorem paragraph_wellFormed : paragraph.WellFormed := by
  have hparent : ∀ p c, paragraph.mParent c = some p ↔ c = 1 ∧ p = 0 ∨ c = 2 ∧ p = 1 := by
    intro p c
    simp only [paragraph]
    split_ifs with h₁ h₂
    · simp [h₁, eq_comm]
    · simp [h₂, eq_comm]
    · simp [h₁, h₂]
  have hch : ∀ n, paragraph.children n = if n = 0 then [1] else if n = 1 then [2] else [] := by
    intro n
    simp only [Document.children, paragraph]
    split_ifs <;> rfl
  refine ⟨?_, ?_, ?_, id, ?_⟩
  · intro p c
    rw [hparent, hch]
    split_ifs with h₀ h₁
    · simp [h₀]
    · simp [h₁]
    · simp [h₀, h₁]
  · intro p
    rw [hch]
    split_ifs <;> simp
  · intro p c h
    rcases (hparent p c).mp h with ⟨rfl, rfl⟩ | ⟨rfl, rfl⟩ <;> decide
  · intro p c h
    rcases (hparent p c).mp h with ⟨rfl, rfl⟩ | ⟨rfl, rfl⟩ <;> decide

theorem paragraph_shown : (Dom.Tree.node 0 [.node 1 [.node 2 []]]).Shown paragraph := by
  simp [Tree.Shown, ShownAll, Document.children, Body.children, paragraph, Tree.id]

theorem commentIn_wellFormed (attributes : List (String × DOMString)) :
    (commentIn attributes).WellFormed := by
  refine ⟨paragraph_wellFormed, fun n hn => ?_⟩
  simp only [commentIn, paragraph, Document.isText] at hn ⊢
  split_ifs at hn ⊢ with h₀ h₁
  · exact hn
  · exact hn
  · rfl

/-- A comment that is put into an element and taken out again. -/
theorem notes_lossless_comment : ∃ pg₁ pg₂ S,
    (commentIn []).MakePhpAndCommentsVisible 0 = some pg₁ ∧ (S 2).isSome = true ∧
      Wrapped (commentIn []) S pg₁ ∧ pg₁.MakePhpAndCommentsVisible 0 = some pg₁ ∧
      pg₁.MakePhpAndCommentsInvisible 0 = some pg₂ ∧
      (Dom.Tree.node 0 [.node 1 [.node 2 []]]).Shown pg₂.doc := by
  obtain ⟨pg₁, pg₂, S, h₁, hS, hwrapped, -, h₂, h₃, hshown, -⟩ :=
    notes_lossless (commentIn_wellFormed []) paragraph_shown (by decide) (by decide)
  refine ⟨pg₁, pg₂, S, h₁, (hS 2).mpr ⟨by decide, by decide, ?_⟩, hwrapped, h₂, h₃, hshown⟩
  intro p hp
  obtain rfl : 1 = p := Option.some.inj hp
  decide

/-- A comment is not put into an element of the editor when its parent, which is none, carries the
editor's namespace as an attribute. -/
theorem carried_note_unwrapped : ∃ (pg : Page) (t : Dom.Tree), pg.WellFormed ∧ t.Shown pg.doc ∧
    t.id < pg.doc.fresh ∧ (∀ n ∈ t.preorder, (pg.kind n).isNvu = false) ∧
    ∃ pg₁, pg.MakePhpAndCommentsVisible t.id = some pg₁ ∧
      ∃ n ∈ preorderAll t.kids, (pg.kind n).isNote = true ∧
        ∀ p, pg₁.doc.mParent n = some p → (pg₁.kind p).isNvu = false := by
  have hnone : (commentIn [("xmlns", NVU_NS)]).doc.nextNode
      (commentIn [("xmlns", NVU_NS)]).acceptNote 0 0 = none := by decide
  refine ⟨commentIn [("xmlns", NVU_NS)], _, commentIn_wellFormed _, paragraph_shown, by decide,
    by decide, commentIn [("xmlns", NVU_NS)], ?_, 2, by decide, by decide, ?_⟩
  · rw [Page.MakePhpAndCommentsVisible]
    exact congrArg (Page.wrapFrom _ _ _) hnone
  · intro p hp
    obtain rfl : 1 = p := Option.some.inj hp
    decide

end Kompozer.Composer

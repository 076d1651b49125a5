import Kompozer.Dom.Document
import Kompozer.Lib.Splice
import Mathlib.Data.List.Nodup
import Mathlib.Data.List.Perm.Subperm
import Mathlib.Logic.Relation

/-! Well-formed stores: parents and lists of children agree, no node is twice in a list,
and no node is above itself. Every operation on children keeps a store well formed. -/

namespace Kompozer.Dom

namespace Body

@[simp] theorem children_withChildren {b : Body} (h : b.isText = false) (cs : List NodeId) :
    (b.withChildren cs).children = cs := by
  cases b with
  | text t => simp [isText] at h
  | element tag ds => rfl

@[simp] theorem isText_withChildren (b : Body) (cs : List NodeId) :
    (b.withChildren cs).isText = b.isText := by
  cases b <;> rfl

@[simp] theorem withChildren_withChildren (b : Body) (cs ds : List NodeId) :
    (b.withChildren cs).withChildren ds = b.withChildren ds := by
  cases b <;> rfl

@[simp] theorem withChildren_children (b : Body) : b.withChildren b.children = b := by
  cases b <;> rfl

theorem children_of_isText {b : Body} (h : b.isText = true) : b.children = [] := by
  cases b with
  | text t => rfl
  | element tag ds => simp [isText] at h

@[simp] theorem children_withData (b : Body) (t : List PRUnichar) :
    (b.withData t).children = b.children := by
  cases b <;> rfl

@[simp] theorem withData_data (b : Body) : b.withData b.data = b := by
  cases b <;> rfl

@[simp] theorem withData_withData (b : Body) (t u : List PRUnichar) :
    (b.withData t).withData u = b.withData u := by
  cases b <;> rfl

theorem data_withData {b : Body} (h : b.isText = true) (t : List PRUnichar) :
    (b.withData t).data = t := by
  cases b with
  | text u => rfl
  | element tag cs => simp [isText] at h

theorem length_of_not_isText {b : Body} (h : b.isText = false) :
    b.length = b.children.length := by
  cases b with
  | text u => simp [isText] at h
  | element tag cs => rfl

end Body

namespace Document
variable {d : Document} {p c : NodeId}

theorem children_of_isText (h : d.isText p = true) : d.children p = [] :=
  Body.children_of_isText h

theorem isText_of_mem (h : c ∈ d.children p) : d.isText p = false := by
  by_contra ht
  simp only [Bool.not_eq_false] at ht
  simp [children_of_isText ht] at h

@[simp] theorem children_setParent (n : NodeId) (q : Option NodeId) :
    (d.setParent n q).children = d.children := rfl

theorem children_setBody (n m : NodeId) (b : Body) :
    (d.setBody n b).children m = if m = n then b.children else d.children m := by
  simp only [children, setBody, Function.update_apply]
  split_ifs <;> rfl

theorem children_setChildren (h : d.isText p = false) (cs : List NodeId) (m : NodeId) :
    (d.setChildren p cs).children m = if m = p then cs else d.children m := by
  rw [setChildren, children_setBody, Body.children_withChildren h]

theorem children_link (h : d.isText p = false) (k : ℕ) (m : NodeId) :
    (d.link c p k).children m = if m = p then (d.children p).insertIdx k c else d.children m :=
  children_setChildren h _ m

theorem children_unlink (h : d.isText p = false) (k : ℕ) (m : NodeId) :
    (d.unlink c p k).children m = if m = p then (d.children p).eraseIdx k else d.children m :=
  children_setChildren h _ m

theorem mParent_link (k : ℕ) (m : NodeId) :
    (d.link c p k).mParent m = if m = c then some p else d.mParent m :=
  Function.update_apply _ _ _ _

theorem mParent_unlink (k : ℕ) (m : NodeId) :
    (d.unlink c p k).mParent m = if m = c then none else d.mParent m :=
  Function.update_apply _ _ _ _

theorem body_link (k : ℕ) (m : NodeId) : (d.link c p k).body m =
    if m = p then (d.body p).withChildren ((d.children p).insertIdx k c) else d.body m :=
  Function.update_apply _ _ _ _

theorem body_unlink (k : ℕ) (m : NodeId) : (d.unlink c p k).body m =
    if m = p then (d.body p).withChildren ((d.children p).eraseIdx k) else d.body m :=
  Function.update_apply _ _ _ _

@[simp] theorem fresh_link (k : ℕ) : (d.link c p k).fresh = d.fresh := rfl
@[simp] theorem fresh_unlink (k : ℕ) : (d.unlink c p k).fresh = d.fresh := rfl

@[simp] theorem isText_link (k : ℕ) (m : NodeId) : (d.link c p k).isText m = d.isText m := by
  rw [isText, body_link]
  split_ifs with h
  · rw [h, Body.isText_withChildren]
    rfl
  · rfl

@[simp] theorem isText_unlink (k : ℕ) (m : NodeId) :
    (d.unlink c p k).isText m = d.isText m := by
  rw [isText, body_unlink]
  split_ifs with h
  · rw [h, Body.isText_withChildren]
    rfl
  · rfl

/-! ### Ancestors -/

/-- A node is the other or one of its ancestors. -/
def Ancestor (d : Document) (a n : NodeId) : Prop :=
  Relation.ReflTransGen (fun c p => d.mParent c = some p) n a

namespace Ancestor

theorem refl (n : NodeId) : d.Ancestor n n := Relation.ReflTransGen.refl

theorem of_parent {a : NodeId} (hp : d.mParent c = some p) (h : d.Ancestor a p) :
    d.Ancestor a c := .head hp h

/-- An ancestor of a node is the node or an ancestor of its parent. -/
theorem cases_parent {a : NodeId} (h : d.Ancestor a c) :
    a = c ∨ ∃ p, d.mParent c = some p ∧ d.Ancestor a p := by
  rcases Relation.ReflTransGen.cases_head h with rfl | ⟨p, hp, h⟩
  · exact .inl rfl
  · exact .inr ⟨p, hp, h⟩

/-- Where the parents of a node and its ancestors stay, so do its ancestors. -/
theorem transfer {d' : Document} {a n : NodeId} (h : d.Ancestor a n) (P : NodeId → Prop) (hn : P n)
    (hP : ∀ c p, P c → d.mParent c = some p → d'.mParent c = some p ∧ P p) :
    d'.Ancestor a n := by
  induction h using Relation.ReflTransGen.head_induction_on with
  | refl => exact refl a
  | head hcp _ ih =>
    obtain ⟨hcp', hp⟩ := hP _ _ hn hcp
    exact of_parent hcp' (ih hp)

end Ancestor

/-- Parents and children agree and form trees of created nodes. -/
structure WellFormed (d : Document) : Prop where
  parent_iff : ∀ p c, d.mParent c = some p ↔ c ∈ d.children p
  nodup : ∀ p, (d.children p).Nodup
  bound : ∀ p c, d.mParent c = some p → c < d.fresh ∧ p < d.fresh
  acyclic : ∃ rank : NodeId → ℕ, ∀ p c, d.mParent c = some p → rank p < rank c

namespace WellFormed
variable (hd : d.WellFormed)
include hd

theorem rank_le : ∃ rank : NodeId → ℕ, (∀ p c, d.mParent c = some p → rank p < rank c) ∧
    ∀ a n, d.Ancestor a n → rank a ≤ rank n := by
  obtain ⟨rank, hrank⟩ := hd.acyclic
  refine ⟨rank, hrank, fun a n h => ?_⟩
  induction h with
  | refl => exact Nat.le_refl _
  | tail _ hp ih => exact Nat.le_trans (Nat.le_of_lt (hrank _ _ hp)) ih

/-- No node is above its parent. -/
theorem not_ancestor_parent (hp : d.mParent c = some p) : ¬ d.Ancestor c p := by
  obtain ⟨rank, hrank, hle⟩ := hd.rank_le
  intro h
  exact absurd (hle c p h) (Nat.not_le_of_lt (hrank p c hp))

theorem parent_ne (hp : d.mParent c = some p) : p ≠ c := by
  rintro rfl
  exact hd.not_ancestor_parent hp (.refl p)

/-- A chain of parents, with different nodes on it. -/
private theorem exists_chain {a n : NodeId} (h : d.Ancestor a n) (hn : n < d.fresh) :
    ∃ l : List NodeId, l.Nodup ∧ (∀ m ∈ l, m < d.fresh ∧ d.Ancestor m n) ∧
      ∀ k, l.length ≤ k → d.isDescendantWithin a k n = true := by
  induction h using Relation.ReflTransGen.head_induction_on with
  | refl =>
    refine ⟨[a], by simp, by simpa using ⟨hn, .refl a⟩, fun k hk => ?_⟩
    obtain ⟨k, rfl⟩ := Nat.exists_eq_add_of_le' hk
    simp [isDescendantWithin]
  | @head c p hcp _ ih =>
    obtain ⟨l, hl, hmem, hk⟩ := ih (hd.bound _ _ hcp).2
    refine ⟨c :: l, List.nodup_cons.mpr ⟨fun hc => ?_, hl⟩, ?_, fun k hlen => ?_⟩
    · exact hd.not_ancestor_parent hcp (hmem c hc).2
    · rintro m hm
      rcases List.mem_cons.mp hm with rfl | hm
      · exact ⟨hn, .refl m⟩
      · exact ⟨(hmem m hm).1, .of_parent hcp (hmem m hm).2⟩
    · obtain ⟨k, rfl⟩ := Nat.exists_eq_add_of_le' (Nat.le_trans (Nat.succ_le_succ (Nat.zero_le _)) hlen)
      rw [isDescendantWithin]
      split_ifs with hca
      · rfl
      · rw [hcp]
        exact hk k (by simpa using hlen)

/-- The loop of `ContentIsDescendantOf` finds the ancestors. -/
theorem contentIsDescendantOf_iff {a n : NodeId} (hn : n < d.fresh) :
    d.contentIsDescendantOf n a = true ↔ d.Ancestor a n := by
  constructor
  · intro h
    rw [contentIsDescendantOf] at h
    generalize d.fresh = k at h
    clear hn
    induction k generalizing n with
    | zero => simp [isDescendantWithin] at h
    | succ k ih =>
      rw [isDescendantWithin] at h
      split_ifs at h with hna
      · exact hna ▸ .refl n
      · cases hp : d.mParent n with
        | none => simp [hp] at h
        | some p =>
          rw [hp] at h
          exact .of_parent hp (ih h)
  · intro h
    obtain ⟨l, hl, hmem, hk⟩ := hd.exists_chain h hn
    refine hk d.fresh ?_
    have hsub : l ⊆ List.range d.fresh := fun m hm => List.mem_range.mpr (hmem m hm).1
    simpa using (List.subperm_of_subset hl hsub).length_le

theorem parent_lt (hp : d.mParent c = some p) : p < d.fresh := (hd.bound p c hp).2
theorem child_lt (hp : d.mParent c = some p) : c < d.fresh := (hd.bound p c hp).1

theorem not_mem_of_detached (hc : d.mParent c = none) (q : NodeId) : c ∉ d.children q := by
  intro h
  rw [← hd.parent_iff, hc] at h
  exact absurd h (by simp)

/-- The place of a node in the list of its parent. -/
theorem exists_cut (hp : d.mParent c = some p) :
    ∃ A B, d.children p = A ++ c :: B ∧ c ∉ A ∧ c ∉ B := by
  obtain ⟨A, B, h⟩ := List.append_of_mem ((hd.parent_iff p c).mp hp)
  exact ⟨A, B, h, not_mem_of_nodup_cut (h ▸ hd.nodup p)⟩

/-- A node in no tree can be put into a list of children. -/
theorem link {A B : List NodeId} (hAB : d.children p = A ++ B) (ht : d.isText p = false)
    (hc : d.mParent c = none) (hanc : ¬ d.Ancestor c p) (hcf : c < d.fresh) (hpf : p < d.fresh) :
    (d.link c p A.length).WellFormed := by
  have hch : ∀ m, (d.link c p A.length).children m = if m = p then A ++ c :: B else d.children m :=
    fun m => by rw [children_link ht, hAB, insertIdx_append_length]
  have hmem := hd.not_mem_of_detached hc
  have hperm : (A ++ c :: B).Perm (c :: (A ++ B)) := List.perm_middle
  refine ⟨fun q m => ?_, fun q => ?_, fun q m h => ?_, ?_⟩
  · rw [mParent_link, hch]
    by_cases hmc : m = c
    · rw [if_pos hmc, hmc]
      by_cases hqp : q = p
      · simp [hqp]
      · simp [hqp, Ne.symm hqp, hmem q]
    · rw [if_neg hmc, hd.parent_iff]
      by_cases hqp : q = p
      · rw [if_pos hqp, hqp, hAB]
        simp [hmc]
      · rw [if_neg hqp]
  · rw [hch]
    by_cases hqp : q = p
    · rw [if_pos hqp, hperm.nodup_iff, ← hAB]
      exact List.nodup_cons.mpr ⟨hmem p, hd.nodup p⟩
    · rw [if_neg hqp]
      exact hd.nodup q
  · rw [mParent_link] at h
    split_ifs at h with hmc
    · rw [← Option.some.inj h, hmc]
      exact ⟨hcf, hpf⟩
    · exact hd.bound q m h
  · -- the nodes under the new one get a rank below it
    obtain ⟨rank, hrank⟩ := hd.acyclic
    classical
    refine ⟨fun m => if d.Ancestor c m then rank m + rank p + 1 else rank m, fun q m h => ?_⟩
    rw [mParent_link] at h
    split_ifs at h with hmc
    · rw [← Option.some.inj h, hmc]
      simp only [if_neg hanc, Ancestor.refl, if_true]
      omega
    · have hlt := hrank q m h
      have hiff : d.Ancestor c m ↔ d.Ancestor c q := by
        constructor
        · intro ha
          rcases ha.cases_parent with rfl | ⟨q', hq', ha⟩
          · exact absurd rfl hmc
          · rwa [Option.some.inj (hq'.symm.trans h)] at ha
        · exact .of_parent h
      simp only [hiff]
      split_ifs <;> omega

/-- A child can be taken out of the list. -/
theorem unlink {A B : List NodeId} (hAB : d.children p = A ++ c :: B) :
    (d.unlink c p A.length).WellFormed := by
  have ht : d.isText p = false := isText_of_mem (c := c) (by simp [hAB])
  have hcp : d.mParent c = some p := (hd.parent_iff p c).mpr (by simp [hAB])
  have hch : ∀ m, (d.unlink c p A.length).children m = if m = p then A ++ B else d.children m :=
    fun m => by rw [children_unlink ht, hAB, eraseIdx_append_length]
  have hnodup : (A ++ c :: B).Nodup := hAB ▸ hd.nodup p
  obtain ⟨hA, hB⟩ := not_mem_of_nodup_cut hnodup
  refine ⟨fun q m => ?_, fun q => ?_, fun q m h => ?_, ?_⟩
  · rw [mParent_unlink, hch]
    by_cases hmc : m = c
    · rw [if_pos hmc, hmc]
      by_cases hqp : q = p
      · simp [hqp, hA, hB]
      · have : c ∉ d.children q := by
          rw [← hd.parent_iff, hcp]
          exact fun h => hqp (Option.some.inj h).symm
        simp [hqp, this]
    · rw [if_neg hmc, hd.parent_iff]
      by_cases hqp : q = p
      · rw [if_pos hqp, hqp, hAB]
        simp [hmc]
      · rw [if_neg hqp]
  · rw [hch]
    by_cases hqp : q = p
    · rw [if_pos hqp]
      exact (List.nodup_cons.mp (List.perm_middle.nodup_iff.mp hnodup)).2
    · rw [if_neg hqp]
      exact hd.nodup q
  · rw [mParent_unlink] at h
    split_ifs at h
    exact hd.bound q m h
  · obtain ⟨rank, hrank⟩ := hd.acyclic
    refine ⟨rank, fun q m h => ?_⟩
    rw [mParent_unlink] at h
    split_ifs at h
    exact hrank q m h

end WellFormed

end Document

end Kompozer.Dom

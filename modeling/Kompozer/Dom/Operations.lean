import Kompozer.Dom.WellFormed

/-! What the operations on nodes do in a well-formed store: one equation for each, with
the list of children cut at the place where it changes. -/

namespace Kompozer.Dom

open NsResult

namespace Document
variable {d : Document} {p c : NodeId} {A B : List NodeId}

/-! ### Children -/

theorem insertPosition_head? (hd : d.WellFormed) (hAB : d.children p = A ++ B) :
    d.insertPosition p B.head? = some A.length := by
  cases B with
  | nil => simp [insertPosition, hAB]
  | cons b B =>
    rw [List.head?_cons, insertPosition, hAB]
    exact idxOf?_append_cons B (not_mem_of_nodup_cut (hAB ▸ hd.nodup p)).1

theorem insertPosition_eq_some {ref : Option NodeId} {k : ℕ}
    (h : d.insertPosition p ref = some k) :
    ∃ A B, d.children p = A ++ B ∧ A.length = k ∧ ref = B.head? := by
  cases ref with
  | none => exact ⟨d.children p, [], by simp, Option.some.inj h, rfl⟩
  | some b =>
    obtain ⟨A, B, hAB, hA, -⟩ := exists_cut_of_idxOf? h
    exact ⟨A, b :: B, hAB, hA, rfl⟩

theorem insertChildAt_eq (hAB : d.children p = A ++ B) :
    d.insertChildAt c p A.length = (.ok, d.link c p A.length) :=
  if_pos (by simp [hAB])

/-- Inserting a node that is in no tree. -/
theorem insertBefore_detached (hd : d.WellFormed) (hAB : d.children p = A ++ B)
    (ht : d.isText p = false) (hc : d.mParent c = none) (hanc : ¬ d.Ancestor c p)
    (hpf : p < d.fresh) : d.insertBefore p c B.head? = (.ok, d.link c p A.length) := by
  have href : B.head? ≠ some c := fun h =>
    hd.not_mem_of_detached hc p (by simp [hAB, List.mem_of_mem_head? h])
  have hdesc : ¬ d.contentIsDescendantOf p c = true := mt (hd.contentIsDescendantOf_iff hpf).mp hanc
  rw [insertBefore, if_neg (by simp [ht]), insertPosition_head? hd hAB]
  simp only [if_neg href, if_neg hdesc, hc]
  exact insertChildAt_eq hAB

/-- It cannot be inserted in another way. -/
theorem insertBefore_ok (hd : d.WellFormed) {ref : Option NodeId} (hc : d.mParent c = none)
    (hpf : p < d.fresh) (h : (d.insertBefore p c ref).1 = .ok) :
    ∃ A B, d.children p = A ++ B ∧ ref = B.head? ∧ d.isText p = false ∧ ¬ d.Ancestor c p ∧
      d.insertBefore p c ref = (.ok, d.link c p A.length) := by
  have ht : d.isText p = false := by
    by_contra ht
    rw [insertBefore, if_pos (by simpa using ht)] at h
    exact absurd h (by simp [NS_ERROR_DOM_HIERARCHY_REQUEST_ERR])
  cases hpos : d.insertPosition p ref with
  | none => simp [insertBefore, ht, hpos, NS_ERROR_DOM_NOT_FOUND_ERR] at h
  | some k =>
    obtain ⟨A, B, hAB, rfl, rfl⟩ := insertPosition_eq_some hpos
    have href : B.head? ≠ some c := fun h =>
      hd.not_mem_of_detached hc p (by simp [hAB, List.mem_of_mem_head? h])
    have hanc : ¬ d.Ancestor c p := by
      rw [← hd.contentIsDescendantOf_iff hpf]
      intro hdesc
      simp [insertBefore, ht, hpos, href, hdesc, NS_ERROR_DOM_HIERARCHY_REQUEST_ERR] at h
    exact ⟨A, B, hAB, rfl, ht, hanc, insertBefore_detached hd hAB ht hc hanc hpf⟩

/-- Inserting a child of another node takes it away there. -/
theorem insertBefore_attached (hd : d.WellFormed) (hAB : d.children p = A ++ B)
    (ht : d.isText p = false) {q : NodeId} {C D : List NodeId} (hq : d.children q = C ++ c :: D)
    (hqp : q ≠ p) (hanc : ¬ d.Ancestor c p) (hpf : p < d.fresh) :
    d.insertBefore p c B.head? = (.ok, (d.unlink c q C.length).link c p A.length) := by
  have hc : d.mParent c = some q := (hd.parent_iff q c).mpr (by simp [hq])
  have hcp : c ∉ d.children p := by
    rw [← hd.parent_iff, hc]
    exact fun h => hqp (Option.some.inj h)
  have href : B.head? ≠ some c := fun h => hcp (by simp [hAB, List.mem_of_mem_head? h])
  have hdesc : ¬ d.contentIsDescendantOf p c = true := mt (hd.contentIsDescendantOf_iff hpf).mp hanc
  have hidx : (d.children q).idxOf? c = some C.length := by
    rw [hq]
    exact idxOf?_append_cons D (not_mem_of_nodup_cut (hq ▸ hd.nodup q)).1
  have htq : d.isText q = false := isText_of_mem (c := c) (by simp [hq])
  have hrem : d.removeChildAt q C.length = d.unlink c q C.length := by
    simp [removeChildAt, hq]
  have hAB' : (d.unlink c q C.length).children p = A ++ B := by
    rw [children_unlink htq, if_neg (Ne.symm hqp), hAB]
  rw [insertBefore, if_neg (by simp [ht]), insertPosition_head? hd hAB]
  simp only [if_neg href, if_neg hdesc, hc, hidx, hqp, false_and, if_false, hrem]
  exact insertChildAt_eq hAB'

/-- A new child stands where it was to be put. -/
theorem children_insertBefore (hd : d.WellFormed) (hpf : p < d.fresh) (hc : c ∉ d.children p)
    (hAB : d.children p = A ++ B) (hok : (d.insertBefore p c B.head?).1 = .ok) :
    d.isText p = false ∧ (d.insertBefore p c B.head?).2.children p = A ++ c :: B := by
  have ht : d.isText p = false := by
    by_contra ht
    rw [insertBefore, if_pos (by simpa using ht)] at hok
    exact absurd hok (by simp [NS_ERROR_DOM_HIERARCHY_REQUEST_ERR])
  have href : B.head? ≠ some c := fun h => hc (by simp [hAB, List.mem_of_mem_head? h])
  have hanc : ¬ d.Ancestor c p := by
    rw [← hd.contentIsDescendantOf_iff hpf]
    intro hdesc
    rw [insertBefore, if_neg (by simp [ht]), insertPosition_head? hd hAB] at hok
    simp [href, hdesc, NS_ERROR_DOM_HIERARCHY_REQUEST_ERR] at hok
  refine ⟨ht, ?_⟩
  cases hq : d.mParent c with
  | none =>
    rw [insertBefore_detached hd hAB ht hq hanc hpf, children_link ht, if_pos rfl, hAB,
      insertIdx_append_length]
  | some q =>
    obtain ⟨C, D, hCD, -, -⟩ := hd.exists_cut hq
    have hqp : q ≠ p := by
      rintro rfl
      exact hc ((hd.parent_iff q c).mp hq)
    have htq : d.isText q = false := isText_of_mem (c := c) (by simp [hCD])
    rw [insertBefore_attached hd hAB ht hCD hqp hanc hpf, children_link (by simpa using ht),
      if_pos rfl, children_unlink htq, if_neg (Ne.symm hqp), hAB, insertIdx_append_length]

theorem removeChild_eq (hd : d.WellFormed) (hAB : d.children p = A ++ c :: B) :
    d.removeChild p c = (.ok, d.unlink c p A.length) := by
  have hidx : (d.children p).idxOf? c = some A.length := by
    rw [hAB]
    exact idxOf?_append_cons B (not_mem_of_nodup_cut (hAB ▸ hd.nodup p)).1
  rw [removeChild, hidx]
  simp [removeChildAt, hAB]

theorem getNextSibling_eq (hd : d.WellFormed) (hAB : d.children p = A ++ c :: B) :
    d.getNextSibling c = B.head? := by
  have hc : d.mParent c = some p := (hd.parent_iff p c).mpr (by simp [hAB])
  have hidx := idxOf?_append_cons B (not_mem_of_nodup_cut (hAB ▸ hd.nodup p)).1
  rw [getNextSibling, hc, Option.bind_eq_bind, Option.bind_some, hAB, hidx]
  simp [List.head?_eq_getElem?, List.getElem?_append_right]

/-! ### Ancestors after a change -/

theorem Ancestor.of_unlink {a n : NodeId} {k : ℕ} (h : (d.unlink c p k).Ancestor a n) :
    d.Ancestor a n := by
  refine h.transfer (fun _ => True) trivial fun m q _ hm => ⟨?_, trivial⟩
  rw [mParent_unlink] at hm
  split_ifs at hm
  exact hm

/-! ### Creating nodes and changing texts -/

namespace WellFormed
variable (hd : d.WellFormed)
include hd

/-- Being well formed is about parents and children only. -/
theorem of_eq {d' : Document} (hp : ∀ n, d'.mParent n = d.mParent n)
    (hc : ∀ n, d'.children n = d.children n) (hf : d.fresh ≤ d'.fresh) : d'.WellFormed where
  parent_iff p c := by rw [hp, hc, hd.parent_iff]
  nodup p := by
    rw [hc]
    exact hd.nodup p
  bound p c h := by
    rw [hp] at h
    exact (hd.bound p c h).imp (Nat.lt_of_lt_of_le · hf) (Nat.lt_of_lt_of_le · hf)
  acyclic := by
    obtain ⟨rank, h⟩ := hd.acyclic
    exact ⟨rank, fun p c hpc => h p c (by rwa [hp] at hpc)⟩

theorem children_fresh {n : NodeId} (hn : d.fresh ≤ n) : d.children n = [] := by
  refine List.eq_nil_iff_forall_not_mem.mpr fun c hc => ?_
  exact Nat.not_lt_of_le hn (hd.parent_lt ((hd.parent_iff n c).mpr hc))

theorem mParent_fresh {n : NodeId} (hn : d.fresh ≤ n) : d.mParent n = none := by
  cases h : d.mParent n with
  | none => rfl
  | some p => exact absurd (hd.child_lt h) (Nat.not_lt_of_le hn)

theorem setText (n : NodeId) (t : List PRUnichar) : (d.setText n t).WellFormed := by
  refine hd.of_eq (fun _ => rfl) (fun m => ?_) (Nat.le_refl _)
  rw [Document.setText, children_setBody, Body.children_withData]
  split_ifs with h
  · rw [h]
    rfl
  · rfl

theorem create {b : Body} (hb : b.children = []) : (d.create b).WellFormed := by
  refine hd.of_eq (fun m => ?_) (fun m => ?_) (Nat.le_succ _)
  · simp only [Document.create, setParent, setBody, Function.update_apply]
    split_ifs with h
    · rw [h, hd.mParent_fresh (Nat.le_refl _)]
    · rfl
  · show ((d.setBody d.fresh b).setParent d.fresh none).children m = _
    rw [children_setParent, children_setBody]
    split_ifs with h
    · rw [h, hb, hd.children_fresh (Nat.le_refl _)]
    · rfl

/-- A node without children is above itself only. -/
theorem ancestor_of_children_nil {x n : NodeId} (hx : d.children x = []) (h : d.Ancestor x n) :
    n = x := by
  induction h using Relation.ReflTransGen.head_induction_on with
  | refl => rfl
  | @head m q hmq _ ih =>
    rw [ih, hd.parent_iff, hx] at hmq
    exact absurd hmq (List.not_mem_nil)

end WellFormed

theorem body_setText (n m : NodeId) (t : List PRUnichar) :
    (d.setText n t).body m = if m = n then (d.body n).withData t else d.body m :=
  Function.update_apply _ _ _ _

theorem data_setText {n : NodeId} (ht : d.isText n = true) (t : List PRUnichar) :
    (d.setText n t).data n = t := by
  rw [data, body_setText, if_pos rfl, Body.data_withData ht]

@[simp] theorem setText_setText (n : NodeId) (t u : List PRUnichar) :
    (d.setText n t).setText n u = d.setText n u := by
  simp [setText, setBody]

theorem setText_eq_self {n : NodeId} {t : List PRUnichar} (h : d.data n = t) :
    d.setText n t = d := by
  rw [← h, setText, setBody, data, Body.withData_data, Function.update_eq_self]

/-- An element has no text to set. -/
theorem setText_of_not_isText {n : NodeId} (ht : d.isText n = false) (t : List PRUnichar) :
    d.setText n t = d := by
  have hb : (d.body n).withData t = d.body n := by
    rw [isText] at ht
    cases hb : d.body n with
    | text u => simp [hb, Body.isText] at ht
    | element tag cs => rfl
  rw [setText, hb, setBody, Function.update_eq_self]

/-- `ReplaceData` inside the text. -/
theorem replaceData_eq {n : NodeId} {aOffset aCount : ℕ} {S M T aData : List PRUnichar}
    (h : d.data n = S ++ M ++ T) (hS : S.length = aOffset) (hM : M.length = aCount)
    (hfit : aOffset + aCount < 2 ^ 32) :
    d.replaceData n aOffset aCount aData = (.ok, d.setText n (S ++ aData ++ T)) := by
  subst hS hM
  rw [replaceData, h]
  simp only [List.append_assoc, List.length_append]
  rw [if_neg (by omega), Nat.mod_eq_of_lt hfit]
  split_ifs with h₁ h₂
  · have hM : M = [] := List.eq_nil_of_length_eq_zero (by omega)
    have hT : T = [] := List.eq_nil_of_length_eq_zero (by omega)
    subst hM hT
    rw [appendData, h]
    simp
  · omega
  · rw [List.take_left, ← List.append_assoc S M T, ← List.length_append, List.drop_left]

theorem deleteData_eq {n : NodeId} {aOffset aCount : ℕ} {S M T : List PRUnichar}
    (h : d.data n = S ++ M ++ T) (hS : S.length = aOffset) (hM : M.length = aCount)
    (hfit : aOffset + aCount < 2 ^ 32) :
    d.deleteData n aOffset aCount = (.ok, d.setText n (S ++ T)) := by
  rw [deleteData, replaceData_eq h hS hM hfit, List.append_nil]

theorem insertData_eq {n : NodeId} {aOffset : ℕ} {S T aData : List PRUnichar}
    (h : d.data n = S ++ T) (hS : S.length = aOffset) (hfit : aOffset < 2 ^ 32) :
    d.insertData n aOffset aData = (.ok, d.setText n (S ++ aData ++ T)) :=
  replaceData_eq (M := []) (by simpa using h) hS rfl hfit

end Document

end Kompozer.Dom

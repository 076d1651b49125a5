import Mathlib

/-! Circular lists: each member is linked to the one behind it and to the one before it, and the
last one to the first. What is not in a list is linked to itself. -/

namespace Kompozer

universe u

/-- Where the links of all cells go. -/
structure Links (α : Type u) where
  next : α → α
  prev : α → α

namespace Links

variable {α : Type u}

def Follows (k : Links α) (a b : α) : Prop := k.next a = b ∧ k.prev b = a

/-- The members of a circle, from one of them on. -/
def Circle (k : Links α) : List α → Prop
  | [] => True
  | a :: l => List.IsChain k.Follows (a :: (l ++ [a]))

variable {k k' : Links α} {a b e : α} {l front back : List α}

/-- A circle begins anywhere. -/
theorem circle_rotate : k.Circle (front ++ a :: back) ↔ k.Circle (a :: (back ++ front)) := by
  cases front with
  | nil => rw [List.nil_append, List.append_nil]
  | cons b front =>
    have hleft : b :: front ++ a :: back = b :: (front ++ a :: back) := rfl
    have hright : back ++ b :: front ++ [a] = back ++ b :: (front ++ [a]) := by simp
    have hcut : front ++ a :: back ++ [b] = front ++ a :: (back ++ [b]) := by simp
    rw [hleft, Circle, Circle, hright, hcut]
    exact List.isChain_cons_split.trans (and_comm.trans List.isChain_cons_split.symm)

theorem circle_append_comm : k.Circle (front ++ back) ↔ k.Circle (back ++ front) := by
  cases back with
  | nil => rw [List.append_nil, List.nil_append]
  | cons a back => exact circle_rotate

theorem Circle.follows (h : k.Circle (front ++ a :: b :: back)) : k.Follows a b := by
  rw [circle_rotate, Circle] at h
  exact (List.isChain_cons_cons.mp h).1

/-- The last one is linked to the first. -/
theorem Circle.follows_last (h : k.Circle (a :: l)) :
    k.Follows ((a :: l).getLast (List.cons_ne_nil a l)) a := by
  rw [Circle, ← List.cons_append, List.isChain_append] at h
  exact h.2.2 _ (List.getLast?_eq_some_getLast (List.cons_ne_nil a l)) a rfl

theorem Circle.congr (h : k.Circle l) (hnext : ∀ a ∈ l, k'.next a = k.next a)
    (hprev : ∀ a ∈ l, k'.prev a = k.prev a) : k'.Circle l := by
  cases l with
  | nil => trivial
  | cons a l =>
    rw [Circle] at h ⊢
    have hmem : ∀ x ∈ a :: (l ++ [a]), x ∈ a :: l := by simp [or_comm]
    refine List.IsChain.imp_of_mem_imp (fun x y hx hy hxy => ?_) h
    exact ⟨(hnext x (hmem x hx)).trans hxy.1, (hprev y (hmem y hy)).trans hxy.2⟩

/-- The members of a circle are linked to members. -/
theorem Circle.prev_mem (h : k.Circle l) (ha : a ∈ l) : k.prev a ∈ l := by
  obtain ⟨front, back, rfl⟩ := List.append_of_mem ha
  rw [circle_rotate] at h
  have hlast := h.follows_last.2
  have hmem : ∀ x ∈ a :: (back ++ front), x ∈ front ++ a :: back := by
    intro x hx
    simp only [List.mem_cons, List.mem_append] at hx ⊢
    tauto
  rw [hlast]
  exact hmem _ (List.getLast_mem _)

theorem Circle.next_mem (h : k.Circle l) (ha : a ∈ l) : k.next a ∈ l := by
  obtain ⟨front, back, rfl⟩ := List.append_of_mem ha
  have hmem : ∀ x ∈ a :: (back ++ front), x ∈ front ++ a :: back := by
    intro x hx
    simp only [List.mem_cons, List.mem_append] at hx ⊢
    tauto
  rw [circle_rotate] at h
  refine hmem _ ?_
  cases hrest : back ++ front with
  | nil =>
    rw [hrest, Circle] at h
    rw [(List.isChain_cons_cons.mp h).1.1]
    exact List.mem_cons_self
  | cons b rest =>
    rw [hrest, Circle] at h
    rw [(List.isChain_cons_cons.mp h).1.1]
    exact List.mem_cons_of_mem _ List.mem_cons_self

/-! ### Insertion and removal -/

variable [DecidableEq α]

/-- A cell is linked in before a member. -/
def insertBefore (k : Links α) (e l : α) : Links α :=
  let k : Links α := { k with next := Function.update k.next e l }
  let k : Links α := { k with prev := Function.update k.prev e (k.prev l) }
  let k : Links α := { k with next := Function.update k.next (k.prev l) e }
  { k with prev := Function.update k.prev l e }

theorem next_insertBefore (hea : e ≠ a) (x : α) :
    (k.insertBefore e a).next x =
      if x = k.prev a then e else if x = e then a else k.next x := by
  have hprev : Function.update k.prev e (k.prev a) a = k.prev a :=
    Function.update_of_ne (Ne.symm hea) ..
  change Function.update (Function.update k.next e a)
    (Function.update k.prev e (k.prev a) a) e x = _
  rw [hprev, Function.update_apply, Function.update_apply]

theorem prev_insertBefore (x : α) :
    (k.insertBefore e a).prev x = if x = a then e else if x = e then k.prev a else k.prev x := by
  change Function.update (Function.update k.prev e (k.prev a)) a e x = _
  rw [Function.update_apply, Function.update_apply]

/-- What is linked in is a member, before the one it is linked in before. -/
theorem Circle.insertBefore (h : k.Circle (a :: l)) (hnodup : (a :: l).Nodup) (he : e ∉ a :: l) :
    (k.insertBefore e a).Circle (e :: a :: l) := by
  have hlast := h.follows_last
  have hz : k.prev a ∈ a :: l := h.prev_mem List.mem_cons_self
  have hze : k.prev a ≠ e := fun heq => he (heq ▸ hz)
  have hea : e ≠ a := fun heq => he (heq ▸ List.mem_cons_self)
  rw [Circle, ← List.cons_append, List.isChain_append] at h
  obtain ⟨hchain, -, -⟩ := h
  rw [Circle, List.cons_append, List.isChain_cons_cons, ← List.cons_append, List.isChain_append]
  refine ⟨⟨?_, ?_⟩, ?_, List.isChain_singleton _, ?_⟩
  · rw [next_insertBefore hea e, if_neg (Ne.symm hze), if_pos rfl]
  · rw [prev_insertBefore, if_pos rfl]
  · refine List.IsChain.imp_of_mem_tail_imp (fun x y hx hy hxy => ?_) hchain
    have hya : y ≠ a := fun heq => (List.nodup_cons.mp hnodup).1 (heq ▸ hy)
    have hxz : x ≠ k.prev a := by
      rintro rfl
      rw [← hxy.1, hlast.2, hlast.1] at hya
      exact hya rfl
    have hxe : x ≠ e := fun heq => he (heq ▸ hx)
    have hye : y ≠ e := fun heq => he (heq ▸ List.mem_cons_of_mem a hy)
    constructor
    · rw [next_insertBefore hea x, if_neg hxz, if_neg hxe, hxy.1]
    · rw [prev_insertBefore, if_neg hya, if_neg hye, hxy.2]
  · intro x hx y hy
    rw [List.getLast?_eq_some_getLast (List.cons_ne_nil a l), Option.mem_some_iff, ← hlast.2] at hx
    rw [List.head?_cons, Option.mem_some_iff] at hy
    subst hx hy
    constructor
    · rw [next_insertBefore hea _, if_pos rfl]
    · rw [prev_insertBefore, if_neg hea, if_pos rfl]

/-- Other cells are linked as they were. -/
theorem Circle.insertBefore_of_notMem (h : k.Circle l) (ha : a ∈ l) {x : α} (hx : x ∉ l)
    (hxe : x ≠ e) (he : e ∉ l) :
    (k.insertBefore e a).next x = k.next x ∧ (k.insertBefore e a).prev x = k.prev x := by
  have hz : k.prev a ∈ l := h.prev_mem ha
  have hxa : x ≠ a := fun heq => hx (heq ▸ ha)
  have hxz : x ≠ k.prev a := fun heq => hx (heq ▸ hz)
  have hea : e ≠ a := fun heq => he (heq ▸ ha)
  rw [next_insertBefore hea, if_neg hxz, if_neg hxe, prev_insertBefore, if_neg hxa, if_neg hxe]
  exact ⟨rfl, rfl⟩

/-- A member is taken out and linked to itself. -/
def removeAndInit (k : Links α) (e : α) : Links α :=
  let k : Links α := { k with next := Function.update k.next (k.prev e) (k.next e) }
  let k : Links α := { k with prev := Function.update k.prev (k.next e) (k.prev e) }
  let k : Links α := { k with next := Function.update k.next e e }
  { k with prev := Function.update k.prev e e }

theorem next_removeAndInit (x : α) :
    (k.removeAndInit e).next x =
      if x = e then e else if x = k.prev e then k.next e else k.next x := by
  change Function.update (Function.update k.next (k.prev e) (k.next e)) e e x = _
  rw [Function.update_apply, Function.update_apply]

theorem prev_removeAndInit (hne : k.prev e ≠ e) (x : α) :
    (k.removeAndInit e).prev x =
      if x = e then e else if x = k.next e then k.prev e else k.prev x := by
  have hnext : Function.update k.next (k.prev e) (k.next e) e = k.next e :=
    Function.update_of_ne (Ne.symm hne) ..
  change Function.update (Function.update k.prev
    (Function.update k.next (k.prev e) (k.next e) e) (k.prev e)) e e x = _
  rw [hnext, Function.update_apply, Function.update_apply]

/-- The others are linked to each other. -/
theorem Circle.removeAndInit (h : k.Circle (e :: b :: l)) (hnodup : (e :: b :: l).Nodup) :
    (k.removeAndInit e).Circle (b :: l) := by
  have hlast := h.follows_last
  rw [List.getLast_cons_cons] at hlast
  have hnotMem := (List.nodup_cons.mp hnodup).1
  have hb := (List.nodup_cons.mp (List.nodup_cons.mp hnodup).2).1
  have hmem : (b :: l).getLast (List.cons_ne_nil b l) ∈ b :: l := List.getLast_mem _
  have hze : k.prev e ≠ e := by
    rw [hlast.2]
    exact fun heq => hnotMem (heq ▸ hmem)
  rw [Circle, List.cons_append, List.isChain_cons_cons, ← List.cons_append,
    List.isChain_append] at h
  obtain ⟨hfirst, hchain, -⟩ := h
  rw [Circle, ← List.cons_append, List.isChain_append]
  refine ⟨?_, List.isChain_singleton _, ?_⟩
  · refine List.IsChain.imp_of_mem_tail_imp (fun x y hx hy hxy => ?_) hchain
    have hxe : x ≠ e := fun heq => hnotMem (heq ▸ hx)
    have hye : y ≠ e := fun heq => hnotMem (heq ▸ List.mem_cons_of_mem b hy)
    have hyb : y ≠ k.next e := by
      rw [hfirst.1]
      exact fun heq => hb (heq ▸ hy)
    have hxz : x ≠ k.prev e := by
      rintro rfl
      rw [← hxy.1, hlast.2, hlast.1] at hye
      exact hye rfl
    constructor
    · rw [next_removeAndInit, if_neg hxe, if_neg hxz, hxy.1]
    · rw [prev_removeAndInit hze, if_neg hye, if_neg hyb, hxy.2]
  · intro x hx y hy
    rw [List.getLast?_eq_some_getLast (List.cons_ne_nil b l), Option.mem_some_iff, ← hlast.2] at hx
    rw [List.head?_cons, Option.mem_some_iff] at hy
    subst hx hy
    have hbe : b ≠ e := fun heq => hnotMem (heq ▸ List.mem_cons_self)
    constructor
    · rw [next_removeAndInit, if_neg hze, if_pos rfl, hfirst.1]
    · rw [prev_removeAndInit hze, if_neg hbe, if_pos hfirst.1.symm]

theorem Circle.removeAndInit_of_notMem (h : k.Circle l) (he : e ∈ l) {x : α} (hx : x ∉ l)
    (hne : k.prev e ≠ e) :
    (k.removeAndInit e).next x = k.next x ∧ (k.removeAndInit e).prev x = k.prev x := by
  have hz : k.prev e ∈ l := h.prev_mem he
  have hn : k.next e ∈ l := h.next_mem he
  have hxe : x ≠ e := fun heq => hx (heq ▸ he)
  have hxz : x ≠ k.prev e := fun heq => hx (heq ▸ hz)
  have hxn : x ≠ k.next e := fun heq => hx (heq ▸ hn)
  rw [next_removeAndInit, if_neg hxe, if_neg hxz, prev_removeAndInit hne, if_neg hxe, if_neg hxn]
  exact ⟨rfl, rfl⟩

/-- What is linked to itself stays so. -/
theorem removeAndInit_self (hnext : k.next e = e) (hprev : k.prev e = e) :
    k.removeAndInit e = k := by
  have hn : Function.update k.next e e = k.next := by
    rw [Function.update_eq_self_iff, hnext]
  have hp : Function.update k.prev e e = k.prev := by
    rw [Function.update_eq_self_iff, hprev]
  simp [removeAndInit, hnext, hprev, hn, hp]

end Links

end Kompozer

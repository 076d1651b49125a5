import Kompozer.Composer.PhpAndComments

/-! What putting a note into an element does to the store, and what taking it out does. -/

namespace Kompozer.Composer

open Dom NsResult

variable {d : Document} {p c image span : NodeId} {A B : List NodeId} {tag : String}

/-! ### Two new nodes -/

/-- A picture and an element are created. -/
def twoMore (d : Document) (tag : String) : Document :=
  (d.create (.element "img" [])).create (.element tag [])

theorem twoMore_wellFormed (hd : d.WellFormed) (tag : String) : (twoMore d tag).WellFormed :=
  (hd.create rfl).create rfl

theorem mParent_create (hd : d.WellFormed) (b : Body) (n : NodeId) :
    (d.create b).mParent n = d.mParent n := by
  show Function.update d.mParent d.fresh none n = _
  rw [Function.update_apply]
  split_ifs with h
  · rw [h, hd.mParent_fresh (Nat.le_refl _)]
  · rfl

theorem body_create (b : Body) (n : NodeId) :
    (d.create b).body n = if n = d.fresh then b else d.body n :=
  Function.update_apply _ _ _ _

theorem mParent_twoMore (hd : d.WellFormed) (n : NodeId) :
    (twoMore d tag).mParent n = d.mParent n := by
  rw [twoMore, mParent_create (hd.create rfl), mParent_create hd]

theorem body_twoMore (n : NodeId) : (twoMore d tag).body n =
    if n = d.fresh + 1 then .element tag [] else
      if n = d.fresh then .element "img" [] else d.body n := by
  rw [twoMore, body_create, body_create]
  rfl

theorem children_twoMore (hd : d.WellFormed) (n : NodeId) :
    (twoMore d tag).children n = d.children n := by
  rw [Document.children, body_twoMore]
  split_ifs with h₁ h₂
  · rw [h₁, hd.children_fresh (Nat.le_succ _)]
    rfl
  · rw [h₂, hd.children_fresh (Nat.le_refl _)]
    rfl
  · rfl

/-! ### A note is put into an element -/

/-- The store before and after a note is put into an element. -/
structure Enclosed (d : Document) (p c : NodeId) (A B : List NodeId) (tag : String)
    (d' : Document) : Prop where
  wellFormed : d'.WellFormed
  fresh : d'.fresh = d.fresh + 2
  parent : ∀ n, d'.mParent n = if n = c then some (d.fresh + 1) else
    if n = d.fresh then some (d.fresh + 1) else if n = d.fresh + 1 then some p else d.mParent n
  body : ∀ n, d'.body n = if n = p then (d.body p).withChildren (A ++ (d.fresh + 1) :: B) else
    if n = d.fresh + 1 then .element tag [d.fresh, c] else
      if n = d.fresh then .element "img" [] else d.body n

/-- The three calls that put a note into an element. -/
theorem exists_enclosed (hd : d.WellFormed) (hp : d.children p = A ++ c :: B)
    (hc : d.children c = []) (tag : String) :
    ∃ d₃ d₄ d₅, (twoMore d tag).insertBefore p (d.fresh + 1) (some c) = (.ok, d₃) ∧
      d₃.appendChild (d.fresh + 1) d.fresh = (.ok, d₄) ∧
      d₄.appendChild (d.fresh + 1) c = (.ok, d₅) ∧ Enclosed d p c A B tag d₅ := by
  obtain ⟨span, hspan⟩ : ∃ s, s = d.fresh + 1 := ⟨_, rfl⟩
  obtain ⟨image, himage⟩ : ∃ i, i = d.fresh := ⟨_, rfl⟩
  obtain ⟨d₂, hd₂⟩ : ∃ d₂, d₂ = twoMore d tag := ⟨_, rfl⟩
  have hcp : d.mParent c = some p := (hd.parent_iff p c).mpr (by simp [hp])
  have hpf : p < d.fresh := hd.parent_lt hcp
  have hcf : c < d.fresh := hd.child_lt hcp
  have hpc : p ≠ c := hd.parent_ne hcp
  have hip : image ≠ p := by
    rw [himage]
    exact Nat.ne_of_gt hpf
  have hic : image ≠ c := by
    rw [himage]
    exact Nat.ne_of_gt hcf
  have hsp : span ≠ p := by
    rw [hspan]
    exact Nat.ne_of_gt (Nat.lt_succ_of_lt hpf)
  have hsc : span ≠ c := by
    rw [hspan]
    exact Nat.ne_of_gt (Nat.lt_succ_of_lt hcf)
  have his : image ≠ span := by
    rw [himage, hspan]
    exact Nat.ne_of_lt (Nat.lt_succ_self _)
  have hpf₂ : p < d.fresh + 2 := Nat.lt_add_right 2 hpf
  have hcf₂ : c < d.fresh + 2 := Nat.lt_add_right 2 hcf
  have hif₂ : image < d.fresh + 2 := by
    rw [himage]
    exact Nat.lt_add_of_pos_right Nat.two_pos
  have hsf₂ : span < d.fresh + 2 := by
    rw [hspan]
    exact Nat.lt_succ_self _
  have hf₂ : d₂.fresh = d.fresh + 2 := by
    rw [hd₂]
    rfl
  have hwf₂ : d₂.WellFormed := by
    rw [hd₂]
    exact twoMore_wellFormed hd tag
  have hpar₂ : ∀ n, d₂.mParent n = d.mParent n := by
    intro n
    rw [hd₂, mParent_twoMore hd]
  have hch₂ : ∀ n, d₂.children n = d.children n := by
    intro n
    rw [hd₂, children_twoMore hd]
  have hbody₂ : ∀ n, d₂.body n = if n = span then .element tag [] else
      if n = image then .element "img" [] else d.body n := by
    intro n
    rw [hd₂, body_twoMore, hspan, himage]
  have htp : d₂.isText p = false := Document.isText_of_mem (c := c) (by rw [hch₂, hp]; simp)
  have hspan₂ : d₂.children span = [] := by
    rw [hch₂, hspan, hd.children_fresh (Nat.le_succ _)]
  have himage₂ : d₂.children image = [] := by
    rw [hch₂, himage, hd.children_fresh (Nat.le_refl _)]
  have htspan : d₂.isText span = false := by
    rw [Document.isText, hbody₂, if_pos rfl]
    rfl
  -- the element goes in front of the note
  have hanc₂ : ¬d₂.Ancestor span p := by
    intro h
    exact hsp.symm (hwf₂.ancestor_of_children_nil hspan₂ h)
  have hd₂p : d₂.mParent span = none := by
    rw [hpar₂, hspan, hd.mParent_fresh (Nat.le_succ _)]
  have hch₂p : d₂.children p = A ++ c :: B := by rw [hch₂, hp]
  have h₃ := Document.insertBefore_detached hwf₂ hch₂p htp hd₂p hanc₂ (hf₂ ▸ hpf₂)
  obtain ⟨d₃, hd₃⟩ : ∃ d₃, d₃ = d₂.link span p A.length := ⟨_, rfl⟩
  have hwf₃ : d₃.WellFormed := by
    rw [hd₃]
    exact hwf₂.link hch₂p htp hd₂p hanc₂ (hf₂ ▸ hsf₂) (hf₂ ▸ hpf₂)
  have hch₃ : ∀ n, d₃.children n = if n = p then A ++ span :: c :: B else d.children n := by
    intro n
    rw [hd₃, Document.children_link htp, hch₂p, insertIdx_append_length, hch₂]
  -- the picture goes into the element
  have hch₃span : d₃.children span = [] ++ [] := by
    rw [hch₃, if_neg hsp, ← hch₂, hspan₂]
    rfl
  have ht₃ : d₃.isText span = false := by
    rw [hd₃, Document.isText_link, htspan]
  have hd₃i : d₃.mParent image = none := by
    rw [hd₃, Document.mParent_link, if_neg his, hpar₂, himage,
      hd.mParent_fresh (Nat.le_refl _)]
  have hanc₃ : ¬d₃.Ancestor image span := by
    intro h
    exact his.symm (hwf₃.ancestor_of_children_nil (x := image) (by
      rw [hch₃, if_neg hip, ← hch₂, himage₂]) h)
  have hf₃ : d₃.fresh = d.fresh + 2 := by
    rw [hd₃, Document.fresh_link, hf₂]
  have h₄ := Document.insertBefore_detached hwf₃ hch₃span ht₃ hd₃i hanc₃ (hf₃ ▸ hsf₂)
  obtain ⟨d₄, hd₄⟩ : ∃ d₄, d₄ = d₃.link image span 0 := ⟨_, rfl⟩
  have hwf₄ : d₄.WellFormed := by
    rw [hd₄]
    exact hwf₃.link hch₃span ht₃ hd₃i hanc₃ (hf₃ ▸ hif₂) (hf₃ ▸ hsf₂)
  have hch₄ : ∀ n, d₄.children n = if n = span then [image] else
      if n = p then A ++ span :: c :: B else d.children n := by
    intro n
    rw [hd₄, Document.children_link ht₃, hch₃span, hch₃]
    rfl
  have hf₄ : d₄.fresh = d.fresh + 2 := by
    rw [hd₄, Document.fresh_link, hf₃]
  -- the note goes into the element
  have ht₄ : d₄.isText span = false := by
    rw [hd₄, Document.isText_link, ht₃]
  have hch₄span : d₄.children span = [image] ++ [] := by
    rw [hch₄, if_pos rfl]
    rfl
  have hch₄p : d₄.children p = (A ++ [span]) ++ c :: B := by
    rw [hch₄, if_neg hsp.symm, if_pos rfl, List.append_assoc]
    rfl
  have hanc₄ : ¬d₄.Ancestor c span := by
    intro h
    exact hsc (hwf₄.ancestor_of_children_nil (x := c) (by
      rw [hch₄, if_neg hsc.symm, if_neg hpc.symm, hc]) h)
  have h₅ := Document.insertBefore_attached hwf₄ hch₄span ht₄ hch₄p hsp.symm hanc₄ (hf₄ ▸ hsf₂)
  have htp₄ : d₄.isText p = false := by
    rw [hd₄, Document.isText_link, hd₃, Document.isText_link, htp]
  obtain ⟨d₅, hd₅⟩ : ∃ d₅, d₅ =
    (d₄.unlink c p (A ++ [span]).length).link c span [image].length := ⟨_, rfl⟩
  have hwf₄' := hwf₄.unlink hch₄p
  have hch₄' : (d₄.unlink c p (A ++ [span]).length).children span = [image] ++ [] := by
    rw [Document.children_unlink htp₄, if_neg hsp, hch₄span]
  have hwf₅ : d₅.WellFormed := by
    rw [hd₅]
    apply hwf₄'.link hch₄'
    · rw [Document.isText_unlink, ht₄]
    · rw [Document.mParent_unlink, if_pos rfl]
    · exact fun h => hanc₄ h.of_unlink
    · exact hf₄ ▸ hcf₂
    · exact hf₄ ▸ hsf₂
  rw [← hspan, ← himage, ← hd₂]
  refine ⟨d₃, d₄, d₅, by rw [hd₃]; exact h₃, by rw [hd₄]; exact h₄, by rw [hd₅]; exact h₅,
    hwf₅, ?_, ?_, ?_⟩
  · rw [hd₅, Document.fresh_link, Document.fresh_unlink, hf₄]
  · intro n
    rw [hd₅, Document.mParent_link, Document.mParent_unlink, hd₄, Document.mParent_link, hd₃,
      Document.mParent_link, hpar₂, ← hspan, ← himage]
    split_ifs <;> rfl
  · intro n
    rw [← hspan, ← himage, hd₅, Document.body_link, hch₄']
    by_cases hns : n = span
    · rw [if_pos hns, hns, if_neg hsp, if_pos rfl, Document.body_unlink, if_neg hsp, hd₄,
        Document.body_link, if_pos rfl, hd₃, Document.body_link, if_neg hsp, hbody₂, if_pos rfl]
      rfl
    · rw [if_neg hns, Document.body_unlink, hch₄p, eraseIdx_append_length]
      by_cases hnp : n = p
      · rw [if_pos hnp, hnp, if_pos rfl, hd₄, Document.body_link, if_neg hsp.symm, hd₃,
          Document.body_link, if_pos rfl]
        simp only [Body.withChildren_withChildren]
        rw [hbody₂, if_neg hsp.symm, if_neg hip.symm, List.append_assoc]
        rfl
      · rw [if_neg hnp, if_neg hnp, if_neg hns, hd₄, Document.body_link, if_neg hns, hd₃,
          Document.body_link, if_neg hnp, hbody₂, if_neg hns]

/-! ### A note is taken out of its element -/

/-- The store before and after a note is taken out of its element and the element is removed. -/
structure Released (d : Document) (p c span image : NodeId) (A B : List NodeId)
    (d' : Document) : Prop where
  wellFormed : d'.WellFormed
  fresh : d'.fresh = d.fresh
  parent : ∀ n, d'.mParent n =
    if n = span then none else if n = c then some p else d.mParent n
  body : ∀ n, d'.body n = if n = p then (d.body p).withChildren (A ++ c :: B) else
    if n = span then (d.body span).withChildren [image] else d.body n

/-- The two calls that take a note out of its element. -/
theorem exists_released (hd : d.WellFormed) (hp : d.children p = A ++ span :: B)
    (hs : d.children span = [image, c]) (hc : d.children c = []) :
    ∃ d₁ d₂, d.insertBefore p c (some span) = (.ok, d₁) ∧
      d₁.removeChild p span = (.ok, d₂) ∧ Released d p c span image A B d₂ := by
  have hsp : d.mParent span = some p := (hd.parent_iff p span).mpr (by simp [hp])
  have hcs : d.mParent c = some span := (hd.parent_iff span c).mpr (by simp [hs])
  have hpf : p < d.fresh := hd.parent_lt hsp
  have hcf : c < d.fresh := hd.child_lt hcs
  have hps : p ≠ span := hd.parent_ne hsp
  have hsc : span ≠ c := hd.parent_ne hcs
  have hpc : p ≠ c := by
    rintro rfl
    rw [hc] at hp
    simp at hp
  have htp : d.isText p = false := Document.isText_of_mem (c := span) (by simp [hp])
  have hts : d.isText span = false := Document.isText_of_mem (c := c) (by simp [hs])
  have hanc : ¬d.Ancestor c p := fun h => hpc (hd.ancestor_of_children_nil hc h)
  have hs' : d.children span = [image] ++ c :: [] := hs
  -- the note goes in front of the element
  have h₁ := Document.insertBefore_attached hd hp htp hs' hps.symm hanc hpf
  obtain ⟨d₁, hd₁⟩ : ∃ d₁, d₁ = (d.unlink c span [image].length).link c p A.length := ⟨_, rfl⟩
  have hch : ∀ n, (d.unlink c span [image].length).children n =
      if n = span then [image] else d.children n := by
    intro n
    rw [Document.children_unlink hts, hs', eraseIdx_append_length]
    rfl
  have hchp : (d.unlink c span [image].length).children p = A ++ span :: B := by
    rw [hch, if_neg hps, hp]
  have htp' : (d.unlink c span [image].length).isText p = false := by
    rw [Document.isText_unlink, htp]
  have hwf₁ : d₁.WellFormed := by
    rw [hd₁]
    apply (hd.unlink hs').link hchp htp'
    · rw [Document.mParent_unlink, if_pos rfl]
    · exact fun h => hanc h.of_unlink
    · exact hcf
    · exact hpf
  have hch₁ : d₁.children p = (A ++ [c]) ++ span :: B := by
    rw [hd₁, Document.children_link htp', if_pos rfl, hchp, insertIdx_append_length]
    simp
  -- the element goes
  refine ⟨d₁, d₁.unlink span p (A ++ [c]).length, by rw [hd₁]; exact h₁,
    Document.removeChild_eq hwf₁ hch₁, hwf₁.unlink hch₁, ?_, ?_, ?_⟩
  · rw [Document.fresh_unlink, hd₁, Document.fresh_link, Document.fresh_unlink]
  · intro n
    rw [Document.mParent_unlink, hd₁, Document.mParent_link, Document.mParent_unlink]
    split_ifs <;> rfl
  · intro n
    rw [Document.body_unlink, hch₁, eraseIdx_append_length, hd₁, Document.body_link,
      Document.body_link, if_pos rfl, Body.withChildren_withChildren, Document.body_unlink,
      if_neg hps, Document.body_unlink, hs', eraseIdx_append_length, List.append_assoc]
    split_ifs <;> rfl

end Kompozer.Composer

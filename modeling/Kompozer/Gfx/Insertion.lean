import Kompozer.Gfx.Region

/-! `InsertInPlace` keeps the order. From wherever `mCurRect` stands the loops stop in
front of the first rectangle that comes after the new one, or behind the last one that
comes before it, and never walk onto the list head. -/

namespace Kompozer.Gfx

open NsRect

/-- In the order of the list of a region. -/
def Sorted (l : List NsRect) : Prop := l.Pairwise Before

namespace Sorted

theorem insert {A B : List NsRect} {r : NsRect} (h : Sorted (A ++ B)) (hA : ∀ a ∈ A, a.Before r)
    (hB : ∀ b ∈ B, r.Before b) : Sorted (A ++ r :: B) := by
  obtain ⟨h₁, h₂, h₃⟩ := List.pairwise_append.mp h
  refine List.pairwise_append.mpr ⟨h₁, List.pairwise_cons.mpr ⟨hB, h₂⟩, fun a ha b hb => ?_⟩
  rcases List.mem_cons.mp hb with rfl | hb
  · exact hA a ha
  · exact h₃ a ha b hb

/-- What comes before a rectangle of the list comes before all that it comes before. -/
theorem before_of_mem {A B : List NsRect} {c r : NsRect} (h : Sorted (A ++ c :: B))
    (hc : c.Before r) : ∀ a ∈ A, a.Before r := fun a ha =>
  ((List.pairwise_append.mp h).2.2 a ha c (by simp)).trans hc

theorem before_of_head {B : List NsRect} {r : NsRect} (h : Sorted B)
    (hr : ∀ b ∈ B.head?, r.Before b) : ∀ b ∈ B, r.Before b := by
  cases B with
  | nil => simp
  | cons c B =>
    have hc : r.Before c := hr c rfl
    intro b hb
    rcases List.mem_cons.mp hb with rfl | hb
    · exact hc
    · exact hc.trans ((List.pairwise_cons.mp h).1 b hb)

theorem y_le {A B : List NsRect} (h : Sorted (A ++ B)) : ∀ a ∈ A, ∀ b ∈ B, a.y ≤ b.y := by
  intro a ha b hb
  have := (List.pairwise_append.mp h).2.2 a ha b hb
  simp only [Before] at this
  omega

end Sorted

namespace Chain

/-- The forward loop moves over the rectangles that pass the test. -/
theorem forward_spec (test : NsRect → Bool) (head : NsRect) (hhead : test head = false)
    (ps : List NsRect) (c : NsRect) (ns : List NsRect) :
    ∃ c' l, forward test head ps c ns = some c' ∧ ns = l ++ c'.nexts ∧
      c'.prevs.reverse ++ [c'.mCurRect] = ps.reverse ++ c :: l ∧
      (∀ n ∈ l, test n = true) ∧ ∀ n ∈ c'.nexts.head?, test n = false := by
  induction ns generalizing ps c with
  | nil => exact ⟨⟨ps, c, []⟩, [], by simp [forward, hhead], rfl, rfl, by simp, by simp⟩
  | cons n ns ih =>
    cases hn : test n with
    | true =>
      obtain ⟨c', l, h₁, h₂, h₃, h₄, h₅⟩ := ih (c :: ps) n
      refine ⟨c', n :: l, by rw [forward, if_pos hn, h₁], by rw [h₂, List.cons_append],
        by simp [h₃], ?_, h₅⟩
      rintro m hm
      rcases List.mem_cons.mp hm with rfl | hm
      · exact hn
      · exact h₄ m hm
    | false =>
      exact ⟨⟨ps, c, n :: ns⟩, [], by simp [forward, hn], rfl, rfl, by simp, by simp [hn]⟩

/-- The backward loop does so on the other side. -/
theorem backward_spec (test : NsRect → Bool) (head : NsRect) (hhead : test head = false)
    (ps : List NsRect) (c : NsRect) (ns : List NsRect) :
    ∃ c' l, backward test head ps c ns = some c' ∧ ps = l ++ c'.prevs ∧
      c'.mCurRect :: c'.nexts = l.reverse ++ c :: ns ∧
      (∀ n ∈ l, test n = true) ∧ ∀ n ∈ c'.prevs.head?, test n = false := by
  induction ps generalizing c ns with
  | nil => exact ⟨⟨[], c, ns⟩, [], by simp [backward, hhead], rfl, rfl, by simp, by simp⟩
  | cons n ps ih =>
    cases hn : test n with
    | true =>
      obtain ⟨c', l, h₁, h₂, h₃, h₄, h₅⟩ := ih n (c :: ns)
      refine ⟨c', n :: l, by rw [backward, if_pos hn, h₁], by rw [h₂, List.cons_append],
        by simp [h₃], ?_, h₅⟩
      rintro m hm
      rcases List.mem_cons.mp hm with rfl | hm
      · exact hn
      · exact h₄ m hm
    | false =>
      exact ⟨⟨n :: ps, c, ns⟩, [], by simp [backward, hn], rfl, rfl, by simp, by simp [hn]⟩

/-- The new rectangle among those of a list, none of which it shares a point with. -/
structure Fresh (r : NsRect) (l : List NsRect) : Prop where
  solid : r.Solid
  solids : ∀ s ∈ l, s.Solid
  disjoint : ∀ s ∈ l, Disjoint r.points s.points
  min_lt : MIN_INT32 < r.y
  lt_max : r.y < MAX_INT32

theorem Fresh.before {r : NsRect} {l : List NsRect} (h : Fresh r l) {s : NsRect} (hs : s ∈ l)
    (hn : ¬ s.Before r) : r.Before s :=
  before_or_before (h.solids s hs) h.solid (h.disjoint s hs).symm hn

/-- The list with the new rectangle in its place. -/
def Inserted (r : NsRect) (l l' : List NsRect) : Prop := Sorted l' ∧ l'.Perm (r :: l)

theorem Inserted.of_split {r : NsRect} {A B : List NsRect} (h : Sorted (A ++ B))
    (hA : ∀ a ∈ A, a.Before r) (hB : ∀ b ∈ B, r.Before b) :
    Inserted r (A ++ B) (A ++ r :: B) :=
  ⟨h.insert hA hB, List.perm_middle⟩

/-- The last loop forward: the new rectangle belongs behind `mCurRect` and not below the
row of the next ones. -/
theorem forward_row {r c : NsRect} {ps ns : List NsRect} (hs : Sorted (ps.reverse ++ c :: ns))
    (hf : Fresh r (ps.reverse ++ c :: ns)) (hc : c.Before r) (hrow : ∀ n ∈ ns, r.y ≤ n.y) :
    ∃ c', forward (fun next => decide (r.y = next.y ∧ r.x > next.x)) (listHead MAX_INT32)
        ps c ns = some c' ∧
      Inserted r (ps.reverse ++ c :: ns) (c'.insertAfter r).rects := by
  have hhead : ¬(r.y = MAX_INT32 ∧ r.x > 0) := fun h => absurd h.1 hf.lt_max.ne
  obtain ⟨c', l, h₁, h₂, h₃, h₄, h₅⟩ := forward_spec
    (fun next => decide (r.y = next.y ∧ r.x > next.x)) (listHead MAX_INT32)
    (decide_eq_false hhead) ps c ns
  refine ⟨c', h₁, ?_⟩
  have hsplit : ps.reverse ++ c :: ns = (ps.reverse ++ c :: l) ++ c'.nexts := by
    rw [h₂]
    simp
  have hrects : (c'.insertAfter r).rects = (ps.reverse ++ c :: l) ++ r :: c'.nexts := by
    simp [insertAfter, rects, ← h₃]
  have hbefore : ∀ a ∈ ps.reverse ++ c :: l, a.Before r := by
    intro a ha
    rcases List.mem_append.mp ha with ha | ha
    · exact hs.before_of_mem hc a ha
    · rcases List.mem_cons.mp ha with rfl | ha
      · exact hc
      · have := of_decide_eq_true (h₄ a ha)
        exact .inr ⟨this.1.symm, this.2⟩
  rw [hsplit] at hs hf ⊢
  rw [hrects]
  refine .of_split hs hbefore (Sorted.before_of_head (List.pairwise_append.mp hs).2.1 ?_)
  intro b hb
  have hmem : b ∈ c'.nexts := List.mem_of_mem_head? hb
  have hy := hrow b (by rw [h₂]; simp [hmem])
  have hnot := of_decide_eq_false (h₅ b hb)
  refine hf.before (by simp [hmem]) fun hbr => ?_
  simp only [Before] at hbr
  omega

/-- The last loop backward: the new rectangle belongs in front of `mCurRect` and not
above the row of the previous ones. -/
theorem backward_row {r c : NsRect} {ps ns : List NsRect} (hs : Sorted (ps.reverse ++ c :: ns))
    (hf : Fresh r (ps.reverse ++ c :: ns)) (hc : r.Before c) (hrow : ∀ p ∈ ps, p.y ≤ r.y) :
    ∃ c', backward (fun prev => decide (r.y = prev.y ∧ r.x < prev.x)) (listHead MIN_INT32)
        ps c ns = some c' ∧
      Inserted r (ps.reverse ++ c :: ns) (c'.insertBefore r).rects := by
  have hhead : ¬(r.y = MIN_INT32 ∧ r.x < 0) := fun h => absurd h.1 hf.min_lt.ne'
  obtain ⟨c', l, h₁, h₂, h₃, h₄, h₅⟩ := backward_spec
    (fun prev => decide (r.y = prev.y ∧ r.x < prev.x)) (listHead MIN_INT32)
    (decide_eq_false hhead) ps c ns
  refine ⟨c', h₁, ?_⟩
  have hsplit : ps.reverse ++ c :: ns = c'.prevs.reverse ++ (l.reverse ++ c :: ns) := by
    rw [h₂]
    simp
  have hrects : (c'.insertBefore r).rects = c'.prevs.reverse ++ r :: (l.reverse ++ c :: ns) := by
    simp [insertBefore, rects, ← h₃]
  have hafter : ∀ b ∈ l.reverse ++ c :: ns, r.Before b := by
    have hcns : ∀ b ∈ c :: ns, r.Before b :=
      Sorted.before_of_head (List.pairwise_append.mp hs).2.1 (by simp [hc])
    intro b hb
    rcases List.mem_append.mp hb with hb | hb
    · have := of_decide_eq_true (h₄ b (by simpa using hb))
      exact .inr this
    · exact hcns b hb
  rw [hsplit] at hs hf ⊢
  rw [hrects]
  refine .of_split hs (fun a ha => ?_) hafter
  cases hp : c'.prevs with
  | nil => simp [hp] at ha
  | cons p ps' =>
    have hmem : p ∈ c'.prevs := by simp [hp]
    have hy := hrow p (by rw [h₂]; simp [hmem])
    have hnot := of_decide_eq_false (h₅ p (by simp [hp]))
    have hpr : p.Before r := by
      by_contra hn
      have := hf.before (by simp [hmem]) hn
      simp only [Before] at this
      omega
    rw [hp, List.reverse_cons] at hs ha
    rcases List.mem_append.mp ha with ha | ha
    · rw [List.append_assoc] at hs
      exact hs.before_of_mem hpr a ha
    · rw [List.mem_singleton.mp ha]
      exact hpr

/-- The first loop forward stops behind a rectangle above the new one and in front of
its row. -/
theorem forward_rows {r c : NsRect} {ps ns : List NsRect} (hs : Sorted (ps.reverse ++ c :: ns))
    (hmax : r.y < MAX_INT32) (hc : c.y < r.y) :
    ∃ c', forward (fun next => decide (r.y > next.y)) (listHead MAX_INT32) ps c ns = some c' ∧
      c'.rects = ps.reverse ++ c :: ns ∧ c'.mCurRect.y < r.y ∧ ∀ n ∈ c'.nexts, r.y ≤ n.y := by
  obtain ⟨c', l, h₁, h₂, h₃, h₄, h₅⟩ := forward_spec (fun next => decide (r.y > next.y))
    (listHead MAX_INT32) (decide_eq_false hmax.le.not_gt) ps c ns
  have hrects : c'.rects = ps.reverse ++ c :: ns := by
    rw [rects, ← List.singleton_append, ← List.append_assoc, h₃, h₂]
    simp
  refine ⟨c', h₁, hrects, ?_, fun n hn => ?_⟩
  · have hlast : (c :: l).getLast (by simp) = c'.mCurRect := by
      have := congrArg List.getLast? h₃
      simpa [List.getLast?_cons, List.getLast_eq_getLastD] using this.symm
    have hmem : c'.mCurRect ∈ c :: l := hlast ▸ List.getLast_mem _
    rcases List.mem_cons.mp hmem with h | h
    · rw [h]
      exact hc
    · exact of_decide_eq_true (h₄ _ h)
  · have hsorted : Sorted c'.nexts := by
      rw [← hrects, rects] at hs
      exact (List.pairwise_cons.mp (List.pairwise_append.mp hs).2.1).2
    cases hnexts : c'.nexts with
    | nil => simp [hnexts] at hn
    | cons m ms =>
      have hm : r.y ≤ m.y := by
        have := of_decide_eq_false (h₅ m (by simp [hnexts]))
        omega
      rw [hnexts] at hn hsorted
      rcases List.mem_cons.mp hn with rfl | hn
      · exact hm
      · have := (List.pairwise_cons.mp hsorted).1 n hn
        simp only [Before] at this
        omega

/-- The first loop backward does so on the other side. -/
theorem backward_rows {r c : NsRect} {ps ns : List NsRect} (hs : Sorted (ps.reverse ++ c :: ns))
    (hmin : MIN_INT32 < r.y) (hc : r.y < c.y) :
    ∃ c', backward (fun prev => decide (r.y < prev.y)) (listHead MIN_INT32) ps c ns = some c' ∧
      c'.rects = ps.reverse ++ c :: ns ∧ r.y < c'.mCurRect.y ∧ ∀ n ∈ c'.prevs, n.y ≤ r.y := by
  obtain ⟨c', l, h₁, h₂, h₃, h₄, h₅⟩ := backward_spec (fun prev => decide (r.y < prev.y))
    (listHead MIN_INT32) (decide_eq_false hmin.le.not_gt) ps c ns
  have hrects : c'.rects = ps.reverse ++ c :: ns := by
    rw [rects, h₃, h₂]
    simp
  refine ⟨c', h₁, hrects, ?_, fun n hn => ?_⟩
  · have hmem : c'.mCurRect ∈ c :: l := by
      cases hl : l.reverse with
      | nil =>
        rw [hl, List.nil_append, List.cons.injEq] at h₃
        simp [h₃.1]
      | cons m ms =>
        rw [hl, List.cons_append, List.cons.injEq] at h₃
        have : m ∈ l := by
          rw [← List.mem_reverse, hl]
          simp
        simp [h₃.1, this]
    rcases List.mem_cons.mp hmem with h | h
    · rw [h]
      exact hc
    · exact of_decide_eq_true (h₄ _ h)
  · have hsorted : Sorted c'.prevs.reverse := by
      rw [← hrects, rects] at hs
      exact (List.pairwise_append.mp hs).1
    cases hprevs : c'.prevs with
    | nil => simp [hprevs] at hn
    | cons m ms =>
      have hm : m.y ≤ r.y := by
        have := of_decide_eq_false (h₅ m (by simp [hprevs]))
        omega
      rw [hprevs] at hn hsorted
      rcases List.mem_cons.mp hn with rfl | hn
      · exact hm
      · rw [List.reverse_cons] at hsorted
        have := (List.pairwise_append.mp hsorted).2.2 n (by simpa using hn) m (by simp)
        simp only [Before] at this
        omega

theorem rects_forward {test : NsRect → Bool} {head c : NsRect} {ps ns : List NsRect} {c' : Chain}
    (h : forward test head ps c ns = some c') : c'.rects = ps.reverse ++ c :: ns := by
  induction ns generalizing ps c with
  | nil =>
    rw [forward] at h
    split_ifs at h
    rw [← Option.some.inj h, rects]
  | cons n ns ih =>
    rw [forward] at h
    split_ifs at h
    · rw [ih h]
      simp
    · rw [← Option.some.inj h, rects]

theorem rects_backward {test : NsRect → Bool} {head c : NsRect} {ps ns : List NsRect} {c' : Chain}
    (h : backward test head ps c ns = some c') : c'.rects = ps.reverse ++ c :: ns := by
  induction ps generalizing c ns with
  | nil =>
    rw [backward] at h
    split_ifs at h
    rw [← Option.some.inj h, rects]
  | cons n ps ih =>
    rw [backward] at h
    split_ifs at h
    · rw [ih h]
      simp
    · rw [← Option.some.inj h, rects]

theorem rects_insertAfter (r : NsRect) (c : Chain) : (c.insertAfter r).rects.Perm (r :: c.rects) := by
  have h : (c.insertAfter r).rects = (c.prevs.reverse ++ [c.mCurRect]) ++ r :: c.nexts := by
    simp [insertAfter, rects]
  have h' : c.rects = (c.prevs.reverse ++ [c.mCurRect]) ++ c.nexts := by simp [rects]
  rw [h, h']
  exact List.perm_middle

theorem rects_insertBefore (r : NsRect) (c : Chain) :
    (c.insertBefore r).rects.Perm (r :: c.rects) :=
  List.perm_middle

/-- Wherever `InsertInPlace` puts a rectangle, it loses none. -/
theorem insertInPlace_perm {r : NsRect} {c c' : Chain} (h : c.insertInPlace r = some c') :
    c'.rects.Perm (r :: c.rects) := by
  rw [insertInPlace] at h
  split_ifs at h
  · obtain ⟨c₁, h₁, h⟩ := Option.bind_eq_some_iff.mp h
    obtain ⟨c₂, h₂, h⟩ := Option.bind_eq_some_iff.mp h
    have hrects : c₂.rects = c.rects := (rects_forward h₂).trans (rects_forward h₁)
    rw [← Option.some.inj h, ← hrects]
    exact rects_insertAfter r c₂
  · obtain ⟨c₁, h₁, h⟩ := Option.bind_eq_some_iff.mp h
    obtain ⟨c₂, h₂, h⟩ := Option.bind_eq_some_iff.mp h
    have hrects : c₂.rects = c.rects := (rects_backward h₂).trans (rects_backward h₁)
    rw [← Option.some.inj h, ← hrects]
    exact rects_insertBefore r c₂
  · obtain ⟨c₁, h₁, h⟩ := Option.bind_eq_some_iff.mp h
    have hrects : c₁.rects = c.rects := rects_forward h₁
    rw [← Option.some.inj h, ← hrects]
    exact rects_insertAfter r c₁
  · obtain ⟨c₁, h₁, h⟩ := Option.bind_eq_some_iff.mp h
    have hrects : c₁.rects = c.rects := rects_backward h₁
    rw [← Option.some.inj h, ← hrects]
    exact rects_insertBefore r c₁

/-- `mCurRect` is then at the new rectangle. -/
theorem mCurRect_insertInPlace {r : NsRect} {c c' : Chain} (h : c.insertInPlace r = some c') :
    c'.mCurRect = r := by
  rw [insertInPlace] at h
  split_ifs at h
  · obtain ⟨c₁, -, h⟩ := Option.bind_eq_some_iff.mp h
    obtain ⟨c₂, -, h⟩ := Option.bind_eq_some_iff.mp h
    rw [← Option.some.inj h]
    rfl
  · obtain ⟨c₁, -, h⟩ := Option.bind_eq_some_iff.mp h
    obtain ⟨c₂, -, h⟩ := Option.bind_eq_some_iff.mp h
    rw [← Option.some.inj h]
    rfl
  · obtain ⟨c₁, -, h⟩ := Option.bind_eq_some_iff.mp h
    rw [← Option.some.inj h]
    rfl
  · obtain ⟨c₁, -, h⟩ := Option.bind_eq_some_iff.mp h
    rw [← Option.some.inj h]
    rfl

/-- `InsertInPlace` puts the rectangle where it belongs, from wherever it starts. -/
theorem insertInPlace_spec {r : NsRect} {c : Chain} (hs : Sorted c.rects)
    (hf : Fresh r c.rects) :
    ∃ c', c.insertInPlace r = some c' ∧ Inserted r c.rects c'.rects := by
  obtain ⟨ps, cur, ns⟩ := c
  simp only [rects] at hs hf ⊢
  have hcns := (List.pairwise_append.mp hs).2.1
  simp only [insertInPlace]
  split_ifs with h₁ h₂ h₃
  · obtain ⟨⟨ps', cur', ns'⟩, e, hrects, hcur, hrow⟩ := forward_rows hs hf.lt_max h₁
    rw [← hrects] at hs hf ⊢
    obtain ⟨c', e', hins⟩ := forward_row hs hf (.inl hcur) hrow
    exact ⟨c'.insertAfter r, by rw [e, Option.bind_eq_bind, Option.bind_some, e']; rfl, hins⟩
  · obtain ⟨⟨ps', cur', ns'⟩, e, hrects, hcur, hrow⟩ := backward_rows hs hf.min_lt h₂
    rw [← hrects] at hs hf ⊢
    obtain ⟨c', e', hins⟩ := backward_row hs hf (.inl hcur) hrow
    exact ⟨c'.insertBefore r, by rw [e, Option.bind_eq_bind, Option.bind_some, e']; rfl, hins⟩
  · have hrow : ∀ n ∈ ns, r.y ≤ n.y := fun n hn => by
      have := (List.pairwise_cons.mp hcns).1 n hn
      simp only [Before] at this
      omega
    obtain ⟨c', e', hins⟩ := forward_row hs hf (.inr ⟨by omega, h₃⟩) hrow
    exact ⟨c'.insertAfter r, by rw [e']; rfl, hins⟩
  · have hrow : ∀ p ∈ ps, p.y ≤ r.y := fun p hp => by
      have := hs.y_le p (by simpa using hp) cur (by simp)
      omega
    have hcur : r.Before cur := hf.before (by simp) fun h => by
      simp only [Before] at h
      omega
    obtain ⟨c', e', hins⟩ := backward_row hs hf hcur hrow
    exact ⟨c'.insertBefore r, by rw [e']; rfl, hins⟩

end Chain

end Kompozer.Gfx

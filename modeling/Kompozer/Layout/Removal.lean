import Kompozer.Layout.Bands
import Mathlib.Data.List.Perm.Subperm

/-! Removing a frame from the bands (`RemoveRegion`). Rects of the frame alone go, shared rects lose
the frame; neighbours with the same frames are joined, in a band and from band to band, which
changes no point. -/

namespace Kompozer.Layout

variable {t b x x₀ z top bottom : ℤ} {r s p : BandRect} {l band prev next : List BandRect}
  {f g : nsIFrame}

/-! ### Frames of a rect -/

theorem isOccupiedBy_iff : r.IsOccupiedBy f = true ↔ f ∈ r.mFrames := by
  simp [BandRect.IsOccupiedBy]

/-- Lists of the same length, one within the other. -/
theorem mem_of_same (h : r.HasSameFrameList s = true) (hn : r.mFrames.Nodup) :
    g ∈ r.mFrames ↔ g ∈ s.mFrames := by
  rw [BandRect.HasSameFrameList] at h
  split_ifs at h with hlen
  have hlen : r.mFrames.length = s.mFrames.length := not_not.mp hlen
  have hsub : r.mFrames ⊆ s.mFrames := fun a ha => by
    simpa using List.all_eq_true.mp h a ha
  exact ((List.subperm_of_subset hn hsub).perm_of_length_le hlen.ge).mem_iff

/-- The rect without the frame. -/
def dropFrame (f : nsIFrame) (r : BandRect) : BandRect :=
  if r.IsOccupiedBy f then r.RemoveFrame f else r

@[simp] theorem dropFrame_left : (dropFrame f r).mLeft = r.mLeft := by
  rw [dropFrame]
  split_ifs <;> rfl

@[simp] theorem dropFrame_right : (dropFrame f r).mRight = r.mRight := by
  rw [dropFrame]
  split_ifs <;> rfl

theorem mem_dropFrame (hn : r.mFrames.Nodup) :
    g ∈ (dropFrame f r).mFrames ↔ g ∈ r.mFrames ∧ g ≠ f := by
  rw [dropFrame]
  split_ifs with h
  · rw [BandRect.RemoveFrame, hn.mem_erase_iff, and_comm]
  · rw [isOccupiedBy_iff] at h
    exact ⟨fun hg => ⟨hg, fun he => h (he ▸ hg)⟩, And.left⟩

/-- A rect that is not the frame's alone stays a rect of the band. -/
theorem Slot.dropFrame (h : Slot t b x r)
    (hk : ¬ (r.IsOccupiedBy f && !decide (r.mNumFrames > 1)) = true) :
    Slot t b x (dropFrame f r) := by
  simp only [Layout.dropFrame]
  split_ifs with ho
  · have hlen : 1 < r.mFrames.length := by simpa [ho, BandRect.mNumFrames] using hk
    refine ⟨h.top, h.bottom, h.left, h.wide, ?_, h.nodup.erase f⟩
    rw [BandRect.RemoveFrame, ← List.length_pos_iff, List.length_erase_of_mem (isOccupiedBy_iff.mp ho)]
    omega
  · exact h

/-- A rect that goes is the frame's alone. -/
theorem mem_alone (h : (r.IsOccupiedBy f && !decide (r.mNumFrames > 1)) = true) :
    g ∈ r.mFrames ↔ g = f := by
  simp only [Bool.and_eq_true, isOccupiedBy_iff, Bool.not_eq_true', BandRect.mNumFrames] at h
  obtain ⟨hmem, hlen⟩ := h
  have hlen := not_lt.mp (decide_eq_false_iff_not.mp hlen)
  obtain ⟨a, ha⟩ : ∃ a, r.mFrames = [a] :=
    List.length_eq_one_iff.mp (Nat.le_antisymm hlen (List.length_pos_of_mem hmem))
  rw [ha, List.mem_singleton] at hmem ⊢
  rw [hmem]

/-! ### One band -/

/-- The frame was removed from a row. -/
structure Removed (t b x : ℤ) (f : nsIFrame) (prevRect : Option BandRect) (l out : List BandRect) :
    Prop where
  row : Row t b x out
  hits : ∀ g z, Hits out g z ↔ Hits prevRect.toList g z ∨ g ≠ f ∧ Hits l g z
  listed : ∀ g, Listed out g → Listed prevRect.toList g ∨ g ≠ f ∧ Listed l g

theorem removeInBand_gone (prevRect : Option BandRect) (prevIsShared : Bool)
    (ho : (r.IsOccupiedBy f && !decide (r.mNumFrames > 1)) = true) :
    (removeInBand f prevRect prevIsShared (r :: l)).1 =
      prevRect.toList ++ (removeInBand f none false l).1 := by
  rw [removeInBand, if_pos ho]

theorem removeInBand_first (prevIsShared : Bool)
    (ho : ¬ (r.IsOccupiedBy f && !decide (r.mNumFrames > 1)) = true) :
    (removeInBand f none prevIsShared (r :: l)).1 =
      (removeInBand f (some (dropFrame f r)) (r.IsOccupiedBy f) l).1 := by
  rw [removeInBand, if_neg ho]
  rfl

theorem removeInBand_next (p : BandRect) (prevIsShared : Bool)
    (ho : ¬ (r.IsOccupiedBy f && !decide (r.mNumFrames > 1)) = true) :
    (removeInBand f (some p) prevIsShared (r :: l)).1 =
      if ((prevIsShared || r.IsOccupiedBy f) && (p.mRight = (dropFrame f r).mLeft) &&
          p.HasSameFrameList (dropFrame f r)) = true then
        (removeInBand f (some { dropFrame f r with mLeft := p.mLeft }) (r.IsOccupiedBy f) l).1
      else p :: (removeInBand f (some (dropFrame f r)) (r.IsOccupiedBy f) l).1 := by
  rw [removeInBand, if_neg ho]
  exact apply_ite Prod.fst _ _ _

/-- The inner loop of `RemoveRegion`, from a rect on with the one before it. -/
theorem removeInBand_removed (prevRect : Option BandRect) (prevIsShared : Bool)
    (h : Row t b x (prevRect.toList ++ l)) :
    Removed t b x f prevRect l (removeInBand f prevRect prevIsShared l).1 := by
  induction l generalizing prevRect prevIsShared x with
  | nil =>
    rw [List.append_nil] at h
    exact ⟨h, fun g z => by simp [removeInBand], fun g => by simp [removeInBand]⟩
  | cons r l ih =>
    have hslot : Slot t b x r := h.slot (by simp)
    have hwide := hslot.wide
    have htail : Row t b r.mRight l := by
      cases prevRect with
      | none => cases h with | cons _ hl => exact hl
      | some p => cases h with | cons _ hl => cases hl with | cons _ hl => exact hl
    have hprev : ∀ p ∈ prevRect, Slot t b x p ∧ p.mRight ≤ r.mLeft := by
      rintro p rfl
      cases h with | cons hp hl => cases hl with | cons hr _ => exact ⟨hp, hr.left⟩
    by_cases ho : (r.IsOccupiedBy f && !decide (r.mNumFrames > 1)) = true
    · -- the rect goes
      have hrest := ih (x := r.mRight) none false htail
      rw [removeInBand_gone _ _ ho]
      cases prevRect with
      | none =>
        refine ⟨hrest.row.mono (hslot.left.trans hwide), fun g z => ?_, fun g hg => ?_⟩
        · simp only [Option.toList_none, List.nil_append, hits_nil, false_or, hrest.hits, hits_cons,
            mem_alone ho]
          tauto
        · have := hrest.listed g hg
          simp only [Option.toList_none, listed_nil, false_or, listed_cons] at this ⊢
          tauto
      | some p =>
        obtain ⟨hp, hpr⟩ := hprev p rfl
        refine ⟨.cons hp (hrest.row.mono (hpr.trans hwide)), fun g z => ?_, fun g hg => ?_⟩
        · simp only [Option.toList_some, Option.toList_none, hits_cons, hits_nil, or_false, false_or,
            hrest.hits, mem_alone ho, List.singleton_append]
          tauto
        · have := hrest.listed g
          simp only [Option.toList_some, Option.toList_none, listed_cons, listed_nil, or_false,
            false_or, List.singleton_append] at hg this ⊢
          tauto
    · -- the rect stays without the frame
      have hkept := hslot.dropFrame ho
      have hmem := fun g => mem_dropFrame (f := f) (g := g) hslot.nodup
      cases prevRect with
      | none =>
        rw [removeInBand_first _ ho]
        have hrest := ih (some (dropFrame f r)) (r.IsOccupiedBy f)
          (.cons hkept (by rw [dropFrame_right]; exact htail))
        refine ⟨hrest.row, fun g z => (hrest.hits g z).trans ?_, fun g hg => ?_⟩
        · simp only [Option.toList_some, Option.toList_none, hits_cons, hits_nil, or_false, false_or,
            hmem, dropFrame_left, dropFrame_right]
          tauto
        · have := hrest.listed g hg
          simp only [Option.toList_some, Option.toList_none, listed_cons, listed_nil, or_false,
            false_or, hmem] at this ⊢
          tauto
      | some p =>
        obtain ⟨hp, hpr⟩ := hprev p rfl
        rw [removeInBand_next _ _ ho]
        split_ifs with hj
        · -- the rect before is joined with it
          simp only [Bool.and_eq_true, decide_eq_true_eq, dropFrame_left] at hj
          have hsame := fun g => mem_of_same (g := g) hj.2 hp.nodup
          have hedge := hj.1.2
          have hpwide := hp.wide
          have hjoined : Slot t b x { dropFrame f r with mLeft := p.mLeft } :=
            ⟨hkept.top, hkept.bottom, hp.left, by simp; omega, hkept.listed, hkept.nodup⟩
          have hrest := ih (some { dropFrame f r with mLeft := p.mLeft }) (r.IsOccupiedBy f)
            (.cons hjoined (by simpa using htail))
          refine ⟨hrest.row, fun g z => (hrest.hits g z).trans ?_, fun g hg => ?_⟩
          · simp only [Option.toList_some, hits_cons, hits_nil, or_false, hsame, hmem,
              dropFrame_right]
            grind
          · have := hrest.listed g hg
            simp only [Option.toList_some, listed_cons, listed_nil, or_false, hsame, hmem] at this ⊢
            tauto
        · have hrest := ih (x := p.mRight) (some (dropFrame f r)) (r.IsOccupiedBy f)
            (.cons { hkept with left := by simpa using hpr } (by simpa using htail))
          refine ⟨.cons hp hrest.row, fun g z => ?_, fun g hg => ?_⟩
          · rw [hits_cons, hrest.hits]
            simp only [Option.toList_some, hits_cons, hits_nil, or_false, hmem, dropFrame_left,
              dropFrame_right]
            tauto
          · have := hrest.listed g
            simp only [Option.toList_some, listed_cons, listed_nil, or_false, hmem] at hg this ⊢
            tauto

/-! ### Joining bands -/

/-- Rects that can be joined occupy the same places. -/
theorem canJoinLoop_row {t' b' : ℤ} (h : Row t b x band) (hp : Row t' b' x₀ prev)
    (hj : canJoinLoop band prev = true) :
    Row t' b x (band.zipWith (fun r p => { r with mTop := p.mTop }) prev) ∧
      (∀ g z, (Hits (band.zipWith (fun r p => { r with mTop := p.mTop }) prev) g z ↔
        Hits band g z) ∧ (Hits prev g z ↔ Hits band g z)) ∧
      ∀ g, Listed (band.zipWith (fun r p => { r with mTop := p.mTop }) prev) g ↔ Listed band g := by
  induction h generalizing x₀ prev with
  | nil x =>
    cases hp with
    | nil => exact ⟨.nil x, fun g z => ⟨Iff.rfl, Iff.rfl⟩, fun g => Iff.rfl⟩
    | cons => simp [canJoinLoop] at hj
  | @cons x r l hr hl ih =>
    cases hp with
    | nil => simp [canJoinLoop] at hj
    | @cons _ p ps hps hpl =>
      rw [canJoinLoop] at hj
      split_ifs at hj with hedge hsame
      have hsame : r.HasSameFrameList p = true := by simpa using hsame
      obtain ⟨hrow, hhits, hlisted⟩ := ih hpl hj
      have hmem := fun g => mem_of_same (g := g) hsame hr.nodup
      have hleft : r.mLeft = p.mLeft := by_contra fun he => hedge (.inl he)
      have hright : r.mRight = p.mRight := by_contra fun he => hedge (.inr he)
      refine ⟨.cons ⟨hps.top, hr.bottom, hr.left, hr.wide, hr.listed, hr.nodup⟩ hrow,
        fun g z => ⟨?_, ?_⟩, fun g => ?_⟩
      · rw [List.zipWith_cons_cons, hits_cons, hits_cons, (hhits g z).1]
      · rw [hits_cons, hits_cons, (hhits g z).2, hmem, hleft, hright]
      · rw [List.zipWith_cons_cons, listed_cons, listed_cons, hlisted]

theorem joinBands_row {t' b' : ℤ} {kept : List BandRect} (h : Row t b x band)
    (hp : Row t' b' x₀ prev) (hj : JoinBands band prev = some kept) :
    b' = t ∧ Row t' b x kept ∧
      (∀ g z, (Hits kept g z ↔ Hits band g z) ∧ (Hits prev g z ↔ Hits band g z)) ∧
      ∀ g, Listed kept g ↔ Listed band g := by
  rw [JoinBands] at hj
  split_ifs at hj with hcan
  obtain rfl := Option.some.inj hj
  cases h with
  | nil => simp [CanJoinBands] at hcan
  | cons hr hl =>
    cases hp with
    | nil => simp [CanJoinBands] at hcan
    | cons hps hpl =>
      simp only [CanJoinBands] at hcan
      split_ifs at hcan with hadj
      rw [hps.bottom, hr.top] at hadj
      exact ⟨hadj, canJoinLoop_row (.cons hr hl) (.cons hps hpl) hcan⟩

/-! ### All bands -/

/-- The band before, if it is still there: above `s`, not above `t`. -/
def Pending (t s : ℤ) (prev : List BandRect) : Prop :=
  prev = [] ∨ ∃ top bottom x, t ≤ top ∧ top < bottom ∧ bottom ≤ s ∧ Row top bottom x prev

/-- The pending band in front of bands below it. -/
theorem Pending.bands {t s : ℤ} (h : Pending t s prev) (hts : t ≤ s)
    (hl : ∀ t', t' ≤ s → Bands t' l) : Bands t (prev ++ l) := by
  rcases h with rfl | ⟨top, bottom, x, htop, hb, hs, hrow⟩
  · exact hl t hts
  · cases hrow with
    | nil => exact hl t hts
    | cons hr hrow => exact .cons htop hb (.cons hr hrow) (by simp) (hl _ hs)

/-- `removeLoop` on a list that begins with a band. -/
theorem removeLoop_append {b : BandRect} (hr : Row top bottom x (b :: band)) (hb : top < bottom)
    (hn : Bands bottom next) (prev : List BandRect) (prevFound : Bool) :
    ∃ found joined, (joined = none ∨
        joined = JoinBands (removeInBand f none false (b :: band)).1 prev) ∧
      removeLoop f prev prevFound (b :: band ++ next) =
        match joined with
        | some kept => removeLoop f kept found next
        | none => prev ++ removeLoop f (removeInBand f none false (b :: band)).1 found next := by
  obtain ⟨hband, hnext⟩ := bandOf_append hr hb hn
  rw [List.cons_append] at hband hnext ⊢
  refine ⟨(removeInBand f none false (b :: band)).2,
    if (removeInBand f none false (b :: band)).1 ≠ [] ∧ prev ≠ [] ∧
        ((removeInBand f none false (b :: band)).2 || prevFound) = true then
      JoinBands (removeInBand f none false (b :: band)).1 prev
    else none, ?_, ?_⟩
  · split_ifs
    · exact .inr rfl
    · exact .inl rfl
  · have hloop := removeLoop.eq_2 f prev prevFound b (band ++ next)
    rw [hband, hnext] at hloop
    exact hloop

/-- The loop of `RemoveRegion` takes the points of the frame. -/
theorem removeLoop_covers (h : Bands b l) (ht : t ≤ b) (hp : Pending t b prev) (prevFound : Bool) :
    Bands t (removeLoop f prev prevFound l) ∧
      (∀ g x y, Covers (removeLoop f prev prevFound l) g x y ↔
        Covers prev g x y ∨ g ≠ f ∧ Covers l g x y) ∧
      ∀ g, Listed (removeLoop f prev prevFound l) g → Listed prev g ∨ g ≠ f ∧ Listed l g := by
  induction h generalizing t prev prevFound with
  | nil s =>
    refine ⟨?_, fun g x y => by simp [removeLoop], fun g => by simp [removeLoop]⟩
    rw [removeLoop, ← List.append_nil prev]
    exact hp.bands ht fun t' _ => .nil t'
  | @cons s top bottom x₀ band next htop hb hr hne hn ih =>
    obtain ⟨b, band, rfl⟩ := List.exists_cons_of_ne_nil hne
    obtain ⟨found, joined, hjoin, heq⟩ := removeLoop_append (f := f) hr hb hn prev prevFound
    have hout := removeInBand_removed (f := f) (l := b :: band) none false hr
    have hhits : ∀ g z, Hits (removeInBand f none false (b :: band)).1 g z ↔
        g ≠ f ∧ Hits (b :: band) g z := fun g z => by
      rw [hout.hits]
      simp
    have hlisted : ∀ g, Listed (removeInBand f none false (b :: band)).1 g →
        g ≠ f ∧ Listed (b :: band) g := fun g hg => by
      simpa using hout.listed g hg
    rw [heq]
    cases hj : joined with
    | none =>
      simp only
      have hpend : ∀ t', t' ≤ s → Pending t' bottom (removeInBand f none false (b :: band)).1 :=
        fun t' ht' => .inr ⟨top, bottom, x₀, ht'.trans htop, hb, le_rfl, hout.row⟩
      obtain ⟨-, hcov, hlist⟩ := ih (by omega) (hpend s le_rfl) found
      refine ⟨hp.bands ht fun t' ht' => (ih (by omega) (hpend t' ht') found).1, fun g x y => ?_,
        fun g hg => ?_⟩
      · rw [covers_append, covers_append, hcov, hout.row.covers, hr.covers, hhits]
        tauto
      · have := hlist g
        have := hlisted g
        rw [listed_append] at hg ⊢
        tauto
    | some kept =>
      rw [hj] at hjoin
      have hjoin : JoinBands (removeInBand f none false (b :: band)).1 prev = some kept :=
        (hjoin.resolve_left (by simp)).symm
      rcases hp with rfl | ⟨pt, pb, px, hpt, hpb, hps, hprow⟩
      · cases hz : (removeInBand f none false (b :: band)).1 <;>
          simp [JoinBands, CanJoinBands, hz] at hjoin
      · obtain ⟨rfl, hkept, hkh, hkl⟩ := joinBands_row hout.row hprow hjoin
        have hpend : Pending t bottom kept :=
          .inr ⟨pt, bottom, x₀, hpt, by omega, le_rfl, hkept⟩
        have hrest := ih (by omega) hpend found
        refine ⟨hrest.1, fun g x y => ?_, fun g hg => ?_⟩
        · rw [hrest.2.1, hkept.covers, covers_append, hr.covers, hprow.covers, (hkh g x).1,
            (hkh g x).2, hhits]
          grind
        · have := hrest.2.2 g hg
          have := hlisted g
          rw [hkl] at *
          rw [listed_append]
          tauto

/-- `RemoveRegion` takes the points of its frame and no others. -/
theorem removeLoop_removed (h : Bands t l) :
    Bands t (removeLoop f [] false l) ∧
      (∀ g x y, Covers (removeLoop f [] false l) g x y ↔ g ≠ f ∧ Covers l g x y) ∧
      ∀ g, Listed (removeLoop f [] false l) g → g ≠ f ∧ Listed l g := by
  obtain ⟨hb, hc, hl⟩ := removeLoop_covers (f := f) h le_rfl (.inl rfl) false
  exact ⟨hb, fun g x y => by rw [hc]; simp, fun g hg => by simpa using hl g hg⟩

end Kompozer.Layout

import Kompozer.Layout.Bands

/-! The band data of a place (`GetBandData`): the stretches of the requested width that no frame
covers there. -/

namespace Kompozer.Layout

open Gfx

variable {t b x left top bottom : ℤ} {r : BandRect} {l band next : List BandRect} {q : BandQuery}
  {data : List nsBandTrapezoid} {m : nsSpaceManager} {mSize : ℕ}

/-- The trapezoids report the place, in local coordinates, as available. -/
def Reports (data : List nsBandTrapezoid) (x : ℤ) : Prop :=
  ∃ z ∈ data, z.mState = .Available ∧ z.rect.x ≤ x ∧ x < z.rect.xMost

theorem reports_append {data' : List nsBandTrapezoid} :
    Reports (data ++ data') x ↔ Reports data x ∨ Reports data' x := by
  simp only [Reports, List.mem_append, or_and_right, exists_or]

@[simp] theorem reports_nil : ¬ Reports [] x := by simp [Reports]

@[simp] theorem reports_available (right : ℤ) :
    Reports [q.available left right] x ↔ left ≤ x + q.mX ∧ x + q.mX < right := by
  simp only [Reports, BandQuery.available, List.mem_singleton, exists_eq_left, NsRect.xMost,
    true_and]
  omega

@[simp] theorem reports_occupied : ¬ Reports [q.occupied r] x := by
  simp only [Reports, BandQuery.occupied, List.mem_singleton, exists_eq_left]
  split_ifs <;> simp

/-- Some frame occupies the place. -/
def Busy (l : List BandRect) (z : ℤ) : Prop := ∃ g, Hits l g z

theorem busy_cons (h : r.mFrames ≠ []) {z : ℤ} :
    Busy (r :: l) z ↔ (r.mLeft ≤ z ∧ z < r.mRight) ∨ Busy l z := by
  obtain ⟨f, hf⟩ := List.exists_mem_of_ne_nil _ h
  simp only [Busy, hits_cons, exists_or]
  refine or_congr_left ⟨?_, fun hz => ⟨f, hf, hz⟩⟩
  rintro ⟨g, hg, hz⟩
  exact hz

theorem Row.le_of_busy (h : Row t b x l) {z : ℤ} (hz : Busy l z) : x ≤ z := by
  obtain ⟨g, hg⟩ := hz
  exact h.le_of_hits hg

/-! ### One band -/

/-- What a query returns when the buffer is large enough. -/
structure Reported (free : ℤ → Prop) (data : List nsBandTrapezoid) (d : BandData) : Prop where
  result : d.result = .NS_OK
  reports : ∀ x, Reports d.mTrapezoids x ↔ Reports data x ∨ free x

theorem finish_reported (left : ℤ) (hs : data.length + 1 ≤ q.mSize) :
    Reported (fun x => left ≤ x + q.mX ∧ x + q.mX < q.rightEdge) data (q.finish left data) := by
  rw [BandQuery.finish]
  split_ifs with h₁ h₂
  · omega
  · exact ⟨rfl, fun x => by rw [reports_append, reports_available]⟩
  · refine ⟨rfl, fun x => ?_⟩
    simp only [not_or, not_lt] at h₁
    constructor
    · exact .inl
    · rintro (h | h)
      · exact h
      · omega

/-- A round of the loop, when the buffer has room. -/
theorem spaceLoop_cons (hs : data.length + 2 ≤ q.mSize) :
    q.spaceLoop left data (r :: l) =
      if r.mLeft < q.rightEdge then
        q.spaceLoop r.mRight
          (data ++ (if r.mLeft > left then [q.available left r.mLeft] else []) ++ [q.occupied r]) l
      else q.finish left data := by
  rw [BandQuery.spaceLoop]
  by_cases hleft : r.mLeft > left
  · simp only [if_pos hleft]
    rw [if_neg (c := r.mLeft > left ∧ data.length ≥ q.mSize) (by omega),
      if_neg (c := (data ++ [q.available left r.mLeft]).length ≥ q.mSize)
        (by rw [List.length_append, List.length_singleton]; omega)]
  · simp only [if_neg hleft, List.append_nil]
    rw [if_neg (c := r.mLeft > left ∧ data.length ≥ q.mSize) (by omega),
      if_neg (c := data.length ≥ q.mSize) (by omega)]

/-- The loop reports what lies between the rects. -/
theorem spaceLoop_reported (h : Row t b x l) (hl : ∀ r ∈ l.head?, left ≤ r.mRight)
    (hs : data.length + 2 * l.length + 1 ≤ q.mSize) :
    Reported (fun z => left ≤ z + q.mX ∧ z + q.mX < q.rightEdge ∧ ¬ Busy l (z + q.mX)) data
      (q.spaceLoop left data l) := by
  induction h generalizing left data with
  | nil x =>
    have hf : Reported (fun x => left ≤ x + q.mX ∧ x + q.mX < q.rightEdge) data
        (q.finish left data) := finish_reported left (by simpa using hs)
    exact ⟨hf.result, fun z => by simpa [Busy, BandQuery.spaceLoop] using hf.reports z⟩
  | @cons x r l hr hrow ih =>
    have hlr : left ≤ r.mRight := hl r rfl
    have hwide := hr.wide
    rw [List.length_cons] at hs
    rw [spaceLoop_cons (by omega)]
    by_cases h₁ : r.mLeft < q.rightEdge
    · rw [if_pos h₁]
      have hnext : ∀ s ∈ l.head?, r.mRight ≤ s.mRight := by
        intro s hs
        cases hrow with
        | nil => cases hs
        | cons hs' _ =>
          cases hs
          exact hs'.left.trans hs'.wide
      have hrest := @ih _
        (data ++ (if r.mLeft > left then [q.available left r.mLeft] else []) ++ [q.occupied r])
        hnext (by
          split_ifs <;> simp only [List.length_append, List.length_cons, List.length_nil] <;>
            omega)
      refine ⟨hrest.result, fun z => ?_⟩
      have hle := fun hb => hrow.le_of_busy (z := z + q.mX) hb
      rw [hrest.reports, reports_append, reports_append, busy_cons hr.listed]
      simp only [reports_occupied, or_false]
      split_ifs with h₂
      · rw [reports_available]
        grind
      · simp only [reports_nil, or_false]
        grind
    · -- the rect is beyond the clip width
      rw [if_neg h₁]
      have hf : Reported (fun x => left ≤ x + q.mX ∧ x + q.mX < q.rightEdge) data
          (q.finish left data) := finish_reported left (by omega)
      refine ⟨hf.result, fun z => ?_⟩
      rw [hf.reports]
      refine or_congr_right ⟨fun hz => ⟨hz.1, hz.2, fun hb => ?_⟩, fun hz => ⟨hz.1, hz.2.1⟩⟩
      have := (Row.cons { hr with left := le_rfl } hrow).le_of_busy hb
      omega

/-- Skipping the rects left of the local coordinate space. -/
theorem skip_row (h : Row t b x l) (mX : ℤ) :
    ∃ x', Row t b x' (l.dropWhile fun r => !decide (r.mRight > mX)) ∧
      (∀ r ∈ (l.dropWhile fun r => !decide (r.mRight > mX)).head?, mX ≤ r.mRight) ∧
      ∀ z, mX ≤ z → (Busy (l.dropWhile fun r => !decide (r.mRight > mX)) z ↔ Busy l z) := by
  induction h with
  | nil x => exact ⟨x, .nil x, by simp, fun z _ => Iff.rfl⟩
  | @cons x r l hr hrow ih =>
    by_cases hmX : r.mRight > mX
    · rw [List.dropWhile_cons_of_neg (by simp [hmX])]
      exact ⟨x, .cons hr hrow, by simp; omega, fun z _ => Iff.rfl⟩
    · rw [List.dropWhile_cons_of_pos (by simpa using hmX)]
      obtain ⟨x', hrow', hhead, hbusy⟩ := ih
      refine ⟨x', hrow', hhead, fun z hz => (hbusy z hz).trans ?_⟩
      rw [busy_cons hr.listed]
      exact ⟨.inr, fun h => h.resolve_left (by omega)⟩

theorem getBandAvailableSpace_reported (h : Row t b x band) (aY w maxHeight : ℤ)
    (hs : 2 * band.length + 1 ≤ mSize) :
    Reported (fun z => 0 ≤ z ∧ z < w ∧ ¬ Busy band (z + m.mX)) []
      (m.GetBandAvailableSpace band aY w maxHeight mSize) := by
  obtain ⟨x', hrow, hhead, hbusy⟩ := skip_row h m.mX
  have hlen : (band.dropWhile fun r => !decide (r.mRight > m.mX)).length ≤ band.length :=
    (List.dropWhile_suffix _).length_le
  let q : BandQuery :=
    ⟨m.mX, aY - m.mY, min ((band.head?.map (·.mBottom)).getD 0 - aY) maxHeight, m.mX + w, mSize⟩
  have hroom : ([] : List nsBandTrapezoid).length +
      2 * (band.dropWhile fun r => !decide (r.mRight > m.mX)).length + 1 ≤ q.mSize := by
    simp only [List.length_nil, q]
    omega
  have hloop := spaceLoop_reported hrow hhead hroom
  refine ⟨hloop.result, fun z => (hloop.reports z).trans (or_congr_right ?_)⟩
  dsimp only [q]
  constructor
  · rintro ⟨h₁, h₂, h₃⟩
    exact ⟨by omega, by omega, (hbusy _ h₁).not.mp h₃⟩
  · rintro ⟨h₁, h₂, h₃⟩
    exact ⟨by omega, by omega, (hbusy _ (by omega)).not.mpr h₃⟩

/-! ### All bands -/

/-- Some frame covers the point. -/
def Occupied (l : List BandRect) (x y : ℤ) : Prop := ∃ g, Covers l g x y

/-- One trapezoid for the whole width, where nothing is occupied. -/
theorem whole_reported {free : ℤ → Prop} {w : ℤ} (y height : ℤ) (hfree : ∀ z, free z) :
    Reported (fun z => 0 ≤ z ∧ z < w ∧ free z) [] ⟨.NS_OK, 1, [⟨.Available, 0, y, w, height⟩]⟩ where
  result := rfl
  reports z := by simp [Reports, NsRect.xMost, hfree]

theorem bandDataLoop_append {x₀ : ℤ} (hr : Row top bottom x₀ (r :: l)) (hb : top < bottom)
    (hn : Bands bottom next) (aYOffset w maxHeight : ℤ) :
    m.bandDataLoop aYOffset w maxHeight mSize (r :: l ++ next) =
      if top > m.mY + aYOffset then
        ⟨.NS_OK, 1, [⟨.Available, 0, aYOffset, w, min (top - (m.mY + aYOffset)) maxHeight⟩]⟩
      else if m.mY + aYOffset < bottom then
        m.GetBandAvailableSpace (r :: l) (m.mY + aYOffset) w maxHeight mSize
      else m.bandDataLoop aYOffset w maxHeight mSize next := by
  obtain ⟨hband, hnext⟩ := bandOf_append hr hb hn
  rw [List.cons_append] at hband hnext ⊢
  rw [nsSpaceManager.bandDataLoop]
  simp only [hband, hnext, (hr.slot List.mem_cons_self).top, (hr.slot List.mem_cons_self).bottom]

theorem bandDataLoop_reported (h : Bands t l) (aYOffset w maxHeight : ℤ)
    (hlow : ∃ r ∈ l, m.mY + aYOffset < r.mBottom) (hs : 2 * l.length + 1 ≤ mSize) :
    Reported (fun z => 0 ≤ z ∧ z < w ∧ ¬ Occupied l (z + m.mX) (m.mY + aYOffset)) []
      (m.bandDataLoop aYOffset w maxHeight mSize l) := by
  induction h with
  | nil =>
    obtain ⟨r, hr, -⟩ := hlow
    cases hr
  | @cons t top bottom x₀ band next htop hb hr hne hn ih =>
    obtain ⟨r, l, rfl⟩ := List.exists_cons_of_ne_nil hne
    rw [List.length_append] at hs
    rw [bandDataLoop_append hr hb hn]
    split_ifs with h₁ h₂
    · refine whole_reported _ _ fun z => ?_
      rintro ⟨g, hc⟩
      have := (Bands.cons le_rfl hb hr hne hn).le_of_covers hc
      omega
    · have hroom : 2 * (r :: l).length + 1 ≤ mSize := by omega
      have hband := getBandAvailableSpace_reported (m := m) hr (m.mY + aYOffset) w maxHeight hroom
      refine ⟨hband.result, fun z => (hband.reports z).trans ?_⟩
      have hocc : Occupied (r :: l ++ next) (z + m.mX) (m.mY + aYOffset) ↔
          Busy (r :: l) (z + m.mX) := by
        refine exists_congr fun g => ?_
        rw [covers_append, hr.covers]
        have := fun hc => hn.le_of_covers (g := g) (x := z + m.mX) (y := m.mY + aYOffset) hc
        constructor
        · rintro (h | h)
          · exact h.1
          · have := this h
            omega
        · exact fun h => .inl ⟨h, by omega, h₂⟩
      rw [hocc]
    · have hrest := ih (by
        obtain ⟨s, hs, hlt⟩ := hlow
        refine ⟨s, (List.mem_append.mp hs).resolve_left fun hsb => ?_, hlt⟩
        rw [(hr.slot hsb).bottom] at hlt
        omega) (by omega)
      refine ⟨hrest.result, fun z => (hrest.reports z).trans ?_⟩
      have hocc : Occupied (r :: l ++ next) (z + m.mX) (m.mY + aYOffset) ↔
          Occupied next (z + m.mX) (m.mY + aYOffset) := by
        refine exists_congr fun g => ?_
        rw [covers_append, hr.covers]
        exact ⟨fun h => h.resolve_left (by omega), .inr⟩
      rw [hocc]

/-- `GetBandData` reports the free stretches of the requested width. -/
theorem getBandData_reported (h : Bands t m.mBandList) (aYOffset w maxHeight : ℤ)
    (hs : 2 * m.mBandList.length + 1 ≤ mSize) :
    Reported (fun z => 0 ≤ z ∧ z < w ∧ ¬ Occupied m.mBandList (z + m.mX) (m.mY + aYOffset)) []
      (m.GetBandData aYOffset w maxHeight mSize) := by
  rw [nsSpaceManager.GetBandData, YMost]
  cases hlast : m.mBandList.getLast? with
  | none =>
    rw [List.getLast?_eq_none_iff] at hlast
    rw [hlast]
    exact whole_reported _ _ fun z => by simp [Occupied]
  | some b =>
    simp only [Option.map_some]
    by_cases hy : m.mY + aYOffset ≥ b.mBottom
    · rw [if_pos hy]
      refine whole_reported _ _ fun z => ?_
      rintro ⟨g, r, hr, -, -, -, hlt⟩
      have := h.bottom_le_last hlast r hr
      omega
    · rw [if_neg hy]
      exact bandDataLoop_reported h _ _ _ ⟨b, List.mem_of_getLast? hlast, by omega⟩ hs

end Kompozer.Layout

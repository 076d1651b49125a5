import Kompozer.Layout.SpaceManager

/-! One band. Its rects stand side by side between the same top and bottom, and a frame occupies the
stretches of the rects that list it. Adding a rect to a band adds its stretch to its frame. -/

namespace Kompozer.Layout

/-! ### Rects of a band -/

/-- A rect of a band, not left of `x`. -/
structure Slot (t b x : ℤ) (r : BandRect) : Prop where
  top : r.mTop = t
  bottom : r.mBottom = b
  left : x ≤ r.mLeft
  wide : r.mLeft ≤ r.mRight
  listed : r.mFrames ≠ []
  nodup : r.mFrames.Nodup

/-- The rects of a band from `x` on. -/
inductive Row (t b : ℤ) : ℤ → List BandRect → Prop
  | nil (x : ℤ) : Row t b x []
  | cons {x r l} : Slot t b x r → Row t b r.mRight l → Row t b x (r :: l)

variable {t b x : ℤ} {r E N : BandRect} {l next band : List BandRect} {f g : nsIFrame}
  {z : ℤ}

/-- The frame occupies the place in a rect of the band. -/
def Hits (l : List BandRect) (g : nsIFrame) (z : ℤ) : Prop :=
  ∃ r ∈ l, g ∈ r.mFrames ∧ r.mLeft ≤ z ∧ z < r.mRight

@[simp] theorem hits_nil : ¬ Hits [] g z := by simp [Hits]

@[simp] theorem hits_cons :
    Hits (r :: l) g z ↔ (g ∈ r.mFrames ∧ r.mLeft ≤ z ∧ z < r.mRight) ∨ Hits l g z := by
  simp [Hits]

/-- The frame is listed in a rect, be it without width. -/
def Listed (l : List BandRect) (g : nsIFrame) : Prop := ∃ r ∈ l, g ∈ r.mFrames

@[simp] theorem listed_nil : ¬ Listed [] g := by simp [Listed]

@[simp] theorem listed_cons : Listed (r :: l) g ↔ g ∈ r.mFrames ∨ Listed l g := by simp [Listed]

@[simp] theorem listed_append {l' : List BandRect} :
    Listed (l ++ l') g ↔ Listed l g ∨ Listed l' g := by
  simp only [Listed, List.mem_append, or_and_right, exists_or]

theorem Slot.mono {x' : ℤ} (h : Slot t b x r) (hx : x' ≤ x) : Slot t b x' r :=
  { h with left := hx.trans h.left }

theorem Row.mono {x' : ℤ} (h : Row t b x l) (hx : x' ≤ x) : Row t b x' l := by
  cases h with
  | nil => exact .nil x'
  | cons hr hl => exact .cons (hr.mono hx) hl

theorem Row.slot (h : Row t b x l) (hr : r ∈ l) : Slot t b x r := by
  induction h with
  | nil => cases hr
  | cons hs hl ih =>
    rcases List.mem_cons.mp hr with rfl | hr
    · exact hs
    · exact (ih hr).mono (hs.left.trans hs.wide)

/-- Nothing is occupied left of a row. -/
theorem Row.le_of_hits (h : Row t b x l) (hz : Hits l g z) : x ≤ z := by
  obtain ⟨r, hr, -, hl, -⟩ := hz
  exact (h.slot hr).left.trans hl

/-! ### Parts of a rect -/

namespace Slot

variable {y : ℤ}

theorem addFrame (h : Slot t b x r) (hf : f ∉ r.mFrames) : Slot t b x (r.AddFrame f) where
  top := h.top
  bottom := h.bottom
  left := h.left
  wide := h.wide
  listed := by simp [BandRect.AddFrame]
  nodup := by
    rw [BandRect.AddFrame, List.nodup_append]
    refine ⟨h.nodup, by simp, ?_⟩
    rintro a ha _ hb rfl
    exact hf (List.mem_singleton.mp hb ▸ ha)

/-- The part of a rect between two edges. -/
theorem between (h : Slot t b x r) (left right : ℤ) {x' : ℤ} (hx : x' ≤ left)
    (hw : left ≤ right) : Slot t b x' { r with mLeft := left, mRight := right } :=
  ⟨h.top, h.bottom, hx, hw, h.listed, h.nodup⟩

end Slot

@[simp] theorem addFrame_frames : g ∈ (r.AddFrame f).mFrames ↔ g ∈ r.mFrames ∨ g = f := by
  simp [BandRect.AddFrame]

@[simp] theorem addFrame_left : (r.AddFrame f).mLeft = r.mLeft := rfl

@[simp] theorem addFrame_right : (r.AddFrame f).mRight = r.mRight := rfl

/-! ### Adding a rect -/

/-- The stretch of the rect `N` was added to a row for the frame `f`. -/
structure Added (t b x : ℤ) (f : nsIFrame) (N : BandRect) (l out : List BandRect) : Prop where
  row : Row t b x out
  hits : ∀ g z, Hits out g z ↔ Hits l g z ∨ g = f ∧ N.mLeft ≤ z ∧ z < N.mRight
  listed : ∀ g, Listed out g → Listed l g ∨ g = f

theorem Added.cons (E' : BandRect) {N' : BandRect} (h : Added t b E'.mRight f N' next l)
    (hs : Slot t b x E')
    (hits : ∀ g z, (g ∈ E'.mFrames ∧ E'.mLeft ≤ z ∧ z < E'.mRight) ∨
      (Hits next g z ∨ g = f ∧ N'.mLeft ≤ z ∧ z < N'.mRight) ↔
      Hits band g z ∨ g = f ∧ N.mLeft ≤ z ∧ z < N.mRight)
    (listed : ∀ g, g ∈ E'.mFrames ∨ Listed next g → Listed band g ∨ g = f) :
    Added t b x f N band (E' :: l) where
  row := .cons hs h.row
  hits g z := by rw [hits_cons, h.hits, hits]
  listed g hg := by
    rcases listed_cons.mp hg with hg | hg
    · exact listed g (.inl hg)
    · rcases h.listed g hg with hg | hg
      · exact listed g (.inr hg)
      · exact .inr hg

/-- The rest of the new rect behind a rect with the same left edge. -/
def overhang (E N : BandRect) : BandRect := { N with mLeft := E.mRight }

theorem addAligned_added (go : BandRect → List BandRect) (hE : Slot t b x E)
    (hnext : Row t b E.mRight next) (hf : f ∉ E.mFrames) (hN : N.mFrames = [f])
    (hl : N.mLeft = E.mLeft) (hw : N.mLeft ≤ N.mRight)
    (hgo : E.mRight ≤ N.mRight →
      Added t b E.mRight f (overhang E N) next (go (overhang E N))) :
    Added t b x f N (E :: next) (addAligned E N next go) := by
  have hhead : N.mFrames.headD 0 = f := by rw [hN]; rfl
  have hwide := hE.wide
  simp only [addAligned, hhead, BandRect.SplitHorizontally]
  split_ifs with h₁ h₂
  · -- the part under the new rect and the part to its right
    have hleft : Slot t b x { E with mRight := N.mRight } :=
      hE.between _ _ hE.left (by omega)
    have hright : Slot t b N.mRight { E with mLeft := N.mRight } :=
      hE.between _ _ le_rfl (by omega)
    refine ⟨.cons (hleft.addFrame hf) (.cons hright hnext), fun g z => ?_, fun g => ?_⟩
    · simp only [hits_cons, addFrame_frames, addFrame_left, addFrame_right]
      grind
    · simp only [listed_cons, addFrame_frames]
      tauto
  · refine ⟨.cons (hE.addFrame hf) hnext, fun g z => ?_, fun g => ?_⟩
    · simp only [hits_cons, addFrame_frames, addFrame_left, addFrame_right, hl, ← h₂]
      grind
    · simp only [listed_cons, addFrame_frames]
      tauto
  · refine Added.cons (E.AddFrame f) (hgo (by omega)) (hE.addFrame hf) (fun g z => ?_) fun g => ?_
    · simp only [hits_cons, addFrame_frames, addFrame_left, addFrame_right, overhang]
      grind
    · simp only [listed_cons, addFrame_frames]
      tauto

/-- `AddRectToBand` adds the stretch of the new rect. -/
theorem addRectToBand_added (h : Row t b x band) (hf : ∀ r ∈ band, f ∉ r.mFrames)
    (hN : N.mFrames = [f]) (hs : Slot t b x N) :
    Added t b x f N band (AddRectToBand band N) := by
  induction h generalizing N with
  | nil x =>
    exact ⟨.cons hs (.nil _), fun g z => by simp [AddRectToBand, hN],
      fun g => by simp [AddRectToBand, hN]⟩
  | @cons x E next hE hnext ih =>
    have hfE := hf E List.mem_cons_self
    have ih := fun {N} => ih (N := N) fun r hr => hf r (List.mem_cons_of_mem _ hr)
    have hhead : N.mFrames.headD 0 = f := by rw [hN]; rfl
    have hwide := hs.wide
    have hwideE := hE.wide
    have hleftE := hE.left
    -- the rest of the new rect is added to the rects behind
    have hover {E' N' : BandRect} (hr : E'.mRight = E.mRight) (hN' : N'.mFrames = [f])
        (hs' : Slot t b x N') (hle : E'.mRight ≤ N'.mRight) :
        Added t b E'.mRight f (overhang E' N') next (AddRectToBand next (overhang E' N')) := by
      rw [hr] at hle ⊢
      exact ih hN' (by rw [overhang, hr]; exact hs'.between _ _ le_rfl hle)
    simp only [AddRectToBand, hhead, BandRect.SplitHorizontally]
    split_ifs with h₁ h₂ h₃ h₄ h₅ h₆
    · -- left of the rect
      refine ⟨.cons hs (.cons { hE with left := h₂ } hnext), fun g z => ?_, fun g => ?_⟩
      · simp only [hits_cons, hN, List.mem_singleton]
        grind
      · simp only [listed_cons, hN, List.mem_singleton]
        tauto
    · -- the part to the left, and the rest that begins with the rect
      have hrest : Slot t b E.mLeft { N with mLeft := E.mLeft } :=
        hs.between _ _ le_rfl (by omega)
      have hadd := addAligned_added (fun r => AddRectToBand next r)
        { hE with left := le_rfl } hnext hfE (N := { N with mLeft := E.mLeft }) hN rfl hrest.wide
        (hover rfl hN (hrest.mono hleftE))
      refine Added.cons { N with mRight := E.mLeft } hadd
        (hs.between _ _ hs.left (by omega)) (fun g z => ?_) fun g => ?_
      · simp only [hits_cons, hN, List.mem_singleton]
        grind
      · simp only [listed_cons, hN, List.mem_singleton]
        tauto
    · -- the rect reaches further to the right
      refine ⟨.cons (hs.between N.mLeft E.mLeft hs.left (by omega))
        (.cons (Slot.addFrame (hE.between E.mLeft N.mRight le_rfl (by omega)) hfE)
          (.cons (hE.between N.mRight E.mRight le_rfl (by omega)) hnext)),
        fun g z => ?_, fun g => ?_⟩
      · simp only [hits_cons, addFrame_frames, addFrame_left, addFrame_right, hN,
          List.mem_singleton]
        grind
      · simp only [listed_cons, addFrame_frames, hN, List.mem_singleton]
        tauto
    · refine ⟨.cons (hs.between N.mLeft E.mLeft hs.left (by omega))
        (.cons (Slot.addFrame { hE with left := le_rfl } hfE) hnext), fun g z => ?_, fun g => ?_⟩
      · simp only [hits_cons, addFrame_frames, addFrame_left, addFrame_right, hN,
          List.mem_singleton]
        grind
      · simp only [listed_cons, addFrame_frames, hN, List.mem_singleton]
        tauto
    · -- right of the rect
      refine (ih hN { hs with left := h₆ }).cons E hE (fun g z => ?_) fun g => ?_
      · simp only [hits_cons]
        grind
      · exact fun hg => .inl (listed_cons.mpr hg)
    · -- the part of the rect in front
      have hrest : Slot t b N.mLeft { E with mLeft := N.mLeft } :=
        hE.between _ _ le_rfl (by omega)
      have hadd := addAligned_added (fun r => AddRectToBand next r) hrest hnext hfE hN rfl
        hwide (hover rfl hN hs)
      refine Added.cons { E with mRight := N.mLeft } hadd
        (hE.between _ _ hE.left (by omega)) (fun g z => ?_) fun g => ?_
      · simp only [hits_cons]
        grind
      · simp only [listed_cons]
        tauto
    · exact addAligned_added _ hE hnext hfE hN (by omega) hwide (hover rfl hN hs)

end Kompozer.Layout

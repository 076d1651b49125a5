import Kompozer.Layout.Rows

/-! The list of bands, and adding a rect to it (`InsertBandRect`). The bands follow each other from
top to bottom, and a frame covers the points of the rects that list it. -/

namespace Kompozer.Layout

/-! ### Bands from top to bottom -/

/-- Bands from `t` on. -/
inductive Bands : ℤ → List BandRect → Prop
  | nil (t : ℤ) : Bands t []
  | cons {t top bottom x : ℤ} {band next : List BandRect} : t ≤ top → top < bottom →
      Row top bottom x band → band ≠ [] → Bands bottom next → Bands t (band ++ next)

/-- The frame covers the point. -/
def Covers (l : List BandRect) (g : nsIFrame) (x y : ℤ) : Prop :=
  ∃ r ∈ l, g ∈ r.mFrames ∧ (r.mLeft ≤ x ∧ x < r.mRight) ∧ r.mTop ≤ y ∧ y < r.mBottom

variable {t top bottom x y : ℤ} {r b N : BandRect} {l band next : List BandRect}
  {f g : nsIFrame}

@[simp] theorem covers_nil : ¬ Covers [] g x y := by simp [Covers]

@[simp] theorem covers_append {l' : List BandRect} :
    Covers (l ++ l') g x y ↔ Covers l g x y ∨ Covers l' g x y := by
  simp only [Covers, List.mem_append, or_and_right, exists_or]

@[simp] theorem covers_singleton : Covers [r] g x y ↔
    g ∈ r.mFrames ∧ (r.mLeft ≤ x ∧ x < r.mRight) ∧ r.mTop ≤ y ∧ y < r.mBottom := by
  simp [Covers]

theorem covers_cons : Covers (r :: l) g x y ↔
    (g ∈ r.mFrames ∧ (r.mLeft ≤ x ∧ x < r.mRight) ∧ r.mTop ≤ y ∧ y < r.mBottom) ∨
      Covers l g x y := by
  simp [Covers]

theorem Row.covers {x₀ : ℤ} (h : Row top bottom x₀ band) :
    Covers band g x y ↔ Hits band g x ∧ top ≤ y ∧ y < bottom := by
  constructor
  · rintro ⟨r, hr, hg, hx, hy⟩
    rw [(h.slot hr).top, (h.slot hr).bottom] at hy
    exact ⟨⟨r, hr, hg, hx⟩, hy⟩
  · rintro ⟨⟨r, hr, hg, hx⟩, hy⟩
    rw [← (h.slot hr).top, ← (h.slot hr).bottom] at hy
    exact ⟨r, hr, hg, hx, hy⟩

theorem Bands.mono {t' : ℤ} (h : Bands t l) (ht : t' ≤ t) : Bands t' l := by
  cases h with
  | nil => exact .nil t'
  | cons htop hb hr hne hn => exact .cons (ht.trans htop) hb hr hne hn

theorem Bands.le_top (h : Bands t l) (hr : r ∈ l) : t ≤ r.mTop ∧ r.mTop < r.mBottom := by
  induction h with
  | nil => cases hr
  | cons htop hb hrow hne hn ih =>
    rcases List.mem_append.mp hr with hr | hr
    · rw [(hrow.slot hr).top, (hrow.slot hr).bottom]
      exact ⟨htop, hb⟩
    · have := ih hr
      omega

/-- Nothing is covered above the bands. -/
theorem Bands.le_of_covers (h : Bands t l) (hc : Covers l g x y) : t ≤ y := by
  obtain ⟨r, hr, -, -, hy, -⟩ := hc
  exact (h.le_top hr).1.trans hy

/-- The first band of a list of bands is the one the code takes. -/
theorem bandOf_append {x₀ : ℤ} (hr : Row top bottom x₀ (b :: l)) (hb : top < bottom)
    (hn : Bands bottom next) :
    bandOf (b :: l ++ next) = b :: l ∧ GetNextBand (b :: l ++ next) = next := by
  have hl : ∀ s ∈ l, decide (s.mTop = b.mTop) = true := fun s hs => by
    simp [(hr.slot (List.mem_cons_of_mem _ hs)).top, (hr.slot List.mem_cons_self).top]
  have hnext : ∀ s ∈ next.head?, decide (s.mTop = b.mTop) = false := fun s hs => by
    have := (hn.le_top (List.mem_of_mem_head? hs)).1
    simp only [(hr.slot List.mem_cons_self).top, decide_eq_false_iff_not]
    omega
  have htake : next.takeWhile (fun s => decide (s.mTop = b.mTop)) = [] ∧
      next.dropWhile (fun s => decide (s.mTop = b.mTop)) = next := by
    cases next with
    | nil => exact ⟨rfl, rfl⟩
    | cons s next =>
      have hs := hnext s rfl
      exact ⟨List.takeWhile_cons_of_neg (by simp [hs]), List.dropWhile_cons_of_neg (by simp [hs])⟩
  simp only [bandOf, GetNextBand, List.cons_append]
  rw [List.takeWhile_append_of_pos hl, List.dropWhile_append_of_pos hl, htake.1, htake.2,
    List.append_nil]
  exact ⟨rfl, rfl⟩

/-! ### Dividing a band -/

/-- The rects of a band between other edges. -/
theorem Row.map {x₀ t' b' : ℤ} (h : Row top bottom x₀ band) (k : BandRect → BandRect)
    (hk : ∀ r, (k r).mLeft = r.mLeft ∧ (k r).mRight = r.mRight ∧ (k r).mFrames = r.mFrames)
    (ht : ∀ r ∈ band, (k r).mTop = t' ∧ (k r).mBottom = b') : Row t' b' x₀ (band.map k) := by
  induction h with
  | nil x => exact .nil x
  | @cons x r l hr hl ih =>
    obtain ⟨hl₁, hr₁, hf₁⟩ := hk r
    obtain ⟨ht₁, hb₁⟩ := ht r List.mem_cons_self
    have ih := ih fun s hs => ht s (List.mem_cons_of_mem _ hs)
    rw [← hr₁] at ih
    exact .cons ⟨ht₁, hb₁, by rw [hl₁]; exact hr.left, by rw [hl₁, hr₁]; exact hr.wide,
      by rw [hf₁]; exact hr.listed, by rw [hf₁]; exact hr.nodup⟩ ih

theorem listed_map (k : BandRect → BandRect) (hk : ∀ r, (k r).mFrames = r.mFrames) :
    Listed (band.map k) g ↔ Listed band g := by
  simp [Listed, hk]

theorem hits_map (k : BandRect → BandRect)
    (hk : ∀ r, (k r).mLeft = r.mLeft ∧ (k r).mRight = r.mRight ∧ (k r).mFrames = r.mFrames) :
    Hits (band.map k) g x ↔ Hits band g x := by
  simp only [Hits, List.mem_map, exists_exists_and_eq_and]
  refine exists_congr fun r => and_congr_right fun _ => ?_
  rw [(hk r).1, (hk r).2.1, (hk r).2.2]

/-- Both bands of a divided band, with the rects of the band. -/
theorem Row.divide {x₀ a : ℤ} (h : Row top bottom x₀ band) :
    Row top a x₀ (DivideBand band a).1 ∧ Row a bottom x₀ (DivideBand band a).2 ∧
      ∀ g z, (Hits (DivideBand band a).1 g z ↔ Hits band g z) ∧
        (Hits (DivideBand band a).2 g z ↔ Hits band g z) :=
  ⟨h.map _ (fun _ => ⟨rfl, rfl, rfl⟩) fun _ hr => ⟨(h.slot hr).top, rfl⟩,
    h.map _ (fun _ => ⟨rfl, rfl, rfl⟩) fun _ hr => ⟨rfl, (h.slot hr).bottom⟩,
    fun _ _ => ⟨hits_map _ fun _ => ⟨rfl, rfl, rfl⟩, hits_map _ fun _ => ⟨rfl, rfl, rfl⟩⟩⟩

@[simp] theorem listed_divide {a : ℤ} :
    (Listed (DivideBand band a).1 g ↔ Listed band g) ∧
      (Listed (DivideBand band a).2 g ↔ Listed band g) :=
  ⟨listed_map _ fun _ => rfl, listed_map _ fun _ => rfl⟩

/-! ### Inserting a rect -/

/-- A rect of one frame. -/
structure Single (f : nsIFrame) (N : BandRect) : Prop where
  frames : N.mFrames = [f]
  wide : N.mLeft ≤ N.mRight
  tall : N.mTop < N.mBottom

/-- The point is in the rect. -/
def Inside (N : BandRect) (x y : ℤ) : Prop :=
  (N.mLeft ≤ x ∧ x < N.mRight) ∧ N.mTop ≤ y ∧ y < N.mBottom

/-- The rect `N` was added to the bands for the frame `f`. -/
structure Inserted (t : ℤ) (f : nsIFrame) (N : BandRect) (l out : List BandRect) : Prop where
  bands : Bands t out
  covers : ∀ g x y, Covers out g x y ↔ Covers l g x y ∨ g = f ∧ Inside N x y
  listed : ∀ g, Listed out g → Listed l g ∨ g = f

theorem Single.slot (h : Single f N) : Slot N.mTop N.mBottom N.mLeft N :=
  ⟨rfl, rfl, le_rfl, h.wide, by simp [h.frames], by simp [h.frames]⟩

/-- A rect of one frame is a band. -/
theorem Single.bands (h : Single f N) (ht : t ≤ N.mTop) (hn : Bands N.mBottom next) :
    Bands t (N :: next) := by
  have hb : Bands t ([N] ++ next) := .cons ht h.tall (.cons h.slot (.nil _)) (by simp) hn
  exact hb

theorem AddRectToBand_ne_nil : AddRectToBand band N ≠ [] := by
  cases band with
  | nil => simp [AddRectToBand]
  | cons E l =>
    simp only [AddRectToBand, addAligned]
    split_ifs <;> simp

/-- Adding a rect with the top and bottom of a band. -/
theorem addRectToBand_inserted {x₀ : ℤ} (hr : Row N.mTop N.mBottom x₀ band) (ht : t ≤ N.mTop)
    (hN : Single f N) (hf : ∀ r ∈ band, f ∉ r.mFrames) (hn : Bands N.mBottom next) :
    Inserted t f N (band ++ next) (AddRectToBand band N ++ next) := by
  have hr : Row N.mTop N.mBottom (min x₀ N.mLeft) band := hr.mono (min_le_left _ _)
  have hadd := addRectToBand_added hr hf hN.frames (hN.slot.mono (min_le_right x₀ _))
  refine ⟨.cons ht hN.tall hadd.row AddRectToBand_ne_nil hn, fun g x y => ?_, fun g hg => ?_⟩
  · rw [covers_append, covers_append, hadd.row.covers, hr.covers, hadd.hits]
    simp only [Inside]
    tauto
  · have := hadd.listed g
    rw [listed_append] at hg ⊢
    tauto

/-- A round of `InsertBandRect` in which band and rect have the same top. -/
theorem insertAligned_inserted {x₀ : ℤ} (go : BandRect → List BandRect)
    (hr : Row N.mTop bottom x₀ band) (hne : band ≠ []) (ht : t ≤ N.mTop) (hb : N.mTop < bottom)
    (hn : Bands bottom next) (hN : Single f N) (hf : ∀ r ∈ band, f ∉ r.mFrames)
    (hgo : bottom < N.mBottom → next ≠ [] →
      Inserted bottom f { N with mTop := bottom } next (go { N with mTop := bottom })) :
    Inserted t f N (band ++ next) (insertAligned band N next go) := by
  obtain ⟨b, l, rfl⟩ := List.exists_cons_of_ne_nil hne
  have hbb : b.mBottom = bottom := (hr.slot List.mem_cons_self).bottom
  simp only [insertAligned, hbb]
  split_ifs with h₁ h₂ h₃
  · -- the rect ends within the band
    obtain ⟨htop, hbot, hits⟩ := hr.divide (a := N.mBottom)
    have hnext : Bands N.mBottom ((DivideBand (b :: l) N.mBottom).2 ++ next) :=
      .cons le_rfl h₁ hbot (by simp [DivideBand]) hn
    have hf' : ∀ r ∈ (DivideBand (b :: l) N.mBottom).1, f ∉ r.mFrames := by
      intro r hr
      obtain ⟨s, hs, rfl⟩ := List.mem_map.mp hr
      exact hf s hs
    have hins := addRectToBand_inserted htop ht hN hf' hnext
    refine ⟨hins.bands, fun g x y => ?_, fun g hg => ?_⟩
    · rw [hins.covers, covers_append, covers_append, covers_append, htop.covers, hbot.covers,
        hr.covers, (hits g x).1, (hits g x).2]
      have := hN.tall
      grind
    · have := hins.listed g hg
      simp only [listed_append, listed_divide] at this ⊢
      tauto
  · subst h₂
    exact addRectToBand_inserted hr ht hN hf hn
  · -- the rest of the rect is a new band
    have hlow : Single f { N with mTop := bottom } := ⟨hN.frames, hN.wide, by simp; omega⟩
    have hins := addRectToBand_inserted (N := { N with mBottom := bottom }) hr ht
      ⟨hN.frames, hN.wide, hb⟩ hf (hlow.bands le_rfl (.nil _))
    subst h₃
    refine ⟨hins.bands, fun g x y => ?_, fun g hg => ?_⟩
    · rw [hins.covers, covers_append, covers_append, covers_singleton]
      simp only [Inside, covers_nil, hN.frames, List.mem_singleton]
      grind
    · have := hins.listed g hg
      simp only [listed_append, listed_cons, listed_nil, hN.frames, List.mem_singleton] at this ⊢
      tauto
  · -- the rest of the rect goes on below
    have hlow := hgo (by omega) h₃
    have hins := addRectToBand_inserted (N := { N with mBottom := bottom }) hr ht
      ⟨hN.frames, hN.wide, hb⟩ hf hlow.bands
    refine ⟨hins.bands, fun g x y => ?_, fun g hg => ?_⟩
    · rw [hins.covers, covers_append, covers_append, hlow.covers]
      simp only [Inside]
      grind
    · have := hins.listed g hg
      have := hlow.listed g
      simp only [listed_append] at *
      tauto

/-- `insertLoop` on a list that begins with a band. -/
theorem insertLoop_append {x₀ : ℤ} (hr : Row top bottom x₀ (b :: l)) (hb : top < bottom)
    (hn : Bands bottom next) (N : BandRect) :
    insertLoop (b :: l ++ next) N =
      if N.mTop < top then
        if N.mBottom ≤ top then N :: (b :: l ++ next)
        else { N with mBottom := top } ::
          insertAligned (b :: l) { N with mTop := top } next (insertLoop next)
      else if N.mTop > top then
        if N.mTop ≥ bottom then b :: l ++ insertLoop next N
        else (DivideBand (b :: l) N.mTop).1 ++
          insertAligned (DivideBand (b :: l) N.mTop).2 N next (insertLoop next)
      else insertAligned (b :: l) N next (insertLoop next) := by
  obtain ⟨hband, hnext⟩ := bandOf_append hr hb hn
  rw [List.cons_append] at hband hnext ⊢
  rw [insertLoop]
  simp only [hband, hnext, (hr.slot List.mem_cons_self).top, (hr.slot List.mem_cons_self).bottom]

/-- The rect is inserted unless it lies below all bands. -/
theorem insertLoop_inserted (h : Bands t l) (ht : t ≤ N.mTop) (hN : Single f N)
    (hf : ∀ r ∈ l, f ∉ r.mFrames) (hlow : ∃ r ∈ l, N.mTop < r.mBottom) :
    Inserted t f N l (insertLoop l N) := by
  induction h generalizing N with
  | nil =>
    obtain ⟨r, hr, -⟩ := hlow
    cases hr
  | @cons t top bottom x₀ band next htop hb hr hne hn ih =>
    obtain ⟨b, l, rfl⟩ := List.exists_cons_of_ne_nil hne
    have hfb : ∀ r ∈ b :: l, f ∉ r.mFrames := fun r hr => hf r (List.mem_append_left _ hr)
    have hfn : ∀ r ∈ next, f ∉ r.mFrames := fun r hr => hf r (List.mem_append_right _ hr)
    have htall := hN.tall
    -- what is left of the rect is inserted below
    have hgo : ∀ M : BandRect, Single f M → bottom < M.mBottom → next ≠ [] →
        Inserted bottom f { M with mTop := bottom } next
          (insertLoop next { M with mTop := bottom }) := by
      intro M hM hlt hnn
      obtain ⟨r, rest, rfl⟩ := List.exists_cons_of_ne_nil hnn
      have := hn.le_top (r := r) List.mem_cons_self
      exact ih le_rfl ⟨hM.frames, hM.wide, hlt⟩ hfn ⟨r, List.mem_cons_self, by simp; omega⟩
    rw [insertLoop_append hr hb hn]
    split_ifs with h₁ h₂ h₃ h₄
    · -- above the band
      refine ⟨hN.bands ht (.cons h₂ hb hr (by simp) hn), fun g x y => ?_, fun g hg => ?_⟩
      · rw [covers_cons, hN.frames, List.mem_singleton]
        simp only [Inside]
        tauto
      · rw [listed_cons, hN.frames, List.mem_singleton] at hg
        exact hg.symm
    · -- the part above the band, and the rest that begins with the band
      have hlow : Single f { N with mTop := top } := ⟨hN.frames, hN.wide, by simp; omega⟩
      have hhigh : Single f { N with mBottom := top } := ⟨hN.frames, hN.wide, h₁⟩
      have hins := insertAligned_inserted (insertLoop next) (N := { N with mTop := top }) hr
        hne le_rfl hb hn hlow hfb (hgo _ hlow)
      refine ⟨hhigh.bands ht hins.bands, fun g x y => ?_, fun g hg => ?_⟩
      · rw [covers_cons, hins.covers]
        simp only [Inside, hN.frames, List.mem_singleton]
        grind
      · rcases listed_cons.mp hg with hg | hg
        · exact .inr (by simpa [hN.frames] using hg)
        · exact hins.listed g hg
    · -- below the band
      have hins := ih h₄ hN hfn <| by
        obtain ⟨r, hr', hlt⟩ := hlow
        refine ⟨r, (List.mem_append.mp hr').resolve_left fun hrb => ?_, hlt⟩
        rw [(hr.slot hrb).bottom] at hlt
        omega
      refine ⟨.cons htop hb hr (by simp) hins.bands, fun g x y => ?_, fun g hg => ?_⟩
      · rw [covers_append, covers_append, hins.covers]
        tauto
      · have := hins.listed g
        rw [listed_append] at hg ⊢
        tauto
    · -- the band is divided
      obtain ⟨htr, hbr, hits⟩ := hr.divide (a := N.mTop)
      have hfd : ∀ r ∈ (DivideBand (b :: l) N.mTop).2, f ∉ r.mFrames := by
        intro r hr
        obtain ⟨s, hs, rfl⟩ := List.mem_map.mp hr
        exact hfb s hs
      have hins := insertAligned_inserted (t := N.mTop) (insertLoop next) hbr
        (by simp [DivideBand]) le_rfl (by omega) hn hN hfd (hgo _ hN)
      refine ⟨.cons htop h₃ htr (by simp [DivideBand]) hins.bands, fun g x y => ?_, fun g hg => ?_⟩
      · rw [covers_append, hins.covers, covers_append, covers_append, htr.covers, hbr.covers,
          hr.covers, (hits g x).1, (hits g x).2]
        grind
      · have := hins.listed g
        simp only [listed_append, listed_divide] at hg this ⊢
        tauto
    · have he : N.mTop = top := by omega
      subst he
      exact insertAligned_inserted (insertLoop next) hr hne ht hb hn hN hfb (hgo N hN)

/-- The last rect reaches down furthest. -/
theorem Bands.bottom_le_last (h : Bands t l) (hlast : b ∈ l.getLast?) :
    ∀ r ∈ l, r.mBottom ≤ b.mBottom := by
  induction h with
  | nil => cases hlast
  | @cons t top bottom x₀ band next htop hb hr hne hn ih =>
    cases next with
    | nil =>
      intro r hr'
      rw [List.append_nil] at hlast hr'
      rw [(hr.slot hr').bottom, (hr.slot (List.mem_of_getLast? hlast)).bottom]
    | cons s next =>
      rw [List.getLast?_append_of_ne_nil _ (by simp)] at hlast
      intro r hr'
      rcases List.mem_append.mp hr' with hr' | hr'
      · have := hn.le_top (List.mem_of_getLast? hlast)
        rw [(hr.slot hr').bottom]
        omega
      · exact ih hlast r hr'

/-- A rect below all bands is a new band. -/
theorem Bands.append (h : Bands t l) (ht : t ≤ N.mTop) (hN : Single f N)
    (hlow : ∀ r ∈ l, r.mBottom ≤ N.mTop) : Bands t (l ++ [N]) := by
  induction h with
  | nil => exact hN.bands ht (.nil _)
  | @cons t top bottom x₀ band next htop hb hr hne hn ih =>
    rw [List.append_assoc]
    refine .cons htop hb hr hne (ih ?_ fun r hr' => hlow r (List.mem_append_right _ hr'))
    obtain ⟨b, l, rfl⟩ := List.exists_cons_of_ne_nil hne
    rw [← (hr.slot List.mem_cons_self).bottom]
    exact hlow b (by simp)

/-- `InsertBandRect` adds the points of the rect to its frame. -/
theorem insertBandRect_inserted (h : Bands t l) (ht : t ≤ N.mTop) (hN : Single f N)
    (hf : ∀ r ∈ l, f ∉ r.mFrames) : Inserted t f N l (InsertBandRect l N) := by
  have hcov : ∀ g x y, Covers (l ++ [N]) g x y ↔ Covers l g x y ∨ g = f ∧ Inside N x y := by
    intro g x y
    rw [covers_append, covers_singleton, hN.frames, List.mem_singleton]
    rfl
  have hlist : ∀ g, Listed (l ++ [N]) g → Listed l g ∨ g = f := by
    intro g
    simp [hN.frames]
  rw [InsertBandRect, YMost]
  cases hlast : l.getLast? with
  | none =>
    rw [List.getLast?_eq_none_iff] at hlast
    subst hlast
    exact ⟨h.append ht hN (by simp), hcov, hlist⟩
  | some b =>
    simp only [Option.map_some]
    split_ifs with hy
    · exact ⟨h.append ht hN fun r hr => (h.bottom_le_last hlast r hr).trans hy, hcov, hlist⟩
    · exact insertLoop_inserted h ht hN hf ⟨b, List.mem_of_getLast? hlast, by omega⟩

end Kompozer.Layout

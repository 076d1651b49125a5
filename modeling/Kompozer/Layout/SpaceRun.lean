import Kompozer.Layout.Removal
import Kompozer.Layout.BandData
import Mathlib.Data.List.Nodup

/-! Runs of the space manager. After any calls the band list shows the regions of the frames, no
more and no less, and `PopState` goes back to the regions of the matching `PushState`. -/

namespace Kompozer.Layout

open Gfx

/-! ### Calls -/

inductive Call
  | addRectRegion (aFrame : nsIFrame) (aUnavailableSpace : NsRect)
  | removeRegion (aFrame : nsIFrame)
  | pushState
  | popState
  | translate (aDx aDy : ℤ)

namespace nsSpaceManager

def call (m : nsSpaceManager) : Call → nsSpaceManager
  | .addRectRegion f r => (m.AddRectRegion f r).2
  | .removeRegion f => (m.RemoveRegion f).2
  | .pushState => m.PushState
  | .popState => m.PopState
  | .translate dx dy => m.Translate dx dy

def run (m : nsSpaceManager) (calls : List Call) : nsSpaceManager := calls.foldl call m

/-- No overflow. The least coordinate is the mark of the list header. -/
def InRange (v : ℤ) : Prop := NSCOORD_MIN < v ∧ v ≤ NSCOORD_MAX

/-- A frame is added when it has no region and not removed while a saved state names it. -/
def Legal (m : nsSpaceManager) : Call → Prop
  | .addRectRegion f r => m.GetFrameInfoFor f = none ∧ (0 ≤ r.width ∧ 0 ≤ r.height) ∧
      InRange (m.worldRect r).x ∧ InRange (m.worldRect r).y ∧
      InRange (m.worldRect r).xMost ∧ InRange (m.worldRect r).yMost
  | .removeRegion f => ∀ state ∈ m.mSavedStates, state.mLastFrame ≠ some f
  | .pushState => True
  | .popState => True
  | .translate dx dy => InRange (m.mX + dx) ∧ InRange (m.mY + dy)

def LegalRun (m : nsSpaceManager) : List Call → Prop
  | [] => True
  | c :: calls => m.Legal c ∧ LegalRun (m.call c) calls

end nsSpaceManager

/-! ### The regions -/

/-- What a space manager is for: the regions added since the last open `PushState`, and for each
open `PushState` the origin and the regions from before it. -/
structure Floats where
  mX : ℤ
  mY : ℤ
  added : List FrameInfo
  saved : List (ℤ × ℤ × List FrameInfo)

namespace Floats

/-- The regions before an open `PushState`. -/
def below (saved : List (ℤ × ℤ × List FrameInfo)) : List FrameInfo := saved.flatMap (·.2.2)

def regions (a : Floats) : List FrameInfo := a.added ++ below a.saved

def new : Floats := ⟨0, 0, [], []⟩

/-- The regions of the other frames. -/
def without (f : nsIFrame) (l : List FrameInfo) : List FrameInfo := l.filter (·.mFrame ≠ f)

def call (a : Floats) : Call → Floats
  | .addRectRegion f r =>
    { a with added := ⟨f, ⟨r.x + a.mX, r.y + a.mY, r.width, r.height⟩⟩ :: a.added }
  | .removeRegion f =>
    { a with
      added := without f a.added
      saved := a.saved.map fun s => (s.1, s.2.1, without f s.2.2) }
  | .pushState => { a with added := [], saved := (a.mX, a.mY, a.added) :: a.saved }
  | .popState =>
    match a.saved with
    | [] => a
    | s :: saved => ⟨s.1, s.2.1, s.2.2, saved⟩
  | .translate dx dy => { a with mX := a.mX + dx, mY := a.mY + dy }

def run (a : Floats) (calls : List Call) : Floats := calls.foldl call a

end Floats

open Floats

variable {m : nsSpaceManager} {a : Floats} {l l' : List FrameInfo} {f : nsIFrame}
  {info : FrameInfo} {t : ℤ}

/-- The point is in a rectangle. -/
def Holds (r : NsRect) (x y : ℤ) : Prop := (r.x ≤ x ∧ x < r.xMost) ∧ r.y ≤ y ∧ y < r.yMost

/-! ### Removing and adding -/

/-- The band list shows the given regions. -/
structure Exact (m : nsSpaceManager) (l : List FrameInfo) : Prop where
  bands : ∃ t, Bands t m.mBandList
  infos : m.mFrameInfoMap = l
  distinct : (l.map (·.mFrame)).Nodup
  covers : ∀ f x y, Covers m.mBandList f x y ↔ ∃ info ∈ l, info.mFrame = f ∧ Holds info.mRect x y
  listed : ∀ f, Listed m.mBandList f → ∃ info ∈ l, info.mFrame = f ∧ 0 < info.mRect.height

theorem mem_without : info ∈ without f l ↔ info ∈ l ∧ info.mFrame ≠ f := by
  simp [without]

theorem eraseP_eq_without (h : (l.map (·.mFrame)).Nodup) :
    l.eraseP (fun info => decide (info.mFrame = f)) = without f l := by
  induction l with
  | nil => rfl
  | cons i l ih =>
    rw [List.map_cons, List.nodup_cons] at h
    by_cases hi : i.mFrame = f
    · rw [List.eraseP_cons_of_pos (by simpa using hi), without,
        List.filter_cons_of_neg (by simpa using hi), List.filter_eq_self.mpr]
      intro j hj
      have : j.mFrame ≠ i.mFrame := fun he => h.1 (he ▸ List.mem_map_of_mem hj)
      simpa [← hi] using this
    · rw [List.eraseP_cons_of_neg (by simpa using hi), ih h.2, without, without,
        List.filter_cons_of_pos (by simpa using hi)]

theorem without_eq_self (h : m.GetFrameInfoFor f = none) (hm : m.mFrameInfoMap = l) :
    without f l = l := by
  rw [nsSpaceManager.GetFrameInfoFor, hm, List.find?_eq_none] at h
  exact List.filter_eq_self.mpr fun i hi => by simpa using h i hi

/-- `RemoveRegion` leaves the regions of the other frames. -/
theorem Exact.removeRegion (h : Exact m l) (f : nsIFrame) :
    Exact (m.RemoveRegion f).2 (without f l) ∧
      (m.RemoveRegion f).2.mX = m.mX ∧ (m.RemoveRegion f).2.mY = m.mY ∧
      (m.RemoveRegion f).2.mSavedStates = m.mSavedStates := by
  rw [nsSpaceManager.RemoveRegion]
  cases hfind : m.GetFrameInfoFor f with
  | none =>
    rw [without_eq_self hfind h.infos]
    exact ⟨h, rfl, rfl, rfl⟩
  | some info =>
    have hmem : info ∈ l := by
      rw [nsSpaceManager.GetFrameInfoFor, h.infos] at hfind
      exact List.mem_of_find?_eq_some hfind
    have hframe : info.mFrame = f := by
      simpa using List.find?_some hfind
    have hdistinct : ((without f l).map (·.mFrame)).Nodup :=
      h.distinct.sublist ((List.filter_sublist).map _)
    have herase := eraseP_eq_without (f := f) h.distinct
    -- the regions of the other frames are not changed
    have hother : ∀ g x y, (g ≠ f ∧ Covers m.mBandList g x y ↔
        ∃ i ∈ without f l, i.mFrame = g ∧ Holds i.mRect x y) := by
      intro g x y
      rw [h.covers]
      constructor
      · rintro ⟨hg, i, hi, rfl, hh⟩
        exact ⟨i, mem_without.mpr ⟨hi, hg⟩, rfl, hh⟩
      · rintro ⟨i, hi, rfl, hh⟩
        obtain ⟨hi, hne⟩ := mem_without.mp hi
        exact ⟨hne, i, hi, rfl, hh⟩
    obtain ⟨t, hb⟩ := h.bands
    simp only
    split_ifs with hheight
    · obtain ⟨hb', hc, hl⟩ := removeLoop_removed (f := f) hb
      refine ⟨⟨⟨t, hb'⟩, ?_, hdistinct, fun g x y => (hc g x y).trans (hother g x y), fun g hg => ?_⟩,
        rfl, rfl, rfl⟩
      · simp only [nsSpaceManager.DestroyFrameInfo, h.infos, herase]
      · obtain ⟨hne, hg⟩ := hl g hg
        obtain ⟨i, hi, rfl, hpos⟩ := h.listed g hg
        exact ⟨i, mem_without.mpr ⟨hi, hne⟩, rfl, hpos⟩
    · refine ⟨⟨⟨t, hb⟩, ?_, hdistinct, fun g x y => ?_, fun g hg => ?_⟩, rfl, rfl, rfl⟩
      · simp only [nsSpaceManager.DestroyFrameInfo, h.infos, herase]
      · -- the region of the frame has no point
        refine Iff.trans ⟨fun hcov => ⟨?_, hcov⟩, And.right⟩ (hother g x y)
        rintro rfl
        obtain ⟨i, hi, hie, hh⟩ := (h.covers _ x y).mp hcov
        have : i = info := List.inj_on_of_nodup_map h.distinct hi hmem (hie.trans hframe.symm)
        subst this
        simp only [Holds, NsRect.yMost] at hh
        omega
      · obtain ⟨i, hi, rfl, hpos⟩ := h.listed g hg
        refine ⟨i, mem_without.mpr ⟨hi, fun he => ?_⟩, rfl, hpos⟩
        have : i = info := List.inj_on_of_nodup_map h.distinct hi hmem (he.trans hframe.symm)
        subst this
        exact hheight hpos

theorem Exact.addRectRegion {r : NsRect} (h : Exact m l) (hf : m.GetFrameInfoFor f = none)
    (hw : 0 ≤ r.width) :
    Exact (m.AddRectRegion f r).2 (⟨f, m.worldRect r⟩ :: l) ∧
      (m.AddRectRegion f r).2.mX = m.mX ∧ (m.AddRectRegion f r).2.mY = m.mY ∧
      (m.AddRectRegion f r).2.mSavedStates = m.mSavedStates := by
  have hnew : ∀ i ∈ l, i.mFrame ≠ f := by
    intro i hi
    rw [nsSpaceManager.GetFrameInfoFor, h.infos, List.find?_eq_none] at hf
    simpa using hf i hi
  have hdistinct : (((⟨f, m.worldRect r⟩ : FrameInfo) :: l).map (·.mFrame)).Nodup := by
    rw [List.map_cons, List.nodup_cons]
    refine ⟨fun hmem => ?_, h.distinct⟩
    obtain ⟨i, hi, he⟩ := List.mem_map.mp hmem
    exact hnew i hi he
  have hcons : ∀ g x y, (∃ i ∈ (⟨f, m.worldRect r⟩ : FrameInfo) :: l, i.mFrame = g ∧
      Holds i.mRect x y) ↔ Covers m.mBandList g x y ∨ g = f ∧ Holds (m.worldRect r) x y := by
    intro g x y
    rw [h.covers, List.exists_mem_cons_iff, or_comm, eq_comm (a := g)]
  obtain ⟨t, hb⟩ := h.bands
  simp only [nsSpaceManager.AddRectRegion, hf, Option.isSome_none, Bool.false_eq_true, if_false]
  have hkeep : ∀ g, Listed m.mBandList g → ∃ i ∈ (⟨f, m.worldRect r⟩ : FrameInfo) :: l,
      i.mFrame = g ∧ 0 < i.mRect.height := fun g hg => by
    obtain ⟨i, hi, he⟩ := h.listed g hg
    exact ⟨i, List.mem_cons_of_mem _ hi, he⟩
  by_cases hheight : r.height ≤ 0
  · rw [if_pos hheight]
    refine ⟨⟨⟨t, hb⟩, by rw [h.infos], hdistinct, fun g x y => ?_, hkeep⟩, rfl, rfl, rfl⟩
    rw [hcons]
    refine ⟨.inl, fun hc => hc.resolve_right ?_⟩
    rintro ⟨-, hh⟩
    simp only [Holds, nsSpaceManager.worldRect, NsRect.yMost] at hh
    omega
  · rw [if_neg hheight]
    have hN : Single f ⟨(m.worldRect r).x, (m.worldRect r).y, (m.worldRect r).xMost,
        (m.worldRect r).yMost, [f]⟩ :=
      ⟨rfl, by simp [NsRect.xMost, nsSpaceManager.worldRect, hw],
        by simp only [NsRect.yMost, nsSpaceManager.worldRect]; omega⟩
    have hfree : ∀ r ∈ m.mBandList, f ∉ r.mFrames := by
      intro r hr hmem
      obtain ⟨i, hi, he, -⟩ := h.listed f ⟨r, hr, hmem⟩
      exact hnew i hi he
    have hins := insertBandRect_inserted (hb.mono (min_le_left t (m.worldRect r).y))
      (min_le_right _ _) hN hfree
    refine ⟨⟨⟨_, hins.bands⟩, by rw [h.infos], hdistinct, fun g x y => ?_, fun g hg => ?_⟩,
      rfl, rfl, rfl⟩
    · rw [hcons, hins.covers]
      rfl
    · rcases hins.listed g hg with hg | rfl
      · exact hkeep g hg
      · exact ⟨_, List.mem_cons_self, rfl, by simp only [nsSpaceManager.worldRect]; omega⟩

/-! ### Saved states -/

/-- The regions added behind the saved ones go, one after the other. -/
theorem Exact.popLoop {below : List FrameInfo} (h : Exact m (l ++ below)) (k : ℕ) :
    Exact (nsSpaceManager.popLoop (below.head?.map (·.mFrame)) (l.length + k) m) below := by
  induction l generalizing m with
  | nil =>
    rw [List.nil_append] at h
    cases hk : [].length + k with
    | zero => exact h
    | succ k =>
      rw [nsSpaceManager.popLoop, h.infos]
      cases below with
      | nil => exact h
      | cons i below => simpa using h
  | cons i l ih =>
    have hne : some i.mFrame ≠ below.head?.map (·.mFrame) := by
      intro he
      have hd := h.distinct
      rw [List.cons_append, List.map_cons, List.nodup_cons] at hd
      cases below with
      | nil => cases he
      | cons j below => exact hd.1 (by simp [Option.some.inj he])
    have hrest : without i.mFrame (i :: l ++ below) = l ++ below := by
      have hd := h.distinct
      rw [List.cons_append, List.map_cons, List.nodup_cons] at hd
      rw [List.cons_append, without, List.filter_cons_of_neg (by simp), List.filter_eq_self]
      intro j hj
      have : j.mFrame ≠ i.mFrame := fun he => hd.1 (he ▸ List.mem_map_of_mem hj)
      simpa using this
    rw [List.length_cons, Nat.add_right_comm, nsSpaceManager.popLoop, h.infos]
    simp only [List.cons_append]
    rw [if_pos hne]
    have hrem := (h.removeRegion i.mFrame).1
    rw [hrest] at hrem
    exact ih hrem

/-- The saved states name the last frames of the regions saved with them. -/
def Matched : List SpaceManagerState → List (ℤ × ℤ × List FrameInfo) → Prop
  | [], [] => True
  | state :: states, s :: saved => state.mX = s.1 ∧ state.mY = s.2.1 ∧
      state.mLastFrame = (below (s :: saved)).head?.map (·.mFrame) ∧ Matched states saved
  | _, _ => False

theorem below_cons (s : ℤ × ℤ × List FrameInfo) (saved : List (ℤ × ℤ × List FrameInfo)) :
    below (s :: saved) = s.2.2 ++ below saved := List.flatMap_cons

theorem without_append : without f (l ++ l') = without f l ++ without f l' := List.filter_append ..

theorem below_without (saved : List (ℤ × ℤ × List FrameInfo)) :
    below (saved.map fun s => (s.1, s.2.1, without f s.2.2)) = without f (below saved) := by
  induction saved with
  | nil => rfl
  | cons s saved ih => rw [List.map_cons, below_cons, below_cons, ih, without_append]

/-- Removing another frame than the last keeps the last. -/
theorem head_without (h : l.head?.map (·.mFrame) ≠ some f) :
    (without f l).head?.map (·.mFrame) = l.head?.map (·.mFrame) := by
  cases l with
  | nil => rfl
  | cons i l =>
    have hi : i.mFrame ≠ f := by simpa using h
    rw [without, List.filter_cons_of_pos (by simpa using hi)]
    rfl

theorem Matched.without {states : List SpaceManagerState}
    {saved : List (ℤ × ℤ × List FrameInfo)} (h : Matched states saved)
    (hf : ∀ state ∈ states, state.mLastFrame ≠ some f) :
    Matched states (saved.map fun s => (s.1, s.2.1, Floats.without f s.2.2)) := by
  induction states generalizing saved with
  | nil =>
    cases saved with
    | nil => trivial
    | cons => exact h.elim
  | cons state states ih =>
    cases saved with
    | nil => exact h.elim
    | cons s saved =>
      obtain ⟨hx, hy, hlast, hrest⟩ := h
      have hne := hf state List.mem_cons_self
      refine ⟨hx, hy, ?_, ih hrest fun st hst => hf st (List.mem_cons_of_mem _ hst)⟩
      have hmap := below_without (f := f) (s :: saved)
      rw [List.map_cons] at hmap
      rw [hmap, head_without (by rw [← hlast]; exact hne), hlast]

/-- The space manager shows the regions. -/
structure Shows (m : nsSpaceManager) (a : Floats) : Prop where
  exact : Exact m a.regions
  origin : m.mX = a.mX ∧ m.mY = a.mY
  saved : Matched m.mSavedStates a.saved

theorem new_shows : Shows .new .new where
  exact :=
    ⟨⟨0, .nil 0⟩, rfl, List.nodup_nil, fun f x y => by simp [nsSpaceManager.new, regions, new, below],
      fun f hf => by simp [nsSpaceManager.new] at hf⟩
  origin := ⟨rfl, rfl⟩
  saved := trivial

theorem Shows.popState (h : Shows m a) : Shows m.PopState (a.call .popState) := by
  have hs := h.saved
  rw [nsSpaceManager.PopState, Floats.call]
  cases hst : m.mSavedStates with
  | nil =>
    cases hsv : a.saved with
    | nil => exact h
    | cons => rw [hst, hsv] at hs; exact hs.elim
  | cons state states =>
    cases hsv : a.saved with
    | nil => rw [hst, hsv] at hs; exact hs.elim
    | cons s saved =>
      rw [hst, hsv] at hs
      obtain ⟨hx, hy, hlast, hrest⟩ := hs
      have hexact := h.exact
      rw [Floats.regions, hsv] at hexact
      have hpop := hexact.popLoop (below (s :: saved)).length
      rw [← List.length_append, ← hexact.infos, ← hlast] at hpop
      rw [below_cons] at hpop
      exact ⟨⟨hpop.bands, hpop.infos, hpop.distinct, hpop.covers, hpop.listed⟩, ⟨hx, hy⟩, hrest⟩

/-- One call. -/
theorem Shows.call (h : Shows m a) (c : Call) (hc : m.Legal c) : Shows (m.call c) (a.call c) := by
  obtain ⟨hx, hy⟩ := h.origin
  cases c with
  | addRectRegion f r =>
    obtain ⟨hf, ⟨hw, -⟩, -⟩ := hc
    obtain ⟨hexact, hX, hY, hS⟩ := h.exact.addRectRegion hf hw
    refine ⟨?_, ⟨hX.trans hx, hY.trans hy⟩, ?_⟩
    · rw [nsSpaceManager.worldRect, hx, hy] at hexact
      exact hexact
    · simp only [nsSpaceManager.call, hS]
      exact h.saved
  | removeRegion f =>
    obtain ⟨hexact, hX, hY, hS⟩ := h.exact.removeRegion f
    refine ⟨?_, ⟨hX.trans hx, hY.trans hy⟩, ?_⟩
    · rw [Floats.regions, without_append, ← below_without] at hexact
      exact hexact
    · simp only [nsSpaceManager.call, hS]
      exact h.saved.without hc
  | pushState =>
    refine ⟨?_, h.origin, hx, hy, ?_, h.saved⟩
    · have he := h.exact
      exact ⟨he.bands, he.infos, he.distinct, he.covers, he.listed⟩
    · rw [h.exact.infos]
      rfl
  | popState => exact h.popState
  | translate dx dy =>
    refine ⟨?_, ⟨congrArg (· + dx) hx, congrArg (· + dy) hy⟩, h.saved⟩
    have he := h.exact
    exact ⟨he.bands, he.infos, he.distinct, he.covers, he.listed⟩

theorem Shows.run (h : Shows m a) (calls : List Call) (hc : m.LegalRun calls) :
    Shows (m.run calls) (a.run calls) := by
  induction calls generalizing m a with
  | nil => exact h
  | cons c calls ih => exact ih (h.call c hc.1) hc.2

/-! ### The band list -/

/-- A rect comes before another: left of it in the same band, or in a band above. -/
def Precedes (r s : BandRect) : Prop :=
  (r.mTop = s.mTop ∧ r.mBottom = s.mBottom ∧ r.mRight ≤ s.mLeft) ∨ r.mBottom ≤ s.mTop

theorem Row.pairwise {t b x : ℤ} {band : List BandRect} (h : Row t b x band) :
    band.Pairwise Precedes := by
  induction h with
  | nil => exact .nil
  | @cons x r l hr hl ih =>
    refine List.pairwise_cons.mpr ⟨fun s hs => .inl ?_, ih⟩
    have hslot := hl.slot hs
    exact ⟨hr.top.trans hslot.top.symm, hr.bottom.trans hslot.bottom.symm, hslot.left⟩

theorem Bands.pairwise {bands : List BandRect} (h : Bands t bands) : bands.Pairwise Precedes := by
  induction h with
  | nil => exact .nil
  | cons htop hb hr hne hn ih =>
    refine List.pairwise_append.mpr ⟨hr.pairwise, ih, fun r hr' s hs => .inr ?_⟩
    rw [(hr.slot hr').bottom]
    exact (hn.le_top hs).1

theorem Bands.solid {bands : List BandRect} (h : Bands t bands) :
    ∀ r ∈ bands, r.mLeft ≤ r.mRight ∧ r.mTop < r.mBottom := by
  induction h with
  | nil => simp
  | cons htop hb hr hne hn ih =>
    intro r hr'
    rcases List.mem_append.mp hr' with hr' | hr'
    · have hslot := hr.slot hr'
      exact ⟨hslot.wide, by rw [hslot.top, hslot.bottom]; exact hb⟩
    · exact ih r hr'

/-- After any calls the float map is exact: the rects stand in order, the rects that list a frame
make up its region, a query with a buffer large enough reports what no region covers, and the
regions are those added and neither removed nor undone by `PopState`. -/
theorem float_map_exact (calls : List Call) (h : nsSpaceManager.new.LegalRun calls) :
    (nsSpaceManager.new.run calls).mFrameInfoMap = (Floats.new.run calls).regions ∧
    (nsSpaceManager.new.run calls).mBandList.Pairwise Precedes ∧
    (∀ r ∈ (nsSpaceManager.new.run calls).mBandList,
      r.mLeft ≤ r.mRight ∧ r.mTop < r.mBottom) ∧
    (∀ f x y, Covers (nsSpaceManager.new.run calls).mBandList f x y ↔
      ∃ info ∈ (Floats.new.run calls).regions, info.mFrame = f ∧ Holds info.mRect x y) ∧
    ∀ aYOffset w maxHeight mSize, ∀ d,
      2 * (nsSpaceManager.new.run calls).mBandList.length + 1 ≤ mSize →
      d = (nsSpaceManager.new.run calls).GetBandData aYOffset w maxHeight mSize →
      d.result = .NS_OK ∧ ∀ x, Reports d.mTrapezoids x ↔ 0 ≤ x ∧ x < w ∧
        ∀ info ∈ (Floats.new.run calls).regions,
          ¬ Holds info.mRect (x + (Floats.new.run calls).mX)
            ((Floats.new.run calls).mY + aYOffset) := by
  have hs := new_shows.run calls h
  obtain ⟨t, hb⟩ := hs.exact.bands
  refine ⟨hs.exact.infos, hb.pairwise, hb.solid, hs.exact.covers, ?_⟩
  intro aYOffset w maxHeight mSize d hsize hd
  subst hd
  have hrep := getBandData_reported hb aYOffset w maxHeight hsize
  refine ⟨hrep.result, fun x => ?_⟩
  rw [hrep.reports, ← hs.origin.1, ← hs.origin.2]
  simp only [reports_nil, false_or, Occupied, hs.exact.covers]
  refine and_congr_right fun _ => and_congr_right fun _ => ?_
  constructor
  · intro hno info hi hh
    exact hno ⟨info.mFrame, info, hi, rfl, hh⟩
  · rintro hno ⟨g, info, hi, -, hh⟩
    exact hno info hi hh

/-- Two floats that overlap, the second of them undone. -/
def sampleCalls : List Call :=
  [.addRectRegion 1 ⟨0, 0, 10, 10⟩, .pushState, .addRectRegion 2 ⟨5, 5, 10, 10⟩, .popState]

theorem sampleCalls_legal : nsSpaceManager.new.LegalRun sampleCalls := by
  simp only [sampleCalls, nsSpaceManager.LegalRun, nsSpaceManager.Legal, nsSpaceManager.InRange]
  decide

theorem float_map_exact_sample :
    (nsSpaceManager.new.run sampleCalls).mFrameInfoMap = [⟨1, ⟨0, 0, 10, 10⟩⟩] ∧
      (nsSpaceManager.new.run sampleCalls).mBandList.Pairwise Precedes :=
  ⟨(float_map_exact sampleCalls sampleCalls_legal).1,
    (float_map_exact sampleCalls sampleCalls_legal).2.1⟩

end Kompozer.Layout

import Kompozer.Net.Parsers
import Mathlib

/-! Segments that lie one behind the other: the text is made of their texts, each behind its
delimiter, and a segment that is not there leaves no delimiter. From this it follows that they
are in bounds, disjoint, and lose nothing. -/

namespace Kompozer.Net

/-- A component behind its delimiter. -/
def optional (delimiter : UInt8) : Option NsCString → NsCString
  | none => []
  | some text => delimiter :: text

variable {delimiter : UInt8}

@[simp] theorem optional_none : optional delimiter none = [] := rfl

@[simp] theorem optional_some (text : NsCString) :
    optional delimiter (some text) = delimiter :: text := rfl

/-- A segment with the text in front of it that belongs to it. -/
abbrev Piece := NsCString × URLSegment

/-- The text of a piece, which is empty for a segment that is not there. -/
def pieceText (spec : NsCString) (p : Piece) : NsCString :=
  if p.2.mLen < 0 then [] else p.1 ++ p.2.text spec

/-- The pieces lose nothing of a text. -/
structure Covers (spec : NsCString) (pieces : List Piece) : Prop where
  bounds : ∀ p ∈ pieces, 0 ≤ p.2.mLen → 0 ≤ p.2.mPos ∧ p.2.mPos + p.2.mLen ≤ spec.length
  disjoint : (pieces.filter (0 ≤ ·.2.mLen)).Pairwise
    fun a b => a.2.mPos + a.2.mLen ≤ b.2.mPos
  text : pieces.flatMap (pieceText spec) = spec

/-- The pieces are laid out from a place on, and this is their text. -/
inductive Spans : ℕ → List Piece → NsCString → Prop
  | nil (pos : ℕ) : Spans pos [] []
  | absent {pos : ℕ} {pieces : List Piece} {text : NsCString} (delim : NsCString)
      {seg : URLSegment} (hseg : seg.mLen < 0) (h : Spans pos pieces text) :
      Spans pos ((delim, seg) :: pieces) text
  | present {pos : ℕ} {pieces : List Piece} {text : NsCString} (delim t : NsCString)
      (h : Spans (pos + delim.length + t.length) pieces text) :
      Spans pos ((delim, ⟨pos + delim.length, t.length⟩) :: pieces) (delim ++ (t ++ text))

namespace Spans

variable {pos : ℕ} {pieces pieces' : List Piece} {text text' : NsCString}

theorem move {pos' : ℕ} (h : Spans pos pieces text) (hpos : pos' = pos) :
    Spans pos' pieces text := hpos ▸ h

theorem append (h : Spans pos pieces text) (h' : Spans (pos + text.length) pieces' text') :
    Spans pos (pieces ++ pieces') (text ++ text') := by
  induction h with
  | nil pos => simpa using h'
  | absent delim hseg h ih => exact absent delim hseg (ih h')
  | present delim t h ih =>
    have hrest := ih (h'.move (by simp only [List.length_append]; omega))
    simpa using present delim t hrest

theorem of_absent {delim : NsCString} {seg : URLSegment} (hseg : seg.mLen < 0)
    (h : Spans pos ((delim, seg) :: pieces) text) : Spans pos pieces text := by
  cases h with
  | absent _ _ h => exact h
  | present => exact absurd hseg (by simp)

/-- The first piece has no delimiter. -/
theorem first (t : NsCString) (h : Spans t.length pieces text) :
    Spans 0 (([], ⟨0, t.length⟩) :: pieces) (t ++ text) :=
  present [] t (h.move (by simp))

/-- One piece of a text. -/
theorem single (pos : ℕ) (delim t : NsCString) :
    Spans pos [(delim, ⟨pos + delim.length, t.length⟩)] (delim ++ t) := by
  simpa using present delim t (nil (pos + delim.length + t.length))

theorem absentSingle (pos : ℕ) (delim : NsCString) {seg : URLSegment} (hseg : seg.mLen < 0) :
    Spans pos [(delim, seg)] [] := absent delim hseg (nil pos)

theorem shift (h : Spans pos pieces text) (k : ℕ) :
    Spans (k + pos) (pieces.map fun p => (p.1, p.2.shift k)) text := by
  induction h with
  | nil pos => exact nil _
  | absent delim hseg h ih => exact absent delim hseg ih
  | @present pos pieces text delim t h ih =>
    have hpos : k + pos + delim.length + t.length = k + (pos + delim.length + t.length) := by
      omega
    have hpiece := present delim t (ih.move hpos)
    have hseg : ∀ pos : ℕ, (⟨((k + pos : ℕ) : ℤ) + delim.length, t.length⟩ : URLSegment) =
        URLSegment.shift ⟨pos + delim.length, t.length⟩ k := by
      intro pos
      rw [URLSegment.shift, URLSegment.mk.injEq]
      exact ⟨by push_cast; omega, rfl⟩
    rw [hseg] at hpiece
    exact hpiece

/-! ### What follows for a text -/

theorem mPos_le (h : Spans pos pieces text) :
    ∀ p ∈ pieces, 0 ≤ p.2.mLen → (pos : ℤ) ≤ p.2.mPos := by
  induction h with
  | nil pos => simp
  | absent delim hseg h ih =>
    rintro p (_ | ⟨_, hp⟩) hlen
    · exact absurd hlen (by simpa using hseg)
    · exact ih p hp hlen
  | present delim t h ih =>
    rintro p (_ | ⟨_, hp⟩) hlen
    · simp
    · have := ih p hp hlen
      push_cast at this
      omega

theorem end_le (h : Spans pos pieces text) :
    ∀ p ∈ pieces, 0 ≤ p.2.mLen → p.2.mPos + p.2.mLen ≤ pos + text.length := by
  induction h with
  | nil pos => simp
  | absent delim hseg h ih =>
    rintro p (_ | ⟨_, hp⟩) hlen
    · exact absurd hlen (by simpa using hseg)
    · exact ih p hp hlen
  | present delim t h ih =>
    rintro p (_ | ⟨_, hp⟩) hlen
    · simp only [List.length_append]
      push_cast
      omega
    · have := ih p hp hlen
      simp only [List.length_append]
      push_cast at this ⊢
      omega

theorem pairwise (h : Spans pos pieces text) :
    (pieces.filter (0 ≤ ·.2.mLen)).Pairwise fun a b => a.2.mPos + a.2.mLen ≤ b.2.mPos := by
  induction h with
  | nil pos => simp
  | absent delim hseg h ih =>
    rwa [List.filter_cons_of_neg (by simpa using hseg)]
  | present delim t h ih =>
    rw [List.filter_cons_of_pos (by simp), List.pairwise_cons]
    refine ⟨fun p hp => ?_, ih⟩
    rw [List.mem_filter] at hp
    have := h.mPos_le p hp.1 (by simpa using hp.2)
    push_cast at this
    omega

theorem flatMap_pieceText (h : Spans pos pieces text) {front : NsCString}
    (hfront : front.length = pos) (back : NsCString) :
    pieces.flatMap (pieceText (front ++ (text ++ back))) = text := by
  induction h generalizing front with
  | nil pos => rfl
  | absent delim hseg h ih =>
    rw [List.flatMap_cons, pieceText, if_pos hseg, ih hfront]
    rfl
  | @present pos pieces text delim t h ih =>
    subst hfront
    have hrest := @ih (front ++ (delim ++ t)) (by simp; omega)
    have htext : URLSegment.text ⟨front.length + delim.length, t.length⟩
        (front ++ (delim ++ (t ++ text) ++ back)) = t := by
      have hdrop : (front ++ (delim ++ (t ++ text) ++ back)).drop (front.length + delim.length) =
          t ++ (text ++ back) := by
        rw [← List.length_append, show front ++ (delim ++ (t ++ text) ++ back) =
          (front ++ delim) ++ (t ++ (text ++ back)) by simp, List.drop_left]
      have hnat : ((front.length : ℤ) + delim.length).toNat = front.length + delim.length := by
        omega
      rw [URLSegment.text]
      dsimp only
      rw [hnat, hdrop, Int.toNat_natCast, List.take_left]
    have hspec : front ++ (delim ++ (t ++ text) ++ back) =
        front ++ (delim ++ t) ++ (text ++ back) := by simp
    rw [List.flatMap_cons, pieceText, if_neg (by simp), htext, hspec, hrest, List.append_assoc]

/-- Pieces that span a text cover it. -/
theorem covers (h : Spans 0 pieces text) : Covers text pieces where
  bounds p hp hlen := ⟨by simpa using h.mPos_le p hp hlen, by simpa using h.end_le p hp hlen⟩
  disjoint := h.pairwise
  text := by simpa using @flatMap_pieceText _ _ _ h [] rfl []

end Spans

end Kompozer.Net

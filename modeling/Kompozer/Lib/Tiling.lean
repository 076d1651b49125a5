import Mathlib

/-! Blocks of places that tile the rows of a grid, each row up to a width of its own. A block may be
cut in two, and a row or a column may be taken out of all the blocks. -/

namespace Kompozer

/-- A rectangle of places. -/
structure GridBlock where
  row : ℕ
  col : ℕ
  height : ℕ
  width : ℕ

namespace GridBlock

def Covers (x : GridBlock) (r c : ℕ) : Prop :=
  x.row ≤ r ∧ r < x.row + x.height ∧ x.col ≤ c ∧ c < x.col + x.width

instance (x : GridBlock) (r c : ℕ) : Decidable (x.Covers r c) := inferInstanceAs (Decidable (_ ∧ _))

/-- The rows of a block above a row of the grid, and those from it on. -/
def above (x : GridBlock) (h : ℕ) : GridBlock := { x with height := h }

def below (x : GridBlock) (h : ℕ) : GridBlock := { x with row := x.row + h, height := x.height - h }

/-- The first columns of a block, and the others. -/
def left (x : GridBlock) (w : ℕ) : GridBlock := { x with width := w }

def right (x : GridBlock) (w : ℕ) : GridBlock := { x with col := x.col + w, width := x.width - w }

variable {x : GridBlock} {r c h w : ℕ}

theorem covers_above_or_below (hh : h ≤ x.height) :
    (x.above h).Covers r c ∨ (x.below h).Covers r c ↔ x.Covers r c := by
  simp only [Covers, above, below]
  omega

theorem not_covers_above_below : ¬((x.above h).Covers r c ∧ (x.below h).Covers r c) := by
  simp only [Covers, above, below]
  omega

theorem covers_left_or_right (hw : w ≤ x.width) :
    (x.left w).Covers r c ∨ (x.right w).Covers r c ↔ x.Covers r c := by
  simp only [Covers, left, right]
  omega

theorem not_covers_left_right : ¬((x.left w).Covers r c ∧ (x.right w).Covers r c) := by
  simp only [Covers, left, right]
  omega

end GridBlock

/-- The rows below `n` are covered up to their widths, each place once. -/
structure Tiles {ι : Type*} (block : ι → GridBlock) (S : Set ι) (n : ℕ) (W : ℕ → ℕ) : Prop where
  covers_iff : ∀ {r c}, r < n → ((∃ x ∈ S, (block x).Covers r c) ↔ c < W r)
  unique : ∀ {r c}, r < n → ∀ {x y}, x ∈ S → y ∈ S → (block x).Covers r c →
    (block y).Covers r c → x = y

namespace Tiles

variable {ι κ : Type*} {block : ι → GridBlock} {S S' : Set ι} {n : ℕ} {W : ℕ → ℕ} {r c : ℕ}

theorem lt_of_covers (h : Tiles block S n W) (hr : r < n) {x : ι} (hx : x ∈ S)
    (hcovers : (block x).Covers r c) : c < W r :=
  (h.covers_iff hr).mp ⟨x, hx, hcovers⟩

/-- One block for two that have its places. -/
theorem cut (h : Tiles block S n W) {x y z : ι} (hx : x ∈ S)
    (hcovers : ∀ r c, (block y).Covers r c ∨ (block z).Covers r c ↔ (block x).Covers r c)
    (happart : ∀ r c, ¬((block y).Covers r c ∧ (block z).Covers r c))
    (hS : ∀ t, t ∈ S' ↔ t ∈ S ∧ t ≠ x ∨ t = y ∨ t = z) : Tiles block S' n W where
  covers_iff {r c} hr := by
    rw [← h.covers_iff hr]
    constructor
    · rintro ⟨t, ht, htcovers⟩
      rcases (hS t).mp ht with ⟨ht, -⟩ | rfl | rfl
      · exact ⟨t, ht, htcovers⟩
      · exact ⟨x, hx, (hcovers r c).mp (.inl htcovers)⟩
      · exact ⟨x, hx, (hcovers r c).mp (.inr htcovers)⟩
    · rintro ⟨t, ht, htcovers⟩
      by_cases htx : t = x
      · subst htx
        rcases (hcovers r c).mpr htcovers with hy | hz
        · exact ⟨y, (hS y).mpr (.inr (.inl rfl)), hy⟩
        · exact ⟨z, (hS z).mpr (.inr (.inr rfl)), hz⟩
      · exact ⟨t, (hS t).mpr (.inl ⟨ht, htx⟩), htcovers⟩
  unique {r c} hr {s t} hs ht hscovers htcovers := by
    have hold : ∀ {u v}, u ∈ S ∧ u ≠ x → v = y ∨ v = z → (block u).Covers r c →
        (block v).Covers r c → False := by
      rintro u v ⟨hu, hux⟩ hv hucovers hvcovers
      refine hux (h.unique hr hu hx hucovers ((hcovers r c).mp ?_))
      rcases hv with rfl | rfl
      · exact .inl hvcovers
      · exact .inr hvcovers
    rcases (hS s).mp hs with hs | rfl | rfl <;> rcases (hS t).mp ht with ht | rfl | rfl
    · exact h.unique hr hs.1 ht.1 hscovers htcovers
    · exact (hold hs (.inl rfl) hscovers htcovers).elim
    · exact (hold hs (.inr rfl) hscovers htcovers).elim
    · exact (hold ht (.inl rfl) htcovers hscovers).elim
    · rfl
    · exact (happart r c ⟨hscovers, htcovers⟩).elim
    · exact (hold ht (.inr rfl) htcovers hscovers).elim
    · exact (happart r c ⟨htcovers, hscovers⟩).elim
    · rfl

end Tiles

end Kompozer

import Mathlib.Data.List.DropRight
import Mathlib.Tactic.Common

/-! A tree listed row by row, each row with the level on which it stands. A row is below the
nearest row before it that is one level higher. Reading from the top, the rows that are open form a
path, and a row cuts the path at its own level. -/

namespace Kompozer

universe u v

section Outline
variable {α : Type u} {β : Type v} (level : α → ℕ) (opens : α → Prop) (owns : α → α → Prop)

/-- One row is the parent of another. -/
def IsParent (rows : List α) (p x : α) : Prop :=
  ∃ pre mid post, rows = pre ++ p :: (mid ++ x :: post) ∧ level x = level p + 1 ∧
    ∀ z ∈ mid, level x ≤ level z

/-- The listing of a tree in which every row is owned by its parent. -/
structure Outline (rows : List α) : Prop where
  start : ∀ x ∈ rows.head?, level x = 0
  grow : rows.IsChain fun a b => level b ≤ level a ∨ level b = level a + 1 ∧ opens a
  owned : ∀ p x, IsParent level rows p x → owns p x

variable [DecidablePred opens]

/-- The open rows above the next one, the nearest first. -/
def enter (path : List α) (x : α) : List α :=
  if opens x then x :: path.rtake (level x) else path.rtake (level x)

def enterAll (path rows : List α) : List α := rows.foldl (enter level opens) path

/-- Rows behind a path, each below a row of it or on its lowest level. -/
def Hangs : List α → List α → Prop
  | _, [] => True
  | path, x :: rows => level x ≤ path.length ∧ (∀ p ∈ (path.rtake (level x)).head?, owns p x) ∧
      Hangs (enter level opens path x) rows

/-! ### The end of a path -/

theorem rtake_length {n : ℕ} {path : List α} (h : n ≤ path.length) :
    (path.rtake n).length = n := by
  rw [List.rtake, List.length_drop]
  omega

theorem rtake_rtake {m n : ℕ} {path : List α} (h : m ≤ n) :
    (path.rtake n).rtake m = path.rtake m := by
  rw [List.rtake, List.rtake, List.rtake, List.drop_drop, List.length_drop]
  congr 1
  omega

theorem rtake_cons {n : ℕ} {x : α} {path : List α} (h : n ≤ path.length) :
    (x :: path).rtake n = path.rtake n := by
  rw [List.rtake, List.rtake, List.length_cons, Nat.succ_sub h]
  rfl

theorem rtake_self {path : List α} : path.rtake path.length = path := by
  rw [List.rtake, Nat.sub_self]
  rfl

variable {level opens owns} {path path' rows A S B rest : List α} {x d : α} {n : ℕ}

theorem rtake_enter (h : level x ≤ path.length) (hn : n ≤ level x) :
    (enter level opens path x).rtake n = path.rtake n := by
  have hlen := rtake_length h
  unfold enter
  split_ifs
  · rw [rtake_cons (by omega), rtake_rtake hn]
  · exact rtake_rtake hn

theorem length_enter (opens : α → Prop) [DecidablePred opens] (h : level x ≤ path.length) :
    (enter level opens path x).length = if opens x then level x + 1 else level x := by
  unfold enter
  split_ifs
  · rw [List.length_cons, rtake_length h]
  · exact rtake_length h

/-! ### Rows behind a path -/

theorem hangs_append : Hangs level opens owns path (A ++ B) ↔
    Hangs level opens owns path A ∧ Hangs level opens owns (enterAll level opens path A) B := by
  induction A generalizing path with
  | nil => simp [Hangs, enterAll]
  | cons x A ih =>
    simp only [List.cons_append, Hangs, ih, and_assoc]
    rfl

/-- Only the part of the path that the first row leaves is read. -/
theorem hangs_congr (h : path.rtake n = path'.rtake n) (hn : n ≤ path.length)
    (hn' : n ≤ path'.length) (hrows : ∀ x ∈ rows.head?, level x ≤ n) :
    Hangs level opens owns path rows ↔ Hangs level opens owns path' rows := by
  cases rows with
  | nil => exact Iff.rfl
  | cons x rows =>
    have hx : level x ≤ n := hrows x rfl
    have hcut : path.rtake (level x) = path'.rtake (level x) := by
      rw [← rtake_rtake hx, h, rtake_rtake hx]
    have hpath : level x ≤ path.length := Nat.le_trans hx hn
    have hpath' : level x ≤ path'.length := Nat.le_trans hx hn'
    simp only [Hangs, enter, hcut, hpath, hpath', true_and]

/-- Rows on a lower level leave the path above them. -/
theorem enterAll_below (h : Hangs level opens owns path S) (hS : ∀ z ∈ S, n ≤ level z)
    (hn : n ≤ path.length) : (enterAll level opens path S).rtake n = path.rtake n ∧
      n ≤ (enterAll level opens path S).length := by
  induction S generalizing path with
  | nil => exact ⟨rfl, hn⟩
  | cons z S ih =>
    obtain ⟨hz, hS⟩ := List.forall_mem_cons.mp hS
    obtain ⟨hlevel, -, h⟩ := h
    have hlen : n ≤ (enter level opens path z).length := by
      rw [length_enter opens hlevel]
      split_ifs <;> omega
    obtain ⟨hcut, hle⟩ := ih h hS hlen
    exact ⟨hcut.trans (rtake_enter hlevel hz), hle⟩

/-! ### The listing of a tree -/

/-- What hangs from nothing is the listing of a tree. -/
theorem Hangs.outline (h : Hangs level opens owns [] rows) : Outline level opens owns rows where
  start := by
    intro x hx
    cases rows with
    | nil => simp at hx
    | cons y rows =>
      obtain rfl : y = x := Option.some.inj hx
      exact Nat.le_zero.mp h.1
  grow := by
    suffices hchain : ∀ path : List α, Hangs level opens owns path rows →
        rows.IsChain fun a b => level b ≤ level a ∨ level b = level a + 1 ∧ opens a from hchain [] h
    clear h
    induction rows with
    | nil => intro _ _; exact .nil
    | cons x rows ih =>
      rintro path ⟨hx, -, hrows⟩
      have hlen := length_enter opens hx
      cases rows with
      | nil => exact .singleton x
      | cons y rows =>
        refine .cons_cons ?_ (ih _ hrows)
        have hy := hrows.1
        rw [hlen] at hy
        split_ifs at hy with hopen
        · by_cases hle : level y ≤ level x
          · exact .inl hle
          · exact .inr ⟨by omega, hopen⟩
        · exact .inl hy
  owned := by
    rintro p x ⟨pre, mid, post, rfl, hlevel, hmid⟩
    obtain ⟨-, hp, -, hrows⟩ := hangs_append.mp h
    obtain ⟨hhang, hx, howns, -⟩ := hangs_append.mp hrows
    have hlen := length_enter opens hp
    have hdeep : level x ≤ (enter level opens (enterAll level opens [] pre) p).length := by
      cases mid with
      | nil => exact hx
      | cons z mid => exact Nat.le_trans (hmid z List.mem_cons_self) hhang.1
    have hopen : opens p := by
      by_contra hclosed
      rw [if_neg hclosed] at hlen
      omega
    rw [if_pos hopen] at hlen
    obtain ⟨hcut, -⟩ := enterAll_below hhang hmid hdeep
    apply howns
    rw [hcut, show level x = (enter level opens (enterAll level opens [] pre) p).length by omega,
      rtake_self, enter, if_pos hopen]
    rfl

theorem hangs_map {f : β → α} {path rows : List β} : Hangs level opens owns (path.map f) (rows.map f) ↔
    Hangs (fun x => level (f x)) (fun x => opens (f x)) (fun p x => owns (f p) (f x)) path rows := by
  have hcut : ∀ (path : List β) n, (path.map f).rtake n = (path.rtake n).map f := by
    intro path n
    rw [List.rtake, List.rtake, List.length_map, List.map_drop]
  have henter : ∀ (path : List β) x, enter level opens (path.map f) (f x) =
      (enter (fun x => level (f x)) (fun x => opens (f x)) path x).map f := by
    intro path x
    simp only [enter, hcut]
    split_ifs <;> rfl
  induction rows generalizing path with
  | nil => exact Iff.rfl
  | cons x rows ih =>
    have hhead : (∀ p ∈ ((path.rtake (level (f x))).map f).head?, owns p (f x)) ↔
        ∀ p ∈ (path.rtake (level (f x))).head?, owns (f p) (f x) := by
      cases path.rtake (level (f x)) <;> simp
    simp only [List.map_cons, Hangs, henter, ih, hcut, List.length_map, hhead]

theorem hangs_map_nil {f : β → α} {rows : List β} : Hangs level opens owns [] (rows.map f) ↔
    Hangs (fun x => level (f x)) (fun x => opens (f x)) (fun p x => owns (f p) (f x)) [] rows :=
  @hangs_map _ _ level opens owns _ f [] rows

/-! ### Changes of a listing -/

/-- The rows below a row are taken away, and the row may be opened or closed. -/
theorem Hangs.cut {d' : α} (h : Hangs level opens owns path (A ++ d :: (S ++ rest)))
    (hS : ∀ z ∈ S, level d < level z) (hrest : ∀ x ∈ rest.head?, level x ≤ level d)
    (hlevel : level d' = level d)
    (howns : ∀ p ∈ ((enterAll level opens path A).rtake (level d)).head?, owns p d → owns p d') :
    Hangs level opens owns path (A ++ d' :: rest) := by
  obtain ⟨hA, hd, hpd, hrows⟩ := hangs_append.mp h
  obtain ⟨hhang, hrows⟩ := hangs_append.mp hrows
  have hd' : level d' ≤ (enterAll level opens path A).length := hlevel ▸ hd
  refine hangs_append.mpr ⟨hA, hd', ?_, ?_⟩
  · rw [hlevel]
    intro p hp
    exact howns p hp (hpd p hp)
  · have hlen := length_enter opens hd
    have hlen' := length_enter opens hd'
    have hle : level d ≤ (enter level opens (enterAll level opens path A) d).length := by
      rw [hlen]
      split_ifs <;> omega
    obtain ⟨hcut, hdeep⟩ := enterAll_below hhang (fun z hz => Nat.le_of_lt (hS z hz)) hle
    refine (hangs_congr (hcut.trans ?_) hdeep ?_ hrest).mp hrows
    · rw [rtake_enter hd (Nat.le_refl _), rtake_enter hd' (Nat.le_of_eq hlevel.symm)]
    · rw [hlen']
      split_ifs <;> omega

/-- Closed rows are put below an open row. -/
theorem Hangs.insert (h : Hangs level opens owns path (A ++ d :: (S ++ rest))) (hopen : opens d)
    (hS : ∀ z ∈ S, level d < level z) (hrest : ∀ x ∈ rest.head?, level x ≤ level d + 1)
    (hB : ∀ b ∈ B, level b = level d + 1 ∧ ¬opens b ∧ owns d b) :
    Hangs level opens owns path (A ++ d :: (S ++ (B ++ rest))) := by
  obtain ⟨hA, hd, hpd, hrows⟩ := hangs_append.mp h
  obtain ⟨hhang, hrows⟩ := hangs_append.mp hrows
  refine hangs_append.mpr ⟨hA, hd, hpd, hangs_append.mpr ⟨hhang, ?_⟩⟩
  have hlen := length_enter opens hd
  rw [if_pos hopen] at hlen
  obtain ⟨hcut, hdeep⟩ := enterAll_below (n := level d + 1) hhang hS (by omega)
  rw [← hlen, rtake_self] at hcut
  generalize enterAll level opens (enter level opens (enterAll level opens path A) d) S = low at *
  rw [enter, if_pos hopen] at hcut hlen
  clear h hA hhang
  induction B generalizing low with
  | nil => exact hrows
  | cons b B ih =>
    obtain ⟨⟨hb, hclosed, hown⟩, hB⟩ := List.forall_mem_cons.mp hB
    have hble : level b ≤ low.length := by omega
    have hcutb : low.rtake (level b) = d :: (enterAll level opens path A).rtake (level d) := by
      rw [hb, ← hlen]
      exact hcut
    refine ⟨hble, ?_, ?_⟩
    · rw [hcutb]
      intro p hp
      obtain rfl : d = p := Option.some.inj hp
      exact hown
    · rw [enter, if_neg hclosed, hcutb]
      apply ih hB
      · refine (hangs_congr ?_ hdeep (Nat.le_of_eq hlen.symm) hrest).mp hrows
        rw [← hlen, rtake_self]
        exact hcut
      · exact rtake_self
      · exact Nat.le_of_eq hlen.symm

/-- When the closed rows only are left out, what comes first is no deeper. -/
theorem Hangs.head_filter (h : Hangs level opens owns path rows) {p : α → Bool}
    (hclosed : ∀ x ∈ rows, p x = false → ¬opens x) (hrows : ∀ x ∈ rows.head?, level x ≤ n) :
    ∀ x ∈ (rows.filter p).head?, level x ≤ n := by
  induction rows generalizing path n with
  | nil => exact hrows
  | cons y rows ih =>
    obtain ⟨hy, hclosed⟩ := List.forall_mem_cons.mp hclosed
    by_cases hp : p y = true
    · rw [List.filter_cons_of_pos hp]
      exact hrows
    · rw [List.filter_cons_of_neg hp]
      obtain ⟨hle, -, h⟩ := h
      apply ih h hclosed
      intro x hx
      have hlen := length_enter opens hle
      rw [if_neg (hy (Bool.not_eq_true _ ▸ hp))] at hlen
      have hyn : level y ≤ n := hrows y rfl
      cases rows with
      | nil => simp at hx
      | cons z rows =>
        obtain rfl : z = x := Option.some.inj hx
        have hz := h.1
        omega

theorem hangs_flat (h : ∀ b ∈ B, level b = 0 ∧ ¬opens b) : Hangs level opens owns [] B := by
  induction B with
  | nil => trivial
  | cons b B ih =>
    obtain ⟨⟨hb, hclosed⟩, hB⟩ := List.forall_mem_cons.mp h
    refine ⟨Nat.le_of_eq hb, by simp [List.rtake], ?_⟩
    rw [enter, if_neg hclosed, List.rtake, List.drop_nil]
    exact ih hB

end Outline

end Kompozer

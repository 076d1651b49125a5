import Kompozer.Gfx.Intersection

/-! `SubRect`: one rectangle is subtracted from the rectangles of a list. What the loop
does to the destination is a list of insertions that does not depend on the destination;
it is found first, and the loop is shown to make these insertions. -/

namespace Kompozer.Gfx

open NsRect

/-! ### One rectangle -/

namespace NsRect

/-- `nsRect::operator==`. -/
def eq (r aRect : NsRect) : Bool := (r.isEmpty && aRect.isEmpty) || decide (r = aRect)

/-- What `SubRect` puts in place of rectangle A when rectangle B is subtracted and I is
the area where they intersect, and whether it leaves the loop then. -/
def subtract (a b i : NsRect) : List NsRect × Bool :=
  if b.x ≤ a.x ∧ b.y ≤ a.y then
    if b.xMost < a.xMost ∧ b.yMost < a.yMost then -- 1.
      ([⟨i.xMost, a.y, a.xMost - i.xMost, i.height⟩,
        ⟨a.x, i.yMost, a.width, a.yMost - i.yMost⟩], false)
    else if b.xMost ≥ a.xMost ∧ b.yMost < a.yMost then -- 2.
      ([⟨a.x, i.yMost, a.width, a.yMost - i.yMost⟩], false)
    else if b.xMost < a.xMost ∧ b.yMost ≥ a.yMost then -- 3.
      ([⟨i.xMost, a.y, a.xMost - i.xMost, a.height⟩], false)
    else if a.eq b then ([], true) -- 4.
    else ([], false)
  else if b.x > a.x ∧ b.y ≤ a.y then
    if b.xMost < a.xMost ∧ b.yMost < a.yMost then -- 5.
      ([⟨a.x, a.y, i.x - a.x, i.height⟩, ⟨i.xMost, a.y, a.xMost - i.xMost, i.height⟩,
        ⟨a.x, i.yMost, a.width, a.yMost - i.yMost⟩], false)
    else if b.xMost ≥ a.xMost ∧ b.yMost < a.yMost then -- 6.
      ([⟨a.x, a.y, i.x - a.x, i.height⟩, ⟨a.x, i.yMost, a.width, a.yMost - i.yMost⟩], false)
    else if b.xMost < a.xMost ∧ b.yMost ≥ a.yMost then -- 7.
      ([⟨a.x, a.y, i.x - a.x, a.height⟩, ⟨i.xMost, a.y, a.xMost - i.xMost, a.height⟩], false)
    else if b.xMost ≥ a.xMost ∧ b.yMost ≥ a.yMost then -- 8.
      ([⟨a.x, a.y, i.x - a.x, a.height⟩], false)
    else ([], false)
  else if b.x ≤ a.x ∧ b.y > a.y then
    if b.xMost < a.xMost ∧ b.yMost < a.yMost then -- 9.
      ([⟨a.x, a.y, a.width, i.y - a.y⟩, ⟨i.xMost, i.y, a.xMost - i.xMost, i.height⟩,
        ⟨a.x, i.yMost, a.width, a.yMost - i.yMost⟩], false)
    else if b.xMost ≥ a.xMost ∧ b.yMost < a.yMost then -- 10.
      ([⟨a.x, a.y, a.width, i.y - a.y⟩, ⟨a.x, i.yMost, a.width, a.yMost - i.yMost⟩], false)
    else if b.xMost < a.xMost ∧ b.yMost ≥ a.yMost then -- 11.
      ([⟨a.x, a.y, a.width, i.y - a.y⟩, ⟨i.xMost, i.y, a.xMost - i.xMost, i.height⟩], false)
    else if b.xMost ≥ a.xMost ∧ b.yMost ≥ a.yMost then -- 12.
      ([⟨a.x, a.y, a.width, i.y - a.y⟩], false)
    else ([], false)
  else if b.x > a.x ∧ b.y > a.y then
    if b.xMost < a.xMost ∧ b.yMost < a.yMost then -- 13.
      ([⟨a.x, a.y, a.width, i.y - a.y⟩, ⟨a.x, i.y, i.x - a.x, i.height⟩,
        ⟨i.xMost, i.y, a.xMost - i.xMost, i.height⟩,
        ⟨a.x, i.yMost, a.width, a.yMost - i.yMost⟩], true)
    else if b.xMost ≥ a.xMost ∧ b.yMost < a.yMost then -- 14.
      ([⟨a.x, a.y, a.width, i.y - a.y⟩, ⟨a.x, i.y, i.x - a.x, i.height⟩,
        ⟨a.x, i.yMost, a.width, a.yMost - i.yMost⟩], false)
    else if b.xMost < a.xMost ∧ b.yMost ≥ a.yMost then -- 15.
      ([⟨a.x, a.y, a.width, i.y - a.y⟩, ⟨a.x, i.y, i.x - a.x, i.height⟩,
        ⟨i.xMost, i.y, a.xMost - i.xMost, i.height⟩], false)
    else if b.xMost ≥ a.xMost ∧ b.yMost ≥ a.yMost then -- 16.
      ([⟨a.x, a.y, a.width, i.y - a.y⟩, ⟨a.x, i.y, i.x - a.x, i.height⟩], false)
    else ([], false)
  else ([], false)

/-- `b` is all of `a`, or lies inside it without touching its sides. -/
def Encloses (a b : NsRect) : Prop :=
  a = b ∨ a.x < b.x ∧ a.y < b.y ∧ b.xMost < a.xMost ∧ b.yMost < a.yMost

instance (a b : NsRect) : Decidable (a.Encloses b) := by
  unfold Encloses
  infer_instance

variable {a b : NsRect} {p : ℤ × ℤ}

/-- The sides of the intersection. -/
theorem intersectRect_eq {self : NsRect} (h : (intersectRect self a b).2 = true) :
    (intersectRect self a b).1 = ⟨max a.x b.x, max a.y b.y, min a.xMost b.xMost - max a.x b.x,
      min a.yMost b.yMost - max a.y b.y⟩ ∧
    0 < min a.xMost b.xMost - max a.x b.x ∧ 0 < min a.yMost b.yMost - max a.y b.y := by
  simp only [intersectRect] at h ⊢
  split_ifs at h ⊢ with hw hh
  exact ⟨rfl, not_le.mp hw, not_le.mp hh⟩

/-- The parts of `a` above `i`, to its left, to its right and below it, where `b` leaves
any. -/
def bands (a b i : NsRect) : List NsRect :=
  (if a.y < b.y then [⟨a.x, a.y, a.width, i.y - a.y⟩] else []) ++
  (if a.x < b.x then [⟨a.x, i.y, i.x - a.x, i.height⟩] else []) ++
  (if b.xMost < a.xMost then [⟨i.xMost, i.y, a.xMost - i.xMost, i.height⟩] else []) ++
  (if b.yMost < a.yMost then [⟨a.x, i.yMost, a.width, a.yMost - i.yMost⟩] else [])

/-- The sixteen cases of `SubRect` are one. -/
theorem subtract_eq {i : NsRect} (ha : a.Solid) (hiy : i.y = max a.y b.y)
    (hih : i.height = min a.yMost b.yMost - max a.y b.y) :
    a.subtract b i = (bands a b i, decide (a.Encloses b)) := by
  have heq : a.eq b = decide (a = b) := by simp [eq, solid_iff.mp ha]
  have htop : b.y ≤ a.y → i.y = a.y := fun h => by rw [hiy, max_eq_left h]
  have hside : b.y ≤ a.y → a.yMost ≤ b.yMost → i.height = a.height := by
    intro h h'
    rw [hih, max_eq_left h, min_eq_left h', yMost, add_sub_cancel_left]
  rw [subtract, bands, heq]
  unfold Encloses
  simp only [ge_iff_le, gt_iff_lt, ← not_lt] at htop hside ⊢
  clear ha hiy hih heq
  by_cases hab : a = b
  · subst hab
    simp
  · by_cases h₁ : a.x < b.x <;> by_cases h₂ : a.y < b.y <;> by_cases h₃ : b.xMost < a.xMost <;>
      by_cases h₄ : b.yMost < a.yMost <;> simp [*, -not_lt]

/-- Each point of `a` outside `b` is in one of the bands, and no other point is. -/
theorem layers_bands {self : NsRect} (h : (intersectRect self a b).2 = true) {n : ℕ}
    (hn : p ∈ a.points ∧ p ∉ b.points ∧ n = 1 ∨ ¬ (p ∈ a.points ∧ p ∉ b.points) ∧ n = 0) :
    layers points (bands a b (intersectRect self a b).1) p = n := by
  obtain ⟨hi, hw, hh⟩ := intersectRect_eq h
  clear h
  rw [hi, bands]
  simp only [layers_append, layers_ite, mem_points, xMost, yMost, add_sub_cancel, sub_pos,
    max_lt_iff, lt_max_iff, max_le_iff, lt_min_iff, min_le_iff] at *
  clear hi
  split_ifs <;> omega

theorem bands_within {self : NsRect} (ha : a.Solid) (h : (intersectRect self a b).2 = true) :
    ∀ r ∈ bands a b (intersectRect self a b).1, r.Solid ∧ a.y ≤ r.y ∧ r.yMost ≤ a.yMost := by
  obtain ⟨hi, hw, hh⟩ := intersectRect_eq h
  clear h
  rw [hi, bands]
  simp only [Solid, List.forall_mem_append, xMost, yMost, add_sub_cancel] at *
  refine ⟨⟨⟨?_, ?_⟩, ?_⟩, ?_⟩
  all_goals
    split_ifs
    · simp only [List.forall_mem_singleton]
      omega
    · simp

/-- The parts of `a` outside `b`. -/
def cut (b a : NsRect) : List NsRect :=
  let tmp := intersectRect ⟨0, 0, 0, 0⟩ a b
  if tmp.2 then bands a b tmp.1 else [a]

theorem subtract_intersectRect {self : NsRect} (ha : a.Solid)
    (h : (intersectRect self a b).2 = true) :
    a.subtract b (intersectRect self a b).1 =
      (bands a b (intersectRect self a b).1, decide (a.Encloses b)) := by
  obtain ⟨hi, -⟩ := intersectRect_eq h
  apply subtract_eq ha <;> rw [hi]

theorem layers_cut_of_mem (hp : p ∈ b.points) : layers points (cut b a) p = 0 := by
  simp only [cut]
  split_ifs with h
  · exact layers_bands h (.inr ⟨fun h => h.2 hp, rfl⟩)
  · have hnone := ((intersectRect_spec ⟨0, 0, 0, 0⟩ a b).2 (by simpa using h)).2
    have hpa : p ∉ a.points := fun hpa => (hnone ▸ Set.mem_inter hpa hp : p ∈ (∅ : Set (ℤ × ℤ)))
    rw [layers_cons, if_neg hpa, layers_nil]

theorem layers_cut_of_not_mem (hp : p ∉ b.points) :
    layers points (cut b a) p = layers points [a] p := by
  simp only [cut]
  split_ifs with h
  · apply layers_bands h
    rw [layers_cons, layers_nil]
    by_cases hpa : p ∈ a.points
    · exact .inl ⟨hpa, hp, by rw [if_pos hpa]⟩
    · exact .inr ⟨fun h => hpa h.1, by rw [if_neg hpa]⟩
  · rfl

theorem cut_of_disjoint (h : Disjoint a.points b.points) : cut b a = [a] := by
  simp only [cut]
  split_ifs with htmp
  · have hspec := (intersectRect_spec ⟨0, 0, 0, 0⟩ a b).1 htmp
    have hcorner := hspec.1.corner_mem
    rw [hspec.2.1] at hcorner
    exact absurd hcorner.2 (Set.disjoint_left.mp h hcorner.1)
  · rfl

theorem cut_within (ha : a.Solid) : ∀ r ∈ cut b a, r.Solid ∧ a.y ≤ r.y ∧ r.yMost ≤ a.yMost := by
  simp only [cut]
  split_ifs with h
  · exact bands_within ha h
  · simp [ha]

/-- A rectangle is swallowed by one that contains it. -/
theorem cut_of_contains (h : b.contains a = true) (ha : a.Solid) : cut b a = [] := by
  cases hcut : cut b a with
  | nil => rfl
  | cons r l =>
    have hr := (cut_within ha r (hcut ▸ List.mem_cons_self)).1.corner_mem
    have hpos : 0 < layers points (cut b a) (r.x, r.y) := by
      rw [hcut, layers_cons, if_pos hr]
      omega
    by_cases hp : (r.x, r.y) ∈ b.points
    · rw [layers_cut_of_mem hp] at hpos
      exact absurd hpos (Nat.lt_irrefl 0)
    · rw [layers_cut_of_not_mem hp, layers_pos, cover_cons, cover_nil, Set.union_empty] at hpos
      exact absurd (points_subset_of_contains h hpos) hp

/-- What a list of rectangles covers outside `b`. -/
theorem layers_flatMap_cut_of_mem (l : List NsRect) (hp : p ∈ b.points) :
    layers points (l.flatMap (cut b)) p = 0 := by
  induction l with
  | nil => rfl
  | cons a l ih => rw [List.flatMap_cons, layers_append, layers_cut_of_mem hp, ih]

theorem layers_flatMap_cut_of_not_mem (l : List NsRect) (hp : p ∉ b.points) :
    layers points (l.flatMap (cut b)) p = layers points l p := by
  induction l with
  | nil => rfl
  | cons a l ih =>
    rw [List.flatMap_cons, layers_append, layers_cut_of_not_mem hp, ih, ← layers_append,
      List.singleton_append]

/-- Cutting the rectangles of a list takes their points in `b` away. -/
theorem cover_flatMap_cut (b : NsRect) (l : List NsRect) :
    cover points (l.flatMap (cut b)) = cover points l \ b.points := by
  ext p
  rw [Set.mem_sdiff, ← layers_pos, ← layers_pos]
  by_cases hp : p ∈ b.points
  · simp [layers_flatMap_cut_of_mem l hp, hp]
  · simp [layers_flatMap_cut_of_not_mem l hp, hp]

theorem flatMap_cut_of_disjoint {l : List NsRect} (h : ∀ a ∈ l, Disjoint a.points b.points) :
    l.flatMap (cut b) = l := by
  induction l with
  | nil => rfl
  | cons a l ih =>
    rw [List.flatMap_cons, cut_of_disjoint (h a (by simp)), ih fun r hr => h r (by simp [hr]),
      List.singleton_append]

theorem Encloses.contains (h : a.Encloses b) : a.contains b = true := by
  rcases h with rfl | h
  · exact contains_refl a
  · exact contains_iff.mpr ⟨h.1.le, h.2.1.le, h.2.2.1.le, h.2.2.2.le⟩

end NsRect

/-! ### The loop -/

/-- The regions that `SubRect` inserts into; `none` says that `aCompleted` is `aResult`. -/
structure Sinks where
  aResult : Building
  aCompleted : Option Building
  deriving DecidableEq, Repr

namespace Sinks

def insertResult (aRect : NsRect) (s : Sinks) : Option Sinks := do
  let b ← s.aResult.insertInPlace aRect
  some { s with aResult := b }

def insertCompleted (aRect : NsRect) (s : Sinks) : Option Sinks :=
  match s.aCompleted with
  | none => s.insertResult aRect
  | some c => do
    let c ← c.insertInPlace aRect
    some { s with aCompleted := some c }

/-- One `InsertInPlace` after the other. -/
def insertAll : List NsRect → Sinks → Option Sinks
  | [], s => some s
  | r :: l, s => do
    let s ← s.insertResult r
    insertAll l s

end Sinks

/-- The loop of `SubRect` over the source, up to the rectangle where it stops. With
`freed` the storage of `aRect` was given back when the destination was emptied, and the
next rectangle that is allocated takes its place. -/
def subRectLoop (freed : Bool) (aRect : NsRect) : List NsRect → Sinks →
    Option (List NsRect × Sinks)
  | [], s => if (listHead MAX_INT32).y < aRect.yMost then none else some ([], s)
  | pSrcRect :: rest, s =>
    if pSrcRect.y < aRect.yMost then
      if pSrcRect.yMost ≤ aRect.y then do
        let s ← s.insertCompleted pSrcRect
        subRectLoop false (if freed then pSrcRect else aRect) rest s
      else
        let tmp := NsRect.intersectRect ⟨0, 0, 0, 0⟩ pSrcRect aRect
        if !tmp.2 then do
          let s ← s.insertResult pSrcRect
          subRectLoop false (if freed then pSrcRect else aRect) rest s
        else
          let parts := pSrcRect.subtract aRect tmp.1
          do
            let s ← s.insertAll parts.1
            -- the rectangle that was cut up is not skipped
            if parts.2 then some (pSrcRect :: rest, s)
            else match parts.1 with
              | [] => subRectLoop freed aRect rest s
              | first :: _ => subRectLoop false (if freed then first else aRect) rest s
    else some (pSrcRect :: rest, s)

/-- `SubRect` of the rectangles of a list. -/
def subRect (freed : Bool) (aRect : NsRect) (src : List NsRect) (aCompleted : Option Building) :
    Option Sinks := do
  let (rest, s) ← subRectLoop freed aRect src ⟨.empty, aCompleted⟩
  s.insertAll rest

/-! ### The insertions -/

namespace Sinks

/-- One insertion; the flag says that the rectangle is completed. -/
def put (e : Bool × NsRect) (s : Sinks) : Option Sinks :=
  if e.1 then s.insertCompleted e.2 else s.insertResult e.2

@[simp] theorem put_true (r : NsRect) (s : Sinks) : s.put (true, r) = s.insertCompleted r := rfl

@[simp] theorem put_false (r : NsRect) (s : Sinks) : s.put (false, r) = s.insertResult r := rfl

def putAll : List (Bool × NsRect) → Sinks → Option Sinks
  | [], s => some s
  | e :: l, s => do
    let s ← s.put e
    putAll l s

theorem putAll_append (l r : List (Bool × NsRect)) (s : Sinks) :
    s.putAll (l ++ r) = (s.putAll l).bind (putAll r) := by
  induction l generalizing s with
  | nil => rfl
  | cons e l ih =>
    rw [List.cons_append, putAll, putAll]
    cases s.put e with
    | none => rfl
    | some s => exact ih s

theorem insertAll_eq (l : List NsRect) (s : Sinks) :
    s.insertAll l = s.putAll (l.map (Prod.mk false)) := by
  induction l generalizing s with
  | nil => rfl
  | cons r l ih =>
    rw [List.map_cons, insertAll, putAll, put_false]
    cases s.insertResult r with
    | none => rfl
    | some s => exact ih s

end Sinks

/-- What `SubRect` inserts, in this order. -/
def plan (freed : Bool) (aRect : NsRect) : List NsRect → List (Bool × NsRect)
  | [] => []
  | r :: rest =>
    if r.y < aRect.yMost then
      (cut aRect r).map (Prod.mk (decide (r.yMost ≤ aRect.y))) ++
        if r.Encloses aRect then (r :: rest).map (Prod.mk false)
        else match cut aRect r with
          | [] => plan freed aRect rest
          | first :: _ => plan false (if freed then first else aRect) rest
    else (r :: rest).map (Prod.mk false)

theorem NsRect.Encloses.not_disjoint {a b : NsRect} (h : a.Encloses b) (hb : b.Solid) :
    ¬ Disjoint a.points b.points := fun hd =>
  Set.disjoint_left.mp hd (points_subset_of_contains h.contains hb.corner_mem) hb.corner_mem

/-- A rectangle that is left as it is. -/
theorem plan_cons_of_disjoint {freed : Bool} {aRect r : NsRect} (hb : aRect.Solid)
    (hd : Disjoint r.points aRect.points) (hrow : r.y < aRect.yMost) (rest : List NsRect) :
    plan freed aRect (r :: rest) = (decide (r.yMost ≤ aRect.y), r) ::
      plan false (if freed then r else aRect) rest := by
  rw [plan, if_pos hrow, if_neg fun h => h.not_disjoint hb hd, cut_of_disjoint hd]
  rfl

theorem subRectLoop_eq {freed : Bool} {aRect : NsRect} (hb : aRect.Solid)
    (hbfit : aRect.yMost ≤ MAX_INT32) {src : List NsRect}
    (hsrc : ∀ r ∈ src, r.Solid ∧ r.yMost ≤ MAX_INT32) (s : Sinks) :
    ((subRectLoop freed aRect src s).bind fun r => r.2.insertAll r.1) =
      s.putAll (plan freed aRect src) := by
  induction src generalizing freed aRect s with
  | nil =>
    have hhead : ¬ (listHead MAX_INT32).y < aRect.yMost := hbfit.not_gt
    rw [subRectLoop, if_neg hhead]
    rfl
  | cons r rest ih =>
    obtain ⟨hr, hrfit⟩ := hsrc r (by simp)
    have hrest : ∀ q ∈ rest, q.Solid ∧ q.yMost ≤ MAX_INT32 := fun q hq => hsrc q (by simp [hq])
    have hnext : ∀ q : NsRect, q.Solid ∧ q.yMost ≤ MAX_INT32 →
        (if freed then q else aRect).Solid ∧ (if freed then q else aRect).yMost ≤ MAX_INT32 := by
      intro q hq
      split_ifs
      · exact hq
      · exact ⟨hb, hbfit⟩
    have hkeep := hnext r ⟨hr, hrfit⟩
    rw [subRectLoop]
    by_cases hrow : r.y < aRect.yMost
    swap
    · rw [if_neg hrow, plan, if_neg hrow, ← Sinks.insertAll_eq]
      rfl
    rw [if_pos hrow]
    by_cases habove : r.yMost ≤ aRect.y
    · have hd : Disjoint r.points aRect.points := by
        rw [Set.disjoint_left]
        intro p hp hq
        rw [mem_points] at hp hq
        simp only [yMost] at habove
        omega
      rw [if_pos habove, plan_cons_of_disjoint hb hd hrow, decide_eq_true habove, Sinks.putAll,
        Sinks.put_true]
      cases s.insertCompleted r with
      | none => rfl
      | some s => exact ih hkeep.1 hkeep.2 hrest s
    rw [if_neg habove]
    dsimp only
    cases htmp : (intersectRect ⟨0, 0, 0, 0⟩ r aRect).2 with
    | false =>
      have hd : Disjoint r.points aRect.points := Set.disjoint_iff_inter_eq_empty.mpr
        ((intersectRect_spec ⟨0, 0, 0, 0⟩ r aRect).2 htmp).2
      rw [Bool.not_false, if_pos rfl, plan_cons_of_disjoint hb hd hrow, decide_eq_false habove, Sinks.putAll,
        Sinks.put_false]
      cases s.insertResult r with
      | none => rfl
      | some s => exact ih hkeep.1 hkeep.2 hrest s
    | true =>
      have hcut : cut aRect r = bands r aRect (intersectRect ⟨0, 0, 0, 0⟩ r aRect).1 := by
        simp only [cut, htmp, if_true]
      have hwithin := cut_within (b := aRect) hr
      rw [Bool.not_true, if_neg Bool.false_ne_true, subtract_intersectRect hr htmp, ← hcut, plan,
        if_pos hrow, decide_eq_false habove, Sinks.putAll_append, ← Sinks.insertAll_eq]
      dsimp only
      cases s.insertAll (cut aRect r) with
      | none => rfl
      | some s =>
        by_cases henc : r.Encloses aRect
        · rw [if_pos henc]
          simp only [decide_eq_true henc, if_true, Option.bind_eq_bind, Option.bind_some]
          exact Sinks.insertAll_eq (r :: rest) s
        · rw [if_neg henc]
          simp only [decide_eq_false henc, Bool.false_eq_true, if_false, Option.bind_eq_bind,
            Option.bind_some]
          cases hparts : cut aRect r with
          | nil => exact ih hb hbfit hrest s
          | cons first l =>
            have hfirst := hwithin first (hparts ▸ List.mem_cons_self)
            obtain ⟨h₁, h₂⟩ := hnext first ⟨hfirst.1, hfirst.2.2.trans hrfit⟩
            exact ih h₁ h₂ hrest s

theorem subRect_eq {freed : Bool} {aRect : NsRect} (hb : aRect.Solid)
    (hbfit : aRect.yMost ≤ MAX_INT32) {src : List NsRect}
    (hsrc : ∀ r ∈ src, r.Solid ∧ r.yMost ≤ MAX_INT32) (aCompleted : Option Building) :
    subRect freed aRect src aCompleted =
      Sinks.putAll (plan freed aRect src) ⟨.empty, aCompleted⟩ :=
  subRectLoop_eq hb hbfit hsrc _

end Kompozer.Gfx

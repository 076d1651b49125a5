import Mathlib.Data.List.Basic
import Mathlib.Data.List.Nodup
import Mathlib.Tactic.Common

/-! Lists read through a cursor, and their zones. Some entries are marked and some are bars. Two
marked entries that follow each other share a zone when they are related and no bar stands between
them. The zones hold the marked entries in their order. -/

namespace Kompozer

variable {α : Type*}

/-! ### Cursors -/

/-- An entry of a list, with what stands before it (the nearest first) and after it. -/
structure Place (α : Type*) where
  before : List α
  node : α
  after : List α

namespace Place

/-- The places from the given one to the back. -/
def aheadFrom (before : List α) (node : α) : List α → List (Place α)
  | [] => [⟨before, node, []⟩]
  | a :: as => ⟨before, node, a :: as⟩ :: aheadFrom (node :: before) a as

/-- The places from the given one to the front. -/
def backFrom (node : α) (after : List α) : List α → List (Place α)
  | [] => [⟨[], node, after⟩]
  | b :: bs => ⟨b :: bs, node, after⟩ :: backFrom b (node :: after) bs

def ahead (p : Place α) : List (Place α) := aheadFrom p.before p.node p.after

def back (p : Place α) : List (Place α) := backFrom p.node p.after p.before

def next (p : Place α) : Option (Place α) :=
  match p.after with
  | [] => none
  | a :: as => some ⟨p.node :: p.before, a, as⟩

def prev (p : Place α) : Option (Place α) :=
  match p.before with
  | [] => none
  | b :: bs => some ⟨bs, b, p.node :: p.after⟩

/-- The places in front of the cursor, the nearest first. -/
def behind (p : Place α) : List (Place α) := p.prev.elim [] back

/-- The places behind the cursor. -/
def beyond (p : Place α) : List (Place α) := p.next.elim [] ahead

theorem back_eq (p : Place α) : p.back = p :: p.behind := by
  obtain ⟨before, node, after⟩ := p
  cases before <;> rfl

theorem ahead_eq (p : Place α) : p.ahead = p :: p.beyond := by
  obtain ⟨before, node, after⟩ := p
  cases after <;> rfl

@[simp] theorem map_ahead (p : Place α) : p.ahead.map node = p.node :: p.after := by
  obtain ⟨before, n, after⟩ := p
  simp only [ahead]
  induction after generalizing before n with
  | nil => rfl
  | cons a as ih => rw [aheadFrom, List.map_cons, ih]

@[simp] theorem map_beyond (p : Place α) : p.beyond.map node = p.after := by
  have h := p.map_ahead
  rw [ahead_eq, List.map_cons] at h
  exact (List.cons.inj h).2

/-- A place ahead has the places in between behind it. -/
theorem split_ahead {p q : Place α} {l r : List (Place α)} (h : p.ahead = l ++ q :: r) :
    q.beyond = r ∧ q.behind = l.reverse ++ p.behind := by
  induction l generalizing p with
  | nil =>
    rw [ahead_eq, List.nil_append] at h
    obtain ⟨rfl, rfl⟩ := List.cons.inj h
    exact ⟨rfl, rfl⟩
  | cons a l ih =>
    rw [ahead_eq, List.cons_append] at h
    obtain ⟨rfl, hb⟩ := List.cons.inj h
    obtain ⟨before, n, after⟩ := p
    cases after with
    | nil => simp [beyond, next] at hb
    | cons b bs =>
      obtain ⟨hr, hl⟩ := ih (p := ⟨n :: before, b, bs⟩) hb
      refine ⟨hr, hl.trans ?_⟩
      rw [List.reverse_cons, List.append_assoc, List.singleton_append, ← back_eq]
      rfl

/-- The same for a place beyond the given one. -/
theorem split_beyond {p q : Place α} {l r : List (Place α)} (h : p.beyond = l ++ q :: r) :
    q.beyond = r ∧ q.behind = l.reverse ++ p.back := by
  have hs := split_ahead (p := p) (l := p :: l) (r := r) (q := q) (by rw [ahead_eq, h]; rfl)
  rw [List.reverse_cons, List.append_assoc, List.singleton_append, ← back_eq] at hs
  exact hs

/-- Places behind, the same way. -/
theorem split_back {p q : Place α} {l r : List (Place α)} (h : p.back = l ++ q :: r) :
    q.behind = r := by
  induction l generalizing p with
  | nil =>
    rw [back_eq, List.nil_append] at h
    obtain ⟨rfl, rfl⟩ := List.cons.inj h
    rfl
  | cons a l ih =>
    rw [back_eq, List.cons_append] at h
    obtain ⟨rfl, hb⟩ := List.cons.inj h
    obtain ⟨before, n, after⟩ := p
    cases before with
    | nil => simp [behind, prev] at hb
    | cons b bs => exact ih (p := ⟨bs, b, n :: after⟩) hb

theorem split_behind {p q : Place α} {l r : List (Place α)} (h : p.behind = l ++ q :: r) :
    q.behind = r :=
  split_back (p := p) (l := p :: l) (by rw [back_eq, h]; rfl)

end Place

/-! ### Zones -/

namespace Zones

variable (mark bar : α → Bool) (same : α → α → Bool)

/-- Whether the next marked entry shares the zone of the given one. -/
def joined (x : α) : List α → Bool
  | [] => false
  | y :: l => if mark y then same x y else if bar y then false else joined x l

/-- Put in front of the first list. -/
def consHead (x : α) : List (List α) → List (List α)
  | [] => [[x]]
  | z :: zs => (x :: z) :: zs

/-- The marked entries, cut into zones. -/
def zones : List α → List (List α)
  | [] => []
  | x :: l =>
    if mark x then if joined mark bar same x l then consHead x (zones l) else [x] :: zones l
    else zones l

/-- The rest of the zone of a marked entry. -/
def body (x : α) : List α → List α
  | [] => []
  | y :: l =>
    if mark y then if same x y then y :: body y l else []
    else if bar y then [] else body x l

variable {mark bar same} {x y : α} {l : List α}

theorem joined_mark (hy : mark y = true) : joined mark bar same x (y :: l) = same x y := by
  rw [joined, if_pos hy]

theorem joined_other (hy : mark y = false) :
    joined mark bar same x (y :: l) = if bar y then false else joined mark bar same x l := by
  rw [joined, if_neg (by simp [hy])]

theorem body_mark (hy : mark y = true) :
    body mark bar same x (y :: l) = if same x y then y :: body mark bar same y l else [] := by
  rw [body, if_pos hy]

theorem body_other (hy : mark y = false) :
    body mark bar same x (y :: l) = if bar y then [] else body mark bar same x l := by
  rw [body, if_neg (by simp [hy])]

@[simp] theorem flatten_consHead (x : α) (zs : List (List α)) :
    (consHead x zs).flatten = x :: zs.flatten := by
  cases zs <;> rfl

/-- The zones hold the marked entries, each once and in their order. -/
theorem flatten_zones (l : List α) : (zones mark bar same l).flatten = l.filter mark := by
  induction l with
  | nil => rfl
  | cons x l ih =>
    rw [zones]
    split_ifs with hx hj
    · rw [flatten_consHead, ih, List.filter_cons_of_pos hx]
    · rw [List.flatten_cons, ih, List.filter_cons_of_pos hx]
      rfl
    · rw [ih, List.filter_cons_of_neg hx]

theorem zones_of_unmarked {m : List α} (hm : ∀ a ∈ m, mark a = false) :
    zones mark bar same (m ++ l) = zones mark bar same l := by
  induction m with
  | nil => rfl
  | cons a m ih =>
    rw [List.cons_append, zones, if_neg (by simp [hm a])]
    exact ih fun b hb => hm b (List.mem_cons_of_mem _ hb)

/-- Up to the next marked entry. -/
theorem joined_append {m : List α} (hm : ∀ a ∈ m, mark a = false) (hy : mark y = true) :
    joined mark bar same x (m ++ y :: l) = (same x y && m.all fun a => !bar a) := by
  induction m with
  | nil => simp [joined, hy]
  | cons a m ih =>
    have ih := ih fun b hb => hm b (List.mem_cons_of_mem _ hb)
    rw [List.cons_append, joined_other (hm a List.mem_cons_self), ih, List.all_cons]
    cases bar a
    · rw [if_neg Bool.false_ne_true, Bool.not_false, Bool.true_and]
    · rw [if_pos rfl, Bool.not_true, Bool.false_and, Bool.and_false]

/-- The zone of the first marked entry begins with it. -/
theorem exists_zones (hx : mark x = true) (l : List α) :
    ∃ z zs, zones mark bar same (x :: l) = (x :: z) :: zs := by
  rw [zones, if_pos hx]
  split_ifs
  · cases zones mark bar same l with
    | nil => exact ⟨[], [], rfl⟩
    | cons z zs => exact ⟨z, zs, rfl⟩
  · exact ⟨[], _, rfl⟩

/-- What stands in front adds zones and lengthens the first zone. -/
theorem zones_append (a : List α) {z : List α} {zs : List (List α)}
    (h : zones mark bar same (x :: l) = z :: zs) :
    ∃ p q, zones mark bar same (a ++ x :: l) = p ++ (q ++ z) :: zs := by
  induction a with
  | nil => exact ⟨[], [], h⟩
  | cons b a ih =>
    obtain ⟨p, q, ih⟩ := ih
    rw [List.cons_append, zones, ih]
    split_ifs with hb hj
    · cases p with
      | nil => exact ⟨[], b :: q, rfl⟩
      | cons w p => exact ⟨(b :: w) :: p, q, rfl⟩
    · exact ⟨[b] :: p, q, rfl⟩
    · exact ⟨p, q, rfl⟩

/-- Two marked entries that follow each other share a zone exactly when they are joined. -/
theorem mem_zone_iff {a m b : List α} (hl : (a ++ x :: (m ++ y :: b)).Nodup) (hx : mark x = true)
    (hy : mark y = true) (hm : ∀ c ∈ m, mark c = false) :
    (∃ z ∈ zones mark bar same (a ++ x :: (m ++ y :: b)), x ∈ z ∧ y ∈ z) ↔
      same x y = true ∧ ∀ c ∈ m, bar c = false := by
  obtain ⟨z, zs, hz⟩ : ∃ z zs, zones mark bar same (y :: b) = (y :: z) :: zs := exists_zones hy b
  have hbar : joined mark bar same x (m ++ y :: b) = true ↔
      same x y = true ∧ ∀ c ∈ m, bar c = false := by
    rw [joined_append hm hy]
    simp
  have hcons : zones mark bar same (x :: (m ++ y :: b)) =
      if joined mark bar same x (m ++ y :: b) then (x :: y :: z) :: zs
      else [x] :: (y :: z) :: zs := by
    rw [zones, if_pos hx, zones_of_unmarked hm, hz]
    rfl
  rw [← hbar]
  by_cases hj : joined mark bar same x (m ++ y :: b) = true
  · rw [if_pos hj] at hcons
    obtain ⟨p, q, hp⟩ := zones_append a hcons
    refine iff_of_true ⟨q ++ x :: y :: z, ?_, by simp, by simp⟩ hj
    rw [hp]
    simp
  · rw [if_neg hj] at hcons
    obtain ⟨p, q, hp⟩ := zones_append a hcons
    refine iff_of_false ?_ hj
    rintro ⟨w, hw, hxw, hyw⟩
    have hnd : (zones mark bar same (a ++ x :: (m ++ y :: b))).flatten.Nodup := by
      rw [flatten_zones]
      exact hl.filter _
    rw [hp] at hw hnd
    have hxz : x ∉ (y :: z) ++ zs.flatten := by
      intro hmem
      simp only [List.flatten_append, List.flatten_cons, List.append_assoc] at hnd
      have := (List.nodup_append.mp (List.nodup_append.mp hnd).2.1).2.1
      simp only [List.singleton_append, List.nodup_cons] at this
      exact this.1 (by simpa using hmem)
    have hyp : y ∉ p.flatten ++ (q ++ [x]) := by
      intro hmem
      rw [List.flatten_append, List.flatten_cons, ← List.append_assoc] at hnd
      exact (List.nodup_append.mp hnd).2.2 y hmem y (by simp) rfl
    rcases List.mem_append.mp hw with hw | hw
    · exact hyp (List.mem_append_left _ (List.mem_flatten.mpr ⟨w, hw, hyw⟩))
    · rcases List.mem_cons.mp hw with rfl | hw
      · exact hyp (List.mem_append_right _ hyw)
      · exact hxz (List.mem_flatten.mpr ⟨w, hw, hxw⟩)

end Zones

end Kompozer

import Mathlib

/-! Functions that compare two values by a number below, at or above zero, as those of C do. Such a
function belongs to a total preorder when it compares as a linear order of some ranks does. -/

namespace Kompozer

variable {α β κ μ : Type*} [LinearOrder κ] [LinearOrder μ]

/-- A function that compares as the ranks of the values compare. -/
structure Ranks (cmp : α → α → ℤ) (rank : α → κ) : Prop where
  lt : ∀ a b, cmp a b < 0 ↔ rank a < rank b
  eq : ∀ a b, cmp a b = 0 ↔ rank a = rank b

namespace Ranks
variable {cmp : α → α → ℤ} {rank : α → κ}

theorem gt (h : Ranks cmp rank) (a b : α) : 0 < cmp a b ↔ rank b < rank a := by
  rw [← not_le, le_iff_lt_or_eq, h.lt, h.eq, ← le_iff_lt_or_eq, not_le]

theorem le (h : Ranks cmp rank) (a b : α) : cmp a b ≤ 0 ↔ rank a ≤ rank b := by
  rw [← not_lt, h.gt, not_lt]

theorem refl (h : Ranks cmp rank) (a : α) : cmp a a = 0 := (h.eq a a).mpr rfl

theorem trans (h : Ranks cmp rank) {a b c : α} (hab : cmp a b ≤ 0) (hbc : cmp b c ≤ 0) :
    cmp a c ≤ 0 :=
  (h.le a c).mpr (((h.le a b).mp hab).trans ((h.le b c).mp hbc))

theorem swap (h : Ranks cmp rank) (a b : α) : (cmp a b).sign = -(cmp b a).sign := by
  rcases lt_trichotomy (rank a) (rank b) with hlt | heq | hgt
  · rw [Int.sign_eq_neg_one_of_neg ((h.lt a b).mpr hlt),
      Int.sign_eq_one_of_pos ((h.gt b a).mpr hlt)]
  · rw [(h.eq a b).mpr heq, (h.eq b a).mpr heq.symm, Int.sign_zero, neg_zero]
  · rw [Int.sign_eq_one_of_pos ((h.gt a b).mpr hgt),
      Int.sign_eq_neg_one_of_neg ((h.lt b a).mpr hgt), neg_neg]

/-- Values of one rank compare alike. -/
theorem congr (h : Ranks cmp rank) {a a' : α} (heq : rank a = rank a') (b : α) :
    (cmp a b).sign = (cmp a' b).sign := by
  rcases lt_trichotomy (rank a) (rank b) with hlt | heq' | hgt
  · rw [Int.sign_eq_neg_one_of_neg ((h.lt a b).mpr hlt),
      Int.sign_eq_neg_one_of_neg ((h.lt a' b).mpr (heq ▸ hlt))]
  · rw [(h.eq a b).mpr heq', (h.eq a' b).mpr (heq ▸ heq')]
  · rw [Int.sign_eq_one_of_pos ((h.gt a b).mpr hgt),
      Int.sign_eq_one_of_pos ((h.gt a' b).mpr (heq ▸ hgt))]

theorem tie (h : Ranks cmp rank) {a a' : α} (heq : cmp a a' = 0) (b : α) :
    (cmp a b).sign = (cmp a' b).sign := h.congr ((h.eq a a').mp heq) b

theorem comap (h : Ranks cmp rank) (f : β → α) : Ranks (fun a b => cmp (f a) (f b)) (rank ∘ f) :=
  ⟨fun a b => h.lt (f a) (f b), fun a b => h.eq (f a) (f b)⟩

/-- The comparison decides, and where it does not, something else. -/
theorem ifTie (h : Ranks cmp rank) (a b : α) {other : ℤ} {below same : Prop}
    (hbelow : other < 0 ↔ below) (hsame : other = 0 ↔ same) :
    ((if cmp a b ≠ 0 then cmp a b else other) < 0 ↔
        rank a < rank b ∨ rank a = rank b ∧ below) ∧
      ((if cmp a b ≠ 0 then cmp a b else other) = 0 ↔ rank a = rank b ∧ same) := by
  rw [← h.lt, ← h.eq, ← hbelow, ← hsame]
  split_ifs with hne
  · exact ⟨⟨.inl, fun hor => hor.resolve_right fun hand => hne hand.1⟩,
      fun heq => absurd heq hne, fun hand => hand.1⟩
  · have heq := not_not.mp hne
    exact ⟨⟨fun hlt => .inr ⟨heq, hlt⟩, fun hor => (hor.resolve_left heq.not_lt).2⟩,
      fun hzero => ⟨heq, hzero⟩, fun hand => hand.2⟩

/-- One comparison after the other. -/
theorem thenBy {cmp' : α → α → ℤ} {rank' : α → μ} (h : Ranks cmp rank) (h' : Ranks cmp' rank') :
    Ranks (fun a b => if cmp a b ≠ 0 then cmp a b else cmp' a b)
      (fun a => toLex (rank a, rank' a)) := by
  constructor <;> intro a b
  · rw [Prod.Lex.toLex_lt_toLex]
    exact (h.ifTie a b (h'.lt a b) (h'.eq a b)).1
  · rw [toLex_inj, Prod.mk.injEq]
    exact (h.ifTie a b (h'.lt a b) (h'.eq a b)).2

end Ranks

/-- A missing value comes after every other. -/
def absentLast (cmp : α → α → ℤ) : Option α → Option α → ℤ
  | none, b => if b.isSome then 1 else 0
  | some _, none => -1
  | some a, some b => cmp a b

theorem Ranks.absentLast {cmp : α → α → ℤ} {rank : α → κ} (h : Ranks cmp rank) :
    Ranks (absentLast cmp) (fun a => a.elim (⊤ : WithTop κ) fun a => rank a) := by
  constructor <;> intro a b <;> cases a <;> cases b
  · exact iff_of_false (lt_irrefl 0) (lt_irrefl _)
  · exact iff_of_false (by decide : ¬ (1 : ℤ) < 0) not_top_lt
  · exact iff_of_true (by decide : (-1 : ℤ) < 0) (WithTop.coe_lt_top _)
  · exact (h.lt _ _).trans WithTop.coe_lt_coe.symm
  · exact iff_of_true rfl rfl
  · exact iff_of_false (by decide : (1 : ℤ) ≠ 0) WithTop.top_ne_coe
  · exact iff_of_false (by decide : (-1 : ℤ) ≠ 0) WithTop.coe_ne_top
  · exact (h.eq _ _).trans WithTop.coe_inj.symm

/-- Lists, element after element, where what ends first comes first. -/
def compareLists (cmp : α → α → ℤ) : List α → List α → ℤ
  | [], b => if b.isEmpty then 0 else -1
  | _ :: _, [] => 1
  | a :: as, b :: bs => if cmp a b ≠ 0 then cmp a b else compareLists cmp as bs

theorem Ranks.lists {cmp : α → α → ℤ} {rank : α → κ} (h : Ranks cmp rank) :
    Ranks (compareLists cmp) (List.map rank) := by
  have hboth (as bs : List α) :
      (compareLists cmp as bs < 0 ↔ as.map rank < bs.map rank) ∧
      (compareLists cmp as bs = 0 ↔ as.map rank = bs.map rank) := by
    induction as generalizing bs with
    | nil =>
      cases bs with
      | nil => exact ⟨iff_of_false (lt_irrefl 0) (lt_irrefl _), iff_of_true rfl rfl⟩
      | cons b bs =>
        exact ⟨iff_of_true (by decide : (-1 : ℤ) < 0) List.Lex.nil,
          iff_of_false (by decide : (-1 : ℤ) ≠ 0) (List.cons_ne_nil _ _).symm⟩
    | cons a as ih =>
      cases bs with
      | nil =>
        exact ⟨iff_of_false (by decide : ¬ (1 : ℤ) < 0) (List.not_lt_nil _),
          iff_of_false (by decide : (1 : ℤ) ≠ 0) (List.cons_ne_nil _ _)⟩
      | cons b bs =>
        rw [List.map_cons, List.map_cons, List.cons_lt_cons_iff, List.cons.injEq, compareLists]
        exact h.ifTie a b (ih bs).1 (ih bs).2
  exact ⟨fun as bs => (hboth as bs).1, fun as bs => (hboth as bs).2⟩

/-! ### Sequences -/

section Sequences
variable {f g : ℕ → κ}

theorem toLex_lt_iff : toLex f < toLex g ↔
    f 0 < g 0 ∨ f 0 = g 0 ∧ toLex (fun n => f (n + 1)) < toLex (fun n => g (n + 1)) := by
  constructor
  · rintro ⟨i, heq, hlt⟩
    cases i with
    | zero => exact .inl hlt
    | succ i => exact .inr ⟨heq 0 i.succ_pos, i, fun j hj => heq (j + 1) (Nat.succ_lt_succ hj), hlt⟩
  · rintro (hlt | ⟨hzero, i, heq, hlt⟩)
    · exact ⟨0, fun j hj => absurd hj j.not_lt_zero, hlt⟩
    · refine ⟨i + 1, fun j hj => ?_, hlt⟩
      cases j with
      | zero => exact hzero
      | succ j => exact heq j (Nat.lt_of_succ_lt_succ hj)

omit [LinearOrder κ] in
theorem toLex_eq_iff : toLex f = toLex g ↔
    f 0 = g 0 ∧ toLex (fun n => f (n + 1)) = toLex (fun n => g (n + 1)) := by
  rw [toLex_inj, toLex_inj, funext_iff, funext_iff]
  constructor
  · exact fun heq => ⟨heq 0, fun n => heq (n + 1)⟩
  · rintro ⟨hzero, hsucc⟩ n
    cases n with
    | zero => exact hzero
    | succ n => exact hsucc n

end Sequences

end Kompozer

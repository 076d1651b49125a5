import Mathlib.Data.List.Basic
import Mathlib.Data.Nat.Notation
import Mathlib.Logic.Function.Iterate
import Mathlib.Tactic.Common

/-! Linear histories over any kind of step. A walk follows a list of steps from
one state to another. A timeline holds the present state, the steps that led to
it with the state before each, and the undone steps with the state after each;
undo and redo move the present along it and a new step forgets the future. -/

namespace Kompozer

universe u v

section Walk
variable {X : Type u} {S : Type v}

/-- The steps lead from the first state to the second. -/
def Walk (step : X → S → S → Prop) : List X → S → S → Prop
  | [], a, b => a = b
  | x :: xs, a, c => ∃ b, step x a b ∧ Walk step xs b c

namespace Walk
variable {step : X → S → S → Prop}

@[simp] theorem nil_iff {a b : S} : Walk step [] a b ↔ a = b := Iff.rfl

@[simp] theorem cons_iff {x : X} {xs : List X} {a c : S} :
    Walk step (x :: xs) a c ↔ ∃ b, step x a b ∧ Walk step xs b c := Iff.rfl

theorem append_iff {xs ys : List X} {a c : S} :
    Walk step (xs ++ ys) a c ↔ ∃ b, Walk step xs a b ∧ Walk step ys b c := by
  induction xs generalizing a with
  | nil => simp
  | cons x xs ih =>
    simp only [List.cons_append, cons_iff, ih]
    constructor
    · rintro ⟨p, hx, q, hxs, hys⟩
      exact ⟨q, ⟨p, hx, hxs⟩, hys⟩
    · rintro ⟨q, ⟨p, hx, hxs⟩, hys⟩
      exact ⟨p, hx, q, hxs, hys⟩

/-- A walk taken backwards. -/
theorem reverse_iff {xs : List X} {a b : S} :
    Walk step xs.reverse a b ↔ Walk (fun x p q => step x q p) xs b a := by
  induction xs generalizing b with
  | nil => simp [eq_comm]
  | cons x xs ih =>
    simp only [List.reverse_cons, append_iff, cons_iff, nil_iff, ih]
    constructor
    · rintro ⟨p, hp, q, hq, rfl⟩
      exact ⟨p, hq, hp⟩
    · rintro ⟨p, hp, hw⟩
      exact ⟨p, hw, b, hp, rfl⟩

end Walk
end Walk

/-- The present, the steps before it, the latest first, each with the state before
it, and the undone steps, the next first, each with the state after it. -/
structure Timeline (X : Type u) (S : Type v) where
  past : List (X × S)
  now : S
  future : List (X × S)

namespace Timeline
variable {X : Type u} {S : Type v}

/-- Go back over the latest step. -/
def undo : Timeline X S → Timeline X S
  | ⟨(x, before) :: past, now, future⟩ => ⟨past, before, (x, now) :: future⟩
  | t => t

/-- Go forward over the next undone step. -/
def redo : Timeline X S → Timeline X S
  | ⟨past, now, (x, after) :: future⟩ => ⟨(x, now) :: past, after, future⟩
  | t => t

/-- Take a new step from the present to the given state. -/
def record (x : X) (after : S) (t : Timeline X S) : Timeline X S :=
  ⟨(x, t.now) :: t.past, after, []⟩

theorem undo_of_past_nil {t : Timeline X S} (h : t.past = []) : t.undo = t := by
  obtain ⟨past, now, future⟩ := t
  subst h
  rfl

theorem redo_of_future_nil {t : Timeline X S} (h : t.future = []) : t.redo = t := by
  obtain ⟨past, now, future⟩ := t
  subst h
  rfl

theorem redo_undo {t : Timeline X S} (h : t.past ≠ []) : t.undo.redo = t := by
  obtain ⟨_ | ⟨⟨x, before⟩, past⟩, now, future⟩ := t
  · exact absurd rfl h
  · rfl

theorem past_undo (t : Timeline X S) : t.undo.past = t.past.tail := by
  obtain ⟨_ | ⟨⟨x, before⟩, past⟩, now, future⟩ := t <;> rfl

private theorem redo_iterate_undo_iterate_of_le (k : ℕ) (t : Timeline X S)
    (h : k ≤ t.past.length) : redo^[k] (undo^[k] t) = t := by
  induction k generalizing t with
  | zero => rfl
  | succ k ih =>
    have hne : t.past ≠ [] := by
      rintro h0
      simp [h0] at h
    have hk : k ≤ t.undo.past.length := by
      rw [past_undo, List.length_tail]
      omega
    rw [Function.iterate_succ_apply' redo, Function.iterate_succ_apply undo, ih _ hk, redo_undo hne]

theorem past_undo_iterate (k : ℕ) (t : Timeline X S) : (undo^[k] t).past = t.past.drop k := by
  induction k generalizing t with
  | zero => rfl
  | succ k ih => rw [Function.iterate_succ_apply, ih, past_undo, List.drop_tail]

/-- What was undone can be redone; past the beginning there is nothing to undo, and
the same number of redos is too many only when there were undone steps before. -/
theorem redo_iterate_undo_iterate (k : ℕ) (t : Timeline X S)
    (h : k ≤ t.past.length ∨ t.future = []) : redo^[k] (undo^[k] t) = t := by
  rcases Nat.lt_or_ge t.past.length k with hk | hk
  · have hfuture : t.future = [] := h.resolve_left (by omega)
    obtain ⟨j, rfl⟩ := Nat.exists_eq_add_of_le' (Nat.le_of_lt hk)
    have hnil : (undo^[t.past.length] t).past = [] := by simp [past_undo_iterate]
    rw [Function.iterate_add_apply undo, Function.iterate_fixed (undo_of_past_nil hnil),
      Function.iterate_add_apply redo, redo_iterate_undo_iterate_of_le _ _ (Nat.le_refl _),
      Function.iterate_fixed (redo_of_future_nil hfuture)]
  · exact redo_iterate_undo_iterate_of_le k t hk

/-- The latest steps, undone one after the other, lead back to the start. -/
def Back (step : X → S → S → Prop) : List (X × S) → S → S → Prop
  | [], start, now => start = now
  | (x, before) :: past, start, now => step x before now ∧ Back step past start before

/-- The undone steps lead on. -/
def Ahead (step : X → S → S → Prop) : List (X × S) → S → Prop
  | [], _ => True
  | (x, after) :: future, now => step x now after ∧ Ahead step future after

/-- The recorded states are those the steps go through. -/
structure Sound (step : X → S → S → Prop) (start : S) (t : Timeline X S) : Prop where
  back : Back step t.past start t.now
  ahead : Ahead step t.future t.now

namespace Sound
variable {step : X → S → S → Prop} {start : S} {t : Timeline X S}

theorem init (start : S) : Sound step start ⟨[], start, []⟩ := ⟨rfl, trivial⟩

theorem undo (h : t.Sound step start) : t.undo.Sound step start := by
  obtain ⟨_ | ⟨⟨x, before⟩, past⟩, now, future⟩ := t
  · exact h
  · exact ⟨h.back.2, h.back.1, h.ahead⟩

theorem redo (h : t.Sound step start) : t.redo.Sound step start := by
  obtain ⟨past, now, _ | ⟨⟨x, after⟩, future⟩⟩ := t
  · exact h
  · exact ⟨⟨h.ahead.1, h.back⟩, h.ahead.2⟩

theorem record (h : t.Sound step start) {x : X} {after : S} (hx : step x t.now after) :
    (t.record x after).Sound step start :=
  ⟨⟨hx, h.back⟩, trivial⟩

/-- At the beginning of a timeline the present is its start. -/
theorem now_of_past_nil (h : t.Sound step start) (hp : t.past = []) : t.now = start := by
  have hback := h.back
  rw [hp] at hback
  exact hback.symm

end Sound

/-- Every recorded state has the property. -/
structure All (P : S → Prop) (t : Timeline X S) : Prop where
  past : ∀ e ∈ t.past, P e.2
  now : P t.now
  future : ∀ e ∈ t.future, P e.2

namespace All
variable {P : S → Prop} {t : Timeline X S}

theorem undo (h : t.All P) : t.undo.All P := by
  obtain ⟨_ | ⟨⟨x, before⟩, past⟩, now, future⟩ := t
  · exact h
  · obtain ⟨hbefore, hpast⟩ := List.forall_mem_cons.mp h.past
    exact ⟨hpast, hbefore, List.forall_mem_cons.mpr ⟨h.now, h.future⟩⟩

theorem redo (h : t.All P) : t.redo.All P := by
  obtain ⟨past, now, _ | ⟨⟨x, after⟩, future⟩⟩ := t
  · exact h
  · obtain ⟨hafter, hfuture⟩ := List.forall_mem_cons.mp h.future
    exact ⟨List.forall_mem_cons.mpr ⟨h.now, h.past⟩, hafter, hfuture⟩

theorem record (h : t.All P) (x : X) {after : S} (hafter : P after) : (t.record x after).All P :=
  ⟨List.forall_mem_cons.mpr ⟨h.now, h.past⟩, hafter, fun _ he => absurd he (List.not_mem_nil)⟩

end All
end Timeline

end Kompozer

import Mathlib.Data.Fintype.EquivFin
import Mathlib.Data.Nat.GCD.Basic
import Mathlib.Data.Nat.ModEq
import Mathlib.Tactic.Common
import Mathlib.Tactic.Ring
import Mathlib.Tactic.SplitIfs

/-! Probes of a table with a step that is prime to its size, and the entries of a list one place of
which is written over. -/

namespace Kompozer

/-! ### Probes -/

section Probe
variable {n d : ℕ} {s : ℕ → ℕ}

theorem probe_eq (h0 : s 0 < n) (hs : ∀ j, s (j + 1) = (s j + d) % n) (j : ℕ) :
    s j = (s 0 + j * d) % n := by
  induction j with
  | zero => rw [Nat.zero_mul, Nat.add_zero, Nat.mod_eq_of_lt h0]
  | succ j ih =>
    rw [hs, ih, Nat.mod_add_mod]
    congr 1
    ring

theorem probe_lt (h0 : s 0 < n) (hs : ∀ j, s (j + 1) = (s j + d) % n) (j : ℕ) : s j < n := by
  rw [probe_eq h0 hs]
  exact Nat.mod_lt _ (Nat.zero_lt_of_lt h0)

/-- The first `n` probes are different places. -/
theorem probe_injective (h0 : s 0 < n) (hs : ∀ j, s (j + 1) = (s j + d) % n) (hd : Nat.Coprime n d)
    {i j : ℕ} (hi : i < n) (hj : j < n) (h : s i = s j) : i = j := by
  rw [probe_eq h0 hs i, probe_eq h0 hs j] at h
  have hmul : i * d ≡ j * d [MOD n] := Nat.ModEq.add_left_cancel' (s 0) h
  have hmod : i ≡ j [MOD n] := Nat.ModEq.cancel_right_of_coprime hd hmul
  rwa [Nat.ModEq, Nat.mod_eq_of_lt hi, Nat.mod_eq_of_lt hj] at hmod

/-- Every place is probed. -/
theorem exists_probe (h0 : s 0 < n) (hs : ∀ j, s (j + 1) = (s j + d) % n) (hd : Nat.Coprime n d)
    {i : ℕ} (hi : i < n) : ∃ j < n, s j = i := by
  have hinj : Function.Injective fun j : Fin n => (⟨s j, probe_lt h0 hs j⟩ : Fin n) := by
    intro a b hab
    exact Fin.ext (probe_injective h0 hs hd a.isLt b.isLt (Fin.mk.inj_iff.mp hab))
  obtain ⟨j, hj⟩ := Finite.injective_iff_surjective.mp hinj ⟨i, hi⟩
  exact ⟨j, j.isLt, Fin.mk.inj_iff.mp hj⟩

end Probe

/-! ### Entries -/

section Entries
variable {α β : Type*} {l : List α}

theorem filterMap_cons_eq (f : α → Option β) (x : α) (l : List α) :
    (x :: l).filterMap f = (f x).toList ++ l.filterMap f := by
  cases hx : f x <;> simp [hx]

/-- What a list holds after one place of it was written over. -/
theorem filterMap_set_perm (f : α → Option β) {i : ℕ} {a : α} (h : l[i]? = some a) (b : α) :
    ((f a).toList ++ (l.set i b).filterMap f).Perm ((f b).toList ++ l.filterMap f) := by
  induction l generalizing i with
  | nil => simp at h
  | cons x l ih =>
    cases i with
    | zero =>
      rw [List.getElem?_cons_zero, Option.some.injEq] at h
      rw [List.set_cons_zero, filterMap_cons_eq, filterMap_cons_eq, h]
      exact List.perm_append_comm_assoc _ _ _
    | succ i =>
      rw [List.getElem?_cons_succ] at h
      rw [List.set_cons_succ, filterMap_cons_eq, filterMap_cons_eq]
      exact (List.perm_append_comm_assoc _ _ _).trans
        (((ih h).append_left _).trans (List.perm_append_comm_assoc _ _ _))

theorem mem_filterMap_iff (f : α → Option β) {b : β} :
    b ∈ l.filterMap f ↔ ∃ (i : ℕ) (a : α), l[i]? = some a ∧ f a = some b := by
  rw [List.mem_filterMap]
  constructor
  · rintro ⟨a, ha, hb⟩
    obtain ⟨i, hi⟩ := List.mem_iff_getElem?.mp ha
    exact ⟨i, a, hi, hb⟩
  · rintro ⟨i, a, hi, hb⟩
    exact ⟨a, List.mem_of_getElem? hi, hb⟩

end Entries

end Kompozer

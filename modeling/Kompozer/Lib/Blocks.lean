import Mathlib.Data.Nat.Notation
import Mathlib.Logic.Function.Basic
import Mathlib.Tactic.Common
import Mathlib.Data.List.Basic
import Mathlib.Data.List.InsertIdx
import Mathlib.Tactic.SplitIfs

/-! Blocks of memory, word by word. An access outside of a block has no result. -/

namespace Kompozer

universe u

/-- A block of `size` words. -/
structure Block (α : Type u) where
  size : ℕ
  cell : ℕ → α

namespace Block

variable {α : Type u} (b : Block α)

def put (i : ℕ) (x : α) : Block α := { b with cell := Function.update b.cell i x }

/-- A copy of `n` words inside of the block, which may overlap: all are read before any is
written. -/
def moved (dst src n : ℕ) : Block α :=
  { b with cell := fun i => if dst ≤ i ∧ i < dst + n then b.cell (src + (i - dst)) else b.cell i }

/-- `n` words set to `x`. -/
def filled (dst n : ℕ) (x : α) : Block α :=
  { b with cell := fun i => if dst ≤ i ∧ i < dst + n then x else b.cell i }

/-- `realloc`: words that the block did not have before are `junk`. -/
def resize (n : ℕ) (junk : α) : Block α :=
  { size := n, cell := fun i => if i < b.size ∧ i < n then b.cell i else junk }

def get (i : ℕ) : Option α := if i < b.size then some (b.cell i) else none

def set (i : ℕ) (x : α) : Option (Block α) := if i < b.size then some (b.put i x) else none

/-- `memmove`. -/
def move (dst src n : ℕ) : Option (Block α) :=
  if dst + n ≤ b.size ∧ src + n ≤ b.size then some (b.moved dst src n) else none

/-- `memset`. -/
def fill (dst n : ℕ) (x : α) : Option (Block α) :=
  if dst + n ≤ b.size then some (b.filled dst n x) else none

variable {b} {dst src i j n : ℕ} {x : α}

@[simp] theorem size_put : (b.put i x).size = b.size := rfl
@[simp] theorem size_moved : (b.moved dst src n).size = b.size := rfl
@[simp] theorem size_filled : (b.filled dst n x).size = b.size := rfl
@[simp] theorem size_resize : (b.resize n x).size = n := rfl

@[simp] theorem put_self : (b.put i x).cell i = x := by simp [put]

theorem put_of_ne (h : j ≠ i) : (b.put i x).cell j = b.cell j := by simp [put, h]

theorem put_cell : b.put i (b.cell i) = b := by simp [put]

theorem moved_outside (h : i < dst ∨ dst + n ≤ i) : (b.moved dst src n).cell i = b.cell i :=
  if_neg (by omega)

theorem moved_inside (h : dst ≤ i) (hn : i < dst + n) :
    (b.moved dst src n).cell i = b.cell (src + (i - dst)) := if_pos ⟨h, hn⟩

theorem moved_zero : b.moved dst src 0 = b := by
  unfold moved
  congr 1
  funext i
  exact if_neg (by omega)

theorem filled_outside (h : i < dst ∨ dst + n ≤ i) : (b.filled dst n x).cell i = b.cell i :=
  if_neg (by omega)

theorem resize_of_lt (h : i < b.size) (hn : i < n) : (b.resize n x).cell i = b.cell i :=
  if_pos ⟨h, hn⟩

theorem get_of_lt (h : i < b.size) : b.get i = some (b.cell i) := if_pos h

theorem set_of_lt (h : i < b.size) : b.set i x = some (b.put i x) := if_pos h

theorem move_of_le (hdst : dst + n ≤ b.size) (hsrc : src + n ≤ b.size) :
    b.move dst src n = some (b.moved dst src n) := if_pos ⟨hdst, hsrc⟩

theorem fill_of_le (h : dst + n ≤ b.size) : b.fill dst n x = some (b.filled dst n x) := if_pos h

end Block

end Kompozer

/-! A list in the first words of a block, and what `memmove`, `memset` and `memcpy` make of it. -/

namespace Kompozer

universe u

namespace Block

variable {α : Type u} {b o b' : Block α} {l ys : List α} {i j k n : ℕ} {x z : α}

/-- A copy of `n` words of another block. -/
def copied (b o : Block α) (n : ℕ) : Block α :=
  { b with cell := fun i => if i < n then o.cell i else b.cell i }

/-- `memcpy` between the first words of two blocks. -/
def copy (b o : Block α) (n : ℕ) : Option (Block α) :=
  if n ≤ b.size ∧ n ≤ o.size then some (b.copied o n) else none

theorem copy_of_le (hb : n ≤ b.size) (ho : n ≤ o.size) : b.copy o n = some (b.copied o n) :=
  if_pos ⟨hb, ho⟩

theorem filled_zero : b.filled j 0 x = b := by
  unfold filled
  congr 1
  funext i
  exact if_neg (by omega)

/-- The first words. -/
def list (b : Block α) (n : ℕ) : List α := (List.range n).map b.cell

@[simp] theorem length_list : (b.list n).length = n := by simp [list]

/-- The first words are those of the list. -/
def Starts (b : Block α) (l : List α) : Prop := ∀ i a, l[i]? = some a → b.cell i = a

namespace Starts

theorem nil : b.Starts [] := fun i a hi => by simp at hi

theorem list_eq (h : b.Starts l) : b.list l.length = l := by
  refine List.ext_getElem (by simp) fun i hi hl => ?_
  simp only [list, List.getElem_map, List.getElem_range]
  exact h i _ (List.getElem?_eq_getElem hl)

theorem congr (h : b.Starts l) (hcell : ∀ i < l.length, b'.cell i = b.cell i) : b'.Starts l := by
  intro i a hi
  rw [hcell i (List.getElem?_eq_some_iff.mp hi).1]
  exact h i a hi

theorem take (h : b.Starts l) : b.Starts (l.take n) := by
  intro i a hi
  rw [List.getElem?_take] at hi
  split_ifs at hi
  exact h i a hi

theorem resize (h : b.Starts l) (hn : l.length ≤ n) (hb : l.length ≤ b.size) :
    (b.resize n z).Starts l :=
  h.congr fun _ hi => resize_of_lt (by omega) (by omega)

theorem copied (h : o.Starts l) : (b.copied o l.length).Starts l :=
  h.congr fun _ hi => if_pos hi

/-- Words that were written over a gap. -/
theorem insert (h : b.Starts l) (hk : k ≤ l.length)
    (hin : ∀ i a, ys[i]? = some a → b'.cell (k + i) = a)
    (hout : ∀ i, i < k ∨ k + ys.length ≤ i →
      b'.cell i = (b.moved (k + ys.length) k (l.length - k)).cell i) :
    b'.Starts (l.take k ++ ys ++ l.drop k) := by
  intro i a hi
  have htake : (l.take k).length = k := by simp [hk]
  rw [List.append_assoc, List.getElem?_append, htake] at hi
  split_ifs at hi with hlt
  · rw [hout i (.inl hlt), moved_outside (.inl (by omega))]
    exact h.take i a hi
  · rw [List.getElem?_append] at hi
    split_ifs at hi with hys
    · rw [← hin _ a hi, Nat.add_sub_cancel' (by omega)]
    · rw [List.getElem?_drop] at hi
      have hlen := (List.getElem?_eq_some_iff.mp hi).1
      rw [hout i (.inr (by omega)), moved_inside (by omega) (by omega)]
      rw [show k + (i - k - ys.length) = k + (i - (k + ys.length)) by omega] at hi
      exact h _ a hi

/-- Words that were closed over. -/
theorem remove (h : b.Starts l) (hk : k + n ≤ l.length) :
    (b.moved k (k + n) (l.length - (k + n))).Starts (l.take k ++ l.drop (k + n)) := by
  intro i a hi
  have htake : (l.take k).length = k := by simp; omega
  rw [List.getElem?_append, htake] at hi
  split_ifs at hi with hlt
  · rw [moved_outside (.inl hlt)]
    exact h.take i a hi
  · rw [List.getElem?_drop] at hi
    have hlen := (List.getElem?_eq_some_iff.mp hi).1
    rw [moved_inside (by omega) (by omega)]
    exact h _ a hi

theorem put (h : b.Starts l) : (b.put i x).Starts (l.set i x) := by
  intro j a hj
  rw [List.getElem?_set] at hj
  split_ifs at hj with hij
  · rw [← hij, put_self]
    exact Option.some.inj hj
  · rw [put_of_ne (Ne.symm hij)]
    exact h j a hj

/-- A word behind the list, and the words between. -/
theorem pad (h : b.Starts l) (hi : l.length ≤ i) :
    ((b.put i x).filled l.length (i - l.length) z).Starts
      (l ++ List.replicate (i - l.length) z ++ [x]) := by
  intro j a hj
  rw [List.append_assoc, List.getElem?_append] at hj
  split_ifs at hj with hlt
  · rw [filled_outside (.inl hlt), put_of_ne (by omega)]
    exact h j a hj
  · rw [List.getElem?_append, List.length_replicate] at hj
    split_ifs at hj with hz
    · rw [List.getElem?_replicate, if_pos hz] at hj
      rw [← Option.some.inj hj]
      exact if_pos (by omega)
    · obtain ⟨hlast, rfl⟩ := List.getElem?_eq_some_iff.mp hj
      have hji : j = i := by
        simp only [List.length_cons, List.length_nil] at hlast
        omega
      subst hji
      rw [filled_outside (.inr (by omega)), put_self]
      simp

/-- One word goes from place `i` to place `j`. -/
theorem moveElement (h : b.Starts l) (hi : i < l.length) (hj : j < l.length)
    (hcell : ∀ k, b'.cell k = if k = j then l[i] else
      if j ≤ k ∧ k ≤ i then b.cell (k - 1) else
      if i ≤ k ∧ k < j then b.cell (k + 1) else b.cell k) :
    b'.Starts ((l.eraseIdx i).insertIdx j l[i]) := by
  intro k a hk
  rw [hcell]
  rw [List.getElem?_insertIdx] at hk
  split_ifs with hkj hup hdown
  · subst hkj
    rw [if_neg (Nat.lt_irrefl k), if_pos rfl, if_pos (by rw [List.length_eraseIdx_of_lt hi]; omega)] at hk
    exact Option.some.inj hk
  · rw [if_neg (by omega), if_neg hkj, List.getElem?_eraseIdx, if_pos (by omega)] at hk
    exact h _ a hk
  · rw [if_pos (by omega), List.getElem?_eraseIdx, if_neg (by omega)] at hk
    exact h _ a hk
  · rcases Nat.lt_or_ge k j with hlt | hge
    · rw [if_pos hlt, List.getElem?_eraseIdx, if_pos (by omega)] at hk
      exact h _ a hk
    · rw [if_neg (by omega), if_neg hkj, List.getElem?_eraseIdx, if_neg (by omega),
        Nat.sub_add_cancel (by omega)] at hk
      exact h _ a hk

end Starts

end Block

end Kompozer

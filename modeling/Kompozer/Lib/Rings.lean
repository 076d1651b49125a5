import Mathlib.Data.Nat.ModEq
import Mathlib.Tactic.Common

/-! Queues in a ring of cells. -/

namespace Kompozer

universe u
variable {α : Type u} {cell cell' : ℕ → α} {size first : ℕ} {q : List α}

/-- The members of a queue are in a ring, from the cell `first` on. -/
structure Ring (cell : ℕ → α) (size first : ℕ) (q : List α) : Prop where
  first_lt : first < size
  length_le : q.length ≤ size
  cell_eq : ∀ i a, q[i]? = some a → cell ((first + i) % size) = a

namespace Ring

theorem nil (h : first < size) : Ring cell size first [] where
  first_lt := h
  length_le := Nat.zero_le size
  cell_eq i a hget := by simp at hget

/-- Different places of a queue that is not longer than the ring are different cells. -/
theorem mod_ne (size first : ℕ) {i j : ℕ} (hij : i < j) (hj : j < i + size) :
    (first + i) % size ≠ (first + j) % size := by
  intro h
  have hdvd : size ∣ first + j - (first + i) := (Nat.modEq_iff_dvd' (by omega)).mp h
  have hle := Nat.le_of_dvd (by omega) hdvd
  omega

/-- A new member goes to the cell behind the last one. -/
theorem push (h : Ring cell size first q) (hlt : q.length < size) {a : α}
    (hcell : cell' ((first + q.length) % size) = a)
    (hother : ∀ k, k ≠ (first + q.length) % size → cell' k = cell k) :
    Ring cell' size first (q ++ [a]) where
  first_lt := h.first_lt
  length_le := by
    rw [List.length_append]
    exact hlt
  cell_eq i b hget := by
    rw [List.getElem?_append] at hget
    split_ifs at hget with hi
    · rw [hother _ (mod_ne size first hi (by omega))]
      exact h.cell_eq i b hget
    · have hlast : i = q.length := by
        have hlen := (List.getElem?_eq_some_iff.mp hget).1
        simp only [List.length_cons, List.length_nil] at hlen
        omega
      subst hlast
      simp only [Nat.sub_self, List.getElem?_cons_zero, Option.some.injEq] at hget
      rw [hcell, hget]

/-- The first member leaves, and its cell may be written over. -/
theorem pop {a : α} (h : Ring cell size first (a :: q))
    (hother : ∀ k, k ≠ first → cell' k = cell k) : Ring cell' size ((first + 1) % size) q where
  first_lt := Nat.mod_lt _ (Nat.zero_lt_of_lt h.first_lt)
  length_le := Nat.le_of_succ_le h.length_le
  cell_eq i b hget := by
    have hlen := (List.getElem?_eq_some_iff.mp hget).1
    have hle := h.length_le
    rw [List.length_cons] at hle
    have hmod : ((first + 1) % size + i) % size = (first + (i + 1)) % size := by
      rw [Nat.mod_add_mod]
      congr 1
      omega
    have hfirst : first = (first + 0) % size := (Nat.mod_eq_of_lt h.first_lt).symm
    rw [hmod, hother _ ?_]
    · exact h.cell_eq (i + 1) b hget
    · intro heq
      rw [hfirst, Nat.mod_add_mod] at heq
      exact mod_ne size first (Nat.succ_pos i) (by omega) (by simpa using heq.symm)

/-- The last member leaves, and its cell may be written over. -/
theorem unpush {a : α} (h : Ring cell size first (q ++ [a]))
    (hother : ∀ k, k ≠ (first + q.length) % size → cell' k = cell k) : Ring cell' size first q where
  first_lt := h.first_lt
  length_le := by
    have hle := h.length_le
    rw [List.length_append] at hle
    exact Nat.le_of_succ_le hle
  cell_eq i b hget := by
    have hi := (List.getElem?_eq_some_iff.mp hget).1
    have hle := h.length_le
    rw [List.length_append, List.length_singleton] at hle
    rw [hother _ (mod_ne size first hi (by omega))]
    exact h.cell_eq i b (by rw [List.getElem?_append_left hi, hget])

/-- A ring that is not wrapped any more may grow. -/
theorem grow {size' : ℕ} (h : Ring cell size first q) (hsize : first + q.length ≤ size')
    (hfirst : first < size') (hcell : ∀ i < q.length, cell' (first + i) = cell ((first + i) % size)) :
    Ring cell' size' first q where
  first_lt := hfirst
  length_le := by omega
  cell_eq i a hget := by
    have hi := (List.getElem?_eq_some_iff.mp hget).1
    rw [Nat.mod_eq_of_lt (by omega), hcell i hi]
    exact h.cell_eq i a hget

/-- A ring that was copied from its first member on. -/
theorem realign {size' : ℕ} (h : Ring cell size first q) (hsize : q.length ≤ size')
    (hpos : 0 < size') (hcell : ∀ i < q.length, cell' i = cell ((first + i) % size)) :
    Ring cell' size' 0 q where
  first_lt := hpos
  length_le := hsize
  cell_eq i a hget := by
    have hi := (List.getElem?_eq_some_iff.mp hget).1
    rw [Nat.zero_add, Nat.mod_eq_of_lt (by omega), hcell i hi]
    exact h.cell_eq i a hget

/-- A new member goes to the cell in front of the first one. -/
theorem pushFront {first' : ℕ} (h : Ring cell size first q) (hlt : q.length < size)
    (hfirst : first' < size) (hnext : (first' + 1) % size = first) {a : α}
    (hcell : cell' first' = a) (hother : ∀ k, k ≠ first' → cell' k = cell k) :
    Ring cell' size first' (a :: q) where
  first_lt := hfirst
  length_le := hlt
  cell_eq i b hget := by
    cases i with
    | zero =>
      rw [Nat.add_zero, Nat.mod_eq_of_lt hfirst, hcell]
      simpa using hget
    | succ i =>
      rw [List.getElem?_cons_succ] at hget
      have hi := (List.getElem?_eq_some_iff.mp hget).1
      have hmod : (first' + (i + 1)) % size = (first + i) % size := by
        rw [← hnext, Nat.mod_add_mod]
        congr 1
        omega
      have hne := mod_ne size first' (Nat.succ_pos i) (by omega)
      rw [Nat.add_zero, Nat.mod_eq_of_lt hfirst] at hne
      rw [hother _ hne.symm, hmod]
      exact h.cell_eq i b hget

/-- A full ring begins anywhere: its last member may be taken for the first one. -/
theorem rotate {first' : ℕ} {a : α} (h : Ring cell size first (q ++ [a]))
    (hfull : q.length + 1 = size) (hfirst : first' < size) (hnext : (first' + 1) % size = first) :
    Ring cell size first' (a :: q) where
  first_lt := hfirst
  length_le := Nat.le_of_eq hfull
  cell_eq i b hget := by
    cases i with
    | zero =>
      have hlast : (first + q.length) % size = first' := by
        rw [← hnext, Nat.mod_add_mod, show first' + 1 + q.length = first' + size by omega,
          Nat.add_mod_right, Nat.mod_eq_of_lt hfirst]
      rw [Nat.add_zero, Nat.mod_eq_of_lt hfirst, ← hlast]
      exact h.cell_eq q.length b (by simpa using hget)
    | succ i =>
      rw [List.getElem?_cons_succ] at hget
      have hi := (List.getElem?_eq_some_iff.mp hget).1
      have hmod : (first' + (i + 1)) % size = (first + i) % size := by
        rw [← hnext, Nat.mod_add_mod]
        congr 1
        omega
      rw [hmod]
      exact h.cell_eq i b (by rw [List.getElem?_append_left hi, hget])

/-- The first cell is written over. -/
theorem setFirst {a b : α} (h : Ring cell size first (a :: q)) (hcell : cell' first = b)
    (hother : ∀ k, k ≠ first → cell' k = cell k) : Ring cell' size first (b :: q) where
  first_lt := h.first_lt
  length_le := h.length_le
  cell_eq i c hget := by
    have hlen := h.length_le
    rw [List.length_cons] at hlen
    cases i with
    | zero =>
      rw [Nat.add_zero, Nat.mod_eq_of_lt h.first_lt, hcell]
      simpa using hget
    | succ i =>
      rw [List.getElem?_cons_succ] at hget
      have hi := (List.getElem?_eq_some_iff.mp hget).1
      have hne := mod_ne size first (Nat.succ_pos i) (by omega)
      rw [Nat.add_zero, Nat.mod_eq_of_lt h.first_lt] at hne
      rw [hother _ hne.symm]
      exact h.cell_eq (i + 1) c (by rwa [List.getElem?_cons_succ])

end Ring

end Kompozer

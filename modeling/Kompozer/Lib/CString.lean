import Mathlib.Data.List.TakeWhile
import Mathlib.Tactic.Common

/-! Strings of C: bytes up to a zero byte. -/

namespace Kompozer

@[ext]
structure CStr where
  bytes : List UInt8
  noNul : 0 ∉ bytes
deriving DecidableEq

namespace CStr

def nil : CStr := ⟨[], List.not_mem_nil⟩

/-- `strlen`. -/
def length (s : CStr) : ℕ := s.bytes.length

def take (s : CStr) (n : ℕ) : CStr :=
  ⟨s.bytes.take n, fun h => s.noNul (List.mem_of_mem_take h)⟩

/-- What `memcpy` of some bytes over the first bytes of a string leaves. -/
def overwrite (old new : CStr) : CStr :=
  ⟨new.bytes ++ old.bytes.drop new.length, fun h => (List.mem_append.mp h).elim new.noNul
    fun hold => old.noNul (List.mem_of_mem_drop hold)⟩

@[simp] theorem length_nil : nil.length = 0 := rfl

theorem length_take {s : CStr} {n : ℕ} (h : n ≤ s.length) : (s.take n).length = n :=
  List.length_take_of_le h

theorem take_length {s : CStr} {n : ℕ} (h : s.length ≤ n) : s.take n = s :=
  CStr.ext (List.take_of_length_le h)

theorem length_overwrite {old new : CStr} (h : new.length ≤ old.length) :
    (overwrite old new).length = old.length := by
  unfold length at h
  simp only [overwrite, length, List.length_append, List.length_drop]
  omega

theorem overwrite_eq {old new : CStr} (h : old.length = new.length) : overwrite old new = new :=
  CStr.ext (by
    show new.bytes ++ old.bytes.drop new.length = new.bytes
    rw [List.drop_of_length_le (Nat.le_of_eq h), List.append_nil])

theorem eq_nil_of_length {s : CStr} (h : s.length = 0) : s = nil :=
  CStr.ext (List.length_eq_zero_iff.mp h)

/-! ### Strings in memory -/

/-- The bytes of a string and its zero byte. -/
def terminated (s : CStr) : List UInt8 := s.bytes ++ [0]

@[simp] theorem length_terminated (s : CStr) : s.terminated.length = s.length + 1 :=
  List.length_append

/-- The string at some place in memory and what stands behind its zero byte. Without a zero byte it
has no end. -/
def read (data : List UInt8) : Option (CStr × List UInt8) :=
  if 0 ∈ data then
    some (⟨data.takeWhile (· ≠ 0), fun h => by simpa using List.mem_takeWhile_imp h⟩,
      (data.dropWhile (· ≠ 0)).tail)
  else none

theorem read_terminated (s : CStr) (rest : List UInt8) :
    read (s.terminated ++ rest) = some (s, rest) := by
  have hnul : ∀ b ∈ s.bytes, (b ≠ 0) = true := by
    intro b hb
    simp only [ne_eq, eq_iff_iff, iff_true]
    rintro rfl
    exact s.noNul hb
  rw [read, terminated, List.append_assoc, List.singleton_append, if_pos (by simp)]
  congr 2
  · apply CStr.ext
    show (s.bytes ++ 0 :: rest).takeWhile _ = s.bytes
    rw [List.takeWhile_append_of_pos (by simpa using hnul)]
    simp
  · rw [List.dropWhile_append_of_pos (by simpa using hnul)]
    simp

theorem length_read {data rest : List UInt8} {s : CStr} (h : read data = some (s, rest)) :
    rest.length < data.length := by
  unfold read at h
  split_ifs at h with hnul
  obtain ⟨-, rfl⟩ := Prod.mk.inj (Option.some.inj h)
  have hle := (List.dropWhile_sublist (fun b : UInt8 => decide (b ≠ 0)) (l := data)).length_le
  have hpos := List.length_pos_of_mem hnul
  rw [List.length_tail]
  omega

end CStr

end Kompozer

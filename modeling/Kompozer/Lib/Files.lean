import Mathlib.Data.List.Basic
import Mathlib.Logic.Function.Basic
import Mathlib.Tactic.Common

/-! Files with names, descriptors with a position, and blocks of memory. A file that loses its name
keeps its bytes for the descriptors that are open. -/

namespace Kompozer

/-! ### Files -/

/-- Files are numbered as they are made. -/
structure Files (ν : Type) where
  contents : ℕ → List UInt8
  named : ν → Option ℕ
  next : ℕ

/-- An open file, and the position in it. -/
structure FileDesc where
  file : ℕ
  pos : ℕ
deriving DecidableEq

namespace Files

variable {ν : Type} (fs : Files ν)

/-- The file of a name is opened, and made if there is none. -/
def create [DecidableEq ν] (name : ν) : FileDesc × Files ν :=
  match fs.named name with
  | some i => (⟨i, 0⟩, fs)
  | none => (⟨fs.next, 0⟩,
      { contents := Function.update fs.contents fs.next []
        named := Function.update fs.named name (some fs.next)
        next := fs.next + 1 })

def remove [DecidableEq ν] (name : ν) : Files ν := { fs with named := Function.update fs.named name none }

/-- A write goes over what is there. A position behind the end leaves zeros before it. -/
def write (fd : FileDesc) (bytes : List UInt8) : FileDesc × Files ν :=
  let old := fs.contents fd.file
  let new := old.take fd.pos ++ List.replicate (fd.pos - old.length) 0 ++ bytes ++
    old.drop (fd.pos + bytes.length)
  ({ fd with pos := fd.pos + bytes.length },
    { fs with contents := Function.update fs.contents fd.file new })

/-- `ftruncate`, which does not move the position. -/
def truncate (fd : FileDesc) (size : ℕ) : Files ν :=
  let old := fs.contents fd.file
  let new := old.take size ++ List.replicate (size - old.length) 0
  { fs with contents := Function.update fs.contents fd.file new }

def read (fd : FileDesc) (count : ℕ) : List UInt8 := ((fs.contents fd.file).drop fd.pos).take count

variable {fs}

theorem create_of_some [DecidableEq ν] {name : ν} {i : ℕ} (h : fs.named name = some i) :
    fs.create name = (⟨i, 0⟩, fs) := by
  rw [create, h]

theorem create_named [DecidableEq ν] (name : ν) :
    (fs.create name).2.named name = some (fs.create name).1.file := by
  unfold create
  cases h : fs.named name with
  | none => simp
  | some i => exact h

theorem create_contents [DecidableEq ν] (name : ν) (h : ∀ i, fs.named name = some i → fs.contents i = []) :
    (fs.create name).2.contents (fs.create name).1.file = [] := by
  unfold create
  cases hi : fs.named name with
  | none => simp
  | some i => exact h i hi

theorem create_pos [DecidableEq ν] (name : ν) : (fs.create name).1.pos = 0 := by
  unfold create
  cases fs.named name <;> rfl

/-- A write at the end appends. -/
theorem write_end {fd : FileDesc} (h : fd.pos = (fs.contents fd.file).length) (bytes : List UInt8) :
    (fs.write fd bytes).2.contents fd.file = fs.contents fd.file ++ bytes := by
  simp [write, h]

@[simp] theorem write_file (fd : FileDesc) (bytes : List UInt8) :
    (fs.write fd bytes).1.file = fd.file := rfl

@[simp] theorem write_pos (fd : FileDesc) (bytes : List UInt8) :
    (fs.write fd bytes).1.pos = fd.pos + bytes.length := rfl

@[simp] theorem write_named (fd : FileDesc) (bytes : List UInt8) :
    (fs.write fd bytes).2.named = fs.named := rfl

@[simp] theorem truncate_named (fd : FileDesc) (size : ℕ) :
    (fs.truncate fd size).named = fs.named := rfl

theorem truncate_contents {fd : FileDesc} {size : ℕ} (h : size ≤ (fs.contents fd.file).length) :
    (fs.truncate fd size).contents fd.file = (fs.contents fd.file).take size := by
  simp [truncate, Nat.sub_eq_zero_of_le h]

end Files

/-! ### Memory -/

/-- The memory behind a pointer. -/
abbrev Memory := ℕ → UInt8

namespace Memory

/-- The first bytes. -/
def bytes (m : Memory) (n : ℕ) : List UInt8 := (List.range n).map m

/-- `memcpy` to a place. -/
def copy (m : Memory) (pos : ℕ) (new : List UInt8) : Memory := fun k =>
  if pos ≤ k then (new[k - pos]?).getD (m k) else m k

/-- `realloc`: the bytes of the old size stay, and the others are whatever was there. -/
def realloc (m : Memory) (size : ℕ) (fresh : Memory) : Memory := fun k =>
  if k < size then m k else fresh k

variable {m : Memory}

@[simp] theorem length_bytes (m : Memory) (n : ℕ) : (m.bytes n).length = n := by
  simp [bytes]

@[simp] theorem bytes_zero (m : Memory) : m.bytes 0 = [] := rfl

theorem bytes_congr {m' : Memory} {n : ℕ} (h : ∀ k, k < n → m' k = m k) : m'.bytes n = m.bytes n :=
  List.map_congr_left fun k hk => h k (List.mem_range.mp hk)

theorem take_bytes {n k : ℕ} (h : k ≤ n) : (m.bytes n).take k = m.bytes k := by
  rw [bytes, bytes, ← List.map_take, List.take_range, Nat.min_eq_left h]

theorem bytes_copy (m : Memory) (pos : ℕ) (new : List UInt8) :
    (m.copy pos new).bytes (pos + new.length) = m.bytes pos ++ new := by
  apply List.ext_getElem (by simp)
  intro k hk _
  rw [List.getElem_append]
  split_ifs with hlt
  · simp only [length_bytes] at hlt
    simp [bytes, copy, Nat.not_le_of_lt hlt]
  · simp only [length_bytes] at hk hlt
    have : k - pos < new.length := by omega
    simp [bytes, copy, Nat.le_of_not_lt hlt, this]

theorem bytes_copy_zero (m : Memory) (new : List UInt8) :
    (m.copy 0 new).bytes new.length = new := by
  simpa using bytes_copy m 0 new

theorem bytes_realloc {size n : ℕ} (h : n ≤ size) (fresh : Memory) :
    (m.realloc size fresh).bytes n = m.bytes n :=
  bytes_congr fun k hk => if_pos (Nat.lt_of_lt_of_le hk h)

end Memory

end Kompozer

import Kompozer.Lib.Blocks
import Kompozer.Lib.Rings
import Mathlib.Data.Nat.Notation
import Mathlib.Logic.Function.Basic
import Mathlib.Tactic.Common

/-! Segments of memory, and the bytes in them. -/

namespace Kompozer.Io

/-- Segments are numbered as they are allocated. -/
abbrev Segment := ℕ

/-- Bytes of a segment. -/
def bytesAt (memory : Segment → ℕ → UInt8) (seg : Segment) (off n : ℕ) : List UInt8 :=
  (List.range n).map fun i => memory seg (off + i)

/-- Bytes are put in a segment. -/
def putBytes (memory : Segment → ℕ → UInt8) (seg : Segment) (off : ℕ) (bytes : List UInt8) :
    Segment → ℕ → UInt8 := fun t i =>
  if t = seg ∧ off ≤ i ∧ i < off + bytes.length then bytes.getD (i - off) 0 else memory t i

section
variable {memory memory' : Segment → ℕ → UInt8} {seg : Segment} {off n : ℕ}

@[simp] theorem length_bytesAt : (bytesAt memory seg off n).length = n := by
  simp [bytesAt]

@[simp] theorem bytesAt_zero : bytesAt memory seg off 0 = [] := rfl

theorem getElem?_bytesAt {j : ℕ} (hj : j < n) :
    (bytesAt memory seg off n)[j]? = some (memory seg (off + j)) := by
  simp [bytesAt, hj]

theorem bytesAt_add {k : ℕ} : bytesAt memory seg off (n + k) =
    bytesAt memory seg off n ++ bytesAt memory seg (off + n) k := by
  unfold bytesAt
  rw [List.range_add, List.map_append, List.map_map]
  congr 2
  funext i
  exact congrArg (memory seg) (Nat.add_assoc off n i).symm

theorem bytesAt_congr (h : ∀ i, off ≤ i → i < off + n → memory seg i = memory' seg i) :
    bytesAt memory seg off n = bytesAt memory' seg off n := by
  unfold bytesAt
  apply List.map_congr_left
  intro i hi
  have hlt := List.mem_range.mp hi
  exact h _ (by omega) (by omega)

theorem bytesAt_putBytes {bytes : List UInt8} :
    bytesAt (putBytes memory seg off bytes) seg off bytes.length = bytes := by
  apply List.ext_getElem
  · simp
  · intro i hi hi'
    simp only [bytesAt, putBytes, List.getElem_map, List.getElem_range]
    rw [if_pos ⟨trivial, by omega, by omega⟩, Nat.add_sub_cancel_left]
    simp [hi']

theorem putBytes_outside {bytes : List UInt8} {t : Segment} {i : ℕ}
    (h : t ≠ seg ∨ i < off ∨ off + bytes.length ≤ i) :
    putBytes memory seg off bytes t i = memory t i := by
  apply if_neg
  rintro ⟨rfl, hlo, hhi⟩
  rcases h with h | h | h
  · exact h rfl
  · omega
  · omega

end

end Kompozer.Io

/-! The buffer of segments under pipes and storage streams (`nsSegmentedBuffer.cpp`): an array of
pointers to segments, used as a ring that is doubled when it is full. -/

namespace Kompozer.Io

def NS_SEGMENTARRAY_INITIAL_COUNT : UInt32 := 32

inductive Platform
  | bits32 | bits64
deriving DecidableEq

/-- `sizeof(char*)`. -/
def Platform.pointerSize : Platform → UInt32
  | .bits32 => 4
  | .bits64 => 8

theorem Platform.pointerSize_le (p : Platform) : 4 ≤ p.pointerSize.toNat := by
  cases p <;> decide

theorem Platform.pointerSize_pow (p : Platform) : ∃ j, p.pointerSize.toNat = 2 ^ j := by
  cases p
  · exact ⟨2, rfl⟩
  · exact ⟨3, rfl⟩

/-- What is in memory that was not written. -/
def garbage : Option Segment := some 0

/-- Which allocations are granted. -/
structure Allocation where
  array : Bool := true
  grow : Bool := true
  segment : Bool := true

def Allocation.granted (alloc : Allocation) : Bool := alloc.array && alloc.grow && alloc.segment

theorem Allocation.granted_iff {alloc : Allocation} :
    alloc.granted = true ↔ alloc.array = true ∧ alloc.grow = true ∧ alloc.segment = true := by
  simp [granted, and_assoc]

/-- The indices are of type `PRInt32`. -/
structure nsSegmentedBuffer where
  mSegmentSize : UInt32
  mMaxSize : UInt32
  mSegmentArray : Option (Block (Option Segment)) := none
  mSegmentArrayCount : UInt32 := NS_SEGMENTARRAY_INITIAL_COUNT
  mFirstSegmentIndex : UInt32 := 0
  mLastSegmentIndex : UInt32 := 0

namespace nsSegmentedBuffer

variable (b : nsSegmentedBuffer)

def ModSegArraySize (n : UInt32) : UInt32 := n &&& (b.mSegmentArrayCount - 1)

def GetSegmentCount : UInt32 :=
  if b.mFirstSegmentIndex ≤ b.mLastSegmentIndex then b.mLastSegmentIndex - b.mFirstSegmentIndex
  else b.mSegmentArrayCount + b.mLastSegmentIndex - b.mFirstSegmentIndex

def GetSize : UInt32 := b.GetSegmentCount * b.mSegmentSize

def GetSegment (indx : UInt32) : Option (Option Segment) := do
  (← b.mSegmentArray).get (b.ModSegArraySize (b.mFirstSegmentIndex + indx)).toNat

def IsFull : Bool := b.ModSegArraySize (b.mLastSegmentIndex + 1) = b.mFirstSegmentIndex

/-- The first allocation of the array. -/
def allocArray : nsSegmentedBuffer :=
  { b with mSegmentArray := b.mSegmentArray.getD ⟨b.mSegmentArrayCount.toNat, fun _ => none⟩ }

/-- The bytes of the array when it is doubled. -/
def grownBytes (pointerSize : UInt32) : UInt32 := b.mSegmentArrayCount * 2 * pointerSize

/-- The array is doubled, and what is wrapped around goes to the extension. -/
def growArray (pointerSize : UInt32) : Option nsSegmentedBuffer := do
  let newArraySize := b.mSegmentArrayCount * 2
  let mSegmentArray :=
    (← b.mSegmentArray).resize ((b.grownBytes pointerSize).toNat / pointerSize.toNat) garbage
  let last := b.mLastSegmentIndex
  if last < b.mFirstSegmentIndex then
    let mSegmentArray ← mSegmentArray.move b.mSegmentArrayCount.toNat 0 last.toNat
    let mSegmentArray ← mSegmentArray.fill 0 last.toNat none
    let last := last + b.mSegmentArrayCount
    let mSegmentArray ← mSegmentArray.fill last.toNat (newArraySize - last).toNat none
    some { b with mSegmentArray, mLastSegmentIndex := last, mSegmentArrayCount := newArraySize }
  else
    let mSegmentArray ← mSegmentArray.fill last.toNat (newArraySize - last).toNat none
    some { b with mSegmentArray, mSegmentArrayCount := newArraySize }

/-- There is room in the array for one more segment. -/
def makeRoom (pointerSize : UInt32) : Option nsSegmentedBuffer :=
  if b.IsFull then b.growArray pointerSize else some b

/-- The new segment in the array. -/
def putSegment (seg : Segment) : Option nsSegmentedBuffer := do
  let mSegmentArray ← (← b.mSegmentArray).set b.mLastSegmentIndex.toNat (some seg)
  some { b with
    mSegmentArray, mLastSegmentIndex := b.ModSegArraySize (b.mLastSegmentIndex + 1) }

/-- `seg` is what the allocator returns. The first result is null where there is no new
segment. -/
def AppendNewSegment (pointerSize : UInt32) (alloc : Allocation) (seg : Segment) :
    Option (Option Segment × nsSegmentedBuffer) :=
  if b.mMaxSize ≤ b.GetSize then some (none, b)
  else if b.mSegmentArray.isNone && !alloc.array then some (none, b)
  else
    let b := b.allocArray
    if b.IsFull && !alloc.grow then some (none, b)
    else (b.makeRoom pointerSize).bind fun b =>
      if alloc.segment then (b.putSegment seg).map (some seg, ·) else some (none, b)

/-- The segment that is freed, and whether it was the last one. -/
def DeleteFirstSegment : Option (Option Segment × Bool × nsSegmentedBuffer) := do
  let mSegmentArray ← b.mSegmentArray
  let seg ← mSegmentArray.get b.mFirstSegmentIndex.toNat
  let mSegmentArray ← mSegmentArray.set b.mFirstSegmentIndex.toNat none
  let last := b.ModSegArraySize (b.mLastSegmentIndex - 1)
  if b.mFirstSegmentIndex = last then
    some (seg, true, { b with mSegmentArray, mLastSegmentIndex := last })
  else
    some (seg, false, { b with
      mSegmentArray, mFirstSegmentIndex := b.ModSegArraySize (b.mFirstSegmentIndex + 1) })

/-- With the segment that is freed. -/
def DeleteLastSegment : Option (Option Segment × nsSegmentedBuffer) := do
  let mSegmentArray ← b.mSegmentArray
  let last := b.ModSegArraySize (b.mLastSegmentIndex - 1)
  let seg ← mSegmentArray.get last.toNat
  let mSegmentArray ← mSegmentArray.set last.toNat none
  some (seg, { b with mSegmentArray, mLastSegmentIndex := last })

/-- The segment that `ReallocLastSegment` reallocates. -/
def lastSegment : Option (Option Segment) := do
  (← b.mSegmentArray).get (b.ModSegArraySize (b.mLastSegmentIndex - 1)).toNat

/-- `newSegment` is what the allocator returns. -/
def ReallocLastSegment (newSegment : Option Segment) : Option nsSegmentedBuffer := do
  match newSegment with
  | none => some b
  | some seg =>
    let last := b.ModSegArraySize (b.mLastSegmentIndex - 1)
    let mSegmentArray ← (← b.mSegmentArray).set last.toNat (some seg)
    some { b with mSegmentArray }

/-! ### The queue of segments -/

/-- The segments that are in the buffer, from the first to the last. -/
structure Holds (b : nsSegmentedBuffer) (q : List Segment) : Prop where
  count : ∃ k < 32, b.mSegmentArrayCount.toNat = 2 ^ k ∧ 1 < b.mSegmentArrayCount.toNat
  first : b.mFirstSegmentIndex.toNat < b.mSegmentArrayCount.toNat
  last : b.mLastSegmentIndex.toNat =
    (b.mFirstSegmentIndex.toNat + q.length) % b.mSegmentArrayCount.toNat
  length : q.length < b.mSegmentArrayCount.toNat
  ring : ∀ block, b.mSegmentArray = some block → block.size = b.mSegmentArrayCount.toNat ∧
    Ring block.cell b.mSegmentArrayCount.toNat b.mFirstSegmentIndex.toNat (q.map some)
  array : b.mSegmentArray = none → q = [] ∧ b.mFirstSegmentIndex = 0

/-- At the beginning there is no array. -/
theorem holds_init {segmentSize maxSize : UInt32} :
    Holds { mSegmentSize := segmentSize, mMaxSize := maxSize } [] where
  count := ⟨5, by decide, rfl, by change 1 < 32; decide⟩
  first := by change 0 < 32; decide
  last := rfl
  length := by change 0 < 32; decide
  ring := nofun
  array := fun _ => ⟨rfl, rfl⟩

theorem toNat_and_sub_one {n c : UInt32} {k : ℕ} (hc : c.toNat = 2 ^ k) :
    (n &&& (c - 1)).toNat = n.toNat % c.toNat := by
  have hpos : 1 ≤ c.toNat := by rw [hc]; exact Nat.one_le_two_pow
  have hsub : (c - 1).toNat = c.toNat - 1 := UInt32.toNat_sub_of_le c 1 hpos
  rw [UInt32.toNat_and, hsub, hc]
  exact Nat.and_two_pow_sub_one_eq_mod n.toNat k

namespace Holds

variable {b} {q : List Segment} (h : b.Holds q)
include h

theorem count_le : b.mSegmentArrayCount.toNat ≤ 2 ^ 31 ∧ b.mSegmentArrayCount.toNat ∣ 2 ^ 32 := by
  obtain ⟨k, hk, hcount, -⟩ := h.count
  rw [hcount]
  exact ⟨Nat.pow_le_pow_right (by decide) (by omega), Nat.pow_dvd_pow 2 (by omega)⟩

theorem toNat_mod (n : UInt32) : (b.ModSegArraySize n).toNat = n.toNat % b.mSegmentArrayCount.toNat := by
  obtain ⟨k, -, hcount, -⟩ := h.count
  exact toNat_and_sub_one hcount

/-- A sum of indices, wrapped. -/
theorem toNat_mod_add (m n : UInt32) : (b.ModSegArraySize (m + n)).toNat =
    (m.toNat + n.toNat) % b.mSegmentArrayCount.toNat := by
  rw [h.toNat_mod, UInt32.toNat_add]
  exact Nat.mod_mod_of_dvd _ h.count_le.2

theorem last_lt : b.mLastSegmentIndex.toNat < b.mSegmentArrayCount.toNat := by
  rw [h.last]
  exact Nat.mod_lt _ (Nat.zero_lt_of_lt h.first)

/-- Where the last index is, wrapped around or not. -/
theorem last_cases :
    (b.mFirstSegmentIndex.toNat ≤ b.mLastSegmentIndex.toNat ∧
      b.mLastSegmentIndex.toNat = b.mFirstSegmentIndex.toNat + q.length) ∨
    (b.mLastSegmentIndex.toNat < b.mFirstSegmentIndex.toNat ∧
      b.mLastSegmentIndex.toNat + b.mSegmentArrayCount.toNat =
        b.mFirstSegmentIndex.toNat + q.length) := by
  have hlast := h.last
  have hfirst := h.first
  have hlength := h.length
  by_cases hwrap : b.mFirstSegmentIndex.toNat + q.length < b.mSegmentArrayCount.toNat
  · rw [Nat.mod_eq_of_lt hwrap] at hlast
    exact .inl ⟨by omega, hlast⟩
  · rw [Nat.mod_eq_sub_mod (by omega), Nat.mod_eq_of_lt (by omega)] at hlast
    exact .inr ⟨by omega, by omega⟩

theorem segmentCount : b.GetSegmentCount.toNat = q.length := by
  have hcount := h.count_le.1
  have hfirst := h.first
  have hlength := h.length
  unfold GetSegmentCount
  rcases h.last_cases with ⟨hle, hlast⟩ | ⟨hlt, hlast⟩
  · rw [if_pos (UInt32.le_iff_toNat_le.mpr hle), UInt32.toNat_sub_of_le _ _ hle]
    omega
  · have hnot : ¬b.mFirstSegmentIndex ≤ b.mLastSegmentIndex :=
      fun hle => absurd (UInt32.le_iff_toNat_le.mp hle) (by omega)
    have hadd : (b.mSegmentArrayCount + b.mLastSegmentIndex).toNat =
        b.mSegmentArrayCount.toNat + b.mLastSegmentIndex.toNat := by
      rw [UInt32.toNat_add]
      exact Nat.mod_eq_of_lt (by omega)
    rw [if_neg hnot, UInt32.toNat_sub_of_le _ _ (by rw [UInt32.le_iff_toNat_le, hadd]; omega), hadd]
    omega

theorem isFull_iff : b.IsFull = true ↔ q.length + 1 = b.mSegmentArrayCount.toNat := by
  have hfirst := h.first
  have hlength := h.length
  have hcount : 1 < b.mSegmentArrayCount.toNat := h.count.choose_spec.2.2
  unfold IsFull
  rw [decide_eq_true_iff, ← UInt32.toNat_inj, h.toNat_mod_add]
  change (b.mLastSegmentIndex.toNat + 1) % _ = _ ↔ _
  rw [h.last, Nat.mod_add_mod]
  by_cases hwrap : b.mFirstSegmentIndex.toNat + q.length + 1 < b.mSegmentArrayCount.toNat
  · rw [Nat.mod_eq_of_lt hwrap]
    omega
  · rw [Nat.mod_eq_sub_mod (by omega), Nat.mod_eq_of_lt (by omega)]
    omega

/-- The segments, by their places in the queue. -/
theorem getSegment (i : UInt32) {seg : Segment} (hget : q[i.toNat]? = some seg) :
    b.GetSegment i = some (some seg) := by
  unfold GetSegment
  cases harray : b.mSegmentArray with
  | none =>
    rw [(h.array harray).1] at hget
    simp at hget
  | some block =>
    obtain ⟨hsize, hring⟩ := h.ring block harray
    have hlt : (b.ModSegArraySize (b.mFirstSegmentIndex + i)).toNat < block.size := by
      rw [h.toNat_mod_add, hsize]
      exact Nat.mod_lt _ (Nat.zero_lt_of_lt h.first)
    rw [Option.bind_eq_bind, Option.bind_some, Block.get_of_lt hlt, h.toNat_mod_add,
      hring.cell_eq i.toNat (some seg) (by rw [List.getElem?_map, hget]; rfl)]

theorem allocArray : b.allocArray.Holds q where
  count := h.count
  first := h.first
  last := h.last
  length := h.length
  ring block hblock := by
    cases harray : b.mSegmentArray with
    | some array =>
      have hsame : block = array := by
        have hsome : some (b.mSegmentArray.getD ⟨b.mSegmentArrayCount.toNat, fun _ => none⟩) =
          some block := hblock
        rw [harray] at hsome
        exact (Option.some.inj hsome).symm
      rw [hsame]
      exact h.ring array harray
    | none =>
      have hsome : some (b.mSegmentArray.getD ⟨b.mSegmentArrayCount.toNat, fun _ => none⟩) =
        some block := hblock
      rw [harray] at hsome
      obtain rfl := Option.some.inj hsome
      obtain ⟨rfl, hfirst⟩ := h.array harray
      exact ⟨rfl, .nil h.first⟩
  array hnone := by cases hnone

/-- The doubled array holds the same segments. -/
theorem growArray {pointerSize : UInt32} (hpointer : 4 ≤ pointerSize.toNat)
    (hfull : q.length + 1 = b.mSegmentArrayCount.toNat)
    (hbytes : b.mSegmentArrayCount.toNat * 2 * pointerSize.toNat < 2 ^ 32)
    (harray : b.mSegmentArray ≠ none) :
    ∃ b', b.growArray pointerSize = some b' ∧ b'.Holds q ∧
      b'.mSegmentArrayCount.toNat = b.mSegmentArrayCount.toNat * 2 ∧
      b'.mSegmentSize = b.mSegmentSize ∧ b'.mMaxSize = b.mMaxSize ∧ b'.mSegmentArray ≠ none := by
  obtain ⟨array, hsome⟩ := Option.ne_none_iff_exists'.mp harray
  obtain ⟨hsize, hring⟩ := h.ring array hsome
  obtain ⟨k, hk, hcount, hone⟩ := h.count
  have hfirst := h.first
  have hlast := h.last_lt
  have hdouble : b.mSegmentArrayCount.toNat * 2 < 2 ^ 30 := by
    have hle := Nat.mul_le_mul_left (b.mSegmentArrayCount.toNat * 2) hpointer
    omega
  have hnew : (b.mSegmentArrayCount * 2).toNat = b.mSegmentArrayCount.toNat * 2 := by
    rw [UInt32.toNat_mul]
    exact Nat.mod_eq_of_lt (by change b.mSegmentArrayCount.toNat * 2 < _; omega)
  have hgrown : (b.grownBytes pointerSize).toNat / pointerSize.toNat =
      b.mSegmentArrayCount.toNat * 2 := by
    unfold grownBytes
    rw [UInt32.toNat_mul, hnew, Nat.mod_eq_of_lt hbytes, Nat.mul_div_cancel _ (by omega)]
  have hpow : ∃ k < 32, (b.mSegmentArrayCount * 2).toNat = 2 ^ k ∧
      1 < (b.mSegmentArrayCount * 2).toNat := by
    refine ⟨k + 1, ?_, by rw [hnew, hcount, Nat.pow_succ], by omega⟩
    have hlt : 2 ^ (k + 1) < 2 ^ 30 := by rw [Nat.pow_succ, ← hcount]; exact hdouble
    have := (Nat.pow_lt_pow_iff_right (by decide)).mp hlt
    omega
  have hqlen : (q.map some).length = q.length := List.length_map _
  unfold nsSegmentedBuffer.growArray
  rw [hsome, hgrown]
  dsimp only [Option.bind_eq_bind, Option.bind_some]
  rcases h.last_cases with ⟨hle, hlastq⟩ | ⟨hlt, hlastq⟩
  · have hnot : ¬b.mLastSegmentIndex < b.mFirstSegmentIndex :=
      fun hlt => absurd (UInt32.lt_iff_toNat_lt.mp hlt) (by omega)
    have hsub : (b.mSegmentArrayCount * 2 - b.mLastSegmentIndex).toNat =
        b.mSegmentArrayCount.toNat * 2 - b.mLastSegmentIndex.toNat := by
      rw [UInt32.toNat_sub_of_le _ _ (by rw [UInt32.le_iff_toNat_le, hnew]; omega), hnew]
    rw [if_neg hnot, hsub, Block.fill_of_le (by rw [Block.size_resize]; omega), Option.bind_some]
    refine ⟨_, rfl, ⟨hpow, ?_, ?_, ?_, ?_, fun hnone => by cases hnone⟩, hnew, rfl, rfl, nofun⟩
    · change b.mFirstSegmentIndex.toNat < (b.mSegmentArrayCount * 2).toNat
      omega
    · change b.mLastSegmentIndex.toNat = _ % (b.mSegmentArrayCount * 2).toNat
      rw [hnew, Nat.mod_eq_of_lt (by change b.mFirstSegmentIndex.toNat + _ < _; omega)]
      exact hlastq
    · change _ < (b.mSegmentArrayCount * 2).toNat
      omega
    · rintro block hblock
      obtain rfl := Option.some.inj hblock
      refine ⟨hnew.symm, ?_⟩
      change Ring _ (b.mSegmentArrayCount * 2).toNat b.mFirstSegmentIndex.toNat _
      rw [hnew]
      apply hring.grow (by omega) (by omega)
      intro i hi
      rw [Block.filled_outside (by omega), Block.resize_of_lt (by omega) (by omega),
        Nat.mod_eq_of_lt (by omega)]
  · have hadd : (b.mLastSegmentIndex + b.mSegmentArrayCount).toNat =
        b.mLastSegmentIndex.toNat + b.mSegmentArrayCount.toNat := by
      rw [UInt32.toNat_add]
      exact Nat.mod_eq_of_lt (by omega)
    have hsub : (b.mSegmentArrayCount * 2 - (b.mLastSegmentIndex + b.mSegmentArrayCount)).toNat =
        b.mSegmentArrayCount.toNat - b.mLastSegmentIndex.toNat := by
      rw [UInt32.toNat_sub_of_le _ _ (by rw [UInt32.le_iff_toNat_le, hnew, hadd]; omega), hnew, hadd]
      omega
    rw [if_pos (UInt32.lt_iff_toNat_lt.mpr hlt), hsub, hadd,
      Block.move_of_le (by rw [Block.size_resize]; omega) (by rw [Block.size_resize]; omega),
      Option.bind_some, Block.fill_of_le (by rw [Block.size_moved, Block.size_resize]; omega),
      Option.bind_some,
      Block.fill_of_le (by rw [Block.size_filled, Block.size_moved, Block.size_resize]; omega),
      Option.bind_some]
    refine ⟨_, rfl, ⟨hpow, ?_, ?_, ?_, ?_, fun hnone => by cases hnone⟩, hnew, rfl, rfl, nofun⟩
    · change b.mFirstSegmentIndex.toNat < (b.mSegmentArrayCount * 2).toNat
      omega
    · change (b.mLastSegmentIndex + b.mSegmentArrayCount).toNat =
        _ % (b.mSegmentArrayCount * 2).toNat
      rw [hnew, hadd, Nat.mod_eq_of_lt (by change b.mFirstSegmentIndex.toNat + _ < _; omega)]
      exact hlastq
    · change _ < (b.mSegmentArrayCount * 2).toNat
      omega
    · rintro block hblock
      obtain rfl := Option.some.inj hblock
      refine ⟨hnew.symm, ?_⟩
      change Ring _ (b.mSegmentArrayCount * 2).toNat b.mFirstSegmentIndex.toNat _
      rw [hnew]
      apply hring.grow (by omega) (by omega)
      intro i hi
      rw [hqlen] at hi
      rw [Block.filled_outside (by omega), Block.filled_outside (by omega)]
      by_cases hwrap : b.mFirstSegmentIndex.toNat + i < b.mSegmentArrayCount.toNat
      · rw [Block.moved_outside (by omega), Block.resize_of_lt (by omega) (by omega),
          Nat.mod_eq_of_lt hwrap]
      · rw [Block.moved_inside (by omega) (by omega), Block.resize_of_lt (by omega) (by omega),
          Nat.mod_eq_sub_mod (by omega), Nat.mod_eq_of_lt (by omega), Nat.zero_add]

/-- Where the size in bytes of the doubled array overflows, nothing is left of the array. -/
theorem growArray_eq_none {pointerSize : UInt32} {j : ℕ} (hpointer : pointerSize.toNat = 2 ^ j)
    (hfull : q.length + 1 = b.mSegmentArrayCount.toNat)
    (hbytes : 2 ^ 32 ≤ b.mSegmentArrayCount.toNat * 2 * pointerSize.toNat) :
    b.growArray pointerSize = none := by
  obtain ⟨k, -, hcount, hone⟩ := h.count
  have hgrown : (b.grownBytes pointerSize).toNat = 0 := by
    unfold grownBytes
    rw [hcount, hpointer, ← Nat.pow_succ, ← Nat.pow_add] at hbytes
    have hdvd : 2 ^ 32 ∣ 2 ^ (k + 1 + j) :=
      Nat.pow_dvd_pow 2 ((Nat.pow_le_pow_iff_right (by decide)).mp hbytes)
    rw [UInt32.toNat_mul, UInt32.toNat_mul, Nat.mod_mul_mod, hcount, hpointer]
    change 2 ^ k * 2 * 2 ^ j % 2 ^ 32 = 0
    rw [← Nat.pow_succ, ← Nat.pow_add]
    exact Nat.mod_eq_zero_of_dvd hdvd
  unfold nsSegmentedBuffer.growArray
  cases harray : b.mSegmentArray with
  | none => rfl
  | some array =>
    dsimp only [Option.bind_eq_bind, Option.bind_some]
    rw [hgrown, Nat.zero_div]
    by_cases hwrap : b.mLastSegmentIndex < b.mFirstSegmentIndex
    · rw [if_pos hwrap, Block.move, if_neg]
      · rfl
      · rw [Block.size_resize]
        omega
    · rw [if_neg hwrap, Block.fill, if_neg]
      · rfl
      · rw [Block.size_resize]
        rw [UInt32.lt_iff_toNat_lt] at hwrap
        have hcases := h.last_cases
        omega

theorem putSegment (seg : Segment) (hroom : q.length + 1 < b.mSegmentArrayCount.toNat)
    (harray : b.mSegmentArray ≠ none) :
    ∃ b', b.putSegment seg = some b' ∧ b'.Holds (q ++ [seg]) ∧
      b'.mSegmentArrayCount = b.mSegmentArrayCount ∧ b'.mSegmentSize = b.mSegmentSize ∧
      b'.mMaxSize = b.mMaxSize := by
  obtain ⟨array, hsome⟩ := Option.ne_none_iff_exists'.mp harray
  obtain ⟨hsize, hring⟩ := h.ring array hsome
  have hlast := h.last_lt
  have hlen : (q ++ [seg]).length = q.length + 1 := List.length_append
  unfold nsSegmentedBuffer.putSegment
  rw [hsome, Option.bind_eq_bind, Option.bind_some, Block.set_of_lt (by omega)]
  refine ⟨_, rfl, ⟨h.count, h.first, ?_, ?_, ?_, fun hnone => by cases hnone⟩, rfl, rfl, rfl⟩
  · change (b.ModSegArraySize (b.mLastSegmentIndex + 1)).toNat = _ % b.mSegmentArrayCount.toNat
    rw [h.toNat_mod_add, h.last, hlen]
    change (_ % _ + 1) % _ = _
    rw [Nat.mod_add_mod]
    rfl
  · rw [hlen]
    exact hroom
  · rintro block hblock
    obtain rfl := Option.some.inj hblock
    refine ⟨hsize, ?_⟩
    rw [List.map_append]
    have hplace : (b.mFirstSegmentIndex.toNat + (q.map some).length) % b.mSegmentArrayCount.toNat =
        b.mLastSegmentIndex.toNat := by rw [List.length_map, h.last]
    apply hring.push
    · rw [List.length_map]
      exact h.length
    · rw [hplace]
      exact Block.put_self
    · intro k hk
      rw [hplace] at hk
      exact Block.put_of_ne hk

/-- The index of the last segment. -/
theorem toNat_back {n : ℕ} (hn : q.length = n + 1) :
    (b.ModSegArraySize (b.mLastSegmentIndex - 1)).toNat =
      (b.mFirstSegmentIndex.toNat + n) % b.mSegmentArrayCount.toNat := by
  have hone : (1 : UInt32).toNat = 1 := rfl
  have hlength := h.length
  have hcount := h.count_le
  have hpos := UInt32.toNat_lt b.mSegmentArrayCount
  rw [h.toNat_mod, UInt32.toNat_sub, hone, Nat.mod_mod_of_dvd _ hcount.2]
  obtain ⟨m, hm⟩ := hcount.2
  have hle : 1 ≤ m := by
    rcases m with _ | m
    · simp at hm
    · omega
  rcases h.last_cases with ⟨hle', hlast⟩ | ⟨hlt, hlast⟩
  · rw [show 2 ^ 32 - 1 + b.mLastSegmentIndex.toNat =
      b.mFirstSegmentIndex.toNat + n + b.mSegmentArrayCount.toNat * m by omega,
      Nat.add_mul_mod_self_left]
  · obtain ⟨m', rfl⟩ : ∃ m', m = m' + 1 := ⟨m - 1, by omega⟩
    rw [Nat.mul_add, Nat.mul_one] at hm
    rw [show 2 ^ 32 - 1 + b.mLastSegmentIndex.toNat =
      b.mFirstSegmentIndex.toNat + n + b.mSegmentArrayCount.toNat * m' by omega,
      Nat.add_mul_mod_self_left]

/-- The last segment is in the array. -/
theorem back_cell {seg : Segment} {rest : List Segment} (hq : q = rest ++ [seg]) :
    ∃ array, b.mSegmentArray = some array ∧
      (b.ModSegArraySize (b.mLastSegmentIndex - 1)).toNat =
        (b.mFirstSegmentIndex.toNat + rest.length) % b.mSegmentArrayCount.toNat ∧
      (b.ModSegArraySize (b.mLastSegmentIndex - 1)).toNat < array.size ∧
      array.cell (b.ModSegArraySize (b.mLastSegmentIndex - 1)).toNat = some seg := by
  subst hq
  have hback := h.toNat_back (n := rest.length) List.length_append
  cases hsome : b.mSegmentArray with
  | none => exact absurd (h.array hsome).1 (by simp)
  | some array =>
    obtain ⟨hsize, hring⟩ := h.ring array hsome
    refine ⟨array, rfl, hback, ?_, ?_⟩
    · rw [hback, hsize]
      exact Nat.mod_lt _ (Nat.zero_lt_of_lt h.first)
    · rw [hback]
      exact hring.cell_eq rest.length (some seg) (by simp)

theorem lastSegment {seg : Segment} {rest : List Segment} (hq : q = rest ++ [seg]) :
    b.lastSegment = some (some seg) := by
  obtain ⟨array, hsome, -, hlt, hcell⟩ := h.back_cell hq
  unfold nsSegmentedBuffer.lastSegment
  rw [hsome, Option.bind_eq_bind, Option.bind_some, Block.get_of_lt hlt, hcell]

theorem deleteLastSegment {seg : Segment} {rest : List Segment} (hq : q = rest ++ [seg]) :
    ∃ b', b.DeleteLastSegment = some (some seg, b') ∧ b'.Holds rest ∧
      b'.mSegmentArrayCount = b.mSegmentArrayCount ∧ b'.mSegmentSize = b.mSegmentSize ∧
      b'.mMaxSize = b.mMaxSize := by
  obtain ⟨array, hsome, hback, hlt, hcell⟩ := h.back_cell hq
  obtain ⟨hsize, hring⟩ := h.ring array hsome
  have hlength := h.length
  rw [hq, List.length_append] at hlength
  unfold DeleteLastSegment
  simp only [Option.bind_eq_bind]
  rw [hsome, Option.bind_some, Block.get_of_lt hlt, hcell, Option.bind_some,
    Block.set_of_lt hlt]
  refine ⟨_, rfl, ⟨h.count, h.first, hback, Nat.lt_of_succ_lt hlength, ?_,
    fun hnone => by cases hnone⟩, rfl, rfl, rfl⟩
  rintro block hblock
  obtain rfl := Option.some.inj hblock
  rw [hq, List.map_append] at hring
  refine ⟨hsize, hring.unpush fun k hk => ?_⟩
  rw [List.length_map, ← hback] at hk
  exact Block.put_of_ne hk

/-- The last segment is another one. -/
theorem reallocLastSegment {seg : Segment} {rest : List Segment} (hq : q = rest ++ [seg])
    (new : Segment) : ∃ b', b.ReallocLastSegment (some new) = some b' ∧ b'.Holds (rest ++ [new]) ∧
      b'.mSegmentArrayCount = b.mSegmentArrayCount ∧ b'.mSegmentSize = b.mSegmentSize ∧
      b'.mMaxSize = b.mMaxSize := by
  obtain ⟨array, hsome, hback, hlt, -⟩ := h.back_cell hq
  obtain ⟨hsize, hring⟩ := h.ring array hsome
  have hlen : (rest ++ [new]).length = q.length := by
    rw [hq, List.length_append, List.length_append]
    rfl
  have hlength := h.length
  rw [hq, List.length_append, List.length_singleton] at hlength
  unfold ReallocLastSegment
  simp only [Option.bind_eq_bind]
  rw [hsome, Option.bind_some, Block.set_of_lt hlt]
  refine ⟨_, rfl, ⟨h.count, h.first, ?_, ?_, ?_, fun hnone => by cases hnone⟩, rfl, rfl, rfl⟩
  · rw [hlen]
    exact h.last
  · rw [hlen]
    exact h.length
  rintro block hblock
  obtain rfl := Option.some.inj hblock
  refine ⟨hsize, ?_⟩
  rw [List.map_append]
  have hrest : Ring array.cell b.mSegmentArrayCount.toNat b.mFirstSegmentIndex.toNat
      (rest.map some) := by
    rw [hq, List.map_append] at hring
    exact hring.unpush fun _ _ => rfl
  apply hrest.push
  · rw [List.length_map]
    omega
  · rw [List.length_map, ← hback, Block.put_self]
  · intro k hk
    rw [List.length_map, ← hback] at hk
    exact Block.put_of_ne hk

theorem deleteFirstSegment {seg : Segment} {rest : List Segment} (hq : q = seg :: rest) :
    ∃ b' last, b.DeleteFirstSegment = some (some seg, last, b') ∧ b'.Holds rest ∧
      b'.mSegmentArrayCount = b.mSegmentArrayCount ∧ b'.mSegmentSize = b.mSegmentSize ∧
      b'.mMaxSize = b.mMaxSize := by
  subst hq
  have hfirst := h.first
  have hlength := h.length
  rw [List.length_cons] at hlength
  cases hsome : b.mSegmentArray with
  | none => exact absurd (h.array hsome).1 (List.cons_ne_nil _ _)
  | some array =>
    obtain ⟨hsize, hring⟩ := h.ring array hsome
    have hcell : array.cell b.mFirstSegmentIndex.toNat = some seg := by
      have hzero := hring.cell_eq 0 (some seg) rfl
      rwa [Nat.add_zero, Nat.mod_eq_of_lt hfirst] at hzero
    have hback := h.toNat_back List.length_cons
    have hring' : Ring (array.put b.mFirstSegmentIndex.toNat none).cell
        b.mSegmentArrayCount.toNat ((b.mFirstSegmentIndex.toNat + 1) % b.mSegmentArrayCount.toNat)
        (rest.map some) := hring.pop fun k hk => Block.put_of_ne hk
    unfold DeleteFirstSegment
    simp only [Option.bind_eq_bind]
    rw [hsome, Option.bind_some, Block.get_of_lt (by omega), hcell,
      Option.bind_some, Block.set_of_lt (by omega), Option.bind_some]
    split_ifs with hlast
    · have hempty : rest = [] := by
        have heq := congrArg UInt32.toNat hlast
        rw [hback] at heq
        by_contra hne
        have hpos := List.length_pos_iff.mpr hne
        have hmod := Ring.mod_ne b.mSegmentArrayCount.toNat
          b.mFirstSegmentIndex.toNat hpos (by omega)
        rw [Nat.add_zero, Nat.mod_eq_of_lt hfirst] at hmod
        exact hmod heq
      subst hempty
      refine ⟨_, true, rfl, ⟨h.count, hfirst, ?_, Nat.zero_lt_of_lt hfirst, ?_,
        fun hnone => by cases hnone⟩, rfl, rfl, rfl⟩
      · exact hback
      · rintro block hblock
        obtain rfl := Option.some.inj hblock
        exact ⟨hsize, .nil hfirst⟩
    · refine ⟨_, false, rfl, ⟨h.count, ?_, ?_, Nat.lt_of_succ_lt hlength, ?_,
        fun hnone => by cases hnone⟩, rfl, rfl, rfl⟩
      · change (b.ModSegArraySize (b.mFirstSegmentIndex + 1)).toNat < _
        rw [h.toNat_mod]
        exact Nat.mod_lt _ (Nat.zero_lt_of_lt hfirst)
      · change b.mLastSegmentIndex.toNat =
          ((b.ModSegArraySize (b.mFirstSegmentIndex + 1)).toNat + _) % _
        rw [h.toNat_mod_add, h.last, List.length_cons, Nat.mod_add_mod]
        change _ = (_ + 1 + _) % _
        congr 1
        omega
      · rintro block hblock
        obtain rfl := Option.some.inj hblock
        refine ⟨hsize, ?_⟩
        change Ring _ _ (b.ModSegArraySize (b.mFirstSegmentIndex + 1)).toNat _
        rw [h.toNat_mod_add]
        exact hring'

theorem makeRoom {pointerSize : UInt32} (hpointer : 4 ≤ pointerSize.toNat)
    (hbytes : b.IsFull = true → b.mSegmentArrayCount.toNat * 2 * pointerSize.toNat < 2 ^ 32)
    (harray : b.mSegmentArray ≠ none) :
    ∃ b', b.makeRoom pointerSize = some b' ∧ b'.Holds q ∧
      q.length + 1 < b'.mSegmentArrayCount.toNat ∧ b'.mSegmentArray ≠ none ∧
      b'.mSegmentSize = b.mSegmentSize ∧ b'.mMaxSize = b.mMaxSize := by
  unfold nsSegmentedBuffer.makeRoom
  by_cases hfull : b.IsFull = true
  · have hlen := h.isFull_iff.mp hfull
    obtain ⟨b', hb', hholds, hcount, hsize, hmax, harray'⟩ :=
      h.growArray hpointer hlen (hbytes hfull) harray
    rw [if_pos hfull]
    exact ⟨b', hb', hholds, by omega, harray', hsize, hmax⟩
  · have hlen := mt h.isFull_iff.mpr hfull
    have hlength := h.length
    rw [if_neg hfull]
    exact ⟨b, rfl, h, by omega, harray, rfl, rfl⟩

theorem getSize (hsize : q.length * b.mSegmentSize.toNat < 2 ^ 32) :
    b.GetSize.toNat = q.length * b.mSegmentSize.toNat := by
  unfold GetSize
  rw [UInt32.toNat_mul, h.segmentCount]
  exact Nat.mod_eq_of_lt hsize

/-- A new segment, unless the buffer has reached its size or there is no memory. The array must
not have to grow beyond what can be asked for. -/
theorem appendNewSegment {pointerSize : UInt32} (alloc : Allocation) (seg : Segment)
    (hpointer : 4 ≤ pointerSize.toNat) (hsize : q.length * b.mSegmentSize.toNat < 2 ^ 32)
    (hbytes : alloc.grow = true → ¬b.mMaxSize ≤ b.GetSize → b.IsFull = true →
      b.mSegmentArrayCount.toNat * 2 * pointerSize.toNat < 2 ^ 32) :
    ∃ r b', b.AppendNewSegment pointerSize alloc seg = some (r, b') ∧
      ((r = none ∧ b'.Holds q ∧ (alloc.granted = true → b.mMaxSize ≤ b.GetSize)) ∨
        (r = some seg ∧ b'.Holds (q ++ [seg]) ∧
          q.length * b.mSegmentSize.toNat < b.mMaxSize.toNat)) ∧
      b'.mSegmentSize = b.mSegmentSize ∧ b'.mMaxSize = b.mMaxSize := by
  unfold AppendNewSegment
  by_cases hlimit : b.mMaxSize ≤ b.GetSize
  · rw [if_pos hlimit]
    exact ⟨_, _, rfl, .inl ⟨rfl, h, fun _ => hlimit⟩, rfl, rfl⟩
  rw [if_neg hlimit]
  have hlt : q.length * b.mSegmentSize.toNat < b.mMaxSize.toNat := by
    rw [UInt32.le_iff_toNat_le, h.getSize hsize] at hlimit
    exact Nat.lt_of_not_le hlimit
  by_cases halloc : (b.mSegmentArray.isNone && !alloc.array) = true
  · rw [if_pos halloc]
    refine ⟨_, _, rfl, .inl ⟨rfl, h, fun hgranted => ?_⟩, rfl, rfl⟩
    rw [(Allocation.granted_iff.mp hgranted).1, Bool.not_true, Bool.and_false] at halloc
    cases halloc
  rw [if_neg halloc]
  by_cases hgrow : (b.allocArray.IsFull && !alloc.grow) = true
  · rw [if_pos hgrow]
    refine ⟨_, _, rfl, .inl ⟨rfl, h.allocArray, fun hgranted => ?_⟩, rfl, rfl⟩
    rw [(Allocation.granted_iff.mp hgranted).2.1, Bool.not_true, Bool.and_false] at hgrow
    cases hgrow
  rw [if_neg hgrow]
  have hgrown : b.allocArray.IsFull = true → alloc.grow = true := by
    intro hfull
    rw [hfull, Bool.true_and, Bool.not_eq_true', Bool.not_eq_false] at hgrow
    exact hgrow
  obtain ⟨b₁, hroom₁, hholds, hroom, harray, hsize₁, hmax₁⟩ :=
    h.allocArray.makeRoom hpointer (fun hfull => hbytes (hgrown hfull) hlimit hfull) nofun
  rw [hroom₁, Option.bind_some]
  cases hsegment : alloc.segment with
  | false =>
    refine ⟨_, _, rfl, .inl ⟨rfl, hholds, fun hgranted => ?_⟩, hsize₁, hmax₁⟩
    rw [(Allocation.granted_iff.mp hgranted).2.2] at hsegment
    cases hsegment
  | true =>
    obtain ⟨b₂, hput, hholds₂, -, hsize₂, hmax₂⟩ := hholds.putSegment seg hroom harray
    rw [hput]
    exact ⟨_, _, rfl, .inr ⟨rfl, hholds₂, hlt⟩, hsize₂.trans hsize₁, hmax₂.trans hmax₁⟩

/-- There is no result where the array would have to grow beyond what can be asked for. -/
theorem appendNewSegment_eq_none {pointerSize : UInt32} {alloc : Allocation} (seg : Segment) {j : ℕ}
    (hpointer : pointerSize.toNat = 2 ^ j) (hgrow : alloc.grow = true)
    (hlimit : ¬b.mMaxSize ≤ b.GetSize) (hfull : b.IsFull = true)
    (hbytes : 2 ^ 32 ≤ b.mSegmentArrayCount.toNat * 2 * pointerSize.toNat) :
    b.AppendNewSegment pointerSize alloc seg = none := by
  have hlen := h.isFull_iff.mp hfull
  have harray : b.mSegmentArray.isNone = false := by
    cases harray : b.mSegmentArray with
    | some array => rfl
    | none =>
      obtain ⟨-, -, -, hone⟩ := h.count
      rw [(h.array harray).1, List.length_nil] at hlen
      omega
  have hfull' : b.allocArray.IsFull = true := hfull
  unfold AppendNewSegment
  rw [if_neg hlimit, harray, Bool.false_and, if_neg Bool.false_ne_true]
  dsimp only
  rw [hfull', hgrow, Bool.not_true, Bool.and_false, if_neg Bool.false_ne_true,
    nsSegmentedBuffer.makeRoom, if_pos hfull',
    h.allocArray.growArray_eq_none hpointer hlen hbytes, Option.bind_none]

end Holds

theorem growArray_count {b b' : nsSegmentedBuffer} {pointerSize : UInt32}
    (h : b.growArray pointerSize = some b') : b'.mSegmentArrayCount = b.mSegmentArrayCount * 2 := by
  unfold nsSegmentedBuffer.growArray at h
  simp only [Option.bind_eq_bind, Option.bind_eq_some_iff] at h
  obtain ⟨array, -, h⟩ := h
  split at h
  · simp only [Option.bind_eq_some_iff, Option.some.injEq] at h
    obtain ⟨-, -, -, -, -, -, rfl⟩ := h
    rfl
  · simp only [Option.bind_eq_some_iff, Option.some.injEq] at h
    obtain ⟨-, -, rfl⟩ := h
    rfl

/-- The array is doubled only when it is full. -/
theorem appendNewSegment_count {b b' : nsSegmentedBuffer} {pointerSize : UInt32} {alloc : Allocation}
    {seg : Segment} {r : Option Segment}
    (h : b.AppendNewSegment pointerSize alloc seg = some (r, b')) :
    b'.mSegmentArrayCount = b.mSegmentArrayCount ∨
      alloc.grow = true ∧ ¬b.mMaxSize ≤ b.GetSize ∧ b.IsFull = true ∧
        b'.mSegmentArrayCount = b.mSegmentArrayCount * 2 := by
  have hput : ∀ b₁ : nsSegmentedBuffer,
      (if alloc.segment then (b₁.putSegment seg).map (some seg, ·) else some (none, b₁)) =
        some (r, b') → b'.mSegmentArrayCount = b₁.mSegmentArrayCount := by
    intro b₁ h
    split at h
    · unfold nsSegmentedBuffer.putSegment at h
      simp only [Option.bind_eq_bind, Option.map_eq_some_iff, Option.bind_eq_some_iff,
        Option.some.injEq, Prod.mk.injEq] at h
      obtain ⟨-, ⟨-, -, -, -, rfl⟩, -, rfl⟩ := h
      rfl
    · cases h
      rfl
  unfold AppendNewSegment at h
  split at h
  · cases h
    exact .inl rfl
  · split at h
    · cases h
      exact .inl rfl
    · dsimp only at h
      split at h
      · cases h
        exact .inl rfl
      · rename_i hlimit _ hgrow
        obtain ⟨b₁, hroom, h⟩ := Option.bind_eq_some_iff.mp h
        rw [hput b₁ h]
        unfold nsSegmentedBuffer.makeRoom at hroom
        split at hroom
        · rename_i hfull
          rw [hfull, Bool.true_and, Bool.not_eq_true', Bool.not_eq_false] at hgrow
          have hcount := growArray_count hroom
          exact .inr ⟨hgrow, hlimit, hfull, hcount⟩
        · cases hroom
          exact .inl rfl

end nsSegmentedBuffer

end Kompozer.Io

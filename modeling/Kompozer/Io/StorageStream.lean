import Kompozer.Io.SegmentedBuffer
import Kompozer.Xpcom

/-! Storage streams (`nsStorageStream.cpp`): one writer, and any number of readers over the same
segments. A step that fails an assertion about segments, or reads or writes what is not in a
segment, has no result. -/

namespace Kompozer.Io.Storage

open NsResult

def PR_MIN (x y : UInt32) : UInt32 := if x < y then x else y

theorem toNat_PR_MIN (x y : UInt32) : (PR_MIN x y).toNat = min x.toNat y.toNat := by
  unfold PR_MIN
  split_ifs with h
  · exact (Nat.min_eq_left (Nat.le_of_lt (UInt32.lt_iff_toNat_lt.mp h))).symm
  · exact (Nat.min_eq_right (Nat.le_of_not_lt fun hlt => h (UInt32.lt_iff_toNat_lt.mpr hlt))).symm

/-! ### The allocator -/

/-- What comes of a `Realloc`. -/
inductive Realloc
  | refused | inPlace | moved

/-- The answers of the allocator, which may depend on what was allocated before. -/
structure Allocator where
  platform : Platform
  alloc : Segment → Allocation
  realloc : Segment → Realloc

/-- A pointer into a segment, or null. -/
structure Place where
  seg : Option Segment := none
  off : ℕ := 0
deriving DecidableEq

/-- `mSegmentEnd - cursor`. -/
def Place.room (cursor segmentEnd : Place) : ℕ := segmentEnd.off - cursor.off

def Place.advance (p : Place) (n : ℕ) : Place := { p with off := p.off + n }

structure Heap where
  cell : Segment → ℕ → UInt8 := fun _ _ => 0
  capacity : Segment → ℕ := fun _ => 0
  freed : Segment → Bool := fun _ => false
  newSegment : Segment := 0

namespace Heap

variable (h : Heap)

/-- `n` bytes from `off` on are in the segment. -/
def Has (seg : Segment) (off n : ℕ) : Prop := h.freed seg = false ∧ off + n ≤ h.capacity seg

instance (seg : Segment) (off n : ℕ) : Decidable (h.Has seg off n) :=
  inferInstanceAs (Decidable (_ ∧ _))

/-- `memcpy`, from a segment. -/
def read (p : Place) (n : ℕ) : Option (List UInt8) :=
  if n = 0 then some []
  else p.seg.bind fun seg => if h.Has seg p.off n then some (bytesAt h.cell seg p.off n) else none

/-- `memcpy`, to a segment. -/
def write (p : Place) (bytes : List UInt8) : Option Heap :=
  if bytes = [] then some h
  else p.seg.bind fun seg =>
    if h.Has seg p.off bytes.length then some { h with cell := putBytes h.cell seg p.off bytes }
    else none

/-- The size of a new segment. -/
def alloc (size : ℕ) : Heap :=
  { h with
    capacity := Function.update h.capacity h.newSegment size, newSegment := h.newSegment + 1 }

def free (seg : Segment) : Heap := { h with freed := Function.update h.freed seg true }

def realloc (r : Realloc) (seg : Segment) (size : ℕ) : Option Segment × Heap :=
  match r with
  | .refused => (none, { h with newSegment := h.newSegment + 1 })
  | .inPlace => (some seg,
    { h with capacity := Function.update h.capacity seg size, newSegment := h.newSegment + 1 })
  | .moved => (some h.newSegment, { h with
    cell := putBytes h.cell h.newSegment 0 (bytesAt h.cell seg 0 (min (h.capacity seg) size))
    capacity := Function.update h.capacity h.newSegment size
    freed := Function.update h.freed seg true
    newSegment := h.newSegment + 1 })

end Heap

/-! ### The output stream -/

structure nsStorageStream where
  mSegmentedBuffer : nsSegmentedBuffer
  mSegmentSize : UInt32
  mSegmentSizeLog2 : UInt32
  mWriteInProgress : Bool := false
  mLastSegmentNum : ℤ := -1
  mWriteCursor : Place := {}
  mSegmentEnd : Place := {}
  mLogicalLength : UInt32 := 0

namespace nsStorageStream

def PR_FloorLog2 (n : UInt32) : UInt32 := UInt32.ofNat n.toNat.log2

/-- `NS_NewStorageStream`. The segment size must be a power of two. -/
def Init (segmentSize maxSize : UInt32) : Except NsResult nsStorageStream :=
  let mSegmentSizeLog2 := PR_FloorLog2 segmentSize
  if segmentSize ≠ 1 <<< mSegmentSizeLog2 then .error NS_ERROR_ILLEGAL_VALUE
  else .ok {
    mSegmentedBuffer := { mSegmentSize := segmentSize, mMaxSize := maxSize }
    mSegmentSize := segmentSize, mSegmentSizeLog2 }

variable (A : Allocator) (s : nsStorageStream) (h : Heap)

def SegNum (aPosition : UInt32) : UInt32 := aPosition >>> s.mSegmentSizeLog2

def SegOffset (aPosition : UInt32) : UInt32 := aPosition &&& (s.mSegmentSize - 1)

/-- `GetSegment` of the buffer, with its assertion. -/
def segment (indx : UInt32) : Option Segment :=
  if indx < s.mSegmentedBuffer.GetSegmentCount then (s.mSegmentedBuffer.GetSegment indx).join
  else none

/-- `ReallocLastSegment` of the buffer. -/
def reallocLast (newSize : UInt32) : Option (nsStorageStream × Heap) := do
  let seg ← s.mSegmentedBuffer.lastSegment
  let seg ← seg
  let (newSegment, h) := h.realloc (A.realloc h.newSegment) seg newSize.toNat
  let mSegmentedBuffer ← s.mSegmentedBuffer.ReallocLastSegment newSegment
  some ({ s with mSegmentedBuffer }, h)

/-- `DeleteLastSegment`, `n` times. -/
def deleteLast : ℕ → nsStorageStream → Heap → Option (nsStorageStream × Heap)
  | 0, s, h => some (s, h)
  | n + 1, s, h => do
    let (seg, mSegmentedBuffer) ← s.mSegmentedBuffer.DeleteLastSegment
    let seg ← seg
    deleteLast n { s with mSegmentedBuffer, mLastSegmentNum := s.mLastSegmentNum - 1 } (h.free seg)

def SetLength (aLength : UInt32) : Option (NsResult × nsStorageStream × Heap) :=
  if s.mWriteInProgress then some (NS_ERROR_NOT_AVAILABLE, s, h)
  else if s.mLogicalLength < aLength then some (NS_ERROR_ILLEGAL_VALUE, s, h)
  else do
    let newLastSegmentNum : ℤ := (s.SegNum aLength).toNat
    let newLastSegmentNum :=
      if s.SegOffset aLength = 0 then newLastSegmentNum - 1 else newLastSegmentNum
    let (s, h) ← deleteLast (s.mLastSegmentNum - newLastSegmentNum).toNat s h
    some (ok, { s with mLogicalLength := aLength }, h)

def Seek (aPosition : UInt32) : Option (NsResult × nsStorageStream × Heap) :=
  let aPosition := if aPosition = 0xFFFFFFFF then s.mLogicalLength else aPosition
  if s.mLogicalLength < aPosition then some (NS_ERROR_ILLEGAL_VALUE, s, h)
  else do
    let (_, s, h) ← s.SetLength h aPosition
    if aPosition = 0 then some (ok, { s with mWriteCursor := {}, mSegmentEnd := {} }, h)
    else
      let seg ← s.segment (UInt32.ofNat s.mLastSegmentNum.toNat)
      let mSegmentEnd : Place := ⟨seg, s.mSegmentSize.toNat⟩
      let segmentOffset := s.SegOffset aPosition
      let mWriteCursor :=
        if segmentOffset = 0 ∧ s.mLastSegmentNum < (s.SegNum aPosition).toNat then mSegmentEnd
        else ⟨seg, segmentOffset.toNat⟩
      some (ok, { s with mWriteCursor, mSegmentEnd }, h)

def GetOutputStream (aStartingOffset : UInt32) : Option (NsResult × nsStorageStream × Heap) :=
  if s.mWriteInProgress then some (NS_ERROR_NOT_AVAILABLE, s, h)
  else do
    let (rv, s, h) ← s.Seek h aStartingOffset
    if rv.failed then some (rv, s, h)
    else
      let (s, h) ←
        if 0 ≤ s.mLastSegmentNum then s.reallocLast A h s.mSegmentSize else some (s, h)
      let (rv, s, h) ← s.Seek h aStartingOffset
      if rv.failed then some (rv, s, h)
      else some (ok, { s with mWriteInProgress := true }, h)

/-- The final segment is shrunk to what is needed for the data. -/
def shrinkLast : Option (nsStorageStream × Heap) :=
  let segmentOffset := s.SegOffset s.mLogicalLength
  if segmentOffset ≠ 0 then s.reallocLast A h segmentOffset else some (s, h)

def Close : Option (nsStorageStream × Heap) := do
  let (s, h) ← shrinkLast A { s with mWriteInProgress := false } h
  some ({ s with mWriteCursor := {}, mSegmentEnd := {} }, h)

/-- A new segment, where there is no room. The first result is false where there is none. -/
def newSegment : Option (Bool × nsStorageStream × Heap) :=
  if s.mWriteCursor.room s.mSegmentEnd = 0 then do
    let (seg, mSegmentedBuffer) ← s.mSegmentedBuffer.AppendNewSegment A.platform.pointerSize
      (A.alloc h.newSegment) h.newSegment
    let h := h.alloc s.mSegmentSize.toNat
    match seg with
    | none => some (false, { s with mSegmentedBuffer, mWriteCursor := {}, mSegmentEnd := {} }, h)
    | some seg => some (true, { s with
      mSegmentedBuffer, mLastSegmentNum := s.mLastSegmentNum + 1, mWriteCursor := ⟨seg, 0⟩,
      mSegmentEnd := ⟨seg, s.mSegmentSize.toNat⟩ }, h)
  else some (true, s, h)

/-- The loop of `Write`, with what remains to be written. -/
def writeLoop : ℕ → Bool → List UInt8 → nsStorageStream → Heap →
    Option (NsResult × List UInt8 × nsStorageStream × Heap)
  | 0, _, _, _, _ => none
  | fuel + 1, firstTime, remaining, s, h =>
    if remaining = [] ∧ firstTime = false then some (ok, [], s, h)
    else do
      let (granted, s, h) ← s.newSegment A h
      if granted then
        let count := min (s.mWriteCursor.room s.mSegmentEnd) remaining.length
        let h ← h.write s.mWriteCursor (remaining.take count)
        writeLoop fuel false (remaining.drop count)
          { s with mWriteCursor := s.mWriteCursor.advance count } h
      else some (NS_ERROR_OUT_OF_MEMORY, remaining, s, h)

/-- With the number of bytes that are written. -/
def Write (aBuffer : List UInt8) : Option (NsResult × ℕ × nsStorageStream × Heap) := do
  let firstTime : Bool := s.mSegmentedBuffer.GetSegmentCount = 0
  let (rv, remaining, s, h) ← writeLoop A (aBuffer.length + 2) firstTime aBuffer s h
  let aNumWritten := aBuffer.length - remaining.length
  some (rv, aNumWritten,
    { s with mLogicalLength := s.mLogicalLength + UInt32.ofNat aNumWritten }, h)

end nsStorageStream

/-! ### The input streams -/

structure nsStorageInputStream where
  mReadCursor : Place := {}
  mSegmentEnd : Place := {}
  mSegmentNum : UInt32 := 0
  mLogicalCursor : UInt32 := 0

inductive Whence
  | NS_SEEK_SET | NS_SEEK_CUR | NS_SEEK_END

namespace nsStorageInputStream

variable (s : nsStorageStream) (h : Heap) (r : nsStorageInputStream)

/-- The `Seek` to a position of 32 bits. -/
def seekTo (aPosition : UInt32) : Option (NsResult × nsStorageInputStream) :=
  if s.mLogicalLength < aPosition then some (NS_ERROR_ILLEGAL_VALUE, r)
  else if s.mLogicalLength = 0 then some (ok, r)
  else do
    let mSegmentNum := s.SegNum aPosition
    let segmentOffset := s.SegOffset aPosition
    let seg ← s.segment mSegmentNum
    let mReadCursor : Place := ⟨seg, segmentOffset.toNat⟩
    let available := s.mLogicalLength - aPosition
    let mSegmentEnd := mReadCursor.advance (PR_MIN (s.mSegmentSize - segmentOffset) available).toNat
    some (ok, { mReadCursor, mSegmentEnd, mSegmentNum, mLogicalCursor := aPosition })

/-- The position that a `Seek` asks for. -/
def seekPos (aWhence : Whence) (aOffset : Int64) : Int64 :=
  match aWhence with
  | .NS_SEEK_SET => aOffset
  | .NS_SEEK_CUR => aOffset + r.mLogicalCursor.toUInt64.toInt64
  | .NS_SEEK_END => aOffset + s.mLogicalLength.toUInt64.toInt64

def Seek (aWhence : Whence) (aOffset : Int64) : Option (NsResult × nsStorageInputStream) :=
  let pos := r.seekPos s aWhence aOffset
  if pos = r.mLogicalCursor.toUInt64.toInt64 then some (ok, r)
  else r.seekTo s pos.toUInt64.toUInt32

/-- The reader goes on to the next segment. It does not where no data is left. -/
def nextSegment : Option (Option nsStorageInputStream) := do
  let available := s.mLogicalLength - r.mLogicalCursor
  if available = 0 then some none
  else
    let mSegmentNum := r.mSegmentNum + 1
    let seg ← s.segment mSegmentNum
    some (some { r with
      mSegmentNum, mReadCursor := ⟨seg, 0⟩
      mSegmentEnd := ⟨seg, (PR_MIN s.mSegmentSize available).toNat⟩ })

/-- The cursor is moved over `n` bytes. -/
def advance (n : ℕ) : nsStorageInputStream :=
  { r with
    mReadCursor := r.mReadCursor.advance n
    mLogicalCursor := r.mLogicalCursor + UInt32.ofNat n }

/-- The loop of `Read`, with the bytes that are read. -/
def readLoop : ℕ → ℕ → nsStorageInputStream → Option (nsStorageInputStream × List UInt8)
  | 0, _, _ => none
  | fuel + 1, remainingCapacity, r =>
    if remainingCapacity = 0 then some (r, [])
    else do
      let availableInSegment := r.mReadCursor.room r.mSegmentEnd
      match ← (if availableInSegment = 0 then r.nextSegment s else some (some r)) with
      | none => some (r, [])
      | some r =>
        let count := min availableInSegment remainingCapacity
        let bytes ← h.read r.mReadCursor count
        let (r, rest) ← readLoop fuel (remainingCapacity - count) (r.advance count)
        some (r, bytes ++ rest)

/-- The result of a read of `aNumRead` bytes. -/
def readResult (aNumRead : ℕ) : NsResult :=
  if aNumRead = 0 ∧ s.mWriteInProgress then NS_BASE_STREAM_WOULD_BLOCK else ok

def Read (aCount : UInt32) : Option (NsResult × nsStorageInputStream × List UInt8) := do
  let (r, bytes) ← readLoop s h (2 * aCount.toNat + 1) aCount.toNat r
  some (readResult s bytes.length, r, bytes)

/-- A call of the function that `ReadSegments` writes with: where the bytes are, the bytes, and how
many of them it consumed, which is none where it failed. -/
structure Shown where
  toOffset : UInt32
  fromSegment : List UInt8
  bytesConsumed : ℕ

/-- The loop of `ReadSegments`, with how many bytes the function would consume at each call. -/
def segmentsLoop : ℕ → ℕ → List ℕ → nsStorageInputStream →
    Option (nsStorageInputStream × List Shown)
  | 0, _, _, _ => none
  | fuel + 1, remainingCapacity, writer, r =>
    if remainingCapacity = 0 then some (r, [])
    else do
      match ← (if r.mReadCursor.room r.mSegmentEnd = 0 then r.nextSegment s else some (some r)) with
      | none => some (r, [])
      | some r =>
        let count := min (r.mReadCursor.room r.mSegmentEnd) remainingCapacity
        let bytes ← h.read r.mReadCursor count
        let bytesConsumed := min (writer.headD 0) count
        let shown : Shown := ⟨r.mLogicalCursor, bytes, bytesConsumed⟩
        if bytesConsumed = 0 then some (r, [shown])
        else
          let (r, rest) ← segmentsLoop fuel (remainingCapacity - bytesConsumed) writer.tail
            (r.advance bytesConsumed)
          some (r, shown :: rest)

/-- The bytes that were consumed. -/
def consumed (shown : List Shown) : List UInt8 :=
  shown.flatMap fun call => call.fromSegment.take call.bytesConsumed

def ReadSegments (writer : List ℕ) (aCount : UInt32) :
    Option (NsResult × nsStorageInputStream × List Shown) := do
  let (r, shown) ← segmentsLoop s h (aCount.toNat + 1) aCount.toNat writer r
  some (readResult s (consumed shown).length, r, shown)

end nsStorageInputStream

end Kompozer.Io.Storage

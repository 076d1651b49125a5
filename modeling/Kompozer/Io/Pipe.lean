import Kompozer.Io.SegmentedBuffer
import Kompozer.Xpcom

/-! Pipes (`nsPipe3.cpp`), and the steps of one reader and one writer, each done inside of the
monitor or on a segment that the side holds. A step through a null pointer or into a segment that
was freed has no result. -/

namespace Kompozer.Io

open NsResult

def DEFAULT_SEGMENT_SIZE : UInt32 := 4096
def DEFAULT_SEGMENT_COUNT : UInt32 := 16

/-- A pointer into a segment, or to its end. -/
structure Ptr where
  seg : Segment
  off : ℕ
deriving DecidableEq

/-- Segments may be allocated back-to-back, so that pointers into different ones are equal. -/
structure Machine where
  platform : Platform
  address : Segment → ℕ

namespace Machine

variable (m : Machine)

def addr (p : Ptr) : ℕ := m.address p.seg + p.off

/-- `p == q`. -/
def same : Option Ptr → Option Ptr → Bool
  | none, none => true
  | some p, some q => m.addr p = m.addr q
  | _, _ => false

/-- `p > q`. -/
def above : Option Ptr → Option Ptr → Bool
  | some p, some q => m.addr q < m.addr p
  | some _, none => true
  | none, _ => false

end Machine

/-- `mAvailable` and `mWritable` are those of the two streams. -/
structure nsPipe where
  mBuffer : nsSegmentedBuffer
  mReadCursor : Option Ptr := none
  mReadLimit : Option Ptr := none
  mWriteSegment : ℤ := -1
  mWriteCursor : Option Ptr := none
  mWriteLimit : Option Ptr := none
  mStatus : NsResult := ok
  mAvailable : UInt32 := 0
  mWritable : Bool := true

namespace nsPipe

/-- The sizes that are used, without the protection against overflow. -/
def segmentSizeOf (segmentSize : UInt32) : UInt32 :=
  if segmentSize = 0 then DEFAULT_SEGMENT_SIZE else segmentSize

def segmentCountOf (segmentCount : UInt32) : UInt32 :=
  if segmentCount = 0 then DEFAULT_SEGMENT_COUNT else segmentCount

def Init (segmentSize segmentCount : UInt32) : nsPipe :=
  let segmentSize := segmentSizeOf segmentSize
  let segmentCount := segmentCountOf segmentCount
  let maxCount := 0xFFFFFFFF / segmentSize
  let segmentCount := if maxCount < segmentCount then maxCount else segmentCount
  { mBuffer := { mSegmentSize := segmentSize, mMaxSize := segmentSize * segmentCount } }

variable (m : Machine) (p : nsPipe)

/-- A result and a segment, with its length. -/
abbrev Got := Except NsResult (Ptr × ℕ)

def GetReadSegment : Option Got :=
  if m.same p.mReadCursor p.mReadLimit then
    some (.error (if p.mStatus.failed then p.mStatus else NS_BASE_STREAM_WOULD_BLOCK))
  else do
    let segment ← p.mReadCursor
    let limit ← p.mReadLimit
    some (.ok (segment, m.addr limit - m.addr segment))

/-- The first segment is done with. -/
def discardFirst : Option (Option Segment × nsPipe) := do
  let mWriteSegment := p.mWriteSegment - 1
  let (seg, _, mBuffer) ← p.mBuffer.DeleteFirstSegment
  if mWriteSegment = -1 then
    some (seg, { p with
      mBuffer, mWriteSegment, mReadCursor := none, mReadLimit := none, mWriteCursor := none,
      mWriteLimit := none, mWritable := true })
  else
    let head ← mBuffer.GetSegment 0
    let head ← head
    some (seg, { p with
      mBuffer, mWriteSegment, mReadCursor := some ⟨head, 0⟩,
      mReadLimit := if mWriteSegment = 0 then p.mWriteCursor
        else some ⟨head, mBuffer.mSegmentSize.toNat⟩
      mWritable := true })

/-- With the segment that is freed, if one is. -/
def AdvanceReadCursor (bytesRead : ℕ) : Option (Option Segment × nsPipe) := do
  let mReadCursor ← p.mReadCursor
  let p := { p with
    mReadCursor := some { mReadCursor with off := mReadCursor.off + bytesRead },
    mAvailable := p.mAvailable - UInt32.ofNat bytesRead }
  if m.same p.mReadCursor p.mReadLimit then
    if p.mWriteSegment = 0 && m.above p.mWriteLimit p.mWriteCursor then some (none, p)
    else p.discardFirst
  else some (none, p)

/-- The first half of `GetWriteSegment`: a new segment where there is no room. The first result is
false where there is none. -/
def newWriteSegment (alloc : Allocation) (newSegment : Segment) : Option (Bool × nsPipe) := do
  if m.same p.mWriteCursor p.mWriteLimit then
    let (seg, mBuffer) ← p.mBuffer.AppendNewSegment m.platform.pointerSize alloc newSegment
    match seg with
    | none => some (false, { p with mBuffer })
    | some seg => some (true, { p with
      mBuffer, mWriteCursor := some ⟨seg, 0⟩,
      mWriteLimit := some ⟨seg, mBuffer.mSegmentSize.toNat⟩,
      mWriteSegment := p.mWriteSegment + 1 })
  else some (true, p)

/-- The read cursor is initialised. -/
def initReadCursor : nsPipe :=
  if p.mReadCursor = none then
    { p with mReadCursor := p.mWriteCursor, mReadLimit := p.mWriteCursor }
  else p

/-- The cursors go back to the beginning of the only segment, if nothing is in it. -/
def rollBack : Option nsPipe := do
  if m.same p.mReadCursor p.mWriteCursor && p.mWriteSegment = 0 then
    let head ← p.mBuffer.GetSegment 0
    let head ← head
    some { p with
      mWriteCursor := some ⟨head, 0⟩, mReadCursor := some ⟨head, 0⟩, mReadLimit := some ⟨head, 0⟩ }
  else some p

def GetWriteSegment (alloc : Allocation) (newSegment : Segment) : Option (Got × nsPipe) :=
  if p.mStatus.failed then some (.error p.mStatus, p)
  else match p.newWriteSegment m alloc newSegment with
    | none => none
    | some (false, p) => some (.error NS_BASE_STREAM_WOULD_BLOCK, p)
    | some (true, p) => do
      let p ← p.initReadCursor.rollBack m
      let segment ← p.mWriteCursor
      let limit ← p.mWriteLimit
      some (.ok (segment, m.addr limit - m.addr segment), p)

def AdvanceWriteCursor (bytesWritten : ℕ) : Option nsPipe := do
  let mWriteCursor ← p.mWriteCursor
  let newWriteCursor : Ptr := { mWriteCursor with off := mWriteCursor.off + bytesWritten }
  let mReadLimit :=
    if p.mWriteSegment = 0 && m.same p.mReadLimit p.mWriteCursor then some newWriteCursor
    else p.mReadLimit
  some { p with
    mReadLimit, mWriteCursor := some newWriteCursor,
    mWritable := p.mWritable &&
      !(m.same (some newWriteCursor) p.mWriteLimit && p.mBuffer.mMaxSize ≤ p.mBuffer.GetSize),
    mAvailable := p.mAvailable + UInt32.ofNat bytesWritten }

/-- The first result is whether the input end gets the exception. -/
def OnPipeException (reason : NsResult) (outputOnly : Bool) : Bool × nsPipe :=
  if p.mStatus.failed then (false, p)
  else
    let outputOnly := outputOnly && p.mAvailable ≠ 0
    (!outputOnly, { p with
      mStatus := reason, mAvailable := if outputOnly then p.mAvailable else 0, mWritable := false })

/-- `CloseWithStatus`, of either stream. -/
def CloseWithStatus (reason : NsResult) (outputOnly : Bool) : Bool × nsPipe :=
  p.OnPipeException (if reason.failed then reason else NS_BASE_STREAM_CLOSED) outputOnly

end nsPipe

/-! ### The two sides -/

/-- A segment that a side holds, and the bytes that it took from it or put there. -/
structure Hold where
  segment : Ptr
  segmentLen : ℕ
  bytes : List UInt8 := []

/-- The pipe, the memory, and what the two sides did. A byte is written, or consumed, when the
cursor advances over it. -/
structure World where
  pipe : nsPipe
  memory : Segment → ℕ → UInt8 := fun _ _ => 0
  freed : Segment → Bool := fun _ => false
  newSegment : Segment := 0
  reader : Option Hold := none
  writer : Option Hold := none
  written : List UInt8 := []
  consumed : List UInt8 := []
  /-- The input end got an exception. -/
  inputFailed : Bool := false

inductive Action
  | GetReadSegment
  | Consume (n : ℕ)
  | AdvanceReadCursor
  | GetWriteSegment (alloc : Allocation)
  | Fill (bytes : List UInt8)
  | AdvanceWriteCursor
  | CloseInput (reason : NsResult)
  | CloseOutput (reason : NsResult)

namespace World

variable (m : Machine) (w : World)

/-- The bytes that the reader took and did not advance over yet. -/
def taken : List UInt8 := w.reader.elim [] Hold.bytes

def getReadSegment : Option World := do
  match ← w.pipe.GetReadSegment m with
  | .error _ => some w
  | .ok (segment, segmentLen) => some { w with reader := some { segment, segmentLen } }

def consume (h : Hold) (n : ℕ) : Option World :=
  if w.freed h.segment.seg then none
  else some { w with reader := some { h with
    bytes := h.bytes ++ bytesAt w.memory h.segment.seg (h.segment.off + h.bytes.length) n } }

def advanceReadCursor (h : Hold) : Option World := do
  if h.bytes = [] then some { w with reader := none }
  else
    let (seg, pipe) ← w.pipe.AdvanceReadCursor m h.bytes.length
    some { w with
      pipe, reader := none, consumed := w.consumed ++ h.bytes,
      freed := seg.elim w.freed fun seg => Function.update w.freed seg true }

def getWriteSegment (alloc : Allocation) : Option World := do
  match ← w.pipe.GetWriteSegment m alloc w.newSegment with
  | (.error _, pipe) => some { w with pipe, newSegment := w.newSegment + 1 }
  | (.ok (segment, segmentLen), pipe) =>
    some { w with pipe, newSegment := w.newSegment + 1, writer := some { segment, segmentLen } }

def fill (h : Hold) (bytes : List UInt8) : Option World :=
  if w.freed h.segment.seg then none
  else some { w with
    writer := some { h with bytes := h.bytes ++ bytes },
    memory := putBytes w.memory h.segment.seg (h.segment.off + h.bytes.length) bytes }

def advanceWriteCursor (h : Hold) : Option World := do
  if h.bytes = [] then some { w with writer := none }
  else
    let pipe ← w.pipe.AdvanceWriteCursor m h.bytes.length
    some { w with pipe, writer := none, written := w.written ++ h.bytes }

def close (reason : NsResult) (outputOnly : Bool) : World :=
  let r := w.pipe.CloseWithStatus reason outputOnly
  { w with pipe := r.2, inputFailed := w.inputFailed || r.1 }

/-- What a side cannot do at the moment leaves everything as it is. -/
def step : Action → Option World
  | .GetReadSegment => if w.reader.isSome then some w else w.getReadSegment m
  | .Consume n => match w.reader with
    | some h => if h.bytes.length + n ≤ h.segmentLen then w.consume h n else some w
    | none => some w
  | .AdvanceReadCursor => w.reader.elim (some w) (w.advanceReadCursor m)
  | .GetWriteSegment alloc => if w.writer.isSome then some w else w.getWriteSegment m alloc
  | .Fill bytes => match w.writer with
    | some h => if h.bytes.length + bytes.length ≤ h.segmentLen then w.fill h bytes else some w
    | none => some w
  | .AdvanceWriteCursor => w.writer.elim (some w) (w.advanceWriteCursor m)
  | .CloseInput reason => some (w.close reason false)
  | .CloseOutput reason => some (w.close reason true)

end World

end Kompozer.Io

import Kompozer.Cache.Location
import Kompozer.Cache.Requests
import Kompozer.Lib.Files

/-! The data of one entry of the disk cache (`nsDiskCacheStreams.cpp`, and what the descriptor, the
device and the map do for it): a buffer in memory, blocks of a block file, or a separate file. Input
and output succeed, and the blocks of a record hold what was written to them. Sizes of the whole
cache are left out. -/

namespace Kompozer.Cache.Streams

open NsResult Requests

def kMaxBufferSize : ℕ := 16 * 1024
def kMaxDataFileSize : ℕ := 0x4000000
def PR_INT32_MAX : ℕ := 0x7FFFFFFF

/-- What the surroundings of an entry decide. -/
structure nsDiskCacheDevice where
  mCacheCapacity : ℕ
  /-- The answers of the block files, call by call. -/
  AllocateBlocks : ℕ → { startBlock : UInt32 // startBlock &&& eBlockNumberMask = startBlock }
  /-- Whether the map has a record to update when blocks have been written. A doomed entry may have
  none. -/
  UpdateRecord : ℕ → Bool
  /-- What new memory holds. -/
  fresh : Memory

/-- `nsDiskCacheStreamIO` with the binding, the entry and the storage that it works on. -/
structure nsDiskCacheStreamIO where
  mDataSize : ℕ := 0
  storagePolicy : nsCacheStoragePolicy
  mRecord : Record := {}
  mGeneration : UInt8
  files : Files UInt8 := ⟨fun _ => [], fun _ => none, 0⟩
  blocks : UInt32 → UInt32 → List UInt8 := fun _ _ => []
  /-- How many calls the device has answered. -/
  calls : ℕ := 0
  mOutStream : Bool := false
  mFD : Option FileDesc := none
  mStreamPos : ℕ := 0
  mStreamEnd : ℕ := 0
  mBufPos : ℕ := 0
  mBufEnd : ℕ := 0
  mBufSize : ℕ := 0
  mBufDirty : Bool := false
  mBuffer : Option Memory := none

/-- What ends a call: a result code, or a `memcpy` behind the buffer. -/
inductive Failure
  | result (rv : NsResult)
  | overrun
deriving DecidableEq

/-! ### The map -/

def CalculateFileIndex (size : ℕ) : UInt32 :=
  if size ≤ 1024 then 1 else if size ≤ 4096 then 2 else if size ≤ 16384 then 3 else 0

namespace nsDiskCacheStreamIO

variable (d : nsDiskCacheDevice) (io : nsDiskCacheStreamIO)

def DeleteStorage : nsDiskCacheStreamIO :=
  { io with
    files := if io.mRecord.DataFile = 0 then io.files.remove io.mRecord.Generation else io.files
    mRecord := io.mRecord.ClearDataLocation }

def memory : Memory := io.mBuffer.getD d.fresh

/-- Whether the record of the entry was updated, and what was written. -/
def WriteDataCacheBlocks (size : ℕ) : Bool × nsDiskCacheStreamIO :=
  let fileIndex := CalculateFileIndex size
  let blockSize := BLOCK_SIZE_FOR_INDEX fileIndex
  if 0 < size then
    let blockCount := (size - 1) / blockSize.toNat + 1
    let startBlock := (d.AllocateBlocks io.calls).val
    let stored := (io.memory d).bytes (blockCount * blockSize.toNat)
    (d.UpdateRecord io.calls, { io with
      blocks := Function.update io.blocks fileIndex
        (Function.update (io.blocks fileIndex) startBlock stored)
      mRecord := io.mRecord.SetDataBlocks fileIndex startBlock (UInt32.ofNat blockCount)
      calls := io.calls + 1 })
  else
    (d.UpdateRecord io.calls, { io with
      mRecord := io.mRecord.SetDataBlocks fileIndex 0 0, calls := io.calls + 1 })

/-! ### Files and the buffer -/

/-- `OpenCacheFile` for reading and writing, into `mFD`. -/
def OpenCacheFile : nsDiskCacheStreamIO :=
  let opened := io.files.create io.mRecord.Generation
  { io with mFD := some opened.1, files := opened.2 }

def UpdateFileSize : nsDiskCacheStreamIO :=
  let newSizeK := UInt32.ofNat ((io.mStreamEnd + 0x03FF) / 1024)
  if newSizeK = io.mRecord.DataFileSize then io
  else { io with mRecord := io.mRecord.SetDataFileSize newSizeK }

/-- There is an open file after this. -/
def ensureFile : nsDiskCacheStreamIO :=
  if io.mFD.isSome then io
  else
    let io := if io.mRecord.DataLocationInitialized && 0 < io.mRecord.DataFile then io.DeleteStorage
      else io
    { io with mRecord := io.mRecord.SetDataFileGeneration io.mGeneration }.OpenCacheFile

/-- The buffer is written and cleared. -/
def FlushBufferToFile : nsDiskCacheStreamIO :=
  let io := io.ensureFile
  match io.mFD with
  | none => io
  | some fd =>
    let written := io.files.write fd ((io.memory d).bytes io.mBufEnd)
    { io with
      mFD := some written.1, files := written.2, mBufDirty := false, mBufPos := 0, mBufEnd := 0 }

def DeleteBuffer : nsDiskCacheStreamIO :=
  if io.mBuffer.isSome then { io with mBuffer := none, mBufPos := 0, mBufEnd := 0, mBufSize := 0 }
  else io

def Flush : nsDiskCacheStreamIO :=
  if !io.mBufDirty then io
  else if kMaxBufferSize < io.mStreamEnd ∨ io.storagePolicy = .STORE_ON_DISK_AS_FILE then
    { io.FlushBufferToFile d with mFD := none }.DeleteBuffer
  else
    let io := if io.mRecord.DataLocationInitialized then io.DeleteStorage else io
    if 0 < io.mStreamEnd then
      let written := io.WriteDataCacheBlocks d io.mBufEnd
      { written.2 with mBufDirty := !written.1 }
    else { io with mBufDirty := false }

def ReadCacheBlocks : Except Failure nsDiskCacheStreamIO :=
  if !io.mRecord.DataLocationInitialized then .ok io
  else
    let bufSize := (io.mRecord.DataBlockCount * io.mRecord.DataBlockSize).toNat
    let io := if io.mBuffer.isNone then { io with mBufSize := bufSize, mBuffer := some d.fresh } else io
    if io.mBufSize < bufSize then .error (.result NS_ERROR_UNEXPECTED)
    else
      let stored := io.blocks io.mRecord.DataFile io.mRecord.DataStartBlock
      .ok { io with
        mBuffer := some ((io.memory d).copy 0 stored), mBufPos := 0, mBufEnd := io.mStreamEnd }

/-- There is room in the buffer after this. -/
def makeRoom : nsDiskCacheStreamIO :=
  if io.mBufPos = io.mBufSize then
    if io.mBufSize < kMaxBufferSize then
      { io with
        mBufSize := kMaxBufferSize
        mBuffer := some ((io.memory d).realloc io.mBufSize d.fresh) }
    else io.FlushBufferToFile d
  else io

/-- The loop of `WriteToBuffer`, which writes a byte at least in each turn. -/
def writeLoop : ℕ → nsDiskCacheStreamIO → List UInt8 → Except Failure nsDiskCacheStreamIO
  | 0, io, _ => .ok io
  | turns + 1, io, bytes =>
    if bytes = [] then .ok io
    else
      let io := io.makeRoom d
      if io.mBufSize < io.mBufPos then .error .overrun
      else
        let chunkSize := min bytes.length (io.mBufSize - io.mBufPos)
        writeLoop turns { io with
          mBuffer := some ((io.memory d).copy io.mBufPos (bytes.take chunkSize))
          mBufDirty := true
          mBufPos := io.mBufPos + chunkSize
          mBufEnd := max io.mBufEnd (io.mBufPos + chunkSize) } (bytes.drop chunkSize)

def WriteToBuffer (bytes : List UInt8) : Except Failure nsDiskCacheStreamIO :=
  writeLoop d bytes.length io bytes

/-! ### The output stream -/

/-- `Seek` from the beginning. -/
def Seek (offset : ℕ) : Except Failure nsDiskCacheStreamIO :=
  if io.mStreamEnd < offset then .error (.result NS_ERROR_FAILURE)
  else
    let io := if io.mRecord.SeparateFile ∧ io.mFD = none then io.OpenCacheFile else io
    match io.mFD with
    | some _ =>
      let io := if io.mBufDirty then io.FlushBufferToFile d else io
      .ok { io with
        mFD := io.mFD.map ({ · with pos := offset }), mStreamPos := offset, mBufPos := 0, mBufEnd := 0 }
    | none => do
      let io ← if io.mStreamEnd ≠ 0 ∧ io.mBufEnd = 0 ∧ 0 < offset then io.ReadCacheBlocks d else .ok io
      if io.mBufEnd < offset then .error (.result NS_ERROR_ILLEGAL_VALUE)
      else .ok { io with mStreamPos := offset, mBufPos := offset }

def SetEOF : Except Failure nsDiskCacheStreamIO := do
  let needToCloseFD := io.mRecord.SeparateFile ∧ io.mFD = none
  let io ←
    if io.mRecord.DataLocationInitialized then
      if io.mRecord.DataFile = 0 then .ok (if io.mFD = none then io.OpenCacheFile else io)
      else if io.mStreamPos ≠ 0 ∧ io.mStreamPos ≠ io.mBufPos then io.ReadCacheBlocks d
      else .ok io
    else .ok io
  match io.mFD with
  | none => .ok { io with mStreamEnd := io.mStreamPos, mBufEnd := io.mBufPos }
  | some fd =>
    let io := { io with
      files := io.files.truncate fd io.mStreamPos
      mStreamEnd := io.mStreamPos
      mBufEnd := io.mBufPos }.UpdateFileSize
    .ok (if needToCloseFD then { io with mFD := none } else io)

def GetOutputStream (offset : ℕ) : Except Failure nsDiskCacheStreamIO :=
  if io.mOutStream then .error (.result NS_ERROR_NOT_AVAILABLE)
  else do
    let io := { io with mBufPos := 0, mStreamPos := 0, mStreamEnd := io.mDataSize }
    let io ← if offset ≠ 0 then io.Seek d offset else .ok io
    let io ← io.SetEOF d
    .ok { io with mOutStream := true }

def Write (bytes : List UInt8) : Except Failure nsDiskCacheStreamIO := do
  let io ← io.WriteToBuffer d bytes
  let io := { io with mStreamPos := io.mStreamPos + bytes.length }
  if io.mStreamEnd < io.mStreamPos then
    let io := { io with mStreamEnd := io.mStreamPos }
    .ok (if io.mFD.isSome then io.UpdateFileSize else io)
  else .ok io

def CloseOutputStream : nsDiskCacheStreamIO := { io.Flush d with mOutStream := false }

/-! ### The descriptor (`nsCacheEntryDescriptor.cpp`) -/

def maxSize (d : nsDiskCacheDevice) : ℕ := min (d.mCacheCapacity / 2) kMaxDataFileSize

/-- `nsDiskCacheDevice::OnDataSizeChange`. -/
def OnDataSizeChange (deltaSize : ℤ) : NsResult :=
  if (maxSize d : ℤ) < io.mDataSize + deltaSize then NS_ERROR_ABORT else ok

/-- `LazyInit` of the output stream: the entry is truncated. -/
def openOutput (mStartOffset : ℕ) : Except Failure nsDiskCacheStreamIO := do
  let io ← io.GetOutputStream d mStartOffset
  if (io.OnDataSizeChange d (mStartOffset - io.mDataSize)).failed then
    .error (.result NS_ERROR_ABORT)
  else .ok { io with mDataSize := mStartOffset }

/-- `Write` of the output stream. Bytes may be refused. -/
def writeOutput (bytes : List UInt8) : Except Failure nsDiskCacheStreamIO :=
  if PR_INT32_MAX < bytes.length then .ok io
  else if (io.OnDataSizeChange d bytes.length).failed then .ok io
  else { io with mDataSize := io.mDataSize + bytes.length }.Write d bytes

end nsDiskCacheStreamIO

/-! ### The input stream -/

structure nsDiskCacheInputStream where
  mFD : Option FileDesc := none
  mBuffer : Option Memory := none
  mStreamEnd : ℕ := 0
  mPos : ℕ := 0

namespace nsDiskCacheInputStream

/-- `Read`, and what is left to read. -/
def Read (files : Files UInt8) (stream : nsDiskCacheInputStream) (count : ℕ) :
    Except Failure (List UInt8 × nsDiskCacheInputStream) :=
  if stream.mPos = stream.mStreamEnd then .ok ([], stream)
  else if stream.mStreamEnd < stream.mPos then .error (.result NS_ERROR_UNEXPECTED)
  else
    match stream.mFD, stream.mBuffer with
    | some fd, _ =>
      let bytes := files.read fd count
      .ok (bytes, { stream with
        mFD := some { fd with pos := fd.pos + bytes.length }, mPos := stream.mPos + bytes.length })
    | none, some buffer =>
      let count := min count (stream.mStreamEnd - stream.mPos)
      .ok (((buffer.bytes (stream.mPos + count)).drop stream.mPos), { stream with
        mPos := stream.mPos + count })
    | none, none => .ok ([], stream)

/-- What a number of reads give. -/
def readAll (files : Files UInt8) : nsDiskCacheInputStream → List ℕ → Except Failure (List UInt8)
  | _, [] => .ok []
  | stream, count :: counts => do
    let (bytes, stream) ← stream.Read files count
    let rest ← readAll files stream counts
    .ok (bytes ++ rest)

end nsDiskCacheInputStream

namespace nsDiskCacheStreamIO

variable (d : nsDiskCacheDevice) (io : nsDiskCacheStreamIO)

def GetInputStream : Except Failure (nsDiskCacheInputStream × nsDiskCacheStreamIO) :=
  if io.mOutStream then .error (.result NS_ERROR_NOT_AVAILABLE)
  else do
    let io := { io with mStreamEnd := io.mDataSize }
    if io.mStreamEnd = 0 then .ok ({ mBuffer := io.mBuffer }, io)
    else if io.mRecord.DataFile = 0 then
      match io.files.named io.mRecord.Generation with
      | none => .error (.result NS_ERROR_FAILURE)
      | some file =>
        .ok ({ mFD := some ⟨file, 0⟩, mBuffer := io.mBuffer, mStreamEnd := io.mStreamEnd }, io)
    else
      let io ← if io.mBuffer.isNone then io.ReadCacheBlocks d else .ok io
      .ok ({ mBuffer := io.mBuffer, mStreamEnd := io.mStreamEnd }, io)

/-- The bytes that some reads of a new input stream give. -/
def read (counts : List ℕ) : Except Failure (List UInt8 × nsDiskCacheStreamIO) := do
  let (stream, io) ← io.GetInputStream d
  let bytes ← stream.readAll io.files counts
  .ok (bytes, io)

/-- The output stream is opened, written to and closed. -/
def write (mStartOffset : ℕ) (buffers : List (List UInt8)) :
    Except Failure nsDiskCacheStreamIO := do
  let io ← io.openOutput d mStartOffset
  let io ← buffers.foldlM (fun io bytes => io.writeOutput d bytes) io
  .ok (io.CloseOutputStream d)

/-- The entry is deactivated and found again, with a new binding. -/
def rebind : nsDiskCacheStreamIO :=
  { mDataSize := io.mDataSize, storagePolicy := io.storagePolicy, mRecord := io.mRecord
    mGeneration := io.mGeneration, files := io.files, blocks := io.blocks, calls := io.calls }

/-! ### Runs -/

inductive Step
  | write (mStartOffset : ℕ) (buffers : List (List UInt8))
  | read (counts : List ℕ)
  | rebind

def step : Step → Except Failure nsDiskCacheStreamIO
  | .write mStartOffset buffers => io.write d mStartOffset buffers
  | .read counts => (io.read d counts).map (·.2)
  | .rebind => .ok io.rebind

def run (steps : List Step) : Except Failure nsDiskCacheStreamIO :=
  steps.foldlM (fun io step => io.step d step) io

/-- A new entry. -/
def start (storagePolicy : nsCacheStoragePolicy) (mGeneration : UInt8) : nsDiskCacheStreamIO :=
  { storagePolicy, mGeneration }

end nsDiskCacheStreamIO

/-! ### What an entry should hold -/

/-- What is written of some buffers: an entry that would get too large refuses a buffer. -/
def accepted (limit size : ℕ) : List (List UInt8) → List UInt8
  | [] => []
  | bytes :: buffers =>
    if bytes.length ≤ PR_INT32_MAX ∧ size + bytes.length ≤ limit then
      bytes ++ accepted limit (size + bytes.length) buffers
    else accepted limit size buffers

open nsDiskCacheStreamIO in
/-- The prefix that is kept, and what is written behind it. -/
def contents (limit : ℕ) : List UInt8 → List Step → List UInt8
  | c, [] => c
  | c, .write offset buffers :: steps =>
    contents limit (c.take offset ++ accepted limit offset buffers) steps
  | c, _ :: steps => contents limit c steps

end Kompozer.Cache.Streams

import Kompozer.Net.Bytes
import Kompozer.Xpcom

/-! The decoder of chunked transfer coding (`nsHttpChunkedDecoder.cpp`). A buffer is what its
owner passes: content that is found is left at its front, and what comes behind a line is moved
up to it. Memory is always there. -/

namespace Kompozer.Http

open NsResult
open Net (cString CR LF semicolon)

/-! ### `sscanf (buf, "%x", &n)` -/

/-- Bytes that `isspace` accepts in the C locale. -/
def isspace (c : UInt8) : Bool := c = 32 ∨ (9 ≤ c ∧ c ≤ 13)

/-- The value of a hexadecimal digit. -/
def hexDigit (c : UInt8) : Option ℕ :=
  if 48 ≤ c ∧ c ≤ 57 then some (c.toNat - 48)
  else if 65 ≤ c ∧ c ≤ 70 then some (c.toNat - 55)
  else if 97 ≤ c ∧ c ≤ 102 then some (c.toNat - 87)
  else none

/-- The number of the digits in front of a string. -/
def hexFrom (acc : ℕ) : List UInt8 → ℕ
  | [] => acc
  | c :: s => match hexDigit c with
    | some d => hexFrom (acc * 16 + d) s
    | none => acc

/-- What `sscanf` answers: no input, no match, or a number that is stored. -/
inductive Scanned
  | eof
  | mismatch
  | stored (n : UInt32)
  deriving DecidableEq, Repr

/-- A sign in front of a number. -/
def sign : List UInt8 → Bool × List UInt8
  | [] => (false, [])
  | c :: s => if c = 43 then (false, s) else if c = 45 then (true, s) else (false, c :: s)

/-- The prefix `0x` in front of digits. -/
def radixPrefix : List UInt8 → List UInt8
  | z :: x :: s => if z = 48 ∧ (x = 120 ∨ x = 88) then s else z :: x :: s
  | s => s

variable (overflow : ℕ → UInt32)

/-- What is stored for a number. C does not say what it is if the number does not fit. -/
def store (negative : Bool) (n : ℕ) : UInt32 :=
  if n < 2 ^ 32 then (if negative then 0 - UInt32.ofNat n else UInt32.ofNat n) else overflow n

/-- `sscanf (s, "%x", &n)`. -/
def sscanf (s : List UInt8) : Scanned :=
  match s.dropWhile isspace with
  | [] => .eof
  | s =>
    let (negative, s) := sign s
    match radixPrefix s with
    | [] => .mismatch
    | c :: s => match hexDigit c with
      | some d => .stored (store overflow negative (hexFrom d s))
      | none => .mismatch

/-! ### The decoder -/

/-- `nsHttpChunkedDecoder`. Of the trailers it keeps the lines given to `ParseHeaderLine`. -/
structure Decoder where
  mTrailers : List (List UInt8) := []
  mChunkRemaining : ℕ := 0
  mLineBuf : List UInt8 := []
  mReachedEOF : Bool := false
  mWaitEOF : Bool := false
  deriving DecidableEq, Repr

/-- A line without a `CR` behind it. -/
def dropCR (s : List UInt8) : List UInt8 := if s.getLast? = some CR then s.dropLast else s

/-- The part of `ParseChunkRemaining` that reads a whole line. A decoder that fails is not used
again. -/
def Decoder.parseLine (d : Decoder) (buf : List UInt8) : NsResult × Decoder :=
  if d.mWaitEOF then
    if buf ≠ [] then (.ok, { d with mTrailers := d.mTrailers ++ [buf], mLineBuf := [] })
    else (.ok, { d with mWaitEOF := false, mReachedEOF := true, mLineBuf := [] })
  else if buf ≠ [] then
    match sscanf overflow (buf.takeWhile (· ≠ semicolon)) with
    | .mismatch => (NS_ERROR_UNEXPECTED, d)
    | .eof => (.ok, { d with mWaitEOF := d.mChunkRemaining = 0, mLineBuf := [] })
    | .stored n => (.ok, { d with
        mChunkRemaining := n.toNat, mWaitEOF := n.toNat = 0, mLineBuf := [] })
  else (.ok, { d with mLineBuf := [] })

/-- `ParseChunkRemaining`: also the memory of the buffer, and `*bytesConsumed`. -/
def Decoder.ParseChunkRemaining (d : Decoder) (buf : List UInt8) :
    NsResult × Decoder × List UInt8 × ℕ :=
  if LF ∈ buf then
    let line := buf.takeWhile (· ≠ LF)
    let text := dropCR line
    -- the line feed, and a `CR` in front of it, become terminators
    let memory := text ++ List.replicate (line.length + 1 - text.length) 0 ++
      buf.drop (line.length + 1)
    let whole := if d.mLineBuf ≠ [] then d.mLineBuf ++ cString text else text
    let (rv, d) := d.parseLine overflow (cString whole)
    (rv, d, memory, line.length + 1)
  else (.ok, { d with mLineBuf := d.mLineBuf ++ dropCR buf }, buf, buf.length)

/-- What a call of `HandleChunkedContent` leaves behind. -/
structure Handled where
  rv : NsResult
  decoder : Decoder
  buf : List UInt8
  contentRead : ℕ
  contentRemaining : ℕ
  deriving DecidableEq, Repr

/-- The loop of `HandleChunkedContent`. The content that has been read ends where the bytes begin
that are left, of which there are `count`; after a failure these are the ones behind the line. -/
def Decoder.handleLoop : ℕ → Decoder → List UInt8 → ℕ → ℕ → Handled
  | 0, d, mem, read, count => ⟨.ok, d, mem, read, count⟩
  | fuel + 1, d, mem, read, count =>
    if count = 0 then ⟨.ok, d, mem, read, count⟩
    else if d.mChunkRemaining ≠ 0 then
      let amt := min d.mChunkRemaining count
      handleLoop fuel { d with mChunkRemaining := d.mChunkRemaining - amt } mem (read + amt)
        (count - amt)
    else if d.mReachedEOF then ⟨.ok, d, mem, read, count⟩
    else
      let (rv, d, bytes, consumed) :=
        d.ParseChunkRemaining overflow ((mem.drop read).take count)
      let mem := mem.take read ++ bytes ++ mem.drop (read + count)
      let left := count - consumed
      if rv.failed then ⟨rv, d, mem, read, left⟩
      else if left = 0 then handleLoop fuel d mem read left
      else
        -- shift buf by bytesConsumed
        let moved := mem.take read ++ (mem.drop (read + consumed)).take left ++
          mem.drop (read + left)
        handleLoop fuel d moved read left

/-- `HandleChunkedContent`. Each turn of its loop takes a byte at least. -/
def Decoder.HandleChunkedContent (d : Decoder) (buf : List UInt8) : Handled :=
  handleLoop overflow buf.length d buf 0 buf.length

/-- The content that a call delivers. -/
def Handled.content (h : Handled) : List UInt8 := h.buf.take h.contentRead

/-- The bytes that a call leaves behind the content. -/
def Handled.remaining (h : Handled) : List UInt8 :=
  (h.buf.drop h.contentRead).take h.contentRemaining

/-! ### A body in buffers -/

/-- What the buffers of a body make known: its content, the byte behind which it ends, and the
byte behind which an error is reported. -/
structure Outcome where
  content : List UInt8
  endAt : Option ℕ
  errorAt : Option ℕ
  deriving DecidableEq, Repr

/-- Buffers are passed on until the body ends or a call fails. -/
def Decoder.receive (d : Decoder) (passed : ℕ) (content : List UInt8) :
    List (List UInt8) → Outcome
  | [] => ⟨content, none, none⟩
  | buf :: bufs =>
    let h := d.HandleChunkedContent overflow buf
    if h.rv.failed then
      ⟨content ++ h.content, none, some (passed + buf.length - h.contentRemaining)⟩
    else if h.decoder.mReachedEOF then
      ⟨content ++ h.content, some (passed + buf.length - h.contentRemaining), none⟩
    else h.decoder.receive (passed + buf.length) (content ++ h.content) bufs

/-- All buffers are passed on, also behind the end: the decoder then, and all content. -/
def Decoder.feed (d : Decoder) (content : List UInt8) :
    List (List UInt8) → Option (Decoder × List UInt8)
  | [] => some (d, content)
  | buf :: bufs =>
    let h := d.HandleChunkedContent overflow buf
    if h.rv.failed then none else h.decoder.feed (content ++ h.content) bufs

end Kompozer.Http

import Kompozer.Io.StorageRead

/-! Runs of a storage stream with its one writer and any number of readers. -/

namespace Kompozer.Io.Storage

open NsResult nsStorageInputStream

structure World where
  stream : nsStorageStream
  heap : Heap := {}
  readers : List nsStorageInputStream := []
  /-- All bytes that were written, in their order. -/
  written : List UInt8 := []

/-- What is asked of the stream, or of its input stream `i`. -/
inductive Action
  | GetOutputStream (aStartingOffset : UInt32)
  | Write (aBuffer : List UInt8)
  | Close
  | NewInputStream (aStartingOffset : UInt32)
  | Read (i : ℕ) (aCount : UInt32)
  | ReadSegments (i : ℕ) (writer : List ℕ) (aCount : UInt32)
  | Seek (i : ℕ) (aWhence : Whence) (aOffset : Int64)

/-- What comes back: the bytes that were read, and the calls of the function of `ReadSegments`. -/
structure Outcome where
  rv : NsResult := ok
  bytes : List UInt8 := []
  shown : List Shown := []

namespace World

variable (A : Allocator) (w : World)

/-- The position is that of the end. -/
def AtEnd (aStartingOffset : UInt32) : Prop :=
  aStartingOffset = 0xFFFFFFFF ∨ aStartingOffset = w.stream.mLogicalLength

instance (aStartingOffset : UInt32) : Decidable (w.AtEnd aStartingOffset) :=
  inferInstanceAs (Decidable (_ ∨ _))

/-- The stream is opened only at its end, and written only while it is open. -/
def step : Action → Option (Outcome × World)
  | .GetOutputStream aStartingOffset => do
    if w.AtEnd aStartingOffset then
      let (rv, stream, heap) ← w.stream.GetOutputStream A w.heap aStartingOffset
      some ({ rv }, { w with stream, heap })
    else some ({}, w)
  | .Write aBuffer => do
    if w.stream.mWriteInProgress then
      let (rv, aNumWritten, stream, heap) ← w.stream.Write A w.heap aBuffer
      some ({ rv }, { w with stream, heap, written := w.written ++ aBuffer.take aNumWritten })
    else some ({}, w)
  | .Close => do
    let (stream, heap) ← w.stream.Close A w.heap
    some ({}, { w with stream, heap })
  | .NewInputStream aStartingOffset => do
    let (rv, r) ← ({} : nsStorageInputStream).seekTo w.stream aStartingOffset
    some ({ rv }, if rv.failed then w else { w with readers := w.readers ++ [r] })
  | .Read i aCount => match w.readers[i]? with
    | none => some ({}, w)
    | some r => do
      let (rv, r, bytes) ← r.Read w.stream w.heap aCount
      some ({ rv, bytes }, { w with readers := w.readers.set i r })
  | .ReadSegments i writer aCount => match w.readers[i]? with
    | none => some ({}, w)
    | some r => do
      let (rv, r, shown) ← r.ReadSegments w.stream w.heap writer aCount
      some ({ rv, bytes := consumed shown, shown }, { w with readers := w.readers.set i r })
  | .Seek i aWhence aOffset => match w.readers[i]? with
    | none => some ({}, w)
    | some r => do
      let (rv, r) ← r.Seek w.stream aWhence aOffset
      some ({ rv }, { w with readers := w.readers.set i r })

/-! ### What is promised -/

/-- The stream `i` moved on over the bytes, and it would block only where none is left and a write
is in progress. -/
structure Moved (i : ℕ) (r : nsStorageInputStream) (o : Outcome) (w' : World) : Prop where
  bytes : o.bytes <+: w.written.drop r.pos
  pos : ∃ r', w'.readers[i]? = some r' ∧ r'.pos = r.pos + o.bytes.length
  blocks : o.rv = NS_BASE_STREAM_WOULD_BLOCK →
    r.pos = w.written.length ∧ w.stream.mWriteInProgress = true

/-- A read returns all that is wanted and there, and shows every byte in its place. -/
def Right (o : Outcome) (w' : World) : Action → Prop
  | .Read i aCount => ∀ r, w.readers[i]? = some r →
    w.Moved i r o w' ∧ o.bytes = (w.written.drop r.pos).take aCount.toNat
  | .ReadSegments i _ aCount => ∀ r, w.readers[i]? = some r →
    w.Moved i r o w' ∧ o.bytes = consumed o.shown ∧ Follows w.written r.pos o.shown ∧
      (0 < aCount.toNat → r.pos < w.written.length → o.shown ≠ [])
  | .Seek i aWhence aOffset => ∀ r, w.readers[i]? = some r → ∃ r', w'.readers[i]? = some r' ∧
    ((o.rv = ok ∧ r'.pos = (r.seekPos w.stream aWhence aOffset).toUInt64.toUInt32.toNat) ∨
      (o.rv.failed = true ∧ r' = r))
  | .NewInputStream aStartingOffset =>
    (o.rv = ok ∧ ∃ r, w'.readers = w.readers ++ [r] ∧ r.pos = aStartingOffset.toNat) ∨
      (o.rv.failed = true ∧ w'.readers = w.readers)
  | _ => True

/-- No step goes wrong, and each does what is promised. -/
def SoundRun : World → List Action → Prop
  | _, [] => True
  | w, a :: as => ∃ o w', w.step A a = some (o, w') ∧ w.Right o w' a ∧ SoundRun w' as

/-! ### Where it is kept -/

/-- A position that a stream can be set to. -/
def Seekable (aPosition : UInt32) : Prop :=
  aPosition.toNat ≤ w.written.length → w.written ≠ [] → aPosition.toNat = w.written.length →
    ¬w.stream.size ∣ w.written.length

/-- The last segment can get back its size, what is written fits, no stream is set to the end where
a segment ends, none reads from a segment that was moved, or behind the end that it knows of in the
midst of a segment, and none is asked for no byte while some are left and a write is in progress. -/
def Careful : Action → Prop
  | .GetOutputStream _ => A.realloc w.heap.newSegment = .refused →
    ∀ seg, w.stream.mSegmentedBuffer.lastSegment = some (some seg) →
      w.stream.size ≤ w.heap.capacity seg
  | .Write aBuffer => w.stream.mWriteInProgress = true →
    w.stream.Fits A (w.written.length + aBuffer.length)
  | .Close => True
  | .NewInputStream aStartingOffset => w.Seekable aStartingOffset
  | .Read i aCount => ∀ r, w.readers[i]? = some r →
    r.Ready w.stream w.written.length aCount.toNat aCount.toNat ∧
      (w.stream.mWriteInProgress = true → r.pos < w.written.length → 0 < aCount.toNat)
  | .ReadSegments i writer aCount => ∀ r, w.readers[i]? = some r →
    r.Ready w.stream w.written.length aCount.toNat (taken writer) ∧
      (w.stream.mWriteInProgress = true → r.pos < w.written.length →
        0 < aCount.toNat ∧ writer.headD 0 ≠ 0)
  | .Seek i aWhence aOffset => ∀ r, w.readers[i]? = some r →
    r.seekPos w.stream aWhence aOffset ≠ r.mLogicalCursor.toUInt64.toInt64 →
      w.Seekable (r.seekPos w.stream aWhence aOffset).toUInt64.toUInt32

def CarefulRun : World → List Action → Prop
  | _, [] => True
  | w, a :: as => w.Careful A a ∧ ∀ o w', w.step A a = some (o, w') → CarefulRun w' as

/-- The invariant of a run. -/
structure Good (q : List Segment) : Prop where
  stores : w.stream.Stores w.heap q w.written
  readers : ∀ r ∈ w.readers, r.Good w.stream.size w.written.length

/-- A step has a result, which is right and good. -/
def Next (a : Action) : Prop :=
  ∃ o w' q, w.step A a = some (o, w') ∧ w.Right o w' a ∧ w'.Good q

namespace Good

variable {A w} {q : List Segment} (h : w.Good q)
include h

theorem of_mem {i : ℕ} {r : nsStorageInputStream} (hr : w.readers[i]? = some r) :
    r.Good w.stream.size w.written.length := h.readers r (List.mem_of_getElem? hr)

/-- One of the readers goes on. -/
theorem setReader {i : ℕ} {r : nsStorageInputStream} (hr : r.Good w.stream.size w.written.length) :
    Good { w with readers := w.readers.set i r } q := by
  refine ⟨h.stores, fun r' hmem => ?_⟩
  rcases List.mem_or_eq_of_mem_set hmem with hmem | rfl
  · exact h.readers r' hmem
  · exact hr

/-- The stream changes, and what was written is still there. -/
theorem setStream {stream : nsStorageStream} {heap : Heap} {q' : List Segment} (more : List UInt8)
    (hs : stream.Stores heap q' (w.written ++ more)) (hsize : stream.size = w.stream.size) :
    Good { w with stream, heap, written := w.written ++ more } q' := by
  refine ⟨hs, fun r hmem => ?_⟩
  dsimp only
  rw [hsize]
  exact (h.readers r hmem).mono (by rw [List.length_append]; exact Nat.le_add_right _ _)

theorem getOutputStream {aStartingOffset : UInt32} (ha : w.Careful A (.GetOutputStream aStartingOffset)) :
    w.Next A (.GetOutputStream aStartingOffset) := by
  unfold Next World.step
  dsimp only
  by_cases hend : w.AtEnd aStartingOffset
  · obtain ⟨rv, s', h', q', hopen, hs', hsize⟩ := h.stores.getOutputStream (A := A) hend ha
    rw [if_pos hend, hopen]
    refine ⟨_, _, q', rfl, trivial, ?_⟩
    have hgood := h.setStream [] (by rw [List.append_nil]; exact hs') hsize
    rwa [List.append_nil] at hgood
  · rw [if_neg hend]
    exact ⟨_, _, q, rfl, trivial, h⟩

theorem write {aBuffer : List UInt8} (ha : w.Careful A (.Write aBuffer)) :
    w.Next A (.Write aBuffer) := by
  unfold Next World.step
  dsimp only
  by_cases hopen : w.stream.mWriteInProgress = true
  · obtain ⟨rv, n, s', h', q', hwrite, hs', hsize⟩ := h.stores.write (A := A) hopen (ha hopen)
    rw [if_pos hopen, hwrite]
    exact ⟨_, _, q', rfl, trivial, h.setStream _ hs' hsize⟩
  · rw [if_neg hopen]
    exact ⟨_, _, q, rfl, trivial, h⟩

theorem close : w.Next A .Close := by
  unfold Next World.step
  obtain ⟨s', h', q', hclose, hs', hsize⟩ := h.stores.close (A := A)
  dsimp only
  rw [hclose]
  refine ⟨_, _, q', rfl, trivial, ?_⟩
  have hgood := h.setStream [] (by rw [List.append_nil]; exact hs') hsize
  rwa [List.append_nil] at hgood

/-- A stream is set to a position, or stays where it was. -/
theorem seekTo {r : nsStorageInputStream} (hr : r.Good w.stream.size w.written.length)
    {aPosition : UInt32} (ha : w.Seekable aPosition) :
    ∃ rv r', r.seekTo w.stream aPosition = some (rv, r') ∧
      r'.Good w.stream.size w.written.length ∧
      ((rv = ok ∧ r'.pos = aPosition.toNat) ∨ (rv.failed = true ∧ r' = r)) := by
  by_cases hle : aPosition.toNat ≤ w.written.length
  · obtain ⟨r', hseek, hr', hpos⟩ := seekTo_eq h.stores hr hle (ha hle)
    exact ⟨ok, r', hseek, hr', .inl ⟨rfl, hpos⟩⟩
  · exact ⟨_, r, seekTo_error h.stores (Nat.lt_of_not_le hle), hr, .inr ⟨rfl, rfl⟩⟩

theorem newInputStream {aStartingOffset : UInt32} (ha : w.Careful A (.NewInputStream aStartingOffset)) :
    w.Next A (.NewInputStream aStartingOffset) := by
  obtain ⟨rv, r, hseek, hr, hcases⟩ := h.seekTo (.start w.stream.size w.written.length) ha
  unfold Next World.step
  dsimp only
  rw [hseek]
  refine ⟨_, _, q, rfl, ?_, ?_⟩
  · rcases hcases with ⟨rfl, hpos⟩ | ⟨hfailed, -⟩
    · exact .inl ⟨rfl, r, rfl, hpos⟩
    · refine .inr ⟨hfailed, ?_⟩
      dsimp only
      rw [if_pos hfailed]
  · dsimp only
    split
    · exact h
    · refine ⟨h.stores, fun r' hmem => ?_⟩
      rcases List.mem_append.mp hmem with hmem | hmem
      · exact h.readers r' hmem
      · rw [List.mem_singleton.mp hmem]
        exact hr

omit h in
/-- The reader that went on. -/
theorem getElem?_set {i : ℕ} {r r' : nsStorageInputStream} (hr : w.readers[i]? = some r) :
    (w.readers.set i r')[i]? = some r' :=
  List.getElem?_set_self (List.getElem?_eq_some_iff.mp hr).1

omit h in
theorem readResult_blocks {s : nsStorageStream} {n : ℕ}
    (hrv : readResult s n = NS_BASE_STREAM_WOULD_BLOCK) : n = 0 ∧ s.mWriteInProgress = true := by
  unfold readResult at hrv
  split at hrv
  · assumption
  · cases hrv

theorem read {i : ℕ} {aCount : UInt32} (ha : w.Careful A (.Read i aCount)) :
    w.Next A (.Read i aCount) := by
  unfold Next World.step
  dsimp only
  cases hr : w.readers[i]? with
  | none =>
    refine ⟨_, _, q, rfl, fun r hr' => ?_, h⟩
    rw [hr] at hr'
    cases hr'
  | some r =>
    obtain ⟨hready, hcount⟩ := ha r hr
    have hgood := h.of_mem hr
    have hle := hgood.pos_le
    obtain ⟨r', hloop, hr', hpos⟩ :=
      readLoop_eq h.stores (2 * aCount.toNat + 1) hgood hready (by omega) (Nat.succ_pos _)
    have hlen : ((w.written.drop r.pos).take aCount.toNat).length =
        min aCount.toNat (w.written.length - r.pos) := by
      rw [List.length_take, List.length_drop]
    unfold nsStorageInputStream.Read
    dsimp only
    rw [hloop]
    refine ⟨_, _, q, rfl, fun r₁ hr₁ => ?_, h.setReader hr'⟩
    obtain rfl : r = r₁ := Option.some.inj (hr.symm.trans hr₁)
    refine ⟨⟨List.take_prefix _ _, ⟨r', getElem?_set hr, by rw [hlen]; exact hpos⟩, fun hrv => ?_⟩, rfl⟩
    obtain ⟨hzero, hopen⟩ := readResult_blocks hrv
    rw [hlen] at hzero
    refine ⟨?_, hopen⟩
    by_contra hne
    have hpositive := hcount hopen (by omega)
    omega

theorem readSegments {i : ℕ} {writer : List ℕ} {aCount : UInt32}
    (ha : w.Careful A (.ReadSegments i writer aCount)) :
    w.Next A (.ReadSegments i writer aCount) := by
  unfold Next World.step
  dsimp only
  cases hr : w.readers[i]? with
  | none =>
    refine ⟨_, _, q, rfl, fun r hr' => ?_, h⟩
    rw [hr] at hr'
    cases hr'
  | some r =>
    obtain ⟨hready, hcount⟩ := ha r hr
    have hgood := h.of_mem hr
    have hle := hgood.pos_le
    obtain ⟨r', shown, hloop, hr', hfollows, hpos, hne, hconsumed⟩ :=
      segmentsLoop_eq h.stores (aCount.toNat + 1) writer hgood hready (Nat.lt_succ_self _)
    unfold nsStorageInputStream.ReadSegments
    dsimp only
    rw [hloop]
    refine ⟨_, _, q, rfl, fun r₁ hr₁ => ?_, h.setReader hr'⟩
    obtain rfl : r = r₁ := Option.some.inj (hr.symm.trans hr₁)
    refine ⟨⟨hfollows.consumed, ⟨r', getElem?_set hr, hpos⟩, fun hrv => ?_⟩, rfl, hfollows, hne⟩
    obtain ⟨hzero, hopen⟩ := readResult_blocks hrv
    refine ⟨?_, hopen⟩
    by_contra hend
    obtain ⟨hpositive, hhead⟩ := hcount hopen (by omega)
    exact hconsumed hpositive (by omega) hhead (List.length_eq_zero_iff.mp hzero)

theorem seek {i : ℕ} {aWhence : Whence} {aOffset : Int64}
    (ha : w.Careful A (.Seek i aWhence aOffset)) : w.Next A (.Seek i aWhence aOffset) := by
  unfold Next World.step
  dsimp only
  cases hr : w.readers[i]? with
  | none =>
    refine ⟨_, _, q, rfl, fun r hr' => ?_, h⟩
    rw [hr] at hr'
    cases hr'
  | some r =>
    unfold nsStorageInputStream.Seek
    dsimp only
    by_cases hsame : r.seekPos w.stream aWhence aOffset = r.mLogicalCursor.toUInt64.toInt64
    · rw [if_pos hsame]
      refine ⟨_, _, q, rfl, fun r₁ hr₁ => ?_, h.setReader (h.of_mem hr)⟩
      obtain rfl : r = r₁ := Option.some.inj (hr.symm.trans hr₁)
      refine ⟨r, getElem?_set hr, .inl ⟨rfl, ?_⟩⟩
      rw [hsame, UInt64.toUInt64_toInt64, UInt32.toUInt32_toUInt64]
      rfl
    · rw [if_neg hsame]
      obtain ⟨rv, r', hseek, hr', hcases⟩ := h.seekTo (h.of_mem hr) (ha r hr hsame)
      rw [hseek]
      refine ⟨_, _, q, rfl, fun r₁ hr₁ => ?_, h.setReader hr'⟩
      obtain rfl : r = r₁ := Option.some.inj (hr.symm.trans hr₁)
      exact ⟨r', getElem?_set hr, hcases⟩

theorem step {a : Action} (ha : w.Careful A a) : w.Next A a := by
  cases a with
  | GetOutputStream aStartingOffset => exact h.getOutputStream ha
  | Write aBuffer => exact h.write ha
  | Close => exact h.close
  | NewInputStream aStartingOffset => exact h.newInputStream ha
  | Read i aCount => exact h.read ha
  | ReadSegments i writer aCount => exact h.readSegments ha
  | Seek i aWhence aOffset => exact h.seek ha

omit h in
/-- By induction on the run. -/
theorem run : ∀ {as : List Action} {w : World} {q : List Segment}, w.Good q → w.CarefulRun A as →
    SoundRun A w as
  | [], _, _, _, _ => trivial
  | _ :: _, _, _, h, hcareful => by
    obtain ⟨o, w', q', hstep, hright, h'⟩ := h.step hcareful.1
    exact ⟨o, w', hstep, hright, run h' (hcareful.2 o w' hstep)⟩

end Good

/-! ### From the beginning -/

/-- An empty stream. -/
theorem good_init {segmentSize maxSize : UInt32} {stream : nsStorageStream}
    (hinit : nsStorageStream.Init segmentSize maxSize = .ok stream) : Good { stream } [] := by
  unfold nsStorageStream.Init at hinit
  dsimp only at hinit
  split at hinit
  · cases hinit
  · rename_i hsize
    cases hinit
    rw [ne_eq, not_not] at hsize
    have hlog : segmentSize.toNat.log2 < 32 := by
      by_cases hzero : segmentSize.toNat = 0
      · rw [hzero]
        decide
      · exact (Nat.log2_lt hzero).mpr segmentSize.toNat_lt
    have hlog' : (nsStorageStream.PR_FloorLog2 segmentSize).toNat = segmentSize.toNat.log2 :=
      UInt32.toNat_ofNat_of_lt' (by change _ < 2 ^ 32; omega)
    have hpow : segmentSize.toNat = 2 ^ segmentSize.toNat.log2 := by
      have heq := congrArg UInt32.toNat hsize
      rw [UInt32.toNat_shiftLeft, hlog', Nat.mod_eq_of_lt hlog, Nat.shiftLeft_eq] at heq
      change _ = 1 * 2 ^ segmentSize.toNat.log2 % 2 ^ 32 at heq
      rwa [Nat.one_mul, Nat.mod_eq_of_lt (Nat.pow_lt_pow_right (by decide) hlog)] at heq
    refine ⟨⟨⟨nsSegmentedBuffer.holds_init, ?_, ?_, rfl, rfl, Nat.zero_le _, List.nodup_nil, nofun,
      nofun, nofun, Nat.zero_le _, nofun, nofun⟩, nofun, rfl, nofun⟩, nofun⟩
    · change (nsStorageStream.PR_FloorLog2 segmentSize).toNat < 32
      rw [hlog']
      exact hlog
    · change segmentSize.toNat = 2 ^ (nsStorageStream.PR_FloorLog2 segmentSize).toNat
      rw [hlog']
      exact hpow

/-- Every reader of a storage stream reads what was written, in every careful run. -/
theorem soundRun_of_carefulRun {segmentSize maxSize : UInt32} {stream : nsStorageStream}
    (hinit : nsStorageStream.Init segmentSize maxSize = .ok stream) {as : List Action}
    (hcareful : CarefulRun A { stream } as) : SoundRun A { stream } as :=
  (good_init hinit).run hcareful

/-! ### Two runs -/

variable {A w} {a : Action} {as : List Action} {o : Outcome} {w' : World}

theorem carefulRun_cons (ha : w.Careful A a) (hstep : w.step A a = some (o, w'))
    (hrest : w'.CarefulRun A as) : w.CarefulRun A (a :: as) := by
  refine ⟨ha, fun o₁ w₁ h => ?_⟩
  cases hstep.symm.trans h
  exact hrest

theorem SoundRun.tail (h : SoundRun A w (a :: as)) (hstep : w.step A a = some (o, w')) :
    SoundRun A w' as := by
  obtain ⟨o₁, w₁, hstep₁, -, hrest⟩ := h
  cases hstep.symm.trans hstep₁
  exact hrest

/-- Everything is granted. -/
def granting : Allocator := ⟨.bits64, fun _ => {}, fun _ => .inPlace⟩

/-- A stream of segments of four bytes. -/
def fours : nsStorageStream :=
  { mSegmentedBuffer := { mSegmentSize := 4, mMaxSize := 64 }, mSegmentSize := 4,
    mSegmentSizeLog2 := 2 }

/-- Five bytes, read after the stream was closed. -/
theorem soundRun_fours : SoundRun granting { stream := fours }
    [.GetOutputStream 0xFFFFFFFF, .Write [1, 2, 3, 4, 5], .Close, .NewInputStream 0, .Read 0 5] := by
  refine soundRun_of_carefulRun granting (rfl : nsStorageStream.Init 4 64 = .ok fours) ?_
  refine carefulRun_cons nofun rfl ?_
  refine carefulRun_cons (fun _ => by decide) rfl ?_
  refine carefulRun_cons trivial rfl ?_
  refine carefulRun_cons (fun _ _ => by decide) rfl ?_
  refine carefulRun_cons (fun r hr => ?_) rfl trivial
  cases hr
  exact ⟨⟨fun _ _ => rfl, fun _ _ _ => rfl⟩, fun _ _ => by decide⟩

/-- A reader that has read all of the first two bytes does not find the next two. -/
theorem not_soundRun_fours : ¬SoundRun granting { stream := fours }
    [.GetOutputStream 0xFFFFFFFF, .Write [1, 2], .NewInputStream 0, .Read 0 2, .Write [3, 4],
      .Read 0 2] := by
  intro h
  obtain ⟨o, w', hstep, -⟩ := ((((h.tail rfl).tail rfl).tail rfl).tail rfl).tail rfl
  cases hstep

end World

end Kompozer.Io.Storage

import Kompozer.Io.StorageOpen

/-! The input streams of a storage stream. Each of them keeps a place in a segment, and the end of
what it knows to be in that segment. -/

namespace Kompozer.Io.Storage

open NsResult

namespace nsStorageInputStream

/-- The position of the stream. -/
def pos (r : nsStorageInputStream) : ℕ := r.mLogicalCursor.toNat

/-- What is left up to the end that the stream knows. -/
def room (r : nsStorageInputStream) : ℕ := r.mReadCursor.room r.mSegmentEnd

/-- The place of a stream, in segments of `size` bytes that `length` bytes were written to. -/
structure Good (r : nsStorageInputStream) (size length : ℕ) : Prop where
  cursor_le : r.mReadCursor.off ≤ r.mSegmentEnd.off
  end_le : r.mSegmentEnd.off ≤ size
  pos_eq : r.pos = r.mSegmentNum.toNat * size + r.mReadCursor.off
  limit_le : r.mSegmentNum.toNat * size + r.mSegmentEnd.off ≤ length

/-- The segment was not moved since. -/
def Current (s : nsStorageStream) (r : nsStorageInputStream) : Prop :=
  r.mReadCursor.seg = s.segment r.mSegmentNum

/-- Of `n` bytes, the stream can read what it knows of, and goes on behind it only if nothing is
there, or if it knows the whole segment. `k` bytes are wanted. -/
structure Ready (s : nsStorageStream) (r : nsStorageInputStream) (length n k : ℕ) : Prop where
  current : 0 < n → 0 < r.room → r.Current s
  next : r.room < n → r.room ≤ k → r.pos + r.room < length → r.mSegmentEnd.off = s.size

variable {s : nsStorageStream} {h : Heap} {q : List Segment} {d : List UInt8}
  {r : nsStorageInputStream} {n k : ℕ}

namespace Good

theorem start (size length : ℕ) : ({} : nsStorageInputStream).Good size length :=
  ⟨Nat.le_refl 0, Nat.zero_le _, by simp [pos], by simp⟩

theorem mono {size length length' : ℕ} (hr : r.Good size length) (hle : length ≤ length') :
    r.Good size length' :=
  ⟨hr.cursor_le, hr.end_le, hr.pos_eq, Nat.le_trans hr.limit_le hle⟩

variable (hs : s.Stores h q d) (hr : r.Good s.size d.length)
include hr

theorem room_eq : r.mReadCursor.off + r.room = r.mSegmentEnd.off := by
  have hle := hr.cursor_le
  unfold room Place.room
  omega

theorem pos_add_room : r.pos + r.room = r.mSegmentNum.toNat * s.size + r.mSegmentEnd.off := by
  rw [hr.pos_eq, Nat.add_assoc, hr.room_eq]

theorem pos_le : r.pos + r.room ≤ d.length := by
  rw [hr.pos_add_room]
  exact hr.limit_le

include hs

/-- The cursor is moved over bytes that the stream knows of. -/
theorem advance (hk : k ≤ r.room) :
    (r.advance k).Good s.size d.length ∧ (r.advance k).pos = r.pos + k ∧
      (r.advance k).room = r.room - k := by
  have hroom := hr.room_eq
  have hle := hr.pos_le
  have hlt := s.mLogicalLength.toNat_lt
  rw [hs.length] at hlt
  have hpos : (r.advance k).pos = r.pos + k := by
    change (r.mLogicalCursor + UInt32.ofNat k).toNat = r.mLogicalCursor.toNat + k
    change r.mLogicalCursor.toNat + r.room ≤ d.length at hle
    have hk' : (UInt32.ofNat k).toNat = k :=
      UInt32.toNat_ofNat_of_lt' (by change _ < 2 ^ 32; omega)
    rw [UInt32.toNat_add, hk']
    exact Nat.mod_eq_of_lt (by omega)
  refine ⟨⟨?_, hr.end_le, ?_, hr.limit_le⟩, hpos, ?_⟩
  · change r.mReadCursor.off + k ≤ r.mSegmentEnd.off
    omega
  · rw [hpos, hr.pos_eq]
    exact Nat.add_assoc ..
  · change r.mSegmentEnd.off - (r.mReadCursor.off + k) = r.room - k
    omega

/-- Bytes that the stream knows of. -/
theorem read (hcurrent : r.Current s) (hk : k ≤ r.room) :
    h.read r.mReadCursor k = some ((d.drop r.pos).take k) := by
  by_cases hzero : k = 0
  · rw [hzero, List.take_zero]
    rfl
  · have hroom := hr.room_eq
    have hend := hr.end_le
    have hle := hr.pos_le
    rw [hr.pos_eq] at hle ⊢
    obtain ⟨seg, hseg⟩ := hs.exists_segment (i := r.mSegmentNum.toNat) (by omega)
    have hplace : r.mReadCursor = ⟨some seg, r.mReadCursor.off⟩ := by
      unfold Current at hcurrent
      rw [hs.toLaid.segment hseg] at hcurrent
      rw [← hcurrent]
    rw [hplace]
    exact hs.toLaid.read hseg (by omega) (by omega)

theorem available : (s.mLogicalLength - r.mLogicalCursor).toNat = d.length - r.pos := by
  have hle := hr.pos_le
  rw [UInt32.toNat_sub_of_le, hs.length]
  · rfl
  · rw [UInt32.le_iff_toNat_le, hs.length]
    exact Nat.le_trans (Nat.le_add_right _ _) hle

/-- No data is left. -/
theorem nextSegment_end (hend : r.pos = d.length) : r.nextSegment s = some none := by
  unfold nextSegment
  dsimp only
  rw [if_pos]
  apply UInt32.toNat_inj.mp
  rw [hr.available hs, hend]
  exact Nat.sub_self _

/-- The stream goes on to the next segment. -/
theorem nextSegment (hroom : r.room = 0) (hlt : r.pos < d.length)
    (hwhole : r.mSegmentEnd.off = s.size) :
    ∃ r', r.nextSegment s = some (some r') ∧ r'.Good s.size d.length ∧ r'.pos = r.pos ∧
      0 < r'.room ∧ r'.Current s ∧ (r'.pos + r'.room < d.length → r'.mSegmentEnd.off = s.size) := by
  have hpos : r.pos = (r.mSegmentNum.toNat + 1) * s.size := by
    have heq := hr.pos_add_room
    rw [hroom, hwhole] at heq
    rw [Nat.add_mul, Nat.one_mul]
    exact heq
  have hsize := hs.size_pos
  have hlength := s.mLogicalLength.toNat_lt
  have hnum : (r.mSegmentNum + 1).toNat = r.mSegmentNum.toNat + 1 := by
    have hmul := Nat.le_mul_of_pos_right (r.mSegmentNum.toNat + 1) hsize
    rw [hs.length] at hlength
    rw [UInt32.toNat_add]
    exact Nat.mod_eq_of_lt (by change r.mSegmentNum.toNat + 1 < _; omega)
  have havail := hr.available hs
  have hmin : (PR_MIN s.mSegmentSize (s.mLogicalLength - r.mLogicalCursor)).toNat =
      min s.size (d.length - r.pos) := by
    rw [toNat_PR_MIN, havail]
    rfl
  obtain ⟨seg, hseg⟩ := hs.exists_segment (hpos ▸ hlt)
  have hsegment : s.segment (r.mSegmentNum + 1) = some seg :=
    hs.toLaid.segment (by rw [hnum]; exact hseg)
  unfold nsStorageInputStream.nextSegment
  dsimp only
  rw [if_neg, hsegment]
  · refine ⟨_, rfl, ⟨Nat.zero_le _, ?_, ?_, ?_⟩, rfl, ?_, hsegment.symm, ?_⟩
    · change (PR_MIN _ _).toNat ≤ _
      rw [hmin]
      exact Nat.min_le_left _ _
    · change r.pos = (r.mSegmentNum + 1).toNat * s.size + 0
      rw [hnum, hpos]
      rfl
    · change (r.mSegmentNum + 1).toNat * s.size + (PR_MIN _ _).toNat ≤ _
      rw [hnum, hmin, ← hpos]
      omega
    · change 0 < (PR_MIN _ _).toNat - 0
      rw [hmin]
      omega
    · change r.pos + ((PR_MIN _ _).toNat - 0) < _ → (PR_MIN _ _).toNat = _
      rw [hmin]
      omega
  · intro hzero
    rw [hzero] at havail
    change 0 = d.length - r.pos at havail
    omega

end Good

/-! ### Seeking -/

/-- A seek to a place in a segment, or to the end in the midst of one. -/
theorem seekTo_eq (hs : s.Stores h q d) (hr : r.Good s.size d.length) {aPosition : UInt32}
    (hle : aPosition.toNat ≤ d.length)
    (hend : d ≠ [] → aPosition.toNat = d.length → ¬s.size ∣ d.length) :
    ∃ r', r.seekTo s aPosition = some (ok, r') ∧ r'.Good s.size d.length ∧
      r'.pos = aPosition.toNat := by
  have hsize := hs.size_pos
  have hlength := hs.length
  unfold seekTo
  rw [if_neg (by rw [UInt32.lt_iff_toNat_lt, hlength]; exact Nat.not_lt_of_le hle)]
  by_cases hzero : s.mLogicalLength = 0
  · rw [if_pos hzero]
    have hpos := hr.pos_le
    rw [hzero] at hlength
    change 0 = d.length at hlength
    exact ⟨r, rfl, hr, by omega⟩
  · rw [if_neg hzero]
    have hd : d ≠ [] := by
      rintro rfl
      exact hzero (UInt32.toNat_inj.mp hlength)
    have hoff := hs.toNat_segOffset aPosition
    have hnum := hs.toNat_segNum aPosition
    have hmod := Nat.div_add_mod aPosition.toNat s.size
    have hlt := Nat.mod_lt aPosition.toNat hsize
    rw [Nat.mul_comm] at hmod
    have hstart : (s.SegNum aPosition).toNat * s.size < d.length := by
      rw [hnum]
      by_cases heq : aPosition.toNat = d.length
      · have hne : aPosition.toNat % s.size ≠ 0 := fun hmod' =>
          hend hd heq (heq ▸ Nat.dvd_of_mod_eq_zero hmod')
        omega
      · omega
    obtain ⟨seg, hseg⟩ := hs.exists_segment hstart
    have hleft : (s.mSegmentSize - s.SegOffset aPosition).toNat =
        s.size - aPosition.toNat % s.size := by
      rw [UInt32.toNat_sub_of_le, hoff]
      · rfl
      · rw [UInt32.le_iff_toNat_le, hoff]
        exact Nat.le_of_lt hlt
    have havail : (s.mLogicalLength - aPosition).toNat = d.length - aPosition.toNat := by
      rw [UInt32.toNat_sub_of_le, hlength]
      rw [UInt32.le_iff_toNat_le, hlength]
      exact hle
    dsimp only
    rw [hs.toLaid.segment hseg]
    refine ⟨_, rfl, ⟨?_, ?_, ?_, ?_⟩, rfl⟩
    · exact Nat.le_add_right _ _
    · change (s.SegOffset aPosition).toNat + (PR_MIN _ _).toNat ≤ _
      rw [toNat_PR_MIN, hleft, havail, hoff]
      omega
    · change aPosition.toNat = (s.SegNum aPosition).toNat * s.size + (s.SegOffset aPosition).toNat
      rw [hnum, hoff, hmod]
    · change (s.SegNum aPosition).toNat * s.size +
        ((s.SegOffset aPosition).toNat + (PR_MIN _ _).toNat) ≤ _
      rw [toNat_PR_MIN, hleft, havail, hoff, hnum]
      omega

theorem seekTo_error (hs : s.Stores h q d) {aPosition : UInt32}
    (hlt : d.length < aPosition.toNat) :
    r.seekTo s aPosition = some (NS_ERROR_ILLEGAL_VALUE, r) := by
  unfold seekTo
  rw [if_pos]
  rw [UInt32.lt_iff_toNat_lt, hs.length]
  exact hlt

/-! ### Reading -/

theorem readLoop_end {fuel n : ℕ} {r : nsStorageInputStream} (hn : n ≠ 0) (hroom : r.room = 0)
    (hnext : r.nextSegment s = some none) : readLoop s h (fuel + 1) n r = some (r, []) := by
  rw [readLoop, if_neg hn]
  change (if r.room = 0 then r.nextSegment s else some (some r)).bind _ = _
  rw [if_pos hroom, hnext]
  rfl

/-- One round of the loop of `Read`. -/
theorem readLoop_succ {fuel n : ℕ} {r r₁ r₂ : nsStorageInputStream} {bytes rest : List UInt8}
    (hn : n ≠ 0)
    (hnext : (if r.room = 0 then r.nextSegment s else some (some r)) = some (some r₁))
    (hread : h.read r₁.mReadCursor (min r.room n) = some bytes)
    (hloop : readLoop s h fuel (n - min r.room n) (r₁.advance (min r.room n)) = some (r₂, rest)) :
    readLoop s h (fuel + 1) n r = some (r₂, bytes ++ rest) := by
  rw [readLoop, if_neg hn]
  change (if r.room = 0 then r.nextSegment s else some (some r)).bind _ = _
  rw [hnext]
  change (h.read r₁.mReadCursor (min r.room n)).bind _ = _
  rw [hread]
  change (readLoop s h fuel (n - min r.room n) (r₁.advance (min r.room n))).bind _ = _
  rw [hloop]
  rfl

/-- By induction on the rounds of the loop of `Read`. -/
theorem readLoop_eq (hs : s.Stores h q d) (fuel : ℕ) : ∀ {n : ℕ} {r : nsStorageInputStream},
    r.Good s.size d.length → r.Ready s d.length n n → 2 * n + 1 ≤ fuel + min r.room 1 → 0 < fuel →
    ∃ r', readLoop s h fuel n r = some (r', (d.drop r.pos).take n) ∧ r'.Good s.size d.length ∧
      r'.pos = r.pos + min n (d.length - r.pos) := by
  induction fuel with
  | zero =>
    intro n r _ _ _ hfuel
    exact absurd hfuel (Nat.lt_irrefl 0)
  | succ fuel ih =>
    intro n r hr hready hfuel _
    by_cases hn : n = 0
    · subst hn
      rw [Nat.zero_min]
      exact ⟨r, by rw [readLoop, if_pos rfl, List.take_zero], hr, rfl⟩
    · have hpos := hr.pos_le
      by_cases hroom : r.room = 0
      · by_cases hend : r.pos = d.length
        · rw [readLoop_end hn hroom (hr.nextSegment_end hs hend)]
          refine ⟨r, ?_, hr, by rw [hend, Nat.sub_self, Nat.min_zero, Nat.add_zero]⟩
          rw [hend, List.drop_length, List.take_nil]
        · obtain ⟨r₁, hnext, hr₁, hpos₁, hroom₁, hcurrent₁, hwhole₁⟩ :=
            hr.nextSegment hs hroom (by omega) (hready.next (by omega) (by omega) (by omega))
          obtain ⟨hr₂, hpos₂, hroom₂⟩ := hr₁.advance hs (Nat.zero_le r₁.room)
          rw [Nat.add_zero, hpos₁] at hpos₂
          rw [Nat.sub_zero] at hroom₂
          have hready₂ : (r₁.advance 0).Ready s d.length n n := by
            refine ⟨fun _ _ => hcurrent₁, fun _ _ hlt => hwhole₁ ?_⟩
            rwa [hpos₂, hroom₂, ← hpos₁] at hlt
          obtain ⟨r', hloop, hr', hpos'⟩ := ih hr₂ hready₂ (by omega) (by omega)
          rw [hpos₂] at hloop hpos'
          have hzero : min r.room n = 0 := by rw [hroom, Nat.zero_min]
          refine ⟨r', ?_, hr', hpos'⟩
          have hstep := readLoop_succ (h := h) hn ((if_pos hroom).trans hnext)
            (by rw [hzero]; rfl) (by rw [hzero]; exact hloop)
          exact hstep
      · have hcount : 0 < min r.room n := by omega
        obtain ⟨hr₂, hpos₂, hroom₂⟩ := hr.advance hs (Nat.min_le_left r.room n)
        have hready₂ : (r.advance (min r.room n)).Ready s d.length (n - min r.room n)
            (n - min r.room n) := by
          constructor
          · intro _ _
            omega
          · intro _ _ hlt
            exact hready.next (by omega) (by omega) (by omega)
        obtain ⟨r', hloop, hr', hpos'⟩ := ih hr₂ hready₂ (by omega) (by omega)
        rw [hpos₂] at hloop hpos'
        have hread := hr.read hs (hready.current (by omega) (by omega)) (Nat.min_le_left r.room n)
        refine ⟨r', ?_, hr', by omega⟩
        have htake : (d.drop r.pos).take n = (d.drop r.pos).take (min r.room n) ++
            (d.drop (r.pos + min r.room n)).take (n - min r.room n) := by
          rw [← List.drop_drop, ← List.take_add, Nat.add_sub_cancel' (Nat.min_le_right _ _)]
        rw [htake]
        exact readLoop_succ hn (if_neg hroom) hread hloop

/-- The bytes that the function of `ReadSegments` would consume, if it is offered enough. -/
def taken (writer : List ℕ) : ℕ := (writer.takeWhile (· ≠ 0)).sum

theorem taken_eq : ∀ {writer : List ℕ}, writer.headD 0 ≠ 0 →
    taken writer = writer.headD 0 + taken writer.tail
  | [], hne => absurd rfl hne
  | k :: rest, hne => by
    have hk : decide (k ≠ 0) = true := decide_eq_true hne
    unfold taken
    rw [List.takeWhile_cons, if_pos hk, List.sum_cons]
    rfl

/-- Calls of the function, each with the bytes that follow on what was consumed before. -/
def Follows (d : List UInt8) : ℕ → List Shown → Prop
  | _, [] => True
  | pos, call :: rest => call.toOffset.toNat = pos ∧ call.fromSegment ≠ [] ∧
    call.fromSegment <+: d.drop pos ∧ call.bytesConsumed ≤ call.fromSegment.length ∧
    Follows d (pos + call.bytesConsumed) rest

theorem consumed_cons {call : Shown} {rest : List Shown} :
    consumed (call :: rest) = call.fromSegment.take call.bytesConsumed ++ consumed rest := rfl

/-- What was consumed are the bytes from the position on. -/
theorem Follows.consumed : ∀ {shown : List Shown} {pos : ℕ}, Follows d pos shown →
    consumed shown <+: d.drop pos
  | [], _, _ => List.nil_prefix
  | call :: rest, pos, h => by
    obtain ⟨-, -, ⟨tail, htail⟩, hle, hrest⟩ := h
    have ih := hrest.consumed
    rw [← List.drop_drop, ← htail, List.drop_append_of_le_length hle] at ih
    rw [consumed_cons, ← htail]
    have hsplit : call.fromSegment ++ tail = call.fromSegment.take call.bytesConsumed ++
        (call.fromSegment.drop call.bytesConsumed ++ tail) := by
      rw [← List.append_assoc, List.take_append_drop]
    rw [hsplit, List.prefix_append_right_inj]
    exact ih

theorem segmentsLoop_end {fuel n : ℕ} {writer : List ℕ} {r : nsStorageInputStream} (hn : n ≠ 0)
    (hroom : r.room = 0) (hnext : r.nextSegment s = some none) :
    segmentsLoop s h (fuel + 1) n writer r = some (r, []) := by
  rw [segmentsLoop, if_neg hn]
  change (if r.room = 0 then r.nextSegment s else some (some r)).bind _ = _
  rw [if_pos hroom, hnext]
  rfl

/-- A round of the loop of `ReadSegments` whose function consumes nothing. -/
theorem segmentsLoop_refused {fuel n : ℕ} {writer : List ℕ} {r r₁ : nsStorageInputStream}
    {bytes : List UInt8} (hn : n ≠ 0)
    (hnext : (if r.room = 0 then r.nextSegment s else some (some r)) = some (some r₁))
    (hread : h.read r₁.mReadCursor (min r₁.room n) = some bytes)
    (hzero : min (writer.headD 0) (min r₁.room n) = 0) :
    segmentsLoop s h (fuel + 1) n writer r = some (r₁, [⟨r₁.mLogicalCursor, bytes, 0⟩]) := by
  rw [segmentsLoop, if_neg hn]
  change (if r.room = 0 then r.nextSegment s else some (some r)).bind _ = _
  rw [hnext]
  change (h.read r₁.mReadCursor (min r₁.room n)).bind _ = _
  rw [hread]
  change (if min (writer.headD 0) (min r₁.room n) = 0 then _ else _) = _
  rw [if_pos hzero]
  change some (r₁, [Shown.mk r₁.mLogicalCursor bytes (min (writer.headD 0) (min r₁.room n))]) = _
  rw [hzero]

theorem segmentsLoop_succ {fuel n : ℕ} {writer : List ℕ} {r r₁ r₂ : nsStorageInputStream}
    {bytes : List UInt8} {rest : List Shown} (hn : n ≠ 0)
    (hnext : (if r.room = 0 then r.nextSegment s else some (some r)) = some (some r₁))
    (hread : h.read r₁.mReadCursor (min r₁.room n) = some bytes)
    (hpos : min (writer.headD 0) (min r₁.room n) ≠ 0)
    (hloop : segmentsLoop s h fuel (n - min (writer.headD 0) (min r₁.room n)) writer.tail
      (r₁.advance (min (writer.headD 0) (min r₁.room n))) = some (r₂, rest)) :
    segmentsLoop s h (fuel + 1) n writer r = some (r₂,
      ⟨r₁.mLogicalCursor, bytes, min (writer.headD 0) (min r₁.room n)⟩ :: rest) := by
  rw [segmentsLoop, if_neg hn]
  change (if r.room = 0 then r.nextSegment s else some (some r)).bind _ = _
  rw [hnext]
  change (h.read r₁.mReadCursor (min r₁.room n)).bind _ = _
  rw [hread]
  change (if min (writer.headD 0) (min r₁.room n) = 0 then _ else _) = _
  rw [if_neg hpos]
  change (segmentsLoop s h fuel (n - min (writer.headD 0) (min r₁.room n)) writer.tail
    (r₁.advance (min (writer.headD 0) (min r₁.room n)))).bind _ = _
  rw [hloop]
  rfl

/-- By induction on the rounds of the loop of `ReadSegments`. -/
theorem segmentsLoop_eq (hs : s.Stores h q d) (fuel : ℕ) : ∀ {n : ℕ} (writer : List ℕ)
    {r : nsStorageInputStream}, r.Good s.size d.length → r.Ready s d.length n (taken writer) →
    n < fuel → ∃ r' shown, segmentsLoop s h fuel n writer r = some (r', shown) ∧
      r'.Good s.size d.length ∧ Follows d r.pos shown ∧
      r'.pos = r.pos + (consumed shown).length ∧
      (0 < n → r.pos < d.length → shown ≠ []) ∧
      (0 < n → r.pos < d.length → writer.headD 0 ≠ 0 → consumed shown ≠ []) := by
  induction fuel with
  | zero =>
    intro n writer r _ _ hfuel
    exact absurd hfuel (Nat.not_lt_zero _)
  | succ fuel ih =>
    intro n writer r hr hready hfuel
    -- What the loop does once there is something in the segment.
    have hcall : ∀ {r₁ : nsStorageInputStream}, n ≠ 0 →
        (if r.room = 0 then r.nextSegment s else some (some r)) = some (some r₁) →
        r₁.Good s.size d.length → 0 < r₁.room → r₁.Current s → r₁.pos = r.pos →
        (r₁.room < n → r₁.room ≤ taken writer → r₁.pos + r₁.room < d.length →
          r₁.mSegmentEnd.off = s.size) →
        ∃ r' shown, segmentsLoop s h (fuel + 1) n writer r = some (r', shown) ∧
          r'.Good s.size d.length ∧ Follows d r.pos shown ∧
          r'.pos = r.pos + (consumed shown).length ∧ shown ≠ [] ∧
          (writer.headD 0 ≠ 0 → consumed shown ≠ []) := by
      intro r₁ hn hstep hr₁ hroom hcurrent hpos hnext
      have hle := hr₁.pos_le
      have hbytes : ((d.drop r.pos).take (min r₁.room n)).length = min r₁.room n := by
        rw [List.length_take, List.length_drop]
        omega
      have hne : (d.drop r.pos).take (min r₁.room n) ≠ [] :=
        List.ne_nil_of_length_pos (by rw [hbytes]; omega)
      have hread := hr₁.read hs hcurrent (Nat.min_le_left r₁.room n)
      rw [hpos] at hread
      by_cases hzero : min (writer.headD 0) (min r₁.room n) = 0
      · rw [segmentsLoop_refused hn hstep hread hzero]
        refine ⟨r₁, _, rfl, hr₁, ⟨hpos, hne, List.take_prefix _ _, Nat.zero_le _, trivial⟩, ?_,
          List.cons_ne_nil _ _, fun hhead => by omega⟩
        rw [consumed_cons, hpos]
        rfl
      · obtain ⟨hr₂, hpos₂, hroom₂⟩ := hr₁.advance (k := min (writer.headD 0) (min r₁.room n)) hs
          (by omega)
        have htaken : taken writer = writer.headD 0 + taken writer.tail := taken_eq (by omega)
        obtain ⟨r', rest, hloop, hr', hfollows, hpos', -⟩ := ih
          (n := n - min (writer.headD 0) (min r₁.room n)) writer.tail hr₂
          ⟨fun _ _ => hcurrent, fun _ _ _ => hnext (by omega) (by omega) (by omega)⟩ (by omega)
        rw [hpos₂, hpos] at hfollows hpos'
        have hle' : min (writer.headD 0) (min r₁.room n) ≤
            ((d.drop r.pos).take (min r₁.room n)).length := by
          rw [hbytes]
          exact Nat.min_le_right _ _
        have hlen : (List.take (min (writer.headD 0) (min r₁.room n))
            ((d.drop r.pos).take (min r₁.room n))).length = min (writer.headD 0) (min r₁.room n) :=
          List.length_take_of_le hle'
        rw [segmentsLoop_succ hn hstep hread hzero hloop]
        refine ⟨r', _, rfl, hr', ⟨hpos, hne, List.take_prefix _ _, hle', hfollows⟩, ?_,
          List.cons_ne_nil _ _, fun _ => ?_⟩
        · change r'.pos = r.pos + (List.take (min (writer.headD 0) (min r₁.room n))
            ((d.drop r.pos).take (min r₁.room n)) ++ consumed rest).length
          rw [List.length_append, hlen, ← Nat.add_assoc]
          exact hpos'
        · change List.take (min (writer.headD 0) (min r₁.room n))
            ((d.drop r.pos).take (min r₁.room n)) ++ consumed rest ≠ []
          apply List.ne_nil_of_length_pos
          rw [List.length_append, hlen]
          omega
    by_cases hn : n = 0
    · rw [segmentsLoop, if_pos hn]
      exact ⟨r, [], rfl, hr, trivial, rfl, by omega, by omega⟩
    · by_cases hroom : r.room = 0
      · by_cases hend : r.pos = d.length
        · rw [segmentsLoop_end hn hroom (hr.nextSegment_end hs hend)]
          exact ⟨r, [], rfl, hr, trivial, rfl, by omega, by omega⟩
        · have hpos := hr.pos_le
          obtain ⟨r₁, hnext, hr₁, hpos₁, hroom₁, hcurrent₁, hwhole₁⟩ :=
            hr.nextSegment hs hroom (by omega) (hready.next (by omega) (by omega) (by omega))
          obtain ⟨r', shown, hrun, hr', hfollows, hpos', hne, hconsumed⟩ :=
            hcall hn ((if_pos hroom).trans hnext) hr₁ hroom₁ hcurrent₁ hpos₁
              fun _ _ hlt => hwhole₁ hlt
          exact ⟨r', shown, hrun, hr', hfollows, hpos', fun _ _ => hne, fun _ _ => hconsumed⟩
      · obtain ⟨r', shown, hrun, hr', hfollows, hpos', hne, hconsumed⟩ :=
          hcall hn (if_neg hroom) hr (by omega) (hready.current (by omega) (by omega)) rfl
            hready.next
        exact ⟨r', shown, hrun, hr', hfollows, hpos', fun _ _ => hne, fun _ _ => hconsumed⟩

end nsStorageInputStream

end Kompozer.Io.Storage

import Kompozer.Io.Pipe

/-! What is in a pipe: the segments in their order, with the places in the first and the last of
them up to which the one side has read and the other has written. -/

namespace Kompozer.Io

open NsResult

/-! ### Bytes of segments -/

section Bytes
variable {memory memory' : Segment → ℕ → UInt8} {seg : Segment} {off n s ro wo : ℕ}

/-- How far the first segment is written. -/
def limitOf (s wo : ℕ) : List Segment → ℕ
  | [_] => wo
  | _ => s

theorem limitOf_append {q : List Segment} (h : q ≠ []) {new : Segment} :
    limitOf s wo (q ++ [new]) = s := by
  cases q with
  | nil => exact absurd rfl h
  | cons seg rest => cases rest <;> rfl

theorem limitOf_self (q : List Segment) : limitOf s s q = s := by
  match q with
  | [] => rfl
  | [_] => rfl
  | _ :: _ :: _ => rfl

theorem limitOf_mono {wo' : ℕ} (q : List Segment) (h : wo ≤ wo') :
    limitOf s wo q ≤ limitOf s wo' q := by
  match q with
  | [] => exact Nat.le_refl s
  | [_] => exact h
  | _ :: _ :: _ => exact Nat.le_refl s

theorem limitOf_le (q : List Segment) (h : wo ≤ s) : limitOf s wo q ≤ s := by
  rw [← limitOf_self (s := s) q]
  exact (limitOf_mono q h).trans_eq (by rw [limitOf_self, limitOf_self])

/-- What is read is in another segment than the last one, or before the write cursor. -/
theorem ne_last_or_lt {first last : Segment} {rest : List Segment} {i : ℕ}
    (hnodup : (first :: rest).Nodup) (hlast : (first :: rest).getLast? = some last)
    (hi : i < limitOf s wo (first :: rest)) : first ≠ last ∨ i < wo := by
  cases rest with
  | nil => exact .inr hi
  | cons next rest =>
    left
    rw [List.getLast?_cons_cons] at hlast
    rintro rfl
    exact (List.nodup_cons.mp hnodup).1 (List.mem_of_getLast? hlast)

/-- The bytes that are in a pipe. -/
def stored (memory : Segment → ℕ → UInt8) (s wo : ℕ) : List Segment → ℕ → List UInt8
  | [], _ => []
  | [seg], ro => bytesAt memory seg ro (wo - ro)
  | seg :: next :: rest, ro => bytesAt memory seg ro (s - ro) ++ stored memory s wo (next :: rest) 0

/-- The bytes in a pipe are not in the last segment from the write cursor on. -/
theorem stored_congr : ∀ (q : List Segment) (ro : ℕ), q.Nodup →
    (∀ t i, (∀ last, q.getLast? = some last → t ≠ last ∨ i < wo) → memory t i = memory' t i) →
    stored memory s wo q ro = stored memory' s wo q ro
  | [], _, _, _ => rfl
  | [seg], ro, _, h => by
    apply bytesAt_congr
    intro i _ hi
    exact h seg i fun _ _ => .inr (by omega)
  | seg :: next :: rest, ro, hnodup, h => by
    rw [List.nodup_cons] at hnodup
    have hlast : (seg :: next :: rest).getLast? = (next :: rest).getLast? :=
      List.getLast?_cons_cons
    rw [hlast] at h
    unfold stored
    rw [stored_congr (next :: rest) 0 hnodup.2 h]
    congr 1
    apply bytesAt_congr
    intro i _ _
    apply h
    intro last hsome
    exact .inl fun heq => hnodup.1 (heq ▸ List.mem_of_getLast? hsome)

/-- The writer advances. -/
theorem stored_advance {k : ℕ} : ∀ (q : List Segment) (ro : ℕ) {last : Segment},
    q.getLast? = some last → ro ≤ limitOf s wo q →
    stored memory s (wo + k) q ro = stored memory s wo q ro ++ bytesAt memory last wo k
  | [], _, _, h, _ => by simp at h
  | [seg], ro, last, h, hle => by
    have hseg : seg = last := by simpa using h
    have hlim : ro ≤ wo := hle
    unfold stored
    rw [← hseg, show wo + k - ro = wo - ro + k by omega, bytesAt_add, Nat.add_sub_cancel' hlim]
  | seg :: next :: rest, ro, last, h, hle => by
    rw [List.getLast?_cons_cons] at h
    unfold stored
    rw [stored_advance (next :: rest) 0 h (Nat.zero_le _), List.append_assoc]

/-- There is a new last segment. -/
theorem stored_append : ∀ (q : List Segment) (ro : ℕ) (new : Segment), q ≠ [] →
    stored memory s 0 (q ++ [new]) ro = stored memory s s q ro
  | [], _, _, h => absurd rfl h
  | [seg], ro, new, _ => by
    change bytesAt memory seg ro (s - ro) ++ bytesAt memory new 0 0 = bytesAt memory seg ro (s - ro)
    rw [bytesAt_zero, List.append_nil]
  | seg :: next :: rest, ro, new, _ => by
    change bytesAt memory seg ro (s - ro) ++ stored memory s 0 (next :: rest ++ [new]) 0 = _
    rw [stored_append (next :: rest) 0 new (List.cons_ne_nil _ _)]
    rfl

/-- The reader advances inside of the first segment. -/
theorem stored_read {first : Segment} {rest : List Segment}
    (h : ro + n ≤ limitOf s wo (first :: rest)) :
    stored memory s wo (first :: rest) ro =
      bytesAt memory first ro n ++ stored memory s wo (first :: rest) (ro + n) := by
  cases rest with
  | nil =>
    have hle : ro + n ≤ wo := h
    unfold stored
    rw [show wo - ro = n + (wo - (ro + n)) by omega, bytesAt_add]
  | cons next rest =>
    have hle : ro + n ≤ s := h
    unfold stored
    rw [show s - ro = n + (s - (ro + n)) by omega, bytesAt_add, List.append_assoc]

/-- The first segment is read to its end. -/
theorem stored_end {first : Segment} {rest : List Segment} (h : ro = limitOf s wo (first :: rest)) :
    stored memory s wo (first :: rest) ro = stored memory s wo rest 0 := by
  cases rest with
  | nil =>
    have heq : ro = wo := h
    unfold stored
    rw [heq, Nat.sub_self, bytesAt_zero]
  | cons next rest =>
    have heq : ro = s := h
    rw [stored, heq, Nat.sub_self, bytesAt_zero, List.nil_append]

/-- No more than what the segments can take. -/
theorem length_stored_le (memory : Segment → ℕ → UInt8) (hwo : wo ≤ s) : ∀ (q : List Segment) (ro : ℕ),
    (stored memory s wo q ro).length ≤ q.length * s
  | [], _ => Nat.zero_le _
  | [seg], ro => by
    rw [stored, length_bytesAt, List.length_singleton]
    omega
  | seg :: next :: rest, ro => by
    have ih := length_stored_le memory hwo (next :: rest) 0
    rw [stored, List.length_append, length_bytesAt, List.length_cons, Nat.add_mul, Nat.one_mul]
    omega

end Bytes

/-! ### The pipe -/

theorem Machine.same_seg {m : Machine} {seg : Segment} {i j : ℕ} :
    m.same (some ⟨seg, i⟩) (some ⟨seg, j⟩) = decide (i = j) := by
  simp [Machine.same, Machine.addr]

theorem Machine.above_seg {m : Machine} {seg : Segment} {i j : ℕ} :
    m.above (some ⟨seg, i⟩) (some ⟨seg, j⟩) = decide (j < i) := by
  simp [Machine.above, Machine.addr]

namespace nsPipe

/-- The size of the segments. -/
def size (p : nsPipe) : ℕ := p.mBuffer.mSegmentSize.toNat

/-- The segments of a pipe of at most `n` segments, what is read of the first one, and what is
written to the last one. -/
structure Placed (p : nsPipe) (n : ℕ) (q : List Segment) (ro wo : ℕ) : Prop where
  holds : p.mBuffer.Holds q
  pos : 0 < p.size
  max : p.mBuffer.mMaxSize.toNat = p.mBuffer.mSegmentSize.toNat * n
  few : q.length ≤ n
  writeSegment : p.mWriteSegment = q.length - 1
  readCursor : p.mReadCursor = q.head?.map (⟨·, ro⟩)
  readLimit : p.mReadLimit = q.head?.map (⟨·, limitOf p.size wo q⟩)
  writeCursor : p.mWriteCursor = q.getLast?.map (⟨·, wo⟩)
  writeLimit : p.mWriteLimit = q.getLast?.map (⟨·, p.size⟩)
  read_le : ro ≤ limitOf p.size wo q
  write_le : wo ≤ p.size

/-- A segment that is done with is gone. -/
structure Laid (p : nsPipe) (n : ℕ) (q : List Segment) (ro wo : ℕ) : Prop
    extends Placed p n q ro wo where
  unread : q ≠ [] → ro = limitOf p.size wo q → q.length = 1 ∧ wo < p.size

variable {m : Machine} {p : nsPipe} {n ro wo : ℕ} {q : List Segment}

namespace Placed

variable (h : p.Placed n q ro wo)
include h

theorem size_lt : q.length * p.mBuffer.mSegmentSize.toNat < 2 ^ 32 := by
  apply Nat.lt_of_le_of_lt _ p.mBuffer.mMaxSize.toNat_lt
  rw [h.max, Nat.mul_comm]
  exact Nat.mul_le_mul_left _ h.few

/-- The read cursor is at the limit only where there is nothing to read. -/
theorem same_read : m.same p.mReadCursor p.mReadLimit =
    decide (q = [] ∨ ro = limitOf p.size wo q) := by
  rw [h.readCursor, h.readLimit]
  cases q with
  | nil => rfl
  | cons first rest => simp [Machine.same_seg]

theorem same_write : m.same p.mWriteCursor p.mWriteLimit = decide (q = [] ∨ wo = p.size) := by
  rw [h.writeCursor, h.writeLimit]
  cases hlast : q.getLast? with
  | none =>
    rw [List.getLast?_eq_none_iff] at hlast
    subst hlast
    rfl
  | some last =>
    have hne : q ≠ [] := by
      rintro rfl
      cases hlast
    simp [Machine.same_seg, hne]

/-- There is nothing to read. -/
theorem getReadSegment_empty (hend : q = [] ∨ ro = limitOf p.size wo q) : p.GetReadSegment m =
    some (.error (if p.mStatus.failed then p.mStatus else NS_BASE_STREAM_WOULD_BLOCK)) := by
  unfold GetReadSegment
  rw [h.same_read, if_pos (decide_eq_true hend)]

theorem getReadSegment {first : Segment} {rest : List Segment} (hq : q = first :: rest)
    (hlim : ro ≠ limitOf p.size wo q) :
    p.GetReadSegment m = some (.ok (⟨first, ro⟩, limitOf p.size wo q - ro)) := by
  subst hq
  unfold GetReadSegment
  rw [h.same_read, if_neg (by simpa using hlim), h.readCursor, h.readLimit]
  simp [Machine.addr, Nat.add_sub_add_left]

/-- The first segment is discarded after it was read to its end. -/
theorem discardFirst {first : Segment} {rest : List Segment} (hq : q = first :: rest) :
    ∃ p', p.discardFirst = some (some first, p') ∧ p'.Laid n rest 0 wo ∧ p'.size = p.size ∧
      p'.mAvailable = p.mAvailable ∧ p'.mStatus = p.mStatus := by
  subst hq
  obtain ⟨b', last, hdelete, hholds, -, hsize, hmax⟩ := h.holds.deleteFirstSegment rfl
  have hsize' : b'.mSegmentSize.toNat = p.size := congrArg UInt32.toNat hsize
  have hmax' : b'.mMaxSize.toNat = b'.mSegmentSize.toNat * n := by rw [hmax, hsize, h.max]
  have hfew : rest.length ≤ n := Nat.le_of_succ_le h.few
  have hpos' : 0 < b'.mSegmentSize.toNat := hsize'.symm ▸ h.pos
  have hwrite' : wo ≤ b'.mSegmentSize.toNat := hsize'.symm ▸ h.write_le
  have hsegment : p.mWriteSegment - 1 = rest.length - 1 := by
    rw [h.writeSegment, List.length_cons]
    omega
  unfold nsPipe.discardFirst
  rw [hdelete, hsegment]
  dsimp only [Option.bind_eq_bind, Option.bind_some]
  cases rest with
  | nil =>
    exact ⟨_, rfl, ⟨⟨hholds, hpos', hmax', hfew, rfl, rfl, rfl, rfl, rfl, Nat.zero_le _, hwrite'⟩,
      fun hne => absurd rfl hne⟩, hsize', rfl, rfl⟩
  | cons next rest =>
    have hhead : b'.GetSegment 0 = some (some next) := hholds.getSegment 0 rfl
    have hnot : ¬((((next :: rest).length : ℕ) : ℤ) - 1 = -1) := by
      rw [List.length_cons]
      omega
    have hlast : (first :: next :: rest).getLast? = (next :: rest).getLast? :=
      List.getLast?_cons_cons
    rw [if_neg hnot, hhead]
    dsimp only [Option.bind_some]
    refine ⟨_, rfl, ⟨⟨hholds, hpos', hmax', hfew, rfl, rfl, ?_, ?_, ?_, Nat.zero_le _, hwrite'⟩, ?_⟩,
      hsize', rfl, rfl⟩
    · change (if _ then p.mWriteCursor else _) = some ⟨next, limitOf b'.mSegmentSize.toNat wo _⟩
      cases rest with
      | nil =>
        rw [if_pos (by simp), h.writeCursor, hlast]
        rfl
      | cons third rest =>
        rw [if_neg (by rw [List.length_cons, List.length_cons]; omega)]
        rfl
    · exact h.writeCursor.trans (by rw [hlast])
    · refine h.writeLimit.trans ?_
      rw [hlast]
      exact congrArg (fun k => Option.map (Ptr.mk · k) _) hsize'.symm
    · intro _ hzero
      cases rest with
      | nil =>
        have hwo : 0 = wo := hzero
        exact ⟨rfl, hwo ▸ hpos'⟩
      | cons third rest =>
        have hfull : 0 = b'.mSegmentSize.toNat := hzero
        omega

end Placed

/-- The array of segments can be doubled, if it has to be for a new segment. -/
def Growable (m : Machine) (p : nsPipe) (alloc : Allocation) : Prop :=
  alloc.grow = true → m.same p.mWriteCursor p.mWriteLimit = true → ¬p.mBuffer.mMaxSize ≤ p.mBuffer.GetSize →
    p.mBuffer.IsFull = true →
      p.mBuffer.mSegmentArrayCount.toNat * 2 * m.platform.pointerSize.toNat < 2 ^ 32

/-- What becomes of the segments when the writer asks for one. -/
inductive Extended (new : Segment) (size : ℕ) :
    List Segment → ℕ → ℕ → List Segment → ℕ → ℕ → Prop
  | same {q : List Segment} {ro wo : ℕ} : Extended new size q ro wo q ro wo
  | first {ro wo : ℕ} : Extended new size [] ro wo [new] 0 0
  | next {q : List Segment} {ro wo : ℕ} (hq : q ≠ []) (hfull : wo = size) :
    Extended new size q ro wo (q ++ [new]) ro 0

namespace Laid

variable (h : p.Laid n q ro wo)
include h

theorem initReadCursor (hq : q ≠ []) : p.initReadCursor = p := by
  have hcursor := h.readCursor
  cases q with
  | nil => exact absurd rfl hq
  | cons first rest =>
    unfold nsPipe.initReadCursor
    rw [if_neg (by rw [hcursor]; exact nofun)]

/-- The reader advances. The first segment is freed if it is read to its end and the writer is
done with it. -/
theorem advanceReadCursor {first : Segment} {rest : List Segment} {k : ℕ} (hq : q = first :: rest)
    (hk : ro + k ≤ limitOf p.size wo q) :
    ∃ seg p' q' ro', p.AdvanceReadCursor m k = some (seg, p') ∧ p'.Laid n q' ro' wo ∧
      p'.size = p.size ∧ p'.mAvailable = p.mAvailable - UInt32.ofNat k ∧ p'.mStatus = p.mStatus ∧
      ((seg = none ∧ q' = q ∧ ro' = ro + k) ∨ (seg = some first ∧ q' = rest ∧ ro' = 0 ∧
        ro + k = limitOf p.size wo q ∧ (rest = [] → wo = p.size))) := by
  subst hq
  have hplaced : Placed { p with
      mReadCursor := some ⟨first, ro + k⟩, mAvailable := p.mAvailable - UInt32.ofNat k } n
      (first :: rest) (ro + k) wo :=
    ⟨h.holds, h.pos, h.max, h.few, h.writeSegment, rfl, h.readLimit, h.writeCursor, h.writeLimit,
      hk, h.write_le⟩
  have hcursor : p.mReadCursor = some ⟨first, ro⟩ := h.readCursor
  unfold AdvanceReadCursor
  rw [hcursor]
  dsimp only [Option.bind_eq_bind, Option.bind_some]
  have hsame : m.same (some ⟨first, ro + k⟩) p.mReadLimit =
      decide (first :: rest = [] ∨ ro + k = limitOf p.size wo (first :: rest)) := hplaced.same_read
  rw [hsame]
  by_cases hend : ro + k = limitOf p.size wo (first :: rest)
  · rw [if_pos (decide_eq_true (.inr hend))]
    by_cases hdone : rest = [] ∧ wo < p.size
    · obtain ⟨rfl, hlt⟩ := hdone
      have hsegment : p.mWriteSegment = 0 := h.writeSegment
      have habove : m.above p.mWriteLimit p.mWriteCursor = true := by
        rw [h.writeLimit, h.writeCursor]
        exact Machine.above_seg.trans (decide_eq_true hlt)
      rw [if_pos (by rw [hsegment, habove]; rfl)]
      exact ⟨none, _, [first], ro + k, rfl, ⟨hplaced, fun _ _ => ⟨rfl, hlt⟩⟩, rfl, rfl, rfl,
        .inl ⟨rfl, rfl, rfl⟩⟩
    · have hnot : (decide (p.mWriteSegment = 0) && m.above p.mWriteLimit p.mWriteCursor) = false := by
        rw [Bool.and_eq_false_iff]
        by_cases hrest : rest = []
        · right
          subst hrest
          rw [h.writeLimit, h.writeCursor]
          exact Machine.above_seg.trans (decide_eq_false fun hlt => hdone ⟨rfl, hlt⟩)
        · left
          have hlen := List.length_pos_iff.mpr hrest
          rw [h.writeSegment, List.length_cons]
          exact decide_eq_false (by omega)
      obtain ⟨p', hdiscard, hlaid, hsize, havail, hstatus⟩ := hplaced.discardFirst rfl
      rw [if_neg (by rw [hnot]; exact Bool.false_ne_true), hdiscard]
      refine ⟨_, p', rest, 0, rfl, hlaid, hsize, havail, hstatus,
        .inr ⟨rfl, rfl, rfl, hend, fun hrest => ?_⟩⟩
      exact Nat.le_antisymm h.write_le (Nat.le_of_not_lt fun hlt => hdone ⟨hrest, hlt⟩)
  · have hnot : ¬(first :: rest = [] ∨ ro + k = limitOf p.size wo (first :: rest)) := by
      rintro (hnil | heq)
      · cases hnil
      · exact hend heq
    rw [if_neg (mt of_decide_eq_true hnot)]
    exact ⟨none, _, first :: rest, ro + k, rfl, ⟨hplaced, fun _ heq => absurd heq hend⟩, rfl, rfl,
      rfl, .inl ⟨rfl, rfl, rfl⟩⟩

/-- The writer advances. -/
theorem advanceWriteCursor {last : Segment} {k : ℕ} (hlast : q.getLast? = some last) (hk : 0 < k)
    (hfit : wo + k ≤ p.size) :
    ∃ p', p.AdvanceWriteCursor m k = some p' ∧ p'.Laid n q ro (wo + k) ∧ p'.size = p.size ∧
      p'.mAvailable = p.mAvailable + UInt32.ofNat k ∧ p'.mStatus = p.mStatus := by
  have hcursor : p.mWriteCursor = some ⟨last, wo⟩ := by rw [h.writeCursor, hlast]; rfl
  unfold AdvanceWriteCursor
  rw [hcursor]
  dsimp only [Option.bind_eq_bind, Option.bind_some]
  refine ⟨_, rfl, ⟨⟨h.holds, h.pos, h.max, h.few, h.writeSegment, h.readCursor, ?_, ?_,
    h.writeLimit, ?_, hfit⟩, ?_⟩, rfl, rfl, rfl⟩
  · change (if _ then _ else p.mReadLimit) = _
    rw [h.readLimit, h.writeSegment]
    match q, hlast with
    | [seg], hlast =>
      have hseg : seg = last := by simpa using hlast
      subst hseg
      change (if (decide ((1 : ℤ) - 1 = 0) && m.same (some ⟨seg, wo⟩) (some ⟨seg, wo⟩)) = true
        then _ else _) = some (Ptr.mk seg (wo + k))
      rw [Machine.same_seg, if_pos (by simp)]
    | seg :: next :: rest, _ =>
      have hnot : ¬(((seg :: next :: rest).length : ℤ) - 1 = 0) := by
        rw [List.length_cons, List.length_cons]
        omega
      rw [decide_eq_false hnot, Bool.false_and, if_neg Bool.false_ne_true]
      rfl
  · change some _ = q.getLast?.map _
    rw [hlast]
    rfl
  · have hle := h.read_le
    match q, hlast with
    | [seg], _ => exact Nat.le_trans hle (Nat.le_add_right wo k)
    | seg :: next :: rest, _ => exact hle
  · intro hne heq
    match q, hlast with
    | [seg], _ =>
      have hle : ro ≤ wo := h.read_le
      have heq' : ro = wo + k := heq
      omega
    | seg :: next :: rest, _ => exact absurd (h.unread hne heq).1 (by simp)

theorem setBuffer {b' : nsSegmentedBuffer} (hholds : b'.Holds q)
    (hsize : b'.mSegmentSize = p.mBuffer.mSegmentSize) (hmax : b'.mMaxSize = p.mBuffer.mMaxSize) :
    Laid { p with mBuffer := b' } n q ro wo := by
  have hsize' : size { p with mBuffer := b' } = p.size := congrArg UInt32.toNat hsize
  refine ⟨⟨hholds, ?_, ?_, h.few, h.writeSegment, h.readCursor, ?_, h.writeCursor, ?_, ?_, ?_⟩, ?_⟩
  · rw [hsize']
    exact h.pos
  · change b'.mMaxSize.toNat = b'.mSegmentSize.toNat * n
    rw [hmax, hsize, h.max]
  · rw [hsize']
    exact h.readLimit
  · rw [hsize']
    exact h.writeLimit
  · rw [hsize']
    exact h.read_le
  · rw [hsize']
    exact h.write_le
  · rw [hsize']
    exact h.unread

/-- There is room for the writer, in the last segment or in a new one, or there is none. -/
theorem newWriteSegment {alloc : Allocation} (new : Segment) (hgrow : p.Growable m alloc) :
    ∃ r p', p.newWriteSegment m alloc new = some (r, p') ∧ p'.size = p.size ∧
      p'.mAvailable = p.mAvailable ∧ p'.mStatus = p.mStatus ∧
      ((r = false ∧ p'.Laid n q ro wo ∧ (alloc.granted = true → n ≤ q.length)) ∨ (r = true ∧ ∃ q' ro' wo',
        p'.initReadCursor.Laid n q' ro' wo' ∧ q' ≠ [] ∧ wo' < p.size ∧
          Extended new p.size q ro wo q' ro' wo')) := by
  unfold nsPipe.newWriteSegment
  rw [h.same_write]
  by_cases hfull : q = [] ∨ wo = p.size
  · have hsame : m.same p.mWriteCursor p.mWriteLimit = true := by
      rw [h.same_write]
      exact decide_eq_true hfull
    have hsmall := h.size_lt
    obtain ⟨r, b', happend, hcases, hsize, hmax⟩ := h.holds.appendNewSegment alloc new
      m.platform.pointerSize_le hsmall fun hgranted => hgrow hgranted hsame
    have hsize' : b'.mSegmentSize.toNat = p.size := congrArg UInt32.toNat hsize
    have hmax' : b'.mMaxSize.toNat = b'.mSegmentSize.toNat * n := by rw [hmax, hsize, h.max]
    have hpos' : 0 < b'.mSegmentSize.toNat := hsize'.symm ▸ h.pos
    rw [if_pos (decide_eq_true hfull), happend]
    dsimp only [Option.bind_eq_bind, Option.bind_some]
    rcases hcases with ⟨rfl, hholds, hgranted⟩ | ⟨rfl, hholds, hroom⟩
    · refine ⟨false, _, rfl, hsize', rfl, rfl, .inl ⟨rfl, h.setBuffer hholds hsize hmax, ?_⟩⟩
      intro hall
      have hle := UInt32.le_iff_toNat_le.mp (hgranted hall)
      rw [h.holds.getSize hsmall, h.max, Nat.mul_comm] at hle
      exact Nat.le_of_mul_le_mul_right hle h.pos
    · have hroom : q.length + 1 ≤ n := by
        rw [h.max, Nat.mul_comm] at hroom
        exact Nat.lt_of_mul_lt_mul_left hroom
      refine ⟨true, _, rfl, hsize', rfl, rfl, .inr ⟨rfl, ?_⟩⟩
      by_cases hq : q = []
      · subst hq
        refine ⟨[new], 0, 0, ?_, List.cons_ne_nil _ _, h.pos, .first⟩
        have hcursor : p.mReadCursor = none := h.readCursor
        have hsegment : p.mWriteSegment = -1 := h.writeSegment
        unfold nsPipe.initReadCursor
        rw [if_pos hcursor]
        refine ⟨⟨hholds, hpos', hmax', hroom, ?_, rfl, rfl, rfl, rfl, Nat.le_refl 0,
          Nat.zero_le _⟩, fun _ _ => ⟨rfl, hpos'⟩⟩
        change p.mWriteSegment + 1 = 0
        rw [hsegment]
        rfl
      · have hwo : wo = p.size := hfull.resolve_left hq
        have hlen := List.length_pos_iff.mpr hq
        have hlim : limitOf p.size 0 (q ++ [new]) = p.size := limitOf_append hq
        have hlim' : limitOf b'.mSegmentSize.toNat 0 (q ++ [new]) = b'.mSegmentSize.toNat :=
          limitOf_append hq
        have hread : limitOf p.size wo q = p.size := by
          rw [hwo]
          exact limitOf_self q
        have hhead : (q ++ [new]).head? = q.head? := by
          rw [List.head?_append, Option.or_of_isSome (by simpa using hq)]
        have hlast : (q ++ [new]).getLast? = some new := List.getLast?_concat
        refine ⟨q ++ [new], ro, 0, ?_, by simp, h.pos, .next hq hwo⟩
        have hcursor : p.mReadCursor ≠ none := by
          rw [h.readCursor]
          simpa using hq
        unfold nsPipe.initReadCursor
        rw [if_neg hcursor]
        refine ⟨⟨hholds, hpos', hmax', by simpa using hroom, ?_, ?_, ?_, ?_, ?_, ?_,
          Nat.zero_le _⟩, ?_⟩
        · change p.mWriteSegment + 1 = _
          rw [h.writeSegment, List.length_append, List.length_singleton]
          omega
        · rw [hhead]
          exact h.readCursor
        · change p.mReadLimit = _
          rw [h.readLimit, hhead, hread]
          exact congrArg (fun k => Option.map (Ptr.mk · k) _) (hsize'.symm.trans hlim'.symm)
        · rw [hlast]
          rfl
        · rw [hlast]
          rfl
        · change ro ≤ limitOf b'.mSegmentSize.toNat 0 (q ++ [new])
          rw [hlim', hsize', ← hread]
          exact h.read_le
        · intro _ heq
          have hend : ro = limitOf p.size wo q := by
            rw [hread, ← hsize', ← hlim']
            exact heq
          exact absurd (h.unread hq hend).2 (by omega)
  · rw [if_neg (mt of_decide_eq_true hfull)]
    have hq : q ≠ [] := fun hq => hfull (.inl hq)
    have hlt : wo < p.size := Nat.lt_of_le_of_ne h.write_le fun hwo => hfull (.inr hwo)
    refine ⟨true, p, rfl, rfl, rfl, rfl, .inr ⟨rfl, q, ro, wo, ?_, hq, hlt, .same⟩⟩
    rw [h.initReadCursor hq]
    exact h

/-- The cursors go back to the beginning of the only segment, where nothing is in it. -/
theorem rollBack (hq : q ≠ []) :
    ∃ p' ro' wo' last, p.rollBack m = some p' ∧ p'.Laid n q ro' wo' ∧ p'.size = p.size ∧
      p'.mAvailable = p.mAvailable ∧ p'.mStatus = p.mStatus ∧ q.getLast? = some last ∧
      ((ro' = ro ∧ wo' = wo) ∨ (q = [last] ∧ ro = wo ∧ ro' = 0 ∧ wo' = 0)) := by
  unfold nsPipe.rollBack
  by_cases hback : (m.same p.mReadCursor p.mWriteCursor && decide (p.mWriteSegment = 0)) = true
  · rw [if_pos hback]
    rw [Bool.and_eq_true, decide_eq_true_iff, h.writeSegment] at hback
    obtain ⟨seg, rfl⟩ : ∃ seg, q = [seg] := List.length_eq_one_iff.mp (by omega)
    have heq : ro = wo := by
      have hsame := hback.1
      rw [h.readCursor, h.writeCursor] at hsame
      exact of_decide_eq_true (Machine.same_seg.symm.trans hsame)
    rw [h.holds.getSegment 0 rfl]
    dsimp only [Option.bind_eq_bind, Option.bind_some]
    exact ⟨_, 0, 0, seg, rfl, ⟨⟨h.holds, h.pos, h.max, h.few, h.writeSegment, rfl, rfl, rfl,
      h.writeLimit, Nat.le_refl 0, Nat.zero_le _⟩, fun _ _ => ⟨rfl, h.pos⟩⟩, rfl, rfl, rfl, rfl,
      .inr ⟨rfl, heq, rfl, rfl⟩⟩
  · rw [if_neg hback]
    exact ⟨p, ro, wo, q.getLast hq, rfl, h, rfl, rfl, rfl, List.getLast?_eq_some_getLast hq,
      .inl ⟨rfl, rfl⟩⟩

/-- The writer asks for a segment. Where nothing is in the only segment, both cursors go back to
its beginning. -/
theorem getWriteSegment {alloc : Allocation} (new : Segment)
    (hgrow : p.mStatus.failed = false → p.Growable m alloc) :
    ∃ r p', p.GetWriteSegment m alloc new = some (r, p') ∧ p'.size = p.size ∧
      p'.mAvailable = p.mAvailable ∧ p'.mStatus = p.mStatus ∧
      ((∃ e, r = .error e ∧ p'.Laid n q ro wo ∧
          (p.mStatus.failed = false → alloc.granted = true → n ≤ q.length)) ∨
        ∃ q' ro₁ wo₁ ro' wo' last, r = .ok (⟨last, wo'⟩, p.size - wo') ∧ p'.Laid n q' ro' wo' ∧
          q'.getLast? = some last ∧ wo' < p.size ∧ Extended new p.size q ro wo q' ro₁ wo₁ ∧
          ((ro' = ro₁ ∧ wo' = wo₁) ∨ (q' = [last] ∧ ro₁ = wo₁ ∧ ro' = 0 ∧ wo' = 0))) := by
  unfold GetWriteSegment
  cases hstatus : p.mStatus.failed with
  | true => exact ⟨_, p, rfl, rfl, rfl, rfl, .inl ⟨_, rfl, h, nofun⟩⟩
  | false =>
    obtain ⟨r, p₁, hnew, hsize₁, havail₁, hstatus₁, hcases⟩ :=
      h.newWriteSegment new (hgrow hstatus)
    rw [if_neg Bool.false_ne_true, hnew]
    rcases hcases with ⟨rfl, hlaid, hgranted⟩ | ⟨rfl, q', ro₁, wo₁, hlaid, hq', hlt, hextended⟩
    · exact ⟨_, p₁, rfl, hsize₁, havail₁, hstatus₁, .inl ⟨_, rfl, hlaid, fun _ => hgranted⟩⟩
    · have hsize₂ : p₁.initReadCursor.size = p.size := by
        rw [← hsize₁]
        unfold nsPipe.initReadCursor
        split_ifs <;> rfl
      obtain ⟨p₂, ro', wo', last, hback, hlaid', hsize', havail', hstatus', hlast, hplace⟩ :=
        hlaid.rollBack (m := m) hq'
      have havail₂ : p₁.initReadCursor.mAvailable = p.mAvailable := by
        rw [← havail₁]
        unfold nsPipe.initReadCursor
        split_ifs <;> rfl
      have hstatus₂ : p₁.initReadCursor.mStatus = p.mStatus := by
        rw [← hstatus₁]
        unfold nsPipe.initReadCursor
        split_ifs <;> rfl
      have hcursor : p₂.mWriteCursor = some ⟨last, wo'⟩ := by rw [hlaid'.writeCursor, hlast]; rfl
      have hlimit : p₂.mWriteLimit = some ⟨last, p₂.size⟩ := by rw [hlaid'.writeLimit, hlast]; rfl
      have hsize : p₂.size = p.size := hsize'.trans hsize₂
      have hlt' : wo' < p.size := by
        rcases hplace with ⟨-, rfl⟩ | ⟨-, -, -, rfl⟩
        · exact hlt
        · exact Nat.zero_lt_of_lt hlt
      dsimp only [Option.bind_eq_bind]
      rw [hback]
      dsimp only [Option.bind_some]
      rw [hcursor, hlimit]
      refine ⟨_, p₂, rfl, hsize, havail'.trans havail₂, hstatus'.trans hstatus₂, .inr
        ⟨q', ro₁, wo₁, ro', wo', last, ?_, hlaid', hlast, hlt', hextended, hplace⟩⟩
      dsimp only [Machine.addr]
      rw [hsize, Nat.add_sub_add_left]

/-- There is no result where the array of segments cannot be doubled. -/
theorem getWriteSegment_eq_none {alloc : Allocation} {new : Segment}
    (hstatus : p.mStatus.failed = false) (hgrow : ¬p.Growable m alloc) :
    p.GetWriteSegment m alloc new = none := by
  unfold Growable at hgrow
  push Not at hgrow
  obtain ⟨hgranted, hsame, hlimit, hfull, hbytes⟩ := hgrow
  obtain ⟨j, hpointer⟩ := m.platform.pointerSize_pow
  unfold GetWriteSegment nsPipe.newWriteSegment
  rw [hstatus, if_neg Bool.false_ne_true, if_pos hsame,
    h.holds.appendNewSegment_eq_none new hpointer hgranted (by simpa using hlimit) hfull hbytes]
  rfl

end Laid

/-! ### The size of the array -/

/-- The size in bytes of the array of segments. -/
def ArrayFits (m : Machine) (p : nsPipe) : Prop :=
  p.mBuffer.mSegmentArrayCount.toNat * m.platform.pointerSize.toNat < 2 ^ 32

theorem arrayFits_newWriteSegment {p' : nsPipe} {alloc : Allocation} {new : Segment} {r : Bool}
    (hnew : p.newWriteSegment m alloc new = some (r, p')) (hgrow : p.Growable m alloc)
    (h : p.ArrayFits m) : p'.ArrayFits m := by
  unfold nsPipe.newWriteSegment at hnew
  by_cases hsame : m.same p.mWriteCursor p.mWriteLimit = true
  · rw [if_pos hsame] at hnew
    obtain ⟨⟨seg, b'⟩, happend, hnew⟩ := Option.bind_eq_some_iff.mp hnew
    have hfits : b'.mSegmentArrayCount.toNat * m.platform.pointerSize.toNat < 2 ^ 32 := by
      rcases nsSegmentedBuffer.appendNewSegment_count happend with
        heq | ⟨hgranted, hlimit, hfull, heq⟩
      · rw [heq]
        exact h
      · have hbytes := hgrow hgranted hsame hlimit hfull
        have hle := Nat.mul_le_mul_right m.platform.pointerSize.toNat
          (Nat.mod_le (p.mBuffer.mSegmentArrayCount.toNat * 2) (2 ^ 32))
        rw [heq, UInt32.toNat_mul]
        exact Nat.lt_of_le_of_lt hle hbytes
    cases seg <;> cases hnew <;> exact hfits
  · rw [if_neg hsame] at hnew
    cases hnew
    exact h

theorem initReadCursor_mBuffer : p.initReadCursor.mBuffer = p.mBuffer := by
  unfold nsPipe.initReadCursor
  split_ifs <;> rfl

theorem rollBack_mBuffer {p' : nsPipe} (h : p.rollBack m = some p') : p'.mBuffer = p.mBuffer := by
  unfold nsPipe.rollBack at h
  split at h
  · simp only [Option.bind_eq_bind, Option.bind_eq_some_iff, Option.some.injEq] at h
    obtain ⟨-, -, -, -, rfl⟩ := h
    rfl
  · cases h
    rfl

theorem arrayFits_getWriteSegment {p' : nsPipe} {alloc : Allocation} {new : Segment} {r : Got}
    (hget : p.GetWriteSegment m alloc new = some (r, p'))
    (hgrow : p.mStatus.failed = false → p.Growable m alloc) (h : p.ArrayFits m) :
    p'.ArrayFits m := by
  unfold GetWriteSegment at hget
  cases hstatus : p.mStatus.failed with
  | true =>
    rw [if_pos hstatus] at hget
    cases hget
    exact h
  | false =>
    rw [if_neg (by rw [hstatus]; exact Bool.false_ne_true)] at hget
    cases hnew : p.newWriteSegment m alloc new with
    | none =>
      rw [hnew] at hget
      cases hget
    | some res =>
      obtain ⟨granted, p₁⟩ := res
      have hfits := arrayFits_newWriteSegment hnew (hgrow hstatus) h
      rw [hnew] at hget
      cases granted with
      | false =>
        cases hget
        exact hfits
      | true =>
        simp only [Option.bind_eq_bind, Option.bind_eq_some_iff, Option.some.injEq,
          Prod.mk.injEq] at hget
        obtain ⟨p₂, hback, -, -, -, -, -, rfl⟩ := hget
        unfold ArrayFits
        rw [rollBack_mBuffer hback, initReadCursor_mBuffer]
        exact hfits

theorem advanceWriteCursor_mBuffer {p' : nsPipe} {k : ℕ}
    (h : p.AdvanceWriteCursor m k = some p') : p'.mBuffer = p.mBuffer := by
  unfold AdvanceWriteCursor at h
  simp only [Option.bind_eq_bind, Option.bind_eq_some_iff, Option.some.injEq] at h
  obtain ⟨-, -, rfl⟩ := h
  rfl

end nsPipe

end Kompozer.Io

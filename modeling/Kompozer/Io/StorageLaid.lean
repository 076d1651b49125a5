import Kompozer.Io.StorageStream

/-! What is in a storage stream: the bytes that were written, laid out over its segments. -/

namespace Kompozer.Io.Storage

open NsResult

/-- As many segments as there may be in an array whose size in bytes fits. -/
def Allocator.maxSegments (A : Allocator) : ℕ :=
  2 ^ 32 / (2 * A.platform.pointerSize.toNat) - 1

namespace nsStorageStream

/-- The size of the segments. -/
def size (s : nsStorageStream) : ℕ := s.mSegmentSize.toNat

/-- As many segments as reach the maximum size. -/
def maxCount (s : nsStorageStream) : ℕ :=
  (s.mSegmentedBuffer.mMaxSize.toNat + s.size - 1) / s.size

/-- The bytes `d` are in the segments `q`. Every segment has at least room for what is in it. -/
structure Laid (s : nsStorageStream) (h : Heap) (q : List Segment) (d : List UInt8) : Prop where
  holds : s.mSegmentedBuffer.Holds q
  log_lt : s.mSegmentSizeLog2.toNat < 32
  log : s.size = 2 ^ s.mSegmentSizeLog2.toNat
  segmentSize : s.mSegmentedBuffer.mSegmentSize = s.mSegmentSize
  lastNum : s.mLastSegmentNum = q.length - 1
  few : q.length ≤ s.maxCount
  nodup : q.Nodup
  old : ∀ seg ∈ q, seg < h.newSegment
  kept : ∀ seg ∈ q, h.freed seg = false
  freed_old : ∀ seg, h.freed seg = true → seg < h.newSegment
  room : d.length ≤ q.length * s.size
  capacity : ∀ i seg, q[i]? = some seg → min s.size (d.length - i * s.size) ≤ h.capacity seg
  bytes : ∀ i seg, q[i]? = some seg → ∀ j < s.size, ∀ b,
    d[i * s.size + j]? = some b → h.cell seg j = b

/-- The last segment is not empty, unless it is the only one. -/
def Used (s : nsStorageStream) (q : List Segment) (d : List UInt8) : Prop :=
  ∀ n, q.length = n + 1 → n = 0 ∨ n * s.size < d.length

/-- The write cursor is behind the bytes `d`. -/
def Writing (s : nsStorageStream) (h : Heap) (q : List Segment) (d : List UInt8) : Prop :=
  (∃ rest last, q = rest ++ [last] ∧ rest.length * s.size ≤ d.length ∧
    s.mWriteCursor = ⟨some last, d.length - rest.length * s.size⟩ ∧
    s.mSegmentEnd = ⟨some last, s.size⟩ ∧ s.size ≤ h.capacity last) ∨
  (s.mWriteCursor = {} ∧ s.mSegmentEnd = {} ∧ d.length = q.length * s.size)

/-- The bytes that a stream can have, if it is asked for `n`. -/
def reach (s : nsStorageStream) (n : ℕ) : ℕ := min n (s.maxCount * s.size)

/-- A stream of `n` bytes does not go beyond what the counters and the array can hold. -/
def Fits (A : Allocator) (s : nsStorageStream) (n : ℕ) : Prop :=
  s.reach n < 2 ^ 32 ∧ s.reach n ≤ A.maxSegments * s.size

instance (A : Allocator) (s : nsStorageStream) (n : ℕ) : Decidable (Fits A s n) :=
  inferInstanceAs (Decidable (_ ∧ _))

/-- Everything that stays while bytes are written. -/
structure Alike (s s' : nsStorageStream) : Prop where
  segmentSize : s'.mSegmentSize = s.mSegmentSize
  log : s'.mSegmentSizeLog2 = s.mSegmentSizeLog2
  maxSize : s'.mSegmentedBuffer.mMaxSize = s.mSegmentedBuffer.mMaxSize
  inProgress : s'.mWriteInProgress = s.mWriteInProgress
  length : s'.mLogicalLength = s.mLogicalLength

variable {A : Allocator} {s s' : nsStorageStream} {h : Heap} {q : List Segment} {d : List UInt8}

namespace Laid

variable (hl : s.Laid h q d)
include hl

theorem size_pos : 0 < s.size := by
  rw [hl.log]
  exact Nat.two_pow_pos _

theorem toNat_segNum (a : UInt32) : (s.SegNum a).toNat = a.toNat / s.size := by
  unfold SegNum
  rw [UInt32.toNat_shiftRight, Nat.mod_eq_of_lt hl.log_lt, Nat.shiftRight_eq_div_pow, hl.log]

theorem toNat_segOffset (a : UInt32) : (s.SegOffset a).toNat = a.toNat % s.size :=
  nsSegmentedBuffer.toNat_and_sub_one hl.log

/-- A segment that is there. -/
theorem segment {i : UInt32} {seg : Segment} (hget : q[i.toNat]? = some seg) :
    s.segment i = some seg := by
  unfold nsStorageStream.segment
  rw [if_pos, hl.holds.getSegment i hget]
  · rfl
  · rw [UInt32.lt_iff_toNat_lt, hl.holds.segmentCount]
    exact (List.getElem?_eq_some_iff.mp hget).1

theorem exists_segment {i : ℕ} (hlt : i * s.size < d.length) : ∃ seg, q[i]? = some seg := by
  have hroom := hl.room
  refine ⟨_, List.getElem?_eq_getElem ?_⟩
  exact Nat.lt_of_mul_lt_mul_right (Nat.lt_of_lt_of_le hlt hroom)

/-- The bytes of a segment. -/
theorem bytesAt {i : ℕ} {seg : Segment} {off n : ℕ} (hget : q[i]? = some seg)
    (hsize : off + n ≤ s.size) (hd : i * s.size + off + n ≤ d.length) :
    bytesAt h.cell seg off n = (d.drop (i * s.size + off)).take n := by
  apply List.ext_getElem?
  intro j
  by_cases hj : j < n
  · obtain ⟨b, hb⟩ : ∃ b, d[i * s.size + (off + j)]? = some b :=
      ⟨_, List.getElem?_eq_getElem (by omega)⟩
    rw [List.getElem?_take_of_lt hj, List.getElem?_drop, Nat.add_assoc, hb]
    have hcell := hl.bytes i seg hget (off + j) (by omega) b hb
    rw [getElem?_bytesAt hj, hcell]
  · rw [List.getElem?_eq_none (by simpa using hj), List.getElem?_eq_none (by simp; omega)]

theorem read {i : ℕ} {seg : Segment} {off n : ℕ} (hget : q[i]? = some seg)
    (hsize : off + n ≤ s.size) (hd : i * s.size + off + n ≤ d.length) :
    h.read ⟨some seg, off⟩ n = some ((d.drop (i * s.size + off)).take n) := by
  unfold Heap.read
  by_cases hn : n = 0
  · rw [if_pos hn, hn, List.take_zero]
  · have hcap := hl.capacity i seg hget
    have hhas : h.Has seg off n := ⟨hl.kept seg (List.mem_of_getElem? hget), by omega⟩
    rw [if_neg hn, Option.bind_some, if_pos hhas, hl.bytesAt hget hsize hd]

end Laid

namespace Alike

theorem refl (s : nsStorageStream) : Alike s s := ⟨rfl, rfl, rfl, rfl, rfl⟩

variable (ha : Alike s s')
include ha

theorem trans {s'' : nsStorageStream} (hb : Alike s' s'') : Alike s s'' :=
  ⟨hb.segmentSize.trans ha.segmentSize, hb.log.trans ha.log, hb.maxSize.trans ha.maxSize,
    hb.inProgress.trans ha.inProgress, hb.length.trans ha.length⟩

theorem size : s'.size = s.size := congrArg UInt32.toNat ha.segmentSize

theorem maxCount : s'.maxCount = s.maxCount := by
  unfold nsStorageStream.maxCount
  rw [ha.size, ha.maxSize]

theorem fits {n : ℕ} (h : s.Fits A n) : s'.Fits A n := by
  unfold Fits reach
  rw [ha.size, ha.maxCount]
  exact h

end Alike

/-- Cursors, the length and whether it is open do not matter for what is in the segments. -/
theorem Laid.congr (hl : s.Laid h q d) (hbuffer : s'.mSegmentedBuffer = s.mSegmentedBuffer)
    (hsize : s'.mSegmentSize = s.mSegmentSize) (hlog : s'.mSegmentSizeLog2 = s.mSegmentSizeLog2)
    (hlast : s'.mLastSegmentNum = s.mLastSegmentNum) : s'.Laid h q d := by
  cases s'
  dsimp only at hbuffer hsize hlog hlast
  subst hbuffer hsize hlog hlast
  exact ⟨hl.holds, hl.log_lt, hl.log, hl.segmentSize, hl.lastNum, hl.few, hl.nodup, hl.old, hl.kept,
    hl.freed_old, hl.room, hl.capacity, hl.bytes⟩

/-! ### Writing -/

theorem Writing.room_eq (hw : s.Writing h q d) :
    s.mWriteCursor.room s.mSegmentEnd = q.length * s.size - d.length := by
  rcases hw with ⟨rest, last, rfl, hle, hcursor, hend, -⟩ | ⟨hcursor, hend, hfull⟩
  · rw [hcursor, hend, List.length_append, List.length_singleton, Nat.add_mul, Nat.one_mul]
    dsimp only [Place.room]
    omega
  · rw [hcursor, hend, hfull, Nat.sub_self]
    rfl

/-- More bytes are in a last segment that is not full. -/
theorem Laid.length_le_reach (hl : s.Laid h q d) {n : ℕ} (hn : d.length ≤ n) :
    d.length ≤ s.reach n :=
  Nat.le_min.mpr ⟨hn, Nat.le_trans hl.room (Nat.mul_le_mul_right _ hl.few)⟩

theorem Laid.lt_maxCount (hl : s.Laid h q d)
    (hlt : q.length * s.size < s.mSegmentedBuffer.mMaxSize.toNat) : q.length + 1 ≤ s.maxCount := by
  have hpos := hl.size_pos
  unfold nsStorageStream.maxCount
  rw [Nat.le_div_iff_mul_le hpos, Nat.add_mul, Nat.one_mul]
  omega

/-- The array of segments can be doubled when it has to be. -/
theorem Laid.grown_lt (hl : s.Laid h q d) {n : ℕ} (hfits : s.Fits A n)
    (hfull : d.length = q.length * s.size) (hmore : d.length < n)
    (hlt : q.length * s.size < s.mSegmentedBuffer.mMaxSize.toNat) :
    (q.length + 1) * 2 * A.platform.pointerSize.toNat < 2 ^ 32 := by
  have hpos := hl.size_pos
  have hcount := Nat.mul_le_mul_right s.size (hl.lt_maxCount hlt)
  rw [Nat.add_mul, Nat.one_mul] at hcount
  have hreach : q.length * s.size < s.reach n := by
    unfold reach
    omega
  have hlt' : q.length < A.maxSegments :=
    Nat.lt_of_mul_lt_mul_right (Nat.lt_of_lt_of_le hreach hfits.2)
  have hpointer := A.platform.pointerSize_le
  unfold Allocator.maxSegments at hlt'
  have hdiv : q.length + 1 < 2 ^ 32 / (2 * A.platform.pointerSize.toNat) := by omega
  rw [Nat.mul_assoc]
  exact Nat.lt_of_lt_of_le (Nat.mul_lt_mul_of_pos_right hdiv (by omega)) (Nat.div_mul_le_self _ _)

/-- What was in the segments is in them when there is a new one, and behind it. -/
theorem Laid.allocated (hl : s.Laid h q d) {q' : List Segment} {cap : ℕ}
    (hq' : q' = q ∨ q' = q ++ [h.newSegment] ∧ d.length = q.length * s.size)
    (halike : s.Alike s') (hholds : s'.mSegmentedBuffer.Holds q')
    (hsize : s'.mSegmentedBuffer.mSegmentSize = s.mSegmentedBuffer.mSegmentSize)
    (hlast : s'.mLastSegmentNum = q'.length - 1) (hfew : q'.length ≤ s.maxCount) :
    s'.Laid (h.alloc cap) q' d := by
  have hnew : h.newSegment ∉ q := fun hmem => Nat.lt_irrefl _ (hl.old _ hmem)
  have hmem : ∀ seg ∈ q', seg ∈ q ∨ seg = h.newSegment := by
    intro seg hseg
    rcases hq' with rfl | ⟨rfl, -⟩
    · exact .inl hseg
    · exact (List.mem_append.mp hseg).imp_right List.mem_singleton.mp
  have hfresh : h.freed h.newSegment = false := by
    cases hfreed : h.freed h.newSegment with
    | false => rfl
    | true => exact absurd (hl.freed_old _ hfreed) (Nat.lt_irrefl _)
  have hget : ∀ i seg, q'[i]? = some seg → q[i]? = some seg ∨
      seg = h.newSegment ∧ d.length ≤ i * s.size := by
    intro i seg hseg
    rcases hq' with rfl | ⟨rfl, hfull⟩
    · exact .inl hseg
    · rw [List.getElem?_append] at hseg
      split_ifs at hseg with hi
      · exact .inl hseg
      · have heq : seg = h.newSegment := by
          have hmem := List.mem_of_getElem? hseg
          exact List.mem_singleton.mp hmem
        exact .inr ⟨heq, hfull ▸ Nat.mul_le_mul_right _ (Nat.le_of_not_lt hi)⟩
  refine ⟨hholds, ?_, ?_, ?_, hlast, ?_, ?_, ?_, ?_, ?_, ?_, ?_, ?_⟩
  · rw [halike.log]
    exact hl.log_lt
  · rw [halike.size, halike.log]
    exact hl.log
  · rw [hsize, halike.segmentSize]
    exact hl.segmentSize
  · rw [halike.maxCount]
    exact hfew
  · rcases hq' with rfl | ⟨rfl, -⟩
    · exact hl.nodup
    · rw [List.nodup_append]
      refine ⟨hl.nodup, List.pairwise_singleton _ _, ?_⟩
      rintro seg hseg _ hsingle rfl
      exact hnew (List.mem_singleton.mp hsingle ▸ hseg)
  · intro seg hseg
    rcases hmem seg hseg with hseg | rfl
    · exact Nat.lt_succ_of_lt (hl.old seg hseg)
    · exact Nat.lt_succ_self _
  · intro seg hseg
    rcases hmem seg hseg with hseg | rfl
    · exact hl.kept seg hseg
    · exact hfresh
  · exact fun seg hfreed => Nat.lt_succ_of_lt (hl.freed_old seg hfreed)
  · rw [halike.size]
    apply Nat.le_trans hl.room (Nat.mul_le_mul_right _ _)
    rcases hq' with rfl | ⟨rfl, -⟩
    · exact Nat.le_refl _
    · rw [List.length_append]
      exact Nat.le_add_right _ _
  · intro i seg hseg
    rw [halike.size]
    rcases hget i seg hseg with hseg | ⟨-, hle⟩
    · have hne : seg ≠ h.newSegment := fun heq => hnew (heq ▸ List.mem_of_getElem? hseg)
      change _ ≤ Function.update h.capacity h.newSegment cap seg
      rw [Function.update_of_ne hne]
      exact hl.capacity i seg hseg
    · omega
  · intro i seg hseg j hj b hb
    rw [halike.size] at hj hb
    rcases hget i seg hseg with hseg | ⟨-, hle⟩
    · exact hl.bytes i seg hseg j hj b hb
    · have hlt := (List.getElem?_eq_some_iff.mp hb).1
      omega

/-- A new segment, behind segments that are full. -/
theorem Laid.newSegment (hl : s.Laid h q d) (hw : s.Writing h q d) {n : ℕ} (hfits : s.Fits A n)
    (hn : d.length ≤ n) (hmore : q = [] ∨ d.length < n) :
    ∃ granted s' h' q', s.newSegment A h = some (granted, s', h') ∧ Alike s s' ∧
      s'.Laid h' q' d ∧ s'.Writing h' q' d ∧ q'.length ≤ q.length + 1 ∧
      (granted = false → q' = q) ∧ (granted = true → 0 < s'.mWriteCursor.room s'.mSegmentEnd) := by
  unfold nsStorageStream.newSegment
  rw [hw.room_eq]
  have hroom := hl.room
  by_cases hfull : q.length * s.size - d.length = 0
  · rw [if_pos hfull]
    have hlen : d.length = q.length * s.size := by omega
    have hreach := hl.length_le_reach hn
    have hreach' := hfits.1
    have hsmall : q.length * s.mSegmentedBuffer.mSegmentSize.toNat < 2 ^ 32 := by
      rw [hl.segmentSize]
      change q.length * s.size < _
      omega
    have hgrown : ∀ _ : (A.alloc h.newSegment).grow = true,
        ¬s.mSegmentedBuffer.mMaxSize ≤ s.mSegmentedBuffer.GetSize →
        s.mSegmentedBuffer.IsFull = true →
        s.mSegmentedBuffer.mSegmentArrayCount.toNat * 2 * A.platform.pointerSize.toNat < 2 ^ 32 := by
      intro _ hlimit harray
      have hcount := hl.holds.isFull_iff.mp harray
      obtain ⟨-, -, -, hone⟩ := hl.holds.count
      rw [UInt32.le_iff_toNat_le, hl.holds.getSize hsmall, hl.segmentSize] at hlimit
      rw [← hcount]
      refine hl.grown_lt hfits hlen (hmore.resolve_left ?_) (Nat.lt_of_not_le hlimit)
      rintro rfl
      rw [List.length_nil] at hcount
      omega
    obtain ⟨r, b', happend, hcases, hsize, hmax⟩ := hl.holds.appendNewSegment
      (A.alloc h.newSegment) h.newSegment A.platform.pointerSize_le hsmall hgrown
    rw [happend]
    dsimp only [Option.bind_eq_bind, Option.bind_some]
    rcases hcases with ⟨rfl, hholds, -⟩ | ⟨rfl, hholds, hlt⟩
    · have halike : s.Alike { s with mSegmentedBuffer := b', mWriteCursor := {}, mSegmentEnd := {} } :=
        ⟨rfl, rfl, hmax, rfl, rfl⟩
      refine ⟨false, _, _, q, rfl, halike, ?_, .inr ⟨rfl, rfl, hlen⟩, Nat.le_succ _, fun _ => rfl,
        nofun⟩
      exact hl.allocated (.inl rfl) halike hholds hsize hl.lastNum hl.few
    · have halike : s.Alike { s with
          mSegmentedBuffer := b', mLastSegmentNum := s.mLastSegmentNum + 1
          mWriteCursor := ⟨some h.newSegment, 0⟩
          mSegmentEnd := ⟨some h.newSegment, s.mSegmentSize.toNat⟩ } := ⟨rfl, rfl, hmax, rfl, rfl⟩
      rw [hl.segmentSize] at hlt
      refine ⟨true, _, _, q ++ [h.newSegment], rfl, halike, ?_, .inl ⟨q, h.newSegment, rfl, ?_, ?_,
        rfl, ?_⟩, List.length_append.le, nofun, fun _ => hl.size_pos⟩
      · refine hl.allocated (.inr ⟨rfl, hlen⟩) halike hholds hsize ?_ ?_
        · change s.mLastSegmentNum + 1 = _
          rw [hl.lastNum, List.length_append, List.length_singleton]
          omega
        · rw [List.length_append]
          exact hl.lt_maxCount hlt
      · exact Nat.le_of_eq hlen.symm
      · change _ = Place.mk (some h.newSegment) (d.length - q.length * s.size)
        rw [hlen, Nat.sub_self]
      · change s.size ≤ Function.update h.capacity h.newSegment s.size h.newSegment
        rw [Function.update_self]
  · rw [if_neg hfull]
    exact ⟨true, s, h, q, rfl, .refl s, hl, hw, Nat.le_succ _, nofun,
      fun _ => by rw [hw.room_eq]; omega⟩

/-- More bytes in the last segment. -/
theorem Laid.write (hl : s.Laid h q d) (hw : s.Writing h q d) (bytes : List UInt8)
    (hbytes : bytes.length ≤ s.mWriteCursor.room s.mSegmentEnd) :
    ∃ h', h.write s.mWriteCursor bytes = some h' ∧
      Laid { s with mWriteCursor := s.mWriteCursor.advance bytes.length } h' q (d ++ bytes) ∧
      Writing { s with mWriteCursor := s.mWriteCursor.advance bytes.length } h' q (d ++ bytes) := by
  rw [hw.room_eq] at hbytes
  by_cases hnil : bytes = []
  · subst hnil
    rw [List.append_nil]
    exact ⟨h, rfl, hl.congr rfl rfl rfl rfl, hw⟩
  · have hpos := List.length_pos_iff.mpr hnil
    rcases hw with ⟨rest, last, rfl, hle, hcursor, hend, hcap⟩ | ⟨-, -, hfull⟩
    · have hlen : (rest ++ [last]).length = rest.length + 1 := List.length_append
      have hlast : (rest ++ [last])[rest.length]? = some last := by simp
      rw [hlen, Nat.add_mul, Nat.one_mul] at hbytes
      have hhas : h.Has last (d.length - rest.length * s.size) bytes.length :=
        ⟨hl.kept last (by simp), by omega⟩
      rw [hcursor]
      have hplace : ∀ i seg, (rest ++ [last])[i]? = some seg →
          i = rest.length ∧ seg = last ∨ i * s.size + s.size ≤ rest.length * s.size ∧ seg ≠ last := by
        intro i seg hseg
        have hlt := (List.getElem?_eq_some_iff.mp hseg).1
        by_cases hi : i = rest.length
        · subst hi
          exact .inl ⟨rfl, Option.some.inj (hseg.symm.trans hlast)⟩
        · have hmul := Nat.mul_le_mul_right s.size (show i + 1 ≤ rest.length by omega)
          rw [Nat.add_mul, Nat.one_mul] at hmul
          refine .inr ⟨hmul, ?_⟩
          rintro rfl
          exact hi ((List.getElem?_inj hlt hl.nodup).mp (hseg.trans hlast.symm))
      let cell := putBytes h.cell last (d.length - rest.length * s.size) bytes
      refine ⟨{ h with cell }, ?_, ?_, ?_⟩
      · unfold Heap.write
        rw [if_neg hnil, Option.bind_some, if_pos hhas]
      · refine ⟨hl.holds, hl.log_lt, hl.log, hl.segmentSize, hl.lastNum, hl.few, hl.nodup, hl.old,
          hl.kept, hl.freed_old, ?_, ?_, ?_⟩
        · change _ ≤ _ * s.size
          rw [List.length_append, hlen, Nat.add_mul, Nat.one_mul]
          omega
        · intro i seg hseg
          change min s.size ((d ++ bytes).length - i * s.size) ≤ h.capacity seg
          rcases hplace i seg hseg with ⟨rfl, rfl⟩ | ⟨hlt, -⟩
          · exact Nat.le_trans (Nat.min_le_left _ _) hcap
          · have hold := hl.capacity i seg hseg
            omega
        · intro i seg hseg j hj b hb
          change j < s.size at hj
          change (d ++ bytes)[i * s.size + j]? = some b at hb
          by_cases hold : i * s.size + j < d.length
          · rw [List.getElem?_append_left hold] at hb
            rw [← hl.bytes i seg hseg j hj b hb]
            apply putBytes_outside
            rcases hplace i seg hseg with ⟨rfl, rfl⟩ | ⟨-, hne⟩
            · exact .inr (.inl (by omega))
            · exact .inl hne
          · rcases hplace i seg hseg with ⟨rfl, rfl⟩ | ⟨hlt, -⟩
            · rw [List.getElem?_append_right (by omega)] at hb
              have hi := (List.getElem?_eq_some_iff.mp hb).1
              rw [show rest.length * s.size + j - d.length =
                j - (d.length - rest.length * s.size) by omega] at hb
              change (if _ then bytes.getD _ 0 else _) = b
              rw [if_pos ⟨rfl, by omega, by omega⟩, List.getD_eq_getElem?_getD, hb]
              rfl
            · omega
      · refine .inl ⟨rest, last, rfl, ?_, ?_, hend, hcap⟩
        · change rest.length * s.size ≤ _
          rw [List.length_append]
          omega
        · change Place.mk (some last) (d.length - rest.length * s.size + bytes.length) =
            Place.mk (some last) ((d ++ bytes).length - rest.length * s.size)
          rw [List.length_append]
          congr 1
          omega
    · omega

/-- A segment that bytes are written to is not empty. -/
theorem Writing.used (hw : s.Writing h q d) (hroom : 0 < s.mWriteCursor.room s.mSegmentEnd)
    {bytes : List UInt8} (hbytes : bytes ≠ []) : s.Used q (d ++ bytes) := by
  rw [hw.room_eq] at hroom
  have hpos := List.length_pos_iff.mpr hbytes
  intro n hn
  right
  rw [List.length_append]
  rcases hw with ⟨rest, last, rfl, hle, -⟩ | ⟨-, -, hfull⟩
  · rw [List.length_append, List.length_singleton] at hn
    obtain rfl : rest.length = n := Nat.succ.inj hn
    omega
  · omega

/-- By induction on the rounds of the loop. `n` is the length if all is written. -/
theorem writeLoop_laid {n : ℕ} : ∀ (fuel : ℕ) (firstTime : Bool) (remaining : List UInt8)
    {s : nsStorageStream} {h : Heap} {q : List Segment} {d : List UInt8},
    s.Laid h q d → s.Writing h q d → s.Used q d → s.Fits A n → d.length + remaining.length = n →
    (firstTime = true → q = []) → remaining.length + firstTime.toNat < fuel →
    ∃ rv rest s' h' q' written, writeLoop A fuel firstTime remaining s h = some (rv, rest, s', h') ∧
      remaining = written ++ rest ∧ Alike s s' ∧ s'.Laid h' q' (d ++ written) ∧
      s'.Writing h' q' (d ++ written) ∧ s'.Used q' (d ++ written)
  | 0, _, _, _, _, _, _, _, _, _, _, _, _, hfuel => absurd hfuel (Nat.not_lt_zero _)
  | fuel + 1, firstTime, remaining, s, h, q, d, hl, hw, hused, hfits, hn, hfirst, hfuel => by
    unfold writeLoop
    by_cases hdone : remaining = [] ∧ firstTime = false
    · rw [if_pos hdone, hdone.1]
      refine ⟨ok, [], s, h, q, [], rfl, rfl, .refl s, ?_⟩
      rw [List.append_nil]
      exact ⟨hl, hw, hused⟩
    · rw [if_neg hdone]
      have hmore : q = [] ∨ d.length < n := by
        by_cases hnil : remaining = []
        · exact .inl (hfirst (by simpa [hnil] using hdone))
        · have hpos := List.length_pos_iff.mpr hnil
          exact .inr (by omega)
      obtain ⟨granted, s₁, h₁, q₁, hnew, halike₁, hl₁, hw₁, hq₁, hrefused, hroom⟩ :=
        hl.newSegment hw hfits (by omega) hmore
      rw [hnew]
      dsimp only [Option.bind_eq_bind, Option.bind_some]
      cases granted with
      | false =>
        refine ⟨_, _, s₁, h₁, q₁, [], rfl, rfl, halike₁, ?_⟩
        rw [List.append_nil]
        refine ⟨hl₁, hw₁, ?_⟩
        unfold Used
        rw [halike₁.size, hrefused rfl]
        exact hused
      | true =>
        have hroom := hroom rfl
        let count := min (s₁.mWriteCursor.room s₁.mSegmentEnd) remaining.length
        have hcount : (remaining.take count).length = count :=
          List.length_take_of_le (Nat.min_le_right _ _)
        obtain ⟨h₂, hwrite, hl₂, hw₂⟩ := hl₁.write hw₁ (remaining.take count)
          (by rw [hcount]; exact Nat.min_le_left _ _)
        rw [hcount] at hl₂ hw₂
        have hused₂ : s₁.Used q₁ (d ++ remaining.take count) := by
          by_cases hnil : remaining = []
          · intro m hm
            have hq : q = [] := hfirst (by simpa [hnil] using hdone)
            rw [hq, List.length_nil] at hq₁
            exact .inl (by omega)
          · have hpos := List.length_pos_iff.mpr hnil
            exact hw₁.used hroom (List.ne_nil_of_length_pos (by rw [hcount]; omega))
        rw [if_pos rfl, hwrite]
        dsimp only [Option.bind_some]
        have halike₂ : Alike s { s₁ with mWriteCursor := s₁.mWriteCursor.advance count } :=
          halike₁.trans ⟨rfl, rfl, rfl, rfl, rfl⟩
        have hleft : (remaining.drop count).length + false.toNat < fuel := by
          rw [List.length_drop]
          change remaining.length - count + 0 < fuel
          cases firstTime with
          | false =>
            have hpos := List.length_pos_iff.mpr fun hnil => hdone ⟨hnil, rfl⟩
            have hfuel' : remaining.length < fuel + 1 := hfuel
            omega
          | true =>
            have hfuel' : remaining.length + 1 < fuel + 1 := hfuel
            omega
        have hn₂ : (d ++ remaining.take count).length + (remaining.drop count).length = n := by
          rw [List.length_append, hcount, List.length_drop]
          omega
        obtain ⟨rv, rest, s', h', q', written, hloop, hrest, halike, hlaid⟩ :=
          writeLoop_laid fuel false (remaining.drop count) hl₂ hw₂ hused₂ (halike₂.fits hfits) hn₂
            nofun hleft
        refine ⟨rv, rest, s', h', q', remaining.take count ++ written, hloop, ?_,
          halike₂.trans halike, ?_⟩
        · rw [List.append_assoc, ← hrest, List.take_append_drop]
        · rw [← List.append_assoc]
          exact hlaid

end nsStorageStream

end Kompozer.Io.Storage

import Kompozer.Io.StorageLaid

/-! A storage stream is opened at its end, written, and closed. -/

namespace Kompozer.Io.Storage

open NsResult

namespace nsStorageStream

/-- The bytes `d` were written to the stream. -/
structure Stores (s : nsStorageStream) (h : Heap) (q : List Segment) (d : List UInt8) : Prop
    extends Laid s h q d where
  used : s.Used q d
  length : s.mLogicalLength.toNat = d.length
  writing : s.mWriteInProgress = true → s.Writing h q d

variable {A : Allocator} {s s' : nsStorageStream} {h : Heap} {q : List Segment} {d : List UInt8}

/-- Cursors do not matter for what is stored, nor whether the stream is open. -/
theorem Stores.congr (hs : s.Stores h q d) (hbuffer : s'.mSegmentedBuffer = s.mSegmentedBuffer)
    (hsize : s'.mSegmentSize = s.mSegmentSize) (hlog : s'.mSegmentSizeLog2 = s.mSegmentSizeLog2)
    (hlast : s'.mLastSegmentNum = s.mLastSegmentNum) (hlength : s'.mLogicalLength = s.mLogicalLength)
    (hwriting : s'.mWriteInProgress = true → s'.Writing h q d) : s'.Stores h q d := by
  refine ⟨hs.toLaid.congr hbuffer hsize hlog hlast, ?_, ?_, hwriting⟩
  · intro n hn
    unfold size
    rw [hsize]
    exact hs.used n hn
  · rw [hlength]
    exact hs.length

/-- `Write`, with the bytes that it wrote. -/
theorem Stores.write (hs : s.Stores h q d) (hopen : s.mWriteInProgress = true) {aBuffer : List UInt8}
    (hfits : s.Fits A (d.length + aBuffer.length)) :
    ∃ rv n s' h' q', s.Write A h aBuffer = some (rv, n, s', h') ∧
      s'.Stores h' q' (d ++ aBuffer.take n) ∧ s'.size = s.size := by
  have hfirst : decide (s.mSegmentedBuffer.GetSegmentCount = 0) = true → q = [] := by
    intro hzero
    have hcount := hs.holds.segmentCount
    rw [of_decide_eq_true hzero] at hcount
    exact List.length_eq_zero_iff.mp hcount.symm
  have hfuel : aBuffer.length + (decide (s.mSegmentedBuffer.GetSegmentCount = 0)).toNat <
      aBuffer.length + 2 := by
    have hle := Bool.toNat_le (decide (s.mSegmentedBuffer.GetSegmentCount = 0))
    omega
  obtain ⟨rv, rest, s', h', q', written, hloop, rfl, halike, hlaid, hwriting, hused⟩ :=
    writeLoop_laid (A := A) _ _ aBuffer hs.toLaid (hs.writing hopen) hs.used hfits rfl hfirst hfuel
  have hlen : (written ++ rest).length - rest.length = written.length := by
    rw [List.length_append, Nat.add_sub_cancel]
  have hlt : (d ++ written).length < 2 ^ 32 := by
    refine Nat.lt_of_le_of_lt (hlaid.length_le_reach ?_) (halike.fits hfits).1
    rw [List.length_append, List.length_append]
    omega
  unfold Write
  dsimp only
  rw [hloop]
  let length := s'.mLogicalLength + UInt32.ofNat written.length
  refine ⟨rv, written.length, { s' with mLogicalLength := length }, h', q', ?_, ?_, halike.size⟩
  · dsimp only [Option.bind_eq_bind, Option.bind_some]
    rw [hlen]
  · rw [List.take_left]
    refine ⟨hlaid.congr rfl rfl rfl rfl, hused, ?_, fun _ => hwriting⟩
    change (s'.mLogicalLength + UInt32.ofNat written.length).toNat = _
    rw [List.length_append] at hlt ⊢
    have hk : (UInt32.ofNat written.length).toNat = written.length :=
      UInt32.toNat_ofNat_of_lt' (by change _ < 2 ^ 32; omega)
    rw [UInt32.toNat_add, hk, halike.length, hs.length, Nat.mod_eq_of_lt hlt]

/-! ### The last segment -/

/-- Another last segment, or the same one, with the bytes of the last segment. -/
theorem Laid.replaceLast {rest : List Segment} {last last' : Segment} {h' : Heap}
    (hl : s.Laid h (rest ++ [last]) d) (halike : Alike s s')
    (hholds : s'.mSegmentedBuffer.Holds (rest ++ [last']))
    (hsegment : s'.mSegmentedBuffer.mSegmentSize = s.mSegmentedBuffer.mSegmentSize)
    (hlastNum : s'.mLastSegmentNum = s.mLastSegmentNum) (hlast : last' = last ∨ last' = h.newSegment)
    (hnew : h'.newSegment = h.newSegment + 1) (hkept : h'.freed last' = false)
    (hfreed : ∀ seg, seg ≠ last → h'.freed seg = h.freed seg)
    (hsize : min s.size (d.length - rest.length * s.size) ≤ h'.capacity last')
    (hcap : ∀ seg, seg ≠ last' → h'.capacity seg = h.capacity seg)
    (hcell : ∀ j, j < d.length - rest.length * s.size → j < s.size → h'.cell last' j = h.cell last j)
    (hother : ∀ seg, seg ≠ last' → h'.cell seg = h.cell seg) : s'.Laid h' (rest ++ [last']) d := by
  have hlen : (rest ++ [last']).length = (rest ++ [last]).length := by
    rw [List.length_append, List.length_append]
    rfl
  have hnodup := hl.nodup
  rw [List.nodup_append] at hnodup
  have hmem : ∀ seg ∈ rest, seg ≠ last ∧ seg < h.newSegment ∧ seg ≠ last' := by
    intro seg hseg
    have hne := hnodup.2.2 seg hseg last (List.mem_singleton.mpr rfl)
    have hlt := hl.old seg (List.mem_append_left _ hseg)
    refine ⟨hne, hlt, ?_⟩
    rcases hlast with rfl | rfl
    · exact hne
    · exact Nat.ne_of_lt hlt
  have hget : ∀ i seg, (rest ++ [last'])[i]? = some seg →
      seg ∈ rest ∧ (rest ++ [last])[i]? = some seg ∨ i = rest.length ∧ seg = last' := by
    intro i seg hseg
    rw [List.getElem?_append] at hseg
    split_ifs at hseg with hi
    · exact .inl ⟨List.mem_of_getElem? hseg, by rw [List.getElem?_append_left hi, hseg]⟩
    · have hlt := (List.getElem?_eq_some_iff.mp hseg).1
      rw [List.length_singleton] at hlt
      exact .inr ⟨by omega, List.mem_singleton.mp (List.mem_of_getElem? hseg)⟩
  refine ⟨hholds, ?_, ?_, ?_, ?_, ?_, ?_, ?_, ?_, ?_, ?_, ?_, ?_⟩
  · rw [halike.log]
    exact hl.log_lt
  · rw [halike.size, halike.log]
    exact hl.log
  · rw [hsegment, halike.segmentSize]
    exact hl.segmentSize
  · rw [hlastNum, hlen]
    exact hl.lastNum
  · rw [halike.maxCount, hlen]
    exact hl.few
  · rw [List.nodup_append]
    refine ⟨hnodup.1, List.pairwise_singleton _ _, ?_⟩
    intro seg hseg other hsingle
    rw [List.mem_singleton.mp hsingle]
    exact (hmem seg hseg).2.2
  · intro seg hseg
    rw [hnew]
    rcases List.mem_append.mp hseg with hseg | hseg
    · exact Nat.lt_succ_of_lt (hmem seg hseg).2.1
    · rw [List.mem_singleton.mp hseg]
      rcases hlast with rfl | rfl
      · exact Nat.lt_succ_of_lt (hl.old last' (by simp))
      · exact Nat.lt_succ_self _
  · intro seg hseg
    rcases List.mem_append.mp hseg with hseg | hseg
    · rw [hfreed seg (hmem seg hseg).1]
      exact hl.kept seg (List.mem_append_left _ hseg)
    · rw [List.mem_singleton.mp hseg]
      exact hkept
  · intro seg hseg
    rw [hnew]
    by_cases heq : seg = last
    · rw [heq]
      exact Nat.lt_succ_of_lt (hl.old last (by simp))
    · rw [hfreed seg heq] at hseg
      exact Nat.lt_succ_of_lt (hl.freed_old seg hseg)
  · rw [halike.size, hlen]
    exact hl.room
  · intro i seg hseg
    rw [halike.size]
    rcases hget i seg hseg with ⟨hseg, hold⟩ | ⟨rfl, rfl⟩
    · rw [hcap seg (hmem seg hseg).2.2]
      exact hl.capacity i seg hold
    · exact hsize
  · intro i seg hseg j hj b hb
    rw [halike.size] at hj hb
    rcases hget i seg hseg with ⟨hseg, hold⟩ | ⟨rfl, rfl⟩
    · rw [hother seg (hmem seg hseg).2.2]
      exact hl.bytes i seg hold j hj b hb
    · have hlt := (List.getElem?_eq_some_iff.mp hb).1
      rw [hcell j (by omega) hj]
      exact hl.bytes rest.length last (by simp) j hj b hb

/-- The last segment is reallocated, with room for what is in it. -/
theorem Laid.reallocLast {rest : List Segment} {last : Segment} (hl : s.Laid h (rest ++ [last]) d)
    {newSize : UInt32} (hsize : min s.size (d.length - rest.length * s.size) ≤ newSize.toNat) :
    ∃ s' h' last', s.reallocLast A h newSize = some (s', h') ∧ s'.Laid h' (rest ++ [last']) d ∧
      Alike s s' ∧ (A.realloc h.newSegment ≠ .refused → h'.capacity last' = newSize.toNat) ∧
      (A.realloc h.newSegment = .refused → last' = last ∧ h'.capacity = h.capacity) := by
  have hlast : last < h.newSegment := hl.old last (by simp)
  have hkept : h.freed last = false := hl.kept last (by simp)
  have hcap := hl.capacity rest.length last (by simp)
  unfold nsStorageStream.reallocLast
  rw [hl.holds.lastSegment rfl]
  dsimp only [Option.bind_eq_bind, Option.bind_some]
  cases hrealloc : A.realloc h.newSegment with
  | refused =>
    refine ⟨s, { h with newSegment := h.newSegment + 1 }, last, rfl, ?_, .refl s,
      fun hne => absurd rfl hne, fun _ => ⟨rfl, rfl⟩⟩
    exact hl.replaceLast (.refl s) hl.holds rfl rfl (.inl rfl) rfl hkept (fun _ _ => rfl) hcap
      (fun _ _ => rfl) (fun _ _ _ => rfl) fun _ _ => rfl
  | inPlace =>
    obtain ⟨b', hb', hholds, -, hsegment, hmax⟩ := hl.holds.reallocLastSegment rfl last
    dsimp only [Heap.realloc]
    rw [hb']
    have halike : Alike s { s with mSegmentedBuffer := b' } := ⟨rfl, rfl, hmax, rfl, rfl⟩
    refine ⟨_, _, last, rfl, ?_, halike, fun _ => Function.update_self .., nofun⟩
    refine hl.replaceLast halike hholds hsegment rfl (.inl rfl) rfl hkept (fun _ _ => rfl) ?_
      (fun seg hne => Function.update_of_ne hne ..) (fun _ _ _ => rfl) fun _ _ => rfl
    dsimp only
    rw [Function.update_self]
    exact hsize
  | moved =>
    obtain ⟨b', hb', hholds, -, hsegment, hmax⟩ := hl.holds.reallocLastSegment rfl h.newSegment
    dsimp only [Heap.realloc]
    rw [hb']
    have halike : Alike s { s with mSegmentedBuffer := b' } := ⟨rfl, rfl, hmax, rfl, rfl⟩
    have hfresh : h.freed h.newSegment = false := by
      cases hfreed : h.freed h.newSegment with
      | false => rfl
      | true => exact absurd (hl.freed_old _ hfreed) (Nat.lt_irrefl _)
    refine ⟨_, _, h.newSegment, rfl, ?_, halike, fun _ => Function.update_self .., nofun⟩
    refine hl.replaceLast halike hholds hsegment rfl (.inr rfl) rfl ?_
      (fun seg hne => Function.update_of_ne hne ..) ?_ (fun seg hne => Function.update_of_ne hne ..)
      ?_ ?_
    · dsimp only
      rw [Function.update_of_ne (Nat.ne_of_gt hlast)]
      exact hfresh
    · dsimp only
      rw [Function.update_self]
      exact hsize
    · intro j hj hlt
      change (if _ then _ else _) = _
      rw [if_pos ⟨rfl, Nat.zero_le _, by rw [length_bytesAt]; omega⟩, List.getD_eq_getElem?_getD]
      rw [getElem?_bytesAt (by omega), Nat.sub_zero, Nat.zero_add]
      rfl
    · intro seg hne
      funext i
      exact putBytes_outside (.inl hne)

/-! ### Opening and closing -/

/-- The last byte is in the last segment. -/
theorem Stores.last (hs : s.Stores h q d) (hd : d ≠ []) :
    ∃ rest last, q = rest ++ [last] ∧ rest.length * s.size < d.length ∧
      d.length ≤ rest.length * s.size + s.size := by
  have hpos := List.length_pos_iff.mpr hd
  have hroom := hs.room
  rcases List.eq_nil_or_concat q with rfl | ⟨rest, last, hq⟩
  · rw [List.length_nil, Nat.zero_mul] at hroom
    omega
  · rw [List.concat_eq_append] at hq
    subst hq
    have hlen : (rest ++ [last]).length = rest.length + 1 := List.length_append
    rw [hlen, Nat.add_mul, Nat.one_mul] at hroom
    refine ⟨rest, last, rfl, ?_, hroom⟩
    rcases hs.used rest.length hlen with hzero | hlt
    · rw [hzero, Nat.zero_mul]
      exact hpos
    · exact hlt

/-- The number and the offset of the end. -/
theorem Stores.segNum (hs : s.Stores h q d) {n : ℕ} (hlt : n * s.size < d.length)
    (hle : d.length ≤ n * s.size + s.size) :
    (s.SegOffset s.mLogicalLength = 0 ∧ (s.SegNum s.mLogicalLength).toNat = n + 1 ∧
      d.length = n * s.size + s.size) ∨
    (s.SegOffset s.mLogicalLength ≠ 0 ∧ (s.SegNum s.mLogicalLength).toNat = n ∧
      d.length = n * s.size + (s.SegOffset s.mLogicalLength).toNat) := by
  have hpos := hs.size_pos
  have hoff := hs.toNat_segOffset s.mLogicalLength
  have hnum := hs.toNat_segNum s.mLogicalLength
  rw [hs.length] at hoff hnum
  by_cases hend : d.length = n * s.size + s.size
  · left
    have hmul : d.length = s.size * (n + 1) := by rw [hend, Nat.mul_add, Nat.mul_one, Nat.mul_comm]
    rw [hmul, Nat.mul_mod_right] at hoff
    rw [hmul, Nat.mul_div_cancel_left _ hpos] at hnum
    exact ⟨UInt32.toNat_inj.mp hoff, hnum, hend⟩
  · right
    have hdiv : d.length / s.size = n := by
      apply Nat.div_eq_of_lt_le (Nat.le_of_lt hlt)
      rw [Nat.add_mul, Nat.one_mul]
      omega
    have hmod := Nat.div_add_mod d.length s.size
    rw [hdiv, Nat.mul_comm] at hmod
    refine ⟨fun hzero => ?_, hnum.trans hdiv, by rw [hoff, hmod]⟩
    have hzero' := congrArg UInt32.toNat hzero
    rw [hoff] at hzero'
    change d.length % s.size = 0 at hzero'
    omega

/-- The number of the last segment that is needed. -/
theorem Stores.lastNum_eq (hs : s.Stores h q d) (hd : d ≠ []) :
    (if s.SegOffset s.mLogicalLength = 0 then ((s.SegNum s.mLogicalLength).toNat : ℤ) - 1
      else (s.SegNum s.mLogicalLength).toNat) = s.mLastSegmentNum := by
  obtain ⟨rest, last, rfl, hlt, hle⟩ := hs.last hd
  rw [hs.lastNum, List.length_append, List.length_singleton]
  rcases hs.segNum hlt hle with ⟨hoff, hnum, -⟩ | ⟨hoff, hnum, -⟩
  · rw [if_pos hoff, hnum]
  · rw [if_neg hoff, hnum]
    omega

/-- The length is set to what it is: only a segment that has nothing is deleted. -/
theorem Stores.setLength (hs : s.Stores h q d) (hclosed : s.mWriteInProgress = false) :
    ∃ s' h', s.SetLength h s.mLogicalLength = some (ok, s', h') ∧
      s'.Stores h' (if d = [] then [] else q) d ∧ Alike s s' ∧
      h'.newSegment = h.newSegment ∧ h'.capacity = h.capacity := by
  unfold SetLength
  rw [hclosed, if_neg Bool.false_ne_true, if_neg (UInt32.lt_irrefl _)]
  dsimp only
  by_cases hd : d = []
  · rw [if_pos hd]
    subst hd
    have hzero : s.mLogicalLength = 0 := UInt32.toNat_inj.mp hs.length
    have hoff : s.SegOffset s.mLogicalLength = 0 := by
      rw [hzero]
      exact UInt32.zero_and
    have hnum : (s.SegNum s.mLogicalLength).toNat = 0 := by
      rw [hs.toNat_segNum, hzero]
      exact Nat.zero_div _
    have hcount : (s.mLastSegmentNum - (((0 : ℕ) : ℤ) - 1)).toNat = q.length := by
      rw [hs.lastNum]
      omega
    rw [if_pos hoff, hnum, hcount]
    match q, hs with
    | [], hs => exact ⟨s, h, rfl, hs, .refl s, rfl, rfl⟩
    | [seg], hs =>
      obtain ⟨b', hdelete, hholds, -, hsegment, hmax⟩ := 
        hs.holds.deleteLastSegment (show [seg] = [] ++ [seg] from rfl)
      have hlast : s.mLastSegmentNum = 0 := hs.lastNum
      dsimp only [List.length_singleton, deleteLast]
      rw [hdelete]
      refine ⟨_, _, rfl, ⟨⟨hholds, hs.log_lt, hs.log, hsegment.trans hs.segmentSize, ?_,
        Nat.zero_le _, List.nodup_nil, nofun, nofun, ?_, Nat.zero_le _, nofun, nofun⟩, nofun,
        hs.length, ?_⟩, ⟨rfl, rfl, hmax, rfl, rfl⟩, rfl, rfl⟩
      · change s.mLastSegmentNum - 1 = _
        rw [hlast]
        rfl
      · intro other hfreed
        by_cases heq : other = seg
        · rw [heq]
          exact hs.old seg (List.mem_singleton.mpr rfl)
        · change Function.update h.freed seg true other = true at hfreed
          rw [Function.update_of_ne heq] at hfreed
          exact hs.freed_old other hfreed
      · intro hopen
        rw [show s.mWriteInProgress = true from hopen] at hclosed
        cases hclosed
    | seg :: next :: rest, hs =>
      rcases hs.used (rest.length + 1) rfl with hzero | hlt
      · omega
      · exact absurd hlt (Nat.not_lt_zero _)
  · rw [if_neg hd, hs.lastNum_eq hd, Int.sub_self]
    exact ⟨s, h, rfl, hs, .refl s, rfl, rfl⟩

/-- The write cursor goes to the end. -/
theorem Stores.seek (hs : s.Stores h q d) (hclosed : s.mWriteInProgress = false)
    {aPosition : UInt32} (hend : aPosition = 0xFFFFFFFF ∨ aPosition = s.mLogicalLength) :
    ∃ s' h' q', s.Seek h aPosition = some (ok, s', h') ∧ q' = (if d = [] then [] else q) ∧
      s'.Stores h' q' d ∧ Alike s s' ∧ h'.newSegment = h.newSegment ∧ h'.capacity = h.capacity ∧
      ((∀ last, q'.getLast? = some last → s.size ≤ h'.capacity last) → s'.Writing h' q' d) := by
  have hpos : (if aPosition = 0xFFFFFFFF then s.mLogicalLength else aPosition) =
      s.mLogicalLength := by
    rcases hend with hend | hend
    · exact if_pos hend
    · rw [hend]
      exact ite_self _
  obtain ⟨s₁, h₁, hset, hs₁, halike, hnew, hcap⟩ := hs.setLength hclosed
  have hopen : s₁.mWriteInProgress = false := halike.inProgress.trans hclosed
  unfold Seek
  dsimp only
  rw [hpos, if_neg (UInt32.lt_irrefl _), hset]
  dsimp only [Option.bind_eq_bind, Option.bind_some]
  by_cases hd : d = []
  · have hzero : s.mLogicalLength = 0 := by
      apply UInt32.toNat_inj.mp
      rw [hs.length, hd]
      rfl
    rw [if_pos hd] at hs₁
    rw [if_pos hzero]
    refine ⟨_, h₁, [], rfl, (if_pos hd).symm, hs₁.congr rfl rfl rfl rfl rfl ?_,
      halike.trans ⟨rfl, rfl, rfl, rfl, rfl⟩, hnew, hcap, fun _ => .inr ⟨rfl, rfl, ?_⟩⟩
    · intro hopen'
      rw [show s₁.mWriteInProgress = true from hopen'] at hopen
      cases hopen
    · rw [hd]
      exact (Nat.zero_mul _).symm
  · have hne : s.mLogicalLength ≠ 0 := by
      intro hzero
      have hlen := hs.length
      rw [hzero] at hlen
      exact hd (List.length_eq_zero_iff.mp hlen.symm)
    rw [if_neg hd] at hs₁
    rw [if_neg hne]
    obtain ⟨rest, last, rfl, hlt, hle⟩ := hs₁.last hd
    have hnum : s₁.mLastSegmentNum = rest.length := by
      rw [hs₁.lastNum, List.length_append, List.length_singleton]
      omega
    have hseg : s₁.segment (UInt32.ofNat s₁.mLastSegmentNum.toNat) = some last := by
      apply hs₁.segment
      have hsmall : rest.length < 2 ^ 32 := by
        have hmul := Nat.le_mul_of_pos_right rest.length hs₁.size_pos
        have hlen := s₁.mLogicalLength.toNat_lt
        rw [hs₁.length] at hlen
        omega
      rw [hnum, Int.toNat_natCast, UInt32.toNat_ofNat_of_lt' hsmall]
      simp
    rw [hseg]
    dsimp only [Option.bind_some]
    refine ⟨_, h₁, rest ++ [last], rfl, (if_neg hd).symm, hs₁.congr rfl rfl rfl rfl rfl ?_,
      halike.trans ⟨rfl, rfl, rfl, rfl, rfl⟩, hnew, hcap,
      fun hfull => .inl ⟨rest, last, rfl, Nat.le_of_lt hlt, ?_, rfl, ?_⟩⟩
    · intro hopen'
      rw [show s₁.mWriteInProgress = true from hopen'] at hopen
      cases hopen
    · rw [← halike.length]
      change (if _ then Place.mk (some last) s₁.size else _) =
        Place.mk (some last) (d.length - rest.length * s₁.size)
      rcases hs₁.segNum hlt hle with ⟨hoff, hseg, hlen⟩ | ⟨hoff, hseg, hlen⟩
      · rw [if_pos ⟨hoff, by rw [hnum, hseg]; omega⟩, hlen, Nat.add_sub_cancel_left]
      · rw [if_neg fun hboth => hoff hboth.1, hlen, Nat.add_sub_cancel_left]
    · rw [← halike.size] at hfull
      exact hfull last List.getLast?_concat

/-- The last segment is reallocated while the stream is closed. -/
theorem Stores.reallocLast {rest : List Segment} {last : Segment}
    (hs : s.Stores h (rest ++ [last]) d) (hclosed : s.mWriteInProgress = false) (newSize : UInt32)
    (hsize : min s.size (d.length - rest.length * s.size) ≤ newSize.toNat) :
    ∃ s' h' last', s.reallocLast A h newSize = some (s', h') ∧ s'.Stores h' (rest ++ [last']) d ∧
      Alike s s' ∧ (A.realloc h.newSegment ≠ .refused → h'.capacity last' = newSize.toNat) ∧
      (A.realloc h.newSegment = .refused → last' = last ∧ h'.capacity = h.capacity) := by
  obtain ⟨s', h', last', hrealloc, hlaid, halike, hcap⟩ :=
    Laid.reallocLast (A := A) hs.toLaid hsize
  refine ⟨s', h', last', hrealloc, ⟨hlaid, ?_, ?_, ?_⟩, halike, hcap⟩
  · intro n hn
    rw [halike.size]
    rw [List.length_append, List.length_singleton] at hn
    exact hs.used n (by rw [List.length_append, List.length_singleton, hn])
  · rw [halike.length]
    exact hs.length
  · intro hopen
    rw [halike.inProgress, hclosed] at hopen
    cases hopen

/-- The stream is opened at its end. The last segment must get back its size. -/
theorem Stores.getOutputStream (hs : s.Stores h q d) {aStartingOffset : UInt32}
    (hend : aStartingOffset = 0xFFFFFFFF ∨ aStartingOffset = s.mLogicalLength)
    (hgrant : A.realloc h.newSegment = .refused →
      ∀ seg, s.mSegmentedBuffer.lastSegment = some (some seg) → s.size ≤ h.capacity seg) :
    ∃ rv s' h' q', s.GetOutputStream A h aStartingOffset = some (rv, s', h') ∧ s'.Stores h' q' d ∧
      s'.size = s.size := by
  unfold GetOutputStream
  cases hopen : s.mWriteInProgress with
  | true =>
    rw [if_pos rfl]
    exact ⟨_, s, h, q, rfl, hs, rfl⟩
  | false =>
    rw [if_neg Bool.false_ne_true]
    obtain ⟨s₁, h₁, q₁, hseek₁, hq₁, hs₁, halike₁, hnew₁, hcap₁, -⟩ := hs.seek hopen hend
    have hopen₁ : s₁.mWriteInProgress = false := halike₁.inProgress.trans hopen
    have hfinal : ∀ {s₂ : nsStorageStream} {h₂ : Heap} {q₂ : List Segment}, s₂.Stores h₂ q₂ d →
        Alike s s₂ → (d ≠ [] → ∀ last, q₂.getLast? = some last → s.size ≤ h₂.capacity last) →
        ∃ rv s' h' q', (s₂.Seek h₂ aStartingOffset).bind (fun r =>
          if r.1.failed then some (r.1, r.2.1, r.2.2)
          else some (ok, { r.2.1 with mWriteInProgress := true }, r.2.2)) = some (rv, s', h') ∧
          s'.Stores h' q' d ∧ s'.size = s.size := by
      intro s₂ h₂ q₂ hs₂ halike₂ hfull
      obtain ⟨s₃, h₃, q₃, hseek₃, hq₃, hs₃, halike₃, -, hcap₃, hwriting⟩ :=
        hs₂.seek (halike₂.inProgress.trans hopen) (halike₂.length.symm ▸ hend)
      rw [hseek₃]
      refine ⟨ok, { s₃ with mWriteInProgress := true }, h₃, q₃, rfl,
        hs₃.congr rfl rfl rfl rfl rfl fun _ => hwriting fun last hlast => ?_,
        (halike₂.trans halike₃).size⟩
      by_cases hd : d = []
      · rw [hq₃, if_pos hd] at hlast
        cases hlast
      · rw [hq₃, if_neg hd] at hlast
        rw [halike₂.size, hcap₃]
        exact hfull hd last hlast
    rw [hseek₁]
    dsimp only [Option.bind_eq_bind, Option.bind_some]
    rw [if_neg (by exact Bool.false_ne_true)]
    by_cases hd : d = []
    · rw [if_pos hd] at hq₁
      subst hq₁
      have hlast : s₁.mLastSegmentNum = -1 := hs₁.lastNum
      rw [if_neg (by rw [hlast]; decide)]
      exact hfinal hs₁ halike₁ fun hne => absurd hd hne
    · rw [if_neg hd] at hq₁
      subst hq₁
      obtain ⟨rest, last, rfl, -, -⟩ := hs₁.last hd
      have hlast : 0 ≤ s₁.mLastSegmentNum := by
        rw [hs₁.lastNum, List.length_append, List.length_singleton]
        omega
      obtain ⟨s₂, h₂, last', hrealloc, hs₂, halike₂, hgranted, hrefused⟩ :=
        Stores.reallocLast (A := A) hs₁ hopen₁ s₁.mSegmentSize (Nat.min_le_left _ _)
      rw [if_pos hlast, hrealloc]
      refine hfinal hs₂ (halike₁.trans halike₂) fun _ seg hseg => ?_
      rw [List.getLast?_concat] at hseg
      obtain rfl := Option.some.inj hseg
      by_cases hanswer : A.realloc h₁.newSegment = .refused
      · obtain ⟨rfl, hcap₂⟩ := hrefused hanswer
        rw [hcap₂, hcap₁]
        exact hgrant (hnew₁ ▸ hanswer) last' (hs.holds.lastSegment rfl)
      · rw [hgranted hanswer]
        exact halike₁.size.symm.le

/-- There is enough left of the last segment. -/
theorem Stores.shrinkLast (hs : s.Stores h q d) (hclosed : s.mWriteInProgress = false) :
    ∃ s' h' q', s.shrinkLast A h = some (s', h') ∧ s'.Stores h' q' d ∧ Alike s s' := by
  unfold nsStorageStream.shrinkLast
  dsimp only
  by_cases hoff : s.SegOffset s.mLogicalLength = 0
  · rw [if_neg (not_not.mpr hoff)]
    exact ⟨s, h, q, rfl, hs, .refl s⟩
  · rw [if_pos hoff]
    have hd : d ≠ [] := by
      rintro rfl
      have hzero : s.mLogicalLength = 0 := UInt32.toNat_inj.mp hs.length
      apply hoff
      rw [hzero]
      exact UInt32.zero_and
    obtain ⟨rest, last, rfl, hlt, hle⟩ := hs.last hd
    have hlen : d.length = rest.length * s.size + (s.SegOffset s.mLogicalLength).toNat := by
      rcases hs.segNum hlt hle with ⟨hzero, -, -⟩ | ⟨-, -, hlen⟩
      · exact absurd hzero hoff
      · exact hlen
    obtain ⟨s', h', last', hrealloc, hs', halike, -⟩ :=
      Stores.reallocLast (A := A) hs hclosed (s.SegOffset s.mLogicalLength) (by omega)
    exact ⟨s', h', _, hrealloc, hs', halike⟩

/-- The stream is closed. -/
theorem Stores.close (hs : s.Stores h q d) :
    ∃ s' h' q', s.Close A h = some (s', h') ∧ s'.Stores h' q' d ∧ s'.size = s.size := by
  have hs₁ : Stores { s with mWriteInProgress := false } h q d :=
    hs.congr rfl rfl rfl rfl rfl nofun
  obtain ⟨s₂, h₂, q₂, hshrink, hs₂, halike⟩ := Stores.shrinkLast (A := A) hs₁ rfl
  have hopen : s₂.mWriteInProgress = false := halike.inProgress
  unfold Close
  rw [hshrink]
  exact ⟨_, h₂, q₂, rfl, hs₂.congr rfl rfl rfl rfl rfl
    fun hopen' => absurd (hopen.symm.trans hopen') Bool.false_ne_true, halike.size⟩

end nsStorageStream

end Kompozer.Io.Storage

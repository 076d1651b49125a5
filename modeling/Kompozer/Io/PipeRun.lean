import Kompozer.Io.PipeLaid

/-! Runs of one reader and one writer over a pipe. -/

namespace Kompozer.Io

open NsResult

variable (m : Machine)

namespace World

variable (w : World)

/-- The bytes that are written and not consumed. -/
def unread : List UInt8 := w.written.drop w.consumed.length

/-- What is promised of the pipe and of the segments that the sides hold. -/
structure Sound (bound : ℕ) : Prop where
  ordered : w.consumed ++ w.taken <+: w.written
  available : w.inputFailed = false → w.pipe.mAvailable.toNat = w.unread.length
  reader : ∀ h, w.reader = some h → w.freed h.segment.seg = false ∧
    w.pipe.mReadCursor = some h.segment ∧
    bytesAt w.memory h.segment.seg h.segment.off h.segmentLen = w.unread.take h.segmentLen
  writer : ∀ h, w.writer = some h → w.freed h.segment.seg = false ∧
    w.pipe.mWriteCursor = some h.segment ∧
    bytesAt w.memory h.segment.seg h.segment.off h.bytes.length = h.bytes
  readable : w.unread ≠ [] → ∃ segment segmentLen,
    w.pipe.GetReadSegment m = some (.ok (segment, segmentLen)) ∧ 0 < segmentLen ∧
    w.freed segment.seg = false ∧
    bytesAt w.memory segment.seg segment.off segmentLen = w.unread.take segmentLen
  bounded : w.unread.length ≤ bound

/-- The promise is kept in every state of a run, none of whose steps goes wrong. -/
def SoundRun (bound : ℕ) : World → List Action → Prop
  | w, [] => w.Sound m bound
  | w, a :: as => w.Sound m bound ∧ ∃ w', w.step m a = some w' ∧ SoundRun bound w' as

/-- Where the writer asks for a segment, the array of segments can be doubled if it has to be. -/
def Careful : Action → Prop
  | .GetWriteSegment alloc =>
    w.writer = none → w.pipe.mStatus.failed = false → w.pipe.Growable m alloc
  | _ => True

def CarefulRun : World → List Action → Prop
  | _, [] => True
  | w, a :: as => w.Careful m a ∧ ∀ w', w.step m a = some w' → CarefulRun w' as

/-- What a reader holds is at the read cursor, and is written. -/
def Reading (q : List Segment) (ro wo : ℕ) (h : Hold) : Prop :=
  ∃ first rest, q = first :: rest ∧ h.segment = ⟨first, ro⟩ ∧
    0 < h.segmentLen ∧ ro + h.segmentLen ≤ limitOf w.pipe.size wo q ∧
    h.bytes.length ≤ h.segmentLen ∧ h.bytes = bytesAt w.memory first ro h.bytes.length

/-- What a writer holds is at the write cursor, and is not written. -/
def Writing (q : List Segment) (wo : ℕ) (h : Hold) : Prop :=
  ∃ last, q.getLast? = some last ∧ h.segment = ⟨last, wo⟩ ∧
    0 < h.segmentLen ∧ wo + h.segmentLen ≤ w.pipe.size ∧ h.bytes.length ≤ h.segmentLen ∧
    h.bytes = bytesAt w.memory last wo h.bytes.length

/-- The invariant of a run. -/
structure Good (n : ℕ) (q : List Segment) (ro wo : ℕ) : Prop where
  laid : w.pipe.Laid n q ro wo
  nodup : q.Nodup
  old : ∀ seg ∈ q, seg < w.newSegment
  freed_old : ∀ seg, w.freed seg = true → seg < w.newSegment
  kept : ∀ seg ∈ q, w.freed seg = false
  written : w.written = w.consumed ++ stored w.memory w.pipe.size wo q ro
  available : w.inputFailed = false →
    w.pipe.mAvailable.toNat = (stored w.memory w.pipe.size wo q ro).length
  reader : ∀ h, w.reader = some h → w.Reading q ro wo h
  writer : ∀ h, w.writer = some h → w.Writing q wo h

/-- A step has a result, which is good. -/
def Next (n : ℕ) (r : Option World) : Prop :=
  ∃ w', r = some w' ∧ w'.pipe.size = w.pipe.size ∧ ∃ q ro wo, w'.Good n q ro wo

namespace Good

variable {m w} {n ro wo : ℕ} {q : List Segment} (h : w.Good n q ro wo)
include h

theorem unread : w.unread = stored w.memory w.pipe.size wo q ro := by
  unfold World.unread
  rw [h.written, List.drop_left]

theorem length_stored : (stored w.memory w.pipe.size wo q ro).length < 2 ^ 32 := by
  apply Nat.lt_of_le_of_lt (length_stored_le w.memory h.laid.write_le q ro)
  apply Nat.lt_of_le_of_lt _ w.pipe.mBuffer.mMaxSize.toNat_lt
  rw [h.laid.max, Nat.mul_comm]
  exact Nat.mul_le_mul_left _ h.laid.few

/-- Up to the limit, the first segment has the bytes that are not read. -/
theorem bytesAt_first {first : Segment} {rest : List Segment} {k : ℕ} (hq : q = first :: rest)
    (hk : ro + k ≤ limitOf w.pipe.size wo q) :
    bytesAt w.memory first ro k = w.unread.take k := by
  subst hq
  rw [h.unread, stored_read hk, List.take_left' length_bytesAt]

theorem ne_nil {r : Hold} (hr : w.reader = some r) : q ≠ [] := by
  obtain ⟨first, rest, rfl, -⟩ := h.reader r hr
  exact List.cons_ne_nil first rest

/-- The reader can read. -/
theorem readable (hne : w.unread ≠ []) : ∃ segment segmentLen,
    w.pipe.GetReadSegment m = some (.ok (segment, segmentLen)) ∧ 0 < segmentLen ∧
    w.freed segment.seg = false ∧
    bytesAt w.memory segment.seg segment.off segmentLen = w.unread.take segmentLen := by
  cases hq : q with
  | nil =>
    rw [h.unread, hq] at hne
    exact absurd rfl hne
  | cons first rest =>
    have hlim : ro ≠ limitOf w.pipe.size wo q := by
      intro heq
      obtain ⟨hlen, -⟩ := h.laid.unread (by rw [hq]; exact List.cons_ne_nil _ _) heq
      obtain rfl : rest = [] := by simpa [hq] using hlen
      subst hq
      apply hne
      rw [h.unread, stored_end heq]
      rfl
    have hle := h.laid.read_le
    exact ⟨⟨first, ro⟩, limitOf w.pipe.size wo q - ro, h.laid.getReadSegment hq hlim, by omega,
      h.kept first (by simp [hq]), h.bytesAt_first hq (by omega)⟩

theorem sound {bound : ℕ} (hbound : w.pipe.size * n ≤ bound) : w.Sound m bound where
  ordered := by
    rw [h.written, List.prefix_append_right_inj]
    unfold taken
    cases hr : w.reader with
    | none => exact List.nil_prefix
    | some r =>
      obtain ⟨first, rest, rfl, -, -, hlen, hbytes, heq⟩ := h.reader r hr
      dsimp only [Option.elim]
      rw [heq, stored_read (n := r.bytes.length) (by omega)]
      exact List.prefix_append _ _
  available hin := by rw [h.unread, h.available hin]
  reader r hr := by
    obtain ⟨first, rest, rfl, hseg, -, hlen, -⟩ := h.reader r hr
    rw [hseg]
    exact ⟨h.kept first (List.mem_cons_self), h.laid.readCursor, h.bytesAt_first rfl hlen⟩
  writer r hr := by
    obtain ⟨last, hlast, hseg, -, -, -, heq⟩ := h.writer r hr
    rw [hseg]
    refine ⟨h.kept last (List.mem_of_getLast? hlast), ?_, heq.symm⟩
    rw [h.laid.writeCursor, hlast]
    rfl
  readable := h.readable
  bounded := by
    rw [h.unread]
    apply Nat.le_trans (length_stored_le w.memory h.laid.write_le q ro) (Nat.le_trans _ hbound)
    rw [Nat.mul_comm]
    exact Nat.mul_le_mul_left _ h.laid.few

/-! ### The reader -/

theorem stay : w.Next n (some w) := ⟨w, rfl, rfl, q, ro, wo, h⟩

theorem setReader {r : Option Hold} (hr : ∀ hold, r = some hold → w.Reading q ro wo hold) :
    Good { w with reader := r } n q ro wo :=
  ⟨h.laid, h.nodup, h.old, h.freed_old, h.kept, h.written, h.available, hr, h.writer⟩

theorem getReadSegment : w.Next n (w.getReadSegment m) := by
  unfold World.getReadSegment
  by_cases hend : q = [] ∨ ro = limitOf w.pipe.size wo q
  · rw [h.laid.getReadSegment_empty hend]
    exact h.stay
  · rw [not_or] at hend
    obtain ⟨first, rest, hq⟩ := List.exists_cons_of_ne_nil hend.1
    rw [h.laid.getReadSegment hq hend.2]
    refine ⟨_, rfl, rfl, q, ro, wo, h.setReader fun hold heq => ?_⟩
    cases heq
    have hle := h.laid.read_le
    have hne := hend.2
    exact ⟨first, rest, hq, rfl, by dsimp only; omega, by dsimp only; omega, Nat.zero_le _, rfl⟩

theorem consume {r : Hold} (hr : w.reader = some r) {k : ℕ}
    (hk : r.bytes.length + k ≤ r.segmentLen) : w.Next n (w.consume r k) := by
  obtain ⟨first, rest, hq, hseg, hpos, hlen, hbytes, heq⟩ := h.reader r hr
  have hfreed : w.freed r.segment.seg = false := by
    rw [hseg]
    exact h.kept first (by simp [hq])
  unfold World.consume
  rw [if_neg (by rw [hfreed]; exact Bool.false_ne_true)]
  refine ⟨_, rfl, rfl, q, ro, wo, h.setReader fun hold hhold => ?_⟩
  cases hhold
  refine ⟨first, rest, hq, hseg, hpos, hlen, ?_, ?_⟩
  · rw [List.length_append, length_bytesAt]
    exact hk
  · rw [List.length_append, length_bytesAt, hseg, bytesAt_add, ← heq]

/-- The bytes that the reader advances over are no longer in the pipe. -/
theorem available_read {p' : nsPipe} {bytes rest : List UInt8}
    (hstored : stored w.memory w.pipe.size wo q ro = bytes ++ rest)
    (havail : p'.mAvailable = w.pipe.mAvailable - UInt32.ofNat bytes.length)
    (hin : w.inputFailed = false) : p'.mAvailable.toNat = rest.length := by
  have hlen := h.available hin
  have hlt := h.length_stored
  rw [hstored, List.length_append] at hlen hlt
  have hk : (UInt32.ofNat bytes.length).toNat = bytes.length := UInt32.toNat_ofNat_of_lt'
    (by change _ < 2 ^ 32; omega)
  rw [havail, UInt32.toNat_sub_of_le _ _ (by rw [UInt32.le_iff_toNat_le, hk]; omega), hk, hlen]
  exact Nat.add_sub_cancel_left _ _

theorem advanceReadCursor {r : Hold} (hr : w.reader = some r) :
    w.Next n (w.advanceReadCursor m r) := by
  obtain ⟨first, rest, hq, hseg, hpos, hlen, hbytes, heq⟩ := h.reader r hr
  unfold World.advanceReadCursor
  by_cases hnil : r.bytes = []
  · rw [if_pos hnil]
    exact ⟨_, rfl, rfl, q, ro, wo, h.setReader nofun⟩
  · rw [if_neg hnil]
    have hfit : ro + r.bytes.length ≤ limitOf w.pipe.size wo q := by omega
    have hstored : stored w.memory w.pipe.size wo q ro =
        r.bytes ++ stored w.memory w.pipe.size wo q (ro + r.bytes.length) := by
      subst hq
      rw [stored_read hfit, ← heq]
    obtain ⟨seg, p', q', ro', hadvance, hlaid, hsize, havail, -, hcases⟩ :=
      h.laid.advanceReadCursor (m := m) hq hfit
    rw [hadvance]
    refine ⟨_, rfl, hsize, q', ro', wo, ?_⟩
    rcases hcases with ⟨rfl, rfl, rfl⟩ | ⟨rfl, rfl, rfl, hend, hfull⟩
    · refine ⟨hlaid, h.nodup, h.old, h.freed_old, h.kept, ?_, ?_, nofun, ?_⟩
      · dsimp only
        rw [hsize, List.append_assoc, ← hstored]
        exact h.written
      · dsimp only
        rw [hsize]
        exact h.available_read hstored havail
      · intro hold hhold
        unfold Writing
        dsimp only
        rw [hsize]
        exact h.writer hold hhold
    · have hnodup := h.nodup
      rw [hq, List.nodup_cons] at hnodup
      have hrest : stored w.memory w.pipe.size wo q (ro + r.bytes.length) =
          stored w.memory w.pipe.size wo q' 0 := by
        subst hq
        exact stored_end hend
      rw [hrest] at hstored
      refine ⟨hlaid, hnodup.2, fun seg hmem => h.old seg (by simp [hq, hmem]), ?_, ?_, ?_, ?_,
        nofun, ?_⟩
      · intro seg hfreed
        by_cases hfirst : seg = first
        · exact hfirst ▸ h.old first (by simp [hq])
        · dsimp only [Option.elim] at hfreed
          rw [Function.update_of_ne hfirst] at hfreed
          exact h.freed_old seg hfreed
      · intro seg hmem
        have hne : seg ≠ first := fun heq => hnodup.1 (heq ▸ hmem)
        dsimp only [Option.elim]
        rw [Function.update_of_ne hne]
        exact h.kept seg (by simp [hq, hmem])
      · dsimp only
        rw [hsize, List.append_assoc, ← hstored]
        exact h.written
      · dsimp only
        rw [hsize]
        exact h.available_read hstored havail
      · intro hold hhold
        obtain ⟨last, hlast, hwseg, hwpos, hwlen, hwbytes⟩ := h.writer hold hhold
        unfold Writing
        dsimp only
        rw [hsize]
        refine ⟨last, ?_, hwseg, hwpos, hwlen, hwbytes⟩
        cases q' with
        | nil =>
          have hwo := hfull rfl
          omega
        | cons next rest => rwa [hq, List.getLast?_cons_cons] at hlast

/-! ### The writer -/

theorem setWriter {r : Option Hold} (hr : ∀ hold, r = some hold → w.Writing q wo hold) :
    Good { w with writer := r } n q ro wo :=
  ⟨h.laid, h.nodup, h.old, h.freed_old, h.kept, h.written, h.available, h.reader, hr⟩

theorem fill {r : Hold} (hr : w.writer = some r) {bytes : List UInt8}
    (hlen : r.bytes.length + bytes.length ≤ r.segmentLen) : w.Next n (w.fill r bytes) := by
  obtain ⟨last, hlast, hseg, hpos, hfit, -, heq⟩ := h.writer r hr
  have hfreed : w.freed r.segment.seg = false := by
    rw [hseg]
    exact h.kept last (List.mem_of_getLast? hlast)
  unfold World.fill
  rw [if_neg (by rw [hfreed]; exact Bool.false_ne_true)]
  have hmem : ∀ t i, t ≠ last ∨ i < wo + r.bytes.length → w.memory t i =
      putBytes w.memory r.segment.seg (r.segment.off + r.bytes.length) bytes t i := by
    intro t i hout
    rw [hseg]
    exact (putBytes_outside (hout.imp_right .inl)).symm
  have hstored : stored (putBytes w.memory r.segment.seg (r.segment.off + r.bytes.length) bytes)
      w.pipe.size wo q ro = stored w.memory w.pipe.size wo q ro :=
    (stored_congr q ro h.nodup fun t i hout => hmem t i
      ((hout last hlast).imp_right fun hlt => Nat.lt_add_right _ hlt)).symm
  refine ⟨_, rfl, rfl, q, ro, wo, h.laid, h.nodup, h.old, h.freed_old, h.kept, ?_, ?_, ?_, ?_⟩
  · dsimp only
    rw [hstored]
    exact h.written
  · dsimp only
    rw [hstored]
    exact h.available
  · intro hold hhold
    obtain ⟨first, rest, hq, hrseg, hrpos, hrlen, hrbytes, hreq⟩ := h.reader hold hhold
    refine ⟨first, rest, hq, hrseg, hrpos, hrlen, hrbytes, hreq.trans ?_⟩
    apply bytesAt_congr
    intro i _ hi
    have hnodup := h.nodup
    subst hq
    have hout : first ≠ last ∨ i < wo :=
      ne_last_or_lt (s := w.pipe.size) hnodup hlast (by omega)
    exact hmem first i (hout.imp_right fun hlt => Nat.lt_add_right _ hlt)
  · intro hold hhold
    cases hhold
    refine ⟨last, hlast, hseg, hpos, hfit, ?_, ?_⟩
    · rw [List.length_append]
      exact hlen
    · dsimp only
      rw [List.length_append, hseg, bytesAt_add, bytesAt_putBytes]
      congr 1
      refine heq.trans (bytesAt_congr fun i _ hi => ?_)
      exact (putBytes_outside (.inr (.inl hi))).symm

theorem advanceWriteCursor {r : Hold} (hr : w.writer = some r) :
    w.Next n (w.advanceWriteCursor m r) := by
  obtain ⟨last, hlast, hseg, hpos, hfit, hbytes, heq⟩ := h.writer r hr
  unfold World.advanceWriteCursor
  by_cases hnil : r.bytes = []
  · rw [if_pos hnil]
    exact ⟨_, rfl, rfl, q, ro, wo, h.setWriter nofun⟩
  · rw [if_neg hnil]
    obtain ⟨p', hadvance, hlaid, hsize, havail, -⟩ := h.laid.advanceWriteCursor (m := m) hlast
      (List.length_pos_iff.mpr hnil) (Nat.le_trans (Nat.add_le_add_left hbytes wo) hfit)
    have hstored : stored w.memory p'.size (wo + r.bytes.length) q ro =
        stored w.memory w.pipe.size wo q ro ++ r.bytes := by
      rw [hsize, stored_advance q ro hlast h.laid.read_le, ← heq]
    rw [hadvance]
    have hgood : Good { w with
        pipe := p', writer := none, written := w.written ++ r.bytes, inputFailed := true } n q ro
        (wo + r.bytes.length) := by
      refine ⟨hlaid, h.nodup, h.old, h.freed_old, h.kept, ?_, nofun, ?_, nofun⟩
      · dsimp only
        rw [hstored, h.written, List.append_assoc]
      · intro hold hhold
        obtain ⟨first, rest, hq, hrseg, hrpos, hrlen, hrest⟩ := h.reader hold hhold
        refine ⟨first, rest, hq, hrseg, hrpos, Nat.le_trans hrlen ?_, hrest⟩
        dsimp only
        rw [hsize]
        exact limitOf_mono q (Nat.le_add_right _ _)
    refine ⟨_, rfl, hsize, q, ro, wo + r.bytes.length, hgood.laid, hgood.nodup, hgood.old,
      hgood.freed_old, hgood.kept, hgood.written, ?_, hgood.reader, nofun⟩
    intro hin
    have hlt := hgood.length_stored
    dsimp only at hlt ⊢
    rw [hstored, List.length_append] at hlt ⊢
    have hk : (UInt32.ofNat r.bytes.length).toNat = r.bytes.length :=
      UInt32.toNat_ofNat_of_lt' (by change _ < 2 ^ 32; omega)
    rw [havail, UInt32.toNat_add, hk, h.available hin, Nat.mod_eq_of_lt hlt]

theorem setPipe {p' : nsPipe} {inputFailed : Bool} (hlaid : p'.Laid n q ro wo)
    (hsize : p'.size = w.pipe.size)
    (havail : inputFailed = false → w.inputFailed = false ∧ p'.mAvailable = w.pipe.mAvailable) :
    Good { w with pipe := p', inputFailed } n q ro wo := by
  refine ⟨hlaid, h.nodup, h.old, h.freed_old, h.kept, ?_, ?_, ?_, ?_⟩
  · dsimp only
    rw [hsize]
    exact h.written
  · intro hin
    obtain ⟨hin', heq⟩ := havail hin
    dsimp only
    rw [hsize, heq]
    exact h.available hin'
  · intro hold hhold
    unfold Reading
    dsimp only
    rw [hsize]
    exact h.reader hold hhold
  · intro hold hhold
    unfold Writing
    dsimp only
    rw [hsize]
    exact h.writer hold hhold

theorem close (reason : NsResult) (outputOnly : Bool) :
    w.Next n (some (w.close reason outputOnly)) := by
  unfold World.close nsPipe.CloseWithStatus nsPipe.OnPipeException
  by_cases hstatus : w.pipe.mStatus.failed = true
  · rw [if_pos hstatus]
    exact ⟨_, rfl, rfl, q, ro, wo, h.setPipe h.laid rfl fun hin =>
      ⟨(Bool.or_eq_false_iff.mp hin).1, rfl⟩⟩
  · rw [if_neg hstatus]
    refine ⟨_, rfl, rfl, q, ro, wo, h.setPipe ?_ rfl fun hin => ?_⟩
    · exact ⟨⟨h.laid.holds, h.laid.pos, h.laid.max, h.laid.few, h.laid.writeSegment,
        h.laid.readCursor, h.laid.readLimit, h.laid.writeCursor, h.laid.writeLimit,
        h.laid.read_le, h.laid.write_le⟩, h.laid.unread⟩
    · obtain ⟨hin, honly⟩ := Bool.or_eq_false_iff.mp hin
      exact ⟨hin, if_pos (by simpa using honly)⟩

/-- The reader's hold stays while segments are added. -/
theorem extended {q' : List Segment} {ro' wo' : ℕ}
    (hextended : nsPipe.Extended w.newSegment w.pipe.size q ro wo q' ro' wo') :
    q'.Nodup ∧ (∀ seg ∈ q', seg < w.newSegment + 1) ∧ (∀ seg ∈ q', w.freed seg = false) ∧
      stored w.memory w.pipe.size wo' q' ro' = stored w.memory w.pipe.size wo q ro ∧
      (∀ r, w.reader = some r → w.Reading q' ro' wo' r) := by
  have hfresh : w.freed w.newSegment = false := by
    cases hfreed : w.freed w.newSegment with
    | false => rfl
    | true => exact absurd (h.freed_old _ hfreed) (Nat.lt_irrefl _)
  cases hextended with
  | same => exact ⟨h.nodup, fun seg hmem => Nat.lt_succ_of_lt (h.old seg hmem), h.kept, rfl, h.reader⟩
  | first =>
    refine ⟨List.pairwise_singleton _ _, ?_, ?_, rfl, fun r hr => absurd rfl (h.ne_nil hr)⟩
    · intro seg hmem
      rw [List.mem_singleton.mp hmem]
      exact Nat.lt_succ_self _
    · intro seg hmem
      rw [List.mem_singleton.mp hmem]
      exact hfresh
  | next hq hfull =>
    have hnew : w.newSegment ∉ q := fun hmem => Nat.lt_irrefl _ (h.old _ hmem)
    refine ⟨?_, ?_, ?_, ?_, ?_⟩
    · rw [List.nodup_append]
      refine ⟨h.nodup, List.pairwise_singleton _ _, ?_⟩
      rintro seg hmem _ hsingle rfl
      exact hnew (List.mem_singleton.mp hsingle ▸ hmem)
    · intro seg hmem
      rcases List.mem_append.mp hmem with hmem | hmem
      · exact Nat.lt_succ_of_lt (h.old seg hmem)
      · rw [List.mem_singleton.mp hmem]
        exact Nat.lt_succ_self _
    · intro seg hmem
      rcases List.mem_append.mp hmem with hmem | hmem
      · exact h.kept seg hmem
      · rw [List.mem_singleton.mp hmem]
        exact hfresh
    · rw [stored_append q ro w.newSegment hq, hfull]
    · intro r hr
      obtain ⟨first, rest, heq, hseg, hpos, hlen, hbytes⟩ := h.reader r hr
      refine ⟨first, rest ++ [w.newSegment], by rw [heq]; rfl, hseg, hpos, ?_, hbytes⟩
      rw [limitOf_append hq]
      exact Nat.le_trans hlen (limitOf_le q h.laid.write_le)

theorem getWriteSegment {alloc : Allocation}
    (hgrow : w.pipe.mStatus.failed = false → w.pipe.Growable m alloc) :
    w.Next n (w.getWriteSegment m alloc) := by
  unfold World.getWriteSegment
  obtain ⟨r, p', hget, hsize, havail, -, hcases⟩ :=
    h.laid.getWriteSegment w.newSegment hgrow
  rw [hget]
  rcases hcases with ⟨e, rfl, hlaid, -⟩ | ⟨q', ro₁, wo₁, ro', wo', last, rfl, hlaid, hlast, hlt,
    hextended, hback⟩
  · have hgood := h.setPipe hlaid hsize fun hin => ⟨hin, havail⟩
    exact ⟨_, rfl, hsize, q, ro, wo, hgood.laid, hgood.nodup,
      fun seg hmem => Nat.lt_succ_of_lt (h.old seg hmem),
      fun seg hfreed => Nat.lt_succ_of_lt (h.freed_old seg hfreed), hgood.kept, hgood.written,
      hgood.available, hgood.reader, hgood.writer⟩
  · obtain ⟨hnodup, hold, hkept, hstored, hreader⟩ := h.extended hextended
    have hstored' : stored w.memory p'.size wo' q' ro' = stored w.memory w.pipe.size wo q ro := by
      rw [hsize, ← hstored]
      rcases hback with ⟨rfl, rfl⟩ | ⟨rfl, rfl, rfl, rfl⟩
      · rfl
      · rw [stored, stored, Nat.sub_self, Nat.sub_self, bytesAt_zero, bytesAt_zero]
    have hreader' : ∀ r, w.reader = some r → w.Reading q' ro' wo' r := by
      intro r hr
      rcases hback with ⟨rfl, rfl⟩ | ⟨rfl, heq, -, -⟩
      · exact hreader r hr
      · obtain ⟨first, rest, -, -, hpos, hlen, -⟩ := hreader r hr
        have hlim : ro₁ + r.segmentLen ≤ wo₁ := hlen
        omega
    refine ⟨_, rfl, hsize, q', ro', wo', hlaid, hnodup, hold,
      fun seg hfreed => Nat.lt_succ_of_lt (h.freed_old seg hfreed), hkept, ?_, ?_, ?_, ?_⟩
    · dsimp only
      rw [hstored']
      exact h.written
    · dsimp only
      rw [hstored', havail]
      exact h.available
    · intro r hr
      unfold Reading
      dsimp only
      rw [hsize]
      exact hreader' r hr
    · intro r hr
      cases hr
      refine ⟨last, hlast, rfl, by dsimp only; omega, ?_, Nat.zero_le _, rfl⟩
      dsimp only
      rw [hsize]
      omega

theorem step {a : Action} (ha : w.Careful m a) : w.Next n (w.step m a) := by
  cases a with
  | GetReadSegment =>
    change w.Next n (if w.reader.isSome then some w else _)
    split
    · exact h.stay
    · exact h.getReadSegment
  | Consume k =>
    unfold World.step
    dsimp only
    split
    · split
      · exact h.consume ‹_› ‹_›
      · exact h.stay
    · exact h.stay
  | AdvanceReadCursor =>
    unfold World.step
    cases hr : w.reader with
    | none => exact h.stay
    | some r => exact h.advanceReadCursor hr
  | GetWriteSegment alloc =>
    change w.Next n (if w.writer.isSome then some w else _)
    cases hr : w.writer with
    | none => exact h.getWriteSegment (ha hr)
    | some r => exact h.stay
  | Fill bytes =>
    unfold World.step
    dsimp only
    split
    · split
      · exact h.fill ‹_› ‹_›
      · exact h.stay
    · exact h.stay
  | AdvanceWriteCursor =>
    unfold World.step
    cases hr : w.writer with
    | none => exact h.stay
    | some r => exact h.advanceWriteCursor hr
  | CloseInput reason => exact h.close reason false
  | CloseOutput reason => exact h.close reason true

omit h in
/-- By induction on the run: every step leads to a good state. -/
theorem run {bound : ℕ} : ∀ {as : List Action} {w : World} {q : List Segment} {ro wo : ℕ},
    w.Good n q ro wo → w.pipe.size * n ≤ bound → w.CarefulRun m as → SoundRun m bound w as
  | [], _, _, _, _, h, hbound, _ => h.sound hbound
  | _ :: _, _, _, _, _, h, hbound, hcareful => by
    obtain ⟨w', hstep, hsize, q', ro', wo', h'⟩ := h.step hcareful.1
    exact ⟨h.sound hbound, w', hstep, run h' (by rw [hsize]; exact hbound) (hcareful.2 w' hstep)⟩

end Good

variable {m w} in
/-- Where the array cannot be doubled, the step goes wrong. -/
theorem Good.step_eq_none {n ro wo : ℕ} {q : List Segment} {a : Action} (h : w.Good n q ro wo)
    (ha : ¬w.Careful m a) : w.step m a = none := by
  cases a with
  | GetWriteSegment alloc =>
    unfold Careful at ha
    push Not at ha
    obtain ⟨hwriter, hstatus, hgrow⟩ := ha
    unfold World.step
    dsimp only
    rw [hwriter, if_neg (by exact Bool.false_ne_true)]
    unfold World.getWriteSegment
    rw [h.laid.getWriteSegment_eq_none hstatus hgrow]
    rfl
  | _ => exact absurd trivial ha

variable {m} in
theorem Good.careful_of_sound {bound n : ℕ} : ∀ {as : List Action} {w : World} {q : List Segment}
    {ro wo : ℕ}, w.Good n q ro wo → SoundRun m bound w as → w.CarefulRun m as
  | [], _, _, _, _, _, _ => trivial
  | a :: as, w, _, _, _, h, hsound => by
    obtain ⟨-, w₁, hstep, hrest⟩ := hsound
    have ha : w.Careful m a := by
      by_contra hnot
      rw [h.step_eq_none hnot] at hstep
      cases hstep
    refine ⟨ha, fun w' hw' => ?_⟩
    obtain ⟨w₂, hstep', -, q', ro', wo', h'⟩ := h.step ha
    obtain rfl : w₂ = w' := Option.some.inj (hstep'.symm.trans hw')
    obtain rfl : w₂ = w₁ := Option.some.inj (hstep'.symm.trans hstep)
    exact careful_of_sound h' hrest

/-! ### From the beginning -/

/-- An empty pipe, of at most as many segments as there can be bytes. -/
theorem good_init (segmentSize segmentCount : UInt32) : ∃ n,
    Good { pipe := nsPipe.Init segmentSize segmentCount } n [] 0 0 ∧
      n ≤ (nsPipe.segmentCountOf segmentCount).toNat := by
  have hsize : 0 < (nsPipe.segmentSizeOf segmentSize).toNat := by
    unfold nsPipe.segmentSizeOf
    split
    · decide
    · exact Nat.pos_of_ne_zero fun hzero => ‹segmentSize ≠ 0› (UInt32.toNat_inj.mp hzero)
  let count := if 0xFFFFFFFF / nsPipe.segmentSizeOf segmentSize < nsPipe.segmentCountOf segmentCount
    then 0xFFFFFFFF / nsPipe.segmentSizeOf segmentSize else nsPipe.segmentCountOf segmentCount
  have hdiv : (0xFFFFFFFF / nsPipe.segmentSizeOf segmentSize).toNat =
      0xFFFFFFFF / (nsPipe.segmentSizeOf segmentSize).toNat := UInt32.toNat_div ..
  have hcount : count.toNat ≤ (nsPipe.segmentCountOf segmentCount).toNat ∧
      count.toNat ≤ 0xFFFFFFFF / (nsPipe.segmentSizeOf segmentSize).toNat := by
    by_cases hlt : 0xFFFFFFFF / nsPipe.segmentSizeOf segmentSize < nsPipe.segmentCountOf segmentCount
    · rw [show count = _ from if_pos hlt, hdiv]
      rw [UInt32.lt_iff_toNat_lt, hdiv] at hlt
      exact ⟨hlt.le, Nat.le_refl _⟩
    · rw [show count = _ from if_neg hlt]
      rw [UInt32.lt_iff_toNat_lt, hdiv, Nat.not_lt] at hlt
      exact ⟨Nat.le_refl _, hlt⟩
  have hmul : (nsPipe.segmentSizeOf segmentSize).toNat * count.toNat ≤ 0xFFFFFFFF := by
    rw [Nat.mul_comm]
    exact (Nat.le_div_iff_mul_le hsize).mp hcount.2
  refine ⟨count.toNat, ⟨⟨⟨nsSegmentedBuffer.holds_init, hsize, ?_, Nat.zero_le _, rfl, rfl, rfl, rfl, rfl, Nat.zero_le _,
    Nat.zero_le _⟩, fun hne => absurd rfl hne⟩, List.nodup_nil, nofun, nofun, nofun, rfl,
    fun _ => rfl, nofun, nofun⟩, hcount.1⟩
  change (nsPipe.segmentSizeOf segmentSize * count).toNat = _
  rw [UInt32.toNat_mul, Nat.mod_eq_of_lt (by omega)]
  rfl

/-- The bytes that a pipe may hold. -/
def bound (segmentSize segmentCount : UInt32) : ℕ :=
  (nsPipe.segmentSizeOf segmentSize).toNat * (nsPipe.segmentCountOf segmentCount).toNat

/-- A pipe keeps its promise in every state of exactly those runs in which the array of segments
can be doubled whenever it has to be. -/
theorem soundRun_iff_carefulRun (segmentSize segmentCount : UInt32) (as : List Action) :
    SoundRun m (bound segmentSize segmentCount) { pipe := nsPipe.Init segmentSize segmentCount }
      as ↔ CarefulRun m { pipe := nsPipe.Init segmentSize segmentCount } as := by
  obtain ⟨n, hgood, hn⟩ := good_init segmentSize segmentCount
  constructor
  · exact hgood.careful_of_sound
  · exact hgood.run (Nat.mul_le_mul_left _ hn)

/-! ### A long run -/

/-- The writer puts one byte in the pipe, `n` times. -/
def rounds : ℕ → List Action
  | 0 => []
  | n + 1 => .GetWriteSegment {} :: .Fill [0] :: .AdvanceWriteCursor :: rounds n

namespace Good

variable {m w} {n ro wo : ℕ} {q : List Segment}

/-- One byte more is in the pipe. -/
theorem round (h : w.Good n q ro wo) (hwriter : w.writer = none) (hroom : q.length < n)
    (hstatus : w.pipe.mStatus.failed = false) (hfits : w.pipe.ArrayFits m)
    (hgrow : w.pipe.Growable m {}) :
    ∃ w₁ w₂ w₃, w.step m (.GetWriteSegment {}) = some w₁ ∧ w₁.step m (.Fill [0]) = some w₂ ∧
      w₂.step m .AdvanceWriteCursor = some w₃ ∧ w₃.writer = none ∧
      w₃.pipe.mStatus.failed = false ∧ w₃.pipe.ArrayFits m ∧ w₃.consumed = w.consumed ∧
      w₃.written.length = w.written.length + 1 := by
  obtain ⟨r, p', hget, hsize, -, hstatus', hcases⟩ :=
    h.laid.getWriteSegment w.newSegment fun _ => hgrow
  have hfits' := nsPipe.arrayFits_getWriteSegment hget (fun _ => hgrow) hfits
  rcases hcases with ⟨e, rfl, -, hnone⟩ | ⟨q', ro₁, wo₁, ro', wo', last, rfl, hlaid, hlast, hlt, -⟩
  · exact absurd (hnone hstatus rfl) (Nat.not_le_of_lt hroom)
  · obtain ⟨p'', hadvance, -, -, -, hstatus''⟩ :=
      hlaid.advanceWriteCursor (m := m) hlast Nat.one_pos (by rw [hsize]; exact hlt)
    let hold : Hold := { segment := ⟨last, wo'⟩, segmentLen := w.pipe.size - wo' }
    let w₁ : World := { w with pipe := p', newSegment := w.newSegment + 1, writer := some hold }
    have hstep₁ : w.step m (.GetWriteSegment {}) = some w₁ := by
      unfold World.step
      dsimp only
      rw [hwriter, if_neg (by exact Bool.false_ne_true)]
      unfold World.getWriteSegment
      rw [hget]
      rfl
    have hfreed : w.freed last = false := by
      obtain ⟨w', hw', -, q₁, ro₁, wo₁, h₁⟩ :=
        h.step (m := m) (a := .GetWriteSegment {}) fun _ _ => hgrow
      obtain rfl : w₁ = w' := Option.some.inj (hstep₁.symm.trans hw')
      obtain ⟨last', hlast', hseg, -⟩ := h₁.writer hold rfl
      cases hseg
      exact h₁.kept last (List.mem_of_getLast? hlast')
    refine ⟨w₁, { w₁ with
      writer := some { hold with bytes := [0] }, memory := putBytes w.memory last wo' [0] },
      { w₁ with
        pipe := p'', writer := none, written := w.written ++ [0],
        memory := putBytes w.memory last wo' [0] }, hstep₁, ?_, ?_, rfl, ?_, ?_, rfl, ?_⟩
    · change (if 0 + 1 ≤ w.pipe.size - wo' then (if w.freed last then none else _) else _) = _
      rw [if_pos (by omega), hfreed]
      rfl
    · change (p'.AdvanceWriteCursor m 1).bind _ = _
      rw [hadvance]
      rfl
    · change p''.mStatus.failed = false
      rw [hstatus'', hstatus']
      exact hstatus
    · unfold nsPipe.ArrayFits
      dsimp only
      rw [nsPipe.advanceWriteCursor_mBuffer hadvance]
      exact hfits'
    · exact List.length_append

/-- At most `2 ^ 28` words of eight bytes are in an array whose size in bytes fits. -/
theorem length_lt (h : w.Good n q ro wo) (hm : m.platform = .bits64) (hfits : w.pipe.ArrayFits m) :
    q.length < 2 ^ 28 := by
  obtain ⟨k, -, hcount, -⟩ := h.laid.holds.count
  have hlen := h.laid.holds.length
  unfold nsPipe.ArrayFits at hfits
  rw [hm, hcount] at hfits
  have hk : 2 ^ k < 2 ^ 29 := by
    have hbytes : 2 ^ k * 8 < 2 ^ 32 := hfits
    omega
  have hle : 2 ^ k ≤ 2 ^ 28 :=
    Nat.pow_le_pow_right (by decide) (Nat.le_of_lt_succ ((Nat.pow_lt_pow_iff_right (by decide)).mp hk))
  omega

/-- By induction on the number of rounds: each of them puts a byte in the pipe. -/
theorem rounds (hm : m.platform = .bits64) (hn : 2 ^ 28 ≤ n) : ∀ (k : ℕ) {w : World}
    {q : List Segment} {ro wo : ℕ}, w.Good n q ro wo → w.writer = none →
    w.pipe.mStatus.failed = false → w.pipe.ArrayFits m → w.pipe.size = 1 → w.consumed = [] →
    w.CarefulRun m (rounds k) → w.written.length + k < 2 ^ 28
  | 0, w, q, ro, wo, h, _, _, hfits, hsize, hconsumed, _ => by
    have hlen := h.length_lt hm hfits
    have hle := length_stored_le w.memory h.laid.write_le q ro
    rw [h.written, hconsumed, List.nil_append, Nat.add_zero]
    rw [hsize] at hle ⊢
    omega
  | k + 1, w, q, ro, wo, h, hwriter, hstatus, hfits, hsize, hconsumed, hcareful => by
    have hgrow := hcareful.1 hwriter hstatus
    obtain ⟨w₁, w₂, w₃, hstep₁, hstep₂, hstep₃, hwriter', hstatus', hfits', hconsumed', hlen⟩ :=
      h.round hwriter (Nat.lt_of_lt_of_le (h.length_lt hm hfits) hn) hstatus hfits hgrow
    have hcareful₁ := hcareful.2 w₁ hstep₁
    have hcareful₂ := hcareful₁.2 w₂ hstep₂
    obtain ⟨_, hnext₁, hsize₁, _, _, _, h₁⟩ := h.step hcareful.1
    obtain rfl := Option.some.inj (hstep₁.symm.trans hnext₁)
    obtain ⟨_, hnext₂, hsize₂, _, _, _, h₂⟩ := h₁.step hcareful₁.1
    obtain rfl := Option.some.inj (hstep₂.symm.trans hnext₂)
    obtain ⟨_, hnext₃, hsize₃, _, _, _, h₃⟩ := h₂.step hcareful₂.1
    obtain rfl := Option.some.inj (hstep₃.symm.trans hnext₃)
    have ih := rounds hm hn k h₃ hwriter' hstatus' hfits' (by rw [hsize₃, hsize₂, hsize₁, hsize])
      (hconsumed'.trans hconsumed) (hcareful₂.2 w₃ hstep₃)
    omega

end Good

/-- The segments are 16 bytes apart. -/
def machine : Machine := ⟨.bits64, (16 * ·)⟩

/-- With segments of one byte, and no bound on their number but that of the bytes, the array of
segments is lost when it is doubled from `2 ^ 28` entries. -/
theorem not_soundRun_rounds : ¬SoundRun machine (bound 1 0xFFFFFFFF)
    { pipe := nsPipe.Init 1 0xFFFFFFFF } (rounds (2 ^ 28)) := by
  intro hsound
  have hcareful := (soundRun_iff_carefulRun machine 1 0xFFFFFFFF _).mp hsound
  obtain ⟨n, hgood, -⟩ := good_init 1 0xFFFFFFFF
  have hn : n = 0xFFFFFFFF := by
    have hmax : (0xFFFFFFFF : ℕ) = 1 * n := hgood.laid.max
    omega
  have hlt := Good.rounds (m := machine) rfl (by rw [hn]; decide) (2 ^ 28) hgood rfl rfl (by
    unfold nsPipe.ArrayFits
    decide) rfl rfl hcareful
  exact Nat.lt_irrefl _ (Nat.lt_of_le_of_lt (Nat.le_add_left _ _) hlt)

end World

end Kompozer.Io

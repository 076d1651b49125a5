import Kompozer.Cache.Streams

/-! What is read from an entry of the disk cache is what was written to it, in memory, in blocks and
in a file, and over every change between these. -/

namespace Kompozer.Cache.Streams

open Requests

namespace nsDiskCacheStreamIO

variable {d : nsDiskCacheDevice} {policy : nsCacheStoragePolicy} {io : nsDiskCacheStreamIO}
  {c : List UInt8}

/-! ### Sizes of blocks -/

theorem blockSize_cases (index : UInt32) (h : index.toNat ≤ 3) :
    (BLOCK_SIZE_FOR_INDEX index).toNat ∈ [0, 256, 1024, 4096] := by
  rcases Record.eq_of_toNat_le h with h | h | h | h <;> rw [h] <;> decide

/-- The blocks of a record fit in the buffer. -/
theorem toNat_blocks (r : Record) : (r.DataBlockCount * r.DataBlockSize).toNat =
    r.DataBlockCount.toNat * r.DataBlockSize.toNat ∧
    (r.DataBlockCount * r.DataBlockSize).toNat ≤ kMaxBufferSize := by
  have hcount := r.toNat_dataBlockCount
  have hsize := blockSize_cases r.DataFile r.toNat_dataFile
  rw [UInt32.toNat_mul]
  have hle : r.DataBlockSize.toNat ≤ 4096 := by
    simp only [List.mem_cons, List.not_mem_nil, or_false] at hsize
    unfold Record.DataBlockSize
    omega
  have hmul : r.DataBlockCount.toNat * r.DataBlockSize.toNat ≤ 4 * 4096 :=
    Nat.mul_le_mul hcount.2 hle
  rw [Nat.mod_eq_of_lt (Nat.lt_of_le_of_lt hmul (by decide))]
  exact ⟨rfl, hmul⟩

/-- One to four blocks of the file that a size calls for hold that many bytes. -/
theorem blockCount_spec {size : ℕ} (h : 0 < size) (hmax : size ≤ kMaxBufferSize) :
    let blockSize := (BLOCK_SIZE_FOR_INDEX (CalculateFileIndex size)).toNat
    (CalculateFileIndex size).toNat ≤ 3 ∧ CalculateFileIndex size ≠ 0 ∧
      (size - 1) / blockSize < 4 ∧ size ≤ ((size - 1) / blockSize + 1) * blockSize := by
  intro blockSize
  have hcases : ∃ index : UInt32, CalculateFileIndex size = index ∧ index.toNat ≤ 3 ∧ index ≠ 0 ∧
      0 < (BLOCK_SIZE_FOR_INDEX index).toNat ∧ size ≤ 4 * (BLOCK_SIZE_FOR_INDEX index).toNat := by
    unfold CalculateFileIndex
    split_ifs with h1 h2 h3
    · exact ⟨1, rfl, by decide, by decide, by decide, h1⟩
    · exact ⟨2, rfl, by decide, by decide, by decide, h2⟩
    · exact ⟨3, rfl, by decide, by decide, by decide, h3⟩
    · exact absurd hmax h3
  obtain ⟨index, hindex, hle, hne, hpositive, hlarge⟩ := hcases
  have hsize : blockSize = (BLOCK_SIZE_FOR_INDEX index).toNat := by
    rw [← hindex]
  rw [← hsize] at hpositive hlarge
  rw [hindex]
  refine ⟨hle, hne, ?_, ?_⟩
  · rw [Nat.div_lt_iff_lt_mul hpositive]
    omega
  · have hlt := Nat.lt_div_mul_add hpositive (a := size - 1)
    rw [Nat.succ_mul]
    omega

/-! ### What an entry holds between two calls -/

/-- A record names a file. -/
structure Names (r : Record) (files : Files UInt8) (generation : UInt8) (file : ℕ) : Prop where
  separate : r.SeparateFile
  same : r.Generation = generation
  named : files.named generation = some file

/-- There is no file of a generation, or an empty one. -/
def NoFile (files : Files UInt8) (generation : UInt8) : Prop :=
  ∀ i, files.named generation = some i → files.contents i = []

/-- The data are in a file. -/
structure InFile (io : nsDiskCacheStreamIO) (c : List UInt8) : Prop where
  clean : io.mBufDirty = false
  file : ∃ i, Names io.mRecord io.files io.mGeneration i ∧ io.files.contents i = c ∧
    ∀ fd, io.mFD = some fd → fd.file = i

/-- The data are in blocks, and the buffer holds nothing or the same. -/
structure InBlocks (d : nsDiskCacheDevice) (io : nsDiskCacheStreamIO) (c : List UInt8) : Prop where
  initialized : io.mRecord.DataLocationInitialized = true
  room : c.length ≤ (io.mRecord.DataBlockCount * io.mRecord.DataBlockSize).toNat
  blocks : (io.blocks io.mRecord.DataFile io.mRecord.DataStartBlock).take c.length = c
  buffer : io.mBuffer = none ∧ io.mBufEnd = 0 ∨
    io.mBuffer ≠ none ∧ io.mBufEnd = c.length ∧ c.length ≤ io.mBufSize ∧
      (io.memory d).bytes c.length = c

/-- The entry holds some bytes. -/
structure Rest (d : nsDiskCacheDevice) (policy : nsCacheStoragePolicy) (io : nsDiskCacheStreamIO)
    (c : List UInt8) : Prop where
  policy : io.storagePolicy = policy
  closed : io.mOutStream = false
  size : io.mDataSize = c.length
  fits : c.length ≤ maxSize d
  buffer : io.mBufSize ≤ kMaxBufferSize
  null : io.mBuffer = none → io.mBufSize = 0
  stored : io.InFile c ∨ ¬io.mRecord.SeparateFile ∧ io.mFD = none ∧
    NoFile io.files io.mGeneration ∧ (c ≠ [] → io.InBlocks d c)

/-! ### Bytes on their way to a file or to blocks -/

/-- What the file and the buffer hold together while an output stream is open. A file is open when
the stream was opened in one, or when the buffer was full. -/
structure Writing (d : nsDiskCacheDevice) (policy : nsCacheStoragePolicy) (filed : Prop) (low : ℕ)
    (io : nsDiskCacheStreamIO) (c : List UInt8) : Prop where
  policy : io.storagePolicy = policy
  room : io.mBufPos ≤ io.mBufSize
  buffer : io.mBufSize ≤ kMaxBufferSize
  null : io.mBuffer = none → io.mBufSize = 0
  atEnd : io.mBufEnd = io.mBufPos
  held : io.mFD = none → (io.memory d).bytes io.mBufEnd = c ∧ NoFile io.files io.mGeneration
  flushed : ∀ fd, io.mFD = some fd → Names io.mRecord io.files io.mGeneration fd.file ∧
    fd.pos = (io.files.contents fd.file).length ∧
    io.files.contents fd.file ++ (io.memory d).bytes io.mBufEnd = c ∧ (filed ∨ low ≤ c.length)

section Flush
variable {filed : Prop} {low : ℕ}

theorem NoFile.remove {files : Files UInt8} {generation : UInt8} (h : NoFile files generation)
    (name : UInt8) : NoFile (files.remove name) generation := by
  intro i hi
  simp only [Files.remove, Function.update_apply] at hi ⊢
  split_ifs at hi
  exact h i hi

theorem NoFile.create {files : Files UInt8} {generation : UInt8} (h : NoFile files generation) :
    (files.create generation).1.pos = 0 ∧
      (files.create generation).2.named generation = some (files.create generation).1.file ∧
      (files.create generation).2.contents (files.create generation).1.file = [] :=
  ⟨Files.create_pos _, Files.create_named _, Files.create_contents _ h⟩

theorem Writing.ensureFile (h : Writing d policy filed low io c) :
    ∃ mRecord files fd, io.ensureFile = { io with mRecord, files, mFD := some fd } ∧
      Names mRecord files io.mGeneration fd.file ∧ fd.pos = (files.contents fd.file).length ∧
      files.contents fd.file ++ (io.memory d).bytes io.mBufEnd = c := by
  cases hfd : io.mFD with
  | some fd =>
    obtain ⟨hnames, hpos, hheld, -⟩ := h.flushed fd hfd
    refine ⟨io.mRecord, io.files, fd, ?_, hnames, hpos, hheld⟩
    rw [ nsDiskCacheStreamIO.ensureFile, if_pos (by rw [hfd]; rfl), ← hfd]
  | none =>
    obtain ⟨hheld, hno⟩ := h.held hfd
    obtain ⟨io', hio', hno'⟩ : ∃ io', io' = (if io.mRecord.DataLocationInitialized &&
        0 < io.mRecord.DataFile then io.DeleteStorage else io) ∧ NoFile io'.files io.mGeneration := by
      refine ⟨_, rfl, ?_⟩
      split_ifs
      · unfold DeleteStorage
        dsimp only
        split_ifs
        · exact hno.remove _
        · exact hno
      · exact hno
    have hsame : io' = { io with mRecord := io'.mRecord, files := io'.files } := by
      rw [hio']
      split_ifs <;> rfl
    obtain ⟨hpos, hnamed, hempty⟩ := hno'.create
    have hgeneration := Record.generation_setDataFileGeneration io'.mRecord io.mGeneration
    refine ⟨io'.mRecord.SetDataFileGeneration io.mGeneration, (io'.files.create io.mGeneration).2,
      (io'.files.create io.mGeneration).1, ?_, ⟨Record.separateFile_setDataFileGeneration _ _,
        hgeneration, hnamed⟩, ?_, ?_⟩
    · rw [ nsDiskCacheStreamIO.ensureFile, hfd, ← hio', hsame]
      simp only [Option.isSome_none, Bool.false_eq_true, if_false, OpenCacheFile, hgeneration]
    · rw [hpos, hempty]
      rfl
    · rw [hempty, List.nil_append, hheld]

/-- After a flush the file holds everything. -/
theorem Writing.flushBufferToFile (h : Writing d policy filed low io c) :
    ∃ mRecord files fd, io.FlushBufferToFile d = { io with
        mRecord, files, mFD := some fd, mBufDirty := false, mBufPos := 0, mBufEnd := 0 } ∧
      Names mRecord files io.mGeneration fd.file ∧ files.contents fd.file = c ∧
      fd.pos = c.length := by
  obtain ⟨mRecord, files, fd, heq, hnames, hpos, hheld⟩ := h.ensureFile
  refine ⟨mRecord, (files.write fd ((io.memory d).bytes io.mBufEnd)).2,
    (files.write fd ((io.memory d).bytes io.mBufEnd)).1, ?_,
    ⟨hnames.separate, hnames.same, hnames.named⟩, ?_, ?_⟩
  · rw [ nsDiskCacheStreamIO.FlushBufferToFile, heq]
    rfl
  · rw [Files.write_file, Files.write_end hpos, hheld]
  · rw [Files.write_pos, hpos, ← List.length_append, hheld]

/-- What writing to the buffer leaves as it is. -/
structure Kept (io io' : nsDiskCacheStreamIO) : Prop where
  size : io'.mDataSize = io.mDataSize
  out : io'.mOutStream = io.mOutStream
  pos : io'.mStreamPos = io.mStreamPos
  streamEnd : io'.mStreamEnd = io.mStreamEnd

theorem Kept.refl (io : nsDiskCacheStreamIO) : io.Kept io := ⟨rfl, rfl, rfl, rfl⟩

theorem Kept.trans {io io' io'' : nsDiskCacheStreamIO} (h : io.Kept io') (h' : io'.Kept io'') :
    io.Kept io'' :=
  ⟨h'.size.trans h.size, h'.out.trans h.out, h'.pos.trans h.pos, h'.streamEnd.trans h.streamEnd⟩

theorem Writing.lower (h : Writing d policy filed (kMaxBufferSize + 1) io c) :
    Writing d policy filed kMaxBufferSize io c :=
  { h with
    flushed := fun fd hfd => by
      obtain ⟨hnames, hpos, hheld, hlow⟩ := h.flushed fd hfd
      exact ⟨hnames, hpos, hheld, hlow.imp_right Nat.le_of_succ_le⟩ }

theorem Writing.makeRoom (h : Writing d policy filed (kMaxBufferSize + 1) io c) :
    Writing d policy filed kMaxBufferSize (io.makeRoom d) c ∧
      (io.makeRoom d).mBufPos < (io.makeRoom d).mBufSize ∧ io.Kept (io.makeRoom d) := by
  unfold nsDiskCacheStreamIO.makeRoom
  split_ifs with hfull hsmall
  · -- the buffer grows
    have hbytes : ((io.memory d).realloc io.mBufSize d.fresh).bytes io.mBufEnd =
        (io.memory d).bytes io.mBufEnd :=
      Memory.bytes_realloc (by rw [h.atEnd, hfull]) _
    refine ⟨?_, by rw [hfull]; exact hsmall, ⟨rfl, rfl, rfl, rfl⟩⟩
    exact
      { policy := h.policy
        room := Nat.le_trans h.room (Nat.le_of_lt hsmall)
        buffer := Nat.le_refl _
        null := fun hnull => nomatch hnull
        atEnd := h.atEnd
        held := fun hfd => ⟨hbytes.trans (h.held hfd).1, (h.held hfd).2⟩
        flushed := fun fd hfd => by
          obtain ⟨hnames, hpos, hheld, hlow⟩ := h.lower.flushed fd hfd
          exact ⟨hnames, hpos, by rw [← hheld]; congr 1, hlow⟩ }
  · -- the buffer is full and goes to the file
    have hsize : io.mBufSize = kMaxBufferSize := Nat.le_antisymm h.buffer (Nat.le_of_not_lt hsmall)
    have hlong : kMaxBufferSize ≤ c.length := by
      cases hfd : io.mFD with
      | none =>
        rw [← (h.held hfd).1, Memory.length_bytes, h.atEnd, hfull, hsize]
      | some fd =>
        rw [← (h.flushed fd hfd).2.2.1, List.length_append, Memory.length_bytes, h.atEnd, hfull,
          hsize]
        exact Nat.le_add_left _ _
    obtain ⟨mRecord, files, fd, heq, hnames, hcontents, hpos⟩ := h.flushBufferToFile
    rw [heq]
    refine ⟨?_, by rw [hsize]; exact (by decide : 0 < kMaxBufferSize), ⟨rfl, rfl, rfl, rfl⟩⟩
    exact
      { policy := h.policy
        room := Nat.zero_le _
        buffer := h.buffer
        null := h.null
        atEnd := rfl
        held := fun hfd => nomatch hfd
        flushed := fun fd' hfd' => by
          obtain rfl := Option.some.inj hfd'
          exact ⟨hnames, by rw [hpos, hcontents], by rw [hcontents]; simp, Or.inr hlong⟩ }
  · exact ⟨h.lower, Nat.lt_of_le_of_ne h.room hfull, Kept.refl io⟩

/-- Bytes are copied to where there is room. -/
theorem Writing.copy (h : Writing d policy filed kMaxBufferSize io c) (bytes : List UInt8)
    (hne : bytes ≠ []) (hroom : io.mBufPos + bytes.length ≤ io.mBufSize) :
    Writing d policy filed (kMaxBufferSize + 1) { io with
      mBuffer := some ((io.memory d).copy io.mBufPos bytes)
      mBufDirty := true
      mBufPos := io.mBufPos + bytes.length
      mBufEnd := max io.mBufEnd (io.mBufPos + bytes.length) } (c ++ bytes) := by
  have hend : max io.mBufEnd (io.mBufPos + bytes.length) = io.mBufPos + bytes.length :=
    Nat.max_eq_right (by rw [h.atEnd]; exact Nat.le_add_right _ _)
  have hbytes : ((io.memory d).copy io.mBufPos bytes).bytes (io.mBufPos + bytes.length) =
      (io.memory d).bytes io.mBufEnd ++ bytes := by
    rw [Memory.bytes_copy, h.atEnd]
  rw [hend]
  have hpositive := List.length_pos_of_ne_nil hne
  exact
    { policy := h.policy
      room := hroom
      buffer := h.buffer
      null := fun hnull => nomatch hnull
      atEnd := rfl
      held := fun hfd => ⟨hbytes.trans (by rw [(h.held hfd).1]), (h.held hfd).2⟩
      flushed := fun fd hfd => by
        obtain ⟨hnames, hpos, hheld, hlow⟩ := h.flushed fd hfd
        refine ⟨hnames, hpos, ?_, hlow.imp_right fun hlong => ?_⟩
        · rw [← hheld, List.append_assoc]
          exact congrArg _ hbytes
        · rw [List.length_append]
          omega }

theorem Writing.writeLoop {turns : ℕ} {bytes : List UInt8} (hturns : bytes.length ≤ turns)
    (h : Writing d policy filed (kMaxBufferSize + 1) io c) :
    ∃ io', writeLoop d turns io bytes = .ok io' ∧
      Writing d policy filed (kMaxBufferSize + 1) io' (c ++ bytes) ∧ io.Kept io' ∧
      (bytes ≠ [] → io'.mBufDirty = true) ∧ (bytes = [] → io' = io) := by
  induction turns generalizing io c bytes with
  | zero =>
    obtain rfl := List.eq_nil_of_length_eq_zero (Nat.le_zero.mp hturns)
    exact ⟨io, rfl, by rwa [List.append_nil], Kept.refl io, fun hne => absurd rfl hne, fun _ => rfl⟩
  | succ turns ih =>
    by_cases hnil : bytes = []
    · subst hnil
      refine ⟨io, ?_, by rwa [List.append_nil], Kept.refl io, fun hne => absurd rfl hne,
        fun _ => rfl⟩
      rw [ nsDiskCacheStreamIO.writeLoop, if_pos rfl]
    · obtain ⟨hroom, hlt, hkept⟩ := h.makeRoom
      have hpositive := List.length_pos_of_ne_nil hnil
      obtain ⟨chunkSize, hchunk⟩ : ∃ chunkSize, chunkSize = min bytes.length
          ((io.makeRoom d).mBufSize - (io.makeRoom d).mBufPos) := ⟨_, rfl⟩
      have hlength : (bytes.take chunkSize).length = chunkSize := by
        rw [List.length_take]
        omega
      have hcopy := hroom.copy (bytes.take chunkSize)
        (by rw [← List.length_pos_iff, hlength]; omega) (by rw [hlength]; omega)
      rw [hlength] at hcopy
      obtain ⟨io', hio', hw, hkept', hdirty, hsame⟩ := ih
        (show (bytes.drop chunkSize).length ≤ turns by rw [List.length_drop]; omega) hcopy
      refine ⟨io', ?_, ?_, hkept.trans ⟨hkept'.size, hkept'.out, hkept'.pos, hkept'.streamEnd⟩, fun _ => ?_,
        fun h => absurd h hnil⟩
      · rw [ nsDiskCacheStreamIO.writeLoop, if_neg hnil]
        dsimp only
        rw [if_neg (Nat.not_lt_of_gt hlt), ← hchunk]
        exact hio'
      · rwa [List.append_assoc, List.take_append_drop] at hw
      · by_cases hdrop : bytes.drop chunkSize = []
        · rw [hsame hdrop]
        · exact hdirty hdrop

end Flush

/-! ### Writes -/

theorem Names.setDataFileSize {r : Record} {files : Files UInt8} {generation : UInt8} {file : ℕ}
    (h : Names r files generation file) (size : UInt32) :
    Names (r.SetDataFileSize size) files generation file :=
  ⟨(r.separateFile_setDataFileSize size).mpr h.separate,
    (r.generation_setDataFileSize size h.separate).trans h.same, h.named⟩

theorem updateFileSize_eq (io : nsDiskCacheStreamIO) :
    io.UpdateFileSize = { io with mRecord := io.UpdateFileSize.mRecord } := by
  unfold UpdateFileSize
  dsimp only
  split_ifs <;> rfl

theorem Names.updateFileSize {file : ℕ} (h : Names io.mRecord io.files io.mGeneration file) :
    Names io.UpdateFileSize.mRecord io.files io.mGeneration file := by
  unfold UpdateFileSize
  dsimp only
  split_ifs
  · exact h
  · exact h.setDataFileSize _

theorem exists_updateFileSize (io : nsDiskCacheStreamIO) :
    ∃ mRecord, io.UpdateFileSize = { io with mRecord } ∧
      ∀ file, Names io.mRecord io.files io.mGeneration file →
        Names mRecord io.files io.mGeneration file :=
  ⟨_, updateFileSize_eq io, fun _ h => h.updateFileSize⟩

/-- An open output stream, and what the entry holds so far. -/
structure Out (d : nsDiskCacheDevice) (policy : nsCacheStoragePolicy) (filed : Prop)
    (io : nsDiskCacheStreamIO) (c : List UInt8) : Prop where
  writing : Writing d policy filed (kMaxBufferSize + 1) io c
  size : io.mDataSize = c.length
  fits : c.length ≤ maxSize d
  pos : io.mStreamPos = c.length
  streamEnd : io.mStreamEnd = c.length

section Writes
variable {filed : Prop}

theorem Writing.positions {low n m : ℕ} (h : Writing d policy filed low io c) :
    Writing d policy filed low { io with mStreamPos := n, mStreamEnd := m } c :=
  { h with }

theorem Writing.updateFileSize {low : ℕ} (h : Writing d policy filed low io c) :
    Writing d policy filed low io.UpdateFileSize c := by
  have hnames := fun fd hfd => (h.flushed fd hfd).1.updateFileSize
  rw [updateFileSize_eq]
  exact { h with
    flushed := fun fd hfd => ⟨hnames fd hfd, (h.flushed fd hfd).2⟩ }

theorem write_nil (h : io.mStreamPos ≤ io.mStreamEnd) : io.Write d [] = .ok io := by
  have hloop : io.WriteToBuffer d [] = .ok io := rfl
  rw [ nsDiskCacheStreamIO.Write, hloop]
  exact if_neg (Nat.not_lt_of_le h)

theorem Out.write (h : Out d policy filed io c) {bytes : List UInt8}
    (hfits : c.length + bytes.length ≤ maxSize d) :
    ∃ io', { io with mDataSize := io.mDataSize + bytes.length }.Write d bytes = .ok io' ∧
      Out d policy filed io' (c ++ bytes) ∧ (bytes ≠ [] → io'.mBufDirty = true) ∧
      (bytes = [] → io' = io) := by
  by_cases hnil : bytes = []
  · subst hnil
    refine ⟨io, ?_, by rwa [List.append_nil], fun hne => absurd rfl hne, fun _ => rfl⟩
    exact write_nil (by rw [h.pos, h.streamEnd])
  have hstart : Writing d policy filed (kMaxBufferSize + 1)
      { io with mDataSize := io.mDataSize + bytes.length } c := { h.writing with }
  obtain ⟨io', hloop, hw, hkept, hdirty, -⟩ := hstart.writeLoop (Nat.le_refl bytes.length)
  have hpos : io'.mStreamPos = c.length := hkept.pos.trans h.pos
  have hstreamEnd : io'.mStreamEnd = c.length := hkept.streamEnd.trans h.streamEnd
  have hsize : io'.mDataSize = (c ++ bytes).length := by
    rw [hkept.size, List.length_append, ← h.size]
  rw [← List.length_append] at hfits
  have hwrite : { io with mDataSize := io.mDataSize + bytes.length }.Write d bytes =
      if io'.mStreamEnd < io'.mStreamPos + bytes.length then
        .ok (if io'.mFD.isSome then
          { io' with
            mStreamPos := io'.mStreamPos + bytes.length
            mStreamEnd := io'.mStreamPos + bytes.length }.UpdateFileSize
          else { io' with
            mStreamPos := io'.mStreamPos + bytes.length
            mStreamEnd := io'.mStreamPos + bytes.length })
      else .ok { io' with mStreamPos := io'.mStreamPos + bytes.length } := by
    rw [ nsDiskCacheStreamIO.Write, WriteToBuffer, hloop]
    rfl
  rw [hwrite, hpos, hstreamEnd,
    if_pos (Nat.lt_add_of_pos_right (List.length_pos_of_ne_nil hnil)), ← List.length_append]
  refine ⟨_, rfl, ?_, fun _ => ?_, fun h => absurd h hnil⟩
  · split_ifs with hfd
    · have hupdated := (hw.positions (n := (c ++ bytes).length)
        (m := (c ++ bytes).length)).updateFileSize
      rw [updateFileSize_eq] at hupdated ⊢
      exact ⟨hupdated, hsize, hfits, rfl, rfl⟩
    · exact ⟨hw.positions, hsize, hfits, rfl, rfl⟩
  · split_ifs with hfd
    · rw [updateFileSize_eq]
      exact hdirty hnil
    · exact hdirty hnil

theorem writeOutput_eq (bytes : List UInt8) : io.writeOutput d bytes =
    if bytes.length ≤ PR_INT32_MAX ∧ io.mDataSize + bytes.length ≤ maxSize d then
      { io with mDataSize := io.mDataSize + bytes.length }.Write d bytes
    else .ok io := by
  unfold writeOutput OnDataSizeChange
  by_cases hlong : bytes.length ≤ PR_INT32_MAX
  · rw [if_neg (Nat.not_lt_of_le hlong)]
    by_cases hfits : io.mDataSize + bytes.length ≤ maxSize d
    · have hnot : ¬(maxSize d : ℤ) < io.mDataSize + bytes.length := by omega
      rw [if_neg hnot, NsResult.failed_ok, if_neg Bool.false_ne_true, if_pos ⟨hlong, hfits⟩]
    · have hlarge : (maxSize d : ℤ) < io.mDataSize + bytes.length := by omega
      rw [if_pos hlarge, if_pos (show NsResult.NS_ERROR_ABORT.failed = true from rfl),
        if_neg fun h => hfits h.2]
  · rw [if_pos (Nat.lt_of_not_le hlong), if_neg fun h => hlong h.1]

/-- The writes between opening and closing. -/
theorem Out.writes (h : Out d policy filed io c) (buffers : List (List UInt8)) :
    ∃ io', buffers.foldlM (fun io bytes => io.writeOutput d bytes) io = .ok io' ∧
      Out d policy filed io' (c ++ accepted (maxSize d) c.length buffers) ∧
      (accepted (maxSize d) c.length buffers ≠ [] → io'.mBufDirty = true) ∧
      (accepted (maxSize d) c.length buffers = [] → io' = io) := by
  induction buffers generalizing io c with
  | nil =>
    exact ⟨io, rfl, by rwa [accepted, List.append_nil], fun hne => absurd rfl hne, fun _ => rfl⟩
  | cons bytes buffers ih =>
    rw [List.foldlM_cons, accepted, writeOutput_eq, h.size]
    split_ifs with hle
    · obtain ⟨io₁, hio₁, hout, hdirty, hsame⟩ := h.write hle.2
      rw [h.size] at hio₁
      obtain ⟨io₂, hio₂, hout', hdirty', hsame'⟩ := ih hout
      rw [List.length_append] at hout' hdirty' hsame'
      refine ⟨io₂, by rw [hio₁]; exact hio₂, by rwa [← List.append_assoc], fun hne => ?_,
        fun hnil => ?_⟩
      · by_cases hrest : accepted (maxSize d) (c.length + bytes.length) buffers = []
        · rw [hsame' hrest]
          exact hdirty fun hnil => hne (by rw [hnil, List.nil_append]; rw [hnil] at hrest; exact hrest)
        · exact hdirty' hrest
      · obtain ⟨hnil, hrest⟩ := List.append_eq_nil_iff.mp hnil
        rw [hsame' hrest, hsame hnil]
    · obtain ⟨io₂, hio₂, hout', hdirty', hsame'⟩ := ih h
      exact ⟨io₂, hio₂, hout', hdirty', hsame'⟩

end Writes

/-! ### Closing -/

section Close
variable {filed : Prop}

theorem NoFile.deleteStorage {io : nsDiskCacheStreamIO} (h : NoFile io.files io.mGeneration) :
    NoFile io.DeleteStorage.files io.mGeneration := by
  unfold DeleteStorage
  dsimp only
  split_ifs
  · exact h.remove _
  · exact h

theorem not_separateFile_clear (r : Record) : ¬r.ClearDataLocation.SeparateFile := by
  intro h
  have hinit : r.ClearDataLocation.DataLocationInitialized = false := by
    simp [Record.DataLocationInitialized, Record.ClearDataLocation]
  rw [h.1] at hinit
  cases hinit

theorem writeDataCacheBlocks_eq (d : nsDiskCacheDevice) (io : nsDiskCacheStreamIO) (size : ℕ) : ∃ blocks mRecord calls,
    (io.WriteDataCacheBlocks d size).2 = { io with blocks, mRecord, calls } := by
  rw [WriteDataCacheBlocks]
  split_ifs
  · exact ⟨_, _, _, rfl⟩
  · exact ⟨_, _, _, rfl⟩

/-- Bytes that are written to blocks are found there. -/
theorem inBlocks_written (hbytes : (io.memory d).bytes c.length = c) (hne : c ≠ [])
    (hshort : c.length ≤ kMaxBufferSize) (hend : io.mBufEnd = c.length)
    (hroom : c.length ≤ io.mBufSize) (hbuffer : io.mBuffer ≠ none) :
    (io.WriteDataCacheBlocks d c.length).2.InBlocks d c ∧
      ¬(io.WriteDataCacheBlocks d c.length).2.mRecord.SeparateFile := by
  have hpositive := List.length_pos_of_ne_nil hne
  obtain ⟨hindex, hne0, hcount, hsize⟩ := blockCount_spec hpositive hshort
  obtain ⟨blockCount, hblocks⟩ : ∃ blockCount, blockCount = (c.length - 1) /
      (BLOCK_SIZE_FOR_INDEX (CalculateFileIndex c.length)).toNat + 1 := ⟨_, rfl⟩
  have hle : (UInt32.ofNat blockCount - 1).toNat ≤ 3 ∧
      (UInt32.ofNat blockCount).toNat = blockCount := by
    have hmost : blockCount ≤ 4 := hblocks ▸ hcount
    have hone : 1 ≤ blockCount := hblocks ▸ Nat.le_add_left 1 _
    have hfew : blockCount = 1 ∨ blockCount = 2 ∨ blockCount = 3 ∨ blockCount = 4 := by omega
    rcases hfew with h | h | h | h <;> rw [h] <;> decide
  rw [WriteDataCacheBlocks]
  simp only [if_pos hpositive, ← hblocks]
  refine ⟨⟨Record.dataLocationInitialized_setDataBlocks _, ?_, ?_, ?_⟩, ?_⟩
  · rw [(toNat_blocks _).1, Record.dataBlockCount_setDataBlocks _ hle.1, Record.DataBlockSize,
      Record.dataFile_setDataBlocks _ hindex, hle.2, hblocks]
    exact hsize
  · dsimp only
    rw [Record.dataFile_setDataBlocks _ hindex, Record.dataStartBlock_setDataBlocks _
      (d.AllocateBlocks io.calls).property, Function.update_self, Function.update_self,
      Memory.take_bytes (by rw [hblocks]; exact hsize), hbytes]
  · exact Or.inr ⟨hbuffer, hend, hroom, hbytes⟩
  · exact fun h => hne0 ((Record.dataFile_setDataBlocks _ hindex).symm.trans h.2)

/-- What goes to a file when the stream is closed. -/
theorem Out.close_file (h : Out d policy filed io c) (hdirty : io.mBufDirty = true)
    (hfile : kMaxBufferSize < io.mStreamEnd ∨ io.storagePolicy = .STORE_ON_DISK_AS_FILE) :
    Rest d policy (io.CloseOutputStream d) c := by
  obtain ⟨mRecord, files, fd, heq, hnames, hcontents, -⟩ := h.writing.flushBufferToFile
  have hflush : io.Flush d = { io with
      mRecord, files, mFD := none, mBufDirty := false, mBufPos := 0, mBufEnd := 0,
      mBuffer := none, mBufSize := 0 } := by
    rw [ nsDiskCacheStreamIO.Flush, hdirty, if_neg (by decide), if_pos hfile, heq, DeleteBuffer]
    dsimp only
    split_ifs with hbuffer
    · rfl
    · have hnull : io.mBuffer = none := by simpa using hbuffer
      rw [hnull, h.writing.null hnull]
  rw [CloseOutputStream, hflush]
  exact
    { policy := h.writing.policy
      closed := rfl
      size := h.size
      fits := h.fits
      buffer := Nat.zero_le _
      null := fun _ => rfl
      stored := Or.inl ⟨rfl, fd.file, hnames, hcontents, fun fd hfd => nomatch hfd⟩ }

/-- What goes to blocks when the stream is closed. -/
theorem Out.close_blocks (h : Out d policy filed io c) (hdirty : io.mBufDirty = true)
    (hblocks : ¬(kMaxBufferSize < io.mStreamEnd ∨ io.storagePolicy = .STORE_ON_DISK_AS_FILE))
    (hfiled : ¬filed) : Rest d policy (io.CloseOutputStream d) c := by
  rw [not_or, h.streamEnd, Nat.not_lt] at hblocks
  have hfd : io.mFD = none := by
    cases hfd : io.mFD with
    | none => rfl
    | some fd =>
      have hlow := ((h.writing.flushed fd hfd).2.2.2).resolve_left hfiled
      omega
  obtain ⟨hbytes, hno⟩ := h.writing.held hfd
  have hend : io.mBufEnd = c.length := by
    rw [← hbytes, Memory.length_bytes]
  obtain ⟨io', hio'⟩ : ∃ io', io' = if io.mRecord.DataLocationInitialized then io.DeleteStorage
    else io := ⟨_, rfl⟩
  have hsame : io' = { io with files := io'.files, mRecord := io'.mRecord } := by
    rw [hio']
    split_ifs <;> rfl
  have hno' : NoFile io'.files io.mGeneration := by
    rw [hio']
    split_ifs
    · exact hno.deleteStorage
    · exact hno
  have hseparate : ¬io'.mRecord.SeparateFile := by
    rw [hio']
    split_ifs with hinit
    · exact not_separateFile_clear _
    · exact fun hs => hinit hs.1
  have hflush : io.Flush d = if 0 < c.length then
      { (io'.WriteDataCacheBlocks d c.length).2 with
        mBufDirty := !(io'.WriteDataCacheBlocks d c.length).1 }
      else { io' with mBufDirty := false } := by
    rw [ nsDiskCacheStreamIO.Flush, hdirty, if_neg (by decide), if_neg (by
      rw [not_or, h.streamEnd, Nat.not_lt]; exact hblocks), ← hio', hsame]
    dsimp only
    rw [h.streamEnd, hend]
  have hmemory : io'.memory d = io.memory d := by
    rw [hsame]
    rfl
  rw [CloseOutputStream, hflush]
  split_ifs with hlength
  · have hroom : c.length ≤ io.mBufSize := by
      rw [← hend, h.writing.atEnd]
      exact h.writing.room
    have hbuffer : io.mBuffer ≠ none := fun hnull => by
      rw [h.writing.null hnull] at hroom
      omega
    obtain ⟨hin, hapart⟩ := @inBlocks_written d io' c
      (by rw [hmemory, ← hend, hbytes]) (List.length_pos_iff.mp hlength) hblocks.1
      (by rw [hsame]; exact hend) (by rw [hsame]; exact hroom) (by rw [hsame]; exact hbuffer)
    obtain ⟨blocks, mRecord, calls, hwritten⟩ := writeDataCacheBlocks_eq d io' c.length
    rw [hwritten, hsame] at hin hapart ⊢
    exact
      { policy := h.writing.policy
        closed := rfl
        size := h.size
        fits := h.fits
        buffer := h.writing.buffer
        null := h.writing.null
        stored := Or.inr ⟨hapart, hfd, hno', fun _ =>
          ⟨hin.initialized, hin.room, hin.blocks, hin.buffer⟩⟩ }
  · rw [hsame]
    exact
      { policy := h.writing.policy
        closed := rfl
        size := h.size
        fits := h.fits
        buffer := h.writing.buffer
        null := h.writing.null
        stored := Or.inr ⟨hseparate, hfd, hno', fun hne =>
          absurd (List.length_pos_of_ne_nil hne) hlength⟩ }

end Close

/-! ### Opening -/

theorem setEOF_file {fd : FileDesc} (hfile : io.mRecord.SeparateFile) (hfd : io.mFD = some fd) :
    io.SetEOF d = .ok { io with
      files := io.files.truncate fd io.mStreamPos
      mStreamEnd := io.mStreamPos
      mBufEnd := io.mBufPos }.UpdateFileSize := by
  unfold SetEOF
  simp only [hfile.1, hfile.2, hfd, if_true, reduceCtorEq, and_false, if_false]
  simp [bind, Except.bind, hfd]

theorem setEOF_unopened {i : ℕ} (h : Names io.mRecord io.files io.mGeneration i)
    (hfd : io.mFD = none) :
    io.SetEOF d = .ok { { io with
      mFD := some ⟨i, 0⟩
      files := io.files.truncate ⟨i, 0⟩ io.mStreamPos
      mStreamEnd := io.mStreamPos
      mBufEnd := io.mBufPos }.UpdateFileSize with mFD := none } := by
  have hopen : io.OpenCacheFile = { io with mFD := some ⟨i, 0⟩ } := by
    rw [OpenCacheFile, Files.create_of_some (h.same ▸ h.named)]
  unfold SetEOF
  simp only [h.separate.1, h.separate.2, hfd, if_true, hopen]
  simp [bind, Except.bind, h.separate]

theorem setEOF_blocks (hapart : ¬io.mRecord.SeparateFile) (hfd : io.mFD = none)
    (hpos : io.mStreamPos = 0 ∨ io.mStreamPos = io.mBufPos) :
    io.SetEOF d = .ok { io with mStreamEnd := io.mStreamPos, mBufEnd := io.mBufPos } := by
  unfold SetEOF
  have hread : ¬(io.mStreamPos ≠ 0 ∧ io.mStreamPos ≠ io.mBufPos) := by
    rcases hpos with h | h <;> simp [h]
  by_cases hinit : io.mRecord.DataLocationInitialized = true
  · have hfile : io.mRecord.DataFile ≠ 0 := fun h => hapart ⟨hinit, h⟩
    simp [bind, Except.bind, hinit, hfile, hread, hfd]
  · simp [bind, Except.bind, hinit, hfd]

theorem openOutput_eq {p : ℕ} (hp : p ≤ maxSize d) {io' : nsDiskCacheStreamIO}
    (h : io.GetOutputStream d p = .ok io') :
    io.openOutput d p = .ok { io' with mDataSize := p } := by
  rw [openOutput, h]
  have hsize : io'.OnDataSizeChange d (p - io'.mDataSize) = NsResult.ok := by
    rw [OnDataSizeChange, if_neg (by omega)]
  simp [bind, Except.bind, hsize]

theorem getOutputStream_zero (hclosed : io.mOutStream = false) {io' : nsDiskCacheStreamIO}
    (h : { io with mBufPos := 0, mStreamPos := 0, mStreamEnd := io.mDataSize }.SetEOF d = .ok io') :
    io.GetOutputStream d 0 = .ok { io' with mOutStream := true } := by
  rw [GetOutputStream, if_neg (by rw [hclosed]; exact Bool.false_ne_true)]
  simp [bind, Except.bind, h]

theorem getOutputStream_seek (hclosed : io.mOutStream = false) {p : ℕ} (hp : 0 < p)
    {io₁ io₂ : nsDiskCacheStreamIO}
    (h₁ : { io with mBufPos := 0, mStreamPos := 0, mStreamEnd := io.mDataSize }.Seek d p = .ok io₁)
    (h₂ : io₁.SetEOF d = .ok io₂) :
    io.GetOutputStream d p = .ok { io₂ with mOutStream := true } := by
  rw [GetOutputStream, if_neg (by rw [hclosed]; exact Bool.false_ne_true)]
  simp [bind, Except.bind, h₁, h₂, Nat.pos_iff_ne_zero.mp hp]

theorem seek_file {i : ℕ} (h : Names io.mRecord io.files io.mGeneration i)
    (hfd : ∀ fd, io.mFD = some fd → fd.file = i) (hclean : io.mBufDirty = false) {p : ℕ}
    (hp : p ≤ io.mStreamEnd) :
    io.Seek d p = .ok { io with
      mFD := some ⟨i, p⟩, mStreamPos := p, mBufPos := 0, mBufEnd := 0 } := by
  have hopen : io.OpenCacheFile = { io with mFD := some ⟨i, 0⟩ } := by
    rw [OpenCacheFile, Files.create_of_some (h.same ▸ h.named)]
  rw [Seek, if_neg (Nat.not_lt_of_le hp), hopen]
  cases hcase : io.mFD with
  | none => simp [h.separate, hclean]
  | some fd =>
    have hi := hfd fd hcase
    simp [hcase, hclean, ← hi]

/-- A stream that was just opened. -/
structure Opened (d : nsDiskCacheDevice) (policy : nsCacheStoragePolicy)
    (io io' : nsDiskCacheStreamIO) (p : ℕ) (c : List UInt8) : Prop where
  rest : Rest d policy { io' with mOutStream := false } c
  size : io'.mDataSize = c.length
  positions : io'.mStreamPos ≤ io'.mStreamEnd
  out : (io.mFD ≠ none → 0 < p) → Out d policy (io.mRecord.SeparateFile ∧ 0 < p) io' c
  dirty : io'.mBufDirty = true → ¬io.mRecord.SeparateFile ∧ io.mFD = none

theorem Rest.openOutput_file (h : Rest d policy io c) (hin : io.InFile c) {p : ℕ}
    (hp : p ≤ c.length) : ∃ io', io.openOutput d p = .ok io' ∧ Opened d policy io io' p (c.take p) := by
  obtain ⟨i, hnames, hcontents, hfd⟩ := hin.file
  have htruncated : ∀ fd : FileDesc, fd.file = i →
      (io.files.truncate fd p).contents i = c.take p := by
    intro fd hi
    rw [← hi, Files.truncate_contents (by rw [hi, hcontents]; exact hp), hi, hcontents]
  have hlength : (c.take p).length = p := List.length_take_of_le hp
  have hlimit : p ≤ maxSize d := Nat.le_trans hp h.fits
  by_cases hzero : p = 0
  · subst hzero
    cases hcase : io.mFD with
    | none =>
      -- the file is truncated and closed
      obtain ⟨mRecord, hrecord, hnames'⟩ := exists_updateFileSize { io with
        mFD := some ⟨i, 0⟩, files := io.files.truncate ⟨i, 0⟩ 0, mStreamPos := 0, mStreamEnd := 0
        mBufPos := 0, mBufEnd := 0 }
      have hget : io.GetOutputStream d 0 = .ok { io with
          mRecord, mFD := none, files := io.files.truncate ⟨i, 0⟩ 0, mStreamPos := 0, mStreamEnd := 0
          mBufPos := 0, mBufEnd := 0, mOutStream := true } := by
        have heof := @setEOF_unopened d { io with
          mBufPos := 0, mStreamPos := 0, mStreamEnd := io.mDataSize } i hnames hcase
        rw [hrecord] at heof
        exact getOutputStream_zero h.closed heof
      have hnames₀ := hnames' i ⟨hnames.separate, hnames.same, hnames.named⟩
      have hempty : (io.files.truncate ⟨i, 0⟩ 0).contents i = [] := htruncated _ rfl
      refine ⟨_, openOutput_eq hlimit hget, ?_⟩
      exact
        { rest :=
            { policy := h.policy
              closed := rfl
              size := rfl
              fits := Nat.zero_le _
              buffer := h.buffer
              null := h.null
              stored := Or.inl ⟨hin.clean, i, hnames₀, hempty, fun fd hfd => nomatch hfd⟩ }
          size := rfl
          positions := Nat.le_refl _
          out := fun _ =>
            { writing :=
                { policy := h.policy
                  room := Nat.zero_le _
                  buffer := h.buffer
                  null := h.null
                  atEnd := rfl
                  held := fun _ => ⟨rfl, fun j hj => by
                    rw [Option.some.inj (hj.symm.trans hnames.named)]
                    exact hempty⟩
                  flushed := fun fd hfd => nomatch hfd }
              size := rfl
              fits := Nat.zero_le _
              pos := rfl
              streamEnd := rfl }
          dirty := fun hdirty => by
            rw [hin.clean] at hdirty
            cases hdirty }
    | some fd =>
      -- the file is truncated, but stays open where it was
      have hi := hfd fd hcase
      obtain ⟨mRecord, hrecord, hnames'⟩ := exists_updateFileSize { io with
        files := io.files.truncate fd 0, mStreamPos := 0, mStreamEnd := 0, mBufPos := 0, mBufEnd := 0 }
      have hget : io.GetOutputStream d 0 = .ok { io with
          mRecord, files := io.files.truncate fd 0, mStreamPos := 0, mStreamEnd := 0
          mBufPos := 0, mBufEnd := 0, mOutStream := true } := by
        have heof := @setEOF_file d { io with
          mBufPos := 0, mStreamPos := 0, mStreamEnd := io.mDataSize } fd hnames.separate hcase
        rw [hrecord] at heof
        exact getOutputStream_zero h.closed heof
      have hnames₀ := hnames' i ⟨hnames.separate, hnames.same, hnames.named⟩
      refine ⟨_, openOutput_eq hlimit hget, ?_⟩
      exact
        { rest :=
            { policy := h.policy
              closed := rfl
              size := rfl
              fits := Nat.zero_le _
              buffer := h.buffer
              null := h.null
              stored := Or.inl ⟨hin.clean, i, hnames₀, htruncated fd hi, hfd⟩ }
          size := rfl
          positions := Nat.le_refl _
          out := fun hopen => absurd (hopen (by rw [hcase]; simp)) (Nat.lt_irrefl 0)
          dirty := fun hdirty => by
            rw [hin.clean] at hdirty
            cases hdirty }
  · have hpositive := Nat.pos_of_ne_zero hzero
    obtain ⟨mRecord, hrecord, hnames'⟩ := exists_updateFileSize { io with
      mFD := some ⟨i, p⟩, files := io.files.truncate ⟨i, p⟩ p, mStreamPos := p, mStreamEnd := p
      mBufPos := 0, mBufEnd := 0 }
    have hget : io.GetOutputStream d p = .ok { io with
        mRecord, mFD := some ⟨i, p⟩, files := io.files.truncate ⟨i, p⟩ p, mStreamPos := p
        mStreamEnd := p, mBufPos := 0, mBufEnd := 0, mOutStream := true } := by
      have hend : p ≤ io.mDataSize := h.size ▸ hp
      have hseek := @seek_file d { io with
        mBufPos := 0, mStreamPos := 0, mStreamEnd := io.mDataSize } i hnames hfd hin.clean p hend
      have heof := @setEOF_file d { io with
        mFD := some ⟨i, p⟩, mStreamPos := p, mStreamEnd := io.mDataSize, mBufPos := 0
        mBufEnd := 0 } ⟨i, p⟩ hnames.separate rfl
      rw [hrecord] at heof
      exact getOutputStream_seek h.closed hpositive hseek heof
    have hnames₀ := hnames' i ⟨hnames.separate, hnames.same, hnames.named⟩
    refine ⟨_, openOutput_eq hlimit hget, ?_⟩
    exact
      { rest :=
          { policy := h.policy
            closed := rfl
            size := hlength.symm
            fits := by rw [hlength]; exact hlimit
            buffer := h.buffer
            null := h.null
            stored := Or.inl ⟨hin.clean, i, hnames₀, htruncated _ rfl, fun fd hfd => by
              rw [← Option.some.inj hfd]⟩ }
        size := hlength.symm
        positions := Nat.le_refl _
        out := fun _ =>
          { writing :=
              { policy := h.policy
                room := Nat.zero_le _
                buffer := h.buffer
                null := h.null
                atEnd := rfl
                held := fun hfd => nomatch hfd
                flushed := fun fd hfd => by
                  obtain rfl := Option.some.inj hfd
                  refine ⟨hnames₀, ?_, ?_, Or.inl ⟨hnames.separate, hpositive⟩⟩
                  · dsimp only
                    rw [htruncated _ rfl, hlength]
                  · dsimp only
                    rw [htruncated _ rfl]
                    simp }
            size := hlength.symm
            fits := by rw [hlength]; exact hlimit
            pos := hlength.symm
            streamEnd := hlength.symm }
        dirty := fun hdirty => by
          rw [hin.clean] at hdirty
          cases hdirty }

/-- What is read from the blocks is what they hold. -/
theorem InBlocks.readCacheBlocks (h : io.InBlocks d c) (hend : io.mStreamEnd = c.length)
    (hnull : io.mBuffer = none) : ∃ m : Memory, io.ReadCacheBlocks d = .ok { io with
      mBuffer := some m
      mBufSize := (io.mRecord.DataBlockCount * io.mRecord.DataBlockSize).toNat
      mBufPos := 0
      mBufEnd := c.length } ∧ m.bytes c.length = c := by
  have hstored : c.length ≤ (io.blocks io.mRecord.DataFile io.mRecord.DataStartBlock).length := by
    have hlength := congrArg List.length h.blocks
    rw [List.length_take] at hlength
    omega
  refine ⟨d.fresh.copy 0 (io.blocks io.mRecord.DataFile io.mRecord.DataStartBlock), ?_, ?_⟩
  · rw [ReadCacheBlocks, h.initialized, if_neg (by decide)]
    simp [hnull, hend, memory]
  · rw [← Memory.take_bytes hstored, Memory.bytes_copy_zero, h.blocks]

theorem InBlocks.seek (h : io.InBlocks d c) (hapart : ¬io.mRecord.SeparateFile)
    (hfd : io.mFD = none) (hend : io.mStreamEnd = c.length) (hsize : io.mBufSize ≤ kMaxBufferSize)
    {p : ℕ} (hpos : 0 < p) (hp : p ≤ c.length) : ∃ (m : Memory) (mBufSize : ℕ),
      io.Seek d p = .ok { io with
        mBuffer := some m, mBufSize, mBufEnd := c.length, mStreamPos := p, mBufPos := p } ∧
      c.length ≤ mBufSize ∧ mBufSize ≤ kMaxBufferSize ∧ m.bytes c.length = c := by
  have hne : io.mStreamEnd ≠ 0 := by omega
  have hnot : ¬io.mStreamEnd < p := by omega
  rcases h.buffer with ⟨hnull, hzero⟩ | ⟨hbuffer, hbufEnd, hroom, hbytes⟩
  · obtain ⟨m, hread, hbytes⟩ := h.readCacheBlocks hend hnull
    refine ⟨m, _, ?_, h.room, (toNat_blocks _).2, hbytes⟩
    rw [Seek, if_neg hnot]
    simp only [hapart, hfd, false_and, if_false]
    simp [hread, hfd, hzero, hpos, hne, Nat.not_lt_of_le hp, bind, Except.bind]
  · obtain ⟨m, hm⟩ := Option.ne_none_iff_exists'.mp hbuffer
    refine ⟨m, io.mBufSize, ?_, hroom, hsize, by rwa [memory, hm] at hbytes⟩
    have hne' : c ≠ [] := List.ne_nil_of_length_pos (by omega)
    rw [Seek, if_neg hnot]
    simp only [hapart, hfd, false_and, if_false]
    simp [hbufEnd, hne', hfd, Nat.not_lt_of_le hp, hm, bind, Except.bind]

/-- A prefix is left of what the blocks hold. -/
theorem InBlocks.take (h : io.InBlocks d c) {p : ℕ} (hp : p ≤ c.length) {m : Memory}
    (hbytes : m.bytes c.length = c) (io' : nsDiskCacheStreamIO) (hrecord : io'.mRecord = io.mRecord)
    (hblocks : io'.blocks = io.blocks) (hbuffer : io'.mBuffer = some m) (hend : io'.mBufEnd = p)
    (hroom : p ≤ io'.mBufSize) : io'.InBlocks d (c.take p) := by
  have hlength : (c.take p).length = p := List.length_take_of_le hp
  refine ⟨?_, ?_, ?_, Or.inr ⟨?_, ?_, ?_, ?_⟩⟩
  · rw [hrecord]
    exact h.initialized
  · rw [hrecord, hlength]
    exact Nat.le_trans hp h.room
  · rw [hrecord, hblocks, hlength]
    conv_rhs => rw [← h.blocks, List.take_take, Nat.min_eq_left hp]
  · rw [hbuffer]
    exact Option.some_ne_none m
  · rw [hend, hlength]
  · rwa [hlength]
  · rw [hlength, memory, hbuffer, Option.getD_some, ← Memory.take_bytes hp, hbytes]

theorem Rest.openOutput_blocks (h : Rest d policy io c) (hapart : ¬io.mRecord.SeparateFile)
    (hfd : io.mFD = none) (hno : NoFile io.files io.mGeneration) (hin : c ≠ [] → io.InBlocks d c)
    {p : ℕ} (hp : p ≤ c.length) :
    ∃ io', io.openOutput d p = .ok io' ∧ Opened d policy io io' p (c.take p) := by
  have hlimit : p ≤ maxSize d := Nat.le_trans hp h.fits
  by_cases hzero : p = 0
  · subst hzero
    have heof := @setEOF_blocks d { io with mBufPos := 0, mStreamPos := 0, mStreamEnd := io.mDataSize }
      hapart hfd (Or.inl rfl)
    refine ⟨_, openOutput_eq hlimit (getOutputStream_zero h.closed heof), ?_⟩
    exact
      { rest :=
          { policy := h.policy
            closed := rfl
            size := rfl
            fits := Nat.zero_le _
            buffer := h.buffer
            null := h.null
            stored := Or.inr ⟨hapart, hfd, hno, fun hne => absurd rfl hne⟩ }
        size := rfl
        positions := Nat.le_refl _
        out := fun _ =>
          { writing :=
              { policy := h.policy
                room := Nat.zero_le _
                buffer := h.buffer
                null := h.null
                atEnd := rfl
                held := fun _ => ⟨rfl, hno⟩
                flushed := fun fd hopen => nomatch hfd.symm.trans hopen }
            size := rfl
            fits := Nat.zero_le _
            pos := rfl
            streamEnd := rfl }
        dirty := fun _ => ⟨hapart, hfd⟩ }
  · have hpositive := Nat.pos_of_ne_zero hzero
    have hlength : (c.take p).length = p := List.length_take_of_le hp
    have hblocks := hin (List.ne_nil_of_length_pos (Nat.lt_of_lt_of_le hpositive hp))
    obtain ⟨m, mBufSize, hseek, hroom, hbuffer, hbytes⟩ := @InBlocks.seek d
      { io with mBufPos := 0, mStreamPos := 0, mStreamEnd := io.mDataSize } c
      ⟨hblocks.initialized, hblocks.room, hblocks.blocks, hblocks.buffer⟩ hapart hfd h.size h.buffer
      p hpositive hp
    have heof := @setEOF_blocks d { io with
      mBuffer := some m, mBufSize, mBufEnd := c.length, mStreamPos := p, mBufPos := p
      mStreamEnd := io.mDataSize } hapart hfd (Or.inr rfl)
    have htaken : m.bytes p = c.take p := by
      rw [← Memory.take_bytes hp, hbytes]
    refine ⟨_, openOutput_eq hlimit (getOutputStream_seek h.closed hpositive hseek heof), ?_⟩
    exact
      { rest :=
          { policy := h.policy
            closed := rfl
            size := hlength.symm
            fits := hlength.symm ▸ hlimit
            buffer := hbuffer
            null := fun hnull => nomatch hnull
            stored := Or.inr ⟨hapart, hfd, hno, fun _ =>
              hblocks.take hp hbytes _ rfl rfl rfl rfl (Nat.le_trans hp hroom)⟩ }
        size := hlength.symm
        positions := Nat.le_refl _
        out := fun _ =>
          { writing :=
              { policy := h.policy
                room := Nat.le_trans hp hroom
                buffer := hbuffer
                null := fun hnull => nomatch hnull
                atEnd := rfl
                held := fun _ => ⟨htaken, hno⟩
                flushed := fun fd hopen => nomatch hfd.symm.trans hopen }
            size := hlength.symm
            fits := hlength.symm ▸ hlimit
            pos := hlength.symm
            streamEnd := hlength.symm }
        dirty := fun _ => ⟨hapart, hfd⟩ }

theorem Rest.openOutput (h : Rest d policy io c) {p : ℕ} (hp : p ≤ c.length) :
    ∃ io', io.openOutput d p = .ok io' ∧ Opened d policy io io' p (c.take p) := by
  rcases h.stored with hin | ⟨hapart, hfd, hno, hin⟩
  · exact h.openOutput_file hin hp
  · exact h.openOutput_blocks hapart hfd hno hin hp

/-! ### A whole session of an output stream -/

/-- What is refused, and what is empty, changes nothing. -/
theorem writes_of_accepted_nil (h : io.mStreamPos ≤ io.mStreamEnd) {buffers : List (List UInt8)}
    (hnil : accepted (maxSize d) io.mDataSize buffers = []) :
    buffers.foldlM (fun io bytes => io.writeOutput d bytes) io = .ok io := by
  induction buffers with
  | nil => rfl
  | cons bytes buffers ih =>
    have hwrite : io.writeOutput d bytes = .ok io ∧
        accepted (maxSize d) io.mDataSize buffers = [] := by
      rw [writeOutput_eq]
      rw [accepted] at hnil
      split_ifs at hnil ⊢ with hle
      · obtain ⟨rfl, hrest⟩ := List.append_eq_nil_iff.mp hnil
        exact ⟨write_nil h, hrest⟩
      · exact ⟨rfl, hnil⟩
    rw [List.foldlM_cons, hwrite.1]
    exact ih hwrite.2

/-- The steps that keep what was written. A stream is not opened behind the data, and when bytes are
written to it: an entry in a file that is opened behind its beginning stays too large for blocks,
and no file is open that would be opened at its beginning. -/
def Careful (d : nsDiskCacheDevice) (io : nsDiskCacheStreamIO) : Step → Prop
  | .write mStartOffset buffers =>
    mStartOffset ≤ io.mDataSize ∧ (accepted (maxSize d) mStartOffset buffers ≠ [] →
      (io.mRecord.SeparateFile ∧ 0 < mStartOffset →
        kMaxBufferSize < mStartOffset + (accepted (maxSize d) mStartOffset buffers).length ∨
          io.storagePolicy = .STORE_ON_DISK_AS_FILE) ∧
      (io.mFD ≠ none → 0 < mStartOffset))
  | .read _ => True
  | .rebind => True

instance (d : nsDiskCacheDevice) (io : nsDiskCacheStreamIO) : DecidablePred (Careful d io)
  | .write mStartOffset buffers =>
    inferInstanceAs (Decidable
      (mStartOffset ≤ io.mDataSize ∧ (accepted (maxSize d) mStartOffset buffers ≠ [] →
        (io.mRecord.SeparateFile ∧ 0 < mStartOffset →
          kMaxBufferSize < mStartOffset + (accepted (maxSize d) mStartOffset buffers).length ∨
            io.storagePolicy = .STORE_ON_DISK_AS_FILE) ∧
        (io.mFD ≠ none → 0 < mStartOffset))))
  | .read _ => inferInstanceAs (Decidable True)
  | .rebind => inferInstanceAs (Decidable True)

theorem closeOutputStream_clean (h : io.mBufDirty = false) :
    io.CloseOutputStream d = { io with mOutStream := false } := by
  have hflush : io.Flush d = io := by
    rw [Flush, h]
    exact if_pos (by decide)
  rw [CloseOutputStream, hflush]

theorem Out.close {filed : Prop} (h : Out d policy filed io c) (hdirty : io.mBufDirty = true)
    (hfiled : filed → kMaxBufferSize < c.length ∨ policy = .STORE_ON_DISK_AS_FILE) :
    Rest d policy (io.CloseOutputStream d) c := by
  by_cases hfile : kMaxBufferSize < io.mStreamEnd ∨ io.storagePolicy = .STORE_ON_DISK_AS_FILE
  · exact h.close_file hdirty hfile
  · apply h.close_blocks hdirty hfile
    rw [h.streamEnd, h.writing.policy] at hfile
    exact fun hf => hfile (hfiled hf)

theorem Rest.write (h : Rest d policy io c) {p : ℕ} {buffers : List (List UInt8)}
    (hcareful : Careful d io (.write p buffers)) :
    ∃ io', io.write d p buffers = .ok io' ∧
      Rest d policy io' (c.take p ++ accepted (maxSize d) p buffers) := by
  obtain ⟨hle, hkeep⟩ := hcareful
  rw [h.size] at hle
  have hlength : (c.take p).length = p := List.length_take_of_le hle
  obtain ⟨io₁, hopen, hopened⟩ := h.openOutput hle
  have hwrite : ∀ {io₂}, buffers.foldlM (fun io bytes => io.writeOutput d bytes) io₁ = .ok io₂ →
      io.write d p buffers = .ok (io₂.CloseOutputStream d) := by
    intro io₂ hio₂
    rw [ nsDiskCacheStreamIO.write, hopen]
    simp [bind, Except.bind, hio₂]
  by_cases hnil : accepted (maxSize d) p buffers = []
  · have hrefused : accepted (maxSize d) io₁.mDataSize buffers = [] := by
      rw [hopened.size, hlength, hnil]
    have hsame := writes_of_accepted_nil hopened.positions hrefused
    refine ⟨_, hwrite hsame, ?_⟩
    rw [hnil, List.append_nil]
    cases hdirty : io₁.mBufDirty with
    | false =>
      rw [closeOutputStream_clean hdirty]
      exact hopened.rest
    | true =>
      obtain ⟨hapart, hfd⟩ := hopened.dirty hdirty
      exact (hopened.out fun hne => absurd hfd hne).close hdirty fun hf => absurd hf.1 hapart
  · obtain ⟨hlarge, hclosed⟩ := hkeep hnil
    obtain ⟨io₂, hio₂, hout, hdirty, -⟩ := (hopened.out hclosed).writes buffers
    rw [hlength] at hout hdirty
    refine ⟨_, hwrite hio₂, hout.close (hdirty hnil) fun hf => ?_⟩
    rw [List.length_append, hlength, ← h.policy]
    exact hlarge hf

/-! ### Reading -/

/-- An input stream of some bytes, at a place. -/
structure Reading (files : Files UInt8) (stream : nsDiskCacheInputStream) (c : List UInt8)
    (place : ℕ) : Prop where
  streamEnd : stream.mStreamEnd = c.length
  pos : stream.mPos = place
  le : place ≤ c.length
  source : c = [] ∨ (∃ fd, stream.mFD = some fd ∧ files.contents fd.file = c ∧ fd.pos = place) ∨
    stream.mFD = none ∧ ∃ m : Memory, stream.mBuffer = some m ∧ m.bytes c.length = c

theorem Reading.read {files : Files UInt8} {stream : nsDiskCacheInputStream} {place : ℕ}
    (h : Reading files stream c place) (count : ℕ) :
    ∃ stream', stream.Read files count = .ok ((c.drop place).take count, stream') ∧
      Reading files stream' c (place + ((c.drop place).take count).length) := by
  have hle := h.le
  have hbound : place + ((c.drop place).take count).length ≤ c.length := by
    rw [List.length_take, List.length_drop]
    omega
  by_cases hend : place = c.length
  · have hnil : (c.drop place).take count = [] := by
      rw [hend, List.drop_length, List.take_nil]
    rw [hnil]
    refine ⟨stream, ?_, h⟩
    rw [nsDiskCacheInputStream.Read, h.pos, h.streamEnd, if_pos hend]
  · have hlt : ¬stream.mStreamEnd < stream.mPos := by
      rw [h.pos, h.streamEnd]
      exact Nat.not_lt_of_le h.le
    have hne : stream.mPos ≠ stream.mStreamEnd := by rwa [h.pos, h.streamEnd]
    rcases h.source with hnil | ⟨fd, hfd, hcontents, hpos⟩ | ⟨hfd, m, hbuffer, hbytes⟩
    · rw [hnil] at hend hle
      exact absurd (Nat.le_zero.mp hle) hend
    · have hbytes : files.read fd count = (c.drop place).take count := by
        rw [Files.read, hcontents, hpos]
      rw [nsDiskCacheInputStream.Read, if_neg hne, if_neg hlt, hfd]
      dsimp only
      rw [hbytes]
      exact ⟨_, rfl, h.streamEnd, by rw [h.pos], hbound,
        Or.inr (Or.inl ⟨_, rfl, hcontents, by rw [hpos]⟩)⟩
    · have hcount : min count (stream.mStreamEnd - stream.mPos) =
          ((c.drop place).take count).length := by
        rw [h.pos, h.streamEnd, List.length_take, List.length_drop]
      have hdrop : (m.bytes (place + ((c.drop place).take count).length)).drop place =
          (c.drop place).take count := by
        rw [← Memory.take_bytes hbound, hbytes, List.drop_take, Nat.add_sub_cancel_left,
          List.length_take, List.take_eq_take_iff]
        omega
      rw [nsDiskCacheInputStream.Read, if_neg hne, if_neg hlt, hfd, hbuffer]
      dsimp only
      rw [hcount, h.pos, hdrop]
      exact ⟨_, rfl, h.streamEnd, rfl, hbound, Or.inr (Or.inr ⟨rfl, m, rfl, hbytes⟩)⟩

/-- The reads of an input stream give its bytes in order. -/
theorem Reading.readAll {files : Files UInt8} {stream : nsDiskCacheInputStream} {place : ℕ}
    (h : Reading files stream c place) (counts : List ℕ) :
    stream.readAll files counts = .ok ((c.drop place).take counts.sum) := by
  induction counts generalizing stream place with
  | nil => simp [nsDiskCacheInputStream.readAll]
  | cons count counts ih =>
    obtain ⟨stream', hread, hreading⟩ := h.read count
    have hrest := ih hreading
    have hsplit : (c.drop place).take count ++
        (c.drop (place + ((c.drop place).take count).length)).take counts.sum =
        (c.drop place).take (count :: counts).sum := by
      rw [← List.drop_drop, List.sum_cons, List.take_add, List.length_take]
      congr 2
      by_cases hlong : count ≤ (c.drop place).length
      · rw [Nat.min_eq_left hlong]
      · have hshort := Nat.le_of_not_le hlong
        rw [Nat.min_eq_right hshort, List.drop_length, List.drop_eq_nil_of_le hshort]
    rw [nsDiskCacheInputStream.readAll, hread]
    simp only [bind, Except.bind, hrest]
    rw [hsplit]

theorem Rest.streamEnd (h : Rest d policy io c) (n : ℕ) :
    Rest d policy { io with mStreamEnd := n } c := by
  refine { h with stored := h.stored.imp (fun hin => ⟨hin.clean, hin.file⟩) ?_ }
  intro ⟨hapart, hfd, hno, hin⟩
  exact ⟨hapart, hfd, hno, fun hne =>
    ⟨(hin hne).initialized, (hin hne).room, (hin hne).blocks, (hin hne).buffer⟩⟩

/-- The blocks of an entry are in the buffer. -/
theorem Rest.loaded (h : Rest d policy io c) (hapart : ¬io.mRecord.SeparateFile)
    (hfd : io.mFD = none) (hno : NoFile io.files io.mGeneration) (hin : io.InBlocks d c)
    {m : Memory} (hbytes : m.bytes c.length = c) : Rest d policy { io with
      mBuffer := some m
      mBufSize := (io.mRecord.DataBlockCount * io.mRecord.DataBlockSize).toNat
      mBufPos := 0
      mBufEnd := c.length } c := by
  have htake := hin.take (Nat.le_refl c.length) hbytes { io with
    mBuffer := some m
    mBufSize := (io.mRecord.DataBlockCount * io.mRecord.DataBlockSize).toNat
    mBufPos := 0
    mBufEnd := c.length } rfl rfl rfl rfl hin.room
  rw [List.take_length] at htake
  exact
    { policy := h.policy
      closed := h.closed
      size := h.size
      fits := h.fits
      buffer := (toNat_blocks _).2
      null := fun hnone => nomatch hnone
      stored := Or.inr ⟨hapart, hfd, hno, fun _ => htake⟩ }

theorem Rest.getInputStream (h : Rest d policy io c) : ∃ stream io',
    io.GetInputStream d = .ok (stream, io') ∧ Rest d policy io' c ∧ Reading io'.files stream c 0 := by
  by_cases hnil : c = []
  · refine ⟨{ mBuffer := io.mBuffer }, { io with mStreamEnd := 0 }, ?_, h.streamEnd 0, ?_⟩
    · rw [GetInputStream, h.closed]
      simp [h.size, hnil]
    · exact ⟨by rw [hnil]; rfl, rfl, Nat.zero_le _, Or.inl hnil⟩
  have hne : io.mDataSize ≠ 0 := by
    rw [h.size]
    exact (List.length_pos_of_ne_nil hnil).ne'
  have hrest := h.streamEnd io.mDataSize
  rcases h.stored with hin | ⟨hapart, hfd, hno, hin⟩
  · obtain ⟨i, hnames, hcontents, -⟩ := hin.file
    refine ⟨{ mFD := some ⟨i, 0⟩, mBuffer := io.mBuffer, mStreamEnd := io.mDataSize },
      { io with mStreamEnd := io.mDataSize }, ?_, hrest, ?_⟩
    · rw [GetInputStream, h.closed]
      simp [hne, hnames.separate.2, hnames.same, hnames.named]
    · exact ⟨h.size, rfl, Nat.zero_le _, Or.inr (Or.inl ⟨_, rfl, hcontents, rfl⟩)⟩
  · have hblocks := hin hnil
    have hfile : io.mRecord.DataFile ≠ 0 := fun h => hapart ⟨hblocks.initialized, h⟩
    rcases hblocks.buffer with ⟨hnull, hzero⟩ | ⟨hbuffer, hend, hroom, hbytes⟩
    · obtain ⟨m, hread, hbytes⟩ := @InBlocks.readCacheBlocks d { io with mStreamEnd := io.mDataSize } c
        ⟨hblocks.initialized, hblocks.room, hblocks.blocks, hblocks.buffer⟩ h.size hnull
      refine ⟨{ mBuffer := some m, mStreamEnd := io.mDataSize }, _, ?_,
        hrest.loaded hapart hfd hno ⟨hblocks.initialized, hblocks.room, hblocks.blocks, hblocks.buffer⟩
          hbytes, ?_⟩
      · have hempty : io.mBuffer.isNone = true := by
          rw [hnull]
          rfl
        rw [GetInputStream, if_neg (by rw [h.closed]; exact Bool.false_ne_true)]
        simp only [hne, hfile, hempty, if_true, if_false, hread]
        rfl
      · exact ⟨h.size, rfl, Nat.zero_le _, Or.inr (Or.inr ⟨rfl, m, rfl, hbytes⟩)⟩
    · obtain ⟨m, hm⟩ := Option.ne_none_iff_exists'.mp hbuffer
      refine ⟨{ mBuffer := some m, mStreamEnd := io.mDataSize }, { io with mStreamEnd := io.mDataSize },
        ?_, hrest, h.size, rfl, Nat.zero_le _, Or.inr (Or.inr ⟨rfl, m, rfl, ?_⟩)⟩
      · rw [GetInputStream, h.closed]
        simp [hne, hfile, hm, bind, Except.bind]
      · rwa [memory, hm] at hbytes

theorem Rest.read (h : Rest d policy io c) (counts : List ℕ) :
    ∃ io', io.read d counts = .ok (c.take counts.sum, io') ∧ Rest d policy io' c := by
  obtain ⟨stream, io', hget, hrest, hreading⟩ := h.getInputStream
  refine ⟨io', ?_, hrest⟩
  rw [ nsDiskCacheStreamIO.read, hget]
  simp [bind, Except.bind, hreading.readAll]

/-! ### Runs -/

theorem Rest.rebind (h : Rest d policy io c) : Rest d policy io.rebind c :=
  { policy := h.policy
    closed := rfl
    size := h.size
    fits := h.fits
    buffer := Nat.zero_le _
    null := fun _ => rfl
    stored := by
      refine h.stored.imp (fun hin => ?_) fun ⟨hapart, _, hno, hin⟩ => ?_
      · obtain ⟨i, hnames, hcontents, -⟩ := hin.file
        exact ⟨rfl, i, hnames, hcontents, fun fd hfd => nomatch hfd⟩
      · exact ⟨hapart, rfl, hno, fun hne =>
          ⟨(hin hne).initialized, (hin hne).room, (hin hne).blocks, Or.inl ⟨rfl, rfl⟩⟩⟩ }

theorem Rest.step (h : Rest d policy io c) {step : Step} (hcareful : Careful d io step) :
    ∃ io', io.step d step = .ok io' ∧ Rest d policy io' (contents (maxSize d) c [step]) := by
  cases step with
  | write p buffers => exact h.write hcareful
  | read counts =>
    obtain ⟨io', hread, hrest⟩ := h.read counts
    refine ⟨io', ?_, hrest⟩
    rw [ nsDiskCacheStreamIO.step, hread]
    rfl
  | rebind => exact ⟨io.rebind, rfl, h.rebind⟩

/-- Every step of a run is taken where it may be. -/
def Along (d : nsDiskCacheDevice) (may : nsDiskCacheStreamIO → Step → Prop) :
    nsDiskCacheStreamIO → List Step → Prop
  | _, [] => True
  | io, step :: steps => may io step ∧ ∀ io', io.step d step = .ok io' → Along d may io' steps

theorem Along.cons {may : nsDiskCacheStreamIO → Step → Prop} {step : Step} {steps : List Step}
    {io' : nsDiskCacheStreamIO} (hstep : io.step d step = .ok io') (hmay : may io step)
    (h : Along d may io' steps) : Along d may io (step :: steps) :=
  ⟨hmay, fun io'' h' => by rwa [← Except.ok.inj (hstep.symm.trans h')]⟩

theorem contents_cons (limit : ℕ) (c : List UInt8) (step : Step) (steps : List Step) :
    contents limit c (step :: steps) = contents limit (contents limit c [step]) steps := by
  cases step <;> rfl

theorem Rest.run (h : Rest d policy io c) {steps : List Step}
    (hcareful : Along d (Careful d) io steps) :
    ∃ io', io.run d steps = .ok io' ∧ Rest d policy io' (contents (maxSize d) c steps) := by
  induction steps generalizing io c with
  | nil => exact ⟨io, rfl, h⟩
  | cons step steps ih =>
    obtain ⟨io₁, hstep, hrest⟩ := h.step hcareful.1
    obtain ⟨io', hrun, hrest'⟩ := ih hrest (hcareful.2 io₁ hstep)
    refine ⟨io', ?_, by rwa [contents_cons]⟩
    rw [ nsDiskCacheStreamIO.run, List.foldlM_cons, hstep]
    exact hrun

theorem Rest.start (d : nsDiskCacheDevice) (policy : nsCacheStoragePolicy) (generation : UInt8) :
    Rest d policy (start policy generation) [] :=
  { policy := rfl
    closed := rfl
    size := rfl
    fits := Nat.zero_le _
    buffer := Nat.zero_le _
    null := fun _ => rfl
    stored := Or.inr
      ⟨not_separateFile_clear {}, rfl, fun _ hi => (nomatch hi), fun hne => absurd rfl hne⟩ }

/-- An entry has the size of some bytes, and new input streams give these bytes. -/
structure Holds (d : nsDiskCacheDevice) (io : nsDiskCacheStreamIO) (c : List UInt8) : Prop where
  size : io.mDataSize = c.length
  read : ∀ counts, ∃ io', io.read d counts = .ok (c.take counts.sum, io')

/-- What is read is what was written, in every run that keeps what was written. -/
theorem holds_of_careful {d : nsDiskCacheDevice} {policy : nsCacheStoragePolicy}
    {generation : UInt8} {steps : List Step} (h : Along d (Careful d) (start policy generation) steps) :
    ∃ io, (start policy generation).run d steps = .ok io ∧
      io.Holds d (contents (maxSize d) [] steps) := by
  obtain ⟨io, hrun, hrest⟩ := (Rest.start d policy generation).run h
  refine ⟨io, hrun, hrest.size, fun counts => ?_⟩
  obtain ⟨io', hread, -⟩ := hrest.read counts
  exact ⟨io', hread⟩

/-- A device for small entries. -/
def smallDevice : nsDiskCacheDevice where
  mCacheCapacity := 100
  AllocateBlocks _ := ⟨0, rfl⟩
  UpdateRecord _ := true
  fresh _ := 0

theorem holds_of_careful_blocks : ∃ io,
    (start .STORE_ANYWHERE 0).run smallDevice
      [.write 0 [[97, 98], [99]], .rebind, .read [2], .write 2 [[100]]] = .ok io ∧
      io.Holds smallDevice [97, 98, 100] := by
  exact @holds_of_careful smallDevice .STORE_ANYWHERE 0
    [.write 0 [[97, 98], [99]], .rebind, .read [2], .write 2 [[100]]]
    (Along.cons rfl (by decide) (Along.cons rfl trivial (Along.cons rfl trivial
      (Along.cons rfl (by decide) trivial))))

/-- A stream is not opened behind the data. -/
def Inside (io : nsDiskCacheStreamIO) : Step → Prop
  | .write mStartOffset _ => mStartOffset ≤ io.mDataSize
  | .read _ => True
  | .rebind => True

instance (io : nsDiskCacheStreamIO) : DecidablePred io.Inside
  | .write mStartOffset _ => inferInstanceAs (Decidable (mStartOffset ≤ io.mDataSize))
  | .read _ => inferInstanceAs (Decidable True)
  | .rebind => inferInstanceAs (Decidable True)

/-- A file that was opened behind its beginning and not written to stays open where it was, and what
is written at its beginning next goes behind a gap. -/
theorem not_holds_of_inside : ¬∀ steps,
    Along smallDevice Inside (start .STORE_ON_DISK_AS_FILE 0) steps → ∃ io,
      (start .STORE_ON_DISK_AS_FILE 0).run smallDevice steps = .ok io ∧
        io.Holds smallDevice (contents (maxSize smallDevice) [] steps) := by
  intro h
  obtain ⟨io, hrun, hholds⟩ := h [.write 0 [[97, 98]], .write 1 [], .write 0 [[99]]]
    (Along.cons rfl (by decide) (Along.cons rfl (by decide) (Along.cons rfl (by decide) trivial)))
  obtain ⟨io', hread⟩ := hholds.read [2]
  have hsame : ((start .STORE_ON_DISK_AS_FILE 0).run smallDevice
      [.write 0 [[97, 98]], .write 1 [], .write 0 [[99]]]).map
      (fun io => (io.read smallDevice [2]).map (·.1)) = .ok (.ok [0, 99]) := rfl
  rw [hrun, Except.map, hread] at hsame
  have hbytes : ([99] : List UInt8) = [0, 99] := Except.ok.inj (Except.ok.inj hsame)
  exact absurd hbytes (by decide)

end nsDiskCacheStreamIO

end Kompozer.Cache.Streams

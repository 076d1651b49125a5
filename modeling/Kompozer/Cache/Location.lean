import Kompozer.Cache.Map

/-! Where the data of a record lie (`nsDiskCacheMap.h`): in blocks of a block file, or in a separate
file of a generation. -/

namespace Kompozer.Cache

def eLocationInitializedMask : UInt32 := 0x80000000
def eLocationSelectorMask : UInt32 := 0x30000000
def eLocationSelectorOffset : UInt32 := 28
def eExtraBlocksMask : UInt32 := 0x03000000
def eExtraBlocksOffset : UInt32 := 24
def eBlockNumberMask : UInt32 := 0x00FFFFFF
def eFileSizeMask : UInt32 := 0x00FFFF00
def eFileSizeOffset : UInt32 := 8
def eFileGenerationMask : UInt32 := 0x000000FF

def BLOCK_SIZE_FOR_INDEX (index : UInt32) : UInt32 :=
  if index = 0 then 0 else 256 <<< (2 * (index - 1))

namespace Record

def DataLocationInitialized (r : Record) : Bool :=
  r.mDataLocation &&& eLocationInitializedMask != 0

def ClearDataLocation (r : Record) : Record := { r with mDataLocation := 0 }

def DataFile (r : Record) : UInt32 :=
  (r.mDataLocation &&& eLocationSelectorMask) >>> eLocationSelectorOffset

def SetDataBlocks (r : Record) (index startBlock blockCount : UInt32) : Record :=
  { r with mDataLocation := (index <<< eLocationSelectorOffset) &&& eLocationSelectorMask |||
      startBlock &&& eBlockNumberMask |||
      ((blockCount - 1) <<< eExtraBlocksOffset) &&& eExtraBlocksMask |||
      eLocationInitializedMask }

def DataBlockCount (r : Record) : UInt32 :=
  ((r.mDataLocation &&& eExtraBlocksMask) >>> eExtraBlocksOffset) + 1

def DataStartBlock (r : Record) : UInt32 := r.mDataLocation &&& eBlockNumberMask

def DataBlockSize (r : Record) : UInt32 := BLOCK_SIZE_FOR_INDEX r.DataFile

def DataFileSize (r : Record) : UInt32 := (r.mDataLocation &&& eFileSizeMask) >>> eFileSizeOffset

def SetDataFileSize (r : Record) (size : UInt32) : Record :=
  { r with mDataLocation := r.mDataLocation &&& ~~~eFileSizeMask |||
      (size <<< eFileSizeOffset) &&& eFileSizeMask }

def DataFileGeneration (r : Record) : UInt8 := (r.mDataLocation &&& eFileGenerationMask).toUInt8

def SetDataFileGeneration (r : Record) (generation : UInt8) : Record :=
  { r with mDataLocation := generation.toUInt32 &&& eFileGenerationMask |||
      eLocationInitializedMask }

def MetaLocationInitialized (r : Record) : Bool :=
  r.mMetaLocation &&& eLocationInitializedMask != 0

def MetaFile (r : Record) : UInt32 :=
  (r.mMetaLocation &&& eLocationSelectorMask) >>> eLocationSelectorOffset

def MetaFileGeneration (r : Record) : UInt8 := (r.mMetaLocation &&& eFileGenerationMask).toUInt8

def Generation (r : Record) : UInt8 :=
  if r.DataLocationInitialized && r.DataFile = 0 then r.DataFileGeneration
  else if r.MetaLocationInitialized && r.MetaFile = 0 then r.MetaFileGeneration
  else 0

/-- The data are in a separate file. -/
def SeparateFile (r : Record) : Prop := r.DataLocationInitialized = true ∧ r.DataFile = 0

instance : DecidablePred SeparateFile := fun r =>
  inferInstanceAs (Decidable (r.DataLocationInitialized = true ∧ r.DataFile = 0))

/-! ### What is read back -/

theorem masked_or (a b m : UInt32) : (a ||| b) &&& m = a &&& m ||| b &&& m :=
  UInt32.toBitVec_inj.mp BitVec.and_or_distrib_right

/-- A field of a location is not seen through the mask of another. -/
theorem masked_apart (a : UInt32) {m m' : UInt32} (h : m &&& m' = 0) : a &&& m &&& m' = 0 := by
  rw [UInt32.and_assoc, h, UInt32.and_zero]

theorem masked_within (a : UInt32) {m m' : UInt32} (h : m &&& m' = m') : a &&& m &&& m' = a &&& m' := by
  rw [UInt32.and_assoc, h]

/-- A field of two bits. -/
theorem toNat_two_bits (a m : UInt32) {k : UInt32} (h : m.toNat / 2 ^ (k.toNat % 32) = 3) :
    ((a &&& m) >>> k).toNat ≤ 3 := by
  rw [UInt32.toNat_shiftRight, UInt32.toNat_and, Nat.shiftRight_eq_div_pow, ← h]
  exact Nat.div_le_div_right Nat.and_le_right

theorem toNat_dataFile (r : Record) : r.DataFile.toNat ≤ 3 := toNat_two_bits _ _ (by decide)

theorem toNat_dataBlockCount (r : Record) :
    1 ≤ r.DataBlockCount.toNat ∧ r.DataBlockCount.toNat ≤ 4 := by
  have h := toNat_two_bits r.mDataLocation eExtraBlocksMask (k := eExtraBlocksOffset) (by decide)
  rw [DataBlockCount, UInt32.toNat_add]
  simp only [UInt32.toNat_one]
  omega

/-- One of the numbers that fit in two bits. -/
theorem eq_of_toNat_le {x : UInt32} (h : x.toNat ≤ 3) : x = 0 ∨ x = 1 ∨ x = 2 ∨ x = 3 := by
  simp only [← UInt32.toNat_inj]
  simp only [UInt32.toNat_zero, UInt32.toNat_one, UInt32.reduceToNat]
  omega

variable (r : Record)

section Blocks
variable {index startBlock blockCount : UInt32}

theorem dataLocationInitialized_setDataBlocks :
    (r.SetDataBlocks index startBlock blockCount).DataLocationInitialized = true := by
  simp only [DataLocationInitialized, SetDataBlocks, masked_or]
  rw [masked_apart _ (by decide), masked_apart _ (by decide), masked_apart _ (by decide)]
  decide

theorem dataFile_setDataBlocks (h : index.toNat ≤ 3) :
    (r.SetDataBlocks index startBlock blockCount).DataFile = index := by
  simp only [DataFile, SetDataBlocks, masked_or]
  rw [masked_within _ (by decide), masked_apart _ (by decide), masked_apart _ (by decide),
    show eLocationInitializedMask &&& eLocationSelectorMask = 0 by decide]
  rcases eq_of_toNat_le h with h | h | h | h <;> rw [h] <;> decide

theorem dataBlockCount_setDataBlocks (h : (blockCount - 1).toNat ≤ 3) :
    (r.SetDataBlocks index startBlock blockCount).DataBlockCount = blockCount := by
  simp only [DataBlockCount, SetDataBlocks, masked_or]
  rw [masked_apart _ (by decide), masked_apart _ (by decide), masked_within _ (by decide),
    show eLocationInitializedMask &&& eExtraBlocksMask = 0 by decide]
  have hcount : blockCount = blockCount - 1 + 1 := (UInt32.sub_add_cancel _ _).symm
  rcases eq_of_toNat_le h with h | h | h | h <;> rw [hcount, h] <;> decide

theorem dataStartBlock_setDataBlocks (h : startBlock &&& eBlockNumberMask = startBlock) :
    (r.SetDataBlocks index startBlock blockCount).DataStartBlock = startBlock := by
  simp only [DataStartBlock, SetDataBlocks, masked_or]
  rw [masked_apart _ (by decide), masked_within _ (by decide), masked_apart _ (by decide),
    show eLocationInitializedMask &&& eBlockNumberMask = 0 by decide, h]
  simp

end Blocks

variable {r} in
theorem SeparateFile.generation_eq (h : r.SeparateFile) : r.Generation = r.DataFileGeneration := by
  rw [Generation, h.1, h.2]
  simp

theorem separateFile_setDataFileGeneration (generation : UInt8) :
    (r.SetDataFileGeneration generation).SeparateFile := by
  simp only [SeparateFile, DataLocationInitialized, DataFile, SetDataFileGeneration, masked_or]
  rw [masked_apart _ (by decide), masked_apart _ (by decide)]
  decide

theorem generation_setDataFileGeneration (generation : UInt8) :
    (r.SetDataFileGeneration generation).Generation = generation := by
  have hbits : generation.toUInt32 &&& eFileGenerationMask = generation.toUInt32 := by
    rw [← UInt32.toNat_inj, UInt32.toNat_and, UInt8.toNat_toUInt32]
    exact (Nat.and_two_pow_sub_one_eq_mod _ 8).trans (Nat.mod_eq_of_lt generation.toNat_lt)
  rw [(separateFile_setDataFileGeneration r generation).generation_eq]
  simp only [DataFileGeneration, SetDataFileGeneration, masked_or]
  rw [hbits, hbits, show eLocationInitializedMask &&& eFileGenerationMask = 0 by decide]
  simp

/-- The size of the file lies apart from the other fields. -/
theorem setDataFileSize_masked (size : UInt32) {m : UInt32} (h : eFileSizeMask &&& m = 0)
    (hrest : ~~~eFileSizeMask &&& m = m) :
    (r.SetDataFileSize size).mDataLocation &&& m = r.mDataLocation &&& m := by
  simp only [SetDataFileSize, masked_or]
  rw [masked_within _ hrest, masked_apart _ h, UInt32.or_zero]

@[simp] theorem separateFile_setDataFileSize (size : UInt32) :
    (r.SetDataFileSize size).SeparateFile ↔ r.SeparateFile := by
  simp only [SeparateFile, DataLocationInitialized, DataFile]
  rw [setDataFileSize_masked r size (by decide) (by decide),
    setDataFileSize_masked r size (by decide) (by decide)]

theorem generation_setDataFileSize (size : UInt32) (h : r.SeparateFile) :
    (r.SetDataFileSize size).Generation = r.Generation := by
  rw [h.generation_eq, ((separateFile_setDataFileSize r size).mpr h).generation_eq,
    DataFileGeneration, DataFileGeneration, setDataFileSize_masked r size (by decide) (by decide)]

end Record

end Kompozer.Cache

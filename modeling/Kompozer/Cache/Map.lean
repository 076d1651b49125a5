import Kompozer.Xpcom
import Mathlib

/-! The map of the disk cache (`nsDiskCacheMap.cpp`): records in buckets that lie one behind the
other in an array. Every access to the array is checked: a function has no result if it reads
or writes behind the end. -/

namespace Kompozer.Cache

open NsResult

def kBuckets : ℕ := 32
def kMinRecordCount : ℕ := 512
def kMaxRecordCount : ℕ := 8192

/-- `nsDiskCacheRecord`. -/
structure Record where
  mHashNumber : UInt32 := 0
  mEvictionRank : UInt32 := 0
  mDataLocation : UInt32 := 0
  mMetaLocation : UInt32 := 0
  deriving DecidableEq, Repr

/-- `SetHashNumber`. -/
def Record.SetHashNumber (r : Record) (hashNumber : UInt32) : Record :=
  { r with mHashNumber := hashNumber }

@[simp] theorem Record.mHashNumber_SetHashNumber (r : Record) (h : UInt32) :
    (r.SetHashNumber h).mHashNumber = h := rfl

/-- `nsDiskCacheMap` with its header. The array is the memory from the pointer on. -/
structure CacheMap where
  mRecordArray : ℕ → Record
  mRecordCount : ℕ
  mEntryCount : ℤ := 0
  mEvictionRank : Fin kBuckets → UInt32 := fun _ => 0
  mBucketUsage : Fin kBuckets → ℕ := fun _ => 0

/-- What `PR_REALLOC` returns: nothing, or the array with new memory behind it. -/
abbrev Realloc := Option (ℕ → Record)

/-- A visitor answers to a record. -/
inductive VisitResult
  | kDeleteRecordAndContinue
  | kStopVisitingRecords
  | kVisitNextRecord
  deriving DecidableEq, Repr

/-- `memmove` inside an array of a size. -/
def memmove (size : ℕ) (a : ℕ → Record) (dst src n : ℕ) : Option (ℕ → Record) :=
  if n = 0 then some a
  else if dst + n ≤ size ∧ src + n ≤ size then
    some fun k => if dst ≤ k ∧ k < dst + n then a (src + (k - dst)) else a k
  else none

/-- `nsDiskCache::Hash`, which does not return zero. -/
def Hash (key : List UInt8) : UInt32 :=
  let h : UInt32 := (key.takeWhile (· ≠ 0)).foldl
    (fun (h : UInt32) (c : UInt8) => (h >>> 28) ^^^ (h <<< 4) ^^^ c.toUInt32) 0
  if h = 0 then 0xFFFFFFFF else h

theorem Hash_ne_zero (key : List UInt8) : Hash key ≠ 0 := by
  rw [Hash]
  split_ifs with h
  · decide
  · exact h

/-- `GetBucketIndex`. -/
def GetBucketIndex (hashNumber : UInt32) : Fin kBuckets :=
  ⟨hashNumber.toNat % kBuckets, Nat.mod_lt _ (by decide)⟩

namespace CacheMap

variable (m : CacheMap)

/-- A map that has just been created. -/
def empty : CacheMap := { mRecordArray := fun _ => {}, mRecordCount := kMinRecordCount }

/-- `GetRecordsPerBucket`. -/
def GetRecordsPerBucket : ℕ := m.mRecordCount / kBuckets

/-- `GetFirstRecordInBucket`, as an index. -/
def GetFirstRecordInBucket (bucket : Fin kBuckets) : ℕ := bucket * m.GetRecordsPerBucket

/-- A record is read. -/
def read (k : ℕ) : Option Record := if k < m.mRecordCount then some (m.mRecordArray k) else none

/-- A record is written. -/
def write (k : ℕ) (r : Record) : Option CacheMap :=
  if k < m.mRecordCount then some { m with mRecordArray := Function.update m.mRecordArray k r }
  else none

/-- The loop of `GetBucketRank`. -/
def rankFrom (base : ℕ) (targetRank : UInt32) : ℕ → UInt32 → Option UInt32
  | 0, rank => some rank
  | i + 1, rank => do
    let r ← m.read (base + i)
    rankFrom base targetRank i
      (if rank < r.mEvictionRank ∧ (targetRank = 0 ∨ r.mEvictionRank < targetRank) then
        r.mEvictionRank else rank)

/-- `GetBucketRank`. -/
def GetBucketRank (bucketIndex : Fin kBuckets) (targetRank : UInt32) : Option UInt32 :=
  m.rankFrom (m.GetFirstRecordInBucket bucketIndex) targetRank (m.mBucketUsage bucketIndex) 0

/-- The rank of a bucket in the header is computed again. -/
def updateRank (bucketIndex : Fin kBuckets) : Option CacheMap := do
  let rank ← m.GetBucketRank bucketIndex 0
  return { m with mEvictionRank := Function.update m.mEvictionRank bucketIndex rank }

/-- The rank of a bucket in the header grows to that of a record. -/
def raiseRank (bucketIndex : Fin kBuckets) (rank : UInt32) : CacheMap :=
  if m.mEvictionRank bucketIndex < rank then
    { m with mEvictionRank := Function.update m.mEvictionRank bucketIndex rank }
  else m

/-- Slots from one place on are cleared. -/
def clearFrom (a : ℕ → Record) (lo hi : ℕ) : ℕ → Record :=
  fun k => if lo ≤ k ∧ k < hi then (a k).SetHashNumber 0 else a k

/-- The loop of `GrowRecords` over the buckets from the back. -/
def spreadBuckets (newCount oldPer newPer : ℕ) : ℕ → (ℕ → Record) → Option (ℕ → Record)
  | 0, a => some a
  | k + 1, a => do
    let count := if h : k < kBuckets then m.mBucketUsage ⟨k, h⟩ else 0
    let a ← memmove newCount a (k * newPer) (k * oldPer) count
    if newPer ≤ count ∨ k * newPer + newPer ≤ newCount then
      spreadBuckets newCount oldPer newPer k
        (clearFrom a (k * newPer + count) (k * newPer + newPer))
    else none

/-- `GrowRecords`. -/
def GrowRecords (realloc : Realloc) : Option (NsResult × CacheMap) :=
  if kMaxRecordCount ≤ m.mRecordCount then some (.ok, m)
  else
    let newCount := min (m.mRecordCount * 2) kMaxRecordCount
    match realloc with
    | none => some (NS_ERROR_OUT_OF_MEMORY, m)
    | some fresh => do
      let a ← m.spreadBuckets newCount m.GetRecordsPerBucket (newCount / kBuckets) kBuckets
        fun k => if k < m.mRecordCount then m.mRecordArray k else fresh k
      return (.ok, { m with mRecordArray := a, mRecordCount := newCount })

/-- The loop of `ShrinkRecords` that halves the size of the buckets. -/
def halve (maxUsage : ℕ) : ℕ → ℕ → ℕ
  | 0, n => n
  | fuel + 1, n => if maxUsage < n / 2 then halve maxUsage fuel (n / 2) else n

/-- The loop of `ShrinkRecords` over the buckets, of which some are left. -/
def closeBuckets (oldPer newPer : ℕ) : ℕ → (ℕ → Record) → Option (ℕ → Record)
  | 0, a => some a
  | k + 1, a => do
    let b := kBuckets - (k + 1)
    let count := if h : b < kBuckets then m.mBucketUsage ⟨b, h⟩ else 0
    let a ← memmove m.mRecordCount a (b * newPer) (b * oldPer) count
    closeBuckets oldPer newPer k a

/-- `ShrinkRecords`. A bucket is compared with the least size of the whole array. -/
def ShrinkRecords (realloc : Realloc) : Option (NsResult × CacheMap) :=
  if m.mRecordCount ≤ kMinRecordCount then some (.ok, m)
  else
    let maxUsage := Finset.univ.sup m.mBucketUsage
    let oldPer := m.GetRecordsPerBucket
    let halved := halve maxUsage oldPer oldPer
    let newPer := if halved < kMinRecordCount then kMinRecordCount else halved
    if newPer = oldPer then some (.ok, m)
    else do
      let a ← m.closeBuckets oldPer newPer kBuckets m.mRecordArray
      match realloc with
      | none => return (NS_ERROR_OUT_OF_MEMORY, { m with mRecordArray := a })
      | some fresh =>
        return (.ok, { m with
          mRecordArray := fun k => if k < m.mRecordCount then a k else fresh k
          mRecordCount := newPer * kBuckets })

/-- The loop of `AddRecord` for the record with the highest rank. -/
def mostFrom (base : ℕ) : ℕ → ℕ → Option ℕ
  | 0, most => some most
  | i + 1, most => do
    let r ← m.read (base + (i + 1))
    let s ← m.read (base + most)
    mostFrom base i (if s.mEvictionRank < r.mEvictionRank then i + 1 else most)

/-- The end of `AddRecord` when there is room in the bucket. -/
def appendRecord (mapRecord : Record) (bucketIndex : Fin kBuckets) : Option CacheMap := do
  let count := m.mBucketUsage bucketIndex
  let m ← m.write (m.GetFirstRecordInBucket bucketIndex + count) mapRecord
  return { m with
    mEntryCount := m.mEntryCount + 1
    mBucketUsage := Function.update m.mBucketUsage bucketIndex (count + 1) }.raiseRank bucketIndex
      mapRecord.mEvictionRank

/-- The end of `AddRecord` when the bucket is full. -/
def replaceRecord (mapRecord : Record) (bucketIndex : Fin kBuckets) :
    Option (CacheMap × Record) := do
  let base := m.GetFirstRecordInBucket bucketIndex
  let most ← m.mostFrom base (m.mBucketUsage bucketIndex - 1) 0
  let oldRecord ← m.read (base + most)
  let m ← m.write (base + most) mapRecord
  let m := m.raiseRank bucketIndex mapRecord.mEvictionRank
  if m.mEvictionRank bucketIndex ≤ oldRecord.mEvictionRank then do
    let m ← m.updateRank bucketIndex
    return (m, oldRecord)
  else return (m, oldRecord)

/-- `AddRecord`. The old record has the hash number zero if there is none. -/
def AddRecord (mapRecord oldRecord : Record) (realloc : Realloc) :
    Option (NsResult × CacheMap × Record) := do
  let bucketIndex := GetBucketIndex mapRecord.mHashNumber
  let count := m.mBucketUsage bucketIndex
  let m ← if count = m.GetRecordsPerBucket then (m.GrowRecords realloc).map (·.2) else some m
  if count < m.GetRecordsPerBucket then do
    let m ← m.appendRecord mapRecord bucketIndex
    return (.ok, m, oldRecord.SetHashNumber 0)
  else do
    let (m, old) ← m.replaceRecord mapRecord bucketIndex
    return (.ok, m, old)

/-- The loops that look for a hash number, from the back. -/
def findFrom (base : ℕ) (hashNumber : UInt32) : ℕ → Option (Option ℕ)
  | 0 => some none
  | i + 1 => do
    let r ← m.read (base + i)
    if r.mHashNumber = hashNumber then some (some i) else findFrom base hashNumber i

/-- The place of a hash number in its bucket. -/
def findIndex (hashNumber : UInt32) : Option (Option ℕ) :=
  m.findFrom (m.GetFirstRecordInBucket (GetBucketIndex hashNumber)) hashNumber
    (m.mBucketUsage (GetBucketIndex hashNumber))

/-- `UpdateRecord`. -/
def UpdateRecord (mapRecord : Record) : Option (NsResult × CacheMap) := do
  let bucketIndex := GetBucketIndex mapRecord.mHashNumber
  let base := m.GetFirstRecordInBucket bucketIndex
  match ← m.findIndex mapRecord.mHashNumber with
  | none => return (NS_ERROR_UNEXPECTED, m)
  | some i => do
    let r ← m.read (base + i)
    let m ← m.write (base + i) mapRecord
    if m.mEvictionRank bucketIndex < mapRecord.mEvictionRank then
      return (.ok, m.raiseRank bucketIndex mapRecord.mEvictionRank)
    else if m.mEvictionRank bucketIndex = r.mEvictionRank then do
      let m ← m.updateRank bucketIndex
      return (.ok, m)
    else return (.ok, m)

/-- `FindRecord`. -/
def FindRecord (hashNumber : UInt32) : Option (NsResult × Option Record) := do
  match ← m.findIndex hashNumber with
  | none => return (NS_ERROR_CACHE_KEY_NOT_FOUND, none)
  | some i => do
    let r ← m.read (m.GetFirstRecordInBucket (GetBucketIndex hashNumber) + i)
    return (.ok, some r)

/-- The last record of a bucket is moved into an opening. -/
def closeOpening (base i last : ℕ) : Option CacheMap := do
  let r ← m.read (base + last)
  let m ← m.write (base + i) r
  let r ← m.read (base + last)
  m.write (base + last) (r.SetHashNumber 0)

/-- `DeleteRecord`. -/
def DeleteRecord (mapRecord : Record) : Option (NsResult × CacheMap) := do
  let bucketIndex := GetBucketIndex mapRecord.mHashNumber
  let base := m.GetFirstRecordInBucket bucketIndex
  let last := m.mBucketUsage bucketIndex - 1
  match ← m.findIndex mapRecord.mHashNumber with
  | none => return (NS_ERROR_UNEXPECTED, m)
  | some i => do
    let r ← m.read (base + i)
    let m ← m.closeOpening base i last
    let m : CacheMap := { m with
      mBucketUsage := Function.update m.mBucketUsage bucketIndex last
      mEntryCount := m.mEntryCount - 1 }
    if m.mEvictionRank bucketIndex ≤ r.mEvictionRank then do
      let m ← m.updateRank bucketIndex
      return (.ok, m)
    else return (.ok, m)

variable {σ : Type}

/-- The loop of `VisitEachRecord` from the back, with the number of records that are left. -/
def visitFrom (visitor : σ → Record → VisitResult × σ) (base : ℕ) (evictionRank : UInt32) :
    ℕ → CacheMap → ℕ → VisitResult → σ → Option (CacheMap × ℕ × VisitResult × σ)
  | 0, m, count, rv, s => some (m, count, rv, s)
  | i + 1, m, count, rv, s => do
    let r ← m.read (base + i)
    if r.mEvictionRank < evictionRank then visitFrom visitor base evictionRank i m count rv s
    else
      match visitor s r with
      | (.kStopVisitingRecords, s) => return (m, count, .kStopVisitingRecords, s)
      | (.kDeleteRecordAndContinue, s) => do
        let m ← m.closeOpening base i (count - 1)
        visitFrom visitor base evictionRank i m (count - 1) .kDeleteRecordAndContinue s
      | (.kVisitNextRecord, s) =>
        visitFrom visitor base evictionRank i m count .kVisitNextRecord s

/-- `VisitEachRecord`. -/
def VisitEachRecord (visitor : σ → Record → VisitResult × σ) (bucketIndex : Fin kBuckets)
    (evictionRank : UInt32) (s : σ) : Option (CacheMap × VisitResult × σ) := do
  let (m, count, rv, s) ← visitFrom visitor (m.GetFirstRecordInBucket bucketIndex) evictionRank
    (m.mBucketUsage bucketIndex) m (m.mBucketUsage bucketIndex) .kVisitNextRecord s
  if m.mBucketUsage bucketIndex - count ≠ 0 then do
    let m : CacheMap := { m with
      mEntryCount := m.mEntryCount - (m.mBucketUsage bucketIndex - count : ℕ)
      mBucketUsage := Function.update m.mBucketUsage bucketIndex count }
    let m ← m.updateRank bucketIndex
    return (m, rv, s)
  else return (m, rv, s)

/-- The loop of `VisitRecords`, with the buckets that are left. -/
def visitBuckets (visitor : σ → Record → VisitResult × σ) :
    List (Fin kBuckets) → CacheMap → σ → Option (CacheMap × σ)
  | [], m, s => some (m, s)
  | b :: rest, m, s => do
    let (m, rv, s) ← m.VisitEachRecord visitor b 0 s
    if rv = .kStopVisitingRecords then return (m, s) else visitBuckets visitor rest m s

/-- `VisitRecords`. -/
def VisitRecords (visitor : σ → Record → VisitResult × σ) (s : σ) : Option (CacheMap × σ) :=
  visitBuckets visitor (List.finRange kBuckets) m s

end CacheMap

end Kompozer.Cache

import Kompozer.Cache.Visits

/-! The map over a whole run of calls. It holds what was added and neither deleted nor reported as
evicted, and no call leaves the array, as long as no map that has grown is trimmed. -/

namespace Kompozer.Cache

open NsResult

namespace CacheMap

/-! ### Calls -/

/-- The operations on a map. -/
inductive Call : Type 1
  | AddRecord (mapRecord oldRecord : Record) (realloc : Realloc)
  | UpdateRecord (mapRecord : Record)
  | FindRecord (hashNumber : UInt32)
  | DeleteRecord (mapRecord : Record)
  | VisitRecords (σ : Type) (visitor : σ → Record → VisitResult × σ) (s : σ)
  | GrowRecords (realloc : Realloc)
  | ShrinkRecords (realloc : Realloc)

/-- A record is added under a hash number that is not there, which some key has. -/
def Call.Allowed (a : Contents) : Call → Prop
  | .AddRecord r _ _ => a r.mHashNumber = none ∧ ∃ key, r.mHashNumber = Hash key
  | _ => True

/-- A map is trimmed only at its least size. -/
def Call.Fits (m : CacheMap) : Call → Prop
  | .ShrinkRecords _ => m.mRecordCount ≤ kMinRecordCount
  | _ => True

/-- A call, and what its answers say about the contents. -/
def Call.run : Call → CacheMap → Contents → Option (CacheMap × Contents)
  | .AddRecord r oldRecord realloc, m, a => do
    let (_, m, old) ← m.AddRecord r oldRecord realloc
    return (m, (if old.mHashNumber = 0 then a else a.remove old.mHashNumber).put r)
  | .UpdateRecord r, m, a => do
    let (rv, m) ← m.UpdateRecord r
    return (m, if rv.failed then a else a.put r)
  | .FindRecord h, m, a => do
    let _ ← m.FindRecord h
    return (m, a)
  | .DeleteRecord r, m, a => do
    let (rv, m) ← m.DeleteRecord r
    return (m, if rv.failed then a else a.remove r.mHashNumber)
  | .VisitRecords _ visitor s, m, a => do
    let (m, _, a) ← m.VisitRecords (noting visitor) (s, a)
    return (m, a)
  | .GrowRecords realloc, m, a => do
    let (_, m) ← m.GrowRecords realloc
    return (m, a)
  | .ShrinkRecords realloc, m, a => do
    let (_, m) ← m.ShrinkRecords realloc
    return (m, a)

/-- The maps and contents that calls lead to. -/
inductive Run (ok : CacheMap → Call → Prop) : CacheMap → Contents → Prop
  | start : Run ok empty fun _ => none
  | call {m m' a a'} (c : Call) : Run ok m a → c.Allowed a → ok m c → c.run m a = some (m', a') →
    Run ok m' a'

/-- The map holds exactly the contents, its header is right, and no call leaves the array. -/
structure Exact (ok : CacheMap → Call → Prop) (m : CacheMap) (a : Contents) : Prop where
  holds : ∀ r, (∃ b, ∃ i < m.mBucketUsage b, m.slots b i = r) ↔ a r.mHashNumber = some r
  finds : ∀ h, m.FindRecord h = some (match a h with
    | some r => (.ok, some r)
    | none => (NS_ERROR_CACHE_KEY_NOT_FOUND, none))
  entries : m.mEntryCount = ∑ b, (m.mBucketUsage b : ℤ)
  usage_le : ∀ b, m.mBucketUsage b ≤ m.GetRecordsPerBucket
  unused : ∀ b i, m.mBucketUsage b ≤ i → i < m.GetRecordsPerBucket →
    (m.slots b i).mHashNumber = 0
  rank : ∀ b, IsTop 0 Record.mEvictionRank (m.slots b) (m.mBucketUsage b) (m.mEvictionRank b)
  inside : ∀ c : Call, c.Allowed a → ok m c → (c.run m a).isSome

/-! ### Runs -/

variable {m m' : CacheMap} {a a' : Contents}

theorem represents_empty : Represents empty fun _ => none := by
  have hnone : ∀ b : Fin kBuckets, ∀ r, ¬InSlots (empty.slots b) (empty.mBucketUsage b) r :=
    fun _ _ => inSlots_zero
  refine ⟨⟨by decide, ?_, fun _ => IsTop.zero, by rfl⟩, ?_⟩
  · intro b
    exact ⟨Nat.zero_le _, fun _ _ _ => rfl, fun r hr => absurd hr (hnone b r), Keyed.zero⟩
  · intro b h _ r
    constructor
    · intro hr
      cases hr
    · rintro ⟨-, hr⟩
      exact absurd hr (hnone b r)

/-- At its least size a map is not trimmed. -/
theorem ShrinkRecords_of_le (h : m.mRecordCount ≤ kMinRecordCount) (realloc : Realloc) :
    m.ShrinkRecords realloc = some (.ok, m) :=
  if_pos h

/-- A call on a good map has a result, and the map is good again. -/
theorem Represents.run (hm : Represents m a) (c : Call) (hc : c.Allowed a) (hok : c.Fits m) :
    ∃ m' a', c.run m a = some (m', a') ∧ Represents m' a' := by
  cases c with
  | AddRecord r oldRecord realloc =>
    obtain ⟨hnew, key, hkey⟩ := hc
    have h0 : r.mHashNumber ≠ 0 := by
      rw [hkey]
      exact Hash_ne_zero key
    obtain ⟨m', old, hrun, ⟨hold, hrep⟩ | ⟨hold, -, hrep⟩⟩ :=
      hm.AddRecord h0 hnew oldRecord realloc
    · exact ⟨m', _, by simp [Call.run, hrun, hold], hrep⟩
    · exact ⟨m', _, by simp [Call.run, hrun, hold], hrep⟩
  | UpdateRecord r =>
    rcases hm.UpdateRecord r with ⟨m', hrun, -, hrep⟩ | ⟨hrun, -⟩
    · exact ⟨m', _, by simp [Call.run, hrun], hrep⟩
    · exact ⟨m, a, by simp [Call.run, hrun, NS_ERROR_UNEXPECTED], hm⟩
  | FindRecord h =>
    exact ⟨m, a, by simp [Call.run, hm.FindRecord h], hm⟩
  | DeleteRecord r =>
    rcases hm.DeleteRecord r with ⟨m', hrun, -, hrep⟩ | ⟨hrun, -⟩
    · exact ⟨m', _, by simp [Call.run, hrun], hrep⟩
    · exact ⟨m, a, by simp [Call.run, hrun, NS_ERROR_UNEXPECTED], hm⟩
  | VisitRecords σ visitor s =>
    obtain ⟨m', s', a', hrun, hrep⟩ := hm.VisitRecords visitor s
    exact ⟨m', a', by simp [Call.run, hrun], hrep⟩
  | GrowRecords realloc =>
    obtain ⟨rv, m', hrun, hrep, -⟩ := hm.GrowRecords realloc
    exact ⟨m', a, by simp [Call.run, hrun], hrep⟩
  | ShrinkRecords realloc =>
    exact ⟨m, a, by simp [Call.run, ShrinkRecords_of_le hok], hm⟩

theorem Run.represents (h : Run (fun m c => c.Fits m) m a) : Represents m a := by
  induction h with
  | start => exact represents_empty
  | call c _ hc hok hrun ih =>
    obtain ⟨m', a', hrun', hrep⟩ := ih.run c hc hok
    rw [hrun, Option.some.injEq, Prod.mk.injEq] at hrun'
    rwa [hrun'.1, hrun'.2]

/-- In a run that trims the map at its least size only, it refines the finite map. -/
theorem map_exact (h : Run (fun m c => c.Fits m) m a) : Exact (fun m c => c.Fits m) m a := by
  have hm := h.represents
  constructor
  · intro r
    constructor
    · rintro ⟨b, hr⟩
      have hb := ((hm.bucket b).home r hr).2
      exact (hm.lists b _ hb r).mpr ⟨rfl, hr⟩
    · intro hr
      exact ⟨_, ((hm.lists _ _ rfl r).mp hr).2⟩
  · exact hm.FindRecord
  · exact hm.entries
  · exact fun b => (hm.bucket b).usage_le
  · exact fun b => (hm.bucket b).unused
  · exact hm.rank
  · intro c hc hok
    obtain ⟨m', a', hrun, -⟩ := hm.run c hc hok
    rw [hrun]
    rfl

/-! ### Keys that are added one after another -/

/-- A record for each key is added, if its hash number is not there. -/
def addAll : List (List UInt8) → CacheMap → Contents → Option (CacheMap × Contents)
  | [], m, a => some (m, a)
  | key :: keys, m, a =>
    if a (Hash key) = none then do
      let (m, a) ← (Call.AddRecord { mHashNumber := Hash key } {} (some fun _ => {})).run m a
      addAll keys m a
    else none

theorem Run.addAll {ok : CacheMap → Call → Prop} {keys : List (List UInt8)}
    (hok : ∀ m r old realloc, ok m (.AddRecord r old realloc)) (h : Run ok m a)
    (hrun : CacheMap.addAll keys m a = some (m', a')) : Run ok m' a' := by
  induction keys generalizing m a with
  | nil =>
    cases hrun
    exact h
  | cons key keys ih =>
    rw [CacheMap.addAll] at hrun
    split_ifs at hrun with hnew
    obtain ⟨⟨m₁, a₁⟩, hfirst, hrest⟩ := Option.bind_eq_some_iff.mp hrun
    exact ih (h.call (.AddRecord _ _ _) ⟨hnew, key, rfl⟩ (hok ..) hfirst) hrest

/-- Seventeen keys of one bucket. -/
def crowd : List (List UInt8) := (List.range 17).map fun i => [65 + 2 * UInt8.ofNat i, 97]

theorem map_exact_crowd :
    ∃ m a, m.mEntryCount = 17 ∧ Exact (fun m c => c.Fits m) m a := by
  have hrun : ((CacheMap.addAll crowd empty fun _ => none).map fun x => x.1.mEntryCount) =
      some 17 := by
    decide +kernel
  obtain ⟨x, hadd, hx⟩ := Option.map_eq_some_iff.mp hrun
  exact ⟨x.1, x.2, hx, map_exact (Run.start.addAll (fun _ _ _ _ => trivial) hadd)⟩

/-- A map that has grown for a crowded bucket writes behind its array when it is trimmed. -/
theorem trimmed_outside : ∃ m a, Run (fun _ _ => True) m a ∧
    ¬Exact (fun _ _ => True) m a := by
  have hrun : ((CacheMap.addAll crowd empty fun _ => none).any fun x =>
      (x.1.ShrinkRecords (some fun _ => {})).isNone) = true := by
    decide +kernel
  cases hadd : CacheMap.addAll crowd empty fun _ => none with
  | none =>
    rw [hadd] at hrun
    cases hrun
  | some x =>
    rw [hadd] at hrun
    refine ⟨x.1, x.2, Run.start.addAll (fun _ _ _ _ => trivial) hadd, fun h => ?_⟩
    have hshrink := h.inside (.ShrinkRecords (some fun _ => {})) trivial trivial
    have hnone : x.1.ShrinkRecords (some fun _ => {}) = none := by simpa using hrun
    simp [Call.run, hnone] at hshrink

end CacheMap

end Kompozer.Cache

import Kompozer.Cache.Growth

/-! Visiting the records of a map, with the records that the visitor wants deleted taken out of
the contents. -/

namespace Kompozer.Cache

open NsResult

namespace CacheMap

variable {σ : Type} {m m₀ : CacheMap} {a a₀ : Contents} {b : Fin kBuckets} {n count : ℕ}

/-- A visitor that also takes out of the contents what it wants deleted. -/
def noting (visitor : σ → Record → VisitResult × σ) (x : σ × Contents) (r : Record) :
    VisitResult × σ × Contents :=
  let (answer, s) := visitor x.1 r
  (answer, s, if answer = .kDeleteRecordAndContinue then x.2.remove r.mHashNumber else x.2)

variable (m) in
/-- A bucket is as full as a count says. -/
def setUsage (b : Fin kBuckets) (count : ℕ) : CacheMap :=
  { m with
    mEntryCount := m.mEntryCount - ((m.mBucketUsage b : ℤ) - count)
    mBucketUsage := Function.update m.mBucketUsage b count }

theorem setUsage_self : m.setUsage b (m.mBucketUsage b) = m := by
  rw [setUsage, sub_self, sub_zero, Function.update_eq_self]

variable (visitor : σ → Record → VisitResult × σ)

/-- The loop keeps a good bucket of the records that are left. -/
theorem visitFrom_spec (evictionRank : UInt32)
    (hp : Pending b m₀ a₀ (m.setUsage b count) a) (hn : n ≤ count) (rv : VisitResult) (s : σ) :
    ∃ m' count' rv' s' a', visitFrom (noting visitor) (m.GetFirstRecordInBucket b) evictionRank
        n m count rv (s, a) = some (m', count', rv', s', a') ∧
      Pending b m₀ a₀ (m'.setUsage b count') a' ∧ m'.mBucketUsage = m.mBucketUsage ∧
      count' ≤ count ∧ (count' = count → m' = m ∧ a' = a) := by
  induction n generalizing m count rv s a with
  | zero => exact ⟨m, count, rv, s, a, rfl, hp, rfl, le_rfl, fun _ => ⟨rfl, rfl⟩⟩
  | succ n ih =>
    have husage : (m.setUsage b count).mBucketUsage b = count := Function.update_self ..
    have hper : m.GetRecordsPerBucket = m₀.GetRecordsPerBucket := hp.elsewhere.per
    have hle := hp.bucket.usage_le
    rw [husage, ← hper] at hle
    have hread := read_slot (m := m) b (show n < m.GetRecordsPerBucket by omega)
    by_cases hrank : (m.slots b n).mEvictionRank < evictionRank
    · have hstep : visitFrom (noting visitor) (m.GetFirstRecordInBucket b) evictionRank (n + 1) m
          count rv (s, a) = visitFrom (noting visitor) (m.GetFirstRecordInBucket b) evictionRank
          n m count rv (s, a) := by
        simp [visitFrom, hread, hrank]
      rw [hstep]
      exact ih hp (by omega) rv s
    · cases hvisit : visitor s (m.slots b n) with
      | mk answer s' =>
        cases answer with
        | kStopVisitingRecords =>
          refine ⟨m, count, .kStopVisitingRecords, s', a, ?_, hp, rfl, le_rfl,
            fun _ => ⟨rfl, rfl⟩⟩
          simp [visitFrom, hread, hrank, noting, hvisit]
        | kVisitNextRecord =>
          have hstep : visitFrom (noting visitor) (m.GetFirstRecordInBucket b) evictionRank
              (n + 1) m count rv (s, a) = visitFrom (noting visitor) (m.GetFirstRecordInBucket b)
              evictionRank n m count .kVisitNextRecord (s', a) := by
            simp [visitFrom, hread, hrank, noting, hvisit]
          rw [hstep]
          exact ih hp (by omega) _ s'
        | kDeleteRecordAndContinue =>
          obtain ⟨k, rfl⟩ : ∃ k, count = k + 1 := ⟨count - 1, by omega⟩
          obtain ⟨m₁, hm₁⟩ : ∃ m₁, m₁ =
            (m.setSlot b n (m.slots b k)).setSlot b k ((m.slots b k).SetHashNumber 0) := ⟨_, rfl⟩
          have hclose : m.closeOpening (m.GetFirstRecordInBucket b) n k = some m₁ := by
            rw [hm₁]
            exact closeOpening_spec b (by omega) (by omega)
          have hp₁ : Pending b m₀ a₀ (m₁.setUsage b k) (a.remove (m.slots b n).mHashNumber) := by
            have hclosed := hp.close husage hn
            convert hclosed using 1
            · rw [hm₁]
              simp only [setUsage, setSlot, Function.update_idem]
              congr 1
              push_cast
              abel
            · rfl
          have hstep : visitFrom (noting visitor) (m.GetFirstRecordInBucket b) evictionRank
              (n + 1) m (k + 1) rv (s, a) = visitFrom (noting visitor)
              (m₁.GetFirstRecordInBucket b) evictionRank n m₁ k .kDeleteRecordAndContinue
              (s', a.remove (m.slots b n).mHashNumber) := by
            have hbase : m₁.GetFirstRecordInBucket b = m.GetFirstRecordInBucket b := by
              rw [hm₁]
              rfl
            rw [hbase]
            simp [visitFrom, hread, hrank, noting, hvisit, hclose]
          obtain ⟨m', count', rv', s'', a', hrun, hp', hu', hle', -⟩ :=
            ih hp₁ (by omega) .kDeleteRecordAndContinue s'
          refine ⟨m', count', rv', s'', a', by rw [hstep, hrun], hp', ?_, by omega,
            fun h => by omega⟩
          rw [hu', hm₁]
          rfl

/-- `VisitEachRecord` keeps a good map of the records that are left. -/
theorem Represents.VisitEachRecord (hm : Represents m a) (b : Fin kBuckets)
    (evictionRank : UInt32) (s : σ) :
    ∃ m' rv s' a', m.VisitEachRecord (noting visitor) b evictionRank (s, a) =
      some (m', rv, s', a') ∧ Represents m' a' := by
  have hp₀ : Pending b m a (m.setUsage b (m.mBucketUsage b)) a := by
    rw [setUsage_self]
    exact hm.pending b
  obtain ⟨m', count, rv, s', a', hrun, hp', hu, hle, hsame⟩ :=
    visitFrom_spec visitor evictionRank hp₀ le_rfl .kVisitNextRecord s
  by_cases hcount : count = m.mBucketUsage b
  · obtain ⟨rfl, rfl⟩ := hsame hcount
    refine ⟨m', rv, s', a', ?_, hm⟩
    simp [CacheMap.VisitEachRecord, hrun, hcount]
  · obtain ⟨m'', hm'', hrep⟩ := hp'.updateRank hm
    refine ⟨m'', rv, s', a', ?_, hrep⟩
    have hset : ({ m' with
        mEntryCount := m'.mEntryCount - (m'.mBucketUsage b - count : ℕ)
        mBucketUsage := Function.update m'.mBucketUsage b count } : CacheMap) =
        m'.setUsage b count := by
      rw [setUsage, Nat.cast_sub (by rw [hu]; exact hle)]
    have hne : m'.mBucketUsage b - count ≠ 0 := by
      rw [hu]
      omega
    simp only [CacheMap.VisitEachRecord, hrun, Option.bind_eq_bind, Option.bind_some, if_pos hne,
      hset, hm'', Option.pure_def]

/-- `VisitRecords` keeps a good map of the records that are left. -/
theorem Represents.VisitRecords (hm : Represents m a) (s : σ) :
    ∃ m' s' a', m.VisitRecords (noting visitor) (s, a) = some (m', s', a') ∧
      Represents m' a' := by
  rw [CacheMap.VisitRecords]
  generalize List.finRange kBuckets = buckets
  induction buckets generalizing m a s with
  | nil => exact ⟨m, s, a, rfl, hm⟩
  | cons b rest ih =>
    obtain ⟨m', rv, s', a', hrun, hrep⟩ := hm.VisitEachRecord visitor b 0 s
    by_cases hstop : rv = .kStopVisitingRecords
    · refine ⟨m', s', a', ?_, hrep⟩
      simp [visitBuckets, hrun, hstop]
    · obtain ⟨m'', s'', a'', hrest, hrep'⟩ := ih hrep s'
      refine ⟨m'', s'', a'', ?_, hrep'⟩
      simp [visitBuckets, hrun, hstop, hrest]

/-! ### The notes change nothing -/

/-- A visitor that answers as another one does, and whose state says more. -/
def Watches {τ : Type} (π : τ → σ) (watcher : τ → Record → VisitResult × τ) : Prop :=
  ∀ t r, ((watcher t r).1, π (watcher t r).2) = visitor (π t) r

theorem noting_watches : Watches visitor Prod.fst (noting visitor) := fun _ _ => rfl

variable {visitor} {τ : Type} {π : τ → σ} {watcher : τ → Record → VisitResult × τ}

theorem Watches.visitFrom (h : Watches visitor π watcher) (base : ℕ) (evictionRank : UInt32)
    (rv : VisitResult) (t : τ) :
    (CacheMap.visitFrom watcher base evictionRank n m count rv t).map
        (fun x => (x.1, x.2.1, x.2.2.1, π x.2.2.2)) =
      CacheMap.visitFrom visitor base evictionRank n m count rv (π t) := by
  induction n generalizing m count rv t with
  | zero => rfl
  | succ n ih =>
    cases hread : m.read (base + n) with
    | none => simp [CacheMap.visitFrom, hread]
    | some r =>
      by_cases hrank : r.mEvictionRank < evictionRank
      · simp [CacheMap.visitFrom, hread, hrank, ih]
      · cases hvisit : watcher t r with
        | mk answer t' =>
          have hanswer := h t r
          rw [hvisit] at hanswer
          cases answer with
          | kStopVisitingRecords =>
            simp [CacheMap.visitFrom, hread, hrank, hvisit, ← hanswer]
          | kVisitNextRecord =>
            simp [CacheMap.visitFrom, hread, hrank, hvisit, ← hanswer, ih]
          | kDeleteRecordAndContinue =>
            cases hclose : m.closeOpening base n (count - 1) with
            | none => simp [CacheMap.visitFrom, hread, hrank, hvisit, ← hanswer, hclose]
            | some m' => simp [CacheMap.visitFrom, hread, hrank, hvisit, ← hanswer, hclose, ih]

theorem Watches.VisitEachRecord (h : Watches visitor π watcher) (evictionRank : UInt32) (t : τ) :
    (m.VisitEachRecord watcher b evictionRank t).map (fun x => (x.1, x.2.1, π x.2.2)) =
      m.VisitEachRecord visitor b evictionRank (π t) := by
  rw [CacheMap.VisitEachRecord, CacheMap.VisitEachRecord, ← h.visitFrom]
  cases CacheMap.visitFrom watcher (m.GetFirstRecordInBucket b) evictionRank (m.mBucketUsage b) m
      (m.mBucketUsage b) .kVisitNextRecord t with
  | none => rfl
  | some x =>
    obtain ⟨m', count, rv, t'⟩ := x
    simp only [Option.map_some, Option.bind_eq_bind, Option.bind_some]
    split_ifs
    · cases updateRank _ b <;> rfl
    · rfl

end CacheMap

end Kompozer.Cache

import Kompozer.Cache.MapRun

/-! Eviction from the map of the disk cache: the buckets are visited in the order of their ranks,
each time for the records that are not below the rank. -/

namespace Kompozer.Cache

open NsResult

namespace CacheMap

variable {σ : Type}

/-! ### Evicting -/

/-- The bucket with the highest rank, the first of several. -/
def highestFrom (tempRank : Fin kBuckets → UInt32) :
    List (Fin kBuckets) → UInt32 → Fin kBuckets → UInt32 × Fin kBuckets
  | [], rank, bucketIndex => (rank, bucketIndex)
  | i :: rest, rank, bucketIndex =>
    if rank < tempRank i then highestFrom tempRank rest (tempRank i) i
    else highestFrom tempRank rest rank bucketIndex

def highest (tempRank : Fin kBuckets → UInt32) : UInt32 × Fin kBuckets :=
  highestFrom tempRank (List.finRange kBuckets) 0 ⟨0, by decide⟩

/-- The loop of `EvictRecords`, which counts up to the number of entries. That number does not
grow, so it takes no more turns than there were entries. -/
def evictFrom (visitor : σ → Record → VisitResult × σ) :
    ℕ → ℕ → CacheMap → (Fin kBuckets → UInt32) → σ → Option (CacheMap × σ)
  | 0, _, m, _, s => some (m, s)
  | turns + 1, n, m, tempRank, s =>
    if (n : ℤ) < m.mEntryCount then
      let (rank, bucketIndex) := highest tempRank
      if rank = 0 then some (m, s)
      else do
        let (m, rv, s) ← m.VisitEachRecord visitor bucketIndex rank s
        if rv = .kStopVisitingRecords then return (m, s)
        else do
          let next ← m.GetBucketRank bucketIndex rank
          evictFrom visitor turns (n + 1) m (Function.update tempRank bucketIndex next) s
    else some (m, s)

/-- `EvictRecords`. -/
def EvictRecords (m : CacheMap) (visitor : σ → Record → VisitResult × σ) (s : σ) :
    Option (CacheMap × σ) :=
  evictFrom visitor m.mEntryCount.toNat 0 m m.mEvictionRank s

/-- The maps and contents that calls and evictions lead to, when a map is trimmed at its least size
only. -/
inductive Reached : CacheMap → Contents → Prop
  | start : Reached empty fun _ => none
  | call {m m' a a'} (c : Call) (h : Reached m a) (ha : c.Allowed a) (hm : c.Fits m)
    (hrun : c.run m a = some (m', a')) : Reached m' a'
  | evict {m m' a a'} {σ : Type} (visitor : σ → Record → VisitResult × σ) (s s' : σ)
    (h : Reached m a) (hrun : m.EvictRecords (noting visitor) (s, a) = some (m', s', a')) :
    Reached m' a'

/-! ### The order -/

/-- What a visitor was presented, and what it answered. -/
abbrev Log := List (Record × VisitResult)

/-- A visitor that also writes down what it is presented. -/
def logging (visitor : σ → Record → VisitResult × σ) (x : σ × Log) (r : Record) :
    VisitResult × σ × Log :=
  let (answer, s) := visitor x.1 r
  (answer, s, x.2 ++ [(r, answer)])

/-- The first slots from the back. -/
def fromBack (s : ℕ → Record) : ℕ → List Record
  | 0 => []
  | i + 1 => s i :: fromBack s i

/-- The records of a map in one bucket, in the order of a visit. -/
def recordsIn (m : CacheMap) (b : Fin kBuckets) : List Record :=
  fromBack (m.slots b) (m.mBucketUsage b)

/-- Records are presented once each, in the order of their ranks over all buckets, so that none is
left that is more evictable. Unless the visitor stops, all are presented whose rank is not zero. -/
structure InOrder (m : CacheMap) (log : Log) : Prop where
  once : (log.map Prod.fst).Nodup
  order : (log.map Prod.fst).Pairwise fun r r' => r'.mEvictionRank ≤ r.mEvictionRank
  top : ∀ p ∈ log, ∀ b, ∀ r ∈ m.recordsIn b, r ∉ log.map Prod.fst →
    r.mEvictionRank ≤ p.1.mEvictionRank
  all : (∀ p ∈ log, p.2 ≠ .kStopVisitingRecords) → ∀ b, ∀ r ∈ m.recordsIn b,
    r.mEvictionRank ≠ 0 → r ∈ log.map Prod.fst

def EvictsInOrder (m : CacheMap) : Prop :=
  ∀ (σ : Type) (visitor : σ → Record → VisitResult × σ) (s : σ), ∃ m' s' log,
    m.EvictRecords (logging visitor) (s, []) = some (m', s', log) ∧ m.InOrder log

/-- The records of a bucket that can be evicted. -/
def ranked (m : CacheMap) (b : Fin kBuckets) : List Record :=
  (m.recordsIn b).filter (·.mEvictionRank ≠ 0)

/-- A bucket whose turn is before that of another one. -/
def Precedes (m : CacheMap) (c b : Fin kBuckets) : Prop :=
  m.mEvictionRank b < m.mEvictionRank c ∨ m.mEvictionRank c = m.mEvictionRank b ∧ c < b

instance (m : CacheMap) (c b : Fin kBuckets) : Decidable (m.Precedes c b) :=
  inferInstanceAs (Decidable (_ ∨ _))

/-- The buckets whose turns are before that of a bucket. -/
def ahead (m : CacheMap) (b : Fin kBuckets) : Finset (Fin kBuckets) :=
  Finset.univ.filter (m.Precedes · b)

/-- In each bucket there are records of one rank only. -/
def Level (m : CacheMap) : Prop :=
  ∀ b, ∀ r ∈ m.ranked b, ∀ r' ∈ m.ranked b, r.mEvictionRank = r'.mEvictionRank

/-- The maps that are evicted from in order: in each bucket there are records of one rank only, and
without the records in the buckets ahead of a bucket there are more records than such buckets. -/
structure Evictable (m : CacheMap) : Prop where
  level : m.Level
  enough : ∀ b, m.mEvictionRank b ≠ 0 →
    ((m.ahead b).card : ℤ) + (∑ c ∈ m.ahead b, (m.ranked c).length : ℕ) < m.mEntryCount

variable {m m' : CacheMap} {a a' : Contents} {b c : Fin kBuckets} {i n count : ℕ} {r : Record}

/-! ### The records of a bucket -/

theorem mem_fromBack {s : ℕ → Record} : r ∈ fromBack s n ↔ InSlots s n r := by
  induction n with
  | zero => simp [fromBack, inSlots_zero]
  | succ n ih => rw [fromBack, List.mem_cons, ih, inSlots_succ, or_comm, eq_comm]

theorem fromBack_congr {s t : ℕ → Record} (h : ∀ i < n, s i = t i) :
    fromBack s n = fromBack t n := by
  induction n with
  | zero => rfl
  | succ n ih => rw [fromBack, fromBack, h n (Nat.lt_succ_self n), ih fun i hi => h i (by omega)]

theorem nodup_fromBack {s : ℕ → Record} (h : Keyed Record.mHashNumber s n) :
    (fromBack s n).Nodup := by
  induction n with
  | zero => exact List.nodup_nil
  | succ n ih =>
    rw [fromBack, List.nodup_cons, mem_fromBack]
    refine ⟨?_, ih fun i hi j hj => h i (by omega) j (by omega)⟩
    rintro ⟨i, hi, heq⟩
    have := h i (by omega) n (by omega) (by rw [heq])
    omega

theorem mem_recordsIn : r ∈ m.recordsIn b ↔ InSlots (m.slots b) (m.mBucketUsage b) r :=
  mem_fromBack

theorem mem_ranked : r ∈ m.ranked b ↔ r ∈ m.recordsIn b ∧ r.mEvictionRank ≠ 0 := by
  simp [ranked]

theorem Represents.nodup_recordsIn (h : Represents m a) (b : Fin kBuckets) :
    (m.recordsIn b).Nodup := nodup_fromBack (h.bucket b).keyed

/-- A record is in one bucket only. -/
theorem Represents.bucket_eq (h : Represents m a) (hb : r ∈ m.recordsIn b)
    (hc : r ∈ m.recordsIn c) : b = c := by
  rw [mem_recordsIn] at hb hc
  rw [← ((h.bucket b).home r hb).2, ← ((h.bucket c).home r hc).2]

theorem Represents.rank_le (h : Represents m a) (hr : r ∈ m.recordsIn b) :
    r.mEvictionRank ≤ m.mEvictionRank b := (h.rank b).le r (mem_recordsIn.mp hr)

/-! ### A visit -/

variable (visitor : σ → Record → VisitResult × σ)

/-- The answers that are written down are those of the visitor. -/
def Answers (log : Log) : Prop := ∀ p ∈ log, ∃ s, (visitor s p.1).1 = p.2

/-- What a visit of a bucket does: of the records that are due it presents all, or the first ones
up to one for which the visitor stops. -/
structure Visited (b : Fin kBuckets) (m m' : CacheMap) (count count' : ℕ) (due : List Record)
    (rv : VisitResult) (new : Log) : Prop where
  elsewhere : Elsewhere b m m'
  left : ∀ r, InSlots (m'.slots b) count' r → InSlots (m.slots b) count r
  deleted : count' + new.countP (·.2 = .kDeleteRecordAndContinue) = count
  same : (∀ p ∈ new, p.2 = .kVisitNextRecord) → m' = m
  presented : new.map Prod.fst <+: due
  ended : rv = .kStopVisitingRecords ∧ (∃ p ∈ new, p.2 = .kStopVisitingRecords) ∨
    rv ≠ .kStopVisitingRecords ∧ (∀ p ∈ new, p.2 ≠ .kStopVisitingRecords) ∧
      new.map Prod.fst = due

/-- A record is presented, and the visit goes on with what is made of the map. -/
theorem Visited.cons {m₁ : CacheMap} {count₁ count' : ℕ} {due : List Record} {rv answer : VisitResult}
    {new : Log} (h : Visited b m₁ m' count₁ count' due rv new) (hstop : answer ≠ .kStopVisitingRecords)
    (helse : Elsewhere b m m₁)
    (hleft : ∀ r, InSlots (m₁.slots b) count₁ r → InSlots (m.slots b) count r)
    (hcount : count₁ + (if answer = .kDeleteRecordAndContinue then 1 else 0) = count)
    (hsame : answer = .kVisitNextRecord → m₁ = m) (r : Record) :
    Visited b m m' count count' (r :: due) rv ((r, answer) :: new) where
  elsewhere := helse.trans h.elsewhere
  left x hx := hleft x (h.left x hx)
  deleted := by
    rw [List.countP_cons, ← hcount, ← h.deleted]
    simp [Nat.add_assoc]
  same hall := by
    rw [List.forall_mem_cons] at hall
    rw [h.same hall.2, hsame hall.1]
  presented := List.cons_prefix_cons.mpr ⟨rfl, h.presented⟩
  ended := by
    rcases h.ended with ⟨hrv, p, hp, hp'⟩ | ⟨hrv, hnone, hall⟩
    · exact .inl ⟨hrv, p, List.mem_cons_of_mem _ hp, hp'⟩
    · refine .inr ⟨hrv, List.forall_mem_cons.mpr ⟨hstop, hnone⟩, ?_⟩
      rw [List.map_cons, hall]

/-- What is left when a slot is closed. -/
theorem closeOpening_left {k : ℕ} (hi : i ≤ k) (hk : k < m.GetRecordsPerBucket) :
    ∃ m₁, m.closeOpening (m.GetFirstRecordInBucket b) i k = some m₁ ∧ Elsewhere b m m₁ ∧
      m₁.mBucketUsage = m.mBucketUsage ∧ m₁.mEntryCount = m.mEntryCount ∧
      ∀ j < k, m₁.slots b j = if j = i then m.slots b k else m.slots b j := by
  refine ⟨_, closeOpening_spec b hi hk, ?_, rfl, rfl, fun j hj => ?_⟩
  · exact (elsewhere_setSlot (by omega)).trans (elsewhere_setSlot (by simpa using hk))
  · rw [slots_setSlot, slots_setSlot, Function.update_of_ne (by omega)]
    split_ifs with hji
    · rw [hji, Function.update_self]
    · rw [Function.update_of_ne hji]

theorem visitFrom_log (evictionRank : UInt32) (hn : n ≤ count)
    (hcount : count ≤ m.GetRecordsPerBucket) (rv : VisitResult) (hrv : rv ≠ .kStopVisitingRecords)
    (s : σ) (log : Log) :
    ∃ m' count' rv' s' new, visitFrom (logging visitor) (m.GetFirstRecordInBucket b) evictionRank
        n m count rv (s, log) = some (m', count', rv', s', log ++ new) ∧
      m'.mBucketUsage = m.mBucketUsage ∧ m'.mEntryCount = m.mEntryCount ∧ Answers visitor new ∧
      Visited b m m' count count'
        ((fromBack (m.slots b) n).filter (evictionRank ≤ ·.mEvictionRank)) rv' new := by
  induction n generalizing m count rv s log with
  | zero =>
    exact ⟨m, count, rv, s, [], by simp [visitFrom], rfl, rfl, by simp [Answers],
      Elsewhere.refl, fun _ hr => hr, rfl, fun _ => rfl, List.prefix_refl _,
      .inr ⟨hrv, by simp, rfl⟩⟩
  | succ n ih =>
    have hread := read_slot (m := m) b (show n < m.GetRecordsPerBucket by omega)
    rw [fromBack]
    by_cases hrank : (m.slots b n).mEvictionRank < evictionRank
    · have hstep : visitFrom (logging visitor) (m.GetFirstRecordInBucket b) evictionRank (n + 1) m
          count rv (s, log) = visitFrom (logging visitor) (m.GetFirstRecordInBucket b) evictionRank
          n m count rv (s, log) := by
        simp [visitFrom, hread, hrank]
      rw [hstep, List.filter_cons_of_neg (by simpa using hrank)]
      exact ih (by omega) hcount rv hrv s log
    · rw [List.filter_cons_of_pos (by simpa using hrank)]
      cases hvisit : visitor s (m.slots b n) with
      | mk answer s' =>
        have hanswer : (visitor s (m.slots b n)).1 = answer := by rw [hvisit]
        cases answer with
        | kStopVisitingRecords =>
          refine ⟨m, count, .kStopVisitingRecords, s', [(m.slots b n, .kStopVisitingRecords)], ?_,
            rfl, rfl, List.forall_mem_singleton.mpr ⟨s, hanswer⟩, Elsewhere.refl, fun _ hr => hr, rfl,
            fun _ => rfl, by simp, .inl ⟨rfl, by simp⟩⟩
          simp [visitFrom, hread, hrank, logging, hvisit]
        | kVisitNextRecord =>
          obtain ⟨m', count', rv', s'', new, hrun, husage, hentries, hans, hvisited⟩ :=
            ih (m := m) (by omega) hcount .kVisitNextRecord (by simp) s'
              (log ++ [(m.slots b n, .kVisitNextRecord)])
          refine ⟨m', count', rv', s'', (m.slots b n, .kVisitNextRecord) :: new, ?_, husage,
            hentries, List.forall_mem_cons.mpr ⟨⟨s, hanswer⟩, hans⟩,
            hvisited.cons (by simp) Elsewhere.refl (fun _ hr => hr) rfl (fun _ => rfl) _⟩
          rw [List.append_cons, ← hrun]
          simp [visitFrom, hread, hrank, logging, hvisit]
        | kDeleteRecordAndContinue =>
          obtain ⟨k, rfl⟩ : ∃ k, count = k + 1 := ⟨count - 1, by omega⟩
          obtain ⟨m₁, hclose, helse, husage₁, hentries₁, hslots⟩ :=
            closeOpening_left (m := m) (b := b) (i := n) (k := k) (by omega) (by omega)
          have hback : fromBack (m₁.slots b) n = fromBack (m.slots b) n :=
            fromBack_congr fun i hi => by rw [hslots i (by omega), if_neg (by omega)]
          have hbase : m₁.GetFirstRecordInBucket b = m.GetFirstRecordInBucket b := by
            rw [GetFirstRecordInBucket, GetFirstRecordInBucket, helse.per]
          obtain ⟨m', count', rv', s'', new, hrun, husage, hentries, hans, hvisited⟩ :=
            @ih m₁ k (by omega) (by rw [helse.per]; omega)
              .kDeleteRecordAndContinue (by simp) s'
              (log ++ [(m.slots b n, .kDeleteRecordAndContinue)])
          rw [hback] at hvisited
          rw [hbase] at hrun
          have hleft : ∀ r, InSlots (m₁.slots b) k r → InSlots (m.slots b) (k + 1) r := by
            rintro r ⟨i, hi, rfl⟩
            rw [hslots i hi]
            split_ifs
            · exact inSlots_of_lt (Nat.lt_succ_self k)
            · exact inSlots_of_lt (by omega)
          have hcons : Visited b m m' (k + 1) count' (m.slots b n :: (fromBack (m.slots b) n).filter
              (evictionRank ≤ ·.mEvictionRank)) rv'
              ((m.slots b n, .kDeleteRecordAndContinue) :: new) :=
            hvisited.cons (by simp) helse hleft rfl (by simp) _
          refine ⟨m', count', rv', s'', _, ?_, husage.trans husage₁, hentries.trans hentries₁,
            List.forall_mem_cons.mpr ⟨⟨s, hanswer⟩, hans⟩, hcons⟩
          rw [List.append_cons, ← hrun]
          simp [visitFrom, hread, hrank, logging, hvisit, hclose]

/-- The records of a bucket that a visit is for. -/
def due (m : CacheMap) (b : Fin kBuckets) (evictionRank : UInt32) : List Record :=
  (m.recordsIn b).filter (evictionRank ≤ ·.mEvictionRank)

theorem Represents.visit (hm : Represents m a) (b : Fin kBuckets) (evictionRank : UInt32) (s : σ)
    (log : Log) :
    ∃ m' a' rv s' new, m.VisitEachRecord (logging visitor) b evictionRank (s, log) =
        some (m', rv, s', log ++ new) ∧ Represents m' a' ∧
      Answers visitor new ∧
      Visited b m m' (m.mBucketUsage b) (m'.mBucketUsage b) (m.due b evictionRank) rv new ∧
      m'.mEntryCount = m.mEntryCount - new.countP (·.2 = .kDeleteRecordAndContinue) := by
  obtain ⟨m₁, rv₁, x, a₁, hnoting, hrep⟩ :=
    hm.VisitEachRecord (logging visitor) b evictionRank (s, log)
  have heach := @Watches.VisitEachRecord _ m b _ _ _ _ (noting_watches (logging visitor))
    evictionRank ((s, log), a)
  rw [hnoting, Option.map_some] at heach
  have hwhole := heach.symm
  obtain ⟨m', count', rv', s', new, hrun, husage, hentries, hans, hvisited⟩ :=
    visitFrom_log visitor (b := b) evictionRank (le_refl _) (hm.bucket b).usage_le
      .kVisitNextRecord (by simp) s log
  have hdeleted := hvisited.deleted
  rw [CacheMap.VisitEachRecord, hrun] at heach
  simp only [Option.bind_eq_bind, Option.bind_some, husage] at heach
  split_ifs at heach with hfull
  · obtain ⟨m₂, hrank, heq⟩ := Option.bind_eq_some_iff.mp heach.symm
    obtain ⟨rank, -, hset⟩ := Option.bind_eq_some_iff.mp hrank
    cases hset
    cases heq
    refine ⟨_, a₁, _, s', new, hwhole, hrep, hans, ?_, ?_⟩
    · refine ⟨?_, ?_, ?_, ?_, hvisited.presented, hvisited.ended⟩
      · exact hvisited.elsewhere.trans ⟨rfl,
          fun c hc => (Function.update_of_ne hc ..).trans (congrFun husage c).symm,
          fun c hc => Function.update_of_ne hc .., fun _ _ _ _ => rfl⟩
      · intro r hr
        change InSlots (m'.slots b) (Function.update m.mBucketUsage b count' b) r at hr
        rw [Function.update_self] at hr
        exact hvisited.left r hr
      · change Function.update m.mBucketUsage b count' b + _ = _
        rw [Function.update_self, hdeleted]
      · intro hall
        have hzero : new.countP (·.2 = .kDeleteRecordAndContinue) = 0 := by
          rw [List.countP_eq_zero]
          intro p hp
          simp [hall p hp]
        omega
    · change m'.mEntryCount - _ = _
      rw [hentries]
      omega
  · cases heach
    have hcount : count' = m.mBucketUsage b := by omega
    refine ⟨_, a₁, _, s', new, hwhole, hrep, hans, ?_, ?_⟩
    · rw [husage]
      rwa [hcount] at hvisited
    · rw [hentries]
      omega

/-! ### The bucket whose turn it is -/

theorem highestFrom_spec {tempRank : Fin kBuckets → UInt32} {l : List (Fin kBuckets)}
    (hl : l.Pairwise (· < ·)) (rank : UInt32) (b : Fin kBuckets) :
    (∀ c ∈ l, tempRank c ≤ (highestFrom tempRank l rank b).1) ∧
      (highestFrom tempRank l rank b = (rank, b) ∨
        rank < (highestFrom tempRank l rank b).1 ∧
          tempRank (highestFrom tempRank l rank b).2 = (highestFrom tempRank l rank b).1 ∧
          ∀ c ∈ l, c < (highestFrom tempRank l rank b).2 →
            tempRank c < (highestFrom tempRank l rank b).1) := by
  induction l generalizing rank b with
  | nil => simp [highestFrom]
  | cons i rest ih =>
    rw [List.pairwise_cons] at hl
    rw [highestFrom]
    split_ifs with hlt
    · obtain ⟨hle, hcases⟩ := ih hl.2 (tempRank i) i
      rcases hcases with heq | ⟨hgt, hat, hfirst⟩
      · rw [heq] at hle ⊢
        refine ⟨List.forall_mem_cons.mpr ⟨le_refl _, hle⟩, .inr ⟨hlt, rfl, ?_⟩⟩
        rw [List.forall_mem_cons]
        exact ⟨fun h => absurd h (lt_irrefl i), fun c hc h => absurd (hl.1 c hc) h.asymm⟩
      · exact ⟨List.forall_mem_cons.mpr ⟨hgt.le, hle⟩,
          .inr ⟨hlt.trans hgt, hat, List.forall_mem_cons.mpr ⟨fun _ => hgt, hfirst⟩⟩⟩
    · obtain ⟨hle, hcases⟩ := ih hl.2 rank b
      rw [not_lt] at hlt
      rcases hcases with heq | ⟨hgt, hat, hfirst⟩
      · rw [heq] at hle ⊢
        exact ⟨List.forall_mem_cons.mpr ⟨hlt, hle⟩, .inl rfl⟩
      · exact ⟨List.forall_mem_cons.mpr ⟨hlt.trans hgt.le, hle⟩,
          .inr ⟨hgt, hat, List.forall_mem_cons.mpr ⟨fun _ => hlt.trans_lt hgt, hfirst⟩⟩⟩

theorem highest_spec (tempRank : Fin kBuckets → UInt32) :
    (∀ c, tempRank c ≤ (highest tempRank).1) ∧ ((highest tempRank).1 ≠ 0 →
      tempRank (highest tempRank).2 = (highest tempRank).1 ∧
        ∀ c < (highest tempRank).2, tempRank c < (highest tempRank).1) := by
  obtain ⟨hle, hcases⟩ := @highestFrom_spec tempRank (List.finRange kBuckets)
    (List.pairwise_lt_finRange _) 0 ⟨0, by decide⟩
  refine ⟨fun c => hle c (List.mem_finRange c), fun hne => ?_⟩
  rcases hcases with heq | ⟨-, hat, hfirst⟩
  · rw [highest, heq] at hne
    exact absurd rfl hne
  · exact ⟨hat, fun c => hfirst c (List.mem_finRange c)⟩

/-- The rank that a bucket has next is that of a record, or zero. -/
theorem rankFrom_below {evictionRank : UInt32} (hne : evictionRank ≠ 0)
    (hn : n ≤ m.GetRecordsPerBucket) (rank : UInt32) :
    ∃ x, m.rankFrom (m.GetFirstRecordInBucket b) evictionRank n rank = some x ∧
      (x = rank ∨ x < evictionRank ∧ ∃ r ∈ fromBack (m.slots b) n, r.mEvictionRank = x) := by
  induction n generalizing rank with
  | zero => exact ⟨rank, rfl, .inl rfl⟩
  | succ n ih =>
    have hread := read_slot b (show n < m.GetRecordsPerBucket by omega)
    obtain ⟨x, hx, hcases⟩ := ih (by omega)
      (if rank < (m.slots b n).mEvictionRank ∧ (evictionRank = 0 ∨
        (m.slots b n).mEvictionRank < evictionRank) then (m.slots b n).mEvictionRank else rank)
    refine ⟨x, by simpa [rankFrom, hread] using hx, ?_⟩
    rw [fromBack]
    rcases hcases with heq | ⟨hlt, r, hr, hrank⟩
    · split_ifs at heq with hif
      · exact .inr ⟨heq ▸ hif.2.resolve_left hne, _, List.mem_cons_self, heq.symm⟩
      · exact .inl heq
    · exact .inr ⟨hlt, r, List.mem_cons_of_mem _ hr, hrank⟩

theorem Represents.GetBucketRank (hm : Represents m a) (b : Fin kBuckets) {evictionRank : UInt32}
    (hne : evictionRank ≠ 0) :
    ∃ x, m.GetBucketRank b evictionRank = some x ∧
      (x = 0 ∨ x < evictionRank ∧ ∃ r ∈ m.recordsIn b, r.mEvictionRank = x) :=
  rankFrom_below hne (hm.bucket b).usage_le 0

theorem Elsewhere.recordsIn_eq (he : Elsewhere b m m') (hm : Represents m a) (hc : c ≠ b) :
    m'.recordsIn c = m.recordsIn c := by
  rw [recordsIn, recordsIn, he.usage c hc]
  exact fromBack_congr fun i hi => he.slots c hc i (hm.slot_lt hi)

/-! ### Records of one rank in each bucket -/

theorem Represents.exists_top (hm : Represents m a) (hne : m.mEvictionRank b ≠ 0) :
    ∃ r ∈ m.ranked b, r.mEvictionRank = m.mEvictionRank b := by
  rcases (hm.rank b).reached with hzero | ⟨r, hr, hrank⟩
  · exact absurd hzero hne
  · exact ⟨r, mem_ranked.mpr ⟨mem_recordsIn.mpr hr, by rwa [hrank]⟩, hrank⟩

theorem Represents.rank_ne_zero (hm : Represents m a) (hr : r ∈ m.ranked b) :
    m.mEvictionRank b ≠ 0 := by
  obtain ⟨hrecord, hne⟩ := mem_ranked.mp hr
  intro hzero
  have hle := hm.rank_le hrecord
  rw [hzero] at hle
  exact hne (le_antisymm hle UInt32.zero_le)

theorem Level.rank_eq (h : Level m) (hm : Represents m a) (hr : r ∈ m.ranked b) :
    r.mEvictionRank = m.mEvictionRank b := by
  obtain ⟨r', hr', hrank⟩ := hm.exists_top (hm.rank_ne_zero hr)
  rw [h b r hr r' hr', hrank]

/-- The loop when it has emptied some buckets of what is due in them. -/
structure Evicting (m₀ m : CacheMap) (n : ℕ) (tempRank : Fin kBuckets → UInt32) (log : Log)
    (done : Finset (Fin kBuckets)) : Prop where
  good : ∃ a, Represents m a
  turns : n = done.card
  visited : ∀ b ∈ done, m₀.mEvictionRank b ≠ 0 ∧ tempRank b = 0
  ranks : ∀ b ∉ done, tempRank b = m₀.mEvictionRank b
  same : ∀ b ∉ done, m.recordsIn b = m₀.recordsIn b
  ahead : ∀ b ∈ done, m₀.ahead b ⊆ done
  mem : ∀ r, r ∈ log.map Prod.fst ↔ ∃ b ∈ done, r ∈ m₀.ranked b
  once : (log.map Prod.fst).Nodup
  order : (log.map Prod.fst).Pairwise fun r r' => r'.mEvictionRank ≤ r.mEvictionRank
  going : ∀ p ∈ log, p.2 ≠ .kStopVisitingRecords
  length : log.length = ∑ b ∈ done, (m₀.ranked b).length
  entries : m.mEntryCount = m₀.mEntryCount - log.countP (·.2 = .kDeleteRecordAndContinue)
  enough : (∀ p ∈ log, p.2 = .kDeleteRecordAndContinue) → ∀ b ∈ done,
    ((m₀.ahead b).card : ℤ) + (∑ c ∈ m₀.ahead b, (m₀.ranked c).length : ℕ) < m₀.mEntryCount

variable {m₀ : CacheMap} {a₀ : Contents} {tempRank : Fin kBuckets → UInt32} {log new : Log}
  {done : Finset (Fin kBuckets)}

theorem mem_ahead : c ∈ m.ahead b ↔ m.Precedes c b := by simp [CacheMap.ahead]

theorem precedes_total (hne : b ≠ c) : m.Precedes b c ∨ m.Precedes c b := by
  rcases lt_trichotomy (m.mEvictionRank b) (m.mEvictionRank c) with hlt | heq | hgt
  · exact .inr (.inl hlt)
  · rcases lt_or_gt_of_ne hne with hlt | hgt
    · exact .inl (.inr ⟨heq, hlt⟩)
    · exact .inr (.inr ⟨heq.symm, hgt⟩)
  · exact .inl (.inl hgt)

theorem Precedes.trans {d : Fin kBuckets} (h : m.Precedes d c) (h' : m.Precedes c b) :
    m.Precedes d b := by
  rcases h with h | ⟨heq, hlt⟩
  · exact .inl (lt_of_le_of_lt (h'.elim le_of_lt fun h' => h'.1.ge) h)
  · rcases h' with h' | ⟨heq', hlt'⟩
    · exact .inl (heq ▸ h')
    · exact .inr ⟨heq.trans heq', hlt.trans hlt'⟩

theorem Precedes.rank_le (h : m.Precedes c b) : m.mEvictionRank b ≤ m.mEvictionRank c :=
  h.elim le_of_lt fun h => h.1.ge

/-- The next bucket is the first one that is not done. -/
theorem Evicting.next (h : Evicting m₀ m n tempRank log done) (hne : (highest tempRank).1 ≠ 0) :
    (highest tempRank).2 ∉ done ∧
      (highest tempRank).1 = m₀.mEvictionRank (highest tempRank).2 ∧
      m₀.ahead (highest tempRank).2 = done := by
  obtain ⟨hle, hat⟩ := highest_spec tempRank
  obtain ⟨hat, hfirst⟩ := hat hne
  have hnot : (highest tempRank).2 ∉ done := by
    intro hdone
    rw [(h.visited _ hdone).2] at hat
    exact hne hat.symm
  have hrank : (highest tempRank).1 = m₀.mEvictionRank (highest tempRank).2 := by
    rw [← hat, h.ranks _ hnot]
  refine ⟨hnot, hrank, Finset.Subset.antisymm ?_ ?_⟩
  · intro c hc
    by_contra hcd
    have hc' := h.ranks c hcd
    rcases mem_ahead.mp hc with hlt | ⟨heq, hlt⟩
    · rw [← hc', ← hrank] at hlt
      exact absurd (hle c) (not_le.mpr hlt)
    · have := hfirst c hlt
      rw [hc', hrank, heq] at this
      exact lt_irrefl _ this
  · intro c hc
    rw [mem_ahead]
    have hcb : c ≠ (highest tempRank).2 := by
      rintro rfl
      exact hnot hc
    refine (precedes_total hcb).resolve_right fun hprec => hnot ?_
    exact h.ahead c hc (mem_ahead.mpr hprec)

/-- What is due in the next bucket is all that can be evicted. -/
theorem Evicting.due_eq (h : Evicting m₀ m n tempRank log done) (hm : Represents m₀ a₀)
    (hlevel : m₀.Level) (hb : b ∉ done) (hne : m₀.mEvictionRank b ≠ 0) :
    m.due b (m₀.mEvictionRank b) = m₀.ranked b := by
  rw [due, ranked, h.same b hb]
  apply List.filter_congr
  intro r hr
  rw [decide_eq_decide]
  constructor
  · intro hle hzero
    rw [hzero] at hle
    exact hne (le_antisymm hle UInt32.zero_le)
  · intro hnz
    exact (hlevel.rank_eq hm (mem_ranked.mpr ⟨hr, hnz⟩)).ge

theorem Evicting.order_append (h : Evicting m₀ m n tempRank log done) (hm : Represents m₀ a₀)
    (hlevel : m₀.Level) (hb : b ∉ done) (hahead : m₀.ahead b = done)
    (hnew : new.map Prod.fst <+: m₀.ranked b) :
    ((log ++ new).map Prod.fst).Nodup ∧
      ((log ++ new).map Prod.fst).Pairwise fun r r' => r'.mEvictionRank ≤ r.mEvictionRank := by
  rw [List.map_append, List.nodup_append, List.pairwise_append]
  have hranked : (m₀.ranked b).Nodup := (hm.nodup_recordsIn b).filter _
  refine ⟨⟨h.once, hranked.sublist hnew.sublist, ?_⟩, h.order, ?_, ?_⟩
  · rintro r hr r' hr' rfl
    obtain ⟨c, hc, hrc⟩ := (h.mem r).mp hr
    obtain rfl := hm.bucket_eq (mem_ranked.mp hrc).1 (mem_ranked.mp (hnew.subset hr')).1
    exact hb hc
  · rw [List.pairwise_iff_forall_sublist]
    intro r r' hsub
    have hr := hnew.subset (hsub.subset (by simp : r ∈ [r, r']))
    have hr' := hnew.subset (hsub.subset (by simp : r' ∈ [r, r']))
    exact (hlevel b r' hr' r hr).le
  · intro r hr r' hr'
    obtain ⟨c, hc, hrc⟩ := (h.mem r).mp hr
    rw [hlevel.rank_eq hm hrc, hlevel.rank_eq hm (hnew.subset hr')]
    exact (mem_ahead.mp (hahead ▸ hc)).rank_le

theorem Evicting.step (h : Evicting m₀ m n tempRank log done) (hm : Represents m₀ a₀)
    (hlevel : m₀.Level) (hb : b ∉ done) (hne : m₀.mEvictionRank b ≠ 0)
    (hahead : m₀.ahead b = done) (hturn : (n : ℤ) < m.mEntryCount) (hm' : Represents m' a')
    (helse : Elsewhere b m m') (hnew : new.map Prod.fst = m₀.ranked b)
    (hgoing : ∀ p ∈ new, p.2 ≠ .kStopVisitingRecords)
    (hentries : m'.mEntryCount = m.mEntryCount - new.countP (·.2 = .kDeleteRecordAndContinue)) :
    Evicting m₀ m' (n + 1) (Function.update tempRank b 0) (log ++ new) (insert b done) := by
  obtain ⟨honce, horder⟩ := h.order_append hm hlevel hb hahead (by rw [hnew])
  obtain ⟨a, hgood⟩ := h.good
  constructor
  · exact ⟨a', hm'⟩
  · rw [Finset.card_insert_of_notMem hb, h.turns]
  · intro c hc
    rcases Finset.mem_insert.mp hc with rfl | hc
    · exact ⟨hne, Function.update_self ..⟩
    · have hcb : c ≠ b := fun heq => hb (heq ▸ hc)
      rw [Function.update_of_ne hcb]
      exact h.visited c hc
  · intro c hc
    rw [Finset.mem_insert, not_or] at hc
    rw [Function.update_of_ne hc.1]
    exact h.ranks c hc.2
  · intro c hc
    rw [Finset.mem_insert, not_or] at hc
    rw [helse.recordsIn_eq hgood hc.1, h.same c hc.2]
  · intro c hc
    rcases Finset.mem_insert.mp hc with hcb | hc
    · rw [hcb, hahead]
      exact Finset.subset_insert _ _
    · exact (h.ahead c hc).trans (Finset.subset_insert _ _)
  · intro r
    rw [List.map_append, List.mem_append, h.mem, hnew, Finset.exists_mem_insert, or_comm]
  · exact honce
  · exact horder
  · intro p hp
    exact (List.mem_append.mp hp).elim (h.going p) (hgoing p)
  · rw [List.length_append, h.length, Finset.sum_insert hb, Nat.add_comm, ← hnew, List.length_map]
  · rw [hentries, h.entries, List.countP_append]
    push_cast
    ring
  · intro hall c hc
    rw [List.forall_mem_append] at hall
    rcases Finset.mem_insert.mp hc with hcb | hc
    · have hcount : log.countP (·.2 = .kDeleteRecordAndContinue) = log.length := by
        rw [List.countP_eq_length]
        simpa using hall.1
      have hentry := h.entries
      rw [hcount] at hentry
      rw [hcb, hahead, ← h.turns, ← h.length]
      omega
    · exact h.enough hall.1 c hc

/-- All buckets are done, or the loop has taken as many turns as there are entries. -/
def Evicting.Over (m₀ m : CacheMap) (n : ℕ) (done : Finset (Fin kBuckets)) : Prop :=
  (∀ b, m₀.mEvictionRank b ≠ 0 → b ∈ done) ∨
    m.mEntryCount ≤ n ∧ ∃ b, m₀.mEvictionRank b ≠ 0 ∧ m₀.ahead b = done

/-- The visitor has stopped in a bucket. -/
structure Stopped (m₀ : CacheMap) (log : Log) (b : Fin kBuckets) (new : Log) : Prop where
  once : ((log ++ new).map Prod.fst).Nodup
  order : ((log ++ new).map Prod.fst).Pairwise fun r r' => r'.mEvictionRank ≤ r.mEvictionRank
  mem : ∀ r, r ∈ log.map Prod.fst ↔ ∃ c ∈ m₀.ahead b, r ∈ m₀.ranked c
  presented : new.map Prod.fst <+: m₀.ranked b
  stop : ∃ p ∈ new, p.2 = .kStopVisitingRecords

/-- How the loop ends. -/
def Ends (m₀ : CacheMap) (log : Log) : Prop :=
  (∃ m n tempRank done, Evicting m₀ m n tempRank log done ∧ Evicting.Over m₀ m n done) ∨
    ∃ front b new, log = front ++ new ∧ Stopped m₀ front b new

theorem Evicting.over_of_le (h : Evicting m₀ m n tempRank log done) (hle : m.mEntryCount ≤ n) :
    Evicting.Over m₀ m n done := by
  by_cases hne : (highest tempRank).1 = 0
  · left
    intro b hb
    by_contra hnot
    have hle := (highest_spec tempRank).1 b
    rw [h.ranks b hnot, hne] at hle
    exact hb (le_antisymm hle UInt32.zero_le)
  · obtain ⟨hnot, hrank, hahead⟩ := h.next hne
    exact .inr ⟨hle, _, hrank ▸ hne, hahead⟩

theorem Evicting.run (h : Evicting m₀ m n tempRank log done) (hm : Represents m₀ a₀)
    (hlevel : m₀.Level) {turns : ℕ} (hturns : m.mEntryCount ≤ n + turns) (hans : Answers visitor log)
    (s : σ) :
    ∃ m' s' log', evictFrom (logging visitor) turns n m tempRank (s, log) =
      some (m', s', log') ∧ Answers visitor log' ∧ Ends m₀ log' := by
  induction turns generalizing m n tempRank log done s with
  | zero =>
    exact ⟨m, s, log, rfl, hans,
      .inl ⟨m, n, tempRank, done, h, h.over_of_le (by simpa using hturns)⟩⟩
  | succ turns ih =>
    rw [evictFrom]
    by_cases hturn : (n : ℤ) < m.mEntryCount
    · rw [if_pos hturn]
      dsimp only
      by_cases hzero : (highest tempRank).1 = 0
      · rw [if_pos hzero]
        refine ⟨m, s, log, rfl, hans, .inl ⟨m, n, tempRank, done, h, .inl fun b hb => ?_⟩⟩
        by_contra hnot
        have hle := (highest_spec tempRank).1 b
        rw [h.ranks b hnot, hzero] at hle
        exact hb (le_antisymm hle UInt32.zero_le)
      · rw [if_neg hzero]
        obtain ⟨hnot, hrank, hahead⟩ := h.next hzero
        obtain ⟨a, hgood⟩ := h.good
        obtain ⟨m', a', rv, s', new, hvisit, hm', hans', hvisited, hentries⟩ :=
          hgood.visit visitor (highest tempRank).2 (highest tempRank).1 s log
        have hne := hrank ▸ hzero
        rw [hvisit]
        simp only [Option.bind_eq_bind, Option.bind_some]
        rw [hrank, h.due_eq hm hlevel hnot hne] at hvisited
        have hboth : Answers visitor (log ++ new) := List.forall_mem_append.mpr ⟨hans, hans'⟩
        rcases hvisited.ended with ⟨rfl, hstop⟩ | ⟨hgoing, hall, hnew⟩
        · rw [if_pos rfl]
          obtain ⟨honce, horder⟩ := h.order_append hm hlevel hnot hahead hvisited.presented
          refine ⟨m', s', log ++ new, rfl, hboth, .inr ⟨log, _, new, rfl, honce, horder, ?_,
            hvisited.presented, hstop⟩⟩
          rw [hahead]
          exact h.mem
        · rw [if_neg hgoing]
          have hnext : m'.GetBucketRank (highest tempRank).2 (highest tempRank).1 = some 0 := by
            obtain ⟨x, hx, hcases⟩ := hm'.GetBucketRank (highest tempRank).2 hzero
            rw [hx]
            rcases hcases with hx0 | ⟨hlt, r, hr, hrx⟩
            · rw [hx0]
            · by_contra hxne
              have hr₀ : r ∈ m₀.recordsIn (highest tempRank).2 := by
                rw [← h.same _ hnot, mem_recordsIn]
                exact hvisited.left r (mem_recordsIn.mp hr)
              have hr0 : r.mEvictionRank ≠ 0 := by
                rw [hrx]
                rintro rfl
                exact hxne rfl
              rw [← hrx, hrank, hlevel.rank_eq hm (mem_ranked.mpr ⟨hr₀, hr0⟩)] at hlt
              exact lt_irrefl _ hlt
          rw [hnext, Option.bind_some]
          exact ih (h.step hm hlevel hnot hne hahead hturn hm' hvisited.elsewhere hnew hall hentries)
            (by push_cast at hturns ⊢; omega) hboth s'
    · rw [if_neg hturn]
      exact ⟨m, s, log, rfl, hans,
        .inl ⟨m, n, tempRank, done, h, h.over_of_le (not_lt.mp hturn)⟩⟩

theorem Represents.evicting (hm : Represents m a) :
    Evicting m m 0 m.mEvictionRank [] ∅ where
  good := ⟨a, hm⟩
  turns := rfl
  visited := by simp
  ranks := by simp
  same := by simp
  ahead := by simp
  mem := by simp
  once := List.nodup_nil
  order := List.Pairwise.nil
  going := by simp
  length := rfl
  entries := by simp
  enough := by simp

/-- What is not presented has a bucket whose turn is not before that of what is. -/
theorem Level.top (hlevel : Level m) (hm : Represents m a) {presented : Record}
    (hp : presented ∈ m.ranked b) (hr : r ∈ m.recordsIn c)
    (hnot : r ∈ m.ranked c → ¬ m.Precedes c b) : r.mEvictionRank ≤ presented.mEvictionRank := by
  by_cases hzero : r.mEvictionRank = 0
  · rw [hzero]
    exact UInt32.zero_le
  · have hranked := mem_ranked.mpr ⟨hr, hzero⟩
    rw [hlevel.rank_eq hm hp, hlevel.rank_eq hm hranked]
    by_cases hcb : c = b
    · rw [hcb]
    · exact ((precedes_total hcb).resolve_left (hnot hranked)).rank_le

/-- When enough records are left the loop ends in order. -/
theorem Ends.inOrder (h : Ends m log) (hm : Represents m a) (he : m.Evictable) :
    m.InOrder log := by
  rcases h with ⟨m', n, tempRank, done, h, hover⟩ | ⟨front, b, new, rfl, h⟩
  · have hall : ∀ b, m.mEvictionRank b ≠ 0 → b ∈ done := by
      rcases hover with hall | ⟨hle, b, hb, hahead⟩
      · exact hall
      · have henough := he.enough b hb
        have hcount := log.countP_le_length (p := (·.2 = .kDeleteRecordAndContinue))
        have hentries := h.entries
        rw [hahead, ← h.turns, ← h.length] at henough
        omega
    refine ⟨h.once, h.order, ?_, ?_⟩
    · intro p hp c r hr hnot
      obtain ⟨b, hb, hpb⟩ := (h.mem p.1).mp (List.mem_map_of_mem hp)
      refine he.level.top hm hpb hr fun hranked hprec => hnot ?_
      exact (h.mem r).mpr ⟨c, h.ahead b hb (mem_ahead.mpr hprec), hranked⟩
    · intro _ b r hr hne
      have hranked := mem_ranked.mpr ⟨hr, hne⟩
      exact (h.mem r).mpr ⟨b, hall b (hm.rank_ne_zero hranked), hranked⟩
  · refine ⟨h.once, h.order, ?_, ?_⟩
    · intro p hp c r hr hnot
      rw [List.map_append, List.mem_append, not_or] at hnot
      have hfront : r ∈ m.ranked c → c ∉ m.ahead b := fun hranked hc =>
        hnot.1 ((h.mem r).mpr ⟨c, hc, hranked⟩)
      rcases List.mem_append.mp hp with hp | hp
      · obtain ⟨b', hb', hpb⟩ := (h.mem p.1).mp (List.mem_map_of_mem hp)
        refine he.level.top hm hpb hr fun hranked hprec => hfront hranked ?_
        exact mem_ahead.mpr (hprec.trans (mem_ahead.mp hb'))
      · refine he.level.top hm (h.presented.subset (List.mem_map_of_mem hp)) hr
          fun hranked hprec => hfront hranked (mem_ahead.mpr hprec)
    · intro hgoing
      obtain ⟨p, hp, hstop⟩ := h.stop
      exact absurd hstop (hgoing p (List.mem_append_right _ hp))

/-- When the visitor deletes all it is presented, the loop ends early unless enough records are
left. -/
theorem Ends.enough (h : Ends m log) (hm : Represents m a)
    (hdelete : ∀ p ∈ log, p.2 = .kDeleteRecordAndContinue) (horder : m.InOrder log)
    (hb : m.mEvictionRank b ≠ 0) :
    ((m.ahead b).card : ℤ) + (∑ c ∈ m.ahead b, (m.ranked c).length : ℕ) < m.mEntryCount := by
  have hgoing : ∀ p ∈ log, p.2 ≠ .kStopVisitingRecords := by
    intro p hp
    rw [hdelete p hp]
    simp
  rcases h with ⟨m', n, tempRank, done, h, -⟩ | ⟨front, c, new, rfl, h⟩
  · obtain ⟨r, hr, -⟩ := hm.exists_top hb
    obtain ⟨hrecord, hne⟩ := mem_ranked.mp hr
    obtain ⟨c, hc, hrc⟩ := (h.mem r).mp (horder.all hgoing b r hrecord hne)
    obtain rfl := hm.bucket_eq hrecord (mem_ranked.mp hrc).1
    exact h.enough hdelete b hc
  · obtain ⟨p, hp, hstop⟩ := h.stop
    exact absurd hstop (hgoing p (List.mem_append_right _ hp))

/-! ### Records that are kept -/

/-- The loop when the visitor has kept all it was presented. -/
structure Keeping (m : CacheMap) (tempRank : Fin kBuckets → UInt32) (log : Log) : Prop where
  le : ∀ b, tempRank b ≤ m.mEvictionRank b
  tops : ∀ b, tempRank b = m.mEvictionRank b ∨
    ∀ r ∈ m.recordsIn b, r.mEvictionRank = m.mEvictionRank b → r ∈ log.map Prod.fst
  twice : ∀ b, ∀ r ∈ m.recordsIn b, r ∈ log.map Prod.fst → r.mEvictionRank ≠ m.mEvictionRank b →
    ¬ (log.map Prod.fst).Nodup

theorem Keeping.step (h : Keeping m tempRank log) (hm : Represents m a)
    (hne : tempRank b ≠ 0) (hnew : new.map Prod.fst = m.due b (tempRank b)) {next : UInt32}
    (hnext : next ≤ m.mEvictionRank b) :
    Keeping m (Function.update tempRank b next) (log ++ new) := by
  have hdue : ∀ r, r ∈ new.map Prod.fst ↔ r ∈ m.recordsIn b ∧ tempRank b ≤ r.mEvictionRank := by
    intro r
    rw [hnew, due, List.mem_filter, decide_eq_true_iff]
  constructor
  · intro c
    by_cases hc : c = b
    · subst hc
      rwa [Function.update_self]
    · rw [Function.update_of_ne hc]
      exact h.le c
  · intro c
    rw [List.map_append]
    by_cases hc : c = b
    · subst hc
      refine .inr fun r hr htop => List.mem_append_right _ ?_
      rw [hdue, htop]
      exact ⟨hr, h.le c⟩
    · rw [Function.update_of_ne hc]
      exact (h.tops c).imp id fun htops r hr htop => List.mem_append_left _ (htops r hr htop)
  · intro c r hr hmem hrank hnodup
    rw [List.map_append] at hmem hnodup
    rcases List.mem_append.mp hmem with hmem | hmem
    · exact h.twice c r hr hmem hrank (List.nodup_append.mp hnodup).1
    · obtain ⟨hrb, hle⟩ := (hdue r).mp hmem
      obtain rfl := hm.bucket_eq hrb hr
      -- the highest records of the bucket come once more
      rcases h.tops b with heq | htops
      · rw [heq] at hle
        exact hrank (le_antisymm (hm.rank_le hr) hle)
      · have hb : m.mEvictionRank b ≠ 0 := by
          intro hzero
          have := h.le b
          rw [hzero] at this
          exact hne (le_antisymm this UInt32.zero_le)
        obtain ⟨x, hx, htop⟩ := hm.exists_top hb
        have hxb := (mem_ranked.mp hx).1
        have hagain : x ∈ new.map Prod.fst := by
          rw [hdue, htop]
          exact ⟨hxb, h.le b⟩
        exact (List.nodup_append.mp hnodup).2.2 x (htops x hxb htop) x hagain rfl

theorem Keeping.run (hkeep : ∀ s r, (visitor s r).1 = .kVisitNextRecord) (hm : Represents m a)
    (h : Keeping m tempRank log) (hlog : ∀ p ∈ log, p.2 = .kVisitNextRecord) (turns n : ℕ) (s : σ) :
    ∃ m' s' log' tempRank', evictFrom (logging visitor) turns n m tempRank (s, log) =
      some (m', s', log') ∧ Keeping m tempRank' log' ∧ ∀ p ∈ log', p.2 = .kVisitNextRecord := by
  induction turns generalizing tempRank log n s with
  | zero => exact ⟨m, s, log, tempRank, rfl, h, hlog⟩
  | succ turns ih =>
    rw [evictFrom]
    split_ifs with hturn
    · dsimp only
      by_cases hzero : (highest tempRank).1 = 0
      · rw [if_pos hzero]
        exact ⟨m, s, log, tempRank, rfl, h, hlog⟩
      · rw [if_neg hzero]
        obtain ⟨m', a', rv, s', new, hvisit, hm', hans, hvisited, -⟩ :=
          hm.visit visitor (highest tempRank).2 (highest tempRank).1 s log
        have hnext : ∀ p ∈ new, p.2 = .kVisitNextRecord := by
          intro p hp
          obtain ⟨s, hs⟩ := hans p hp
          rw [← hs, hkeep]
        obtain rfl := hvisited.same hnext
        obtain ⟨hgoing, hnew⟩ : rv ≠ .kStopVisitingRecords ∧ new.map Prod.fst =
            m'.due (highest tempRank).2 (highest tempRank).1 := by
          rcases hvisited.ended with ⟨-, p, hp, hstop⟩ | ⟨hgoing, -, hnew⟩
          · rw [hnext p hp] at hstop
            cases hstop
          · exact ⟨hgoing, hnew⟩
        obtain ⟨x, hx, hcases⟩ := hm.GetBucketRank (highest tempRank).2 hzero
        have hxle : x ≤ m'.mEvictionRank (highest tempRank).2 := by
          rcases hcases with rfl | ⟨-, r, hr, rfl⟩
          · exact UInt32.zero_le
          · exact hm.rank_le hr
        have hat := ((highest_spec tempRank).2 hzero).1
        rw [hvisit]
        simp only [Option.bind_eq_bind, Option.bind_some]
        rw [if_neg hgoing, hx, Option.bind_some]
        rw [← hat] at hzero hnew
        exact ih (h.step hm hzero hnew hxle) (List.forall_mem_append.mpr ⟨hlog, hnext⟩) _ s'
    · exact ⟨m, s, log, tempRank, rfl, h, hlog⟩

/-! ### Maps that are reached -/

theorem Represents.evictFrom (hm : Represents m a) (turns n : ℕ)
    (tempRank : Fin kBuckets → UInt32) (s : σ) :
    ∃ m' s' a', CacheMap.evictFrom (noting visitor) turns n m tempRank (s, a) =
      some (m', s', a') ∧ Represents m' a' := by
  induction turns generalizing m a n tempRank s with
  | zero => exact ⟨m, s, a, rfl, hm⟩
  | succ turns ih =>
    rw [CacheMap.evictFrom]
    split_ifs
    · dsimp only
      by_cases hzero : (highest tempRank).1 = 0
      · rw [if_pos hzero]
        exact ⟨m, s, a, rfl, hm⟩
      · rw [if_neg hzero]
        obtain ⟨m', rv, s', a', hvisit, hm'⟩ :=
          hm.VisitEachRecord visitor (highest tempRank).2 (highest tempRank).1 s
        rw [hvisit]
        simp only [Option.bind_eq_bind, Option.bind_some]
        split_ifs
        · exact ⟨m', s', a', rfl, hm'⟩
        · obtain ⟨x, hx, -⟩ := hm'.GetBucketRank (highest tempRank).2 hzero
          rw [hx, Option.bind_some]
          exact ih hm' _ _ s'
    · exact ⟨m, s, a, rfl, hm⟩

theorem Reached.represents (h : Reached m a) : Represents m a := by
  induction h with
  | start => exact represents_empty
  | call c _ ha hfits hrun ih =>
    obtain ⟨m', a', hrun', hrep⟩ := ih.run c ha hfits
    rw [hrun] at hrun'
    cases hrun'
    exact hrep
  | @evict m m' a a' σ visitor s s' _ hrun ih =>
    obtain ⟨m₁, s₁, a₁, hrun', hrep⟩ :=
      ih.evictFrom visitor m.mEntryCount.toNat 0 m.mEvictionRank s
    rw [EvictRecords, hrun'] at hrun
    cases hrun
    exact hrep

/-! ### The maps that are evicted from in order -/

theorem evictsInOrder_iff (h : Reached m a) : m.EvictsInOrder ↔ m.Evictable := by
  have hm := h.represents
  have hturns : m.mEntryCount ≤ (0 : ℕ) + m.mEntryCount.toNat := by omega
  constructor
  · intro hall
    have hlevel : m.Level := by
      obtain ⟨m', s', log, hrun, horder⟩ := hall Unit (fun _ _ => (.kVisitNextRecord, ())) ()
      have hkeeping : Keeping m m.mEvictionRank [] :=
        ⟨fun _ => le_refl _, fun _ => .inl rfl, by simp⟩
      obtain ⟨m₁, s₁, log', tempRank, hrun', hkept, hlog⟩ :=
        hkeeping.run (fun _ _ => (.kVisitNextRecord, ())) (fun _ _ => rfl) hm (by simp)
          m.mEntryCount.toNat 0 ()
      rw [EvictRecords, hrun'] at hrun
      cases hrun
      have htop : ∀ b, ∀ r ∈ m.ranked b, r.mEvictionRank = m.mEvictionRank b := by
        intro b r hr
        obtain ⟨hrecord, hne⟩ := mem_ranked.mp hr
        by_contra hrank
        refine hkept.twice b r hrecord (horder.all (fun p hp => ?_) b r hrecord hne) hrank horder.once
        rw [hlog p hp]
        simp
      exact fun b r hr r' hr' => (htop b r hr).trans (htop b r' hr').symm
    refine ⟨hlevel, fun b hb => ?_⟩
    obtain ⟨m', s', log, hrun, horder⟩ := hall Unit (fun _ _ => (.kDeleteRecordAndContinue, ())) ()
    obtain ⟨m₁, s₁, log', hrun', hans, hends⟩ :=
      hm.evicting.run (fun _ _ => (.kDeleteRecordAndContinue, ())) hm hlevel hturns
        (by simp [Answers]) ()
    rw [EvictRecords, hrun'] at hrun
    cases hrun
    refine hends.enough hm (fun p hp => ?_) horder hb
    obtain ⟨_, hanswer⟩ := hans p hp
    exact hanswer.symm
  · intro he σ visitor s
    obtain ⟨m', s', log, hrun, -, hends⟩ :=
      hm.evicting.run visitor hm he.level hturns (by simp [Answers]) s
    exact ⟨m', s', log, hrun, hends.inOrder hm he⟩

instance : Decidable m.Level :=
  inferInstanceAs (Decidable (∀ b, ∀ r ∈ m.ranked b, ∀ r' ∈ m.ranked b, _ = _))

instance : Decidable m.Evictable :=
  decidable_of_iff (m.Level ∧ ∀ b, m.mEvictionRank b ≠ 0 →
      ((m.ahead b).card : ℤ) + (∑ c ∈ m.ahead b, (m.ranked c).length : ℕ) < m.mEntryCount)
    ⟨fun h => ⟨h.1, h.2⟩, fun h => ⟨h.level, h.enough⟩⟩

/-- Records with ranks are added for keys whose hash numbers are not there. -/
def addRanked : List (List UInt8 × UInt32) → CacheMap → Contents → Option (CacheMap × Contents)
  | [], m, a => some (m, a)
  | (key, rank) :: rest, m, a =>
    if a (Hash key) = none then do
      let (m, a) ← (Call.AddRecord ⟨Hash key, rank, 0, 0⟩ {} none).run m a
      addRanked rest m a
    else none

theorem Reached.addRanked {added : List (List UInt8 × UInt32)} (h : Reached m a)
    (hrun : CacheMap.addRanked added m a = some (m', a')) : Reached m' a' := by
  induction added generalizing m a with
  | nil =>
    cases hrun
    exact h
  | cons entry rest ih =>
    rw [CacheMap.addRanked] at hrun
    split_ifs at hrun with hnew
    obtain ⟨⟨m₁, a₁⟩, hfirst, hrest⟩ := Option.bind_eq_some_iff.mp hrun
    exact ih (h.call (.AddRecord _ _ _) ⟨hnew, entry.1, rfl⟩ trivial hfirst) hrest

/-- Two records of one rank in the first bucket, and one of a higher rank and one of rank zero in
another. -/
def crowded : List (List UInt8 × UInt32) :=
  [([32], 5), ([64], 5), ([33], 7), ([65], 0)]

theorem evictsInOrder_crowded :
    ∃ m a, Reached m a ∧ m.mEntryCount = 4 ∧ m.EvictsInOrder := by
  have hrun : ((CacheMap.addRanked crowded empty fun _ => none).any fun x =>
      decide (x.1.mEntryCount = 4 ∧ x.1.Evictable)) = true := by
    decide +kernel
  obtain ⟨x, hadd, hx⟩ := (Option.any_eq_true _ _).mp hrun
  rw [decide_eq_true_iff] at hx
  have hreached := Reached.start.addRanked hadd
  exact ⟨x.1, x.2, hreached, hx.1, (evictsInOrder_iff hreached).mpr hx.2⟩

/-- A log lacks a record that can be evicted, though the visitor has not stopped. -/
def lacks (m : CacheMap) (log : Log) : Bool :=
  log.all (·.2 ≠ .kStopVisitingRecords) &&
    (List.finRange kBuckets).any fun b => (m.ranked b).any fun r => r ∉ log.map Prod.fst

/-- Of two records in two buckets only one is presented when it is deleted. -/
theorem evicts_half : ∃ m a, Reached m a ∧ m.mEntryCount = 2 ∧ ¬ m.EvictsInOrder := by
  have hrun : ((CacheMap.addRanked [([32], 5), ([33], 7)] empty fun _ => none).any fun x =>
      decide (x.1.mEntryCount = 2) && (x.1.EvictRecords (logging fun (_ : Unit) _ =>
        (.kDeleteRecordAndContinue, ())) ((), [])).any fun y => x.1.lacks y.2.2) = true := by
    decide +kernel
  obtain ⟨x, hadd, hx⟩ := (Option.any_eq_true _ _).mp hrun
  rw [Bool.and_eq_true, decide_eq_true_iff] at hx
  obtain ⟨hcount, hevict⟩ := hx
  obtain ⟨y, hy, hlacks⟩ := (Option.any_eq_true _ _).mp hevict
  refine ⟨x.1, x.2, Reached.start.addRanked hadd, hcount, fun hall => ?_⟩
  obtain ⟨m', s', log, hrun', horder⟩ := hall Unit (fun _ _ => (.kDeleteRecordAndContinue, ())) ()
  rw [hy] at hrun'
  cases hrun'
  rw [lacks, Bool.and_eq_true, List.all_eq_true, List.any_eq_true] at hlacks
  obtain ⟨hgoing, b, -, hb⟩ := hlacks
  obtain ⟨r, hr, hnot⟩ := List.any_eq_true.mp hb
  obtain ⟨hrecord, hne⟩ := mem_ranked.mp hr
  refine of_decide_eq_true hnot (horder.all (fun p hp => ?_) b r hrecord hne)
  exact of_decide_eq_true (hgoing p hp)

end CacheMap

end Kompozer.Cache

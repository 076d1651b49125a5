import Kompozer.Cache.Contents
import Mathlib.Algebra.Order.Ring.Nat

/-! The map grows: the buckets are spread from the back, so that none is written over before it
is moved. Adding a record may need this, or may evict one. -/

namespace Kompozer.Cache

open NsResult

namespace CacheMap

variable {m m' : CacheMap} {a : Contents} {b c : Fin kBuckets} {i k n size newPer : ℕ}
  {r : Record} {A A₀ : ℕ → Record}

/-! ### Buckets that are spread -/

theorem memmove_eq {dst src : ℕ} (hd : dst + n ≤ size) (hs : src + n ≤ size) :
    memmove size A dst src n =
      some fun p => if dst ≤ p ∧ p < dst + n then A (src + (p - dst)) else A p := by
  rw [memmove]
  split_ifs with hn h
  · congr 1
    funext p
    rw [if_neg (by omega)]
  · rfl
  · exact absurd ⟨hd, hs⟩ h

/-- The buckets from one on have been spread, and the memory before them is as it was. -/
structure Spread (m : CacheMap) (newPer : ℕ) (A₀ : ℕ → Record) (k : ℕ) (A : ℕ → Record) :
    Prop where
  before : ∀ p < k * m.GetRecordsPerBucket, A p = A₀ p
  used : ∀ b : Fin kBuckets, k ≤ b → ∀ i < m.mBucketUsage b,
    A (b * newPer + i) = A₀ (b * m.GetRecordsPerBucket + i)
  free : ∀ b : Fin kBuckets, k ≤ b → ∀ i, m.mBucketUsage b ≤ i → i < newPer →
    (A (b * newPer + i)).mHashNumber = 0

/-- One bucket is moved, and what is free behind it is cleared. -/
def spreadOne (A : ℕ → Record) (oldPer newPer k count : ℕ) : ℕ → Record :=
  clearFrom (fun p => if k * newPer ≤ p ∧ p < k * newPer + count then
    A (k * oldPer + (p - k * newPer)) else A p) (k * newPer + count) (k * newPer + newPer)

theorem spreadOne_outside {oldPer count p : ℕ} (hc : count ≤ newPer)
    (hp : p < k * newPer ∨ k * newPer + newPer ≤ p) :
    spreadOne A oldPer newPer k count p = A p := by
  rw [spreadOne, clearFrom, if_neg (by omega), if_neg (by omega)]

theorem spreadOne_used {oldPer count : ℕ} (hi : i < count) :
    spreadOne A oldPer newPer k count (k * newPer + i) = A (k * oldPer + i) := by
  rw [spreadOne, clearFrom, if_neg (by omega), if_pos (by omega), Nat.add_sub_cancel_left]

theorem spreadOne_free {oldPer count : ℕ} (hi : count ≤ i) (hip : i < newPer) :
    (spreadOne A oldPer newPer k count (k * newPer + i)).mHashNumber = 0 := by
  rw [spreadOne, clearFrom, if_pos (by omega), Record.mHashNumber_SetHashNumber]

/-- One step of the loop. -/
theorem Spread.step (hs : Spread m newPer A₀ (c + 1) A)
    (hu : m.mBucketUsage c ≤ m.GetRecordsPerBucket) (hper : m.GetRecordsPerBucket ≤ newPer) :
    Spread m newPer A₀ c
      (spreadOne A m.GetRecordsPerBucket newPer c (m.mBucketUsage c)) := by
  have hsucc : ((c : ℕ) + 1) * m.GetRecordsPerBucket =
      c * m.GetRecordsPerBucket + m.GetRecordsPerBucket := Nat.succ_mul _ _
  have hcount : m.mBucketUsage c ≤ newPer := hu.trans hper
  have hle : (c : ℕ) * m.GetRecordsPerBucket ≤ c * newPer := Nat.mul_le_mul_left _ hper
  have hbehind {d : Fin kBuckets} (hcd : (c : ℕ) < d) : c * newPer + newPer ≤ d * newPer := by
    rw [← Nat.succ_mul]
    exact Nat.mul_le_mul_right _ hcd
  constructor
  · intro p hp
    rw [spreadOne_outside hcount (by omega)]
    exact hs.before p (by omega)
  · intro d hd i hi
    by_cases hcd : d = c
    · subst hcd
      rw [spreadOne_used hi]
      exact hs.before _ (by omega)
    · have hlt : (c : ℕ) < d := lt_of_le_of_ne hd fun h => hcd (Fin.ext h.symm)
      have := hbehind hlt
      rw [spreadOne_outside hcount (by omega)]
      exact hs.used d hlt i hi
  · intro d hd i hi hip
    by_cases hcd : d = c
    · subst hcd
      exact spreadOne_free hi hip
    · have hlt : (c : ℕ) < d := lt_of_le_of_ne hd fun h => hcd (Fin.ext h.symm)
      have := hbehind hlt
      rw [spreadOne_outside hcount (by omega)]
      exact hs.free d hlt i hi hip

/-- The loop stays in the new array and spreads every bucket. -/
theorem Spread.loop (hs : Spread m newPer A₀ k A) (hk : k ≤ kBuckets)
    (hu : ∀ b, m.mBucketUsage b ≤ m.GetRecordsPerBucket) (hper : m.GetRecordsPerBucket ≤ newPer)
    (hsize : kBuckets * newPer ≤ size) :
    ∃ A', m.spreadBuckets size m.GetRecordsPerBucket newPer k A = some A' ∧
      Spread m newPer A₀ 0 A' := by
  induction k generalizing A with
  | zero => exact ⟨A, rfl, hs⟩
  | succ k ih =>
    have hkb : k < kBuckets := hk
    have hcount := hu ⟨k, hkb⟩
    have hend : k * newPer + newPer ≤ size := by
      rw [← Nat.succ_mul]
      exact (Nat.mul_le_mul_right _ hk).trans hsize
    have hle : k * m.GetRecordsPerBucket ≤ k * newPer := Nat.mul_le_mul_left _ hper
    have hstep : m.spreadBuckets size m.GetRecordsPerBucket newPer (k + 1) A =
        m.spreadBuckets size m.GetRecordsPerBucket newPer k
          (spreadOne A m.GetRecordsPerBucket newPer k (m.mBucketUsage ⟨k, hkb⟩)) := by
      simp only [spreadBuckets, dif_pos hkb]
      rw [memmove_eq (by omega) (by omega), Option.bind_eq_bind, Option.bind_some,
        if_pos (.inr hend)]
      rfl
    rw [hstep]
    exact ih (Spread.step (c := ⟨k, hkb⟩) hs hcount hper) (by omega)

/-- `GrowRecords` keeps the contents. -/
theorem Represents.GrowRecords (hm : Represents m a) (realloc : Realloc) :
    ∃ rv m', m.GrowRecords realloc = some (rv, m') ∧ Represents m' a ∧
      m'.mBucketUsage = m.mBucketUsage ∧ m.GetRecordsPerBucket ≤ m'.GetRecordsPerBucket := by
  by_cases hmax : kMaxRecordCount ≤ m.mRecordCount
  · exact ⟨_, m, if_pos hmax, hm, rfl, le_rfl⟩
  · obtain ⟨newCount, hnew⟩ : ∃ c, c = min (m.mRecordCount * 2) kMaxRecordCount := ⟨_, rfl⟩
    cases realloc with
    | none => exact ⟨_, m, if_neg hmax, hm, rfl, le_rfl⟩
    | some fresh =>
      have hper : m.GetRecordsPerBucket ≤ newCount / kBuckets :=
        Nat.div_le_div_right (by omega)
      have hu := fun b => (hm.bucket b).usage_le
      obtain ⟨A₀, hA₀⟩ : ∃ A₀ : ℕ → Record, A₀ = fun k =>
        if k < m.mRecordCount then m.mRecordArray k else fresh k := ⟨_, rfl⟩
      have hstart : Spread m (newCount / kBuckets) A₀ kBuckets A₀ :=
        ⟨fun _ _ => rfl, fun b hb => absurd b.isLt (by omega), fun b hb => absurd b.isLt (by omega)⟩
      obtain ⟨A, hA, hspread⟩ := hstart.loop le_rfl hu hper (Nat.mul_div_le newCount kBuckets)
      obtain ⟨m', hm'⟩ : ∃ m' : CacheMap, m' =
        { m with mRecordArray := A, mRecordCount := newCount } := ⟨_, rfl⟩
      have hrun : m.GrowRecords (some fresh) = some (.ok, m') := by
        simp only [CacheMap.GrowRecords, if_neg hmax, ← hnew, ← hA₀, hA, hm']
        rfl
      have hused : ∀ b, ∀ i < m.mBucketUsage b, m.slots b i = m'.slots b i := by
        intro b i hi
        have hlt := CacheMap.slot_lt b (hm.slot_lt hi)
        have hmove := hspread.used b (Nat.zero_le _) i hi
        rw [hA₀] at hmove
        rw [hm']
        exact (hmove.trans (if_pos hlt)).symm
      refine ⟨.ok, m', hrun, ⟨⟨?_, ?_, ?_, ?_⟩, ?_⟩, by rw [hm'], by rwa [hm']⟩
      · rw [hm']
        exact hm.per_pos.trans_le hper
      · intro b
        have hB := hm.bucket b
        have husage : m'.mBucketUsage = m.mBucketUsage := by rw [hm']
        rw [husage]
        constructor
        · rw [hm']
          exact hB.usage_le.trans hper
        · intro i hi hip
          rw [hm'] at hip ⊢
          exact hspread.free b (Nat.zero_le _) i hi hip
        · intro r hr
          exact hB.home r ((InSlots.congr (hused b)).mpr hr)
        · exact hB.keyed.congr (hused b)
      · intro b
        have htop := (hm.rank b).congr (hused b)
        rw [hm'] at htop ⊢
        exact htop
      · rw [hm']
        exact hm.entries
      · intro b
        have hl := (hm.lists b).congr fun r => InSlots.congr (hused b)
        rw [hm'] at hl ⊢
        exact hl

/-! ### A record is added -/

/-- There is room in the bucket. -/
theorem Represents.appendRecord (hm : Represents m a)
    (hroom : m.mBucketUsage b < m.GetRecordsPerBucket) (h0 : r.mHashNumber ≠ 0)
    (hb : GetBucketIndex r.mHashNumber = b) (hnew : a r.mHashNumber = none) :
    ∃ m', m.appendRecord r b = some m' ∧ Represents m' (a.put r) := by
  obtain ⟨n, hn⟩ : ∃ n, n = m.mBucketUsage b := ⟨_, rfl⟩
  have hB := hm.bucket b
  have htop := hm.rank b
  have hl := hm.lists b
  rw [← hn] at hB htop hroom hl
  have hfresh : ∀ x, InSlots (m.slots b) n x → x.mHashNumber ≠ r.mHashNumber := by
    intro x hx heq
    have := (hl r.mHashNumber hb x).mpr ⟨heq, hx⟩
    rw [hnew] at this
    cases this
  obtain ⟨m', hm'⟩ : ∃ m' : CacheMap, m' = { m.setSlot b n r with
    mEntryCount := m.mEntryCount + 1
    mBucketUsage := Function.update m.mBucketUsage b (n + 1) } := ⟨_, rfl⟩
  have hslots : m'.slots b = Function.update (m.slots b) n r := by
    rw [hm']
    show (m.setSlot b n r).slots b = _
    exact slots_setSlot
  have husage : m'.mBucketUsage b = n + 1 := by
    rw [hm']
    exact Function.update_self ..
  have he := elsewhere_setSlot (r := r) (b := b) hroom
  have hp : Pending b m a m' (a.put r) := by
    constructor
    · rw [hm']
      exact ⟨rfl, fun c hc => Function.update_of_ne hc .., fun _ _ => rfl, he.slots⟩
    · rw [hslots, husage]
      exact hB.push hroom h0 hb hfresh
    · rw [husage, ← hn, hm']
      push_cast
      abel
    · intro h hh
      apply Contents.put_of_ne
      rintro rfl
      exact hh hb
    · rw [hslots, husage]
      exact (hl.put hfresh).congr fun x => inSlots_push.symm
  refine ⟨m'.raiseRank b r.mEvictionRank, ?_, hp.raiseRank hm _ ?_⟩
  · rw [CacheMap.appendRecord]
    simp only [← hn, write_slot b hroom, Option.bind_eq_bind, Option.bind_some, hm']
    rfl
  · rw [hslots, husage, hm']
    exact htop.push

/-- The bucket is full, and a record of it makes room. -/
theorem Represents.replaceRecord (hm : Represents m a)
    (hfull : m.mBucketUsage b = m.GetRecordsPerBucket) (h0 : r.mHashNumber ≠ 0)
    (hb : GetBucketIndex r.mHashNumber = b) (hnew : a r.mHashNumber = none) :
    ∃ m' old, m.replaceRecord r b = some (m', old) ∧ old.mHashNumber ≠ 0 ∧
      a old.mHashNumber = some old ∧ Represents m' ((a.remove old.mHashNumber).put r) := by
  have hB := hm.bucket b
  have hpos := hm.per_pos
  obtain ⟨k, hk, hle⟩ := mostFrom_spec b (n := m.mBucketUsage b - 1) (i := 0)
    (by omega) hpos
  have hlt : k < m.mBucketUsage b := by omega
  have hkp := hm.slot_lt hlt
  have hold := hB.home _ (inSlots_of_lt hlt)
  have hfresh : ∀ x, InSlots (m.slots b) (m.mBucketUsage b) x →
      x.mHashNumber = r.mHashNumber → x.mHashNumber = (m.slots b k).mHashNumber := by
    intro x hx heq
    have := (hm.lists b r.mHashNumber hb x).mpr ⟨heq, hx⟩
    rw [hnew] at this
    cases this
  have hp := hm.pending_set hlt h0 hb hfresh
  obtain ⟨m', hm'⟩ : ∃ m', m' = (m.setSlot b k r).raiseRank b r.mEvictionRank := ⟨_, rfl⟩
  have hrun : m.replaceRecord r b =
      if m'.mEvictionRank b ≤ (m.slots b k).mEvictionRank then
        (m'.updateRank b).bind fun m' => some (m', m.slots b k)
      else some (m', m.slots b k) := by
    simp only [CacheMap.replaceRecord, hk, read_slot b hkp, write_slot b hkp,
      Option.bind_eq_bind, Option.bind_some, Option.pure_def, hm']
  have hrank : m'.mEvictionRank b =
      if m.mEvictionRank b < r.mEvictionRank then r.mEvictionRank else m.mEvictionRank b := by
    rw [hm', raiseRank_eq]
    exact Function.update_self ..
  have hlists := (hm.lists b _ hold.2 _).mpr ⟨rfl, inSlots_of_lt hlt⟩
  rw [hrun]
  split_ifs with h₁
  · obtain ⟨m'', hm'', hrep⟩ := (hp.raise r.mEvictionRank).updateRank hm
    rw [← hm'] at hm''
    exact ⟨m'', _, by rw [hm'']; rfl, hold.1, hlists, hrep⟩
  · refine ⟨m', _, rfl, hold.1, hlists, ?_⟩
    rw [hm']
    apply hp.raiseRank hm
    rw [slots_setSlot]
    apply (hm.rank b).set hB.keyed hlt
    rw [← hrank]
    exact not_le.mp h₁

/-- `AddRecord` puts a new record into the map, and reports what it takes out for it. -/
theorem Represents.AddRecord (hm : Represents m a) (h0 : r.mHashNumber ≠ 0)
    (hnew : a r.mHashNumber = none) (oldRecord : Record) (realloc : Realloc) :
    ∃ m' old, m.AddRecord r oldRecord realloc = some (.ok, m', old) ∧
      ((old.mHashNumber = 0 ∧ Represents m' (a.put r)) ∨
        (old.mHashNumber ≠ 0 ∧ a old.mHashNumber = some old ∧
          Represents m' ((a.remove old.mHashNumber).put r))) := by
  obtain ⟨b, hb⟩ : ∃ b, GetBucketIndex r.mHashNumber = b := ⟨_, rfl⟩
  have hle := (hm.bucket b).usage_le
  have hgrow : ∃ m₁, (if m.mBucketUsage b = m.GetRecordsPerBucket then
      (m.GrowRecords realloc).map (·.2) else some m) = some m₁ ∧ Represents m₁ a ∧
      m₁.mBucketUsage b = m.mBucketUsage b := by
    split_ifs
    · obtain ⟨rv, m₁, hm₁, hrep, husage, -⟩ := hm.GrowRecords realloc
      exact ⟨m₁, by rw [hm₁]; rfl, hrep, by rw [husage]⟩
    · exact ⟨m, rfl, hm, rfl⟩
  obtain ⟨m₁, hm₁, hrep, husage⟩ := hgrow
  have hrun : m.AddRecord r oldRecord realloc =
      if m.mBucketUsage b < m₁.GetRecordsPerBucket then
        (m₁.appendRecord r b).bind fun m' => some (.ok, m', oldRecord.SetHashNumber 0)
      else (m₁.replaceRecord r b).bind fun x => some (.ok, x.1, x.2) := by
    by_cases hfull : m.mBucketUsage b = m.GetRecordsPerBucket
    · rw [if_pos hfull] at hm₁
      simp only [CacheMap.AddRecord, hb, if_pos hfull, hm₁, Option.bind_eq_bind,
        Option.bind_some, Option.pure_def]
    · rw [if_neg hfull, Option.some.injEq] at hm₁
      subst hm₁
      simp only [CacheMap.AddRecord, hb, if_neg hfull, Option.bind_eq_bind,
        Option.bind_some, Option.pure_def]
  rw [hrun]
  split_ifs with hroom
  · obtain ⟨m', hm', hrep'⟩ := hrep.appendRecord (by rwa [husage]) h0 hb hnew
    exact ⟨m', _, by rw [hm']; rfl, .inl ⟨rfl, hrep'⟩⟩
  · have hle₁ := (hrep.bucket b).usage_le
    obtain ⟨m', old, hm', hold⟩ := hrep.replaceRecord (by omega) h0 hb hnew
    exact ⟨m', old, by rw [hm']; rfl, .inr hold⟩

end CacheMap

end Kompozer.Cache

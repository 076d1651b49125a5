import Kompozer.Cache.Buckets
import Mathlib.Algebra.BigOperators.Group.Finset.Basic
import Mathlib.Tactic.Abel

/-! The map refines a finite map from hash numbers to records: each operation on a good map does
what it says to the contents, and leaves a good map. -/

namespace Kompozer.Cache

open NsResult

/-! ### Contents -/

/-- A finite map of records under their hash numbers. -/
abbrev Contents := UInt32 → Option Record

namespace Contents

/-- A record is put under its hash number. -/
def put (a : Contents) (r : Record) : Contents := Function.update a r.mHashNumber (some r)

/-- What is under a hash number is removed. -/
def remove (a : Contents) (h : UInt32) : Contents := Function.update a h none

/-- The contents of one bucket are the given records. -/
def Lists (a : Contents) (b : Fin kBuckets) (S : Record → Prop) : Prop :=
  ∀ h, GetBucketIndex h = b → ∀ r, a h = some r ↔ r.mHashNumber = h ∧ S r

variable {a a' : Contents} {b : Fin kBuckets} {S T : Record → Prop} {r : Record} {h : UInt32}

theorem put_of_ne (hne : h ≠ r.mHashNumber) : a.put r h = a h := Function.update_of_ne hne ..

theorem remove_of_ne {k : UInt32} (hne : h ≠ k) : a.remove k h = a h :=
  Function.update_of_ne hne ..

theorem Lists.congr (hl : a.Lists b S) (hST : ∀ r, S r ↔ T r) : a.Lists b T := by
  intro h hb r
  rw [hl h hb r, hST r]

/-- Only what is in the bucket counts. -/
theorem Lists.of_eq (hl : a.Lists b S) (haa : ∀ h, GetBucketIndex h = b → a' h = a h) :
    a'.Lists b S := by
  intro h hb r
  rw [haa h hb, hl h hb r]

theorem Lists.remove (hl : a.Lists b S) (k : UInt32) :
    (a.remove k).Lists b fun r => S r ∧ r.mHashNumber ≠ k := by
  intro h hb r
  by_cases hk : h = k
  · subst hk
    rw [Contents.remove, Function.update_self]
    constructor
    · intro hnone
      cases hnone
    · rintro ⟨rfl, -, hne⟩
      exact absurd rfl hne
  · rw [remove_of_ne hk, hl h hb r]
    constructor
    · rintro ⟨rfl, hr⟩
      exact ⟨rfl, hr, hk⟩
    · rintro ⟨rfl, hr, -⟩
      exact ⟨rfl, hr⟩

theorem Lists.put (hl : a.Lists b S) (hnew : ∀ x, S x → x.mHashNumber ≠ r.mHashNumber) :
    (a.put r).Lists b fun x => S x ∨ x = r := by
  intro h hb x
  by_cases hh : h = r.mHashNumber
  · subst hh
    rw [Contents.put, Function.update_self]
    constructor
    · intro hx
      cases hx
      exact ⟨rfl, .inr rfl⟩
    · rintro ⟨heq, hx | rfl⟩
      · exact absurd heq (hnew x hx)
      · rfl
  · rw [put_of_ne hh, hl h hb x]
    constructor
    · rintro ⟨rfl, hx⟩
      exact ⟨rfl, .inl hx⟩
    · rintro ⟨rfl, hx | rfl⟩
      · exact ⟨rfl, hx⟩
      · exact absurd rfl hh

/-- A record written over another one is a removal and an addition. -/
theorem put_remove_self (a : Contents) (r : Record) :
    (a.remove r.mHashNumber).put r = a.put r :=
  Function.update_idem ..

end Contents

namespace CacheMap

variable {m m' m'' : CacheMap} {a a' : Contents} {b c : Fin kBuckets} {i n : ℕ} {r : Record}

/-! ### Good maps -/

/-- The buckets are in order, and the header says how full they are. -/
structure Good (m : CacheMap) : Prop where
  per_pos : 0 < m.GetRecordsPerBucket
  bucket : ∀ b, BucketOk b (m.slots b) (m.mBucketUsage b) m.GetRecordsPerBucket
  rank : ∀ b, IsTop 0 Record.mEvictionRank (m.slots b) (m.mBucketUsage b) (m.mEvictionRank b)
  entries : m.mEntryCount = ∑ b, (m.mBucketUsage b : ℤ)

/-- A good map with its contents. -/
structure Represents (m : CacheMap) (a : Contents) : Prop extends Good m where
  lists : ∀ b, a.Lists b (InSlots (m.slots b) (m.mBucketUsage b))

/-- Two maps differ in one bucket only. -/
structure Elsewhere (b : Fin kBuckets) (m m' : CacheMap) : Prop where
  count : m'.mRecordCount = m.mRecordCount
  usage : ∀ c ≠ b, m'.mBucketUsage c = m.mBucketUsage c
  rank : ∀ c ≠ b, m'.mEvictionRank c = m.mEvictionRank c
  slots : ∀ c ≠ b, ∀ i < m.GetRecordsPerBucket, m'.slots c i = m.slots c i

theorem Elsewhere.refl : Elsewhere b m m :=
  ⟨rfl, fun _ _ => rfl, fun _ _ => rfl, fun _ _ _ _ => rfl⟩

theorem Elsewhere.per (h : Elsewhere b m m') : m'.GetRecordsPerBucket = m.GetRecordsPerBucket := by
  rw [GetRecordsPerBucket, GetRecordsPerBucket, h.count]

theorem Elsewhere.trans (h : Elsewhere b m m') (h' : Elsewhere b m' m'') :
    Elsewhere b m m'' := by
  constructor
  · rw [h'.count, h.count]
  · intro c hc
    rw [h'.usage c hc, h.usage c hc]
  · intro c hc
    rw [h'.rank c hc, h.rank c hc]
  · intro c hc i hi
    rw [h'.slots c hc i (by rwa [h.per]), h.slots c hc i hi]

theorem elsewhere_setSlot (hi : i < m.GetRecordsPerBucket) : Elsewhere b m (m.setSlot b i r) :=
  ⟨rfl, fun _ _ => rfl, fun _ _ => rfl, fun _ hc _ hj => slots_setSlot_of_ne hc hi hj⟩

/-- A change in one bucket is judged there. -/
theorem Represents.of_elsewhere (h : Represents m a) (he : Elsewhere b m m')
    (hb : BucketOk b (m'.slots b) (m'.mBucketUsage b) m.GetRecordsPerBucket)
    (hr : IsTop 0 Record.mEvictionRank (m'.slots b) (m'.mBucketUsage b) (m'.mEvictionRank b))
    (hn : m'.mEntryCount = m.mEntryCount + ((m'.mBucketUsage b : ℤ) - m.mBucketUsage b))
    (ha : ∀ h, GetBucketIndex h ≠ b → a' h = a h)
    (hl : a'.Lists b (InSlots (m'.slots b) (m'.mBucketUsage b))) : Represents m' a' := by
  have hslots : ∀ c ≠ b, ∀ i < m.mBucketUsage c, m.slots c i = m'.slots c i := fun c hc i hi =>
    (he.slots c hc i (hi.trans_le (h.bucket c).usage_le)).symm
  refine ⟨⟨?_, ?_, ?_, ?_⟩, ?_⟩
  · rw [he.per]
    exact h.per_pos
  · intro c
    rw [he.per]
    by_cases hc : c = b
    · rwa [hc]
    · rw [he.usage c hc]
      exact (h.bucket c).congr fun i hi => (he.slots c hc i hi).symm
  · intro c
    by_cases hc : c = b
    · rwa [hc]
    · rw [he.usage c hc, he.rank c hc]
      exact (h.rank c).congr (hslots c hc)
  · have hsum : ∑ c ∈ Finset.univ.erase b, (m'.mBucketUsage c : ℤ) =
        ∑ c ∈ Finset.univ.erase b, (m.mBucketUsage c : ℤ) := by
      apply Finset.sum_congr rfl
      intro c hc
      rw [he.usage c (Finset.ne_of_mem_erase hc)]
    rw [hn, h.entries, ← Finset.add_sum_erase _ _ (Finset.mem_univ b),
      ← Finset.add_sum_erase _ (fun c => (m'.mBucketUsage c : ℤ)) (Finset.mem_univ b), hsum]
    abel
  · intro c
    by_cases hc : c = b
    · rwa [hc]
    · rw [he.usage c hc]
      apply Contents.Lists.of_eq _ fun h hh => ha h (by rwa [hh])
      exact (h.lists c).congr fun r => InSlots.congr (hslots c hc)

/-! ### Finding -/

/-- A search finds the record of the contents. -/
theorem Represents.findIndex (hm : Represents m a) (h : UInt32) :
    (∃ i < m.mBucketUsage (GetBucketIndex h), m.findIndex h = some (some i) ∧
      (m.slots (GetBucketIndex h) i).mHashNumber = h ∧
      a h = some (m.slots (GetBucketIndex h) i)) ∨
    (m.findIndex h = some none ∧ a h = none ∧
      ∀ r, InSlots (m.slots (GetBucketIndex h)) (m.mBucketUsage (GetBucketIndex h)) r →
        r.mHashNumber ≠ h) := by
  rcases findFrom_spec (GetBucketIndex h) h (hm.bucket _).usage_le with
    ⟨i, hi, hfind, hh⟩ | ⟨hfind, hnone⟩
  · exact .inl ⟨i, hi, hfind, hh, (hm.lists _ h rfl _).mpr ⟨hh, inSlots_of_lt hi⟩⟩
  · have hslots : ∀ r, InSlots (m.slots (GetBucketIndex h))
        (m.mBucketUsage (GetBucketIndex h)) r → r.mHashNumber ≠ h := by
      rintro r ⟨i, hi, rfl⟩
      exact hnone i hi
    refine .inr ⟨hfind, ?_, hslots⟩
    cases ha : a h with
    | none => rfl
    | some r =>
      obtain ⟨hh, hr⟩ := (hm.lists _ h rfl r).mp ha
      exact absurd hh (hslots r hr)

theorem Represents.slot_lt (hm : Represents m a) (hi : i < m.mBucketUsage b) :
    i < m.GetRecordsPerBucket :=
  hi.trans_le (hm.bucket b).usage_le

/-- `FindRecord` gives the record of the contents. -/
theorem Represents.FindRecord (hm : Represents m a) (h : UInt32) :
    m.FindRecord h = some (match a h with
      | some r => (.ok, some r)
      | none => (NS_ERROR_CACHE_KEY_NOT_FOUND, none)) := by
  rcases hm.findIndex h with ⟨i, hi, hfind, -, ha⟩ | ⟨hfind, ha, -⟩
  · simp [CacheMap.FindRecord, hfind, read_slot _ (hm.slot_lt hi), ha]
  · simp [CacheMap.FindRecord, hfind, ha]

/-! ### Ranks -/

/-- The rank that is computed again is the greatest. -/
theorem updateRank_spec (hn : m.mBucketUsage b ≤ m.GetRecordsPerBucket) :
    ∃ x, m.updateRank b = some { m with mEvictionRank := Function.update m.mEvictionRank b x } ∧
      IsTop 0 Record.mEvictionRank (m.slots b) (m.mBucketUsage b) x := by
  obtain ⟨x, hx, -, htop⟩ := rankFrom_spec b hn 0
  exact ⟨x, by simp [updateRank, GetBucketRank, hx], htop⟩

theorem raiseRank_eq (m : CacheMap) (b : Fin kBuckets) (x : UInt32) :
    m.raiseRank b x = { m with
      mEvictionRank := Function.update m.mEvictionRank b
        (if m.mEvictionRank b < x then x else m.mEvictionRank b) } := by
  rw [raiseRank]
  split_ifs with h
  · rfl
  · rw [Function.update_eq_self]

/-- A rank in the header is set. -/
theorem elsewhere_setRank (x : UInt32) :
    Elsewhere b m { m with mEvictionRank := Function.update m.mEvictionRank b x } :=
  ⟨rfl, fun _ _ => rfl, fun _ hc => Function.update_of_ne hc .., fun _ _ _ _ => rfl⟩

/-- A change in one bucket that leaves the rank in the header behind. -/
structure Pending (b : Fin kBuckets) (m : CacheMap) (a : Contents) (m' : CacheMap)
    (a' : Contents) : Prop where
  elsewhere : Elsewhere b m m'
  bucket : BucketOk b (m'.slots b) (m'.mBucketUsage b) m.GetRecordsPerBucket
  entries : m'.mEntryCount = m.mEntryCount + ((m'.mBucketUsage b : ℤ) - m.mBucketUsage b)
  contents : ∀ h, GetBucketIndex h ≠ b → a' h = a h
  lists : a'.Lists b (InSlots (m'.slots b) (m'.mBucketUsage b))

/-- The rank in the header was not behind. -/
theorem Pending.represents (hp : Pending b m a m' a') (hm : Represents m a)
    (hr : IsTop 0 Record.mEvictionRank (m'.slots b) (m'.mBucketUsage b) (m'.mEvictionRank b)) :
    Represents m' a' :=
  hm.of_elsewhere hp.elsewhere hp.bucket hr hp.entries hp.contents hp.lists

/-- The rank is set to the greatest. -/
theorem Pending.setRank (hp : Pending b m a m' a') (hm : Represents m a) {x : UInt32}
    (hr : IsTop 0 Record.mEvictionRank (m'.slots b) (m'.mBucketUsage b) x) :
    Represents { m' with mEvictionRank := Function.update m'.mEvictionRank b x } a' := by
  apply hm.of_elsewhere (hp.elsewhere.trans (elsewhere_setRank x)) hp.bucket _ hp.entries
    hp.contents hp.lists
  show IsTop 0 _ (m'.slots b) _ (Function.update m'.mEvictionRank b x b)
  rwa [Function.update_self]

theorem Pending.updateRank (hp : Pending b m a m' a') (hm : Represents m a) :
    ∃ m'', m'.updateRank b = some m'' ∧ Represents m'' a' := by
  have hle := hp.bucket.usage_le
  rw [← hp.elsewhere.per] at hle
  obtain ⟨x, hx, htop⟩ := updateRank_spec hle
  exact ⟨_, hx, hp.setRank hm htop⟩

/-- The rank does not matter. -/
theorem Pending.raise (hp : Pending b m a m' a') (x : UInt32) :
    Pending b m a (m'.raiseRank b x) a' := by
  rw [raiseRank_eq]
  exact ⟨hp.elsewhere.trans (elsewhere_setRank _), hp.bucket, hp.entries, hp.contents, hp.lists⟩

theorem Pending.raiseRank (hp : Pending b m a m' a') (hm : Represents m a) (x : UInt32)
    (hr : IsTop 0 Record.mEvictionRank (m'.slots b) (m'.mBucketUsage b)
      (if m'.mEvictionRank b < x then x else m'.mEvictionRank b)) :
    Represents (m'.raiseRank b x) a' := by
  rw [raiseRank_eq]
  exact hp.setRank hm hr

/-! ### Records -/

/-- A record is written over one with its own hash number, or over any if its own is new. -/
theorem Represents.pending_set (hm : Represents m a) (hi : i < m.mBucketUsage b)
    (h0 : r.mHashNumber ≠ 0) (hb : GetBucketIndex r.mHashNumber = b)
    (hnew : ∀ x, InSlots (m.slots b) (m.mBucketUsage b) x → x.mHashNumber = r.mHashNumber →
      x.mHashNumber = (m.slots b i).mHashNumber) :
    Pending b m a (m.setSlot b i r) ((a.remove (m.slots b i).mHashNumber).put r) := by
  have hB := hm.bucket b
  have hold := (hB.home _ (inSlots_of_lt hi)).2
  constructor
  · exact elsewhere_setSlot (hm.slot_lt hi)
  · rw [slots_setSlot]
    exact hB.set hi h0 hb hnew
  · simp
  · intro h hh
    rw [Contents.put_of_ne, Contents.remove_of_ne]
    · rintro rfl
      exact hh hold
    · rintro rfl
      exact hh hb
  · rw [slots_setSlot]
    have hl := ((hm.lists b).remove (m.slots b i).mHashNumber).put (r := r)
      fun x ⟨hx, hne⟩ heq => hne (hnew x hx heq)
    exact hl.congr fun x => (hB.keyed.inSlots_set hi).symm

/-- `UpdateRecord` puts a record under a hash number that is there. -/
theorem Represents.UpdateRecord (hm : Represents m a) (r : Record) :
    (∃ m', m.UpdateRecord r = some (.ok, m') ∧ a r.mHashNumber ≠ none ∧
      Represents m' (a.put r)) ∨
    (m.UpdateRecord r = some (NS_ERROR_UNEXPECTED, m) ∧ a r.mHashNumber = none) := by
  rcases hm.findIndex r.mHashNumber with ⟨i, hi, hfind, hh, ha⟩ | ⟨hfind, ha, -⟩
  · left
    have hlt := hm.slot_lt hi
    obtain ⟨b, hb⟩ : ∃ b, b = GetBucketIndex r.mHashNumber := ⟨_, rfl⟩
    rw [← hb] at hi hh ha
    have hp := hm.pending_set (r := r) hi (hh ▸ ((hm.bucket b).home _ (inSlots_of_lt hi)).1) hb.symm
      fun x _ hx => hx.trans hh.symm
    rw [hh, Contents.put_remove_self] at hp
    have hslots : (m.setSlot b i r).slots b = Function.update (m.slots b) i r := slots_setSlot
    have hset := (hm.rank b).set (b := r) (hm.bucket b).keyed hi
    have hrun : m.UpdateRecord r =
        if m.mEvictionRank b < r.mEvictionRank then
          some (.ok, (m.setSlot b i r).raiseRank b r.mEvictionRank)
        else if m.mEvictionRank b = (m.slots b i).mEvictionRank then
          ((m.setSlot b i r).updateRank b).bind fun m' => some (.ok, m')
        else some (.ok, m.setSlot b i r) := by
      simp only [CacheMap.UpdateRecord, hfind, ← hb, read_slot b hlt, write_slot b hlt,
        Option.bind_eq_bind, Option.bind_some, mEvictionRank_setSlot, Option.pure_def]
      rfl
    have hne : a r.mHashNumber ≠ none := by simp [ha]
    rw [hrun]
    split_ifs with h₁ h₂
    · refine ⟨_, rfl, hne, hp.raiseRank hm _ ?_⟩
      rw [hslots]
      apply hset
      rw [if_pos h₁]
      exact ((hm.rank b).le _ (inSlots_of_lt hi)).trans_lt h₁
    · obtain ⟨m', hm', hrep⟩ := hp.updateRank hm
      exact ⟨m', by rw [hm']; rfl, hne, hrep⟩
    · refine ⟨_, rfl, hne, hp.represents hm ?_⟩
      rw [hslots]
      rw [if_neg h₁] at hset
      exact hset (lt_of_le_of_ne ((hm.rank b).le _ (inSlots_of_lt hi)) (Ne.symm h₂))
  · right
    exact ⟨by simp [CacheMap.UpdateRecord, hfind], ha⟩

theorem Represents.pending (hm : Represents m a) (b : Fin kBuckets) : Pending b m a m a :=
  ⟨Elsewhere.refl, hm.bucket b, by simp, fun _ _ => rfl, hm.lists b⟩

/-- The last record of a bucket is moved into the place of another one. -/
theorem Pending.close (hp : Pending b m a m' a') (hu : m'.mBucketUsage b = n + 1)
    (hi : i < n + 1) :
    Pending b m a
      { (m'.setSlot b i (m'.slots b n)).setSlot b n ((m'.slots b n).SetHashNumber 0) with
        mBucketUsage := Function.update m'.mBucketUsage b n
        mEntryCount := m'.mEntryCount - 1 } (a'.remove (m'.slots b i).mHashNumber) := by
  have hB := hp.bucket
  have hl := hp.lists
  rw [hu] at hB hl
  have hold := (hB.home _ (inSlots_of_lt hi)).2
  have hle := hB.usage_le
  rw [← hp.elsewhere.per] at hle
  obtain ⟨m'', hm''⟩ : ∃ m'', m'' =
    (m'.setSlot b i (m'.slots b n)).setSlot b n ((m'.slots b n).SetHashNumber 0) := ⟨_, rfl⟩
  have hslots : m''.slots b = Function.update (Function.update (m'.slots b) i (m'.slots b n)) n
      ((m'.slots b n).SetHashNumber 0) := by
    rw [hm'', slots_setSlot, slots_setSlot]
  have he : Elsewhere b m m'' := by
    rw [hm'']
    exact hp.elsewhere.trans ((elsewhere_setSlot (by omega)).trans (elsewhere_setSlot (by
      rw [GetRecordsPerBucket_setSlot]
      omega)))
  have hn : m''.mEntryCount = m'.mEntryCount := by rw [hm'']; rfl
  rw [← hm'']
  constructor
  · constructor
    · exact he.count
    · intro c hc
      exact (Function.update_of_ne hc ..).trans (hp.elsewhere.usage c hc)
    · exact he.rank
    · exact he.slots
  · show BucketOk b (m''.slots b) (Function.update m'.mBucketUsage b n b) _
    rw [hslots, Function.update_self]
    exact hB.close hi
  · show m'.mEntryCount - 1 = m.mEntryCount + ((Function.update m'.mBucketUsage b n b : ℕ) - _)
    rw [Function.update_self, hp.entries, hu]
    push_cast
    abel
  · intro h hh
    rw [Contents.remove_of_ne, hp.contents h hh]
    rintro rfl
    exact hh hold
  · show Contents.Lists _ b (InSlots (m''.slots b) (Function.update m'.mBucketUsage b n b))
    rw [hslots, Function.update_self]
    exact (hl.remove _).congr fun x => (hB.keyed.inSlots_close hi).symm

/-- `DeleteRecord` removes what is under a hash number. -/
theorem Represents.DeleteRecord (hm : Represents m a) (r : Record) :
    (∃ m', m.DeleteRecord r = some (.ok, m') ∧ a r.mHashNumber ≠ none ∧
      Represents m' (a.remove r.mHashNumber)) ∨
    (m.DeleteRecord r = some (NS_ERROR_UNEXPECTED, m) ∧ a r.mHashNumber = none) := by
  rcases hm.findIndex r.mHashNumber with ⟨i, hi, hfind, hh, ha⟩ | ⟨hfind, ha, -⟩
  · left
    have hne : a r.mHashNumber ≠ none := by simp [ha]
    have hlt := hm.slot_lt hi
    obtain ⟨b, hb⟩ : ∃ b, b = GetBucketIndex r.mHashNumber := ⟨_, rfl⟩
    rw [← hb] at hi hh ha
    obtain ⟨n, hn⟩ : ∃ n, m.mBucketUsage b = n + 1 := ⟨m.mBucketUsage b - 1, by omega⟩
    have hnp : n < m.GetRecordsPerBucket := by
      have := (hm.bucket b).usage_le
      omega
    have hp := (hm.pending b).close hn (show i < n + 1 by omega)
    rw [hh] at hp
    obtain ⟨m', hm'⟩ : ∃ m' : CacheMap, m' =
      { (m.setSlot b i (m.slots b n)).setSlot b n ((m.slots b n).SetHashNumber 0) with
        mBucketUsage := Function.update m.mBucketUsage b n
        mEntryCount := m.mEntryCount - 1 } := ⟨_, rfl⟩
    rw [← hm'] at hp
    have hrun : m.DeleteRecord r =
        if m.mEvictionRank b ≤ (m.slots b i).mEvictionRank then
          (m'.updateRank b).bind fun m' => some (.ok, m')
        else some (.ok, m') := by
      rw [hm']
      simp only [CacheMap.DeleteRecord, hfind, ← hb, read_slot b hlt, hn, Nat.add_sub_cancel,
        closeOpening_spec b (show i ≤ n by omega) hnp, Option.bind_eq_bind, Option.bind_some,
        Option.pure_def]
      rfl
    rw [hrun]
    split_ifs with h₁
    · obtain ⟨m'', hm'', hrep⟩ := hp.updateRank hm
      exact ⟨m'', by rw [hm'']; rfl, hne, hrep⟩
    · refine ⟨m', rfl, hne, hp.represents hm ?_⟩
      have hB := hm.bucket b
      have htop := hm.rank b
      rw [hn] at hB htop
      have hclose := htop.close (c := (m.slots b n).SetHashNumber 0) hB.keyed
        (show i < n + 1 by omega) (not_le.mp h₁)
      rw [hm']
      show IsTop 0 _ (((m.setSlot b i (m.slots b n)).setSlot b n _).slots b)
        (Function.update m.mBucketUsage b n b) _
      rw [slots_setSlot, slots_setSlot, Function.update_self]
      exact hclose
  · right
    exact ⟨by simp [CacheMap.DeleteRecord, hfind], ha⟩

end CacheMap

end Kompozer.Cache

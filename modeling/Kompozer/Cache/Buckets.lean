import Kompozer.Cache.Map
import Kompozer.Lib.Slots

/-! One bucket of the map: its slots in the array, and what each loop over them finds. No loop
leaves the bucket. -/

namespace Kompozer.Cache

open NsResult

/-- Ranks are compared as numbers. -/
instance instLinearOrderUInt32 : LinearOrder UInt32 where
  le_refl := UInt32.le_refl
  le_trans _ _ _ := UInt32.le_trans
  le_antisymm _ _ := UInt32.le_antisymm
  le_total := UInt32.le_total
  lt_iff_le_not_ge a b := by
    rw [UInt32.lt_iff_toNat_lt, UInt32.le_iff_toNat_le, UInt32.le_iff_toNat_le]
    omega
  toDecidableLE a b := a.decLe b
  toDecidableEq := inferInstance
  toDecidableLT a b := a.decLt b

namespace CacheMap

variable {m : CacheMap} {b c : Fin kBuckets} {i j n : ℕ} {r : Record}

/-! ### Slots -/

variable (m) in
/-- The slots from the first record of a bucket on. -/
def slots (b : Fin kBuckets) (i : ℕ) : Record := m.mRecordArray (m.GetFirstRecordInBucket b + i)

variable (m) in
/-- A slot is written. -/
def setSlot (b : Fin kBuckets) (i : ℕ) (r : Record) : CacheMap :=
  { m with mRecordArray := Function.update m.mRecordArray (m.GetFirstRecordInBucket b + i) r }

/-- A bucket lies in the array. -/
theorem slot_lt (b : Fin kBuckets) (h : i < m.GetRecordsPerBucket) :
    m.GetFirstRecordInBucket b + i < m.mRecordCount := by
  have hb : (b : ℕ) + 1 ≤ kBuckets := b.isLt
  calc m.GetFirstRecordInBucket b + i < b * m.GetRecordsPerBucket + m.GetRecordsPerBucket :=
        Nat.add_lt_add_left h _
    _ = (b + 1) * m.GetRecordsPerBucket := (Nat.succ_mul _ _).symm
    _ ≤ kBuckets * m.GetRecordsPerBucket := Nat.mul_le_mul_right _ hb
    _ ≤ m.mRecordCount := Nat.mul_div_le _ _

/-- Two buckets have no slot in common. -/
theorem slot_ne (h : b ≠ c) (hi : i < m.GetRecordsPerBucket) (hj : j < m.GetRecordsPerBucket) :
    m.GetFirstRecordInBucket b + i ≠ m.GetFirstRecordInBucket c + j := by
  intro heq
  have hdiv (d : Fin kBuckets) {k : ℕ} (hk : k < m.GetRecordsPerBucket) :
      (m.GetFirstRecordInBucket d + k) / m.GetRecordsPerBucket = d := by
    rw [GetFirstRecordInBucket, Nat.mul_comm, Nat.mul_add_div (by omega), Nat.div_eq_of_lt hk,
      Nat.add_zero]
  apply h
  apply Fin.ext
  rw [← hdiv b hi, ← hdiv c hj, heq]

theorem read_slot (b : Fin kBuckets) (h : i < m.GetRecordsPerBucket) :
    m.read (m.GetFirstRecordInBucket b + i) = some (m.slots b i) :=
  if_pos (slot_lt b h)

theorem write_slot (b : Fin kBuckets) (h : i < m.GetRecordsPerBucket) (r : Record) :
    m.write (m.GetFirstRecordInBucket b + i) r = some (m.setSlot b i r) :=
  if_pos (slot_lt b h)

@[simp] theorem GetRecordsPerBucket_setSlot :
    (m.setSlot b i r).GetRecordsPerBucket = m.GetRecordsPerBucket := rfl
@[simp] theorem GetFirstRecordInBucket_setSlot :
    (m.setSlot b i r).GetFirstRecordInBucket c = m.GetFirstRecordInBucket c := rfl
@[simp] theorem mBucketUsage_setSlot : (m.setSlot b i r).mBucketUsage = m.mBucketUsage := rfl
@[simp] theorem mEvictionRank_setSlot : (m.setSlot b i r).mEvictionRank = m.mEvictionRank := rfl
@[simp] theorem mEntryCount_setSlot : (m.setSlot b i r).mEntryCount = m.mEntryCount := rfl

@[simp] theorem slots_setSlot :
    (m.setSlot b i r).slots b = Function.update (m.slots b) i r := by
  funext j
  by_cases hj : j = i
  · subst hj
    rw [Function.update_self]
    exact Function.update_self ..
  · rw [Function.update_of_ne hj]
    exact Function.update_of_ne (by simpa using hj) ..

theorem slots_setSlot_of_ne (h : c ≠ b) (hi : i < m.GetRecordsPerBucket)
    (hj : j < m.GetRecordsPerBucket) : (m.setSlot b i r).slots c j = m.slots c j :=
  Function.update_of_ne (slot_ne h hj hi) ..

/-! ### Loops -/

/-- The search finds a slot with the hash number, or there is none. -/
theorem findFrom_spec (b : Fin kBuckets) (h : UInt32) (hn : n ≤ m.GetRecordsPerBucket) :
    (∃ i < n, m.findFrom (m.GetFirstRecordInBucket b) h n = some (some i) ∧
      (m.slots b i).mHashNumber = h) ∨
    (m.findFrom (m.GetFirstRecordInBucket b) h n = some none ∧
      ∀ i < n, (m.slots b i).mHashNumber ≠ h) := by
  induction n with
  | zero => exact .inr ⟨rfl, fun i hi => absurd hi (Nat.not_lt_zero i)⟩
  | succ n ih =>
    have hread := read_slot b (show n < m.GetRecordsPerBucket by omega)
    by_cases hr : (m.slots b n).mHashNumber = h
    · refine .inl ⟨n, by omega, ?_, hr⟩
      simp [findFrom, hread, hr]
    · have hnext : m.findFrom (m.GetFirstRecordInBucket b) h (n + 1) =
          m.findFrom (m.GetFirstRecordInBucket b) h n := by
        simp [findFrom, hread, hr]
      rw [hnext]
      rcases ih (by omega) with ⟨i, hi, hfind, hh⟩ | ⟨hfind, hnone⟩
      · exact .inl ⟨i, by omega, hfind, hh⟩
      · refine .inr ⟨hfind, fun i hi => ?_⟩
        by_cases hin : i = n
        · rwa [hin]
        · exact hnone i (by omega)

/-- The loop over the ranks ends with the greatest, or with what it begins with. -/
theorem rankFrom_spec (b : Fin kBuckets) (hn : n ≤ m.GetRecordsPerBucket) (rank : UInt32) :
    ∃ x, m.rankFrom (m.GetFirstRecordInBucket b) 0 n rank = some x ∧ rank ≤ x ∧
      IsTop rank Record.mEvictionRank (m.slots b) n x := by
  induction n generalizing rank with
  | zero => exact ⟨rank, rfl, le_rfl, IsTop.zero⟩
  | succ n ih =>
    have hread := read_slot b (show n < m.GetRecordsPerBucket by omega)
    obtain ⟨x, hx, hle, htop⟩ := ih (by omega)
      (if rank < (m.slots b n).mEvictionRank then (m.slots b n).mEvictionRank else rank)
    refine ⟨x, ?_, ?_, ?_, ?_⟩
    · simpa [rankFrom, hread] using hx
    · split_ifs at hle with hlt
      · exact hlt.le.trans hle
      · exact hle
    · intro r hr
      rcases inSlots_succ.mp hr with hr | rfl
      · exact htop.le r hr
      · split_ifs at hle with hlt
        · exact hle
        · exact (not_lt.mp hlt).trans hle
    · rcases htop.reached with hz | ⟨r, hr, hrx⟩
      · split_ifs at hz with hlt
        · exact .inr ⟨_, inSlots_of_lt (Nat.lt_succ_self n), hz.symm⟩
        · exact .inl hz
      · exact .inr ⟨r, inSlots_succ.mpr (.inl hr), hrx⟩

/-- The search for the record with the highest rank ends in the bucket. -/
theorem mostFrom_spec (b : Fin kBuckets) (hn : n < m.GetRecordsPerBucket)
    (hi : i < m.GetRecordsPerBucket) :
    ∃ k, m.mostFrom (m.GetFirstRecordInBucket b) n i = some k ∧ k ≤ max n i := by
  induction n generalizing i with
  | zero => exact ⟨i, rfl, by omega⟩
  | succ n ih =>
    have hr := read_slot b hn
    have hs := read_slot b hi
    obtain ⟨k, hk, hle⟩ := @ih
      (if (m.slots b i).mEvictionRank < (m.slots b (n + 1)).mEvictionRank then n + 1 else i)
      (by omega) (by split_ifs <;> assumption)
    refine ⟨k, by simpa [mostFrom, hr, hs] using hk, ?_⟩
    split_ifs at hle <;> omega

/-- A slot is closed with the last one in use. -/
theorem closeOpening_spec (b : Fin kBuckets) (hi : i ≤ n) (hn : n < m.GetRecordsPerBucket) :
    m.closeOpening (m.GetFirstRecordInBucket b) i n =
      some ((m.setSlot b i (m.slots b n)).setSlot b n ((m.slots b n).SetHashNumber 0)) := by
  have hlast : (m.setSlot b i (m.slots b n)).slots b n = m.slots b n := by
    rw [slots_setSlot]
    by_cases hin : n = i
    · subst hin
      exact Function.update_self ..
    · exact Function.update_of_ne hin ..
  have hread := @read_slot (m.setSlot b i (m.slots b n)) n b hn
  have hwrite := @write_slot (m.setSlot b i (m.slots b n)) n b hn ((m.slots b n).SetHashNumber 0)
  rw [GetFirstRecordInBucket_setSlot, hlast] at hread
  rw [GetFirstRecordInBucket_setSlot] at hwrite
  simp [closeOpening, read_slot b hn, write_slot b (show i < m.GetRecordsPerBucket by omega),
    hread, hwrite]

/-! ### Buckets -/

/-- The records of a bucket are at home in it, each under its own hash number, and the slots
behind them are free. -/
structure BucketOk (b : Fin kBuckets) (s : ℕ → Record) (n per : ℕ) : Prop where
  usage_le : n ≤ per
  unused : ∀ i, n ≤ i → i < per → (s i).mHashNumber = 0
  home : ∀ r, InSlots s n r → r.mHashNumber ≠ 0 ∧ GetBucketIndex r.mHashNumber = b
  keyed : Keyed Record.mHashNumber s n

variable {s t : ℕ → Record} {per : ℕ}

theorem BucketOk.congr (h : BucketOk b s n per) (hst : ∀ i < per, s i = t i) :
    BucketOk b t n per := by
  have hle := h.usage_le
  have hn : ∀ i < n, s i = t i := fun i hi => hst i (by omega)
  constructor
  · exact hle
  · intro i hi hip
    rw [← hst i hip]
    exact h.unused i hi hip
  · intro r hr
    exact h.home r ((InSlots.congr hn).mpr hr)
  · exact h.keyed.congr hn

theorem BucketOk.push (h : BucketOk b s n per) (hn : n < per) (h0 : r.mHashNumber ≠ 0)
    (hb : GetBucketIndex r.mHashNumber = b)
    (hnew : ∀ x, InSlots s n x → x.mHashNumber ≠ r.mHashNumber) :
    BucketOk b (Function.update s n r) (n + 1) per := by
  constructor
  · exact hn
  · intro i hi hip
    rw [Function.update_of_ne (by omega)]
    exact h.unused i (by omega) hip
  · intro x hx
    rcases inSlots_push.mp hx with hx | rfl
    · exact h.home x hx
    · exact ⟨h0, hb⟩
  · exact h.keyed.push hnew

theorem BucketOk.set (h : BucketOk b s n per) (hi : i < n) (h0 : r.mHashNumber ≠ 0)
    (hb : GetBucketIndex r.mHashNumber = b)
    (hnew : ∀ x, InSlots s n x → x.mHashNumber = r.mHashNumber →
      x.mHashNumber = (s i).mHashNumber) :
    BucketOk b (Function.update s i r) n per := by
  constructor
  · exact h.usage_le
  · intro j hj hjp
    rw [Function.update_of_ne (by omega)]
    exact h.unused j hj hjp
  · intro x hx
    rcases (h.keyed.inSlots_set hi).mp hx with ⟨hx, -⟩ | rfl
    · exact h.home x hx
    · exact ⟨h0, hb⟩
  · exact h.keyed.set hi hnew

theorem BucketOk.close (h : BucketOk b s (n + 1) per) (hi : i < n + 1) :
    BucketOk b (Function.update (Function.update s i (s n)) n ((s n).SetHashNumber 0)) n per := by
  have hle := h.usage_le
  constructor
  · omega
  · intro j hj hjp
    by_cases hjn : j = n
    · rw [hjn, Function.update_self, Record.mHashNumber_SetHashNumber]
    · rw [Function.update_of_ne hjn, Function.update_of_ne (by omega)]
      exact h.unused j (by omega) hjp
  · intro x hx
    exact h.home x ((h.keyed.inSlots_close hi).mp hx).1
  · exact h.keyed.close hi

end CacheMap

end Kompozer.Cache

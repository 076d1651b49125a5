import Kompozer.Dhash.Store

/-! The table: its counters are exact, a place is free, and its entries are those of a map. Every
operation keeps this, unless `initEntry` fails for a removed entry. -/

namespace Kompozer.Dhash

variable {κ β : Type}

theorem uint32_of_lt {n : ℕ} (h : n < 2 ^ 32) : uint32 n = n := Nat.mod_eq_of_lt h

theorem uint32_pred {n : ℕ} (hpos : 0 < n) (h : n < 2 ^ 32) : uint32 (n + 2 ^ 32 - 1) = n - 1 := by
  rw [show n + 2 ^ 32 - 1 = n - 1 + 2 ^ 32 by omega, uint32, Nat.add_mod_right,
    Nat.mod_eq_of_lt (by omega)]

/-- A table of `2 ^ k` places. -/
structure Good (ops : TableOps κ) (k : ℕ) (t : Table κ β) : Prop where
  four_le : 4 ≤ k
  lt : k < 24
  shift : t.hashShift = JS_DHASH_BITS - k
  maxAlpha : t.maxAlphaFrac < 2 ^ 8
  minAlpha : t.minAlphaFrac < 2 ^ 7
  probed : Probed ops k t.entryStore
  distinct : Distinct ops (contents t.entryStore)
  entryCount_eq : t.entryCount = t.entryStore.countP Entry.isLive
  removedCount_eq : t.removedCount = t.entryStore.countP Entry.isRemoved
  room : t.entryCount + t.removedCount < 2 ^ k

/-- The entries of a table. -/
def Table.map (t : Table κ β) : List (κ × β) := contents t.entryStore

namespace Good
variable {ops : TableOps κ} {k : ℕ} {t : Table κ β}

theorem log2_eq (h : Good ops k t) : JS_DHASH_BITS - t.hashShift = k := by
  have := h.lt
  rw [h.shift]
  unfold JS_DHASH_BITS
  omega

theorem size_eq (h : Good ops k t) : t.size = 2 ^ k := by rw [Table.size, h.log2_eq]

theorem size_le (h : Good ops k t) : 2 ^ k ≤ 2 ^ 23 :=
  Nat.pow_le_pow_right (by omega) (Nat.le_of_lt_succ h.lt)

theorem le_size (h : Good ops k t) : 2 ^ 4 ≤ 2 ^ k := Nat.pow_le_pow_right (by omega) h.four_le

theorem sum_eq (h : Good ops k t) :
    uint32 (t.entryCount + t.removedCount) = t.entryCount + t.removedCount := by
  have := h.room
  have := h.size_le
  exact Nat.mod_eq_of_lt (by omega)

theorem exists_free (h : Good ops k t) :
    ∃ f < 2 ^ k, (entryAt t.entryStore f).isFree = true := by
  have hroom := h.room
  rw [h.entryCount_eq, h.removedCount_eq, ← h.probed.length_eq] at hroom
  obtain ⟨f, hf, hfree⟩ := Dhash.exists_free hroom
  exact ⟨f, by rwa [h.probed.length_eq] at hf, hfree⟩

theorem length_map (h : Good ops k t) : t.map.length = t.entryCount := by
  rw [h.entryCount_eq, Table.map, contents, List.length_filterMap_eq_countP]
  apply List.countP_congr
  intro e he
  obtain ⟨i, hi⟩ := List.mem_iff_getElem?.mp he
  constructor
  · intro hsome
    obtain ⟨kv, hkv⟩ := Option.isSome_iff_exists.mp hsome
    exact isLive_of_content hkv
  · intro hlive
    rw [← entryAt_of_getElem? hi] at hlive ⊢
    obtain ⟨kv, hkv, -⟩ := h.probed.live i hlive
    rw [hkv]
    rfl

theorem search (h : Good ops k t) (hl : ops.Lawful) {fuel : ℕ} (hfuel : 2 ^ 24 ≤ fuel) (key : κ)
    (add : Bool) : ∃ i store', SearchTable fuel ops t.hashShift t.entryStore key (ops.keyHash key)
      add = some (i, store') ∧ Found ops k key add t.entryStore i store' := by
  obtain ⟨f, hf, hfree⟩ := h.exists_free
  have := h.size_le
  have := h.four_le
  have := h.lt
  rw [h.shift]
  exact exists_found (by omega) (by omega) hl.hash h.probed hf hfree (by omega) key add

/-- A search leaves the table good. -/
theorem marked (h : Good ops k t) {store' : List (Entry κ β)} (hm : Marked t.entryStore store') :
    Good ops k { t with entryStore := store' } where
  four_le := h.four_le
  lt := h.lt
  shift := h.shift
  maxAlpha := h.maxAlpha
  minAlpha := h.minAlpha
  probed := h.probed.marked hm
  distinct := by
    rw [hm.contents_eq]
    exact h.distinct
  entryCount_eq := h.entryCount_eq.trans hm.live_eq.symm
  removedCount_eq := h.removedCount_eq.trans hm.removed_eq.symm
  room := h.room

/-- A new store for the same entries. -/
theorem changeTable (h : Good ops k t) (hl : ops.Lawful) {fuel : ℕ} (hfuel : 2 ^ 24 ≤ fuel)
    {delta : ℤ} {k' : ℕ} (hk' : ((k : ℤ) + delta).toNat = k') (hfour : 4 ≤ k')
    (hroom : t.entryCount < 2 ^ k') (alloc : Bool) :
    (ChangeTable fuel ops t delta alloc = some (t, false) ∧ (alloc = false ∨ 24 ≤ k')) ∨
      ∃ t', ChangeTable fuel ops t delta alloc = some (t', true) ∧ Good ops k' t' ∧
        t'.map.Perm t.map ∧ t'.entryCount = t.entryCount ∧ t'.removedCount = 0 := by
  unfold ChangeTable
  simp only [h.log2_eq, hk']
  by_cases hlimit : JS_DHASH_SIZE_LIMIT ≤ 2 ^ k'
  · rw [if_pos hlimit]
    exact .inl ⟨rfl, .inr ((Nat.pow_le_pow_iff_right (by omega : 1 < 2)).mp hlimit)⟩
  · rw [if_neg hlimit]
    have hk24 : k' < 24 := by
      by_contra hge
      exact hlimit (Nat.pow_le_pow_right (by omega) (by omega))
    cases alloc with
    | false => exact .inl ⟨rfl, .inl rfl⟩
    | true =>
      right
      rw [if_neg (by decide)]
      have hlive : ∀ e ∈ t.entryStore, ∀ kv, e.content = some kv →
          clearFlag e.keyHash = ops.keyHash kv.1 := by
        intro e he kv hkv
        obtain ⟨i, hi⟩ := List.mem_iff_getElem?.mp he
        rw [← entryAt_of_getElem? hi] at hkv ⊢
        obtain ⟨kv', hkv', hclear⟩ := h.probed.live i (isLive_of_content hkv)
        rw [hkv, Option.some.injEq] at hkv'
        rw [hclear, hkv']
      have hlen := h.length_map
      have hpow : 2 ^ k' ≤ 2 ^ 24 := Nat.pow_le_pow_right (by omega) (by omega)
      obtain ⟨store', heq, hfresh, hperm, hcount⟩ := moveEntries_spec hl (by omega) (by omega)
        (by omega : 2 ^ k' ≤ fuel) t.entryStore hlive
        (Fresh.replicate ops (k := k') (by rw [← Table.map, hlen]; exact hroom))
        (by rw [contents_replicate, List.append_nil]; exact h.distinct)
      rw [contents_replicate, List.append_nil] at hperm
      rw [List.countP_replicate, ← Table.map, hlen] at hcount
      have hcount' : store'.countP Entry.isLive = t.entryCount := hcount
      rw [heq]
      refine ⟨_, rfl, ?_, hperm, rfl, rfl⟩
      exact {
        four_le := hfour
        lt := hk24
        shift := rfl
        maxAlpha := h.maxAlpha
        minAlpha := h.minAlpha
        probed := hfresh.probed
        distinct := h.distinct.perm hl hperm.symm
        entryCount_eq := hcount'.symm
        removedCount_eq := hfresh.removed_eq.symm
        room := hroom }

/-- The store when an entry is cleared: `e` is a free entry or a removed one. -/
theorem cleared (h : Good ops k t) {i : ℕ} {kv : κ × β}
    (hi : (entryAt t.entryStore i).content = some kv) {e : Entry κ β} (he : e.isLive = false)
    (hflag : (entryAt t.entryStore i).keyHash % 2 = 1 → e.keyHash % 2 = 1) :
    Probed ops k (t.entryStore.set i e) ∧
      (kv :: contents (t.entryStore.set i e)).Perm (contents t.entryStore) ∧
      (t.entryStore.set i e).countP Entry.isLive + 1 = t.entryCount ∧
      (t.entryStore.set i e).countP Entry.isRemoved = t.removedCount + e.isRemoved.toNat := by
  have hlive := isLive_of_content hi
  have hlt : i < t.entryStore.length := lt_of_not_free (by rw [Entry.isLive_iff] at hlive; omega)
  have hremoved : (entryAt t.entryStore i).isRemoved = false := by
    rw [Entry.isLive_iff] at hlive
    simp only [Entry.isRemoved, decide_eq_false_iff_not]
    omega
  have hcountLive := countP_set_entryAt Entry.isLive hlt e
  have hcountRemoved := countP_set_entryAt Entry.isRemoved hlt e
  have hperm := contents_set_perm hlt e
  rw [hi, content_of_not_live he] at hperm
  rw [hlive, he, ← h.entryCount_eq] at hcountLive
  rw [hremoved, ← h.removedCount_eq] at hcountRemoved
  refine ⟨h.probed.set (by rwa [h.probed.length_eq] at hlt) hflag fun hlive' => ?_, hperm,
    hcountLive, hcountRemoved⟩
  rw [he] at hlive'
  exact Bool.noConfusion hlive'

/-- An entry is removed. -/
theorem rawRemove (h : Good ops k t) (hl : ops.Lawful) {i : ℕ} {kv : κ × β}
    (hi : (entryAt t.entryStore i).content = some kv) :
    Good ops k (JS_DHashTableRawRemove t i) ∧
      (kv :: (JS_DHashTableRawRemove t i).map).Perm t.map := by
  have hsize := h.size_le
  have hroom := h.room
  have hcount := uint32_pred (n := t.entryCount) (by
    have := h.cleared hi (e := ⟨1, none⟩) rfl fun _ => rfl
    omega) (by omega)
  unfold JS_DHashTableRawRemove Table.map
  rw [hcount]
  split_ifs with hodd
  · obtain ⟨hprobed, hperm, hlive, hremoved⟩ := h.cleared hi (e := ⟨1, none⟩) rfl fun _ => rfl
    have hone : (Entry.isRemoved (⟨1, none⟩ : Entry κ β)).toNat = 1 := rfl
    rw [hone] at hremoved
    have hcount' : uint32 (t.removedCount + 1) = t.removedCount + 1 := uint32_of_lt (by omega)
    have hpred : t.entryCount - 1 =
        (t.entryStore.set i (⟨1, none⟩ : Entry κ β)).countP Entry.isLive := by omega
    rw [hcount']
    refine ⟨?_, hperm⟩
    exact {
      four_le := h.four_le
      lt := h.lt
      shift := h.shift
      maxAlpha := h.maxAlpha
      minAlpha := h.minAlpha
      probed := hprobed
      distinct := (List.pairwise_cons.mp (h.distinct.perm hl hperm.symm)).2
      entryCount_eq := hpred
      removedCount_eq := hremoved.symm
      room := by
        change t.entryCount - 1 + (t.removedCount + 1) < 2 ^ k
        omega }
  · obtain ⟨hprobed, hperm, hlive, hremoved⟩ := h.cleared hi (e := ⟨0, none⟩) rfl
      fun hodd' => absurd hodd' hodd
    have hzero : (Entry.isRemoved (⟨0, none⟩ : Entry κ β)).toNat = 0 := rfl
    rw [hzero] at hremoved
    have hpred : t.entryCount - 1 =
        (t.entryStore.set i (⟨0, none⟩ : Entry κ β)).countP Entry.isLive := by omega
    refine ⟨?_, hperm⟩
    exact {
      four_le := h.four_le
      lt := h.lt
      shift := h.shift
      maxAlpha := h.maxAlpha
      minAlpha := h.minAlpha
      probed := hprobed
      distinct := (List.pairwise_cons.mp (h.distinct.perm hl hperm.symm)).2
      entryCount_eq := hpred
      removedCount_eq := hremoved.symm
      room := by
        change t.entryCount - 1 + t.removedCount < 2 ^ k
        omega }

/-- A place for a new entry is written. -/
theorem claimed (h : Good ops k t) (hl : ops.Lawful) {i : ℕ} (hi : i < 2 ^ k) {key : κ}
    (value : β) (hnone : ∀ kv ∈ t.map, ops.matchEntry kv.1 key = false)
    (hlive : (entryAt t.entryStore i).isLive = false)
    (hpath : ∃ j, probe k (ops.keyHash key) j = i ∧
      ∀ m < j, (entryAt t.entryStore (probe k (ops.keyHash key) m)).keyHash % 2 = 1)
    (hroom : t.entryCount + t.removedCount + 1 < 2 ^ k) :
    Good ops k (claim ops t i key value true).1 ∧
      (claim ops t i key value true).1.map.Perm ((key, value) :: t.map) ∧
      (claim ops t i key value true).2 = .entry (some (key, value)) := by
  have hsize := h.size_le
  have hspec := keyHash_spec ops key
  have hlt : i < t.entryStore.length := by rwa [h.probed.length_eq]
  unfold claim
  simp only [hlive, Bool.false_eq_true, if_false, Bool.true_eq_false]
  set removed := (entryAt t.entryStore i).isRemoved with hremoved
  set e : Entry κ β :=
    ⟨if removed = true then setFlag (ops.keyHash key) else ops.keyHash key, some (key, value)⟩ with he
  have hnewlive : e.isLive = true := by
    rw [Entry.isLive_iff, he]
    simp only [setFlag]
    split_ifs <;> omega
  have hnewremoved : e.isRemoved = false := by
    rw [Entry.isLive_iff] at hnewlive
    simp only [Entry.isRemoved, decide_eq_false_iff_not]
    omega
  have hclear : clearFlag e.keyHash = ops.keyHash key := by
    rw [he]
    dsimp only
    split_ifs
    · rw [clearFlag_setFlag, hspec.2.2]
    · exact hspec.2.2
  have hcontent : e.content = some (key, value) := by rw [Entry.content, hnewlive]; rfl
  have hcountLive := countP_set_entryAt Entry.isLive hlt e
  have hcountRemoved := countP_set_entryAt Entry.isRemoved hlt e
  rw [hlive, hnewlive, ← h.entryCount_eq] at hcountLive
  rw [← hremoved, hnewremoved, ← h.removedCount_eq] at hcountRemoved
  simp only [Bool.toNat_false, Bool.toNat_true] at hcountLive hcountRemoved
  have hperm := contents_set_perm hlt e
  rw [content_of_not_live hlive, hcontent] at hperm
  have hcount : uint32 (t.entryCount + 1) = t.entryCount + 1 := uint32_of_lt (by omega)
  have hprobed : Probed ops k (t.entryStore.set i e) := by
    apply h.probed.set hi
    · intro hodd
      rcases not_live_iff.mp hlive with hfree | hr
      · rw [Entry.isFree_iff.mp hfree] at hodd
        omega
      · rw [he, hremoved, hr]
        simp only [if_true, setFlag]
        omega
    · intro _
      exact ⟨_, hcontent, hclear, hpath⟩
  have hdistinct : Distinct ops (contents (t.entryStore.set i e)) := by
    apply Distinct.perm hl _ hperm.symm
    exact List.pairwise_cons.mpr ⟨fun kv hkv => hl.symm_false (hnone kv hkv), h.distinct⟩
  have hcount' : (if removed = true then uint32 (t.removedCount + 2 ^ 32 - 1) else
      t.removedCount) + removed.toNat = t.removedCount := by
    have hle : removed.toNat ≤ t.removedCount := by omega
    split_ifs with hr
    · rw [hr, Bool.toNat_true] at hle ⊢
      rw [uint32_pred hle (by omega)]
      omega
    · rw [Bool.not_eq_true] at hr
      rw [hr]
      rfl
  have hsucc : t.entryCount + 1 = (t.entryStore.set i e).countP Entry.isLive := by omega
  have hremovedCount : (if removed = true then uint32 (t.removedCount + 2 ^ 32 - 1) else
      t.removedCount) = (t.entryStore.set i e).countP Entry.isRemoved := by omega
  refine ⟨?_, hperm, trivial⟩
  exact {
    four_le := h.four_le
    lt := h.lt
    shift := h.shift
    maxAlpha := h.maxAlpha
    minAlpha := h.minAlpha
    probed := hprobed
    distinct := hdistinct
    entryCount_eq := hcount.trans hsucc
    removedCount_eq := hremovedCount
    room := by
      change uint32 (t.entryCount + 1) + (if removed = true then _ else _) < 2 ^ k
      rw [hcount]
      omega }

end Good

end Kompozer.Dhash

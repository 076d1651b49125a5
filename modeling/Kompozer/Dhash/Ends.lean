import Kompozer.Dhash.Run

/-! Searches end. The step of the probes is odd, so they visit every place, and in a store with a
free place a search takes no more rounds than there are places. In a store without one it goes on
for ever. -/

namespace Kompozer.Dhash

variable {κ β : Type}

/-! ### One store -/

/-- Every search of a store ends within as many rounds as it has places, whatever the key and the
hash. -/
def SearchEnds (ops : TableOps κ) (hashShift : ℕ) (store : List (Entry κ β)) : Prop :=
  ∀ key keyHash add, keyHash < 2 ^ 32 →
    ∃ r, SearchTable (2 ^ (JS_DHASH_BITS - hashShift)) ops hashShift store key keyHash add = some r

section Store
variable {ops : TableOps κ} {k hash : ℕ} {key : κ} {add : Bool}

theorem searchFrom_ends {goal : ℕ} (n : ℕ) :
    ∀ {j : ℕ} {firstRemoved : Option ℕ} {store : List (Entry κ β)},
      (entryAt store (probe k hash goal)).isFree = true → j ≤ goal → goal < j + n + 1 →
      ∃ r, searchFrom ops key hash add (HASH2 hash k (JS_DHASH_BITS - k)) (2 ^ k) n
        (probe k hash j) firstRemoved store = some r := by
  induction n with
  | zero =>
    intro j firstRemoved store hgoal hle hlt
    obtain rfl : j = goal := by omega
    exact ⟨_, by rw [searchFrom, if_pos hgoal]⟩
  | succ n ih =>
    intro j firstRemoved store hgoal hle hlt
    unfold searchFrom
    dsimp only
    by_cases hfree : (entryAt store (probe k hash j)).isFree = true
    · exact ⟨_, if_pos hfree⟩
    have hne : j ≠ goal := by
      rintro rfl
      exact hfree hgoal
    rw [if_neg hfree]
    split_ifs with hhits hremoved hadd
    · exact ⟨_, rfl⟩
    · exact ih (j := j + 1) hgoal (by omega) (by omega)
    · -- marking an entry frees none and takes none
      have hlive : (entryAt store (probe k hash j)).isLive = true := by
        rw [Entry.isLive_iff]
        simp only [Entry.isFree, Entry.isRemoved, decide_eq_true_eq] at hfree hremoved
        omega
      exact ih (j := j + 1) (by rwa [(Marked.set hlive).free_iff]) (by omega) (by omega)
    · exact ih (j := j + 1) hgoal (by omega) (by omega)

theorem searchEnds_of_free (hk : 0 < k) (hk' : k ≤ 32) {store : List (Entry κ β)} {f : ℕ}
    (hf : f < 2 ^ k) (hfree : (entryAt store f).isFree = true) :
    SearchEnds ops (JS_DHASH_BITS - k) store := by
  intro key hash add hhash
  have hlog : JS_DHASH_BITS - (JS_DHASH_BITS - k) = k := by
    unfold JS_DHASH_BITS
    omega
  obtain ⟨goal, hgoal, rfl⟩ := exists_probe_eq hk hk' hhash hf
  rw [hlog, SearchTable_eq _ ops hk']
  exact searchFrom_ends (2 ^ k) hfree (Nat.zero_le goal) (by omega)

end Store

/-! ### Tables -/

/-- The tables that calls lead to whose `initEntry` does not fail for a removed entry.
`JS_DHashTableSetAlphaBounds` makes `minAlphaFrac` no more than half of `maxAlphaFrac`. -/
inductive Reached (fuel : ℕ) (ops : TableOps κ) : Table κ β → Prop
  | init {capacity : ℕ} {t : Table κ β} : JS_DHashTableInit capacity = some t → Reached fuel ops t
  | setAlphaBounds {t : Table κ β} (maxAlphaFrac minAlphaFrac : ℕ) : Reached fuel ops t →
      maxAlphaFrac < 2 ^ 8 → 2 * minAlphaFrac ≤ maxAlphaFrac →
      Reached fuel ops { t with maxAlphaFrac := maxAlphaFrac, minAlphaFrac := minAlphaFrac }
  | call {t t' : Table κ β} {op : Op κ β} {a : Answer κ β} : Reached fuel ops t →
      Claims fuel ops t op = true → step fuel ops t op = some (t', a) → Reached fuel ops t'

section Reached
variable {ops : TableOps κ} {k fuel : ℕ} {t : Table κ β}

theorem Reached.good (hl : ops.Lawful) (hfuel : 2 ^ 24 ≤ fuel) (h : Reached fuel ops t) :
    ∃ k, Good ops k t := by
  induction h with
  | init ht => exact (init_good ops ht).1
  | setAlphaBounds maxAlphaFrac minAlphaFrac _ hmax hmin ih =>
    obtain ⟨k, hgood⟩ := ih
    exact ⟨k, { hgood with maxAlpha := hmax, minAlpha := show minAlphaFrac < 2 ^ 7 by omega }⟩
  | call _ hclaims hstep ih =>
    obtain ⟨k, hgood⟩ := ih
    obtain ⟨t₁, a₁, k', heq, h₁, -⟩ := hgood.step hl hfuel hclaims
    rw [hstep, Option.some.injEq, Prod.mk.injEq] at heq
    rw [heq.1]
    exact ⟨k', h₁⟩

theorem Good.searchEnds (h : Good ops k t) : SearchEnds ops t.hashShift t.entryStore := by
  obtain ⟨f, hf, hfree⟩ := h.exists_free
  have := h.four_le
  have := h.lt
  rw [h.shift]
  exact searchEnds_of_free (by omega) (by omega) hf hfree

/-- The new store of `ChangeTable`, when any number of the old entries have been moved. -/
theorem Good.searchEnds_moved (h : Good ops k t) (hl : ops.Lawful) {k' : ℕ} (hk : 0 < k')
    (hk' : k' < 24) (hroom : t.entryCount < 2 ^ k') (m : ℕ) :
    ∃ store, moveEntries (2 ^ k') ops (JS_DHASH_BITS - k') (t.entryStore.take m)
        (List.replicate (2 ^ k') .free) = some store ∧
      SearchEnds ops (JS_DHASH_BITS - k') store := by
  have hsplit : contents t.entryStore =
      contents (t.entryStore.take m) ++ contents (t.entryStore.drop m) := by
    rw [contents, contents, contents, ← List.filterMap_append, List.take_append_drop]
  have hlive : ∀ e ∈ t.entryStore.take m, ∀ kv, e.content = some kv →
      clearFlag e.keyHash = ops.keyHash kv.1 := by
    intro e he kv hkv
    obtain ⟨i, hi⟩ := List.mem_iff_getElem?.mp (List.mem_of_mem_take he)
    rw [← entryAt_of_getElem? hi] at hkv ⊢
    obtain ⟨kv', hkv', hclear⟩ := h.probed.live i (isLive_of_content hkv)
    rw [hkv, Option.some.injEq] at hkv'
    rw [hclear, hkv']
  have hlen : (contents (t.entryStore.take m)).length < 2 ^ k' := by
    have hall := h.length_map
    rw [Table.map, hsplit, List.length_append] at hall
    omega
  obtain ⟨store, heq, hfresh, -, -⟩ := moveEntries_spec hl hk (by omega) (le_refl _)
    (t.entryStore.take m) hlive (Fresh.replicate ops hlen)
    (by
      rw [contents_replicate, List.append_nil]
      have hdistinct := h.distinct
      rw [hsplit] at hdistinct
      exact (List.pairwise_append.mp hdistinct).1)
  have hroom' := hfresh.room
  have hspace : store.countP Entry.isLive + store.countP Entry.isRemoved < store.length := by
    rw [hfresh.removed_eq, hfresh.probed.length_eq]
    omega
  obtain ⟨f, hf, hfree⟩ := Dhash.exists_free hspace
  rw [hfresh.probed.length_eq] at hf
  exact ⟨store, heq, searchEnds_of_free hk (by omega) hf hfree⟩

end Reached

end Kompozer.Dhash

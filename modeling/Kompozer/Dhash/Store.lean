import Kompozer.Dhash.Search
import Mathlib.Data.List.Count
import Mathlib.Data.List.Perm.Basic
import Mathlib.Data.List.Perm.Lattice

/-! Entries that are written, cleared and moved to a new store. -/

namespace Kompozer.Dhash

variable {κ β : Type}

/-- The key equivalence of a table, which its hash function respects. -/
structure TableOps.Lawful (ops : TableOps κ) : Prop where
  refl : ∀ a, ops.matchEntry a a = true
  symm : ∀ a b, ops.matchEntry a b = true → ops.matchEntry b a = true
  trans : ∀ a b c, ops.matchEntry a b = true → ops.matchEntry b c = true →
    ops.matchEntry a c = true
  hash : ∀ a b, ops.matchEntry a b = true → ops.hashKey a = ops.hashKey b

/-- No two entries have the same key. -/
def Distinct (ops : TableOps κ) (m : List (κ × β)) : Prop :=
  m.Pairwise fun a b => ops.matchEntry a.1 b.1 = false

theorem TableOps.Lawful.symm_false {ops : TableOps κ} (hl : ops.Lawful) {a b : κ}
    (h : ops.matchEntry a b = false) : ops.matchEntry b a = false := by
  by_contra hba
  rw [hl.symm b a (by simpa using hba)] at h
  exact Bool.noConfusion h

theorem Distinct.perm {ops : TableOps κ} (hl : ops.Lawful) {m m' : List (κ × β)}
    (h : Distinct ops m) (hp : m.Perm m') : Distinct ops m' :=
  (hp.pairwise_iff fun hab => hl.symm_false hab).mp h

/-! ### Places -/

theorem countP_set_entryAt (p : Entry κ β → Bool) {store : List (Entry κ β)} {i : ℕ}
    (hi : i < store.length) (e : Entry κ β) :
    (store.set i e).countP p + (p (entryAt store i)).toNat = store.countP p + (p e).toNat := by
  have hget : entryAt store i = store[i] := by
    have := entryAt_of_lt hi
    rw [List.getElem?_eq_getElem hi] at this
    exact (Option.some.inj this).symm
  rw [List.countP_set hi, hget]
  have hpos : p store[i] = true → 0 < store.countP p := fun hp =>
    List.countP_pos_iff.mpr ⟨_, List.getElem_mem hi, hp⟩
  cases h : p store[i] <;> cases h' : p e <;> simp
  have := hpos h
  · omega
  · have := hpos h
    omega

theorem length_eq_counts (store : List (Entry κ β)) : store.length =
    store.countP Entry.isLive + store.countP Entry.isRemoved + store.countP Entry.isFree := by
  induction store with
  | nil => rfl
  | cons e store ih =>
    have hone : (if e.isLive = true then 1 else 0) + (if e.isRemoved = true then 1 else 0) +
        (if e.isFree = true then 1 else 0) = 1 := by
      simp only [Entry.isLive, Entry.isRemoved, Entry.isFree, decide_eq_true_eq]
      split_ifs <;> omega
    rw [List.length_cons, List.countP_cons, List.countP_cons, List.countP_cons, ih]
    omega

/-- A store that is not full has a free place. -/
theorem exists_free {store : List (Entry κ β)}
    (h : store.countP Entry.isLive + store.countP Entry.isRemoved < store.length) :
    ∃ f < store.length, (entryAt store f).isFree = true := by
  have hlen := length_eq_counts store
  obtain ⟨e, he, hfree⟩ := List.countP_pos_iff.mp (by omega : 0 < store.countP Entry.isFree)
  obtain ⟨f, hf⟩ := List.mem_iff_getElem?.mp he
  exact ⟨f, (List.getElem?_eq_some_iff.mp hf).1, by rwa [entryAt_of_getElem? hf]⟩

section Write
variable {ops : TableOps κ} {k : ℕ} {store : List (Entry κ β)} {i : ℕ}

/-- An entry may be written over when its flag is kept, and a live one when the probes of its hash
lead to it. -/
theorem Probed.set (h : Probed ops k store) (hi : i < 2 ^ k) {e : Entry κ β}
    (hflag : (entryAt store i).keyHash % 2 = 1 → e.keyHash % 2 = 1)
    (hlive : e.isLive = true → ∃ kv, e.content = some kv ∧
      clearFlag e.keyHash = ops.keyHash kv.1 ∧ ∃ j, probe k (ops.keyHash kv.1) j = i ∧
        ∀ m < j, (entryAt store (probe k (ops.keyHash kv.1) m)).keyHash % 2 = 1) :
    Probed ops k (store.set i e) := by
  have hlen : i < store.length := by rwa [h.length_eq]
  have hodd : ∀ n, (entryAt store n).keyHash % 2 = 1 →
      (entryAt (store.set i e) n).keyHash % 2 = 1 := by
    intro n hn
    rw [entryAt_set hlen]
    split_ifs with heq
    · rw [heq] at hn
      exact hflag hn
    · exact hn
  refine ⟨by rw [List.length_set, h.length_eq], fun n hn => ?_, fun n kv hn => ?_⟩
  · rw [entryAt_set hlen] at hn ⊢
    split_ifs at hn ⊢ with heq
    · obtain ⟨kv, hcontent, hclear, -⟩ := hlive hn
      exact ⟨kv, hcontent, hclear⟩
    · exact h.live n hn
  · rw [entryAt_set hlen] at hn
    split_ifs at hn with heq
    · obtain ⟨kv', hcontent, -, j, hj, hpath⟩ := hlive (isLive_of_content hn)
      rw [hn, Option.some.injEq] at hcontent
      subst hcontent
      exact ⟨j, hj.trans heq.symm, fun m hm => hodd _ (hpath m hm)⟩
    · obtain ⟨j, hj, hpath⟩ := h.path n kv hn
      exact ⟨j, hj, fun m hm => hodd _ (hpath m hm)⟩

theorem contents_set_perm (hi : i < store.length) (e : Entry κ β) :
    ((entryAt store i).content.toList ++ contents (store.set i e)).Perm
      (e.content.toList ++ contents store) :=
  filterMap_set_perm Entry.content (entryAt_of_lt hi) e

theorem not_live_iff {e : Entry κ β} :
    e.isLive = false ↔ e.isFree = true ∨ e.isRemoved = true := by
  simp only [Entry.isLive, Entry.isFree, Entry.isRemoved, decide_eq_true_eq,
    decide_eq_false_iff_not]
  omega

theorem content_of_not_live {e : Entry κ β} (h : e.isLive = false) : e.content = none := by
  rw [Entry.content, h]
  rfl

end Write

/-! ### A new store -/

/-- A store without removed entries that has room for `n` more. -/
structure Fresh (ops : TableOps κ) (k n : ℕ) (store : List (Entry κ β)) : Prop where
  probed : Probed ops k store
  removed_eq : store.countP Entry.isRemoved = 0
  room : n + store.countP Entry.isLive < 2 ^ k

theorem entryAt_replicate (n i : ℕ) :
    entryAt (List.replicate n (Entry.free : Entry κ β)) i = .free := by
  rw [entryAt, List.getD_eq_getElem?_getD, List.getElem?_replicate]
  split_ifs <;> rfl

theorem contents_replicate (n : ℕ) : contents (List.replicate n (Entry.free : Entry κ β)) = [] := by
  rw [contents, List.filterMap_replicate_of_none]
  rfl

theorem Fresh.replicate (ops : TableOps κ) {k n : ℕ} (hn : n < 2 ^ k) :
    Fresh ops k n (List.replicate (2 ^ k) (Entry.free : Entry κ β)) where
  probed := by
    refine ⟨List.length_replicate, fun i hi => ?_, fun i kv hi => ?_⟩
    · rw [entryAt_replicate] at hi
      exact Bool.noConfusion hi
    · rw [entryAt_replicate] at hi
      simp at hi
  removed_eq := by
    rw [List.countP_replicate]
    exact if_neg Bool.false_ne_true
  room := by
    rw [List.countP_replicate]
    exact hn

/-- The old entries are all in the new store. -/
theorem moveEntries_spec {ops : TableOps κ} (hl : ops.Lawful) {k fuel : ℕ} (hk : 0 < k)
    (hk' : k ≤ 32) (hfuel : 2 ^ k ≤ fuel) (olds : List (Entry κ β))
    (hlive : ∀ e ∈ olds, ∀ kv, e.content = some kv → clearFlag e.keyHash = ops.keyHash kv.1) :
    ∀ {store : List (Entry κ β)}, Fresh ops k (contents olds).length store →
      Distinct ops (contents olds ++ contents store) →
      ∃ store', moveEntries fuel ops (JS_DHASH_BITS - k) olds store = some store' ∧
        Fresh ops k 0 store' ∧ (contents store').Perm (contents olds ++ contents store) ∧
        store'.countP Entry.isLive = (contents olds).length + store.countP Entry.isLive := by
  induction olds with
  | nil =>
    intro store h _
    exact ⟨store, rfl, h, List.Perm.refl _, (Nat.zero_add _).symm⟩
  | cons old olds ih =>
    intro store h hdistinct
    have hlive' := fun e he => hlive e (List.mem_cons_of_mem old he)
    unfold moveEntries
    cases hcontent : old.content with
    | none =>
      have hcons : contents (old :: olds) = contents olds := by
        rw [contents, List.filterMap_cons_none hcontent]
        rfl
      rw [hcons] at h hdistinct ⊢
      exact ih hlive' h hdistinct
    | some kv =>
      have hcons : contents (old :: olds) = kv :: contents olds := by
        rw [contents, List.filterMap_cons_some hcontent]
        rfl
      rw [hcons] at h hdistinct ⊢
      have hkey := hlive old (by simp) kv hcontent
      have hroom := h.room
      rw [List.length_cons] at hroom
      have hspace : store.countP Entry.isLive + store.countP Entry.isRemoved < store.length := by
        rw [h.removed_eq, h.probed.length_eq]
        omega
      obtain ⟨f, hf, hfree⟩ := exists_free hspace
      rw [h.probed.length_eq] at hf
      obtain ⟨i, store₁, hsearch, hfound⟩ :=
        exists_found hk hk' hl.hash h.probed hf hfree hfuel kv.1 true
      simp only [hkey, hsearch]
      have hprobed := h.probed.marked hfound.marked
      have hi : i < store₁.length := by
        rw [hprobed.length_eq]
        exact hfound.lt
      have hremoved : (entryAt store₁ i).isRemoved = false := by
        have hzero := hfound.marked.removed_eq.trans h.removed_eq
        rw [List.countP_eq_zero] at hzero
        simpa using hzero _ (List.mem_of_getElem? (entryAt_of_lt hi))
      obtain ⟨kv', hkv', hmatch⟩ | ⟨-, hplace, hpath⟩ := hfound.answer
      · -- the store has no entry of this key yet
        exfalso
        have hmem : kv' ∈ contents store := by
          rw [← hfound.marked.contents_eq]
          exact mem_contents.mpr ⟨i, hkv'⟩
        have hne := (List.pairwise_cons.mp hdistinct).1 kv' (by simp [hmem])
        rw [hl.symm _ _ hmatch] at hne
        exact Bool.noConfusion hne
      · have hfree' : (entryAt store₁ i).isFree = true := by
          rcases hplace with hfree' | ⟨-, hr⟩
          · exact hfree'
          · rw [hremoved] at hr
            exact Bool.noConfusion hr
        have hnotlive := not_live_iff.mpr (.inl hfree')
        have hspec := keyHash_spec ops kv.1
        have hnewlive : (Entry.isLive (⟨ops.keyHash kv.1, some kv⟩ : Entry κ β)) = true :=
          Entry.isLive_iff.mpr hspec.1
        have hcountLive := countP_set_entryAt Entry.isLive hi ⟨ops.keyHash kv.1, some kv⟩
        have hcountRemoved := countP_set_entryAt Entry.isRemoved hi ⟨ops.keyHash kv.1, some kv⟩
        have hnewremoved : (Entry.isRemoved (⟨ops.keyHash kv.1, some kv⟩ : Entry κ β)) = false := by
          simp only [Entry.isRemoved, decide_eq_false_iff_not]
          omega
        rw [hnotlive, hnewlive, hfound.marked.live_eq] at hcountLive
        rw [hremoved, hnewremoved, hfound.marked.removed_eq, h.removed_eq] at hcountRemoved
        have hperm := contents_set_perm hi (⟨ops.keyHash kv.1, some kv⟩ : Entry κ β)
        rw [content_of_not_live hnotlive, hfound.marked.contents_eq, Entry.content, hnewlive]
          at hperm
        simp only [Bool.toNat_false, Bool.toNat_true] at hcountLive hcountRemoved
        have hnew : Fresh ops k (contents olds).length
            (store₁.set i ⟨ops.keyHash kv.1, some kv⟩) := by
          refine ⟨hprobed.set hfound.lt ?_ ?_, by omega, by omega⟩
          · intro hodd
            rw [Entry.isFree_iff.mp hfree'] at hodd
            omega
          · intro _
            exact ⟨kv, by rw [Entry.content, hnewlive]; rfl, hspec.2.2, hpath rfl⟩
        obtain ⟨store', heq, hfresh, hmoved, hlen⟩ := ih hlive' hnew
          (hdistinct.perm hl (List.perm_middle.symm.trans (hperm.symm.append_left _)))
        refine ⟨store', heq, hfresh, ?_, ?_⟩
        · exact hmoved.trans ((hperm.append_left _).trans List.perm_middle)
        · rw [hlen, List.length_cons]
          omega

end Kompozer.Dhash

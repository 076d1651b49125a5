import Kompozer.Dhash.Table
import Kompozer.Lib.Probing
import Mathlib.Data.Nat.Prime.Basic

/-! What a search finds. The probes of a hash visit every place. On the way to a live entry they
pass marked entries only, so a search ends at a free entry only when there is no live entry to
find. -/

namespace Kompozer.Dhash

variable {κ β : Type}

/-! ### Flags -/

theorem clearFlag_setFlag (h : ℕ) : clearFlag (setFlag h) = clearFlag h := by
  unfold clearFlag setFlag
  omega

theorem clearFlag_clearFlag (h : ℕ) : clearFlag (clearFlag h) = clearFlag h := by
  unfold clearFlag
  omega

theorem keyHash_spec (ops : TableOps κ) (key : κ) :
    2 ≤ ops.keyHash key ∧ ops.keyHash key < 2 ^ 32 ∧
      clearFlag (ops.keyHash key) = ops.keyHash key := by
  have hlt := Nat.mod_lt (ops.hashKey key * JS_DHASH_GOLDEN_RATIO) (by omega : 0 < 2 ^ 32)
  have hlive : ∀ n < 2 ^ 32, 2 ≤ (if n < 2 then (n + 2 ^ 32 - 2) % 2 ^ 32 else n) ∧
      (if n < 2 then (n + 2 ^ 32 - 2) % 2 ^ 32 else n) < 2 ^ 32 := by
    intro n hn
    split_ifs <;> omega
  have hflag : ∀ h, 2 ≤ h ∧ h < 2 ^ 32 → 2 ≤ clearFlag h ∧ clearFlag h < 2 ^ 32 := by
    unfold clearFlag
    omega
  obtain ⟨hge, hlt'⟩ := hflag _ (hlive _ hlt)
  exact ⟨hge, hlt', clearFlag_clearFlag _⟩

namespace Entry

theorem isLive_iff {e : Entry κ β} : e.isLive = true ↔ 2 ≤ e.keyHash := by simp [isLive]
theorem isFree_iff {e : Entry κ β} : e.isFree = true ↔ e.keyHash = 0 := by simp [isFree]
theorem isRemoved_iff {e : Entry κ β} : e.isRemoved = true ↔ e.keyHash = 1 := by simp [isRemoved]

@[simp] theorem content_free : (free : Entry κ β).content = none := rfl

theorem isLive_mark {e : Entry κ β} (h : e.isLive = true) : e.mark.isLive = true := by
  rw [isLive_iff] at h ⊢
  simp only [mark, setFlag]
  omega

theorem content_mark {e : Entry κ β} (h : e.isLive = true) : e.mark.content = e.content := by
  rw [content, isLive_mark h, content, h]
  rfl

theorem odd_mark (e : Entry κ β) : e.mark.keyHash % 2 = 1 := by
  change (e.keyHash / 2 * 2 + 1) % 2 = 1
  omega

theorem hits_mark (ops : TableOps κ) (key : κ) (h : ℕ) (e : Entry κ β) :
    e.mark.hits ops key h = e.hits ops key h := by
  simp only [hits, mark, clearFlag_setFlag]

end Entry

/-- The entries of a store. -/
def contents (store : List (Entry κ β)) : List (κ × β) := store.filterMap Entry.content

theorem entryAt_of_getElem? {store : List (Entry κ β)} {i : ℕ} {e : Entry κ β}
    (h : store[i]? = some e) : entryAt store i = e := by
  rw [entryAt, List.getD_eq_getElem?_getD, h]
  rfl

theorem entryAt_of_lt {store : List (Entry κ β)} {i : ℕ} (h : i < store.length) :
    store[i]? = some (entryAt store i) := by
  rw [entryAt, List.getD_eq_getElem?_getD, List.getElem?_eq_getElem h]
  rfl

theorem entryAt_of_ge {store : List (Entry κ β)} {i : ℕ} (h : store.length ≤ i) :
    entryAt store i = .free := by
  rw [entryAt, List.getD_eq_getElem?_getD, List.getElem?_eq_none h]
  rfl

theorem lt_of_not_free {store : List (Entry κ β)} {i : ℕ} (h : (entryAt store i).keyHash ≠ 0) :
    i < store.length := by
  by_contra hge
  rw [entryAt_of_ge (by omega)] at h
  exact h rfl

theorem entryAt_set {store : List (Entry κ β)} {i : ℕ} (h : i < store.length) (e : Entry κ β)
    (k : ℕ) : entryAt (store.set i e) k = if k = i then e else entryAt store k := by
  simp only [entryAt, List.getD_eq_getElem?_getD]
  split_ifs with hk
  · subst hk
    rw [List.getElem?_set_self h]
    rfl
  · rw [List.getElem?_set_ne (Ne.symm hk)]

theorem mem_contents {store : List (Entry κ β)} {kv : κ × β} :
    kv ∈ contents store ↔ ∃ i, (entryAt store i).content = some kv := by
  rw [contents, mem_filterMap_iff]
  constructor
  · rintro ⟨i, e, hi, he⟩
    exact ⟨i, by rw [entryAt_of_getElem? hi, he]⟩
  · rintro ⟨i, hi⟩
    rcases Nat.lt_or_ge i store.length with hlt | hge
    · exact ⟨i, _, entryAt_of_lt hlt, hi⟩
    · rw [entryAt_of_ge hge] at hi
      simp at hi

/-! ### Marks -/

theorem map_set_of_eq {α γ : Type*} (g : α → γ) {l : List α} {i : ℕ} {a b : α}
    (h : l[i]? = some a) (hb : g b = g a) : (l.set i b).map g = l.map g := by
  apply List.ext_getElem?
  intro k
  rw [List.map_set]
  rcases eq_or_ne i k with rfl | hne
  · rw [List.getElem?_set_self (by rw [List.length_map]; exact (List.getElem?_eq_some_iff.mp h).1),
      List.getElem?_map, h, hb]
    rfl
  · rw [List.getElem?_set_ne hne]

/-- Some live entries of the first store are marked in the second one. -/
structure Marked (store store' : List (Entry κ β)) : Prop where
  length_eq : store'.length = store.length
  contents_eq : contents store' = contents store
  live_eq : store'.countP Entry.isLive = store.countP Entry.isLive
  removed_eq : store'.countP Entry.isRemoved = store.countP Entry.isRemoved
  entry : ∀ i, entryAt store' i = entryAt store i ∨
    (entryAt store i).isLive = true ∧ entryAt store' i = (entryAt store i).mark

namespace Marked
variable {store store' store'' : List (Entry κ β)}

theorem refl (store : List (Entry κ β)) : Marked store store :=
  ⟨rfl, rfl, rfl, rfl, fun _ => .inl rfl⟩

theorem trans (h : Marked store store') (h' : Marked store' store'') : Marked store store'' where
  length_eq := h'.length_eq.trans h.length_eq
  contents_eq := h'.contents_eq.trans h.contents_eq
  live_eq := h'.live_eq.trans h.live_eq
  removed_eq := h'.removed_eq.trans h.removed_eq
  entry i := by
    rcases h'.entry i with heq | ⟨hlive, heq⟩
    · rw [heq]
      exact h.entry i
    · rw [heq]
      rcases h.entry i with heq' | ⟨hlive', heq'⟩
      · rw [heq'] at hlive ⊢
        exact .inr ⟨hlive, rfl⟩
      · refine .inr ⟨hlive', ?_⟩
        rw [heq']
        simp only [Entry.mark, setFlag, Entry.mk.injEq, and_true]
        omega

theorem set {i : ℕ} (hlive : (entryAt store i).isLive = true) :
    Marked store (store.set i (entryAt store i).mark) := by
  have hi : i < store.length := lt_of_not_free (by rw [Entry.isLive_iff] at hlive; omega)
  have hget := entryAt_of_lt hi
  have hcount : ∀ p : Entry κ β → Bool, p (entryAt store i).mark = p (entryAt store i) →
      (store.set i (entryAt store i).mark).countP p = store.countP p := by
    intro p hp
    have hmap := map_set_of_eq p hget hp
    have hcountP : ∀ l : List (Entry κ β), l.countP p = (l.map p).countP id := by
      intro l
      rw [List.countP_map]
      rfl
    rw [hcountP, hmap, ← hcountP]
  refine ⟨List.length_set, ?_, ?_, ?_, fun k => ?_⟩
  · have hmap := map_set_of_eq Entry.content hget (Entry.content_mark hlive)
    have hfilter : ∀ l : List (Entry κ β), contents l = (l.map Entry.content).filterMap id := by
      intro l
      rw [List.filterMap_map]
      rfl
    rw [hfilter, hmap, ← hfilter]
  · apply hcount
    rw [Entry.isLive_mark hlive, hlive]
  · apply hcount
    have hmark := Entry.isLive_mark hlive
    rw [Entry.isLive_iff] at hlive hmark
    simp only [Entry.isRemoved, decide_eq_decide]
    omega
  · rw [entryAt_set hi]
    split_ifs with hk
    · subst hk
      exact .inr ⟨hlive, rfl⟩
    · exact .inl rfl

theorem free_iff (h : Marked store store') (i : ℕ) :
    (entryAt store' i).isFree = (entryAt store i).isFree := by
  rcases h.entry i with heq | ⟨hlive, heq⟩
  · rw [heq]
  · have hmark := Entry.isLive_mark hlive
    rw [heq]
    rw [Entry.isLive_iff] at hlive hmark
    simp only [Entry.isFree, decide_eq_decide]
    omega

theorem live_iff (h : Marked store store') (i : ℕ) :
    (entryAt store' i).isLive = (entryAt store i).isLive := by
  rcases h.entry i with heq | ⟨hlive, heq⟩
  · rw [heq]
  · rw [heq, hlive, Entry.isLive_mark hlive]

theorem content_eq (h : Marked store store') (i : ℕ) :
    (entryAt store' i).content = (entryAt store i).content := by
  rcases h.entry i with heq | ⟨hlive, heq⟩
  · rw [heq]
  · rw [heq, Entry.content_mark hlive]

theorem hits_eq (h : Marked store store') (ops : TableOps κ) (key : κ) (hash i : ℕ) :
    (entryAt store' i).hits ops key hash = (entryAt store i).hits ops key hash := by
  rcases h.entry i with heq | ⟨-, heq⟩
  · rw [heq]
  · rw [heq, Entry.hits_mark]

theorem removed (h : Marked store store') {i : ℕ} (hr : (entryAt store i).isRemoved = true) :
    entryAt store' i = entryAt store i := by
  rcases h.entry i with heq | ⟨hlive, -⟩
  · exact heq
  · rw [Entry.isRemoved_iff] at hr
    rw [Entry.isLive_iff] at hlive
    omega

theorem odd (h : Marked store store') {i : ℕ} (hodd : (entryAt store i).keyHash % 2 = 1) :
    (entryAt store' i).keyHash % 2 = 1 := by
  rcases h.entry i with heq | ⟨-, heq⟩
  · rwa [heq]
  · rw [heq]
    exact Entry.odd_mark _

theorem clearFlag_eq (h : Marked store store') (i : ℕ) :
    clearFlag (entryAt store' i).keyHash = clearFlag (entryAt store i).keyHash := by
  rcases h.entry i with heq | ⟨-, heq⟩
  · rw [heq]
  · rw [heq]
    exact clearFlag_setFlag _

end Marked

/-! ### Probes -/

/-- The places that a search of a table of size `2 ^ k` looks at. -/
def probe (k hash : ℕ) : ℕ → ℕ
  | 0 => HASH1 hash (JS_DHASH_BITS - k)
  | j + 1 => uint32 (probe k hash j + 2 ^ 32 - HASH2 hash k (JS_DHASH_BITS - k)) % 2 ^ k

section Probe
variable {k hash : ℕ}

theorem HASH2_lt (hash : ℕ) (hk : 0 < k) (hk' : k ≤ 32) : HASH2 hash k (JS_DHASH_BITS - k) < 2 ^ k := by
  have hpow : 2 ^ 32 = 2 ^ (32 - k) * 2 ^ k := by
    rw [← Nat.pow_add]
    congr 1
    omega
  have hlt : uint32 (hash * 2 ^ k) / 2 ^ (32 - k) < 2 ^ k := by
    apply Nat.div_lt_of_lt_mul
    rw [← hpow]
    exact Nat.mod_lt _ (by omega)
  have heven : 2 ^ k = 2 * 2 ^ (k - 1) := by
    rw [← Nat.pow_succ']
    congr 1
    omega
  simp only [HASH2, setFlag, JS_DHASH_BITS]
  omega

theorem probe_zero_lt (hk' : k ≤ 32) (hhash : hash < 2 ^ 32) : probe k hash 0 < 2 ^ k := by
  apply Nat.div_lt_of_lt_mul
  rw [JS_DHASH_BITS, ← Nat.pow_add, Nat.sub_add_cancel hk']
  exact hhash

theorem probe_succ (hk : 0 < k) (hk' : k ≤ 32) (j : ℕ) :
    probe k hash (j + 1) =
      (probe k hash j + (2 ^ 32 - HASH2 hash k (JS_DHASH_BITS - k))) % 2 ^ k := by
  have hlt := HASH2_lt hash hk hk'
  have hle : 2 ^ k ≤ 2 ^ 32 := Nat.pow_le_pow_right (by omega) hk'
  rw [probe, uint32, Nat.mod_mod_of_dvd _ (Nat.pow_dvd_pow 2 hk')]
  congr 1
  omega

/-- The step is odd. -/
theorem step_coprime (hk : 0 < k) (hk' : k ≤ 32) :
    Nat.Coprime (2 ^ k) (2 ^ 32 - HASH2 hash k (JS_DHASH_BITS - k)) := by
  have hlt := HASH2_lt hash hk hk'
  have hle : 2 ^ k ≤ 2 ^ 32 := Nat.pow_le_pow_right (by omega) hk'
  apply Nat.Coprime.pow_left
  rw [Nat.coprime_two_left, Nat.odd_iff]
  have hodd : HASH2 hash k (JS_DHASH_BITS - k) % 2 = 1 := by
    simp only [HASH2, setFlag]
    omega
  omega

theorem probe_lt_size (hk : 0 < k) (hk' : k ≤ 32) (hhash : hash < 2 ^ 32) (j : ℕ) :
    probe k hash j < 2 ^ k :=
  probe_lt (probe_zero_lt hk' hhash) (probe_succ hk hk') j

theorem exists_probe_eq (hk : 0 < k) (hk' : k ≤ 32) (hhash : hash < 2 ^ 32) {i : ℕ}
    (hi : i < 2 ^ k) : ∃ j < 2 ^ k, probe k hash j = i :=
  exists_probe (probe_zero_lt hk' hhash) (probe_succ hk hk') (step_coprime hk hk') hi

end Probe

/-! ### Searches -/

/-- The stores that searches rely on. A live entry has its hash, and the probes on the way to it
pass marked entries. -/
structure Probed (ops : TableOps κ) (k : ℕ) (store : List (Entry κ β)) : Prop where
  length_eq : store.length = 2 ^ k
  live : ∀ i, (entryAt store i).isLive = true → ∃ kv, (entryAt store i).content = some kv ∧
    clearFlag (entryAt store i).keyHash = ops.keyHash kv.1
  path : ∀ i kv, (entryAt store i).content = some kv → ∃ j, probe k (ops.keyHash kv.1) j = i ∧
    ∀ m < j, (entryAt store (probe k (ops.keyHash kv.1) m)).keyHash % 2 = 1

theorem Probed.marked {ops : TableOps κ} {k : ℕ} {store store' : List (Entry κ β)}
    (h : Probed ops k store) (hm : Marked store store') : Probed ops k store' where
  length_eq := hm.length_eq.trans h.length_eq
  live i hi := by
    rw [hm.live_iff] at hi
    rw [hm.content_eq, hm.clearFlag_eq]
    exact h.live i hi
  path i kv hi := by
    rw [hm.content_eq] at hi
    obtain ⟨j, hj, hodd⟩ := h.path i kv hi
    exact ⟨j, hj, fun m hlt => hm.odd (hodd m hlt)⟩

theorem isLive_of_content {e : Entry κ β} {kv : κ × β} (h : e.content = some kv) :
    e.isLive = true := by
  unfold Entry.content at h
  split_ifs at h with hlive
  exact hlive

/-- A search hits the entries of its key. -/
theorem Probed.hits_iff {ops : TableOps κ} {k : ℕ} {store : List (Entry κ β)}
    (h : Probed ops k store) (hhash : ∀ a b, ops.matchEntry a b = true →
      ops.hashKey a = ops.hashKey b) (key : κ) (i : ℕ) :
    (entryAt store i).hits ops key (ops.keyHash key) = true ↔
      ∃ kv, (entryAt store i).content = some kv ∧ ops.matchEntry kv.1 key = true := by
  constructor
  · intro hit
    simp only [Entry.hits, Bool.and_eq_true, decide_eq_true_eq, Option.any_eq_true] at hit
    obtain ⟨hclear, kv, hitem, hmatch⟩ := hit
    have hlive : (entryAt store i).isLive = true := by
      have := (keyHash_spec ops key).1
      rw [Entry.isLive_iff, ← hclear] at *
      unfold clearFlag at this
      omega
    exact ⟨kv, by rw [Entry.content, hlive, ← hitem]; rfl, hmatch⟩
  · rintro ⟨kv, hcontent, hmatch⟩
    have hlive := isLive_of_content hcontent
    obtain ⟨kv', hcontent', hclear⟩ := h.live i hlive
    rw [hcontent, Option.some.injEq] at hcontent'
    subst hcontent'
    have hkey : ops.keyHash kv.1 = ops.keyHash key := by
      rw [TableOps.keyHash, hhash _ _ hmatch]
      rfl
    rw [Entry.content, hlive, if_pos rfl] at hcontent
    simp [Entry.hits, hclear, hkey, hcontent, hmatch]

/-- One look of a search, and the rest of it. -/
def searchFrom (ops : TableOps κ) (key : κ) (keyHash : ℕ) (add : Bool) (hash2 size n hash1 : ℕ)
    (firstRemoved : Option ℕ) (store : List (Entry κ β)) : Option (ℕ × List (Entry κ β)) :=
  let entry := entryAt store hash1
  if entry.isFree then some (if add then firstRemoved.getD hash1 else hash1, store)
  else if entry.hits ops key keyHash then some (hash1, store)
  else if entry.isRemoved then
    searchLoop ops key keyHash add hash2 size n hash1 (some (firstRemoved.getD hash1)) store
  else
    searchLoop ops key keyHash add hash2 size n hash1 firstRemoved
      (if add then store.set hash1 entry.mark else store)

theorem SearchTable_eq (fuel : ℕ) (ops : TableOps κ) {k : ℕ} (hk : k ≤ 32)
    (store : List (Entry κ β)) (key : κ) (hash : ℕ) (add : Bool) :
    SearchTable fuel ops (JS_DHASH_BITS - k) store key hash add =
      searchFrom ops key hash add (HASH2 hash k (JS_DHASH_BITS - k)) (2 ^ k) fuel
        (probe k hash 0) none store := by
  have hlog : JS_DHASH_BITS - (JS_DHASH_BITS - k) = k := by
    unfold JS_DHASH_BITS
    omega
  unfold SearchTable searchFrom
  rw [hlog]
  cases add <;> rfl

/-- What the looks before the `j`-th one saw and did. -/
structure Scanned (ops : TableOps κ) (k : ℕ) (key : κ) (add : Bool) (j : ℕ)
    (firstRemoved : Option ℕ) (store : List (Entry κ β)) : Prop where
  busy : ∀ m < j, (entryAt store (probe k (ops.keyHash key) m)).isFree = false ∧
    (entryAt store (probe k (ops.keyHash key) m)).hits ops key (ops.keyHash key) = false
  odd : add = true → ∀ m < j, (entryAt store (probe k (ops.keyHash key) m)).keyHash % 2 = 1
  first : ∀ r, firstRemoved = some r → (entryAt store r).isRemoved = true ∧
    ∃ m < j, probe k (ops.keyHash key) m = r

/-- What a search answers: the place of the entry of its key, or a place for a new entry, to which
the probes pass marked entries. -/
structure Found (ops : TableOps κ) (k : ℕ) (key : κ) (add : Bool) (store : List (Entry κ β))
    (i : ℕ) (store' : List (Entry κ β)) : Prop where
  marked : Marked store store'
  lt : i < 2 ^ k
  answer : (∃ kv, (entryAt store' i).content = some kv ∧ ops.matchEntry kv.1 key = true) ∨
    (∀ kv ∈ contents store, ops.matchEntry kv.1 key = false) ∧
      ((entryAt store' i).isFree = true ∨ add = true ∧ (entryAt store' i).isRemoved = true) ∧
      (add = true → ∃ j, probe k (ops.keyHash key) j = i ∧
        ∀ m < j, (entryAt store' (probe k (ops.keyHash key) m)).keyHash % 2 = 1)

theorem Scanned.next {ops : TableOps κ} {k : ℕ} {key : κ} {add : Bool} {j : ℕ}
    {firstRemoved firstRemoved' : Option ℕ} {store store' : List (Entry κ β)}
    (h : Scanned ops k key add j firstRemoved store) (hm : Marked store store')
    (hfree : (entryAt store (probe k (ops.keyHash key) j)).isFree = false)
    (hmiss : (entryAt store (probe k (ops.keyHash key) j)).hits ops key (ops.keyHash key) = false)
    (hodd : add = true → (entryAt store' (probe k (ops.keyHash key) j)).keyHash % 2 = 1)
    (hfirst : ∀ r, firstRemoved' = some r → (entryAt store' r).isRemoved = true ∧
      ∃ m < j + 1, probe k (ops.keyHash key) m = r) :
    Scanned ops k key add (j + 1) firstRemoved' store' where
  busy m hlt := by
    rw [hm.free_iff, hm.hits_eq]
    rcases Nat.lt_succ_iff_lt_or_eq.mp hlt with hlt | rfl
    · exact h.busy m hlt
    · exact ⟨hfree, hmiss⟩
  odd hadd m hlt := by
    rcases Nat.lt_succ_iff_lt_or_eq.mp hlt with hlt | rfl
    · exact hm.odd (h.odd hadd m hlt)
    · exact hodd hadd
  first := hfirst

/-- A search that meets a free entry has passed every entry of its key. -/
theorem Scanned.none_matches {ops : TableOps κ} {k : ℕ} {key : κ} {add : Bool} {j : ℕ}
    {firstRemoved : Option ℕ} {store : List (Entry κ β)} (hp : Probed ops k store)
    (hhash : ∀ a b, ops.matchEntry a b = true → ops.hashKey a = ops.hashKey b)
    (h : Scanned ops k key add j firstRemoved store)
    (hfree : (entryAt store (probe k (ops.keyHash key) j)).isFree = true) :
    ∀ kv ∈ contents store, ops.matchEntry kv.1 key = false := by
  intro kv hkv
  by_contra hmatch
  rw [Bool.not_eq_false] at hmatch
  obtain ⟨i, hi⟩ := mem_contents.mp hkv
  obtain ⟨m, hm, hodd⟩ := hp.path i kv hi
  have hkey : ops.keyHash kv.1 = ops.keyHash key := by
    rw [TableOps.keyHash, hhash _ _ hmatch]
    rfl
  rw [hkey] at hm hodd
  have hhit := (hp.hits_iff hhash key i).mpr ⟨kv, hi, hmatch⟩
  rw [Entry.isFree_iff] at hfree
  rcases Nat.lt_trichotomy m j with hlt | rfl | hgt
  · have := (h.busy m hlt).2
    rw [hm, hhit] at this
    exact Bool.noConfusion this
  · have hlive := isLive_of_content hi
    rw [← hm, Entry.isLive_iff, hfree] at hlive
    omega
  · have := hodd j hgt
    rw [hfree] at this
    omega

/-- A search that meets a free entry answers it, or the first removed entry that it passed. -/
theorem Scanned.found_of_free {ops : TableOps κ} {k : ℕ} {key : κ} {add : Bool} {j n : ℕ}
    {firstRemoved : Option ℕ} {store : List (Entry κ β)} (hp : Probed ops k store)
    (hhash : ∀ a b, ops.matchEntry a b = true → ops.hashKey a = ops.hashKey b)
    (hlt : ∀ m, probe k (ops.keyHash key) m < 2 ^ k)
    (h : Scanned ops k key add j firstRemoved store)
    (hfree : (entryAt store (probe k (ops.keyHash key) j)).isFree = true) :
    ∃ i store', searchFrom ops key (ops.keyHash key) add
      (HASH2 (ops.keyHash key) k (JS_DHASH_BITS - k)) (2 ^ k) n (probe k (ops.keyHash key) j)
      firstRemoved store = some (i, store') ∧ Found ops k key add store i store' := by
  have hnone := h.none_matches hp hhash hfree
  refine ⟨_, store, if_pos hfree, ⟨Marked.refl store, ?_, .inr ⟨hnone, ?_⟩⟩⟩
  · cases add with
    | false => exact hlt j
    | true =>
      cases firstRemoved with
      | none => exact hlt j
      | some r =>
        obtain ⟨-, m, -, rfl⟩ := h.first r rfl
        exact hlt m
  · cases add with
    | false => exact ⟨.inl hfree, fun hadd => Bool.noConfusion hadd⟩
    | true =>
      cases firstRemoved with
      | none => exact ⟨.inl hfree, fun _ => ⟨j, rfl, h.odd rfl⟩⟩
      | some r =>
        obtain ⟨hremoved, m, hm, rfl⟩ := h.first r rfl
        exact ⟨.inr ⟨rfl, hremoved⟩, fun _ => ⟨m, rfl, fun m' hm' => h.odd rfl m' (hm'.trans hm)⟩⟩

theorem Found.of_marked {ops : TableOps κ} {k : ℕ} {key : κ} {add : Bool}
    {store store' store'' : List (Entry κ β)} {i : ℕ} (hm : Marked store store')
    (h : Found ops k key add store' i store'') : Found ops k key add store i store'' where
  marked := hm.trans h.marked
  lt := h.lt
  answer := by
    rw [← hm.contents_eq]
    exact h.answer

/-- A search ends at a free entry at the latest. -/
theorem Scanned.found {ops : TableOps κ} {k : ℕ} {key : κ} {add : Bool} (hk : 0 < k) (hk' : k ≤ 32)
    (hhash : ∀ a b, ops.matchEntry a b = true → ops.hashKey a = ops.hashKey b) {goal : ℕ} (n : ℕ) :
    ∀ {j : ℕ} {firstRemoved : Option ℕ} {store : List (Entry κ β)}, Probed ops k store →
      Scanned ops k key add j firstRemoved store →
      (entryAt store (probe k (ops.keyHash key) goal)).isFree = true → j ≤ goal → goal < j + n + 1 →
      ∃ i store', searchFrom ops key (ops.keyHash key) add
        (HASH2 (ops.keyHash key) k (JS_DHASH_BITS - k)) (2 ^ k) n (probe k (ops.keyHash key) j)
        firstRemoved store = some (i, store') ∧ Found ops k key add store i store' := by
  have hlt := probe_lt_size hk hk' (keyHash_spec ops key).2.1
  induction n with
  | zero =>
    intro j firstRemoved store hp h hgoal hle hlt'
    obtain rfl : j = goal := by omega
    exact h.found_of_free hp hhash hlt hgoal
  | succ n ih =>
    intro j firstRemoved store hp h hgoal hle hlt'
    by_cases hfree : (entryAt store (probe k (ops.keyHash key) j)).isFree = true
    · exact h.found_of_free hp hhash hlt hfree
    have hne : j ≠ goal := by
      rintro rfl
      exact hfree hgoal
    unfold searchFrom
    dsimp only
    rw [if_neg hfree]
    rw [Bool.not_eq_true] at hfree
    split_ifs with hhits hremoved hadd
    · exact ⟨_, store, rfl, Marked.refl store, hlt j, .inl ((hp.hits_iff hhash key _).mp hhits)⟩
    · -- a removed entry is kept in mind
      apply ih hp (h.next (Marked.refl store) hfree (by simpa using hhits) ?_ ?_) hgoal (by omega)
        (by omega)
      · intro _
        rw [Entry.isRemoved_iff.mp hremoved]
      · intro r hr
        rw [Option.some.injEq] at hr
        subst hr
        cases firstRemoved with
        | none => exact ⟨hremoved, j, Nat.lt_succ_self j, rfl⟩
        | some r =>
          obtain ⟨hr, m, hm, heq⟩ := h.first r rfl
          exact ⟨hr, m, Nat.lt_succ_of_lt hm, heq⟩
    · -- an entry with another key is marked
      have hlive : (entryAt store (probe k (ops.keyHash key) j)).isLive = true := by
        rw [Entry.isLive_iff]
        simp only [Entry.isFree, Entry.isRemoved, decide_eq_false_iff_not, decide_eq_true_eq]
          at hfree hremoved
        omega
      have hm := Marked.set hlive
      have hnext : Scanned ops k key add (j + 1) firstRemoved (store.set
          (probe k (ops.keyHash key) j) (entryAt store (probe k (ops.keyHash key) j)).mark) := by
        apply h.next hm hfree (by simpa using hhits)
        · intro _
          rw [entryAt_set (by rw [hp.length_eq]; exact hlt j), if_pos rfl]
          exact Entry.odd_mark _
        · intro r hr
          obtain ⟨hr', m, hm', heq⟩ := h.first r hr
          exact ⟨by rw [hm.removed hr']; exact hr', m, Nat.lt_succ_of_lt hm', heq⟩
      obtain ⟨i, store', heq, hfound⟩ := ih (hp.marked hm) hnext (by rwa [hm.free_iff]) (by omega)
        (by omega)
      exact ⟨i, store', heq, hfound.of_marked hm⟩
    · apply ih hp (h.next (Marked.refl store) hfree (by simpa using hhits) ?_ ?_) hgoal (by omega)
        (by omega)
      · exact fun h => absurd h hadd
      · intro r hr
        obtain ⟨hr', m, hm, heq⟩ := h.first r hr
        exact ⟨hr', m, Nat.lt_succ_of_lt hm, heq⟩

/-- A search of a store with a free entry ends. -/
theorem exists_found {ops : TableOps κ} {k fuel : ℕ} {store : List (Entry κ β)} (hk : 0 < k)
    (hk' : k ≤ 32) (hhash : ∀ a b, ops.matchEntry a b = true → ops.hashKey a = ops.hashKey b)
    (hp : Probed ops k store) {f : ℕ} (hf : f < 2 ^ k) (hfree : (entryAt store f).isFree = true)
    (hfuel : 2 ^ k ≤ fuel) (key : κ) (add : Bool) :
    ∃ i store', SearchTable fuel ops (JS_DHASH_BITS - k) store key (ops.keyHash key) add =
      some (i, store') ∧ Found ops k key add store i store' := by
  obtain ⟨goal, hgoal, rfl⟩ := exists_probe_eq hk hk' (keyHash_spec ops key).2.1 hf
  rw [SearchTable_eq fuel ops hk']
  apply Scanned.found hk hk' hhash fuel hp _ hfree (Nat.zero_le goal) (by omega)
  exact ⟨fun m hm => absurd hm (Nat.not_lt_zero m), fun _ m hm => absurd hm (Nat.not_lt_zero m),
    fun r hr => by simp at hr⟩

end Kompozer.Dhash

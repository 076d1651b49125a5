import Kompozer.Dhash.Good
import Mathlib.Data.List.Pairwise

/-! The operations of a table are those of a map: `JS_DHASH_LOOKUP`, `JS_DHASH_ADD` and
`JS_DHASH_REMOVE`, with the growth and shrinking that come with them. -/

namespace Kompozer.Dhash

variable {κ β : Type}

/-! ### Maps -/

/-- What an enumeration keeps of the entries it visits, the `n`-th and later ones. -/
def kept (etor : ℕ → κ × β → EnumResult) : ℕ → List (κ × β) → List (κ × β)
  | _, [] => []
  | n, kv :: l => if (etor n kv).remove then kept etor (n + 1) l else kv :: kept etor (n + 1) l

/-- An operation on a map. A null answer to an `add` leaves the map as it is; it comes when memory
or places are missing. -/
def MapStep (ops : TableOps κ) (m : List (κ × β)) :
    Op κ β → Answer κ β → List (κ × β) → Prop
  | .lookup key, a, m' => m'.Perm m ∧ ∃ r, a = .entry r ∧
      ∀ kv, r = some kv ↔ kv ∈ m ∧ ops.matchEntry kv.1 key = true
  | .add key value alloc init, a, m' =>
    (∃ kv ∈ m, ops.matchEntry kv.1 key = true ∧ a = .entry (some kv) ∧ m'.Perm m) ∨
    ((∀ kv ∈ m, ops.matchEntry kv.1 key = false) ∧ a = .entry (some (key, value)) ∧
      m'.Perm ((key, value) :: m)) ∨
    (a = .entry none ∧ m'.Perm m ∧ (alloc = false ∨ init = false ∨ 2 ^ 22 ≤ m.length))
  | .remove key _, a, m' => a = .entry none ∧ m'.Perm (m.filter fun kv => !ops.matchEntry kv.1 key)
  | .rawRemove _, a, m' =>
    (∃ kv, a = .entry (some kv) ∧ (kv :: m').Perm m) ∨ a = .entry none ∧ m'.Perm m
  | .enumerate etor _, a, m' => ∃ l rest, a = .visited l ∧ (l ++ rest).Perm m ∧
      ((∀ n kv, (etor n kv).stop = false) → rest = []) ∧ m'.Perm (kept etor 0 l ++ rest)

def MapRun (ops : TableOps κ) :
    List (κ × β) → List (Op κ β) → List (Answer κ β) → List (κ × β) → Prop
  | m, [], [], m' => m'.Perm m
  | m, op :: calls, a :: answers, m' => ∃ m₁, MapStep ops m op a m₁ ∧ MapRun ops m₁ calls answers m'
  | _, _, _, _ => False

/-! ### Operations -/

theorem le_two_pow_ceiling (n : ℕ) : n ≤ 2 ^ JS_CEILING_LOG2 n := by
  unfold JS_CEILING_LOG2
  split_ifs with h
  · simpa using h
  · have := @Nat.lt_log2_self (n - 1)
    omega

theorem four_le_ceiling {n : ℕ} (h : 16 ≤ n) : 4 ≤ JS_CEILING_LOG2 n := by
  have hpow : 2 ^ 4 ≤ 2 ^ JS_CEILING_LOG2 n := le_trans h (le_two_pow_ceiling n)
  exact (Nat.pow_le_pow_iff_right (by omega : 1 < 2)).mp hpow

theorem init_good (ops : TableOps κ) {capacity : ℕ} {t : Table κ β}
    (h : JS_DHashTableInit capacity = some t) : (∃ k, Good ops k t) ∧ t.map = [] := by
  unfold JS_DHashTableInit at h
  dsimp only at h
  split_ifs at h with hlimit
  rw [Option.some.injEq] at h
  subst h
  have hfour := four_le_ceiling (le_max_right capacity 16)
  set k := JS_CEILING_LOG2 (max capacity JS_DHASH_MIN_SIZE) with hk
  have hlt : k < 24 := by
    by_contra hge
    exact hlimit (Nat.pow_le_pow_right (by omega) (by omega))
  have hpos := Nat.two_pow_pos k
  have hfresh : Fresh ops k 0 (List.replicate (2 ^ k) (Entry.free : Entry κ β)) :=
    Fresh.replicate ops hpos
  refine ⟨⟨k, ?_⟩, contents_replicate _⟩
  exact {
    four_le := hfour
    lt := hlt
    shift := rfl
    maxAlpha := (by decide : 0xC0 < 2 ^ 8)
    minAlpha := (by decide : 0x40 < 2 ^ 7)
    probed := hfresh.probed
    distinct := by
      rw [contents_replicate]
      exact List.Pairwise.nil
    entryCount_eq := by
      have := hfresh.room
      rw [List.countP_replicate]
      rfl
    removedCount_eq := hfresh.removed_eq.symm
    room := hpos }

namespace Good
variable {ops : TableOps κ} {k fuel : ℕ} {t : Table κ β}

/-- Two entries of a table that match a key are one. -/
theorem unique (h : Good ops k t) (hl : ops.Lawful) {a b : κ × β} {key : κ} (ha : a ∈ t.map)
    (hb : b ∈ t.map) (hka : ops.matchEntry a.1 key = true) (hkb : ops.matchEntry b.1 key = true) :
    a = b := by
  by_contra hne
  have : Std.Symm fun a b : κ × β => ops.matchEntry a.1 b.1 = false :=
    ⟨fun _ _ hab => hl.symm_false hab⟩
  have hfalse := h.distinct.forall ha hb hne
  rw [hl.trans _ _ _ hka (hl.symm _ _ hkb)] at hfalse
  exact Bool.noConfusion hfalse

/-- What a search says about the map. -/
theorem answer_iff (h : Good ops k t) (hl : ops.Lawful) {key : κ} {add : Bool} {i : ℕ}
    {store' : List (Entry κ β)} (hf : Found ops k key add t.entryStore i store') (kv : κ × β) :
    (entryAt store' i).content = some kv ↔ kv ∈ t.map ∧ ops.matchEntry kv.1 key = true := by
  have hmem : ∀ kv, (entryAt store' i).content = some kv → kv ∈ t.map := fun kv hkv => by
    rw [Table.map, ← hf.marked.contents_eq]
    exact mem_contents.mpr ⟨i, hkv⟩
  obtain ⟨kv', hkv', hmatch⟩ | ⟨hnone, hplace, -⟩ := hf.answer
  · constructor
    · intro hkv
      rw [hkv, Option.some.injEq] at hkv'
      exact ⟨hmem kv hkv, by rw [hkv']; exact hmatch⟩
    · rintro ⟨hin, hkey⟩
      rw [h.unique hl hin (hmem kv' hkv') hkey hmatch, hkv']
  · have hnot : (entryAt store' i).isLive = false :=
      not_live_iff.mpr (hplace.imp_right And.right)
    rw [content_of_not_live hnot]
    constructor
    · intro hfalse
      simp at hfalse
    · rintro ⟨hin, hkey⟩
      rw [hnone kv hin] at hkey
      exact Bool.noConfusion hkey

theorem lookup (h : Good ops k t) (hl : ops.Lawful) (hfuel : 2 ^ 24 ≤ fuel) (key : κ) :
    ∃ t' a, lookup fuel ops t key = some (t', a) ∧ Good ops k t' ∧
      MapStep ops t.map (.lookup key) a t'.map := by
  obtain ⟨i, store', hsearch, hf⟩ := h.search hl hfuel key false
  refine ⟨_, _, by rw [Dhash.lookup, hsearch], h.marked hf.marked, ?_, _, rfl, h.answer_iff hl hf⟩
  rw [Table.map, hf.marked.contents_eq]
  exact List.Perm.refl _

theorem makeRoom (h : Good ops k t) (hl : ops.Lawful) (hfuel : 2 ^ 24 ≤ fuel) (alloc : Bool) :
    ∃ t' ok k', makeRoom fuel ops t alloc = some (t', ok) ∧ Good ops k' t' ∧ t'.map.Perm t.map ∧
      (ok = true → t'.entryCount + t'.removedCount + 1 < 2 ^ k') ∧
      (ok = false → alloc = false ∨ 2 ^ 22 ≤ t.map.length) := by
  have hsize := h.size_le
  have hle := h.le_size
  have hroom := h.room
  have hload : t.MAX_LOAD < 2 ^ k := by
    have hmax := h.maxAlpha
    have hmul : t.maxAlphaFrac * 2 ^ k ≤ 255 * 2 ^ k := Nat.mul_le_mul_right _ (by omega)
    unfold Table.MAX_LOAD
    rw [h.size_eq, uint32_of_lt (by omega)]
    omega
  unfold Dhash.makeRoom
  rw [h.sum_eq]
  by_cases hfull : t.MAX_LOAD ≤ t.entryCount + t.removedCount
  · rw [if_pos hfull]
    -- compress, or grow
    obtain ⟨delta, hdelta⟩ : ∃ d : ℤ, (if t.size / 4 ≤ t.removedCount then (0 : ℤ) else 1) = d :=
      ⟨_, rfl⟩
    rw [hdelta]
    have hk' : ∃ k', ((k : ℤ) + delta).toNat = k' ∧ 4 ≤ k' ∧ t.entryCount + 1 < 2 ^ k' ∧
        (24 ≤ k' → t.removedCount < 2 ^ 21 ∧ k = 23) := by
      have hfour := h.four_le
      have hlt := h.lt
      rw [h.size_eq] at hdelta
      split_ifs at hdelta with hremoved
      · subst hdelta
        exact ⟨k, by omega, hfour, by omega, fun hge => by omega⟩
      · subst hdelta
        refine ⟨k + 1, by omega, by omega, by rw [Nat.pow_succ]; omega, fun hge => ?_⟩
        obtain rfl : k = 23 := by omega
        exact ⟨by omega, rfl⟩
    obtain ⟨k', hk', hfour, hlt, hlimit⟩ := hk'
    rcases h.changeTable hl hfuel hk' hfour (by omega) alloc with ⟨heq, hwhy⟩ |
        ⟨t', heq, hgood, hperm, hcount, hremoved⟩
    · rw [heq]
      refine ⟨t, _, k, rfl, h, List.Perm.refl _, fun hok => ?_, fun hok => ?_⟩
      · simp only [Bool.false_or, decide_eq_true_eq, h.size_eq, h.sum_eq, ne_eq] at hok
        omega
      · refine hwhy.imp_right fun hge => ?_
        obtain ⟨hremoved, rfl⟩ := hlimit hge
        simp only [Bool.false_or, decide_eq_false_iff_not, h.size_eq, h.sum_eq, ne_eq,
          not_not] at hok
        rw [h.length_map]
        omega
    · rw [heq]
      refine ⟨t', _, k', rfl, hgood, hperm, fun _ => ?_, fun hok => ?_⟩
      · rw [hcount, hremoved]
        exact hlt
      · exact Bool.noConfusion hok
  · rw [if_neg hfull]
    exact ⟨t, true, k, rfl, h, List.Perm.refl _, fun _ => by omega, fun hok => Bool.noConfusion hok⟩

end Good

/-- An `add` of the key would write over a removed entry. -/
def recycles (fuel : ℕ) (ops : TableOps κ) (t : Table κ β) (key : κ) (alloc : Bool) : Bool :=
  match makeRoom fuel ops t alloc with
  | some (t', true) =>
    match SearchTable fuel ops t'.hashShift t'.entryStore key (ops.keyHash key) true with
    | some (i, store) => (entryAt store i).isRemoved
    | none => false
  | _ => false

/-- `initEntry` does not fail for a removed entry. -/
def Claims (fuel : ℕ) (ops : TableOps κ) (t : Table κ β) : Op κ β → Bool
  | .add key _ alloc init => init || !recycles fuel ops t key alloc
  | _ => true

def AllClaim (fuel : ℕ) (ops : TableOps κ) : Table κ β → List (Op κ β) → Bool
  | _, [] => true
  | t, op :: calls => Claims fuel ops t op &&
    match step fuel ops t op with
    | none => true
    | some (t', _) => AllClaim fuel ops t' calls

namespace Good
variable {ops : TableOps κ} {k fuel : ℕ} {t : Table κ β}

/-- A failed `initEntry` for a free entry changes nothing. -/
theorem unclaimed (h : Good ops k t) (hl : ops.Lawful) {i : ℕ} (hi : i < 2 ^ k)
    (hfree : (entryAt t.entryStore i).isFree = true) (key : κ) (value : β) :
    Good ops k (claim ops t i key value false).1 ∧
      (claim ops t i key value false).1.map.Perm t.map ∧
      (claim ops t i key value false).2 = .entry none := by
  have hlive := not_live_iff.mpr (.inl hfree)
  have hzero := Entry.isFree_iff.mp hfree
  have hremoved : (entryAt t.entryStore i).isRemoved = false := by
    rw [Entry.isRemoved, hzero]
    rfl
  have hlt : i < t.entryStore.length := by rwa [h.probed.length_eq]
  unfold claim
  simp only [hlive, hremoved, Bool.false_eq_true, if_false, if_true]
  set e : Entry κ β := { entryAt t.entryStore i with item := none } with he
  have hnewlive : e.isLive = false := hlive
  have hnewremoved : e.isRemoved = false := hremoved
  have hperm := contents_set_perm hlt e
  rw [content_of_not_live hlive, content_of_not_live hnewlive] at hperm
  have hcountLive := countP_set_entryAt Entry.isLive hlt e
  have hcountRemoved := countP_set_entryAt Entry.isRemoved hlt e
  rw [hlive, hnewlive] at hcountLive
  rw [hremoved, hnewremoved] at hcountRemoved
  refine ⟨?_, hperm, trivial⟩
  exact {
    four_le := h.four_le
    lt := h.lt
    shift := h.shift
    maxAlpha := h.maxAlpha
    minAlpha := h.minAlpha
    probed := h.probed.set hi id fun hfalse => by
      rw [hnewlive] at hfalse
      exact Bool.noConfusion hfalse
    distinct := h.distinct.perm hl hperm.symm
    entryCount_eq := h.entryCount_eq.trans (Nat.add_right_cancel hcountLive).symm
    removedCount_eq := h.removedCount_eq.trans (Nat.add_right_cancel hcountRemoved).symm
    room := h.room }

theorem add (h : Good ops k t) (hl : ops.Lawful) (hfuel : 2 ^ 24 ≤ fuel) {key : κ} {value : β}
    {alloc init : Bool} (hclaims : Claims fuel ops t (.add key value alloc init) = true) :
    ∃ t' a k', add fuel ops t key value alloc init = some (t', a) ∧ Good ops k' t' ∧
      MapStep ops t.map (.add key value alloc init) a t'.map := by
  obtain ⟨t₁, ok, k', hmake, h₁, hperm₁, hroom, hwhy⟩ := h.makeRoom hl hfuel alloc
  unfold Dhash.add
  cases ok with
  | false =>
    rw [hmake]
    exact ⟨t₁, _, k', rfl, h₁, .inr (.inr ⟨rfl, hperm₁,
      (hwhy rfl).imp_right fun hlen => .inr hlen⟩)⟩
  | true =>
    obtain ⟨i, store', hsearch, hf⟩ := h₁.search hl hfuel key true
    rw [hmake]
    dsimp only
    rw [hsearch]
    have h₂ := h₁.marked hf.marked
    have hmap₂ : ({ t₁ with entryStore := store' } : Table κ β).map = t₁.map :=
      hf.marked.contents_eq
    set t₂ : Table κ β := { t₁ with entryStore := store' } with ht₂
    refine ⟨(claim ops t₂ i key value init).1, (claim ops t₂ i key value init).2, k', rfl, ?_⟩
    obtain ⟨kv, hkv, hmatch⟩ | ⟨hnone, hplace, hpath⟩ := hf.answer
    · -- the key has an entry
      have hlive := isLive_of_content hkv
      have hclaim : claim ops t₂ i key value init = (t₂, .entry (some kv)) := by
        unfold claim
        rw [if_pos hlive]
        exact congrArg (fun o => (t₂, Answer.entry o)) hkv
      rw [hclaim]
      refine ⟨h₂, .inl ⟨kv, ?_, hmatch, rfl, ?_⟩⟩
      · rw [← hperm₁.mem_iff]
        exact ((h₁.answer_iff hl hf kv).mp hkv).1
      · rw [hmap₂]
        exact hperm₁
    · have hlive : (entryAt t₂.entryStore i).isLive = false :=
        not_live_iff.mpr (hplace.imp_right And.right)
      have hnone' : ∀ kv ∈ t₂.map, ops.matchEntry kv.1 key = false := by
        rw [hmap₂]
        exact hnone
      cases init with
      | true =>
        obtain ⟨hgood, hperm, hanswer⟩ :=
          h₂.claimed hl hf.lt value hnone' hlive (hpath rfl) (hroom rfl)
        refine ⟨hgood, .inr (.inl ⟨?_, hanswer, ?_⟩)⟩
        · intro kv hkv
          exact hnone kv (hperm₁.mem_iff.mpr hkv)
        · rw [hmap₂] at hperm
          exact hperm.trans (hperm₁.cons _)
      | false =>
        have hfree : (entryAt t₂.entryStore i).isFree = true := by
          rcases hplace with hfree | ⟨-, hremoved⟩
          · exact hfree
          · simp only [Claims, recycles, hmake, hsearch, Bool.false_or, Bool.not_eq_true'] at hclaims
            rw [hclaims] at hremoved
            exact Bool.noConfusion hremoved
        obtain ⟨hgood, hperm, hanswer⟩ := h₂.unclaimed hl hf.lt hfree key value
        refine ⟨hgood, .inr (.inr ⟨hanswer, ?_, .inr (.inl rfl)⟩)⟩
        rw [hmap₂] at hperm
        exact hperm.trans hperm₁

/-- What is left when the entry of a key is removed. -/
theorem filter_perm (h : Good ops k t) (hl : ops.Lawful) {kv : κ × β} {m : List (κ × β)} {key : κ}
    (hperm : (kv :: m).Perm t.map) (hmatch : ops.matchEntry kv.1 key = true) :
    m.Perm (t.map.filter fun kv => !ops.matchEntry kv.1 key) := by
  have hdistinct := h.distinct.perm hl hperm.symm
  have hfilter := hperm.filter fun kv => !ops.matchEntry kv.1 key
  rw [List.filter_cons_of_neg (by simp [hmatch]), List.filter_eq_self.mpr] at hfilter
  · exact hfilter
  · intro kv' hkv'
    by_contra hmatch'
    have hne := (List.pairwise_cons.mp hdistinct).1 kv' hkv'
    rw [hl.trans _ _ _ hmatch (hl.symm _ _ (by simpa using hmatch'))] at hne
    exact Bool.noConfusion hne

theorem remove (h : Good ops k t) (hl : ops.Lawful) (hfuel : 2 ^ 24 ≤ fuel) (key : κ)
    (alloc : Bool) : ∃ t' a k', remove fuel ops t key alloc = some (t', a) ∧ Good ops k' t' ∧
      MapStep ops t.map (.remove key alloc) a t'.map := by
  obtain ⟨i, store', hsearch, hf⟩ := h.search hl hfuel key false
  have h₁ := h.marked hf.marked
  have hmap₁ : ({ t with entryStore := store' } : Table κ β).map = t.map := hf.marked.contents_eq
  unfold Dhash.remove
  rw [hsearch]
  dsimp only
  set t₁ : Table κ β := { t with entryStore := store' } with ht₁
  by_cases hlive : (entryAt store' i).isLive = true
  · rw [if_pos hlive]
    obtain ⟨kv, hkv, -⟩ := h₁.probed.live i hlive
    obtain ⟨hin, hmatch⟩ := (h.answer_iff hl hf kv).mp hkv
    obtain ⟨h₂, hperm₂⟩ := h₁.rawRemove hl hkv
    rw [hmap₁] at hperm₂
    have hleft := h.filter_perm hl hperm₂ hmatch
    set t₂ := JS_DHashTableRawRemove t₁ i with ht₂
    by_cases hshrink : JS_DHASH_MIN_SIZE < t₂.size ∧ t₂.entryCount ≤ t₂.MIN_LOAD
    · rw [if_pos hshrink]
      obtain ⟨hmin, hload⟩ := hshrink
      rw [h₂.size_eq] at hmin
      have hsize := h₂.size_le
      have hminAlpha := h₂.minAlpha
      have hmul : t₂.minAlphaFrac * 2 ^ k ≤ 127 * 2 ^ k := Nat.mul_le_mul_right _ (by omega)
      unfold Table.MIN_LOAD at hload
      rw [h₂.size_eq, uint32_of_lt (by omega)] at hload
      have hk : 4 < k := (Nat.pow_lt_pow_iff_right (by omega : 1 < 2)).mp hmin
      have hhalf : 2 ^ k = 2 * 2 ^ (k - 1) := by
        rw [← Nat.pow_succ']
        congr 1
        omega
      rcases h₂.changeTable hl hfuel (show ((k : ℤ) + -1).toNat = k - 1 by omega) (by omega)
          (by omega) alloc with ⟨heq, -⟩ | ⟨t', heq, hgood, hperm, -, -⟩
      · rw [heq]
        exact ⟨t₂, _, k, rfl, h₂, rfl, hleft⟩
      · rw [heq]
        exact ⟨t', _, k - 1, rfl, hgood, rfl, hperm.trans hleft⟩
    · rw [if_neg hshrink]
      exact ⟨t₂, _, k, rfl, h₂, rfl, hleft⟩
  · rw [if_neg hlive]
    refine ⟨t₁, _, k, rfl, h₁, rfl, ?_⟩
    rw [hmap₁, List.filter_eq_self.mpr]
    intro kv hkv
    by_contra hmatch
    have hcontent := (h.answer_iff hl hf kv).mpr ⟨hkv, by simpa using hmatch⟩
    exact hlive (isLive_of_content hcontent)

end Good

end Kompozer.Dhash

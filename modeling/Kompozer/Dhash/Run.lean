import Kompozer.Dhash.Operations

/-! Runs of a table. As long as `initEntry` does not fail for a removed entry, a table is a map, its
counters are exact, and a place stays free. When it fails, `removedCount` goes down although the
removed entry stays. -/

namespace Kompozer.Dhash

variable {κ β : Type}

/-! ### Enumerations -/

theorem contents_split {store : List (Entry κ β)} {i : ℕ} (hi : i < store.length) :
    contents (store.drop i) =
      (entryAt store i).content.toList ++ contents (store.drop (i + 1)) := by
  have hget : store[i] = entryAt store i := by
    have := entryAt_of_lt hi
    rw [List.getElem?_eq_getElem hi] at this
    exact Option.some.inj this
  rw [List.drop_eq_getElem_cons hi, contents, filterMap_cons_eq, hget]
  rfl

theorem contents_take_succ {store : List (Entry κ β)} {i : ℕ} (hi : i < store.length) :
    contents (store.take (i + 1)) =
      contents (store.take i) ++ (entryAt store i).content.toList := by
  rw [List.take_add_one, entryAt_of_lt hi, contents, List.filterMap_append]
  congr 1

theorem rawRemove_store (t : Table κ β) (i : ℕ) : ∃ e : Entry κ β, e.content = none ∧
    (JS_DHashTableRawRemove t i).entryStore = t.entryStore.set i e := by
  unfold JS_DHashTableRawRemove
  split_ifs
  · exact ⟨⟨1, none⟩, rfl, rfl⟩
  · exact ⟨⟨0, none⟩, rfl, rfl⟩

namespace Good
variable {ops : TableOps κ} {k fuel : ℕ} {t : Table κ β}

/-- The rest of an enumeration, from the place `i` on. -/
theorem enumerateLoop (hl : ops.Lawful) (etor : ℕ → κ × β → EnumResult) (n : ℕ) :
    ∀ {i : ℕ} {t : Table κ β} (visited : List (κ × β)) (didRemove : Bool), Good ops k t →
      i + n = 2 ^ k →
      let r := enumerateLoop etor n i t visited didRemove
      Good ops k r.1 ∧ ∃ l rest, r.2.1 = visited ++ l ∧
        contents (t.entryStore.drop i) = l ++ rest ∧
        ((∀ m kv, (etor m kv).stop = false) → rest = []) ∧
        r.1.map = contents (t.entryStore.take i) ++ (kept etor visited.length l ++ rest) := by
  induction n with
  | zero =>
    intro i t visited didRemove h hi
    have hlen := h.probed.length_eq
    refine ⟨h, [], [], (List.append_nil _).symm, ?_, fun _ => rfl, ?_⟩
    · rw [List.drop_eq_nil_of_le (by omega)]
      rfl
    · rw [List.take_of_length_le (by omega)]
      exact (List.append_nil _).symm
  | succ n ih =>
    intro i t visited didRemove h hi
    have hlt : i < t.entryStore.length := by
      rw [h.probed.length_eq]
      omega
    have hsplit := contents_split hlt
    unfold Dhash.enumerateLoop
    cases hcontent : (entryAt t.entryStore i).content with
    | none =>
      rw [hcontent] at hsplit
      obtain ⟨hgood, l, rest, hvisited, hdrop, hstop, hmap⟩ :=
        ih visited didRemove h (show i + 1 + n = 2 ^ k by omega)
      rw [contents_take_succ hlt, hcontent, Option.toList_none, List.append_nil] at hmap
      exact ⟨hgood, l, rest, hvisited, hsplit.trans hdrop, hstop, hmap⟩
    | some kv =>
      rw [hcontent] at hsplit
      dsimp only
      set op := etor visited.length kv with hop
      set t₁ := if op.remove = true then JS_DHashTableRawRemove t i else t with ht₁
      have h₁ : Good ops k t₁ := by
        rw [ht₁]
        split_ifs
        · exact (h.rawRemove hl hcontent).1
        · exact h
      have hdrop₁ : t₁.entryStore.drop (i + 1) = t.entryStore.drop (i + 1) := by
        rw [ht₁]
        split_ifs
        · obtain ⟨e, -, he⟩ := rawRemove_store t i
          rw [he, List.drop_set_of_lt (Nat.lt_succ_self i)]
        · rfl
      have htake₁ : contents (t₁.entryStore.take (i + 1)) = contents (t.entryStore.take i) ++
          if op.remove = true then [] else [kv] := by
        rw [ht₁]
        split_ifs
        · obtain ⟨e, hnone, he⟩ := rawRemove_store t i
          rw [he, contents_take_succ (by rwa [List.length_set]), entryAt_set hlt, if_pos rfl, hnone,
            List.take_set_of_le (Nat.le_refl i)]
          rfl
        · rw [contents_take_succ hlt, hcontent]
          rfl
      by_cases hstop' : op.stop = true
      · rw [if_pos hstop']
        refine ⟨h₁, [kv], contents (t.entryStore.drop (i + 1)), rfl, hsplit, fun hnever => ?_, ?_⟩
        · rw [hop, hnever] at hstop'
          exact Bool.noConfusion hstop'
        · have hwhole : t₁.map = contents (t₁.entryStore.take (i + 1)) ++
              contents (t₁.entryStore.drop (i + 1)) := by
            rw [Table.map, contents, contents, contents, ← List.filterMap_append,
              List.take_append_drop]
          rw [hwhole, htake₁, hdrop₁, List.append_assoc, kept, ← hop]
          congr 2
      · rw [if_neg hstop']
        obtain ⟨hgood, l, rest, hvisited, hdrop, hstop, hmap⟩ :=
          ih (visited ++ [kv]) (didRemove || op.remove) h₁ (show i + 1 + n = 2 ^ k by omega)
        refine ⟨hgood, kv :: l, rest, ?_, ?_, hstop, ?_⟩
        · rw [hvisited, List.append_assoc]
          rfl
        · rw [hsplit, ← hdrop₁, hdrop]
          rfl
        · rw [hmap, htake₁, List.append_assoc, List.length_append, kept, ← hop]
          congr 1
          rw [← List.append_assoc]
          congr 1
          split_ifs <;> rfl

theorem enumerate (h : Good ops k t) (hl : ops.Lawful) (hfuel : 2 ^ 24 ≤ fuel)
    (etor : ℕ → κ × β → EnumResult) (alloc : Bool) :
    ∃ t' a k', enumerate fuel ops t etor alloc = some (t', a) ∧ Good ops k' t' ∧
      MapStep ops t.map (.enumerate etor alloc) a t'.map := by
  obtain ⟨h₁, l, rest, hvisited, hdrop, hstop, hmap⟩ :=
    Good.enumerateLoop hl etor (2 ^ k) [] false h (Nat.zero_add _)
  unfold Dhash.enumerate
  rw [h.size_eq]
  set r := Dhash.enumerateLoop etor (2 ^ k) 0 t [] false
  obtain ⟨t₁, visited, didRemove⟩ := r
  dsimp only at h₁ hvisited hmap ⊢
  rw [List.nil_append] at hvisited
  subst hvisited
  have hstep : ∀ m' : List (κ × β), m'.Perm t₁.map →
      MapStep ops t.map (.enumerate etor alloc) (.visited visited) m' := by
    intro m' hm'
    refine ⟨visited, rest, rfl, ?_, hstop, hm'.trans ?_⟩
    · rw [← hdrop]
      exact List.Perm.refl _
    · rw [hmap]
      exact List.Perm.refl _
  set capacity := max (uint32 (t₁.entryCount + t₁.entryCount / 2)) JS_DHASH_MIN_SIZE with hcap
  split_ifs
  · have hroom := h₁.room
    have hsize := h₁.size_le
    have hfour := four_le_ceiling (le_max_right (uint32 (t₁.entryCount + t₁.entryCount / 2)) 16)
    have hle := le_two_pow_ceiling capacity
    have hlt : t₁.entryCount < capacity := by
      rw [hcap, uint32_of_lt (by omega), JS_DHASH_MIN_SIZE]
      omega
    rw [h₁.log2_eq]
    rcases h₁.changeTable hl hfuel
        (show ((k : ℤ) + (JS_CEILING_LOG2 capacity - (k : ℤ))).toNat = JS_CEILING_LOG2 capacity by
          omega) hfour (by omega) alloc with ⟨heq, -⟩ | ⟨t', heq, hgood, hperm, -, -⟩
    · rw [heq]
      exact ⟨t₁, _, k, rfl, h₁, hstep _ (List.Perm.refl _)⟩
    · rw [heq]
      exact ⟨t', _, _, rfl, hgood, hstep _ hperm⟩
  · exact ⟨t₁, _, k, rfl, h₁, hstep _ (List.Perm.refl _)⟩

/-! ### Runs -/

theorem step (h : Good ops k t) (hl : ops.Lawful) (hfuel : 2 ^ 24 ≤ fuel) {op : Op κ β}
    (hclaims : Claims fuel ops t op = true) :
    ∃ t' a k', step fuel ops t op = some (t', a) ∧ Good ops k' t' ∧
      MapStep ops t.map op a t'.map := by
  cases op with
  | lookup key =>
    obtain ⟨t', a, heq, hgood, hstep⟩ := h.lookup hl hfuel key
    exact ⟨t', a, k, heq, hgood, hstep⟩
  | add key value alloc init => exact h.add hl hfuel hclaims
  | remove key alloc => exact h.remove hl hfuel key alloc
  | rawRemove i =>
    unfold Dhash.step
    dsimp only
    split_ifs with hlive
    · obtain ⟨kv, hkv, -⟩ := h.probed.live i hlive
      obtain ⟨hgood, hperm⟩ := h.rawRemove hl hkv
      exact ⟨_, _, k, rfl, hgood, .inl ⟨kv, congrArg Answer.entry hkv, hperm⟩⟩
    · exact ⟨t, _, k, rfl, h, .inr ⟨rfl, List.Perm.refl _⟩⟩
  | enumerate etor alloc => exact h.enumerate hl hfuel etor alloc

theorem run (hl : ops.Lawful) (hfuel : 2 ^ 24 ≤ fuel) {calls : List (Op κ β)} :
    ∀ {k : ℕ} {t : Table κ β}, Good ops k t → AllClaim fuel ops t calls = true →
      ∃ t' answers k', run fuel ops t calls = some (t', answers) ∧ Good ops k' t' ∧
        MapRun ops t.map calls answers t'.map := by
  induction calls with
  | nil => exact fun h _ => ⟨_, [], _, rfl, h, List.Perm.refl _⟩
  | cons op calls ih =>
    intro k t h hclaims
    simp only [AllClaim, Bool.and_eq_true] at hclaims
    obtain ⟨t₁, a, k₁, heq, h₁, hstep⟩ := h.step hl hfuel hclaims.1
    rw [heq] at hclaims
    obtain ⟨t', answers, k', heq', h', hrun⟩ := ih h₁ hclaims.2
    refine ⟨t', a :: answers, k', ?_, h', t₁.map, hstep, hrun⟩
    unfold Dhash.run
    rw [heq]
    dsimp only
    rw [heq']

end Good

section Reached
variable {ops : TableOps κ} {fuel capacity : ℕ} {t : Table κ β} {calls : List (Op κ β)}

/-- A table is a map. -/
theorem run_mapRun (hl : ops.Lawful) (hfuel : 2 ^ 24 ≤ fuel)
    (ht : JS_DHashTableInit capacity = some t) (hclaims : AllClaim fuel ops t calls = true) :
    ∃ t' answers, run fuel ops t calls = some (t', answers) ∧
      MapRun ops [] calls answers t'.map ∧ Distinct ops t'.map := by
  obtain ⟨⟨k, h⟩, hmap⟩ := init_good ops ht
  obtain ⟨t', answers, k', heq, h', hrun⟩ := Good.run hl hfuel h hclaims
  rw [hmap] at hrun
  exact ⟨t', answers, heq, hrun, h'.distinct⟩

/-- The counters of a table are exact, and one of its places is free. -/
theorem run_counters (hl : ops.Lawful) (hfuel : 2 ^ 24 ≤ fuel)
    (ht : JS_DHashTableInit capacity = some t) (hclaims : AllClaim fuel ops t calls = true) :
    ∃ t' answers, run fuel ops t calls = some (t', answers) ∧
      t'.entryCount = t'.entryStore.countP Entry.isLive ∧
      t'.removedCount = t'.entryStore.countP Entry.isRemoved ∧
      ∃ i < t'.size, (entryAt t'.entryStore i).isFree = true := by
  obtain ⟨⟨k, h⟩, -⟩ := init_good ops ht
  obtain ⟨t', answers, k', heq, h', -⟩ := Good.run hl hfuel h hclaims
  refine ⟨t', answers, heq, h'.entryCount_eq, h'.removedCount_eq, ?_⟩
  rw [h'.size_eq]
  exact h'.exists_free

end Reached

/-! ### Failures -/

/-- Numbers as keys. The factor undoes the one of the golden ratio. -/
def numberOps : TableOps ℕ := ⟨fun n => n * 0x144CBC89, fun a b => a == b⟩

theorem numberOps_lawful : numberOps.Lawful where
  refl a := beq_self_eq_true a
  symm a b h := by
    rw [eq_of_beq h]
    exact beq_self_eq_true b
  trans a b c h h' := by
    rw [eq_of_beq h]
    exact h'
  hash a b h := by rw [eq_of_beq h]

/-- A table of 16 places. -/
def smallTable : Table ℕ Unit := ⟨28, 0xC0, 0x40, 0, 0, List.replicate 16 .free⟩

theorem smallTable_init : JS_DHashTableInit 16 = some smallTable := by decide +kernel

/-- Two entries meet, the first one is removed, and its place is to be used again. -/
def reuse (init : Bool) : List (Op ℕ Unit) :=
  [.add 0x10000002 () true true, .add 0x10000004 () true true, .remove 0x10000002 true,
    .add 0x10000006 () true init]

theorem run_mapRun_reuse : ∃ t' answers, run (2 ^ 24) numberOps smallTable (reuse true) =
    some (t', answers) ∧ MapRun numberOps [] (reuse true) answers t'.map ∧
    Distinct numberOps t'.map :=
  run_mapRun numberOps_lawful (le_refl _) smallTable_init (by decide +kernel)

theorem run_counters_reuse : ∃ t' answers, run (2 ^ 24) numberOps smallTable (reuse true) =
    some (t', answers) ∧ t'.entryCount = t'.entryStore.countP Entry.isLive ∧
    t'.removedCount = t'.entryStore.countP Entry.isRemoved ∧
    ∃ i < t'.size, (entryAt t'.entryStore i).isFree = true :=
  run_counters numberOps_lawful (le_refl _) smallTable_init (by decide +kernel)

/-- `initEntry` fails for the removed entry: it is still there and is not counted any more. -/
theorem not_counters_reuse : ¬∀ calls : List (Op ℕ Unit), ∃ t' answers,
    run (2 ^ 24) numberOps smallTable calls = some (t', answers) ∧
    t'.removedCount = t'.entryStore.countP Entry.isRemoved := by
  intro h
  obtain ⟨t', answers, heq, hcount⟩ := h (reuse false)
  have hbad : (run (2 ^ 24) numberOps smallTable (reuse false)).all (fun r =>
      r.1.removedCount != r.1.entryStore.countP Entry.isRemoved) = true := by decide +kernel
  rw [heq] at hbad
  simp [hcount] at hbad

/-- A full store in which nothing matches is searched forever. -/
theorem searchLoop_none (ops : TableOps κ) {key : κ} {keyHash hash2 size : ℕ}
    {store : List (Entry κ β)} (hpos : 0 < size) (hfull : ∀ i < size,
      (entryAt store i).isFree = false ∧ (entryAt store i).hits ops key keyHash = false) (n : ℕ) :
    ∀ (hash1 : ℕ) (firstRemoved : Option ℕ),
      searchLoop ops key keyHash false hash2 size n hash1 firstRemoved store = none := by
  induction n with
  | zero => exact fun _ _ => rfl
  | succ n ih =>
    intro hash1 firstRemoved
    obtain ⟨hbusy, hmiss⟩ := hfull _ (Nat.mod_lt (uint32 (hash1 + 2 ^ 32 - hash2)) hpos)
    simp only [searchLoop, hbusy, hmiss, Bool.false_eq_true, if_false]
    split_ifs
    · exact ih _ _
    · exact ih _ _

/-- With one removed entry, `initEntry` fails five times. Then the table is filled up. -/
def overfill : List (Op ℕ Unit) :=
  [.add 0x10000002 () true true, .add 0x10000004 () true true, .add 0x20000002 () true true,
    .add 0x30000002 () true true, .add 0x40000002 () true true, .remove 0x10000002 true] ++
  List.replicate 5 (.add 0x10000006 () true false) ++
  (List.range 11).map fun i => .add ((i + 5) * 0x10000000 + 2) () true true

theorem overfill_search : ∃ t' answers,
    run (2 ^ 24) numberOps smallTable overfill = some (t', answers) ∧
    ∀ fuel, SearchTable fuel numberOps t'.hashShift t'.entryStore 6 (numberOps.keyHash 6) false =
      none := by
  have hfull : (run (2 ^ 24) numberOps smallTable overfill).any (fun r =>
      r.1.hashShift == 28 && (List.range 16).all fun i => !(entryAt r.1.entryStore i).isFree &&
        !(entryAt r.1.entryStore i).hits numberOps 6 (numberOps.keyHash 6)) = true := by
    decide +kernel
  obtain ⟨⟨t', answers⟩, heq, h⟩ := Option.any_eq_true _ _ |>.mp hfull
  refine ⟨t', answers, heq, fun fuel => ?_⟩
  simp only [Bool.and_eq_true, beq_iff_eq, List.all_eq_true, List.mem_range, Bool.not_eq_true'] at h
  obtain ⟨hshift, hall⟩ := h
  have hhash1 : HASH1 (numberOps.keyHash 6) 28 < 16 := by decide +kernel
  obtain ⟨hbusy, hmiss⟩ := hall _ hhash1
  have hloop : ∀ hash1 firstRemoved, searchLoop numberOps 6 (numberOps.keyHash 6) false
      (HASH2 (numberOps.keyHash 6) 4 28) (2 ^ 4) fuel hash1 firstRemoved t'.entryStore = none :=
    searchLoop_none numberOps (by omega) hall fuel
  have hbits : JS_DHASH_BITS - 28 = 4 := rfl
  simp only [SearchTable, hshift, hbusy, hmiss, hbits, hloop, Bool.false_eq_true, if_false,
    ite_self]

/-- A search in that table never ends. -/
theorem not_mapRun_overfill : ∃ t' answers,
    run (2 ^ 24) numberOps smallTable overfill = some (t', answers) ∧
    ∀ fuel, step fuel numberOps t' (.lookup 6) = none := by
  obtain ⟨t', answers, heq, h⟩ := overfill_search
  refine ⟨t', answers, heq, fun fuel => ?_⟩
  simp only [step, lookup, h fuel]

end Kompozer.Dhash

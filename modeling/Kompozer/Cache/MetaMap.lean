import Kompozer.Cache.MetaData
import Mathlib.Data.List.Induction
import Mathlib.Data.List.Nodup

/-! The meta data of a cache entry as a map of strings, over every run of changes. -/

namespace Kompozer.Cache

namespace nsCacheMetaData

/-! ### Runs -/

/-- A key, and the value that it is given or nothing. -/
abbrev Edit := CStr × Option CStr

def run (edits : List Edit) : nsCacheMetaData := edits.foldl (fun s e => s.SetElement e.1 e.2) {}

/-- The values last set and not removed. -/
def contents (edits : List Edit) : CStr → Option CStr :=
  edits.foldl (fun m e => Function.update m e.1 e.2) fun _ => none

@[simp] theorem run_append (edits : List Edit) (e : Edit) :
    run (edits ++ [e]) = (run edits).SetElement e.1 e.2 := by
  rw [run, List.foldl_append]
  rfl

@[simp] theorem contents_append (edits : List Edit) (e : Edit) :
    contents (edits ++ [e]) = Function.update (contents edits) e.1 e.2 := by
  rw [contents, List.foldl_append]
  rfl

/-- The object is the map: every lookup, the size and what flattening gives. -/
def Kept (m : CStr → Option CStr) (s : nsCacheMetaData) : Prop :=
  (∀ key, s.GetElement key = m key) ∧
  ∀ bufSize, s.mMetaSize ≤ bufSize → ∃ data, s.FlattenMetaData bufSize = some data ∧
    data.length = s.mMetaSize.toNat ∧
    ∃ s', UnflattenMetaData {} data = some s' ∧ ∀ key, s'.GetElement key = m key

/-- A key with an empty value is not removed, and what is set fits a size of 32 bits. -/
def Safe (s : nsCacheMetaData) (e : Edit) : Prop :=
  match e.2 with
  | none => s.GetElement e.1 ≠ some .nil
  | some value => others e.1 s.mData + (MetaElement.mk e.1 value).size < 2 ^ 32

/-! ### What holds in every run -/

structure Sound (s : nsCacheMetaData) : Prop where
  keys : (s.mData.map (·.mKey)).Nodup
  size : s.mMetaSize = UInt32.ofNat (flatSize s.mData)

theorem mKey_update {key : CStr} {value : Option CStr} {size : UInt32}
    {elems : List MetaElement} {elem : MetaElement}
    (h : elem ∈ (update key value size elems).1) :
    elem.mKey = key ∨ elem.mKey ∈ elems.map (·.mKey) := by
  induction elems with
  | nil => exact Or.inl (mKey_allocate h)
  | cons e rest ih =>
    rw [List.map_cons, List.mem_cons]
    by_cases hkey : e.mKey = key
    · by_cases hlen : strlen (value.getD .nil) = strlen e.mValue
      · rw [update_same hkey hlen] at h
        rcases List.mem_cons.mp h with rfl | h
        · exact Or.inl rfl
        · exact Or.inr (Or.inr (List.mem_map_of_mem h))
      · rw [update_found hkey hlen] at h
        rcases List.mem_append.mp h with h | h
        · exact Or.inl (mKey_allocate h)
        · exact Or.inr (Or.inr (List.mem_map_of_mem h))
    · rw [update_other hkey] at h
      rcases List.mem_cons.mp h with rfl | h
      · exact Or.inr (Or.inl rfl)
      · exact (ih h).imp_right Or.inr

theorem nodup_allocate (key : CStr) (value : Option CStr) (size : UInt32) :
    ((allocate key value size).1.map (·.mKey)).Nodup := by
  cases value with
  | none => exact List.nodup_nil
  | some value => exact List.nodup_singleton _

theorem nodup_update {elems : List MetaElement} (h : (elems.map (·.mKey)).Nodup) (key : CStr)
    (value : Option CStr) (size : UInt32) :
    ((update key value size elems).1.map (·.mKey)).Nodup := by
  induction elems with
  | nil => exact nodup_allocate key value size
  | cons e rest ih =>
    rw [List.map_cons, List.nodup_cons] at h
    by_cases hkey : e.mKey = key
    · by_cases hlen : strlen (value.getD .nil) = strlen e.mValue
      · rw [update_same hkey hlen, List.map_cons, List.nodup_cons]
        rw [hkey] at h
        exact h
      · rw [update_found hkey hlen, List.map_append]
        refine (nodup_allocate key value _).append h.2 ?_
        intro k hk hk'
        obtain ⟨elem, helem, rfl⟩ := List.mem_map.mp hk
        rw [mKey_allocate helem, ← hkey] at hk'
        exact h.1 hk'
    · rw [update_other hkey, List.map_cons, List.nodup_cons]
      refine ⟨?_, ih h.2⟩
      intro hmem
      obtain ⟨elem, helem, heq⟩ := List.mem_map.mp hmem
      rcases mKey_update helem with hk | hk
      · exact hkey (heq.symm.trans hk)
      · exact h.1 (heq ▸ hk)

theorem Sound.set {s : nsCacheMetaData} (h : s.Sound) (key : CStr) (value : Option CStr) :
    (s.SetElement key value).Sound := by
  refine ⟨nodup_update h.keys key value _, ?_⟩
  have hsize := h.size
  rw [← Nat.zero_add (flatSize s.mData)] at hsize
  have hnext := @update_size key value s.mMetaSize s.mData 0 hsize
  rw [Nat.zero_add] at hnext
  exact hnext

theorem run_sound (edits : List Edit) : (run edits).Sound := by
  induction edits using List.reverseRecOn with
  | nil => exact ⟨List.nodup_nil, rfl⟩
  | append_singleton edits e ih =>
    rw [run_append]
    exact ih.set e.1 e.2

/-! ### The value of the changed key -/

theorem flatSize_le {elems : List MetaElement} {elem : MetaElement} (h : elem ∈ elems) :
    elem.size ≤ flatSize elems := by
  induction elems with
  | nil => exact absurd h List.not_mem_nil
  | cons e rest ih =>
    rw [flatSize_cons]
    rcases List.mem_cons.mp h with rfl | h
    · omega
    · have hrest := ih h
      omega

theorem value_lt {elems : List MetaElement} {elem : MetaElement} (hsize : flatSize elems < 2 ^ 32)
    (h : elem ∈ elems) : elem.mValue.length < 2 ^ 32 := by
  have hle := flatSize_le h
  unfold MetaElement.size at hle
  omega

theorem strlen_inj {s t : CStr} (hs : s.length < 2 ^ 32) (ht : t.length < 2 ^ 32)
    (h : strlen s = strlen t) : s.length = t.length := by
  rw [← UInt32.toNat_inj, strlen_toNat, strlen_toNat] at h
  omega

theorem find?_update_some {key value : CStr} (hvalue : value.length < 2 ^ 32)
    {elems : List MetaElement} (hsize : flatSize elems < 2 ^ 32) (size : UInt32) :
    ((update key (some value) size elems).1.find? (·.mKey = key)).map (·.mValue) = some value := by
  have hnew : ∀ size rest, (((allocate key (some value) size).1 ++ rest).find?
      (·.mKey = key)).map (·.mValue) = some value := by
    intro size rest
    rw [allocate, List.singleton_append, List.find?_cons_of_pos (by simp), copy_eq hvalue]
    rfl
  induction elems with
  | nil =>
    rw [← List.append_nil (update key (some value) size []).1]
    exact hnew size []
  | cons e rest ih =>
    have he := value_lt hsize List.mem_cons_self
    rw [flatSize_cons] at hsize
    by_cases hkey : e.mKey = key
    · by_cases hlen : strlen ((some value).getD .nil) = strlen e.mValue
      · rw [update_same hkey hlen, List.find?_cons_of_pos (by simp)]
        have hover := CStr.overwrite_eq (strlen_inj he hvalue hlen.symm)
        rw [Option.getD_some, copy_eq hvalue, Option.map_some, hover]
      · rw [update_found hkey hlen]
        exact hnew _ _
    · rw [update_other hkey, List.find?_cons_of_neg (by simpa using hkey)]
      exact ih (by omega)

theorem find?_update_none {key : CStr} {elems : List MetaElement}
    (hkeys : (elems.map (·.mKey)).Nodup) (hsize : flatSize elems < 2 ^ 32)
    (hget : (elems.find? (·.mKey = key)).map (·.mValue) ≠ some .nil) (size : UInt32) :
    (update key none size elems).1.find? (·.mKey = key) = none := by
  induction elems with
  | nil => rfl
  | cons e rest ih =>
    have he := value_lt hsize List.mem_cons_self
    rw [flatSize_cons] at hsize
    rw [List.map_cons, List.nodup_cons] at hkeys
    by_cases hkey : e.mKey = key
    · rw [List.find?_cons_of_pos (by simpa using hkey)] at hget
      have hlen : strlen ((none : Option CStr).getD .nil) ≠ strlen e.mValue := by
        intro hlen
        have hzero := @strlen_inj .nil _ (by simp) he hlen
        exact hget (by rw [Option.map_some, CStr.eq_nil_of_length hzero.symm])
      rw [update_found hkey hlen, allocate, List.nil_append, List.find?_eq_none]
      intro elem helem
      have hne : elem.mKey ≠ key := fun h => hkeys.1 (by
        rw [hkey, ← h]
        exact List.mem_map_of_mem helem)
      simpa using hne
    · rw [List.find?_cons_of_neg (by simpa using hkey)] at hget
      rw [update_other hkey, List.find?_cons_of_neg (by simpa using hkey)]
      exact ih hkeys.2 (by omega) hget

/-- The removal of an empty value is taken for its replacement. -/
theorem find?_update_empty {key : CStr} {elems : List MetaElement}
    (hget : (elems.find? (·.mKey = key)).map (·.mValue) = some .nil) (size : UInt32) :
    ((update key none size elems).1.find? (·.mKey = key)).map (·.mValue) = some .nil := by
  induction elems with
  | nil => exact hget
  | cons e rest ih =>
    by_cases hkey : e.mKey = key
    · rw [List.find?_cons_of_pos (by simpa using hkey)] at hget
      have hnil : e.mValue = .nil := Option.some.inj hget
      have hlen : strlen ((none : Option CStr).getD .nil) = strlen e.mValue := by
        rw [hnil]
        rfl
      rw [update_same hkey hlen, List.find?_cons_of_pos (by simp), hnil]
      rfl
    · rw [List.find?_cons_of_neg (by simpa using hkey)] at hget
      rw [update_other hkey, List.find?_cons_of_neg (by simpa using hkey)]
      exact ih hget

/-! ### Flattening and back -/

theorem unflatten_read {data data' data'' : List UInt8} {key value : CStr} (hdata : data ≠ [])
    (hdata' : data' ≠ []) (hkey : CStr.read data = some (key, data'))
    (hvalue : CStr.read data' = some (value, data'')) : unflatten data =
      (unflatten data'').map (⟨key, value.take (strlen value).toNat⟩ :: ·) := by
  rw [unflatten, if_neg hdata]
  split
  · rename_i h
    exact absurd (h.symm.trans hkey) (by simp)
  · rename_i h
    obtain ⟨rfl, rfl⟩ := Prod.mk.inj (Option.some.inj (hkey.symm.trans h))
    rw [if_neg hdata']
    split
    · rename_i h
      exact absurd (h.symm.trans hvalue) (by simp)
    · rename_i h
      obtain ⟨rfl, rfl⟩ := Prod.mk.inj (Option.some.inj (hvalue.symm.trans h))
      rfl

theorem unflatten_flatten {elems : List MetaElement} (hsize : flatSize elems < 2 ^ 32) :
    unflatten (flatten elems) = some elems := by
  induction elems with
  | nil => rw [flatten, List.flatMap_nil, unflatten, if_pos rfl]
  | cons e rest ih =>
    have he := value_lt hsize List.mem_cons_self
    rw [flatSize_cons] at hsize
    have hkey := CStr.read_terminated e.mKey (e.mValue.terminated ++ flatten rest)
    have hvalue := CStr.read_terminated e.mValue (flatten rest)
    have hne : ∀ (s : CStr) (data : List UInt8), s.terminated ++ data ≠ [] := by
      intro s data
      simp [CStr.terminated]
    rw [flatten, List.flatMap_cons, List.append_assoc, ← flatten,
      unflatten_read (hne _ _) (hne _ _) hkey hvalue, ih (by omega), copy_eq he]
    rfl

/-! ### Runs that keep the map -/

theorem Sound.toNat_size {s : nsCacheMetaData} (h : s.Sound) (hsize : flatSize s.mData < 2 ^ 32) :
    s.mMetaSize.toNat = flatSize s.mData := by
  rw [h.size, UInt32.toNat_ofNat', Nat.mod_eq_of_lt hsize]

/-- Every lookup is right and the size fits. -/
theorem Sound.kept_iff {s : nsCacheMetaData} (h : s.Sound) (m : CStr → Option CStr) :
    Kept m s ↔ (∀ key, s.GetElement key = m key) ∧ flatSize s.mData < 2 ^ 32 := by
  constructor
  · rintro ⟨hget, hflat⟩
    obtain ⟨data, hdata, hlen, -⟩ := hflat s.mMetaSize (UInt32.le_refl _)
    rw [FlattenMetaData, if_neg (UInt32.lt_irrefl _)] at hdata
    refine ⟨hget, ?_⟩
    rw [← length_flatten, Option.some.inj hdata, hlen]
    exact s.mMetaSize.toNat_lt
  · rintro ⟨hget, hsize⟩
    refine ⟨hget, fun bufSize hbuf => ⟨flatten s.mData, ?_, ?_, ?_⟩⟩
    · rw [FlattenMetaData, if_neg (UInt32.not_lt.mpr hbuf)]
    · rw [length_flatten, h.toNat_size hsize]
    · rw [UnflattenMetaData, unflatten_flatten hsize]
      refine ⟨_, rfl, fun key => ?_⟩
      rw [← hget key, GetElement, GetElement]
      dsimp only
      rw [List.append_nil]

theorem GetElement_set_of_ne {s : nsCacheMetaData} {key key' : CStr} (h : key' ≠ key)
    (value : Option CStr) : (s.SetElement key value).GetElement key' = s.GetElement key' := by
  rw [GetElement, GetElement, SetElement]
  dsimp only
  rw [find?_update_of_ne h]

theorem others_le (key : CStr) (elems : List MetaElement) : others key elems ≤ flatSize elems := by
  induction elems with
  | nil => exact Nat.le_refl 0
  | cons e rest ih =>
    rw [others_cons, flatSize_cons]
    split <;> omega

/-- With one element a key, the list is what other keys take and that element. -/
theorem flatSize_eq {key : CStr} {elems : List MetaElement}
    (hkeys : (elems.map (·.mKey)).Nodup) : flatSize elems =
      others key elems + ((elems.find? (·.mKey = key)).map MetaElement.size).getD 0 := by
  induction elems with
  | nil => rfl
  | cons e rest ih =>
    rw [List.map_cons, List.nodup_cons] at hkeys
    rw [others_cons, flatSize_cons]
    by_cases hkey : e.mKey = key
    · have hnone : rest.find? (·.mKey = key) = none := by
        rw [List.find?_eq_none]
        intro elem helem
        have hne : elem.mKey ≠ key := fun h => hkeys.1 (by
          rw [hkey, ← h]
          exact List.mem_map_of_mem helem)
        simpa using hne
      have hrest := ih hkeys.2
      rw [hnone] at hrest
      rw [if_pos hkey, List.find?_cons_of_pos (by simpa using hkey), hrest]
      simp only [Option.map_none, Option.map_some, Option.getD_none, Option.getD_some]
      omega
    · rw [if_neg hkey, List.find?_cons_of_neg (by simpa using hkey), ih hkeys.2]
      omega

theorem flatSize_of_find? {key value : CStr} {elems : List MetaElement}
    (hkeys : (elems.map (·.mKey)).Nodup)
    (h : (elems.find? (·.mKey = key)).map (·.mValue) = some value) :
    flatSize elems = others key elems + (MetaElement.mk key value).size := by
  obtain ⟨e, he, rfl⟩ := Option.map_eq_some_iff.mp h
  have hkey : e.mKey = key := by simpa using List.find?_some he
  rw [flatSize_eq hkeys, he]
  subst hkey
  rfl

/-- One step keeps the map when it is safe, and only then. -/
theorem Sound.kept_set_iff {s : nsCacheMetaData} {m : CStr → Option CStr} (h : s.Sound)
    (hm : Kept m s) (e : Edit) :
    Kept (Function.update m e.1 e.2) (s.SetElement e.1 e.2) ↔ Safe s e := by
  obtain ⟨key, value⟩ := e
  obtain ⟨hget, hsize⟩ := (h.kept_iff m).mp hm
  have hothers : others key (s.SetElement key value).mData = others key s.mData :=
    others_update key value s.mMetaSize s.mData
  have hset := h.set key value
  rw [hset.kept_iff]
  cases value with
  | none =>
    constructor
    · rintro ⟨hnext, -⟩ hempty
      have hstill := hnext key
      rw [Function.update_self] at hstill
      exact Option.some_ne_none _ ((find?_update_empty hempty s.mMetaSize).symm.trans hstill)
    · intro hsafe
      have hnone := find?_update_none h.keys hsize hsafe s.mMetaSize
      constructor
      · intro key'
        by_cases hkey : key' = key
        · subst hkey
          rw [Function.update_self]
          exact congrArg _ hnone
        · rw [Function.update_of_ne hkey, GetElement_set_of_ne hkey, hget]
      · have hle := others_le key s.mData
        have heq := @flatSize_eq key _ hset.keys
        rw [hothers] at heq
        have hzero : ((s.SetElement key none).mData.find? (·.mKey = key)) = none := hnone
        rw [hzero] at heq
        simp only [Option.map_none, Option.getD_none] at heq
        omega
  | some value =>
    constructor
    · rintro ⟨hnext, hfits⟩
      have hvalue := hnext key
      rw [Function.update_self] at hvalue
      have heq := flatSize_of_find? hset.keys hvalue
      rw [hothers] at heq
      show others key s.mData + (MetaElement.mk key value).size < 2 ^ 32
      omega
    · intro hsafe
      have hfits : others key s.mData + (2 + key.length + value.length) < 2 ^ 32 := hsafe
      have hlen : value.length < 2 ^ 32 := by omega
      have hvalue := @find?_update_some key value hlen s.mData hsize s.mMetaSize
      constructor
      · intro key'
        by_cases hkey : key' = key
        · subst hkey
          rw [Function.update_self]
          exact hvalue
        · rw [Function.update_of_ne hkey, GetElement_set_of_ne hkey, hget]
      · rw [flatSize_of_find? hset.keys hvalue, hothers]
        exact hfits

theorem kept_start : Kept (contents []) (run []) :=
  ((run_sound []).kept_iff _).mpr ⟨fun _ => rfl, by decide⟩

/-- The object is the map in every state of a run if and only if every change of the run is safe. -/
theorem metaData_kept_iff (edits : List Edit) :
    (∀ before, before <+: edits → Kept (contents before) (run before)) ↔
      ∀ before e, before ++ [e] <+: edits → Safe (run before) e := by
  induction edits using List.reverseRecOn with
  | nil =>
    constructor
    · intro _ before e hpre
      simp at hpre
    · intro _ before hpre
      rw [List.prefix_nil.mp hpre]
      exact kept_start
  | append_singleton edits e ih =>
    constructor
    · intro hkept before f hpre
      have hbefore := hkept before ((List.prefix_append _ _).trans hpre)
      have hafter := hkept _ hpre
      rw [run_append, contents_append] at hafter
      exact ((run_sound before).kept_set_iff hbefore f).mp hafter
    · intro hsafe before hpre
      have hbefore := ih.mpr fun b f hb => hsafe b f (hb.trans (List.prefix_append _ _))
      rcases List.prefix_concat_iff.mp hpre with rfl | hpre
      · rw [run_append, contents_append]
        have hedits := hbefore edits (List.prefix_refl _)
        exact ((run_sound edits).kept_set_iff hedits e).mpr (hsafe edits e (List.prefix_refl _))
      · exact hbefore before hpre

/-- An empty value that is removed is still there. -/
theorem removed_empty_kept :
    (run [(⟨[107], by decide⟩, some .nil), (⟨[107], by decide⟩, none)]).GetElement
      ⟨[107], by decide⟩ = some .nil ∧
    contents [(⟨[107], by decide⟩, some .nil), (⟨[107], by decide⟩, none)] ⟨[107], by decide⟩ =
      none := by
  decide

end nsCacheMetaData

end Kompozer.Cache

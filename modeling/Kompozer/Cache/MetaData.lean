import Kompozer.Lib.CString
import Mathlib

/-! The meta data of a cache entry (`nsCacheMetaData.cpp`): a linked list of keys and values, and the
size it has when it is flattened. Atoms stand for their strings. -/

namespace Kompozer.Cache

structure MetaElement where
  mKey : CStr
  mValue : CStr

/-- The bytes that an element takes. -/
def MetaElement.size (elem : MetaElement) : ℕ := 2 + elem.mKey.length + elem.mValue.length

structure nsCacheMetaData where
  mData : List MetaElement := []
  mMetaSize : UInt32 := 0

namespace nsCacheMetaData

/-! ### The list -/

/-- `strlen` in a `PRUint32`. -/
def strlen (s : CStr) : UInt32 := UInt32.ofNat s.length

def GetElement (s : nsCacheMetaData) (key : CStr) : Option CStr :=
  (s.mData.find? (·.mKey = key)).map (·.mValue)

/-- The new element, when there is a value, and the size with it. -/
def allocate (key : CStr) (value : Option CStr) (size : UInt32) : List MetaElement × UInt32 :=
  match value with
  | none => ([], size)
  | some value =>
    ([⟨key, value.take (strlen value).toNat⟩], size + (2 + strlen key + strlen value))

/-- The walk to the element of the key, and what stands in its place after it. -/
def update (key : CStr) (value : Option CStr) (size : UInt32) :
    List MetaElement → List MetaElement × UInt32
  | [] => allocate key value size
  | elem :: rest =>
    if elem.mKey = key then
      let oldValueLen := strlen elem.mValue
      let new := value.getD .nil
      if strlen new = oldValueLen then
        (⟨key, elem.mValue.overwrite (new.take (strlen new).toNat)⟩ :: rest, size)
      else
        let added := allocate key value (size - (2 + strlen key + oldValueLen))
        (added.1 ++ rest, added.2)
    else
      let next := update key value size rest
      (elem :: next.1, next.2)

section Update
variable {key : CStr} {value : Option CStr} {size : UInt32} {elem : MetaElement}
  {rest : List MetaElement}

theorem update_same (hkey : elem.mKey = key)
    (hlen : strlen (value.getD .nil) = strlen elem.mValue) : update key value size (elem :: rest) =
      (⟨key, elem.mValue.overwrite
        ((value.getD .nil).take (strlen (value.getD .nil)).toNat)⟩ :: rest, size) := by
  rw [update, if_pos hkey]
  exact if_pos hlen

theorem update_found (hkey : elem.mKey = key)
    (hlen : strlen (value.getD .nil) ≠ strlen elem.mValue) : update key value size (elem :: rest) =
      ((allocate key value (size - (2 + strlen key + strlen elem.mValue))).1 ++ rest,
        (allocate key value (size - (2 + strlen key + strlen elem.mValue))).2) := by
  rw [update, if_pos hkey]
  exact if_neg hlen

theorem update_other (hkey : elem.mKey ≠ key) : update key value size (elem :: rest) =
    (elem :: (update key value size rest).1, (update key value size rest).2) := by
  rw [update, if_neg hkey]

end Update

def SetElement (s : nsCacheMetaData) (key : CStr) (value : Option CStr) : nsCacheMetaData :=
  let next := update key value s.mMetaSize s.mData
  ⟨next.1, next.2⟩

/-! ### Flattening -/

def flatten (elems : List MetaElement) : List UInt8 :=
  elems.flatMap fun elem => elem.mKey.terminated ++ elem.mValue.terminated

/-- What is written to a buffer, when there is room in it. -/
def FlattenMetaData (s : nsCacheMetaData) (bufSize : UInt32) : Option (List UInt8) :=
  if bufSize < s.mMetaSize then none else some (flatten s.mData)

/-- The elements in some bytes, unless a string has no end in them. -/
def unflatten (data : List UInt8) : Option (List MetaElement) :=
  if data = [] then some []
  else match _ : CStr.read data with
    | none => none
    | some (key, data) =>
      if data = [] then some []
      else match _ : CStr.read data with
        | none => none
        | some (value, data) => (unflatten data).map (⟨key, value.take (strlen value).toNat⟩ :: ·)
termination_by data.length
decreasing_by
  have hkey := CStr.length_read ‹CStr.read _ = some (key, _)›
  have hvalue := CStr.length_read ‹CStr.read _ = some (value, _)›
  omega

/-- The elements are put in front of those that are there. -/
def UnflattenMetaData (s : nsCacheMetaData) (data : List UInt8) : Option nsCacheMetaData :=
  (unflatten data).map fun elems =>
    ⟨elems ++ s.mData, elems.foldl
      (fun size elem => size + (2 + strlen elem.mKey + strlen elem.mValue)) s.mMetaSize⟩

/-! ### Sizes -/

def flatSize (elems : List MetaElement) : ℕ := (elems.map MetaElement.size).sum

/-- What the elements of other keys take. -/
def others (key : CStr) (elems : List MetaElement) : ℕ :=
  flatSize (elems.filter (·.mKey ≠ key))

@[simp] theorem flatSize_nil : flatSize [] = 0 := rfl

@[simp] theorem flatSize_cons (elem : MetaElement) (elems : List MetaElement) :
    flatSize (elem :: elems) = elem.size + flatSize elems := rfl

@[simp] theorem flatSize_append (elems elems' : List MetaElement) :
    flatSize (elems ++ elems') = flatSize elems + flatSize elems' := by
  rw [flatSize, List.map_append, List.sum_append]
  rfl

theorem others_cons (key : CStr) (elem : MetaElement) (elems : List MetaElement) :
    others key (elem :: elems) = (if elem.mKey = key then 0 else elem.size) + others key elems := by
  unfold others
  by_cases h : elem.mKey = key
  · rw [List.filter_cons_of_neg (by simpa using h), if_pos h, Nat.zero_add]
  · rw [List.filter_cons_of_pos (by simpa using h), flatSize_cons, if_neg h]

theorem length_flatten (elems : List MetaElement) : (flatten elems).length = flatSize elems := by
  induction elems with
  | nil => rfl
  | cons elem elems ih =>
    rw [flatten, List.flatMap_cons, List.length_append, List.length_append,
      CStr.length_terminated, CStr.length_terminated, flatSize_cons, ← ih, MetaElement.size,
      flatten]
    omega

theorem strlen_toNat (s : CStr) : (strlen s).toNat = s.length % 2 ^ 32 := UInt32.toNat_ofNat'

theorem length_copy (s : CStr) : (s.take (strlen s).toNat).length = (strlen s).toNat :=
  CStr.length_take (by rw [strlen_toNat]; exact Nat.mod_le _ _)

theorem copy_eq {s : CStr} (h : s.length < 2 ^ 32) : s.take (strlen s).toNat = s := by
  rw [strlen_toNat, Nat.mod_eq_of_lt h, CStr.take_length (Nat.le_refl _)]

/-- The size of an element in a `PRUint32`. -/
theorem ofNat_size (key value : CStr) :
    UInt32.ofNat (MetaElement.mk key value).size = 2 + strlen key + strlen value := by
  rw [MetaElement.size, UInt32.ofNat_add, UInt32.ofNat_add]
  rfl

theorem allocate_size {key : CStr} {value : Option CStr} {size : UInt32} {n : ℕ}
    (h : size = UInt32.ofNat n) : (allocate key value size).2 =
      UInt32.ofNat (n + flatSize (allocate key value size).1) := by
  cases value with
  | none => exact h
  | some value =>
    have hcopy : strlen (value.take (strlen value).toNat) = strlen value := by
      rw [strlen, length_copy, UInt32.ofNat_toNat]
    rw [allocate, flatSize_cons, flatSize_nil, Nat.add_zero, UInt32.ofNat_add, ofNat_size, hcopy, h]

/-- The running sum is the size of the list, as far as it can be told in 32 bits. -/
theorem update_size {key : CStr} {value : Option CStr} {size : UInt32}
    {elems : List MetaElement} {n : ℕ} (h : size = UInt32.ofNat (n + flatSize elems)) :
    (update key value size elems).2 =
      UInt32.ofNat (n + flatSize (update key value size elems).1) := by
  induction elems generalizing n with
  | nil =>
    rw [update]
    exact allocate_size h
  | cons elem rest ih =>
    rw [flatSize_cons] at h
    by_cases hkey : elem.mKey = key
    · by_cases hlen : strlen (value.getD .nil) = strlen elem.mValue
      · have hle : ((value.getD .nil).take (strlen (value.getD .nil)).toNat).length ≤
            elem.mValue.length := by
          rw [length_copy, hlen, strlen_toNat]
          exact Nat.mod_le _ _
        rw [update_same hkey hlen, flatSize_cons, h, MetaElement.size, MetaElement.size,
          CStr.length_overwrite hle, hkey]
      · have hrest : size - (2 + strlen key + strlen elem.mValue) =
            UInt32.ofNat (n + flatSize rest) := by
          rw [h, ← hkey, ← ofNat_size, Nat.add_left_comm, UInt32.ofNat_add elem.size,
            UInt32.add_comm]
          exact UInt32.add_sub_cancel _ _
        rw [update_found hkey hlen]
        dsimp only
        rw [allocate_size hrest, flatSize_append]
        congr 1
        omega
    · rw [update_other hkey, flatSize_cons, ← Nat.add_assoc]
      rw [← Nat.add_assoc] at h
      exact ih h

/-! ### Keys -/

theorem mKey_allocate {key : CStr} {value : Option CStr} {size : UInt32} {elem : MetaElement}
    (h : elem ∈ (allocate key value size).1) : elem.mKey = key := by
  cases value with
  | none => simp [allocate] at h
  | some value => rw [List.mem_singleton.mp h]

theorem find?_update_of_ne {key key' : CStr} (hne : key' ≠ key) (value : Option CStr)
    (size : UInt32) (elems : List MetaElement) :
    (update key value size elems).1.find? (·.mKey = key') = elems.find? (·.mKey = key') := by
  have hskip : ∀ size, (allocate key value size).1.find? (·.mKey = key') = none := by
    intro size
    rw [List.find?_eq_none]
    intro elem helem
    simpa [mKey_allocate helem] using hne.symm
  induction elems with
  | nil => exact hskip size
  | cons elem rest ih =>
    by_cases hkey : elem.mKey = key
    · rw [List.find?_cons_of_neg (by simpa [hkey] using hne.symm)]
      by_cases hlen : strlen (value.getD .nil) = strlen elem.mValue
      · rw [update_same hkey hlen]
        exact List.find?_cons_of_neg (by simpa using hne.symm)
      · rw [update_found hkey hlen, List.find?_append, hskip, Option.none_or]
    · rw [update_other hkey, List.find?_cons, List.find?_cons, ih]

theorem others_append (key : CStr) (elems elems' : List MetaElement) :
    others key (elems ++ elems') = others key elems + others key elems' := by
  rw [others, List.filter_append, flatSize_append]
  rfl

theorem others_allocate (key : CStr) (value : Option CStr) (size : UInt32) :
    others key (allocate key value size).1 = 0 := by
  rw [others, List.filter_eq_nil_iff.mpr]
  · rfl
  · intro elem helem
    simpa using mKey_allocate helem

theorem others_update (key : CStr) (value : Option CStr) (size : UInt32)
    (elems : List MetaElement) : others key (update key value size elems).1 = others key elems := by
  induction elems with
  | nil => exact others_allocate key value size
  | cons elem rest ih =>
    rw [others_cons]
    by_cases hkey : elem.mKey = key
    · rw [if_pos hkey, Nat.zero_add]
      by_cases hlen : strlen (value.getD .nil) = strlen elem.mValue
      · rw [update_same hkey hlen, others_cons, if_pos rfl, Nat.zero_add]
      · rw [update_found hkey hlen, others_append, others_allocate, Nat.zero_add]
    · rw [update_other hkey, others_cons, if_neg hkey, ih]

end nsCacheMetaData

end Kompozer.Cache

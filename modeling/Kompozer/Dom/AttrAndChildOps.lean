import Kompozer.Dom.AttrAndChildArray
import Mathlib.Data.Nat.Log

/-! What is done to the array of attributes and children. An allocation is given or refused by
`memory`; a step outside of the buffer, or through a null pointer, has no result. -/

namespace Kompozer.Dom.AttrAndChild

variable {A V C : Type} [DecidableEq A] [DecidableEq C]

open NsResult

/-! ### Growing -/

/-- The loop of `GrowBy`. -/
def linearSize (minSize : ℕ) : ℕ → ℕ → ℕ
  | 0, size => size
  | k + 1, size =>
    if size < minSize then linearSize minSize k (size + ATTRCHILD_ARRAY_GROWSIZE) else size

/-- The number of words `GrowBy` asks for. -/
def grownSize (size minSize : ℕ) : ℕ :=
  if minSize ≤ ATTRCHILD_ARRAY_LINEAR_THRESHOLD then
    linearSize minSize minSize (size + ATTRCHILD_ARRAY_GROWSIZE)
  else 2 ^ Nat.clog 2 minSize

namespace Impl

/-- `PR_Realloc`, to a buffer of `size` words. -/
def realloc (impl : Impl A V C) (size : ℕ) : Impl A V C :=
  { impl with mBufferSize := size, mBuffer := impl.mBuffer.resize size .junk }

/-- An `Impl` that was just allocated. -/
def fresh (size : ℕ) : Impl A V C :=
  { mAttrAndChildCount := 0, mBufferSize := size, mMappedAttrs := none,
    mBuffer := ⟨size, fun _ => .junk⟩ }

variable (impl : Impl A V C)

/-- `AddAttrSlot`, where there is room for the slot. -/
def addAttrSlot : Option (Impl A V C) := do
  let slotCount := impl.AttrSlotCount
  let mBuffer ← impl.mBuffer.move ((slotCount + 1) * ATTRSIZE) (slotCount * ATTRSIZE) impl.ChildCount
  let mBuffer ← mBuffer.set (slotCount * ATTRSIZE) .null
  let mBuffer ← mBuffer.set (slotCount * ATTRSIZE + 1) .null
  some ((impl.setBuffer mBuffer).SetAttrSlotCount (slotCount + 1))

/-- `if (childCount != aPos) memmove(pos + 1, pos, …);` -/
def makeWay (pos childCount aPos : ℕ) : Option (Block (Word A V C)) :=
  if childCount ≠ aPos then impl.mBuffer.move (pos + 1) pos (childCount - aPos)
  else some impl.mBuffer

/-- `InsertChildAt`, where there is room for the child. -/
def insertChild (aChild : C) (aPos : ℕ) : Option (Impl A V C) := do
  let pos := impl.AttrSlotCount * ATTRSIZE + aPos
  let childCount := impl.ChildCount
  let mBuffer ← impl.makeWay pos childCount aPos
  let mBuffer ← mBuffer.set pos (.child aChild)
  some ((impl.setBuffer mBuffer).SetChildCount (childCount + 1))

/-- `InsertChildAt`, where the empty slots make room for the child. -/
def insertChildInSlots (aChild : C) (aPos : ℕ) : Option (Impl A V C) := do
  let oldStart := impl.AttrSlotCount * ATTRSIZE
  let childCount := impl.ChildCount
  let attrCount ← impl.NonMappedAttrCount
  let newStart := attrCount * ATTRSIZE
  let mBuffer ← impl.mBuffer.move newStart oldStart aPos
  let mBuffer ← mBuffer.set (newStart + aPos) (.child aChild)
  let mBuffer ← mBuffer.move (newStart + aPos + 1) (oldStart + aPos) (childCount - aPos)
  some ((impl.setBuffer mBuffer).SetAttrSlotAndChildCount attrCount (childCount + 1))

def RemoveChildAt (aPos : ℕ) : Option (Impl A V C) := do
  let childCount := impl.ChildCount
  let pos := impl.AttrSlotCount * ATTRSIZE + aPos
  let _ ← impl.childAt aPos
  let mBuffer ← impl.mBuffer.move pos (pos + 1) (childCount - aPos - 1)
  some ((impl.setBuffer mBuffer).SetChildCount (childCount - 1))

/-- `RemoveAttrAt`, for an attribute in a slot. -/
def RemoveAttrAt (aPos : ℕ) : Option (V × Impl A V C) := do
  let aValue ← impl.valueAt aPos
  let slotCount := impl.AttrSlotCount
  let mBuffer ← impl.mBuffer.move (aPos * ATTRSIZE) ((aPos + 1) * ATTRSIZE)
    ((slotCount - aPos - 1) * ATTRSIZE)
  let mBuffer ← mBuffer.set ((slotCount - 1) * ATTRSIZE) .null
  let mBuffer ← mBuffer.set ((slotCount - 1) * ATTRSIZE + 1) .null
  some (aValue, impl.setBuffer mBuffer)

/-- A value is written to a slot, and the name before it if `rename`. -/
def writeSlot (rename : Bool) (i : ℕ) (aName : nsAttrName A) (aValue : V) : Option (Impl A V C) :=
  (if rename then impl.setName i aName else some impl).bind (·.setValue i aValue)

/-- The first half of `Compact`. -/
def compressSlots : Option (Impl A V C) := do
  let slotCount := impl.AttrSlotCount
  let attrCount ← impl.NonMappedAttrCount
  if attrCount < slotCount then
    let mBuffer ←
      impl.mBuffer.move (attrCount * ATTRSIZE) (slotCount * ATTRSIZE) impl.ChildCount
    some ((impl.setBuffer mBuffer).SetAttrSlotCount attrCount)
  else some impl

/-- `Compact` asks for a smaller buffer. -/
def Shrinks : Prop :=
  ∃ attrCount, impl.NonMappedAttrCount = some attrCount ∧
    ¬(attrCount * ATTRSIZE + impl.ChildCount = 0 ∧ impl.mMappedAttrs = none) ∧
    attrCount * ATTRSIZE + impl.ChildCount < impl.mBufferSize

end Impl

namespace nsAttrAndChildArray

variable (b : Build) (memory : Bool) (a : nsAttrAndChildArray A V C)

/-- The success of an operation that got through. -/
def done (impl : Option (Impl A V C)) : Option (NsResult × nsAttrAndChildArray A V C) :=
  impl.map fun impl => (ok, ⟨impl⟩)

/-- The buffer, grown; `none` where the allocation fails. -/
def GrowBy (aGrowSize : ℕ) : Option (Impl A V C) :=
  let size := a.mImpl.elim 0 fun impl => impl.mBufferSize + b.NS_IMPL_EXTRA_SIZE
  let size := grownSize size (size + aGrowSize) - b.NS_IMPL_EXTRA_SIZE
  if memory then some (a.mImpl.elim (Impl.fresh size) (Impl.realloc · size)) else none

/-- The room for one more slot, and `none` where there is none and the allocation fails. -/
def roomForSlot : Option (Impl A V C) :=
  match a.mImpl with
  | some impl =>
    if (impl.AttrSlotCount + 1) * ATTRSIZE + impl.ChildCount ≤ impl.mBufferSize then some impl
    else a.GrowBy b memory ATTRSIZE
  | none => a.GrowBy b memory ATTRSIZE

/-- Whether the last slot is there, and empty. -/
def lastSlotEmpty : Option Bool :=
  match a.mImpl with
  | some impl =>
    if impl.AttrSlotCount = 0 then some false
    else impl.isNull (impl.AttrSlotCount * ATTRSIZE - ATTRSIZE)
  | none => some false

/-- Whether the first test of `InsertChildAt` finds room. -/
def hasRoom : Bool := a.mImpl.elim false fun impl =>
  impl.AttrSlotCount * ATTRSIZE + impl.ChildCount < impl.mBufferSize

def InsertChildAt (aChild : C) (aPos : ℕ) : Option (NsResult × nsAttrAndChildArray A V C) :=
  if b.ATTRCHILD_ARRAY_MAX_CHILD_COUNT ≤ a.ChildCount then some (NS_ERROR_FAILURE, a)
  else if a.hasRoom then done (a.mImpl.bind (·.insertChild aChild aPos))
  else match a.lastSlotEmpty with
    | none => none
    | some true => done (a.mImpl.bind (·.insertChildInSlots aChild aPos))
    | some false => match a.GrowBy b memory 1 with
      | none => some (NS_ERROR_OUT_OF_MEMORY, a)
      | some impl => done (impl.insertChild aChild aPos)

def RemoveChildAt (aPos : ℕ) : Option (nsAttrAndChildArray A V C) := do
  let impl ← (← a.mImpl).RemoveChildAt aPos
  return ⟨impl⟩

/-- The loops over the slots of an array. -/
def findAttr (equals : nsAttrName A → Bool) : Option (ℕ × Bool) :=
  a.mImpl.elim (some (0, false)) (Impl.findSlot · equals a.AttrSlotCount 0)

/-- The setters. They differ in what they look for, in whether they write the name over one that
they found, and in the count that must be below the limit. -/
def setSlot (equals : nsAttrName A → Bool) (rename : Bool) (count : ℕ → ℕ → ℕ)
    (aName : nsAttrName A) (aValue : V) : Option (NsResult × nsAttrAndChildArray A V C) :=
  match a.findAttr equals with
  | none => none
  | some (i, true) => done (a.mImpl.bind (·.writeSlot rename i aName aValue))
  | some (i, false) =>
    if ATTRCHILD_ARRAY_MAX_ATTR_COUNT ≤ count a.AttrSlotCount i then some (NS_ERROR_FAILURE, a)
    else if i = a.AttrSlotCount then
      match a.roomForSlot b memory with
      | none => some (NS_ERROR_OUT_OF_MEMORY, a)
      | some impl => done (impl.addAttrSlot.bind (·.writeSlot true i aName aValue))
    else done (a.mImpl.bind (·.writeSlot true i aName aValue))

/-- The limit is on the number of slots. -/
def SetAttr (aLocalName : A) (aValue : V) : Option (NsResult × nsAttrAndChildArray A V C) :=
  a.setSlot b memory (·.EqualsAtom aLocalName) false (fun slotCount _ => slotCount)
    (.atom aLocalName) aValue

/-- The limit is on the number of slots in use. -/
def SetAndTakeAttr (aLocalName : A) (aValue : V) : Option (NsResult × nsAttrAndChildArray A V C) :=
  a.setSlot b memory (·.EqualsAtom aLocalName) false (fun _ i => i) (.atom aLocalName) aValue

/-- `SetAndTakeAttr(nsINodeInfo*)`. -/
def SetAndTakeNodeInfo (aName : nsINodeInfo A) (aValue : V) :
    Option (NsResult × nsAttrAndChildArray A V C) :=
  if aName.mNamespaceID = kNameSpaceID_None then a.SetAndTakeAttr b memory aName.mName aValue
  else a.setSlot b memory (·.Equals aName.mName aName.mNamespaceID) true (fun _ i => i)
    (.ofNodeInfo aName) aValue

/-- `RemoveAttrAt`, past the mapped attributes. -/
def RemoveAttrAt (aPos : ℕ) : Option (V × nsAttrAndChildArray A V C) := do
  let (aValue, impl) ← (← a.mImpl).RemoveAttrAt (aPos - a.MappedAttrCount)
  return (aValue, ⟨impl⟩)

/-- The assertion of `Compact` is that a smaller buffer is never refused. -/
def Compact : Option (nsAttrAndChildArray A V C) := do
  match a.mImpl with
  | none => return a
  | some impl =>
    let attrCount ← impl.NonMappedAttrCount
    let newSize := attrCount * ATTRSIZE + impl.ChildCount
    let impl ← impl.compressSlots
    if newSize = 0 && impl.mMappedAttrs.isNone then return ⟨none⟩
    else if newSize < impl.mBufferSize then
      if memory then return ⟨impl.realloc newSize⟩ else none
    else return ⟨impl⟩

/-! ### Attributes -/

/-- The mapped attributes come first. -/
def AttrAt (aPos : ℕ) : Option V := do
  let impl ← a.mImpl
  if aPos < a.MappedAttrCount then (impl.mMappedAttrs.getD [])[aPos]?.map Prod.snd
  else impl.valueAt (aPos - a.MappedAttrCount)

/-- A null result is `some none`. -/
def GetSafeAttrNameAt (aPos : ℕ) : Option (Option (nsAttrName A)) := do
  if aPos < a.MappedAttrCount then
    return ((← a.mImpl).mMappedAttrs.getD [])[aPos]?.map Prod.fst
  let aPos := aPos - a.MappedAttrCount
  if aPos < a.AttrSlotCount then
    let impl ← a.mImpl
    if ← impl.isNull (aPos * ATTRSIZE) then return none
    else return some (← impl.nameAt aPos)
  else return none

/-- `nsMappedAttributes::IndexOfAttr`. -/
def indexOfMapped (aLocalName : A) (aNamespaceID : ℤ) : Option ℕ :=
  (a.mImpl.elim [] (·.mMappedAttrs.getD [])).findIdx? (·.1.Equals aLocalName aNamespaceID)

def IndexOfAttr (aLocalName : A) (aNamespaceID : ℤ) : Option ℤ :=
  match a.indexOfMapped aLocalName aNamespaceID with
  | some idx => some idx
  | none => do
    let (i, found) ← a.findAttr (·.Equals aLocalName aNamespaceID)
    return if found then (i + a.MappedAttrCount : ℕ) else -1

end nsAttrAndChildArray

/-! ### The index of a child -/

/-- The addresses of arrays. Null is 0. -/
abbrev Address := ℕ

/-- Only indices are stored, and zero at first. -/
structure IndexCacheSlot where
  array : Address := 0
  index : ℤ := 0
  nonneg : 0 ≤ index := by decide

def NUM_INDEX_CACHE_SLOTS : ℕ := 5
def INDEX_CACHE_CHILD_LIMIT : ℤ := 15

abbrev IndexCache := Fin NUM_INDEX_CACHE_SLOTS → IndexCacheSlot

/-- The slot that makes way for a new one. -/
def cacheVictim (c : IndexCache) (aArray : Address) : ℕ :=
  if (c ⟨1, by decide⟩).array = aArray then 1
  else if (c ⟨2, by decide⟩).array = aArray then 2
  else if (c ⟨3, by decide⟩).array = aArray then 3
  else 4

def AddIndexToCache (c : IndexCache) (aArray : Address) (aIndex : ℕ) : IndexCache :=
  let first : Fin NUM_INDEX_CACHE_SLOTS := ⟨0, by decide⟩
  let slot : IndexCacheSlot := ⟨aArray, aIndex, Int.natCast_nonneg aIndex⟩
  if (c first).array ≠ aArray then
    let i := cacheVictim c aArray
    fun j => if j = first then slot else if j.val ≤ i then c ⟨j - 1, by omega⟩ else c j
  else Function.update c first slot

def GetIndexFromCache (c : IndexCache) (aArray : Address) : ℤ :=
  match (List.finRange NUM_INDEX_CACHE_SLOTS).find? fun i => (c i).array = aArray with
  | some i => (c i).index
  | none => -1

namespace Impl

variable (impl : Impl A V C) (aPossibleChild : C) (count : ℤ)

/-- `children[cursor]`. -/
def isChild (cursor : ℤ) : Option Bool :=
  if 0 ≤ cursor then (impl.childAt cursor.toNat).map (decide <| · = aPossibleChild) else none

/-- Where a search stops. -/
inductive Stop
  | found (cursor : ℤ)
  | edge (cursor inc sign : ℤ)

/-- The loop that seeks outward. -/
def seekOutward : ℕ → ℤ → ℤ → ℤ → Option Stop
  | 0, _, _, _ => none
  | k + 1, cursor, inc, sign => do
    if 0 ≤ cursor ∧ cursor < count then
      if ← impl.isChild aPossibleChild cursor then return .found cursor
      else seekOutward k (cursor + inc) (-inc - sign) (-sign)
    else return .edge cursor inc sign

/-- The loop to the end of the list. -/
def seekUp : ℕ → ℤ → Option (Option ℤ)
  | 0, _ => none
  | k + 1, cursor => do
    if cursor < count then
      if ← impl.isChild aPossibleChild cursor then return some cursor
      else seekUp k (cursor + 1)
    else return none

/-- The loop to the beginning of the list. -/
def seekDown : ℕ → ℤ → Option (Option ℤ)
  | 0, _ => none
  | k + 1, cursor => do
    if 0 ≤ cursor then
      if ← impl.isChild aPossibleChild cursor then return some cursor
      else seekDown k (cursor - 1)
    else return none

/-- The search that begins at the cached index. -/
def searchFrom (cursor : ℤ) : Option (Option ℤ) := do
  match ← impl.seekOutward aPossibleChild count (count.toNat + 1) cursor 1 1 with
  | .found cursor => return some cursor
  | .edge cursor inc sign =>
    let cursor := cursor + inc
    if 0 < sign then impl.seekUp aPossibleChild count (count.toNat + 1) cursor
    else impl.seekDown aPossibleChild (count.toNat + 1) cursor

end Impl

/-- `IndexOfChild` of the array at `this`, and the cache after it. -/
def nsAttrAndChildArray.IndexOfChild (a : nsAttrAndChildArray A V C) (this : Address)
    (c : IndexCache) (aPossibleChild : C) : Option (ℤ × IndexCache) := do
  match a.mImpl with
  | none => return (-1, c)
  | some impl =>
    let count : ℤ := a.ChildCount
    if INDEX_CACHE_CHILD_LIMIT ≤ count then
      let cursor := GetIndexFromCache c this
      let cursor := if count ≤ cursor then -1 else cursor
      match ← impl.searchFrom aPossibleChild count cursor with
      | some cursor => return (cursor, AddIndexToCache c this cursor.toNat)
      | none => return (-1, c)
    else
      match ← impl.seekUp aPossibleChild count (count.toNat + 1) 0 with
      | some i => return (i, c)
      | none => return (-1, c)

end Kompozer.Dom.AttrAndChild

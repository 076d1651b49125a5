import Kompozer.Lib.Blocks
import Kompozer.Xpcom
import Mathlib

/-! The array of the attributes and the children of an element (`nsAttrAndChildArray.cpp`). One
buffer holds first the slots of the attributes, of two words each, and then the children. -/

namespace Kompozer.Dom.AttrAndChild

def kNameSpaceID_None : ℤ := 0

/-- `nsINodeInfo`. -/
structure nsINodeInfo (A : Type) where
  mName : A
  mPrefix : Option A
  mNamespaceID : ℤ
deriving DecidableEq

/-- A name without a namespace is an atom. -/
inductive nsAttrName (A : Type)
  | atom (aAtom : A)
  | nodeInfo (aNodeInfo : nsINodeInfo A) (h : aNodeInfo.mNamespaceID ≠ kNameSpaceID_None)
deriving DecidableEq

namespace nsAttrName

variable {A : Type}

def ofNodeInfo (aNodeInfo : nsINodeInfo A) : nsAttrName A :=
  if h : aNodeInfo.mNamespaceID = kNameSpaceID_None then .atom aNodeInfo.mName
  else .nodeInfo aNodeInfo h

def NamespaceID : nsAttrName A → ℤ
  | .atom _ => kNameSpaceID_None
  | .nodeInfo aNodeInfo _ => aNodeInfo.mNamespaceID

def LocalName : nsAttrName A → A
  | .atom aAtom => aAtom
  | .nodeInfo aNodeInfo _ => aNodeInfo.mName

/-- What tells two names apart. -/
def key (name : nsAttrName A) : A × ℤ := (name.LocalName, name.NamespaceID)

@[simp] theorem key_ofNodeInfo (info : nsINodeInfo A) :
    (ofNodeInfo info).key = (info.mName, info.mNamespaceID) := by
  unfold ofNodeInfo
  split_ifs with h
  · simp [key, LocalName, NamespaceID, h]
  · rfl

@[simp] theorem key_atom (a : A) : (atom a).key = (a, kNameSpaceID_None) := rfl

variable [DecidableEq A]

/-- `Equals(nsIAtom*)`. -/
def EqualsAtom (aAtom : A) : nsAttrName A → Bool
  | .atom a => a = aAtom
  | .nodeInfo _ _ => false

def Equals (aLocalName : A) (aNamespaceID : ℤ) (name : nsAttrName A) : Bool :=
  if aNamespaceID = kNameSpaceID_None then name.EqualsAtom aLocalName
  else match name with
    | .atom _ => false
    | .nodeInfo info _ => info.mName = aLocalName && info.mNamespaceID = aNamespaceID

theorem equalsAtom_iff {name : nsAttrName A} {a : A} :
    name.EqualsAtom a = true ↔ name.key = (a, kNameSpaceID_None) := by
  cases name with
  | atom b => simp [EqualsAtom, key, LocalName, NamespaceID]
  | nodeInfo info h => simp [EqualsAtom, key, LocalName, NamespaceID, h]

theorem eq_of_equalsAtom {name : nsAttrName A} {a : A} (h : name.EqualsAtom a = true) :
    name = .atom a := by
  cases name with
  | atom b => exact congrArg _ (of_decide_eq_true h)
  | nodeInfo info hinfo => cases h

theorem equals_iff {name : nsAttrName A} {a : A} {ns : ℤ} :
    name.Equals a ns = true ↔ name.key = (a, ns) := by
  unfold Equals
  split_ifs with hns
  · rw [hns]
    exact equalsAtom_iff
  · cases name with
    | atom b => simp [key, LocalName, NamespaceID, Ne.symm hns]
    | nodeInfo info h => simp [key, LocalName, NamespaceID]

end nsAttrName

/-- One word of the buffer: half a slot, or a child. -/
inductive Word (A V C : Type)
  | junk
  | null
  | name (mName : nsAttrName A)
  | value (mValue : V)
  | child (aChild : C)

/-- The width of a pointer. -/
inductive Build
  | bits32 | bits64
deriving DecidableEq

def ATTRCHILD_ARRAY_GROWSIZE : ℕ := 8
def ATTRCHILD_ARRAY_LINEAR_THRESHOLD : ℕ := 32
def ATTRCHILD_ARRAY_ATTR_SLOTS_BITS : ℕ := 10
def ATTRCHILD_ARRAY_MAX_ATTR_COUNT : ℕ := 2 ^ ATTRCHILD_ARRAY_ATTR_SLOTS_BITS - 1
def ATTRCHILD_ARRAY_ATTR_SLOTS_COUNT_MASK : UInt32 := 1023
def ATTRSIZE : ℕ := 2

namespace Build

def pointerBits : Build → ℕ
  | .bits32 => 32
  | .bits64 => 64

/-- `~PtrBits(0) >> ATTRCHILD_ARRAY_ATTR_SLOTS_BITS`. -/
def ATTRCHILD_ARRAY_MAX_CHILD_COUNT (b : Build) : ℕ :=
  (2 ^ b.pointerBits - 1) / 2 ^ ATTRCHILD_ARRAY_ATTR_SLOTS_BITS

/-- The words of an `Impl` in front of its buffer: two counts of 32 bits and a pointer. -/
def NS_IMPL_EXTRA_SIZE : Build → ℕ
  | .bits32 => 3
  | .bits64 => 2

end Build

variable {A V C : Type} [DecidableEq A] [DecidableEq C]

/-- `Impl`. -/
structure Impl (A V C : Type) where
  mAttrAndChildCount : UInt32
  mBufferSize : ℕ
  mMappedAttrs : Option (List (nsAttrName A × V))
  mBuffer : Block (Word A V C)

/-- `nsAttrAndChildArray`. -/
structure nsAttrAndChildArray (A V C : Type) where
  mImpl : Option (Impl A V C) := none

namespace Impl

variable (impl : Impl A V C)

def ChildCount : ℕ := (impl.mAttrAndChildCount >>> 10).toNat

def AttrSlotCount : ℕ :=
  (impl.mAttrAndChildCount &&& ATTRCHILD_ARRAY_ATTR_SLOTS_COUNT_MASK).toNat

def SetChildCount (aCount : ℕ) : Impl A V C :=
  { impl with mAttrAndChildCount :=
      (impl.mAttrAndChildCount &&& ATTRCHILD_ARRAY_ATTR_SLOTS_COUNT_MASK) |||
        (UInt32.ofNat aCount <<< 10) }

def SetAttrSlotCount (aCount : ℕ) : Impl A V C :=
  { impl with mAttrAndChildCount :=
      (impl.mAttrAndChildCount &&& ~~~ATTRCHILD_ARRAY_ATTR_SLOTS_COUNT_MASK) |||
        UInt32.ofNat aCount }

def SetAttrSlotAndChildCount (aSlotCount aChildCount : ℕ) : Impl A V C :=
  { impl with mAttrAndChildCount :=
      UInt32.ofNat aSlotCount ||| (UInt32.ofNat aChildCount <<< 10) }

/-- `!mBuffer[i]`, where a slot may begin. -/
def isNull (i : ℕ) : Option Bool := do
  match ← impl.mBuffer.get i with
  | .null => some true
  | .name _ => some false
  | _ => none

def nameAt (i : ℕ) : Option (nsAttrName A) := do
  match ← impl.mBuffer.get (i * ATTRSIZE) with
  | .name mName => some mName
  | _ => none

def valueAt (i : ℕ) : Option V := do
  match ← impl.mBuffer.get (i * ATTRSIZE + 1) with
  | .value mValue => some mValue
  | _ => none

/-- `mBuffer[AttrSlotsSize() + aPos]`. -/
def childAt (aPos : ℕ) : Option C := do
  match ← impl.mBuffer.get (impl.AttrSlotCount * ATTRSIZE + aPos) with
  | .child aChild => some aChild
  | _ => none

/-- The loop of `NonMappedAttrCount`. -/
def lastUsed : ℕ → Option ℕ
  | 0 => some 0
  | count + 1 => do
    if ← impl.isNull (count * ATTRSIZE) then lastUsed count else some (count + 1)

def NonMappedAttrCount : Option ℕ := impl.lastUsed impl.AttrSlotCount

def MappedAttrCount : ℕ := (impl.mMappedAttrs.getD []).length

/-- The loops over the slots: where they stop, and whether there is the name there. -/
def findSlot (equals : nsAttrName A → Bool) : ℕ → ℕ → Option (ℕ × Bool)
  | 0, i => some (i, false)
  | k + 1, i => do
    if ← impl.isNull (i * ATTRSIZE) then some (i, false)
    else if equals (← impl.nameAt i) then some (i, true)
    else findSlot equals k (i + 1)

def setBuffer (mBuffer : Block (Word A V C)) : Impl A V C := { impl with mBuffer }

def setName (i : ℕ) (mName : nsAttrName A) : Option (Impl A V C) := do
  some (impl.setBuffer (← impl.mBuffer.set (i * ATTRSIZE) (.name mName)))

def setValue (i : ℕ) (mValue : V) : Option (Impl A V C) := do
  some (impl.setBuffer (← impl.mBuffer.set (i * ATTRSIZE + 1) (.value mValue)))

end Impl

namespace nsAttrAndChildArray

variable (a : nsAttrAndChildArray A V C)

def ChildCount : ℕ := a.mImpl.elim 0 Impl.ChildCount

def AttrSlotCount : ℕ := a.mImpl.elim 0 Impl.AttrSlotCount

def AttrSlotsSize : ℕ := a.AttrSlotCount * ATTRSIZE

def NonMappedAttrCount : Option ℕ := a.mImpl.elim (some 0) Impl.NonMappedAttrCount

def MappedAttrCount : ℕ := a.mImpl.elim 0 Impl.MappedAttrCount

def AttrCount : Option ℕ := do some ((← a.NonMappedAttrCount) + a.MappedAttrCount)

def ChildAt (aPos : ℕ) : Option C := do (← a.mImpl).childAt aPos

def GetSafeChildAt (aPos : ℕ) : Option (Option C) :=
  if aPos < a.ChildCount then (a.ChildAt aPos).map some else some none

end nsAttrAndChildArray

end Kompozer.Dom.AttrAndChild

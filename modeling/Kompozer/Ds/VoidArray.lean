import Kompozer.Lib.Blocks
import Mathlib

/-! Arrays of pointers, some with a first buffer of their own (`nsVoidArray.cpp`). A null pointer is
`0`. Arithmetic that can leave `PRInt32` or `PRUint32` wraps. Every call is told whether there is
memory for a new buffer, and a call that reads or writes outside of the buffer has no result. -/

namespace Kompozer.Ds

variable {α : Type} [Zero α]

/-- The width of a pointer. -/
inductive PointerSize
  | bits32 | bits64
  deriving DecidableEq, Repr

def PointerSize.bytes : PointerSize → ℕ
  | .bits32 => 4
  | .bits64 => 8

abbrev PRInt32 := { x : ℤ // -2 ^ 31 ≤ x ∧ x < 2 ^ 31 }

/-- What `PRInt32` makes of an integer. -/
def int32 (x : ℤ) : ℤ := x.bmod (2 ^ 32)

/-- What `PRUint32` makes of an integer. -/
def uint32 (x : ℤ) : ℤ := x % 2 ^ 32

def kMinGrowArrayBy : ℤ := 8
def kMaxGrowArrayBy : ℤ := 1024
def kAutoBufSize : ℕ := 8

section Sizes
variable (w : PointerSize)

/-- The bits, the count and the first pointer. -/
def sizeofImpl : ℤ := 4 + 4 + w.bytes

def kLinearThreshold : ℤ := 24 * w.bytes

def SIZEOF_IMPL (n : ℤ) : ℤ := sizeofImpl w + w.bytes * (n - 1)

/-- On values of `size_t`. -/
def CAPACITYOF_IMPL (n : ℤ) : ℤ := (n - sizeofImpl w) % 2 ^ (8 * w.bytes) / w.bytes + 1

/-- The pointers for which an allocation of so many bytes, a `PRUint32`, has room. -/
def allocated (bytes : ℤ) : ℕ := ((uint32 bytes).toNat - 8) / w.bytes

end Sizes

/-! ### The object -/

/-- `Impl`. Its `mBits` are the size and whether the buffer has to be freed. -/
structure Impl (α : Type) where
  size : ℤ
  owner : Bool
  mCount : ℤ
  mArray : Block α

inductive Place (α : Type)
  | null
  | heap (newImpl : Impl α)
  | autoBuf

def Place.isAutoBuf : Place α → Bool
  | .autoBuf => true
  | _ => false

/-- `nsVoidArray`, and `nsAutoVoidArray` when it is one; `mAutoBuf` is the latter's. -/
structure nsVoidArray (α : Type) where
  isAuto : Bool
  mImpl : Place α
  mAutoBuf : Impl α

/-- What `SetArray` makes of a buffer. -/
def setArray (newImpl : Block α) (aSize aCount : ℤ) (owner : Bool) : Impl α :=
  ⟨aSize % 2 ^ 31, owner, aCount, newImpl⟩

/-- A write at a `PRInt32`. -/
def setAt (b : Block α) (i : ℤ) (a : α) : Option (Block α) :=
  if 0 ≤ i then b.set i.toNat a else none

/-- A read at a `PRInt32`. -/
def getAt (b : Block α) (i : ℤ) : Option α := if 0 ≤ i then b.get i.toNat else none

/-- `memmove` with `PRInt32` arguments. -/
def moveAt (b : Block α) (dst src n : ℤ) : Option (Block α) :=
  if 0 ≤ dst ∧ 0 ≤ src ∧ 0 ≤ n then b.move dst.toNat src.toNat n.toNat else none

/-- `memcpy` of the first pointers, with a `PRInt32` count. -/
def copyAt (b o : Block α) (n : ℤ) : Option (Block α) := if 0 ≤ n then b.copy o n.toNat else none

/-- `memset` to null, with `PRInt32` arguments. -/
def clearAt (b : Block α) (dst n : ℤ) : Option (Block α) :=
  if 0 ≤ dst ∧ 0 ≤ n then b.fill dst.toNat n.toNat 0 else none

namespace nsVoidArray

def new (isAuto : Bool) : nsVoidArray α where
  isAuto := isAuto
  mImpl := if isAuto then .autoBuf else .null
  mAutoBuf := setArray ⟨kAutoBufSize, fun _ => 0⟩ kAutoBufSize 0 false

def impl (a : nsVoidArray α) : Option (Impl α) :=
  match a.mImpl with
  | .null => none
  | .heap m => some m
  | .autoBuf => some a.mAutoBuf

/-- A write through `mImpl`. -/
def withImpl (a : nsVoidArray α) (m : Impl α) : nsVoidArray α :=
  match a.mImpl with
  | .null => a
  | .heap _ => { a with mImpl := .heap m }
  | .autoBuf => { a with mAutoBuf := m }

def Count (a : nsVoidArray α) : ℤ := a.impl.elim 0 Impl.mCount

def GetArraySize (a : nsVoidArray α) : ℤ := a.impl.elim 0 Impl.size

def IsArrayOwner (a : nsVoidArray α) : Bool := a.impl.elim false Impl.owner

def setCount (a : nsVoidArray α) (n : ℤ) : nsVoidArray α :=
  match a.impl with
  | none => a
  | some m => a.withImpl { m with mCount := n }

def memmove (a : nsVoidArray α) (dst src n : ℤ) : Option (nsVoidArray α) := do
  let m ← a.impl
  let cells ← moveAt m.mArray dst src n
  some (a.withImpl { m with mArray := cells })

def setElement (a : nsVoidArray α) (i : ℤ) (aElement : α) : Option (nsVoidArray α) := do
  let m ← a.impl
  let cells ← setAt m.mArray i aElement
  some (a.withImpl { m with mArray := cells })

/-- The elements. -/
def contents (a : nsVoidArray α) : List α :=
  match a.impl with
  | none => []
  | some m => m.mArray.list m.mCount.toNat

/-! ### Sizes -/

variable (w : PointerSize)

/-- `nsVoidArray::SizeTo`. -/
def SizeTo (a : nsVoidArray α) (memory : Bool) (aSize : ℤ) : Option (nsVoidArray α × Bool) :=
  if aSize = a.GetArraySize then some (a, true)
  else if aSize ≤ 0 then
    if a.IsArrayOwner then some ({ a with mImpl := .null }, true) else some (a.setCount 0, true)
  else
    let cells := allocated w (SIZEOF_IMPL w aSize)
    match a.impl with
    | none =>
      if memory then
        some ({ a with mImpl := .heap (setArray ⟨cells, fun _ => 0⟩ aSize 0 true) }, true)
      else some (a, false)
    | some m =>
      if m.owner then
        if aSize < m.mCount then some (a, true)
        else if memory then
          some ({ a with mImpl := .heap (setArray (m.mArray.resize cells 0) aSize m.mCount true) },
            true)
        else some (a, false)
      else if memory then do
        let newImpl ← copyAt ⟨cells, fun _ => 0⟩ m.mArray m.mCount
        some ({ a with mImpl := .heap (setArray newImpl aSize m.mCount true) }, true)
      else some (a, false)

/-- Back to the buffer of the object, when there is no other. -/
def resetToAutoBuf (a : nsVoidArray α) : nsVoidArray α :=
  if a.impl.isNone then
    { a with mImpl := .autoBuf, mAutoBuf := setArray a.mAutoBuf.mArray kAutoBufSize 0 false }
  else a

/-- The virtual `SizeTo`: `nsAutoVoidArray::SizeTo` calls the one of `nsVoidArray`. -/
def virtualSizeTo (a : nsVoidArray α) (memory : Bool) (aSize : ℤ) :
    Option (nsVoidArray α × Bool) :=
  if a.isAuto then do
    let (a, ok) ← a.SizeTo w memory aSize
    some (if ok then a.resetToAutoBuf else a, ok)
  else a.SizeTo w memory aSize

/-- The capacity that `GrowArrayBy` asks for. -/
def newCapacity (size aGrowBy : ℤ) : ℤ :=
  let aGrowBy := if aGrowBy < kMinGrowArrayBy then kMinGrowArrayBy else aGrowBy
  let newCapacity := uint32 (size + aGrowBy)
  let newSize := uint32 (SIZEOF_IMPL w newCapacity)
  if kLinearThreshold w ≤ newSize then
    if kMaxGrowArrayBy ≤ size then uint32 (size + max kMaxGrowArrayBy aGrowBy)
    else
      let newSize := uint32 (2 ^ Nat.clog 2 newSize.toNat)
      uint32 (CAPACITYOF_IMPL w newSize)
  else newCapacity

def GrowArrayBy (a : nsVoidArray α) (memory : Bool) (aGrowBy : ℤ) :
    Option (nsVoidArray α × Bool) :=
  a.virtualSizeTo w memory (int32 (newCapacity w a.GetArraySize aGrowBy))

/-- The virtual `Compact`. -/
def Compact (a : nsVoidArray α) (memory : Bool) : Option (nsVoidArray α) := do
  let (b, _) ←
    (if a.Count < a.GetArraySize then a.virtualSizeTo w memory a.Count else some (a, true))
  some (if b.isAuto then b.resetToAutoBuf else b)

/-- The virtual `Clear`. -/
def Clear (a : nsVoidArray α) (memory : Bool) : Option (nsVoidArray α) :=
  let a := a.setCount 0
  if a.isAuto ∧ a.IsArrayOwner ∧ 4 * kAutoBufSize < a.GetArraySize then
    (a.virtualSizeTo w memory 0).map Prod.fst
  else some a

/-! ### Assignments -/

def memcpy (a other : nsVoidArray α) (n : ℤ) : Option (nsVoidArray α) := do
  let m ← a.impl
  let o ← other.impl
  let cells ← copyAt m.mArray o.mArray n
  some (a.withImpl { m with mArray := cells, mCount := n })

/-- `nsVoidArray::operator=`. -/
def assign (a : nsVoidArray α) (memory : Bool) (other : nsVoidArray α) :
    Option (nsVoidArray α) :=
  let otherCount := other.Count
  let maxCount := a.GetArraySize
  if otherCount ≠ 0 then
    if maxCount < otherCount then do
      let (b, ok) ← a.GrowArrayBy w memory (otherCount - maxCount)
      if ok then b.memcpy other otherCount else some b
    else do
      let b ← a.memcpy other otherCount
      if int32 (otherCount * 2) < maxCount ∧ 100 < maxCount then b.Compact w memory else some b
  else some { a with mImpl := .null }

/-- The `operator=` that the compiler makes for `nsAutoVoidArray`. Without `other` the array is
assigned to itself. -/
def assignAuto (a : nsVoidArray α) (memory : Bool) : Option (nsVoidArray α) → Option (nsVoidArray α)
  | none => a.assign w memory a
  | some other => do
    let b ← a.assign w memory other
    some { b with mAutoBuf := other.mAutoBuf }

/-! ### Elements -/

def InsertElementAt (a : nsVoidArray α) (memory : Bool) (aElement : α) (aIndex : ℤ) :
    Option (nsVoidArray α × Bool) :=
  let oldCount := a.Count
  if uint32 oldCount < uint32 aIndex then some (a, false)
  else do
    let (a, ok) ← (if a.GetArraySize ≤ oldCount then a.GrowArrayBy w memory 1 else some (a, true))
    if ok then
      let slide := oldCount - aIndex
      let a ← (if slide ≠ 0 then a.memmove (aIndex + 1) aIndex slide else some a)
      let a ← a.setElement aIndex aElement
      some (a.setCount (a.Count + 1), true)
    else some (a, false)

/-- The loop of `InsertElementsAt` from the element `i` of `other` on. Without `other` the array
reads itself. -/
def copyElements (other : Option (nsVoidArray α)) (a : nsVoidArray α) (aIndex : ℤ) (i : ℕ) :
    ℕ → Option (nsVoidArray α)
  | 0 => some a
  | n + 1 => do
    let o ← (other.getD a).impl
    let x ← o.mArray.get i
    let a ← a.setElement aIndex x
    copyElements other (a.setCount (a.Count + 1)) (aIndex + 1) (i + 1) n

def InsertElementsAt (a : nsVoidArray α) (memory : Bool) (other : Option (nsVoidArray α))
    (aIndex : ℤ) : Option (nsVoidArray α × Bool) :=
  let oldCount := a.Count
  let otherCount := (other.getD a).Count
  if uint32 oldCount < uint32 aIndex then some (a, false)
  else do
    let (a, ok) ←
      (if a.GetArraySize < int32 (oldCount + otherCount) then a.GrowArrayBy w memory otherCount
       else some (a, true))
    if ok then
      let slide := oldCount - aIndex
      let a ← (if slide ≠ 0 then a.memmove (aIndex + otherCount) aIndex slide else some a)
      let a ← copyElements other a aIndex 0 otherCount.toNat
      some (a, true)
    else some (a, false)

def ReplaceElementAt (a : nsVoidArray α) (memory : Bool) (aElement : α) (aIndex : ℤ) :
    Option (nsVoidArray α × Bool) :=
  if aIndex < 0 then some (a, false)
  else do
    let (a, ok) ←
      (if uint32 a.GetArraySize ≤ uint32 aIndex then
        a.GrowArrayBy w memory (int32 (int32 (aIndex + 1) - a.Count))
       else some (a, true))
    if ok then
      let a ← a.setElement aIndex aElement
      let m ← a.impl
      if m.mCount ≤ aIndex then
        let cells ←
          (if m.mCount < aIndex then clearAt m.mArray m.mCount (aIndex - m.mCount)
           else some m.mArray)
        some (a.withImpl { m with mArray := cells, mCount := int32 (aIndex + 1) }, true)
      else some (a, true)
    else some (a, false)

def MoveElement (a : nsVoidArray α) (aFrom aTo : ℤ) : Option (nsVoidArray α × Bool) :=
  if aTo = aFrom then some (a, true)
  else if a.Count ≤ aTo ∨ a.Count ≤ aFrom then some (a, false)
  else do
    let m ← a.impl
    let tempElement ← getAt m.mArray aFrom
    let a ←
      (if aTo < aFrom then a.memmove (aTo + 1) aTo (aFrom - aTo)
       else a.memmove aFrom (aFrom + 1) (aTo - aFrom))
    let a ← a.setElement aTo tempElement
    some (a, true)

def RemoveElementsAt (a : nsVoidArray α) (aIndex aCount : ℤ) : Option (nsVoidArray α × Bool) :=
  let oldCount := a.Count
  if uint32 oldCount ≤ uint32 aIndex then some (a, false)
  else do
    let aCount := if oldCount < int32 (aCount + aIndex) then oldCount - aIndex else aCount
    let a ←
      (if aIndex < int32 (oldCount - aCount) then
        a.memmove aIndex (aIndex + aCount) (int32 (oldCount - (aIndex + aCount)))
       else some a)
    some (a.setCount (int32 (oldCount - aCount)), true)

end nsVoidArray

/-! ### Many arrays -/

variable {ι : Type} [DecidableEq ι] (w : PointerSize)

/-- A call on one of the arrays, with another or the same array as the argument. -/
inductive VoidOp (ι α : Type)
  | InsertElementAt (aElement : α) (aIndex : PRInt32)
  | InsertElementsAt (other : ι) (aIndex : PRInt32)
  | ReplaceElementAt (aElement : α) (aIndex : PRInt32)
  | MoveElement (aFrom aTo : PRInt32)
  | RemoveElementsAt (aIndex aCount : PRInt32)
  | SizeTo (aSize : PRInt32)
  | Compact
  | Clear
  | assign (other : ι)
  | assignAuto (other : ι)
  deriving DecidableEq

/-- The other array, if it is another one. -/
def another (s : ι → nsVoidArray α) (i other : ι) : Option (nsVoidArray α) :=
  if other = i then none else some (s other)

/-- What a call makes of its array, and its answer if it has one. -/
def callVoid (s : ι → nsVoidArray α) (memory : Bool) (i : ι) :
    VoidOp ι α → Option (nsVoidArray α × Option Bool)
  | .InsertElementAt x k => ((s i).InsertElementAt w memory x k).map (Prod.map id some)
  | .InsertElementsAt j k =>
    ((s i).InsertElementsAt w memory (another s i j) k).map (Prod.map id some)
  | .ReplaceElementAt x k => ((s i).ReplaceElementAt w memory x k).map (Prod.map id some)
  | .MoveElement k n => ((s i).MoveElement k n).map (Prod.map id some)
  | .RemoveElementsAt k n => ((s i).RemoveElementsAt k n).map (Prod.map id some)
  | .SizeTo n => ((s i).virtualSizeTo w memory n).map (Prod.map id some)
  | .Compact => ((s i).Compact w memory).map (·, none)
  | .Clear => ((s i).Clear w memory).map (·, none)
  | .assign j => ((s i).assign w memory (s j)).map (·, none)
  | .assignAuto j => ((s i).assignAuto w memory (another s i j)).map (·, none)

/-- The calls one after the other, each with the array and whether there is memory. -/
def runVoid (s : ι → nsVoidArray α) :
    List (ι × VoidOp ι α × Bool) → Option ((ι → nsVoidArray α) × List (Option Bool))
  | [] => some (s, [])
  | (i, op, memory) :: ops => do
    let (a, answer) ← callVoid w s memory i op
    let (s, answers) ← runVoid (Function.update s i a) ops
    some (s, answer :: answers)

end Kompozer.Ds

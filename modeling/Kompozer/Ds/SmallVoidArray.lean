import Kompozer.Ds.VoidArrayRun

/-! Arrays of pointers in one word (`nsSmallVoidArray` of `nsVoidArray.cpp`). Pointers are addresses
here. There is memory for every vector, and a call that takes a pointer with its low bit set for a
vector has no result. `MoveElement` is declared but has no body. -/

namespace Kompozer.Ds

/-- A pointer that is not null and has its low bit clear. -/
abbrev Pointer := { p : ℕ // p ≠ 0 ∧ p % 2 = 0 }

namespace nsVoidArray

variable (w : PointerSize)

def AppendElement (a : nsVoidArray ℕ) (memory : Bool) (aElement : ℕ) :
    Option (nsVoidArray ℕ × Bool) :=
  a.InsertElementAt w memory aElement a.Count

def RemoveElementAt (a : nsVoidArray ℕ) (aIndex : ℤ) : Option (nsVoidArray ℕ × Bool) :=
  a.RemoveElementsAt aIndex 1

def IndexOf (a : nsVoidArray ℕ) (aPossibleElement : ℕ) : ℤ :=
  (a.contents.idxOf? aPossibleElement).elim (-1) fun i => i

def RemoveElement (a : nsVoidArray ℕ) (aElement : ℕ) : Option (nsVoidArray ℕ × Bool) :=
  let theIndex := a.IndexOf aElement
  if theIndex ≠ -1 then a.RemoveElementAt theIndex else some (a, false)

def ElementAt (a : nsVoidArray ℕ) (aIndex : ℕ) : ℕ := a.contents.getD aIndex 0

end nsVoidArray

/-! ### The object -/

/-- `nsSmallVoidArray`, which is its `mChildren`: null, a pointer with its low bit set, or a pointer
to a vector. -/
inductive nsSmallVoidArray
  | null
  | word (bits : ℕ)
  | vector (v : nsVoidArray ℕ)

namespace nsSmallVoidArray

def HasSingleChild : nsSmallVoidArray → Bool
  | word bits => bits % 2 = 1
  | _ => false

/-- For an array that has no vector. -/
def GetSingleChild : nsSmallVoidArray → ℕ
  | word bits => bits - bits % 2
  | _ => 0

def SetSingleChild (aChild : ℕ) : nsSmallVoidArray := if aChild ≠ 0 then word (aChild ||| 1) else null

def Count : nsSmallVoidArray → ℤ
  | null => 0
  | word _ => 1
  | vector v => v.Count

/-- The elements. -/
def contents : nsSmallVoidArray → List ℕ
  | null => []
  | word bits => [(word bits).GetSingleChild]
  | vector v => v.contents

variable (w : PointerSize)

def SwitchToVector (a : nsSmallVoidArray) : Option (nsVoidArray ℕ) :=
  let child := a.GetSingleChild
  let vector := nsVoidArray.new true
  if child ≠ 0 then (vector.AppendElement w true child).map Prod.fst else some vector

/-- What a call on the vector makes of the array. -/
def onVector (call : Option (nsVoidArray ℕ × Bool)) : Option (nsSmallVoidArray × Bool) :=
  call.map (Prod.map vector id)

def InsertElementAt (a : nsSmallVoidArray) (aElement : ℕ) (aIndex : ℤ) :
    Option (nsSmallVoidArray × Bool) :=
  match a with
  | null => if 0 = aIndex then some (SetSingleChild aElement, true) else some (null, false)
  | word _ => do
    let v ← a.SwitchToVector w
    onVector (v.InsertElementAt w true aElement aIndex)
  | vector v => onVector (v.InsertElementAt w true aElement aIndex)

def InsertElementsAt (a : nsSmallVoidArray) (other : nsVoidArray ℕ) (aIndex : ℤ) :
    Option (nsSmallVoidArray × Bool) :=
  let count := other.Count
  if count = 0 then some (a, true)
  else match a with
    | vector v => onVector (v.InsertElementsAt w true (some other) aIndex)
    | _ =>
      if a.HasSingleChild = true ∨ 1 < count ∨ 0 < aIndex then do
        let v ← a.SwitchToVector w
        onVector (v.InsertElementsAt w true (some other) aIndex)
      else some (SetSingleChild (other.ElementAt 0), true)

/-- A single child is taken for a vector, if the place is not its own. -/
def ReplaceElementAt (a : nsSmallVoidArray) (aElement : ℕ) (aIndex : ℤ) :
    Option (nsSmallVoidArray × Bool) :=
  match a with
  | null =>
    if aIndex = 0 then some (SetSingleChild aElement, true)
    else do
      let v ← a.SwitchToVector w
      onVector (v.ReplaceElementAt w true aElement aIndex)
  | word _ => if aIndex = 0 then some (SetSingleChild aElement, true) else none
  | vector v => onVector (v.ReplaceElementAt w true aElement aIndex)

def AppendElement (a : nsSmallVoidArray) (aElement : ℕ) : Option (nsSmallVoidArray × Bool) :=
  match a with
  | null => some (SetSingleChild aElement, true)
  | word _ => do
    let v ← a.SwitchToVector w
    onVector (v.AppendElement w true aElement)
  | vector v => onVector (v.AppendElement w true aElement)

def RemoveElement (a : nsSmallVoidArray) (aElement : ℕ) : Option (nsSmallVoidArray × Bool) :=
  match a with
  | null => some (null, false)
  | word _ => if aElement = a.GetSingleChild then some (null, true) else some (a, false)
  | vector v => onVector (v.RemoveElement aElement)

def RemoveElementAt (a : nsSmallVoidArray) (aIndex : ℤ) : Option (nsSmallVoidArray × Bool) :=
  match a with
  | null => some (null, false)
  | word _ => if 0 = aIndex then some (null, true) else some (a, false)
  | vector v => onVector (v.RemoveElementAt aIndex)

def RemoveElementsAt (a : nsSmallVoidArray) (aIndex aCount : ℤ) :
    Option (nsSmallVoidArray × Bool) :=
  if aCount = 0 then some (a, true)
  else match a with
    | null => some (null, true)
    | word _ => some (if aIndex = 0 then null else a, true)
    | vector v => onVector (v.RemoveElementsAt aIndex aCount)

def Clear : nsSmallVoidArray → Option nsSmallVoidArray
  | vector v => (v.Clear w true).map vector
  | _ => some null

/-- A vector that is asked to be no larger than one element is deleted. -/
def SizeTo (a : nsSmallVoidArray) (aMin : ℤ) : Option (nsSmallVoidArray × Bool) :=
  match a with
  | vector v =>
    if aMin ≤ 1 then some (SetSingleChild (if v.Count = 1 then v.ElementAt 0 else 0), true)
    else onVector (v.virtualSizeTo w true aMin)
  | _ =>
    if aMin ≤ 1 then some (a, true)
    else do
      let v ← a.SwitchToVector w
      onVector (v.virtualSizeTo w true aMin)

def Compact : nsSmallVoidArray → Option nsSmallVoidArray
  | vector v => (v.Compact w true).map vector
  | a => some a

/-- `operator=`, with what it leaves of both arrays: the other one gets a vector, too. -/
def assign : nsSmallVoidArray → nsSmallVoidArray → Option (nsSmallVoidArray × nsSmallVoidArray)
  | vector ours, vector theirs => (ours.assign w true theirs).map (vector ·, vector theirs)
  | vector ours, other => do
    let theirs ← other.SwitchToVector w
    let ours ← ours.assign w true theirs
    some (vector ours, vector theirs)
  | a, vector theirs => do
    let ours ← a.SwitchToVector w
    let ours ← ours.assign w true theirs
    some (vector ours, vector theirs)
  | _, other => some (SetSingleChild other.GetSingleChild, other)

end nsSmallVoidArray

/-! ### Calls on both kinds of arrays -/

/-- An array of pointers that a call is given. -/
structure Given (w : PointerSize) where
  array : nsVoidArray ℕ
  elements : List Pointer
  holds : Holds w array (elements.map Subtype.val)

inductive SmallOp (w : PointerSize) (ι : Type)
  | InsertElementAt (aElement : Pointer) (aIndex : PRInt32)
  | InsertElementsAt (other : Given w) (aIndex : PRInt32)
  | ReplaceElementAt (aElement : Pointer) (aIndex : PRInt32)
  | AppendElement (aElement : Pointer)
  | RemoveElement (aElement : Pointer)
  | RemoveElementAt (aIndex : PRInt32)
  | RemoveElementsAt (aIndex aCount : PRInt32)
  | SizeTo (aMin : PRInt32)
  | Compact
  | Clear
  | assign (other : ι)

variable {ι : Type} [DecidableEq ι] {w : PointerSize}

/-- What a call makes of an array, among others that it may be assigned from. -/
def onVoid (others : ι → nsVoidArray ℕ) (a : nsVoidArray ℕ) :
    SmallOp w ι → Option (nsVoidArray ℕ × Option Bool)
  | .InsertElementAt x k => (a.InsertElementAt w true x.1 k.1).map (Prod.map id some)
  | .InsertElementsAt o k => (a.InsertElementsAt w true (some o.array) k.1).map (Prod.map id some)
  | .ReplaceElementAt x k => (a.ReplaceElementAt w true x.1 k.1).map (Prod.map id some)
  | .AppendElement x => (a.AppendElement w true x.1).map (Prod.map id some)
  | .RemoveElement x => (a.RemoveElement x.1).map (Prod.map id some)
  | .RemoveElementAt k => (a.RemoveElementAt k.1).map (Prod.map id some)
  | .RemoveElementsAt k n => (a.RemoveElementsAt k.1 n.1).map (Prod.map id some)
  | .SizeTo n => (a.virtualSizeTo w true n.1).map (Prod.map id some)
  | .Compact => (a.Compact w true).map (·, none)
  | .Clear => (a.Clear w true).map (·, none)
  | .assign j => (a.assign w true (others j)).map (·, none)

/-- The calls on arrays of the common kind. -/
def runOnVoid (s : ι → nsVoidArray ℕ) :
    List (ι × SmallOp w ι) → Option ((ι → nsVoidArray ℕ) × List (Option Bool))
  | [] => some (s, [])
  | (i, op) :: ops => do
    let (a, answer) ← onVoid s (s i) op
    let (s, answers) ← runOnVoid (Function.update s i a) ops
    some (s, answer :: answers)

/-- A call on a small array that changes no other. -/
def onSmall (t : ι → nsSmallVoidArray) (i : ι) (call : Option (nsSmallVoidArray × Bool)) :
    Option ((ι → nsSmallVoidArray) × Option Bool) :=
  call.map fun c => (Function.update t i c.1, some c.2)

def callSmall (t : ι → nsSmallVoidArray) (i : ι) :
    SmallOp w ι → Option ((ι → nsSmallVoidArray) × Option Bool)
  | .InsertElementAt x k => onSmall t i ((t i).InsertElementAt w x.1 k.1)
  | .InsertElementsAt o k => onSmall t i ((t i).InsertElementsAt w o.array k.1)
  | .ReplaceElementAt x k => onSmall t i ((t i).ReplaceElementAt w x.1 k.1)
  | .AppendElement x => onSmall t i ((t i).AppendElement w x.1)
  | .RemoveElement x => onSmall t i ((t i).RemoveElement x.1)
  | .RemoveElementAt k => onSmall t i ((t i).RemoveElementAt k.1)
  | .RemoveElementsAt k n => onSmall t i ((t i).RemoveElementsAt k.1 n.1)
  | .SizeTo n => onSmall t i ((t i).SizeTo w n.1)
  | .Compact => ((t i).Compact w).map fun a => (Function.update t i a, none)
  | .Clear => ((t i).Clear w).map fun a => (Function.update t i a, none)
  | .assign j => ((t i).assign w (t j)).map fun c =>
    (Function.update (Function.update t j c.2) i c.1, none)

/-- The calls on small arrays. -/
def runSmall (t : ι → nsSmallVoidArray) :
    List (ι × SmallOp w ι) → Option ((ι → nsSmallVoidArray) × List (Option Bool))
  | [] => some (t, [])
  | (i, op) :: ops => do
    let (t, answer) ← callSmall t i op
    let (t, answers) ← runSmall t ops
    some (t, answer :: answers)

end Kompozer.Ds

import Kompozer.Lib.Rings
import Mathlib.Data.List.GetD
import Mathlib.Data.List.Basic
import Mathlib.Tactic.Ring
import Mathlib.Tactic.SplitIfs

/-! Double-ended queues of pointers (`nsDeque.cpp`) and the lists that they are for. A null pointer
is `0`. What a new buffer holds before it is written is `0` here. -/

namespace Kompozer.Ds

variable {α : Type} [Zero α]

/-- `nsDeque`. Whether it has a deallocator matters to `Erase` only. -/
structure nsDeque (α : Type) where
  mSize : ℕ
  mCapacity : ℕ
  mOrigin : ℕ
  mDeallocator : Bool
  mData : List α
  deriving DecidableEq, Repr

/-- `modulus`. -/
def modulus (x : ℤ) (y : ℕ) : ℕ := if x < 0 then ((x + y).tmod y).toNat else (x.tmod y).toNat

namespace nsDeque

/-- The constructor. The first buffer is a part of the object. -/
def new (aDeallocator : Bool) : nsDeque α := ⟨0, 8, 0, aDeallocator, List.replicate 8 0⟩

/-- A read of the buffer. -/
def cell (d : nsDeque α) (i : ℕ) : α := d.mData.getD i 0

/-- `ObjectAt`. -/
def ObjectAt (d : nsDeque α) (aIndex : ℤ) : α :=
  if 0 ≤ aIndex ∧ aIndex < d.mSize then d.cell (modulus (d.mOrigin + aIndex) d.mCapacity) else 0

/-- `Empty`. -/
def Empty (d : nsDeque α) : nsDeque α :=
  { d with
    mData := if d.mSize ≠ 0 then List.replicate d.mCapacity 0 else d.mData
    mSize := 0
    mOrigin := 0 }

/-- `Erase`, with the pointers that the deallocator gets. -/
def Erase (d : nsDeque α) : nsDeque α × List α :=
  (d.Empty, if d.mDeallocator ∧ d.mSize ≠ 0 then (List.range d.mSize).map fun i : ℕ => d.ObjectAt i else [])

/-- `GrowCapacity`; `temp` says whether there is memory for the new buffer. The new size is a
`PRInt32`. -/
def GrowCapacity (d : nsDeque α) (temp : Bool) : nsDeque α :=
  let theNewSize := (Int32.ofNat (4 * d.mCapacity)).toInt
  if theNewSize ≤ d.mCapacity then d
  else if temp = false then d
  else { d with
    mCapacity := theNewSize.toNat
    mOrigin := 0
    mData := d.mData.drop d.mOrigin ++ d.mData.take d.mOrigin ++
      List.replicate (theNewSize.toNat - d.mCapacity) 0 }

/-- A write into the buffer. One that is not in the buffer is lost. -/
def write (d : nsDeque α) (i : ℕ) (a : α) : nsDeque α := { d with mData := d.mData.set i a }

/-- `Push`. -/
def Push (d : nsDeque α) (temp : Bool) (aItem : α) : nsDeque α :=
  let d := if d.mSize = d.mCapacity then d.GrowCapacity temp else d
  let d := d.write (modulus (d.mOrigin + d.mSize) d.mCapacity) aItem
  { d with mSize := d.mSize + 1 }

/-- `PushFront`. -/
def PushFront (d : nsDeque α) (temp : Bool) (aItem : α) : nsDeque α :=
  let d := { d with mOrigin := modulus ((d.mOrigin : ℤ) - 1) d.mCapacity }
  let d :=
    if d.mSize = d.mCapacity then
      let d := d.GrowCapacity temp
      d.write d.mSize (d.cell d.mOrigin)
    else d
  let d := d.write d.mOrigin aItem
  { d with mSize := d.mSize + 1 }

/-- `Pop`. -/
def Pop (d : nsDeque α) : nsDeque α × α :=
  if 0 < d.mSize then
    let offset := modulus ((d.mSize : ℤ) - 1 + d.mOrigin) d.mCapacity
    let d' := { d.write offset 0 with mSize := d.mSize - 1 }
    ({ d' with mOrigin := if d'.mSize = 0 then 0 else d'.mOrigin }, d.cell offset)
  else (d, 0)

/-- `PopFront`. -/
def PopFront (d : nsDeque α) : nsDeque α × α :=
  if 0 < d.mSize then
    let d' := { d.write d.mOrigin 0 with mOrigin := d.mOrigin + 1, mSize := d.mSize - 1 }
    ({ d' with mOrigin := if d'.mCapacity = d'.mOrigin ∨ d'.mSize = 0 then 0 else d'.mOrigin },
      d.cell d.mOrigin)
  else (d, 0)

/-- `Peek`. -/
def Peek (d : nsDeque α) : α :=
  if 0 < d.mSize then d.cell (modulus ((d.mSize : ℤ) - 1 + d.mOrigin) d.mCapacity) else 0

/-- `PeekFront`. -/
def PeekFront (d : nsDeque α) : α := if 0 < d.mSize then d.cell d.mOrigin else 0

end nsDeque

/-! ### Runs -/

inductive Op (α : Type)
  | Push (aItem : α)
  | PushFront (aItem : α)
  | Pop
  | PopFront
  | Peek
  | PeekFront
  | ObjectAt (aIndex : ℤ)
  | Empty
  | Erase
  deriving DecidableEq, Repr

/-- What an operation answers: the deque itself, a pointer, or the pointers that were erased. -/
inductive Answer (α : Type)
  | self
  | pointer (a : α)
  | erased (l : List α)
  deriving DecidableEq, Repr

/-- One operation, with memory for a new buffer or without. -/
def nsDeque.step (d : nsDeque α) (temp : Bool) : Op α → nsDeque α × Answer α
  | .Push a => (d.Push temp a, .self)
  | .PushFront a => (d.PushFront temp a, .self)
  | .Pop => (d.Pop.1, .pointer d.Pop.2)
  | .PopFront => (d.PopFront.1, .pointer d.PopFront.2)
  | .Peek => (d, .pointer d.Peek)
  | .PeekFront => (d, .pointer d.PeekFront)
  | .ObjectAt i => (d, .pointer (d.ObjectAt i))
  | .Empty => (d.Empty, .self)
  | .Erase => (d.Erase.1, .erased d.Erase.2)

def nsDeque.run (d : nsDeque α) : List (Op α × Bool) → nsDeque α × List (Answer α)
  | [] => (d, [])
  | (op, temp) :: ops =>
    (((d.step temp op).1.run ops).1, (d.step temp op).2 :: ((d.step temp op).1.run ops).2)

/-- A push on a full deque comes with memory for a buffer whose size fits into a `PRInt32`. -/
def nsDeque.Grows (d : nsDeque α) (temp : Bool) : Op α → Prop
  | .Push _ | .PushFront _ => d.mSize = d.mCapacity → temp = true ∧ 4 * d.mCapacity < 2 ^ 31
  | _ => True

instance (d : nsDeque α) (temp : Bool) : (op : Op α) → Decidable (d.Grows temp op)
  | .Push _ | .PushFront _ =>
    inferInstanceAs (Decidable (d.mSize = d.mCapacity → temp = true ∧ 4 * d.mCapacity < 2 ^ 31))
  | .Pop | .PopFront | .Peek | .PeekFront | .ObjectAt _ | .Empty | .Erase => .isTrue trivial

/-- The deque grows whenever it has to. -/
def nsDeque.AllGrow (d : nsDeque α) : List (Op α × Bool) → Prop
  | [] => True
  | (op, temp) :: ops => d.Grows temp op ∧ (d.step temp op).1.AllGrow ops

instance nsDeque.decidableAllGrow : (ops : List (Op α × Bool)) → (d : nsDeque α) →
    Decidable (d.AllGrow ops)
  | [], _ => .isTrue trivial
  | (op, temp) :: ops, d =>
    have := decidableAllGrow ops (d.step temp op).1
    inferInstanceAs (Decidable (d.Grows temp op ∧ (d.step temp op).1.AllGrow ops))

/-- The elements that `ObjectAt` gives. -/
def nsDeque.objects (d : nsDeque α) : List α := (List.range d.mSize).map fun i : ℕ => d.ObjectAt i

/-! ### Lists -/

/-- An operation on a list. A place that the list does not have holds a null pointer. -/
def listStep (dealloc : Bool) (l : List α) : Op α → List α × Answer α
  | .Push a => (l ++ [a], .self)
  | .PushFront a => (a :: l, .self)
  | .Pop => (l.dropLast, .pointer (l.getLast?.getD 0))
  | .PopFront => (l.tail, .pointer (l.head?.getD 0))
  | .Peek => (l, .pointer (l.getLast?.getD 0))
  | .PeekFront => (l, .pointer (l.head?.getD 0))
  | .ObjectAt i => (l, .pointer (if 0 ≤ i then l.getD i.toNat 0 else 0))
  | .Empty => ([], .self)
  | .Erase => ([], .erased (if dealloc then l else []))

def listRun (dealloc : Bool) (l : List α) : List (Op α) → List α × List (Answer α)
  | [] => (l, [])
  | op :: ops => ((listRun dealloc (listStep dealloc l op).1 ops).1,
      (listStep dealloc l op).2 :: (listRun dealloc (listStep dealloc l op).1 ops).2)

end Kompozer.Ds

/-! Every operation of a deque does what it does to a list, as long as the deque grows when it has
to. A full deque that cannot grow loses its first element. -/

namespace Kompozer.Ds

variable {α : Type} [Zero α]

/-! ### The places -/

theorem modulus_natCast (n y : ℕ) : modulus n y = n % y := by
  rw [modulus, if_neg (by omega), Int.tmod_eq_emod_of_nonneg (by omega), ← Int.natCast_mod,
    Int.toNat_natCast]

theorem modulus_add (a b y : ℕ) : modulus ((a : ℤ) + b) y = (a + b) % y := by
  rw [← Nat.cast_add, modulus_natCast]

theorem modulus_pred {n y : ℕ} (hn : n < y) : (modulus ((n : ℤ) - 1) y + 1) % y = n := by
  rcases Nat.eq_zero_or_pos n with rfl | hpos
  · rw [modulus, if_pos (by omega), show ((0 : ℕ) : ℤ) - 1 + y = ((y - 1 : ℕ) : ℤ) by omega,
      Int.tmod_eq_emod_of_nonneg (by omega), ← Int.natCast_mod, Int.toNat_natCast,
      Nat.mod_eq_of_lt (by omega : y - 1 < y), Nat.sub_add_cancel hn, Nat.mod_self]
  · rw [show (n : ℤ) - 1 = ((n - 1 : ℕ) : ℤ) by omega, modulus_natCast,
      Nat.mod_eq_of_lt (by omega : n - 1 < y), Nat.sub_add_cancel hpos, Nat.mod_eq_of_lt hn]

theorem modulus_lt {x : ℤ} {y : ℕ} (hx : -y ≤ x) (hy : 0 < y) : modulus x y < y := by
  rw [modulus]
  split_ifs
  · rw [Int.tmod_eq_emod_of_nonneg (by omega)]
    have := Int.emod_lt_of_pos (x + y) (by omega : (0 : ℤ) < y)
    omega
  · rw [Int.tmod_eq_emod_of_nonneg (by omega)]
    have := Int.emod_lt_of_pos x (by omega : (0 : ℤ) < y)
    omega

/-! ### The buffer -/

namespace nsDeque

omit [Zero α] in
@[simp] theorem length_write (d : nsDeque α) (i : ℕ) (a : α) :
    (d.write i a).mData.length = d.mData.length := List.length_set

theorem cell_write_self (d : nsDeque α) {i : ℕ} (hi : i < d.mData.length) (a : α) :
    (d.write i a).cell i = a := by
  simp [write, cell, List.getD_eq_getElem?_getD, hi]

theorem cell_write_ne (d : nsDeque α) {i k : ℕ} (hk : k ≠ i) (a : α) :
    (d.write i a).cell k = d.cell k := by
  simp [write, cell, List.getD_eq_getElem?_getD, List.getElem?_set_ne (Ne.symm hk)]

/-- The new buffer begins with the first element. -/
theorem cell_drop_append_take (d : nsDeque α) {k : ℕ} (rest : List α)
    (ho : d.mOrigin < d.mData.length) (hk : k < d.mData.length) :
    (d.mData.drop d.mOrigin ++ d.mData.take d.mOrigin ++ rest).getD k 0 =
      d.cell ((d.mOrigin + k) % d.mData.length) := by
  rw [cell, List.getD_eq_getElem?_getD, List.getD_eq_getElem?_getD]
  congr 1
  rw [List.getElem?_append_left (by simp; omega)]
  rcases Nat.lt_or_ge k (d.mData.length - d.mOrigin) with hlt | hge
  · rw [List.getElem?_append_left (by simp; omega), List.getElem?_drop,
      Nat.mod_eq_of_lt (by omega)]
  · rw [List.getElem?_append_right (by simp; omega), List.length_drop,
      List.getElem?_take_of_lt (by omega), Nat.mod_eq_sub_mod (by omega),
      Nat.mod_eq_of_lt (by omega)]
    congr 1
    omega

theorem toInt_four_mul {n : ℕ} (h : 4 * n < 2 ^ 31) : (Int32.ofNat (4 * n)).toInt = 4 * n := by
  rw [Int32.toInt_ofNat_of_lt (by simpa using h)]
  push_cast
  rfl

theorem GrowCapacity_eq (d : nsDeque α) (hpos : 0 < d.mCapacity) (h : 4 * d.mCapacity < 2 ^ 31) :
    d.GrowCapacity true = { d with
      mCapacity := 4 * d.mCapacity
      mOrigin := 0
      mData := d.mData.drop d.mOrigin ++ d.mData.take d.mOrigin ++
        List.replicate (3 * d.mCapacity) 0 } := by
  have hnat : ((4 : ℤ) * d.mCapacity).toNat = 4 * d.mCapacity := by omega
  have hrest : 4 * d.mCapacity - d.mCapacity = 3 * d.mCapacity := by omega
  unfold GrowCapacity
  simp only [toInt_four_mul h, hnat, hrest]
  rw [if_neg (by omega), if_neg (by simp)]

end nsDeque

/-! ### A deque is a list -/

/-- The elements are in the ring, and the ring is the whole buffer. -/
structure Laid (d : nsDeque α) (l : List α) : Prop where
  ring : Ring d.cell d.mCapacity d.mOrigin l
  size_eq : d.mSize = l.length
  length_eq : d.mData.length = d.mCapacity
  capacity_eq : ∃ k ≤ 13, d.mCapacity = 2 ^ (3 + 2 * k)

namespace Laid

variable {d : nsDeque α} {l : List α}

theorem pos (h : Laid d l) : 0 < d.mCapacity := Nat.zero_lt_of_lt h.ring.first_lt

theorem new (aDeallocator : Bool) : Laid (nsDeque.new aDeallocator : nsDeque α) [] where
  ring := Ring.nil (by decide : 0 < 8)
  size_eq := rfl
  length_eq := List.length_replicate
  capacity_eq := ⟨0, by omega, rfl⟩

/-- The ring after a growth. -/
theorem grown (hring : Ring d.cell d.mCapacity d.mOrigin l) (hlen : d.mData.length = d.mCapacity)
    (hlt : 4 * d.mCapacity < 2 ^ 31) :
    Ring (d.GrowCapacity true).cell (4 * d.mCapacity) 0 l := by
  have hpos := Nat.zero_lt_of_lt hring.first_lt
  have hle := hring.length_le
  apply hring.realign (by omega) (by omega)
  intro i hi
  rw [d.GrowCapacity_eq hpos hlt, nsDeque.cell,
    d.cell_drop_append_take _ (by rw [hlen]; exact hring.first_lt) (by omega), hlen]

theorem grown_length (hpos : 0 < d.mCapacity) (hlen : d.mData.length = d.mCapacity)
    (hlt : 4 * d.mCapacity < 2 ^ 31) :
    (d.GrowCapacity true).mData.length = 4 * d.mCapacity := by
  rw [d.GrowCapacity_eq hpos hlt]
  simp only [List.length_append, List.length_drop, List.length_take, List.length_replicate]
  omega

theorem grown_capacity (h : Laid d l) (hlt : 4 * d.mCapacity < 2 ^ 31) :
    ∃ k ≤ 13, 4 * d.mCapacity = 2 ^ (3 + 2 * k) := by
  obtain ⟨k, -, hk⟩ := h.capacity_eq
  have hpow : 4 * d.mCapacity = 2 ^ (3 + 2 * (k + 1)) := by
    rw [hk]
    ring
  refine ⟨k + 1, ?_, hpow⟩
  rw [hpow] at hlt
  have := (Nat.pow_lt_pow_iff_right (by omega : 1 < 2)).mp hlt
  omega

/-- A deque that has room, after a growth when it was full. -/
theorem roomy (h : Laid d l) (hlt : 4 * d.mCapacity < 2 ^ 31) :
    Laid (d.GrowCapacity true) l where
  ring := by
    have hring := grown h.ring h.length_eq hlt
    rw [d.GrowCapacity_eq h.pos hlt] at hring ⊢
    exact hring
  size_eq := by
    rw [d.GrowCapacity_eq h.pos hlt]
    exact h.size_eq
  length_eq := by
    rw [grown_length h.pos h.length_eq hlt, d.GrowCapacity_eq h.pos hlt]
  capacity_eq := by
    rw [d.GrowCapacity_eq h.pos hlt]
    exact h.grown_capacity hlt

theorem pushed (h : Laid d l) (hlt : l.length < d.mCapacity) (a : α) :
    Laid { d.write (modulus (d.mOrigin + d.mSize) d.mCapacity) a with mSize := d.mSize + 1 }
      (l ++ [a]) where
  ring := by
    rw [modulus_add, h.size_eq]
    apply h.ring.push hlt
    · exact d.cell_write_self (by rw [h.length_eq]; exact Nat.mod_lt _ h.pos) a
    · intro k hk
      exact d.cell_write_ne hk a
  size_eq := by
    rw [List.length_append, h.size_eq]
    rfl
  length_eq := (d.length_write _ _).trans h.length_eq
  capacity_eq := h.capacity_eq

theorem Push (h : Laid d l) {temp : Bool} {a : α} (hgrows : d.Grows temp (.Push a)) :
    Laid (d.Push temp a) (l ++ [a]) := by
  unfold nsDeque.Push
  by_cases hfull : d.mSize = d.mCapacity
  · obtain ⟨rfl, hlt⟩ := hgrows hfull
    have hpos := h.pos
    rw [if_pos hfull]
    apply (h.roomy hlt).pushed
    rw [d.GrowCapacity_eq h.pos hlt, ← h.size_eq]
    change d.mSize < 4 * d.mCapacity
    omega
  · rw [if_neg hfull]
    apply h.pushed
    have := h.ring.length_le
    have := h.size_eq
    omega

theorem PushFront (h : Laid d l) {temp : Bool} {a : α} (hgrows : d.Grows temp (.PushFront a)) :
    Laid (d.PushFront temp a) (a :: l) := by
  have hpos := h.pos
  have hle := h.ring.length_le
  have hsize := h.size_eq
  have hlt' := modulus_lt (by omega : -(d.mCapacity : ℤ) ≤ (d.mOrigin : ℤ) - 1) hpos
  have hnext := modulus_pred h.ring.first_lt
  unfold nsDeque.PushFront
  by_cases hfull : d.mSize = d.mCapacity
  · obtain ⟨rfl, hlt⟩ := hgrows hfull
    -- the last element is taken for the first one and goes to its place after the growth
    obtain ⟨q, b, rfl⟩ : ∃ q b, l = q ++ [b] :=
      List.eq_nil_or_concat' l |>.resolve_left (by rintro rfl; simp at hsize; omega)
    rw [List.length_append, List.length_singleton] at hsize
    have hturned := h.ring.rotate (by omega) hlt' hnext
    set d' : nsDeque α := { d with mOrigin := modulus ((d.mOrigin : ℤ) - 1) d.mCapacity } with hd'
    have hgrown : Ring (d'.GrowCapacity true).cell (4 * d.mCapacity) 0 (b :: q) :=
      grown (d := d') hturned h.length_eq hlt
    have hlen : (d'.GrowCapacity true).mData.length = 4 * d.mCapacity :=
      grown_length (d := d') hpos h.length_eq hlt
    have hfields := d'.GrowCapacity_eq hpos hlt
    set g := d'.GrowCapacity true with hg
    have hcap : g.mCapacity = 4 * d.mCapacity := by rw [hfields]
    have horigin : g.mOrigin = 0 := by rw [hfields]
    have hgsize : g.mSize = q.length + 1 := by rw [hfields, ← hsize]
    have hb : g.cell 0 = b := by simpa using hgrown.cell_eq 0 b rfl
    dsimp only
    rw [if_pos hfull]
    change Laid { (g.write g.mSize (g.cell g.mOrigin)).write g.mOrigin a with
      mSize := g.mSize + 1 } _
    rw [horigin, hgsize, hb]
    have hend : (0 + (b :: q).length) % (4 * d.mCapacity) = q.length + 1 := by
      rw [List.length_cons, Nat.zero_add, Nat.mod_eq_of_lt (by omega)]
    have hpushed : Ring (g.write (q.length + 1) b).cell (4 * d.mCapacity) 0 (b :: (q ++ [b])) := by
      rw [← List.cons_append]
      apply hgrown.push (by simp; omega)
      · rw [hend]
        exact g.cell_write_self (by omega) b
      · intro k hk
        exact g.cell_write_ne (by rwa [hend] at hk) b
    have hset := hpushed.setFirst (b := a)
      (nsDeque.cell_write_self _ (by rw [nsDeque.length_write]; omega) a)
      fun k hk => nsDeque.cell_write_ne _ hk a
    exact {
      ring := by
        change Ring _ g.mCapacity g.mOrigin _
        rw [hcap, horigin]
        exact hset
      size_eq := by simp
      length_eq := by
        change (((g.write (q.length + 1) b).write 0 a).mData).length = g.mCapacity
        rw [nsDeque.length_write, nsDeque.length_write, hlen, hcap]
      capacity_eq := by
        change ∃ k ≤ 13, g.mCapacity = _
        rw [hcap]
        exact h.grown_capacity hlt }
  · simp only [hfull, ↓reduceIte]
    exact {
      ring := by
        apply h.ring.pushFront (by omega) hlt' hnext
        · exact nsDeque.cell_write_self _ (by rw [h.length_eq]; exact hlt') a
        · intro k hk
          exact nsDeque.cell_write_ne _ hk a
      size_eq := by
        rw [List.length_cons, ← hsize]
        rfl
      length_eq := (nsDeque.length_write _ _ _).trans h.length_eq
      capacity_eq := h.capacity_eq }

theorem Pop (h : Laid d l) : Laid d.Pop.1 l.dropLast ∧ d.Pop.2 = l.getLast?.getD 0 := by
  have hpos := h.pos
  have hsize := h.size_eq
  rcases List.eq_nil_or_concat' l with rfl | ⟨q, b, rfl⟩
  · simp only [nsDeque.Pop, hsize, List.length_nil, lt_self_iff_false, ↓reduceIte]
    exact ⟨h, rfl⟩
  · rw [List.length_append, List.length_singleton] at hsize
    have hlast : modulus ((d.mSize : ℤ) - 1 + d.mOrigin) d.mCapacity =
        (d.mOrigin + q.length) % d.mCapacity := by
      rw [hsize, show ((q.length + 1 : ℕ) : ℤ) - 1 = (q.length : ℤ) by omega, modulus_add,
        Nat.add_comm]
    have hring : Ring (d.write ((d.mOrigin + q.length) % d.mCapacity) 0).cell d.mCapacity
        d.mOrigin q :=
      h.ring.unpush fun k hk => d.cell_write_ne hk 0
    simp only [nsDeque.Pop, hlast]
    rw [if_pos (by omega), List.dropLast_concat, List.getLast?_concat]
    refine ⟨⟨?_, by simp [hsize], (d.length_write _ _).trans h.length_eq, h.capacity_eq⟩, ?_⟩
    · dsimp only
      split_ifs with hzero
      · have hnil : q.length = 0 := by
          change d.mSize - 1 = 0 at hzero
          omega
        obtain rfl := List.eq_nil_of_length_eq_zero hnil
        exact Ring.nil hpos
      · exact hring
    · exact h.ring.cell_eq q.length b (by simp)

theorem PopFront (h : Laid d l) : Laid d.PopFront.1 l.tail ∧ d.PopFront.2 = l.head?.getD 0 := by
  have hpos := h.pos
  have hsize := h.size_eq
  have hfirst := h.ring.first_lt
  cases l with
  | nil =>
    simp only [nsDeque.PopFront, hsize, List.length_nil, lt_self_iff_false, ↓reduceIte]
    exact ⟨h, rfl⟩
  | cons b q =>
    rw [List.length_cons] at hsize
    have hring : Ring (d.write d.mOrigin 0).cell d.mCapacity ((d.mOrigin + 1) % d.mCapacity) q :=
      h.ring.pop fun k hk => d.cell_write_ne hk 0
    unfold nsDeque.PopFront
    rw [if_pos (by omega)]
    refine ⟨⟨?_, by simp [hsize], (d.length_write _ _).trans h.length_eq, h.capacity_eq⟩, ?_⟩
    · dsimp only [List.tail_cons]
      split_ifs with hzero
      · rcases hzero with hend | hzero
        · have hend' : d.mOrigin + 1 = d.mCapacity := hend.symm
          rwa [hend', Nat.mod_self] at hring
        · have hnil : q.length = 0 := by
            change d.mSize - 1 = 0 at hzero
            omega
          obtain rfl := List.eq_nil_of_length_eq_zero hnil
          exact Ring.nil hpos
      · rw [not_or] at hzero
        have hne : d.mCapacity ≠ d.mOrigin + 1 := hzero.1
        rwa [Nat.mod_eq_of_lt (by omega)] at hring
    · have := h.ring.cell_eq 0 b rfl
      rwa [Nat.add_zero, Nat.mod_eq_of_lt hfirst] at this

theorem Peek (h : Laid d l) : d.Peek = l.getLast?.getD 0 := by
  have hsize := h.size_eq
  rcases List.eq_nil_or_concat' l with rfl | ⟨q, b, rfl⟩
  · simp [nsDeque.Peek, hsize]
  · rw [List.length_append, List.length_singleton] at hsize
    unfold nsDeque.Peek
    rw [if_pos (by omega), hsize, show ((q.length + 1 : ℕ) : ℤ) - 1 = (q.length : ℤ) by omega,
      modulus_add, Nat.add_comm, List.getLast?_concat]
    exact h.ring.cell_eq q.length b (by simp)

theorem PeekFront (h : Laid d l) : d.PeekFront = l.head?.getD 0 := by
  have hsize := h.size_eq
  cases l with
  | nil => simp [nsDeque.PeekFront, hsize]
  | cons b q =>
    unfold nsDeque.PeekFront
    rw [if_pos (by rw [hsize]; exact Nat.succ_pos _)]
    have := h.ring.cell_eq 0 b rfl
    rwa [Nat.add_zero, Nat.mod_eq_of_lt h.ring.first_lt] at this

theorem ObjectAt (h : Laid d l) (i : ℤ) :
    d.ObjectAt i = if 0 ≤ i then l.getD i.toNat 0 else 0 := by
  unfold nsDeque.ObjectAt
  by_cases hi : 0 ≤ i
  · obtain ⟨n, rfl⟩ := Int.eq_ofNat_of_zero_le hi
    rw [if_pos hi, Int.toNat_natCast, List.getD_eq_getElem?_getD, modulus_add, h.size_eq]
    split_ifs with hn
    · have hget := List.getElem?_eq_getElem (by omega : n < l.length)
      rw [hget, h.ring.cell_eq n _ hget]
      rfl
    · rw [List.getElem?_eq_none (by omega)]
      rfl
  · rw [if_neg hi, if_neg (fun hand => hi hand.1)]

/-- `ObjectAt` gives the elements, from the first to the last. -/
theorem objects_eq (h : Laid d l) : d.objects = l := by
  apply List.ext_getElem?
  intro i
  rw [nsDeque.objects, List.getElem?_map]
  rcases Nat.lt_or_ge i l.length with hi | hi
  · rw [List.getElem?_range (by rw [h.size_eq]; exact hi), Option.map_some, h.ObjectAt,
      if_pos (by omega), Int.toNat_natCast, List.getD_eq_getElem?_getD,
      List.getElem?_eq_getElem hi]
    rfl
  · rw [List.getElem?_eq_none hi, List.getElem?_eq_none (by simp [h.size_eq, hi])]
    rfl

theorem Empty (h : Laid d l) : Laid d.Empty [] where
  ring := Ring.nil h.pos
  size_eq := rfl
  length_eq := by
    unfold nsDeque.Empty
    dsimp only
    split_ifs
    · exact List.length_replicate
    · exact h.length_eq
  capacity_eq := h.capacity_eq

theorem Erase (h : Laid d l) : d.Erase.2 = if d.mDeallocator then l else [] := by
  have hobjects := h.objects_eq
  unfold nsDeque.objects at hobjects
  unfold nsDeque.Erase
  rw [hobjects]
  cases l with
  | nil => simp
  | cons b q => simp [h.size_eq]

/-- One operation, with the memory that it needs. -/
theorem step (h : Laid d l) {temp : Bool} {op : Op α} (hgrows : d.Grows temp op) :
    Laid (d.step temp op).1 (listStep d.mDeallocator l op).1 ∧
      (d.step temp op).2 = (listStep d.mDeallocator l op).2 := by
  cases op with
  | Push a => exact ⟨h.Push hgrows, rfl⟩
  | PushFront a => exact ⟨h.PushFront hgrows, rfl⟩
  | Pop => exact ⟨h.Pop.1, congrArg Answer.pointer h.Pop.2⟩
  | PopFront => exact ⟨h.PopFront.1, congrArg Answer.pointer h.PopFront.2⟩
  | Peek => exact ⟨h, congrArg Answer.pointer h.Peek⟩
  | PeekFront => exact ⟨h, congrArg Answer.pointer h.PeekFront⟩
  | ObjectAt i => exact ⟨h, congrArg Answer.pointer (h.ObjectAt i)⟩
  | Empty => exact ⟨h.Empty, rfl⟩
  | Erase => exact ⟨h.Empty, congrArg Answer.erased h.Erase⟩

end Laid

/-! ### Runs -/

theorem GrowCapacity_mDeallocator (d : nsDeque α) (temp : Bool) :
    (d.GrowCapacity temp).mDeallocator = d.mDeallocator := by
  unfold nsDeque.GrowCapacity
  dsimp only
  split_ifs <;> rfl

theorem step_mDeallocator (d : nsDeque α) (temp : Bool) (op : Op α) :
    (d.step temp op).1.mDeallocator = d.mDeallocator := by
  cases op with
  | Push a =>
    simp only [nsDeque.step, nsDeque.Push, nsDeque.write]
    split_ifs
    · exact GrowCapacity_mDeallocator d temp
    · rfl
  | PushFront a =>
    simp only [nsDeque.step, nsDeque.PushFront, nsDeque.write]
    split_ifs
    · exact GrowCapacity_mDeallocator _ temp
    · rfl
  | Pop =>
    simp only [nsDeque.step, nsDeque.Pop, nsDeque.write]
    split_ifs <;> rfl
  | PopFront =>
    simp only [nsDeque.step, nsDeque.PopFront, nsDeque.write]
    split_ifs <;> rfl
  | _ => rfl

theorem Laid.run {ops : List (Op α × Bool)} :
    ∀ {d : nsDeque α} {l : List α}, Laid d l → d.AllGrow ops →
      Laid (d.run ops).1 (listRun d.mDeallocator l (ops.map Prod.fst)).1 ∧
        (d.run ops).2 = (listRun d.mDeallocator l (ops.map Prod.fst)).2 := by
  induction ops with
  | nil => exact fun h _ => ⟨h, rfl⟩
  | cons opTemp ops ih =>
    intro d l h hgrow
    obtain ⟨op, temp⟩ := opTemp
    obtain ⟨hlaid, hanswer⟩ := h.step hgrow.1
    have hrest := ih hlaid hgrow.2
    rw [step_mDeallocator] at hrest
    exact ⟨hrest.1, congrArg₂ List.cons hanswer hrest.2⟩

/-- A deque that grows whenever it has to answers as the list does, and holds its elements. -/
theorem run_eq_listRun (aDeallocator : Bool) (ops : List (Op α × Bool))
    (h : (nsDeque.new aDeallocator).AllGrow ops) :
    ((nsDeque.new aDeallocator).run ops).1.objects =
        (listRun aDeallocator [] (ops.map Prod.fst)).1 ∧
      ((nsDeque.new aDeallocator).run ops).2 =
        (listRun aDeallocator [] (ops.map Prod.fst)).2 := by
  obtain ⟨hlaid, hanswers⟩ := (Laid.new aDeallocator).run h
  exact ⟨hlaid.objects_eq, hanswers⟩

/-- A front push on a full deque whose origin is the first cell, then a pop. -/
theorem run_eq_listRun_frontPush :
    let ops : List (Op ℕ × Bool) :=
      (List.range 8).map (fun i => (.Push (i + 1), false)) ++ [(.PushFront 9, true), (.Pop, false)]
    ((nsDeque.new true).run ops).1.objects = [9, 1, 2, 3, 4, 5, 6, 7] ∧
      ((nsDeque.new true).run ops).2.getLast? = some (.pointer 8) := by
  intro ops
  obtain ⟨hobjects, hanswers⟩ := run_eq_listRun true ops (by decide)
  rw [hobjects, hanswers]
  decide

/-! ### A deque that cannot grow -/

theorem Laid.grows {d : nsDeque α} {l : List α} (h : Laid d l) (hlt : l.length < 2 ^ 29)
    (op : Op α) : d.Grows true op := by
  have hroom : d.mSize = d.mCapacity → true = true ∧ 4 * d.mCapacity < 2 ^ 31 := by
    intro hfull
    have := h.size_eq
    exact ⟨rfl, by omega⟩
  cases op with
  | Push a => exact hroom
  | PushFront a => exact hroom
  | _ => trivial

theorem Laid.allGrow_replicate {a : α} {n : ℕ} :
    ∀ {d : nsDeque α} {l : List α}, Laid d l → l.length + n ≤ 2 ^ 29 →
      d.AllGrow (List.replicate n (.Push a, true)) := by
  induction n with
  | zero => exact fun _ _ => trivial
  | succ n ih =>
    intro d l h hle
    have hgrows := h.grows (by omega) (.Push a)
    refine ⟨hgrows, ih (h.Push hgrows) ?_⟩
    rw [List.length_append, List.length_singleton]
    omega

theorem listRun_replicate (dealloc : Bool) (a : α) (n : ℕ) :
    ∀ l : List α, (listRun dealloc l (List.replicate n (.Push a))).1 = l ++ List.replicate n a := by
  induction n with
  | zero => exact fun l => (List.append_nil l).symm
  | succ n ih =>
    intro l
    rw [List.replicate_succ, listRun, ih, listStep, List.append_assoc, List.replicate_succ]
    rfl

theorem run_append (ops ops' : List (Op α × Bool)) :
    ∀ d : nsDeque α, (d.run (ops ++ ops')).1 = ((d.run ops).1.run ops').1 := by
  induction ops with
  | nil => exact fun _ => rfl
  | cons op ops ih => exact fun d => ih _

theorem listRun_append (dealloc : Bool) (ops ops' : List (Op α)) :
    ∀ l : List α, (listRun dealloc l (ops ++ ops')).1 =
      (listRun dealloc (listRun dealloc l ops).1 ops').1 := by
  induction ops with
  | nil => exact fun _ => rfl
  | cons op ops ih => exact fun l => ih _

/-- With `2 ^ 29` elements a push writes over the first one. -/
theorem Laid.Push_full {d : nsDeque α} {l : List α} (h : Laid d l) (hlen : l.length = 2 ^ 29)
    (temp : Bool) (a : α) : (d.Push temp a).ObjectAt 0 = a := by
  obtain ⟨k, hk, hcap⟩ := h.capacity_eq
  have hle : d.mCapacity ≤ 2 ^ 29 := by
    rw [hcap]
    exact Nat.pow_le_pow_right (by omega) (by omega)
  have hfull : d.mSize = d.mCapacity := by
    have := h.ring.length_le
    have := h.size_eq
    omega
  have hcap' : d.mCapacity = 2 ^ 29 := by
    have := h.size_eq
    omega
  have hgrow : d.GrowCapacity temp = d := by
    unfold nsDeque.GrowCapacity
    rw [hcap']
    exact if_pos (by decide)
  have hfirst := h.ring.first_lt
  unfold nsDeque.Push
  dsimp only
  rw [if_pos hfull, hgrow, modulus_add, hfull, Nat.add_mod_right, Nat.mod_eq_of_lt hfirst]
  unfold nsDeque.ObjectAt
  rw [if_pos ⟨le_refl 0, by simp⟩, Int.add_zero]
  change nsDeque.cell _ (modulus (d.mOrigin : ℤ) d.mCapacity) = a
  rw [modulus_natCast, Nat.mod_eq_of_lt hfirst]
  exact d.cell_write_self (by rw [h.length_eq]; exact hfirst) a

theorem ObjectAt_zero {d : nsDeque α} {a : α} (h : d.objects.head? = some a) :
    d.ObjectAt 0 = a := by
  rw [nsDeque.objects, List.head?_map, List.head?_range] at h
  split_ifs at h
  · simp at h
  · simpa using h

theorem Laid.objects_ne {n : ℕ} (hn : n = 2 ^ 29) :
    let ops : List (Op ℕ × Bool) := List.replicate n (.Push 1, true) ++ [(.Push 2, true)]
    ((nsDeque.new false).run ops).1.ObjectAt 0 = 2 ∧
      (listRun false [] (ops.map Prod.fst)).1.head? = some 1 := by
  intro ops
  have hnew : Laid (nsDeque.new false : nsDeque ℕ) [] := Laid.new false
  have hgrow := hnew.allGrow_replicate (a := 1) (n := n) (by simp [hn])
  obtain ⟨hlaid, -⟩ := (Laid.new false).run hgrow
  rw [List.map_replicate, listRun_replicate, List.nil_append] at hlaid
  refine ⟨?_, ?_⟩
  · rw [run_append]
    exact hlaid.Push_full (by rw [List.length_replicate, hn]) true 2
  · rw [List.map_append, List.map_replicate, listRun_append, listRun_replicate, List.nil_append]
    cases n with
    | zero => omega
    | succ n => rfl

/-- The first of nine elements is lost without memory, and the first of `2 ^ 29 + 1` with memory
for every new buffer. -/
theorem run_ne_listRun :
    ¬(∀ ops : List (Op ℕ × Bool), ops.length ≤ 9 →
      ((nsDeque.new false).run ops).1.objects = (listRun false [] (ops.map Prod.fst)).1) ∧
    ¬∀ ops : List (Op ℕ × Bool), (∀ op ∈ ops, op.2 = true) →
      ((nsDeque.new false).run ops).1.objects = (listRun false [] (ops.map Prod.fst)).1 := by
  refine ⟨fun h => ?_, fun h => ?_⟩
  · have := h ((List.range 9).map fun i => (.Push (i + 1), false)) (by decide)
    revert this
    decide
  obtain ⟨n, hn⟩ : ∃ n, n = 2 ^ 29 := ⟨_, rfl⟩
  obtain ⟨hobject, hhead⟩ := Laid.objects_ne hn
  have heq := h (List.replicate n (.Push 1, true) ++ [(.Push 2, true)]) (by simp)
  rw [← heq] at hhead
  have hone := ObjectAt_zero hhead
  rw [hobject] at hone
  exact absurd hone (by decide)

end Kompozer.Ds

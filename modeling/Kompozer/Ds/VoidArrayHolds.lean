import Kompozer.Ds.VoidArray
import Mathlib.Tactic.Ring

/-! An array that holds a list, and what resizing, clearing and assigning do to it. -/

namespace Kompozer.Ds

variable {α : Type} {w : PointerSize}

theorem PointerSize.bytes_eq (w : PointerSize) : w.bytes = 4 ∨ w.bytes = 8 := by
  cases w <;> simp [bytes]

theorem int32_of_bounds {x : ℤ} (h : -2 ^ 31 ≤ x) (hlt : x < 2 ^ 31) : int32 x = x :=
  Int.bmod_eq_of_le (by omega) (by omega)

theorem uint32_of_bounds {x : ℤ} (h : 0 ≤ x) (hlt : x < 2 ^ 32) : uint32 x = x :=
  Int.emod_eq_of_lt h (by omega)

theorem SIZEOF_IMPL_eq (n : ℤ) : SIZEOF_IMPL w n = 8 + w.bytes * n := by
  rw [SIZEOF_IMPL, sizeofImpl]
  ring

/-- A size of a buffer that fits into `PRUint32` in bytes. -/
def Allocatable (w : PointerSize) (n : ℤ) : Prop := 0 ≤ n ∧ 8 + w.bytes * n < 2 ^ 32

theorem Allocatable.lt {n : ℤ} (h : Allocatable w n) : n < 2 ^ 30 := by
  obtain ⟨hpos, hlt⟩ := h
  rcases w.bytes_eq with hw | hw <;> rw [hw] at hlt <;> omega

theorem Allocatable.mono {n k : ℤ} (h : Allocatable w n) (hpos : 0 ≤ k) (hk : k ≤ n) :
    Allocatable w k := by
  obtain ⟨-, hlt⟩ := h
  refine ⟨hpos, ?_⟩
  rcases w.bytes_eq with hw | hw <;> rw [hw] at hlt ⊢ <;> omega

theorem allocated_eq {n : ℤ} (h : Allocatable w n) :
    allocated w (SIZEOF_IMPL w n) = n.toNat := by
  obtain ⟨hpos, hlt⟩ := h
  have hmul : 0 ≤ (w.bytes : ℤ) * n := Int.mul_nonneg (by omega) hpos
  rw [allocated, SIZEOF_IMPL_eq, uint32_of_bounds (by omega) hlt]
  rcases w.bytes_eq with hw | hw <;> rw [hw] at hlt ⊢ <;> omega

/-- What `PR_Malloc` can give for a growth. -/
def CanGrow (w : PointerSize) (size aGrowBy : ℤ) : Prop :=
  if kMaxGrowArrayBy ≤ size then Allocatable w (size + max kMaxGrowArrayBy aGrowBy)
  else
    let newSize := 8 + w.bytes * (size + max kMinGrowArrayBy aGrowBy)
    newSize < 24 * w.bytes ∨ newSize ≤ 2 ^ 31

instance (w : PointerSize) (n : ℤ) : Decidable (Allocatable w n) := by
  unfold Allocatable
  infer_instance

instance (w : PointerSize) (size aGrowBy : ℤ) : Decidable (CanGrow w size aGrowBy) := by
  unfold CanGrow
  infer_instance

theorem two_pow_clog_le {n : ℕ} (h : n ≤ 2 ^ 31) : 2 ^ Nat.clog 2 n ≤ 2 ^ 31 :=
  Nat.pow_le_pow_right (by omega) ((Nat.clog_le_iff_le_pow (by omega)).mpr h)

theorem CAPACITYOF_IMPL_bounds {n k : ℤ} (hk : 24 * w.bytes ≤ k) (hkn : k ≤ n) (hn : n ≤ 2 ^ 31)
    {c : ℤ} (hc : 8 + w.bytes * c = k) :
    c ≤ CAPACITYOF_IMPL w n ∧ Allocatable w (CAPACITYOF_IMPL w n) := by
  rw [CAPACITYOF_IMPL, sizeofImpl, Allocatable]
  rcases w.bytes_eq with hw | hw <;> rw [hw] at hk hc ⊢ <;>
    rw [Int.emod_eq_of_lt (by omega) (by omega)] <;> omega

theorem CanGrow.bounds {size aGrowBy : ℤ} (h : CanGrow w size aGrowBy) :
    8 + w.bytes * (size + max kMinGrowArrayBy aGrowBy) < 2 ^ 32 ∧
      size + max kMinGrowArrayBy aGrowBy < 2 ^ 30 := by
  have hmin : kMinGrowArrayBy = 8 := rfl
  have hmax : kMaxGrowArrayBy = 1024 := rfl
  unfold CanGrow Allocatable at h
  rcases w.bytes_eq with hw | hw <;> rw [hw] at h ⊢ <;> split_ifs at h <;> omega

namespace nsVoidArray

theorem newCapacity_spec {size aGrowBy : ℤ} (hpos : 0 ≤ size) (h : CanGrow w size aGrowBy) :
    size + max kMinGrowArrayBy aGrowBy ≤ newCapacity w size aGrowBy ∧
      0 < newCapacity w size aGrowBy ∧ Allocatable w (newCapacity w size aGrowBy) := by
  have hmin : kMinGrowArrayBy = 8 := rfl
  have hmax : kMaxGrowArrayBy = 1024 := rfl
  have hclip : (if aGrowBy < kMinGrowArrayBy then kMinGrowArrayBy else aGrowBy) =
      max kMinGrowArrayBy aGrowBy := by
    split_ifs <;> omega
  obtain ⟨hbytes, hlt⟩ := h.bounds
  have hbpos : 0 ≤ (w.bytes : ℤ) * (size + max kMinGrowArrayBy aGrowBy) :=
    Int.mul_nonneg (by omega) (by omega)
  have hcap : uint32 (size + max kMinGrowArrayBy aGrowBy) = size + max kMinGrowArrayBy aGrowBy :=
    uint32_of_bounds (by omega) (by omega)
  simp only [newCapacity, hclip, hcap, SIZEOF_IMPL_eq, kLinearThreshold]
  rw [uint32_of_bounds (by omega) hbytes]
  unfold CanGrow at h
  split_ifs at h ⊢
  · -- a large array grows by as many elements as it has to
    have hle : max kMaxGrowArrayBy (max kMinGrowArrayBy aGrowBy) = max kMaxGrowArrayBy aGrowBy := by
      omega
    have hlt' := h.lt
    rw [hle, uint32_of_bounds (by omega) (by omega)]
    exact ⟨by omega, by omega, h⟩
  · -- to the next power of two
    obtain ⟨n, hn⟩ : ∃ n : ℕ, (n : ℤ) = 8 + w.bytes * (size + max kMinGrowArrayBy aGrowBy) :=
      ⟨_, Int.toNat_of_nonneg (by omega)⟩
    rw [← hn, Int.toNat_natCast]
    have hle : n ≤ 2 ^ 31 := by omega
    have hpow := two_pow_clog_le hle
    have hself := Nat.le_pow_clog (b := 2) (by omega) n
    have hcast : (2 : ℤ) ^ Nat.clog 2 n = (2 ^ Nat.clog 2 n : ℕ) := by push_cast; rfl
    have hround : uint32 (2 ^ Nat.clog 2 n : ℕ) = (2 ^ Nat.clog 2 n : ℕ) :=
      uint32_of_bounds (by omega) (by omega)
    rw [hcast, hround]
    obtain ⟨hge, halloc⟩ := CAPACITYOF_IMPL_bounds (w := w) (k := n) (n := (2 ^ Nat.clog 2 n : ℕ))
      (by omega) (by omega) (by omega) hn.symm
    have hlt' := halloc.lt
    rw [uint32_of_bounds halloc.1 (by omega)]
    exact ⟨by omega, by omega, halloc⟩
  all_goals exact ⟨by omega, by omega, by omega, hbytes⟩

end nsVoidArray

/-! ### An array that holds a list -/

/-- The buffer holds the list, and it is as large as it says. -/
structure Impl.Holds (w : PointerSize) (m : Impl α) (l : List α) : Prop where
  starts : m.mArray.Starts l
  count_eq : m.mCount = l.length
  size_eq : m.size = m.mArray.size
  length_le : l.length ≤ m.mArray.size
  allocatable : Allocatable w m.mArray.size

structure Holds (w : PointerSize) (a : nsVoidArray α) (l : List α) : Prop where
  auto_size : a.mAutoBuf.size = kAutoBufSize
  auto_owner : a.mAutoBuf.owner = false
  auto_block : a.mAutoBuf.mArray.size = kAutoBufSize
  of_null : a.impl = none → l = []
  of_impl : ∀ m, a.impl = some m → m.Holds w l
  of_heap : ∀ m, a.mImpl = .heap m → m.owner = true
  of_auto : a.mImpl = .autoBuf → a.isAuto = true

namespace nsVoidArray

variable {a : nsVoidArray α} {m m' : Impl α} {n : ℤ} {memory : Bool}

theorem Count_eq (hm : a.impl = some m) : a.Count = m.mCount := by simp [Count, hm]

theorem GetArraySize_eq (hm : a.impl = some m) : a.GetArraySize = m.size := by
  simp [GetArraySize, hm]

theorem impl_withImpl (hm : a.impl = some m) : (a.withImpl m').impl = some m' := by
  cases ha : a.mImpl <;> simp [impl, withImpl, ha] at hm ⊢

@[simp] theorem withImpl_withImpl (a : nsVoidArray α) (m m' : Impl α) :
    (a.withImpl m).withImpl m' = a.withImpl m' := by
  cases ha : a.mImpl <;> simp [withImpl, ha]

@[simp] theorem isAuto_withImpl (a : nsVoidArray α) (m : Impl α) :
    (a.withImpl m).isAuto = a.isAuto := by
  cases ha : a.mImpl <;> simp [withImpl, ha]

theorem setCount_eq (hm : a.impl = some m) : a.setCount n = a.withImpl { m with mCount := n } := by
  simp [setCount, hm]

@[simp] theorem isAuto_setCount (a : nsVoidArray α) (n : ℤ) : (a.setCount n).isAuto = a.isAuto := by
  unfold setCount
  split <;> simp

end nsVoidArray

theorem setArray_holds {b : Block α} {l : List α} {n : ℤ} {owner : Bool} (hs : b.Starts l)
    (hn : n = b.size) (hle : l.length ≤ b.size) (halloc : Allocatable w b.size) :
    (setArray b n l.length owner).Holds w l where
  starts := hs
  count_eq := rfl
  size_eq := by
    have := halloc.lt
    exact (Int.emod_eq_of_lt (by omega) (by omega)).trans hn
  length_le := hle
  allocatable := halloc

namespace Holds

variable {a : nsVoidArray α} {l l' : List α} {m m' : Impl α} {n : ℤ} {memory : Bool}

theorem Count_eq (h : Holds w a l) : a.Count = l.length := by
  cases hm : a.impl with
  | none => simp [nsVoidArray.Count, hm, h.of_null hm]
  | some m => rw [nsVoidArray.Count_eq hm, (h.of_impl m hm).count_eq]

theorem length_le (h : Holds w a l) : (l.length : ℤ) ≤ a.GetArraySize := by
  cases hm : a.impl with
  | none => simp [nsVoidArray.GetArraySize, hm, h.of_null hm]
  | some m =>
    have := (h.of_impl m hm).length_le
    rw [nsVoidArray.GetArraySize_eq hm, (h.of_impl m hm).size_eq]
    omega

theorem allocatable (h : Holds w a l) : Allocatable w a.GetArraySize := by
  cases hm : a.impl with
  | none => simp [nsVoidArray.GetArraySize, hm, Allocatable]
  | some m =>
    rw [nsVoidArray.GetArraySize_eq hm, (h.of_impl m hm).size_eq]
    exact (h.of_impl m hm).allocatable

theorem contents_eq (h : Holds w a l) : a.contents = l := by
  cases hm : a.impl with
  | none => simp [nsVoidArray.contents, hm, h.of_null hm]
  | some m =>
    have himpl := h.of_impl m hm
    simp only [nsVoidArray.contents, hm, himpl.count_eq, Int.toNat_natCast]
    exact himpl.starts.list_eq

/-- A buffer that was written to. -/
theorem withImpl (h : Holds w a l) (hm : a.impl = some m) (hm' : m'.Holds w l')
    (howner : m'.owner = m.owner) (hsize : m'.mArray.size = m.mArray.size) :
    Holds w (a.withImpl m') l' := by
  have hbuf := h.of_impl m hm
  cases ha : a.mImpl with
  | null => simp [nsVoidArray.impl, ha] at hm
  | heap p =>
    obtain rfl : p = m := by simpa [nsVoidArray.impl, ha] using hm
    have howns := h.of_heap p ha
    constructor
    all_goals simp [nsVoidArray.withImpl, nsVoidArray.impl, ha, hm', h.auto_size, h.auto_owner,
      h.auto_block, howner, howns]
  | autoBuf =>
    obtain rfl : a.mAutoBuf = m := by simpa [nsVoidArray.impl, ha] using hm
    constructor
    all_goals simp [nsVoidArray.withImpl, nsVoidArray.impl, ha, hm', hsize, h.auto_owner,
      h.auto_block, howner, hm'.size_eq, h.of_auto ha]

theorem setCount_zero (h : Holds w a l) : Holds w (a.setCount 0) [] := by
  cases hm : a.impl with
  | none =>
    obtain rfl := h.of_null hm
    simpa [nsVoidArray.setCount, hm] using h
  | some m =>
    have hbuf := h.of_impl m hm
    rw [nsVoidArray.setCount_eq hm]
    exact h.withImpl hm ⟨Block.Starts.nil, rfl, hbuf.size_eq, Nat.zero_le _, hbuf.allocatable⟩ rfl rfl

theorem null (h : Holds w a l) : Holds w { a with mImpl := .null } [] where
  auto_size := h.auto_size
  auto_owner := h.auto_owner
  auto_block := h.auto_block
  of_null _ := rfl
  of_impl _ hm := by simp [nsVoidArray.impl] at hm
  of_heap _ hm := by simp at hm
  of_auto hm := by simp at hm

theorem heap (h : Holds w a l) (hm : m.Holds w l') (howner : m.owner = true) :
    Holds w { a with mImpl := .heap m } l' where
  auto_size := h.auto_size
  auto_owner := h.auto_owner
  auto_block := h.auto_block
  of_null hnone := by simp [nsVoidArray.impl] at hnone
  of_impl p hp := by
    obtain rfl : m = p := by simpa [nsVoidArray.impl] using hp
    exact hm
  of_heap p hp := by
    obtain rfl : m = p := by simpa using hp
    exact howner
  of_auto hm := by simp at hm

theorem allocatable_eight : Allocatable w kAutoBufSize := by
  cases w <;> decide

theorem resetToAutoBuf (h : Holds w a l) (hauto : a.isAuto = true) :
    Holds w a.resetToAutoBuf l := by
  unfold nsVoidArray.resetToAutoBuf
  split_ifs with hnone
  · obtain rfl := h.of_null (by simpa using hnone)
    constructor
    case of_impl =>
      intro m hm
      obtain rfl := by simpa [nsVoidArray.impl] using hm
      exact setArray_holds Block.Starts.nil (by rw [h.auto_block]) (Nat.zero_le _)
        (by rw [h.auto_block]; exact allocatable_eight)
    all_goals simp [nsVoidArray.impl, setArray, h.auto_block, hauto, kAutoBufSize]
  · exact h

theorem new [Zero α] (w : PointerSize) (isAuto : Bool) :
    Holds w (nsVoidArray.new isAuto : nsVoidArray α) [] := by
  cases isAuto
  · constructor <;> simp [nsVoidArray.new, nsVoidArray.impl, setArray, kAutoBufSize]
  · constructor
    case of_impl =>
      intro m hm
      obtain rfl := by simpa [nsVoidArray.new, nsVoidArray.impl] using hm
      exact setArray_holds Block.Starts.nil rfl (Nat.zero_le _) allocatable_eight
    all_goals simp [nsVoidArray.new, nsVoidArray.impl, setArray, kAutoBufSize]

end Holds

/-! ### Sizes -/

namespace nsVoidArray

variable {a : nsVoidArray α} {m : Impl α}

theorem isAuto_resetToAutoBuf (a : nsVoidArray α) : a.resetToAutoBuf.isAuto = a.isAuto := by
  unfold resetToAutoBuf
  split_ifs <;> rfl

theorem resetToAutoBuf_eq (hm : a.impl = some m) : a.resetToAutoBuf = a := by
  simp [resetToAutoBuf, hm]

end nsVoidArray

variable [Zero α]

/-- What a `SizeTo` of the class can do, the virtual one can. -/
theorem nsVoidArray.virtualSizeTo_spec {a : nsVoidArray α} {memory : Bool} {n : ℤ}
    {P : nsVoidArray α → Bool → Prop} (h : ∃ b ok, a.SizeTo w memory n = some (b, ok) ∧ P b ok)
    (hreset : ∀ b, a.isAuto = true → P b true → P b.resetToAutoBuf true) :
    ∃ b ok, a.virtualSizeTo w memory n = some (b, ok) ∧ P b ok := by
  obtain ⟨b, ok, hb, hP⟩ := h
  unfold nsVoidArray.virtualSizeTo
  split_ifs with hauto
  · refine ⟨_, ok, by rw [hb]; rfl, ?_⟩
    cases ok with
    | false => exact hP
    | true => exact hreset b hauto hP
  · exact ⟨b, ok, hb, hP⟩

namespace Holds

variable {a : nsVoidArray α} {l : List α} {n aGrowBy : ℤ} {memory : Bool}

/-- What `SizeTo` leaves, for a size that is large enough for the list. -/
structure Resized (w : PointerSize) (a : nsVoidArray α) (l : List α) (n : ℤ) (memory : Bool)
    (b : nsVoidArray α) (ok : Bool) : Prop where
  isAuto_eq : b.isAuto = a.isAuto
  holds : Holds w b l
  of_ok : ok = true → n ≤ b.GetArraySize ∧ ∃ m, b.impl = some m
  of_not_ok : ok = false → memory = false ∧ b = a
  of_autoBuf : b.mImpl = .autoBuf → a.mImpl = .autoBuf

omit [Zero α] in
theorem resized_heap (h : Holds w a l) (hpos : 0 < n) (halloc : Allocatable w n)
    {cells : Block α} {c : ℤ} (hcells : cells.size = n.toNat) (hs : cells.Starts l)
    (hc : c = l.length) (hle : l.length ≤ n) :
    Resized w a l n memory { a with mImpl := .heap (setArray cells n c true) } true := by
  have hsize : (cells.size : ℤ) = n := by omega
  have hlt := halloc.lt
  subst hc
  refine ⟨rfl, h.heap (setArray_holds hs hsize.symm (by omega) (by rwa [hsize])) rfl,
    fun _ => ⟨?_, _, rfl⟩, by simp, by simp⟩
  exact (Int.emod_eq_of_lt (by omega) (by omega)).ge

omit [Zero α] in
theorem resized_unchanged (h : Holds w a l) : Resized w a l n false a false :=
  ⟨rfl, h, by simp, fun _ => ⟨rfl, rfl⟩, id⟩

theorem SizeTo_large (h : Holds w a l) (hpos : 0 < n) (hle : l.length ≤ n)
    (halloc : Allocatable w n) :
    ∃ b ok, a.SizeTo w memory n = some (b, ok) ∧ Resized w a l n memory b ok := by
  by_cases hsame : n = a.GetArraySize
  · refine ⟨a, true, by rw [nsVoidArray.SizeTo, if_pos hsame], rfl, h, fun _ => ⟨hsame.le, ?_⟩,
      by simp, id⟩
    cases hm : a.impl with
    | none =>
      rw [nsVoidArray.GetArraySize, hm] at hsame
      exact absurd hsame hpos.ne'
    | some m => exact ⟨m, rfl⟩
  rw [nsVoidArray.SizeTo, if_neg hsame, if_neg (by omega)]
  simp only [allocated_eq halloc]
  cases memory with
  | false =>
    refine ⟨a, false, ?_, h.resized_unchanged⟩
    cases hm : a.impl with
    | none => rfl
    | some m =>
      have hcount := (h.of_impl m hm).count_eq
      cases howner : m.owner with
      | true => simp [howner, show ¬ n < m.mCount by omega]
      | false => simp [howner]
  | true =>
    cases hm : a.impl with
    | none =>
      obtain rfl := h.of_null hm
      exact ⟨_, true, rfl, h.resized_heap hpos halloc rfl Block.Starts.nil rfl hle⟩
    | some m =>
      have hbuf := h.of_impl m hm
      have hcount := hbuf.count_eq
      cases howner : m.owner with
      | true =>
        simp only [howner, if_true]
        rw [if_neg (by omega)]
        exact ⟨_, true, rfl, h.resized_heap hpos halloc rfl
          (hbuf.starts.resize (by omega) hbuf.length_le) hcount hle⟩
      | false =>
        have hcopy : copyAt ⟨n.toNat, fun _ => (0 : α)⟩ m.mArray m.mCount =
            some (Block.copied ⟨n.toNat, fun _ => 0⟩ m.mArray l.length) := by
          rw [copyAt, hcount, if_pos (by omega), Int.toNat_natCast]
          exact Block.copy_of_le (by show l.length ≤ n.toNat; omega) hbuf.length_le
        simp only [howner, if_true, hcopy]
        exact ⟨_, true, rfl, h.resized_heap hpos halloc rfl hbuf.starts.copied hcount hle⟩

theorem virtualSizeTo_large (h : Holds w a l) (memory : Bool) (hpos : 0 < n) (hle : l.length ≤ n)
    (halloc : Allocatable w n) :
    ∃ b ok, a.virtualSizeTo w memory n = some (b, ok) ∧ Resized w a l n memory b ok := by
  refine nsVoidArray.virtualSizeTo_spec (h.SizeTo_large hpos hle halloc) fun b _ hb => ?_
  obtain ⟨-, m, hm⟩ := hb.of_ok rfl
  rwa [nsVoidArray.resetToAutoBuf_eq hm]

theorem virtualSizeTo_nonpos (h : Holds w a l) (memory : Bool) (hn : n ≤ 0) :
    ∃ b ok, a.virtualSizeTo w memory n = some (b, ok) ∧
      b.isAuto = a.isAuto ∧ Holds w b [] ∧ ok = true := by
  refine nsVoidArray.virtualSizeTo_spec ?_ fun b hauto hb => ⟨?_, ?_, rfl⟩
  · unfold nsVoidArray.SizeTo
    split_ifs with hsame howner
    · have hle := h.length_le
      obtain rfl : l = [] := List.eq_nil_of_length_eq_zero (by omega)
      exact ⟨a, true, rfl, rfl, h, rfl⟩
    · exact ⟨_, true, rfl, rfl, h.null, rfl⟩
    · exact ⟨_, true, rfl, nsVoidArray.isAuto_setCount a 0, h.setCount_zero, rfl⟩
  · rw [nsVoidArray.isAuto_resetToAutoBuf, hb.1]
  · exact hb.2.1.resetToAutoBuf (hb.1.trans hauto)

/-- A size that is too small for the list is ignored, if the buffer is not the first one. -/
theorem virtualSizeTo_small (h : Holds w a l) (memory : Bool) (howner : a.IsArrayOwner = true) (hpos : 0 < n)
    (hlt : n < l.length) :
    ∃ b ok, a.virtualSizeTo w memory n = some (b, ok) ∧ b = a ∧ ok = true := by
  have hle := h.length_le
  cases hm : a.impl with
  | none => simp [nsVoidArray.IsArrayOwner, hm] at howner
  | some m =>
    have hcount := (h.of_impl m hm).count_eq
    have howns : m.owner = true := by simpa [nsVoidArray.IsArrayOwner, hm] using howner
    refine nsVoidArray.virtualSizeTo_spec ⟨a, true, ?_, rfl, rfl⟩ fun b _ hb => ?_
    · rw [nsVoidArray.SizeTo, if_neg (by omega), if_neg (by omega)]
      simp only [hm, howns, if_true]
      rw [if_pos (by omega)]
    · obtain ⟨rfl, -⟩ := hb
      exact ⟨nsVoidArray.resetToAutoBuf_eq hm, rfl⟩

theorem GrowArrayBy (h : Holds w a l) (memory : Bool) (hcan : CanGrow w a.GetArraySize aGrowBy) :
    ∃ b ok, a.GrowArrayBy w memory aGrowBy = some (b, ok) ∧
      Resized w a l (a.GetArraySize + aGrowBy) memory b ok := by
  obtain ⟨hge, hpos, halloc⟩ := nsVoidArray.newCapacity_spec h.allocatable.1 hcan
  have hlt := halloc.lt
  have hmin : kMinGrowArrayBy = 8 := rfl
  have hle := h.length_le
  rw [nsVoidArray.GrowArrayBy, int32_of_bounds (by omega) (by omega)]
  obtain ⟨b, ok, hb, hres⟩ := h.virtualSizeTo_large memory hpos (by omega) halloc
  exact ⟨b, ok, hb, hres.isAuto_eq, hres.holds,
    fun hok => ⟨by have := (hres.of_ok hok).1; omega, (hres.of_ok hok).2⟩, hres.of_not_ok,
    hres.of_autoBuf⟩

theorem Compact (h : Holds w a l) (memory : Bool) :
    ∃ b, a.Compact w memory = some b ∧ Holds w b l ∧ b.isAuto = a.isAuto ∧
      (l ≠ [] → b.mImpl = .autoBuf → a.mImpl = .autoBuf) := by
  have hcount := h.Count_eq
  have hreset : ∀ b : nsVoidArray α, b.isAuto = a.isAuto → Holds w b l →
      (l ≠ [] → b.mImpl = .autoBuf → a.mImpl = .autoBuf) →
      ∀ c, c = (if b.isAuto = true then b.resetToAutoBuf else b) → Holds w c l ∧
        c.isAuto = a.isAuto ∧ (l ≠ [] → c.mImpl = .autoBuf → a.mImpl = .autoBuf) := by
    rintro b hb hholds hplace c rfl
    split_ifs with hauto
    · refine ⟨hholds.resetToAutoBuf hauto, (nsVoidArray.isAuto_resetToAutoBuf b).trans hb, ?_⟩
      intro hne
      cases hm : b.impl with
      | none => exact absurd (hholds.of_null hm) hne
      | some m =>
        rw [nsVoidArray.resetToAutoBuf_eq hm]
        exact hplace hne
    · exact ⟨hholds, hb, hplace⟩
  unfold nsVoidArray.Compact
  split_ifs with hlt
  · rcases Nat.eq_zero_or_pos l.length with hzero | hpos
    · obtain ⟨b, ok, hb, hauto, hnil, -⟩ :=
        h.virtualSizeTo_nonpos (n := a.Count) memory (by omega)
      obtain rfl := List.eq_nil_of_length_eq_zero hzero
      exact ⟨_, by rw [hb]; rfl, hreset b hauto hnil (by simp) _ rfl⟩
    · obtain ⟨b, ok, hb, hres⟩ :=
        h.virtualSizeTo_large (n := a.Count) memory (by omega) (by omega)
          (h.allocatable.mono (by omega) (by omega))
      exact ⟨_, by rw [hb]; rfl, hreset b hres.isAuto_eq hres.holds (fun _ => hres.of_autoBuf) _ rfl⟩
  · exact ⟨_, rfl, hreset a rfl h (fun _ => id) _ rfl⟩

theorem Clear (h : Holds w a l) (memory : Bool) : ∃ b, a.Clear w memory = some b ∧ Holds w b [] := by
  unfold nsVoidArray.Clear
  simp only
  split_ifs
  · obtain ⟨b, ok, hb, -, hnil, -⟩ := 
      h.setCount_zero.virtualSizeTo_nonpos memory le_rfl
    exact ⟨b, by rw [hb]; rfl, hnil⟩
  · exact ⟨_, rfl, h.setCount_zero⟩

end Holds

end Kompozer.Ds

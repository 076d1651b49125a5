import Kompozer.Ds.VoidArrayElements

/-! Runs of calls on many arrays, and the same calls on lists. -/

namespace Kompozer.Ds

variable {α : Type} {w : PointerSize}

/-! ### Assignments -/

namespace nsVoidArray

variable {a : nsVoidArray α} {m m' : Impl α}

theorem autoBuf_withImpl : (a.withImpl m').mImpl = .autoBuf ↔ a.mImpl = .autoBuf := by
  cases ha : a.mImpl <;> simp [withImpl, ha]

end nsVoidArray

namespace Holds

variable {a b o : nsVoidArray α} {l ys : List α} {m : Impl α}

theorem GetArraySize_autoBuf (h : Holds w a l) (ha : a.mImpl = .autoBuf) :
    a.GetArraySize = kAutoBufSize := by
  rw [← h.auto_size, nsVoidArray.GetArraySize, nsVoidArray.impl, ha]
  rfl

/-- The first buffer of another array is copied over one that is not in use. -/
theorem withAutoBuf (hb : Holds w b l) (ho : Holds w o ys) (hplace : b.mImpl ≠ .autoBuf) :
    Holds w { b with mAutoBuf := o.mAutoBuf } l := by
  have himpl : nsVoidArray.impl { b with mAutoBuf := o.mAutoBuf } = b.impl := by
    cases hm : b.mImpl <;> simp [nsVoidArray.impl, hm] at hplace ⊢
  exact ⟨ho.auto_size, ho.auto_owner, ho.auto_block, fun hnone => hb.of_null (himpl ▸ hnone),
    fun m hm => hb.of_impl m (himpl ▸ hm), hb.of_heap, hb.of_auto⟩

/-- The first buffers of both arrays are in use. -/
theorem withAutoBufs (hb : Holds w b l) (ho : Holds w o ys) (hplace : b.mImpl = .autoBuf)
    (hother : o.mImpl = .autoBuf) : Holds w { b with mAutoBuf := o.mAutoBuf } ys := by
  have himpl : nsVoidArray.impl { b with mAutoBuf := o.mAutoBuf } = o.impl := by
    simp [nsVoidArray.impl, hplace, hother]
  exact ⟨ho.auto_size, ho.auto_owner, ho.auto_block, fun hnone => ho.of_null (himpl ▸ hnone),
    fun m hm => ho.of_impl m (himpl ▸ hm), hb.of_heap, hb.of_auto⟩

theorem memcpy (h : Holds w a l) (ho : Holds w o ys) (hm : a.impl = some m)
    (hle : ys.length ≤ m.mArray.size) (hne : ys ≠ []) :
    ∃ m', a.memcpy o ys.length = some (a.withImpl m') ∧ Holds w (a.withImpl m') ys := by
  cases hom : o.impl with
  | none => exact absurd (ho.of_null hom) hne
  | some om =>
    have hobuf := ho.of_impl om hom
    have hcopy : copyAt m.mArray om.mArray ys.length =
        some (m.mArray.copied om.mArray ys.length) := by
      rw [copyAt, if_pos (by omega), Int.toNat_natCast]
      exact Block.copy_of_le hle hobuf.length_le
    refine ⟨{ m with mArray := m.mArray.copied om.mArray ys.length, mCount := ys.length }, ?_,
      h.write hm rfl hobuf.starts.copied rfl hle⟩
    simp [nsVoidArray.memcpy, hm, hom, hcopy]

/-- What an assignment leaves. -/
structure Assigned (w : PointerSize) (a : nsVoidArray α) (l ys : List α) (memory : Bool)
    (b : nsVoidArray α) : Prop where
  holds : Holds w b ys ∨ memory = false ∧ Holds w b l
  of_autoBuf : b.mImpl = .autoBuf →
    a.mImpl = .autoBuf ∧ ys ≠ [] ∧ (ys.length ≤ a.GetArraySize ∨ memory = false)

variable [Zero α]

theorem assign (h : Holds w a l) (memory : Bool) (ho : Holds w o ys)
    (hroom : ys.length ≤ a.GetArraySize ∨
      CanGrow w a.GetArraySize (ys.length - a.GetArraySize)) :
    ∃ b, a.assign w memory o = some b ∧ Assigned w a l ys memory b := by
  have hsize := h.allocatable.1
  unfold nsVoidArray.assign
  simp only [ho.Count_eq]
  by_cases hempty : ys = []
  · subst hempty
    exact ⟨_, if_neg (by simp), .inl h.null, by simp⟩
  have hpos : 0 < ys.length := List.length_pos_of_ne_nil hempty
  rw [if_pos (by omega)]
  by_cases hgrow : a.GetArraySize < ys.length
  · rw [if_pos hgrow]
    obtain ⟨b, ok, hb, hres⟩ := h.GrowArrayBy memory (hroom.resolve_left (by omega))
    rw [hb]
    cases ok with
    | false =>
      obtain ⟨hmem, rfl⟩ := hres.of_not_ok rfl
      exact ⟨b, rfl, .inr ⟨hmem, h⟩, fun hplace => ⟨hplace, hempty, .inr hmem⟩⟩
    | true =>
      obtain ⟨hlarge, m, hm⟩ := hres.of_ok rfl
      have hfits := hlarge
      rw [nsVoidArray.GetArraySize_eq hm, (hres.holds.of_impl m hm).size_eq] at hfits
      obtain ⟨m', hcopy, hholds⟩ := hres.holds.memcpy ho hm (by omega) hempty
      refine ⟨_, hcopy, .inl hholds, fun hplace => ?_⟩
      -- the array has left its first buffer
      have hauto := nsVoidArray.autoBuf_withImpl.mp hplace
      have := hres.holds.GetArraySize_autoBuf hauto
      have := h.GetArraySize_autoBuf (hres.of_autoBuf hauto)
      omega
  · rw [if_neg hgrow]
    obtain ⟨m, hm⟩ := nsVoidArray.exists_impl (a := a) (by omega)
    have hfits := hgrow
    rw [nsVoidArray.GetArraySize_eq hm, (h.of_impl m hm).size_eq] at hfits
    obtain ⟨m', hcopy, hholds⟩ := h.memcpy ho hm (by omega) hempty
    have hkept : (a.withImpl m').mImpl = .autoBuf →
        a.mImpl = .autoBuf ∧ ys ≠ [] ∧ (ys.length ≤ a.GetArraySize ∨ memory = false) :=
      fun hplace => ⟨nsVoidArray.autoBuf_withImpl.mp hplace, hempty, .inl (by omega)⟩
    simp only [hcopy, Option.bind_eq_bind, Option.bind_some]
    split_ifs
    · obtain ⟨b, hb, hcompact, -, hplace⟩ := hholds.Compact memory
      exact ⟨b, hb, .inl hcompact, fun hauto => hkept (hplace hempty hauto)⟩
    · exact ⟨_, rfl, .inl hholds, hkept⟩

/-- The first buffer is in use on both sides, or not on the side that it is copied to. -/
theorem assignAuto (h : Holds w a l) (memory : Bool) {other : Option (nsVoidArray α)}
    (hother : ∀ o, other = some o → Holds w o ys ∧ (a.mImpl = .autoBuf → o.mImpl = .autoBuf ∨
      ys = [] ∨ a.GetArraySize < ys.length ∧ memory = true))
    (hself : other = none → ys = l)
    (hroom : ys.length ≤ a.GetArraySize ∨
      CanGrow w a.GetArraySize (ys.length - a.GetArraySize)) :
    ∃ b, a.assignAuto w memory other = some b ∧
      (Holds w b ys ∨ memory = false ∧ Holds w b l) := by
  cases other with
  | none =>
    obtain rfl := hself rfl
    obtain ⟨b, hb, hassigned⟩ := h.assign memory h hroom
    exact ⟨b, hb, hassigned.holds⟩
  | some o =>
    obtain ⟨ho, hplace⟩ := hother o rfl
    obtain ⟨b, hb, hassigned⟩ := h.assign memory ho hroom
    refine ⟨{ b with mAutoBuf := o.mAutoBuf }, by simp [nsVoidArray.assignAuto, hb], ?_⟩
    by_cases hauto : b.mImpl = .autoBuf
    · obtain ⟨ha, hne, hfits⟩ := hassigned.of_autoBuf hauto
      have hoauto : o.mImpl = .autoBuf := by
        rcases hplace ha with hoauto | hnil | ⟨hlt, hmem⟩
        · exact hoauto
        · exact absurd hnil hne
        · rcases hfits with hle | hnone
          · omega
          · simp [hmem] at hnone
      rcases hassigned.holds with hholds | ⟨-, hholds⟩ <;>
        exact .inl (hholds.withAutoBufs ho hauto hoauto)
    · rcases hassigned.holds with hholds | ⟨hmem, hholds⟩
      · exact .inl (hholds.withAutoBuf ho hauto)
      · exact .inr ⟨hmem, hholds.withAutoBuf ho hauto⟩

end Holds

/-! ### The same calls on lists -/

variable [Zero α] {ι : Type} [DecidableEq ι]

/-- What a call makes of its list, and its answer if it has one. -/
def callList (l : ι → List α) (i : ι) : VoidOp ι α → List α × Option Bool
  | .InsertElementAt x k => (Lists.InsertElementsAt (l i) [x] k.1).map id some
  | .InsertElementsAt j k => (Lists.InsertElementsAt (l i) (l j) k.1).map id some
  | .ReplaceElementAt x k => (Lists.ReplaceElementAt (l i) x k.1).map id some
  | .MoveElement k n => (Lists.MoveElement (l i) k.1 n.1).map id some
  | .RemoveElementsAt k n => (Lists.RemoveElementsAt (l i) k.1 n.1).map id some
  | .SizeTo n => (Lists.SizeTo (l i) n.1).map id some
  | .Compact => (l i, none)
  | .Clear => ([], none)
  | .assign j => (l j, none)
  | .assignAuto j => (l j, none)

/-- The calls on the lists. Without memory a call may fail, and it changes nothing then. -/
inductive RunList : (ι → List α) → List (ι × VoidOp ι α × Bool) → List (Option Bool) →
    (ι → List α) → Prop
  | done (l : ι → List α) : RunList l [] [] l
  | call {l l' : ι → List α} {i : ι} {op : VoidOp ι α} {memory : Bool}
      {ops : List (ι × VoidOp ι α × Bool)} {answers : List (Option Bool)}
      (h : RunList (Function.update l i (callList l i op).1) ops answers l') :
      RunList l ((i, op, memory) :: ops) ((callList l i op).2 :: answers) l'
  | fail {l l' : ι → List α} {i : ι} {op : VoidOp ι α} {answer : Option Bool}
      {ops : List (ι × VoidOp ι α × Bool)} {answers : List (Option Bool)}
      (hanswer : answer ≠ some true) (h : RunList l ops answers l') :
      RunList l ((i, op, false) :: ops) (answer :: answers) l'

/-! ### The calls that go right -/

/-- The sums do not leave their types, the counts and places are not negative, the first buffer of
an array is not asked for less room than it holds, and an array is not inserted into itself between
its elements. -/
def CanCall (w : PointerSize) (s : ι → nsVoidArray α) (memory : Bool) (i : ι) : VoidOp ι α → Prop
  | .InsertElementAt _ k => 0 ≤ k.1 → k.1 ≤ (s i).Count →
    (s i).Count < (s i).GetArraySize ∨ CanGrow w (s i).GetArraySize 1
  | .InsertElementsAt j k => 0 ≤ k.1 → k.1 ≤ (s i).Count →
    ((s i).Count + (s j).Count ≤ (s i).GetArraySize ∨
      CanGrow w (s i).GetArraySize (s j).Count) ∧ (j = i → k.1 = 0 ∨ k.1 = (s i).Count)
  | .ReplaceElementAt _ k => 0 ≤ k.1 → k.1 < (s i).GetArraySize ∨
    CanGrow w (s i).GetArraySize (k.1 + 1 - (s i).Count)
  | .MoveElement k n => n.1 = k.1 ∨ (s i).Count ≤ k.1 ∨ (s i).Count ≤ n.1 ∨ 0 ≤ k.1 ∧ 0 ≤ n.1
  | .RemoveElementsAt k n => 0 ≤ k.1 → k.1 < (s i).Count → 0 ≤ n.1 ∧ n.1 + k.1 < 2 ^ 31
  | .SizeTo n => n.1 ≤ 0 ∨ n.1 = (s i).GetArraySize ∨
    (s i).IsArrayOwner = true ∧ n.1 < (s i).Count ∨ (s i).Count ≤ n.1 ∧ Allocatable w n.1
  | .Compact => True
  | .Clear => True
  | .assign j => (s j).Count ≤ (s i).GetArraySize ∨
    CanGrow w (s i).GetArraySize ((s j).Count - (s i).GetArraySize)
  | .assignAuto j => ((s j).Count ≤ (s i).GetArraySize ∨
      CanGrow w (s i).GetArraySize ((s j).Count - (s i).GetArraySize)) ∧
    (j ≠ i → (s i).mImpl.isAutoBuf = true → (s j).mImpl.isAutoBuf = true ∨ (s j).Count = 0 ∨
      (s i).GetArraySize < (s j).Count ∧ memory = true)

/-- Every call goes right in the state in which it is made. -/
def CanRun (w : PointerSize) (s : ι → nsVoidArray α) : List (ι × VoidOp ι α × Bool) → Prop
  | [] => True
  | (i, op, memory) :: ops => CanCall w s memory i op ∧
    ∀ b ∈ callVoid w s memory i op, CanRun w (Function.update s i b.1) ops

instance (w : PointerSize) (s : ι → nsVoidArray α) (memory : Bool) (i : ι) (op : VoidOp ι α) :
    Decidable (CanCall w s memory i op) := by
  cases op <;> unfold CanCall <;> infer_instance

instance CanRun.decidable (w : PointerSize) :
    (s : ι → nsVoidArray α) → (ops : List (ι × VoidOp ι α × Bool)) → Decidable (CanRun w s ops)
  | _, [] => isTrue trivial
  | s, (i, op, memory) :: ops =>
    have : ∀ b, Decidable (CanRun w (Function.update s i b) ops) := fun _ => decidable _ _ _
    inferInstanceAs (Decidable (_ ∧ ∀ b ∈ callVoid w s memory i op, _))

/-- The effect of a call on the list of its array. -/
def Called (w : PointerSize) (memory : Bool) (l : List α) (effect : List α × Option Bool)
    (call : Option (nsVoidArray α × Option Bool)) : Prop :=
  ∃ b answer, call = some (b, answer) ∧ (Holds w b effect.1 ∧ answer = effect.2 ∨
    memory = false ∧ answer ≠ some true ∧ Holds w b l)

omit [Zero α] in
theorem Does.called {memory : Bool} {l : List α} {effect : List α × Bool}
    {call : Option (nsVoidArray α × Bool)} (h : Does w memory l effect call) :
    Called w memory l (effect.map id some) (call.map (Prod.map id some)) := by
  obtain ⟨b, ok, rfl, ⟨hholds, rfl⟩ | ⟨hmem, rfl, hholds⟩⟩ := h
  · exact ⟨b, _, rfl, .inl ⟨hholds, rfl⟩⟩
  · exact ⟨b, _, rfl, .inr ⟨hmem, by simp, hholds⟩⟩

omit [Zero α] in
theorem called_none {memory : Bool} {l l' : List α} {call : Option (nsVoidArray α)}
    (h : ∃ b, call = some b ∧ (Holds w b l' ∨ memory = false ∧ Holds w b l)) :
    Called w memory l (l', none) (call.map (·, none)) := by
  obtain ⟨b, rfl, hholds | ⟨hmem, hholds⟩⟩ := h
  · exact ⟨b, none, rfl, .inl ⟨hholds, rfl⟩⟩
  · exact ⟨b, none, rfl, .inr ⟨hmem, by simp, hholds⟩⟩

omit [Zero α] in
theorem isAutoBuf_iff {p : Place α} : p.isAutoBuf = true ↔ p = .autoBuf := by
  cases p <;> simp [Place.isAutoBuf]

variable {s : ι → nsVoidArray α} {l : ι → List α} {memory : Bool} {i : ι}

omit [Zero α] in
theorem another_eq_some {j : ι} {o : nsVoidArray α} (h : another s i j = some o) :
    j ≠ i ∧ o = s j := by
  unfold another at h
  split_ifs at h with hji
  exact ⟨hji, (Option.some.inj h).symm⟩

omit [Zero α] in
theorem another_eq_none {j : ι} (h : another s i j = none) : j = i := by
  unfold another at h
  split_ifs at h with hji
  exact hji

/-- What one call does. -/
theorem callVoid_called (hs : ∀ k, Holds w (s k) (l k)) {op : VoidOp ι α}
    (hcan : CanCall w s memory i op) :
    Called w memory (l i) (callList l i op) (callVoid w s memory i op) := by
  have hcount := fun k => (hs k).Count_eq
  cases op with
  | InsertElementAt x k =>
    simp only [CanCall, hcount] at hcan
    exact ((hs i).InsertElementAt memory x k.2 hcan).called
  | InsertElementsAt j k =>
    simp only [CanCall, hcount] at hcan
    refine ((hs i).InsertElementsAt memory (fun o ho => ?_) (fun hnone => ?_) k.2
      fun hpos hle => (hcan hpos hle).1).called
    · obtain ⟨-, rfl⟩ := another_eq_some ho
      exact hs j
    · obtain rfl := another_eq_none hnone
      refine ⟨rfl, ?_⟩
      by_cases hvalid : 0 ≤ k.1 ∧ k.1 ≤ (l j).length
      · have := (hcan hvalid.1 hvalid.2).2 rfl
        omega
      · omega
  | ReplaceElementAt x k =>
    simp only [CanCall, hcount] at hcan
    exact ((hs i).ReplaceElementAt memory x k.2 hcan).called
  | MoveElement k n =>
    simp only [CanCall, hcount] at hcan
    exact ((hs i).MoveElement memory hcan).called
  | RemoveElementsAt k n =>
    simp only [CanCall, hcount] at hcan
    exact ((hs i).RemoveElementsAt memory k.2 hcan).called
  | SizeTo n =>
    simp only [CanCall, hcount] at hcan
    exact ((hs i).SizeTo memory hcan).called
  | Compact =>
    obtain ⟨b, hb, hholds, -⟩ := (hs i).Compact memory
    exact called_none ⟨b, hb, .inl hholds⟩
  | Clear =>
    obtain ⟨b, hb, hholds⟩ := (hs i).Clear memory
    exact called_none ⟨b, hb, .inl hholds⟩
  | assign j =>
    simp only [CanCall, hcount] at hcan
    obtain ⟨b, hb, hassigned⟩ := (hs i).assign memory (hs j) hcan
    exact called_none ⟨b, hb, hassigned.holds⟩
  | assignAuto j =>
    simp only [CanCall, hcount] at hcan
    refine called_none ((hs i).assignAuto memory (fun o ho => ?_) (fun hnone => ?_) hcan.1)
    · obtain ⟨hji, rfl⟩ := another_eq_some ho
      refine ⟨hs j, fun hplace => ?_⟩
      have hother := hcan.2 hji (isAutoBuf_iff.mpr hplace)
      rwa [isAutoBuf_iff, Nat.cast_eq_zero, List.length_eq_zero_iff] at hother
    · rw [another_eq_none hnone]

/-- The arrays hold the lists that the calls on lists come to. -/
theorem runVoid_holds (hs : ∀ k, Holds w (s k) (l k)) {ops : List (ι × VoidOp ι α × Bool)}
    (hcan : CanRun w s ops) :
    ∃ s' answers l', runVoid w s ops = some (s', answers) ∧ (∀ k, Holds w (s' k) (l' k)) ∧
      RunList l ops answers l' := by
  induction ops generalizing s l with
  | nil => exact ⟨s, [], l, rfl, hs, .done l⟩
  | cons call ops ih =>
    obtain ⟨i, op, memory⟩ := call
    obtain ⟨hcall, hrest⟩ := hcan
    obtain ⟨b, answer, hb, heffect⟩ := callVoid_called hs hcall
    have hupdate : ∀ l', Holds w b l' →
        ∀ k, Holds w (Function.update s i b k) (Function.update l i l' k) := by
      intro l' hl' k
      rcases eq_or_ne k i with rfl | hk
      · simpa using hl'
      · simpa [hk] using hs k
    rcases heffect with ⟨hholds, rfl⟩ | ⟨rfl, hanswer, hholds⟩
    · obtain ⟨s', answers, l', hrun, hs', hlist⟩ := ih (hupdate _ hholds) (hrest _ hb)
      exact ⟨s', _, l', by simp [runVoid, hb, hrun], hs', .call hlist⟩
    · obtain ⟨s', answers, l', hrun, hs', hlist⟩ := ih (hupdate _ hholds) (hrest _ hb)
      rw [Function.update_eq_self] at hlist
      exact ⟨s', _, l', by simp [runVoid, hb, hrun], hs', .fail hanswer hlist⟩

/-- The count is within the capacity, and the capacity within the buffer. -/
def Within (a : nsVoidArray α) : Prop :=
  0 ≤ a.Count ∧ a.Count ≤ a.GetArraySize ∧ ∀ m, a.impl = some m → m.size = m.mArray.size

/-- Runs whose calls all go right do to the arrays what the calls do to lists. -/
theorem runVoid_runList (w : PointerSize) (isAuto : ι → Bool) (ops : List (ι × VoidOp ι α × Bool))
    (hcan : CanRun w (fun i => nsVoidArray.new (isAuto i)) ops) :
    ∃ s answers, runVoid w (fun i => nsVoidArray.new (isAuto i)) ops = some (s, answers) ∧
      RunList (fun _ => []) ops answers (fun i => (s i).contents) ∧ ∀ i, Within (s i) := by
  obtain ⟨s, answers, l, hrun, hs, hlist⟩ :=
    runVoid_holds (l := fun _ => []) (fun i => Holds.new w (isAuto i)) hcan
  refine ⟨s, answers, hrun, ?_, fun i => ⟨?_, ?_, fun m hm => ((hs i).of_impl m hm).size_eq⟩⟩
  · rwa [funext fun i => (hs i).contents_eq]
  · rw [(hs i).Count_eq]
    omega
  · rw [(hs i).Count_eq]
    exact (hs i).length_le

/-- Two arrays, the second with a first buffer. -/
def sampleCalls : List (Bool × VoidOp Bool ℕ × Bool) :=
  [(true, .InsertElementAt 6 ⟨0, by omega⟩, true), (true, .ReplaceElementAt 8 ⟨10, by omega⟩, true),
    (false, .assign true, true), (true, .RemoveElementsAt ⟨0, by omega⟩ ⟨10, by omega⟩, true),
    (false, .InsertElementsAt true ⟨1, by omega⟩, true), (true, .Compact, false),
    (false, .MoveElement ⟨0, by omega⟩ ⟨2, by omega⟩, true), (true, .SizeTo ⟨20, by omega⟩, false)]

theorem runVoid_runList_sample :
    CanRun .bits64 (fun i => nsVoidArray.new i) sampleCalls ∧
    ∃ s answers, runVoid .bits64 (fun i => nsVoidArray.new i) sampleCalls = some (s, answers) ∧
      RunList (fun _ => []) sampleCalls answers (fun i => (s i).contents) ∧ ∀ i, Within (s i) :=
  have hcan : CanRun .bits64 (fun i => nsVoidArray.new i) sampleCalls := by decide +kernel
  ⟨hcan, runVoid_runList .bits64 id sampleCalls hcan⟩

/-- Five elements in the first buffer of an array, and then a size of three. -/
def shrinkCalls : List (Unit × VoidOp Unit ℕ × Bool) :=
  List.replicate 5 ((), .InsertElementAt 2 ⟨0, by omega⟩, true) ++ [((), .SizeTo ⟨3, by omega⟩, true)]

/-- The elements are copied over the end of a buffer for three. -/
theorem not_runVoid_shrink :
    ¬ ∃ s answers, runVoid .bits64 (fun _ => nsVoidArray.new true) shrinkCalls = some (s, answers) ∧
      RunList (fun _ => []) shrinkCalls answers (fun i => (s i).contents) ∧ ∀ i, Within (s i) := by
  rintro ⟨s, answers, hrun, -⟩
  have hnone : (runVoid .bits64 (fun _ => nsVoidArray.new true) shrinkCalls).isNone = true := by
    decide +kernel
  simp [hrun] at hnone

end Kompozer.Ds

import Kompozer.Cache.BlockFile
import Mathlib.Data.List.Pairwise

/-! A block file over a whole run: the groups that are allocated are disjoint, they are the
bits of the map, and no byte outside the map is touched unless blocks are asked for when the
map is full. -/

namespace Kompozer.Cache

open NsResult

/-! ### Groups of blocks -/

namespace Group

/-- The blocks of a group. -/
def Has (g : Group) (k : ℕ) : Prop := g.startBlock ≤ k ∧ k < g.startBlock + g.numBlocks

instance (g : Group) (k : ℕ) : Decidable (g.Has k) := inferInstanceAs (Decidable (_ ∧ _))

/-- Up to four blocks of one quad in the map. -/
def Valid (g : Group) : Prop :=
  1 ≤ g.numBlocks ∧ g.startBlock % 4 + g.numBlocks ≤ 4 ∧ g.startBlock < kBitMapBytes * 8

/-- No block of a group is allocated. -/
def Unused (m : ℕ → UInt8) (g : Group) : Prop := ∀ k, g.Has k → bit m k = false

variable {g : Group} {k : ℕ} {m : ℕ → UInt8}

/-- A group lies in one byte. -/
theorem Valid.byte (h : g.Valid) (hk : g.Has k) :
    k / 8 = g.startBlock / 8 ∧ k % 8 = g.startBlock % 8 + (k - g.startBlock) := by
  obtain ⟨-, hquad, -⟩ := h
  obtain ⟨h₁, h₂⟩ := hk
  omega

/-- A group lies in the map. -/
theorem Valid.lt (hg : g.Valid) (hk : g.Has k) :
    k < kBitMapBytes * 8 := by
  obtain ⟨-, hquad, hlt⟩ := hg
  obtain ⟨h₁, h₂⟩ := hk
  have hbytes : kBitMapBytes * 8 % 4 = 0 := by decide
  omega

/-- The blocks of a group are bits of its byte. -/
theorem Valid.unused_iff (h : g.Valid) :
    g.Unused m ↔ Clear (m (g.startBlock / 8)) g.numBlocks (g.startBlock % 8) := by
  constructor
  · intro hu k hk h₁ h₂
    have hhas : g.Has (g.startBlock / 8 * 8 + k) := by
      constructor <;> omega
    have hbit := hu _ hhas
    rw [bit] at hbit
    have hdiv : (g.startBlock / 8 * 8 + k) / 8 = g.startBlock / 8 := by omega
    have hmod : (g.startBlock / 8 * 8 + k) % 8 = k := by omega
    rwa [hdiv, hmod] at hbit
  · intro hc k hk
    obtain ⟨hdiv, hmod⟩ := h.byte hk
    rw [bit, hdiv]
    obtain ⟨h₁, h₂⟩ := hk
    exact hc _ (by omega) (by omega) (by omega)

end Group

/-- The bits of a map whose byte gets some bits set or cleared. -/
theorem bit_update {m : ℕ → UInt8} {g : Group} {b : UInt8} (hg : g.Valid) {k : ℕ}
    {new : Bool}
    (hbits : ∀ i < 8, b.toNat.testBit i = if g.startBlock % 8 ≤ i ∧ i < g.startBlock % 8 +
      g.numBlocks then new else (m (g.startBlock / 8)).toNat.testBit i) :
    bit (Function.update m (g.startBlock / 8) b) k = if g.Has k then new else bit m k := by
  by_cases hbyte : k / 8 = g.startBlock / 8
  · have hhas : g.Has k ↔ g.startBlock % 8 ≤ k % 8 ∧
        k % 8 < g.startBlock % 8 + g.numBlocks := by
      unfold Group.Has
      omega
    rw [bit, hbyte, Function.update_self, hbits _ (by omega), bit, hbyte]
    simp only [hhas]
  · have hhas : ¬ g.Has k := fun hk => hbyte (hg.byte hk).1
    rw [bit, Function.update_of_ne hbyte, if_neg hhas, bit]

namespace BlockFile

variable {f : BlockFile}

/-- The group that is set. -/
theorem bit_setBits {g : Group} (hg : g.Valid) (k : ℕ) :
    bit (f.setBits (g.startBlock / 8) (mask g.numBlocks (g.startBlock % 8))).mBitMap k =
      (decide (g.Has k) || bit f.mBitMap k) := by
  have hn : g.numBlocks < 5 := by
    obtain ⟨-, hquad, -⟩ := hg
    omega
  have hupdate := @bit_update f.mBitMap g (f.mBitMap (g.startBlock / 8) |||
    mask g.numBlocks (g.startBlock % 8)) hg k true
  rw [setBits, hupdate]
  · by_cases hk : g.Has k <;> simp [hk]
  · intro i hi
    rw [UInt8.toNat_or, Nat.testBit_or, testBit_mask _ hn _ (by omega) i hi]
    split_ifs with h <;> simp [h]

/-! ### One call -/

/-- The block and the byte that are found make a group. -/
theorem AllocateBlocks_some {numBlocks : ℤ} (hfd : f.mFD = true) (hn : 1 ≤ numBlocks)
    (hn' : numBlocks ≤ 4) {a j : ℕ} (h : (f.findBlocks numBlocks).1 = some (a, j)) :
    ∃ g : Group, g.Valid ∧ (g.numBlocks : ℤ) = numBlocks ∧ g.Unused f.mBitMap ∧
      (f.AllocateBlocks numBlocks).1 = g.startBlock ∧
      (f.AllocateBlocks numBlocks).2.1 =
        f.setBits (g.startBlock / 8) (mask g.numBlocks (g.startBlock % 8)) := by
  obtain ⟨ha, hj, hquad, hclear⟩ := findBlocks_some hn hn' h
  have hdiv : (a * 8 + j) / 8 = a := by omega
  have hmod : (a * 8 + j) % 8 = j := by omega
  have hvalid : Group.Valid ⟨a * 8 + j, numBlocks.toNat⟩ := by
    refine ⟨?_, ?_, ?_⟩ <;> dsimp only <;> omega
  refine ⟨⟨a * 8 + j, numBlocks.toNat⟩, hvalid, by dsimp only; omega, ?_, ?_, ?_⟩
  · rw [hvalid.unused_iff]
    dsimp only
    rwa [hdiv, hmod]
  · rcases hf : f.findBlocks numBlocks with ⟨o, read⟩
    rw [hf] at h
    obtain rfl : o = some (a, j) := h
    simp [AllocateBlocks, hfd, hf]
  · rcases hf : f.findBlocks numBlocks with ⟨o, read⟩
    rw [hf] at h
    obtain rfl : o = some (a, j) := h
    simp [AllocateBlocks, hfd, hf, hdiv, hmod]

theorem AllocateBlocks_none {numBlocks : ℤ} (hn : 1 ≤ numBlocks) (hn' : numBlocks ≤ 4)
    (h : (f.findBlocks numBlocks).1 = none) :
    (f.AllocateBlocks numBlocks).1 = -1 ∧ (f.AllocateBlocks numBlocks).2.1 = f ∧
      ∀ g : Group, g.Valid → (g.numBlocks : ℤ) = numBlocks → ¬ g.Unused f.mBitMap := by
  have hresult : (f.AllocateBlocks numBlocks).1 = -1 ∧ (f.AllocateBlocks numBlocks).2.1 = f := by
    rcases hf : f.findBlocks numBlocks with ⟨o, read⟩
    rw [hf] at h
    obtain rfl : o = none := h
    rw [AllocateBlocks, hf]
    split_ifs <;> exact ⟨rfl, rfl⟩
  refine ⟨hresult.1, hresult.2, fun g hg hnum hu => ?_⟩
  rw [hg.unused_iff] at hu
  obtain ⟨h₁, hquad, hlt⟩ := hg
  have hnum' : g.numBlocks = numBlocks.toNat := by omega
  rw [hnum'] at hu hquad
  exact findBlocks_none hn hn' h (by omega) (by omega) (by omega) hu

/-- The bytes that `AllocateBlocks` touches. -/
theorem AllocateBlocks_touched_iff {numBlocks : ℤ} (hfd : f.mFD = true) (hn : 1 ≤ numBlocks)
    (hn' : numBlocks ≤ 4) :
    (∀ x ∈ (f.AllocateBlocks numBlocks).2.2, x < kBitMapBytes) ↔ HasFree f.mBitMap := by
  rw [← @findBlocks_read_iff f numBlocks]
  rcases hf : f.findBlocks numBlocks with ⟨_ | ⟨a, j⟩, read⟩
  · simp [AllocateBlocks, hfd, hf]
  · have ha := (@findBlocks_some f numBlocks a j hn hn' (by rw [hf])).1
    simp only [AllocateBlocks, hfd, hf, Bool.not_true, Bool.false_eq_true, if_false,
      List.mem_append, List.mem_singleton]
    constructor
    · exact fun h x hx => h x (.inl hx)
    · rintro h x (hx | rfl)
      · exact h x hx
      · exact ha

/-- The bits of a group that is given back. -/
theorem and_mask_eq_zero {b : UInt8} {n j : ℕ} (hn : n < 5) (hj : j < 8) :
    ~~~b &&& mask n j = 0 ↔ ∀ k < 8, j ≤ k → k < j + n → b.toNat.testBit k = true := by
  constructor
  · intro h k hk h₁ h₂
    have hbit := congrArg (fun a : UInt8 => a.toNat.testBit k) h
    simp only [UInt8.toNat_and, Nat.testBit_and, testBit_mask n hn j hj k hk, testBit_not hk] at hbit
    simpa [h₁, h₂] using hbit
  · intro h
    apply eq_of_testBit
    intro k hk
    simp only [UInt8.toNat_and, Nat.testBit_and, testBit_mask n hn j hj k hk, testBit_not hk]
    by_cases hkn : j ≤ k ∧ k < j + n
    · simp [hkn, h k hk hkn.1 hkn.2]
    · simp [hkn]

/-- `DeallocateBlocks` on the group of a run. -/
theorem DeallocateBlocks_eq {g : Group} (hfd : f.mFD = true) (hg : g.Valid) :
    f.DeallocateBlocks g.startBlock g.numBlocks =
      if ~~~f.mBitMap (g.startBlock / 8) &&& mask g.numBlocks (g.startBlock % 8) ≠ 0 then
        (NS_ERROR_ABORT, f, [g.startBlock / 8])
      else
        (.ok, { f with
          mBitMap := Function.update f.mBitMap (g.startBlock / 8)
            (f.mBitMap (g.startBlock / 8) ^^^ mask g.numBlocks (g.startBlock % 8))
          mBitMapDirty := true }, [g.startBlock / 8, g.startBlock / 8]) := by
  obtain ⟨h₁, hquad, hlt⟩ := hg
  have hrange : ¬ ((g.startBlock : ℤ) < 0 ∨ (kBitMapBytes : ℤ) * 8 - 1 < g.startBlock ∨
      (g.numBlocks : ℤ) < 1 ∨ 4 < (g.numBlocks : ℤ)) := by omega
  have hbyte : ((g.startBlock : ℤ) / 8).toNat = g.startBlock / 8 := by omega
  have hbit : ((g.startBlock : ℤ) % 8).toNat = g.startBlock % 8 := by omega
  have hspan : ¬ (((g.startBlock : ℤ) + g.numBlocks - 1) / 8 ≠ (g.startBlock / 8 : ℕ)) := by omega
  rw [DeallocateBlocks, if_neg (by simp [hfd]), if_neg hrange]
  simp only [hbyte, hbit, if_neg hspan, Int.toNat_natCast]

/-- The blocks of a group are all allocated. -/
theorem allocated_iff {g : Group} (hg : g.Valid) :
    ~~~f.mBitMap (g.startBlock / 8) &&& mask g.numBlocks (g.startBlock % 8) = 0 ↔
      ∀ k, g.Has k → bit f.mBitMap k = true := by
  have hn : g.numBlocks < 5 := by
    obtain ⟨-, hquad, -⟩ := hg
    omega
  rw [and_mask_eq_zero hn (by omega)]
  constructor
  · intro h k hk
    obtain ⟨hdiv, hmod⟩ := hg.byte hk
    obtain ⟨h₁, h₂⟩ := hk
    rw [bit, hdiv]
    exact h _ (by omega) (by omega) (by omega)
  · intro h k hk h₁ h₂
    have hbit := h (g.startBlock / 8 * 8 + k) ⟨by omega, by omega⟩
    have hdiv : (g.startBlock / 8 * 8 + k) / 8 = g.startBlock / 8 := by omega
    have hmod : (g.startBlock / 8 * 8 + k) % 8 = k := by omega
    rwa [bit, hdiv, hmod] at hbit

/-- The bits of a group are flipped off. -/
theorem bit_flip {g : Group} (hg : g.Valid) (hall : ∀ k, g.Has k → bit f.mBitMap k = true) (k : ℕ) :
    bit (Function.update f.mBitMap (g.startBlock / 8)
      (f.mBitMap (g.startBlock / 8) ^^^ mask g.numBlocks (g.startBlock % 8))) k =
        (!decide (g.Has k) && bit f.mBitMap k) := by
  have hn : g.numBlocks < 5 := by
    obtain ⟨-, hquad, -⟩ := hg
    omega
  have hset := (and_mask_eq_zero hn (by omega)).mp ((allocated_iff hg).mpr hall)
  have hupdate := @bit_update f.mBitMap g (f.mBitMap (g.startBlock / 8) ^^^
    mask g.numBlocks (g.startBlock % 8)) hg k false
  rw [hupdate]
  · by_cases hk : g.Has k <;> simp [hk]
  · intro i hi
    rw [UInt8.toNat_xor, Nat.testBit_xor, testBit_mask _ hn _ (by omega) i hi]
    by_cases h : g.startBlock % 8 ≤ i ∧ i < g.startBlock % 8 + g.numBlocks
    · simp [h, hset i hi h.1 h.2]
    · simp [h]

end BlockFile

/-! ### Runs -/

/-- A call of one of the two functions. -/
inductive Call
  | allocate (numBlocks : ℤ)
  | deallocate (g : Group)

/-- A block file, the groups that are allocated and those that have been returned. -/
structure Session where
  file : BlockFile
  allocated : List Group := []
  returned : List Group := []

namespace Session

variable (s : Session)

/-- An open file with an empty map. -/
def start : Session := { file := { mBitMap := fun _ => 0 } }

/-- A call, and what it means for the groups. -/
def step : Call → Session
  | .allocate numBlocks =>
    let r := s.file.AllocateBlocks numBlocks
    if 0 ≤ r.1 then
      { file := r.2.1
        allocated := ⟨r.1.toNat, numBlocks.toNat⟩ :: s.allocated
        returned := ⟨r.1.toNat, numBlocks.toNat⟩ :: s.returned }
    else { s with file := r.2.1 }
  | .deallocate g =>
    let r := s.file.DeallocateBlocks g.startBlock g.numBlocks
    if r.1 = .ok then { s with file := r.2.1, allocated := s.allocated.erase g }
    else { s with file := r.2.1 }

def run (s : Session) (calls : List Call) : Session := calls.foldl step s

/-- One to four blocks are asked for, and groups are given back that have been returned. -/
def Allows : Call → Prop
  | .allocate numBlocks => 1 ≤ numBlocks ∧ numBlocks ≤ 4
  | .deallocate g => g ∈ s.returned

/-- Blocks are asked for when the map is not full, and a group that is given back is
allocated, or is refused because of a free block. -/
def Meets : Call → Prop
  | .allocate _ => HasFree s.file.mBitMap
  | .deallocate g => g ∈ s.allocated ∨ ∃ k, g.Has k ∧ bit s.file.mBitMap k = false

/-- The bytes that a call touches. -/
def touched : Call → List ℕ
  | .allocate numBlocks => (s.file.AllocateBlocks numBlocks).2.2
  | .deallocate g => (s.file.DeallocateBlocks g.startBlock g.numBlocks).2.2

/-- The groups that are allocated are disjoint groups of the map, and their blocks are the bits
that are set. -/
structure Tracks : Prop where
  open_file : s.file.mFD = true
  valid : ∀ g ∈ s.returned, g.Valid
  returned : ∀ g ∈ s.allocated, g ∈ s.returned
  disjoint : s.allocated.Pairwise fun g g' => ∀ k, ¬ (g.Has k ∧ g'.Has k)
  bits : ∀ k < kBitMapBytes * 8, bit s.file.mBitMap k = true ↔ ∃ g ∈ s.allocated, g.Has k

/-- What a call does: the group that is returned is unused and lies in a quad, there is none
only if there is none of the length, a group that is allocated is freed and nothing else, and
no byte outside the map is touched. -/
structure Exact (c : Call) : Prop where
  touched : ∀ x ∈ s.touched c, x < kBitMapBytes
  some : ∀ n, c = .allocate n → (s.file.AllocateBlocks n).1 ≠ -1 →
    ∃ g : Group, g.Valid ∧ (g.startBlock : ℤ) = (s.file.AllocateBlocks n).1 ∧
      (g.numBlocks : ℤ) = n ∧ (∀ g' ∈ s.allocated, ∀ k, ¬ (g.Has k ∧ g'.Has k)) ∧
      ∀ k, bit (s.step c).file.mBitMap k = (decide (g.Has k) || bit s.file.mBitMap k)
  none : ∀ n, c = .allocate n → ((s.file.AllocateBlocks n).1 = -1 ↔
    ∀ g : Group, g.Valid → (g.numBlocks : ℤ) = n → ¬ g.Unused s.file.mBitMap)
  freed : ∀ g, c = .deallocate g → g ∈ s.allocated →
    (s.file.DeallocateBlocks g.startBlock g.numBlocks).1 = .ok ∧
      ∀ k, bit (s.step c).file.mBitMap k = (!decide (g.Has k) && bit s.file.mBitMap k)

variable {s}

/-- An unused group has no block of an allocated one. -/
theorem Tracks.disjoint_of_unused (h : s.Tracks) {g : Group} (hg : g.Valid)
    (hu : g.Unused s.file.mBitMap) : ∀ g' ∈ s.allocated, ∀ k, ¬ (g.Has k ∧ g'.Has k) := by
  rintro g' hg' k ⟨hk, hk'⟩
  have hbit := (h.bits k (hg.lt hk)).mpr ⟨g', hg', hk'⟩
  rw [hu k hk] at hbit
  cases hbit

/-- A step that allocates. -/
theorem step_allocate {n : ℤ} (hfd : s.file.mFD = true) (hn : 1 ≤ n ∧ n ≤ 4) :
    (∃ g : Group, g.Valid ∧ (g.numBlocks : ℤ) = n ∧ g.Unused s.file.mBitMap ∧
      (s.file.AllocateBlocks n).1 = g.startBlock ∧ s.step (.allocate n) =
        { file := s.file.setBits (g.startBlock / 8) (mask g.numBlocks (g.startBlock % 8))
          allocated := g :: s.allocated, returned := g :: s.returned }) ∨
    ((s.file.AllocateBlocks n).1 = -1 ∧ s.step (.allocate n) = s ∧
      ∀ g : Group, g.Valid → (g.numBlocks : ℤ) = n → ¬ g.Unused s.file.mBitMap) := by
  cases hf : (s.file.findBlocks n).1 with
  | none =>
    obtain ⟨h₁, h₂, h₃⟩ := BlockFile.AllocateBlocks_none hn.1 hn.2 hf
    right
    refine ⟨h₁, ?_, h₃⟩
    simp [step, h₁, h₂]
  | some r =>
    obtain ⟨a, j⟩ := r
    obtain ⟨g, hg, hnum, hu, h₁, h₂⟩ := BlockFile.AllocateBlocks_some hfd hn.1 hn.2 hf
    left
    have hgroup : (⟨(g.startBlock : ℤ).toNat, n.toNat⟩ : Group) = g := by
      rw [← hnum]
      rfl
    refine ⟨g, hg, hnum, hu, h₁, ?_⟩
    simp only [step, h₁, h₂, hgroup]
    rw [if_pos (by omega)]

/-- A step that gives a group back. -/
theorem step_deallocate {g : Group} (hfd : s.file.mFD = true) (hg : g.Valid) :
    ((∀ k, g.Has k → bit s.file.mBitMap k = true) ∧
      (s.file.DeallocateBlocks g.startBlock g.numBlocks).1 = .ok ∧
      (s.step (.deallocate g)).file.mFD = true ∧
      (s.step (.deallocate g)).allocated = s.allocated.erase g ∧
      (s.step (.deallocate g)).returned = s.returned ∧
      ∀ k, bit (s.step (.deallocate g)).file.mBitMap k =
        (!decide (g.Has k) && bit s.file.mBitMap k)) ∨
    ((∃ k, g.Has k ∧ bit s.file.mBitMap k = false) ∧ s.step (.deallocate g) = s) := by
  have heq := BlockFile.DeallocateBlocks_eq hfd hg
  by_cases hall : ∀ k, g.Has k → bit s.file.mBitMap k = true
  · left
    rw [if_neg (not_not.mpr ((BlockFile.allocated_iff hg).mpr hall))] at heq
    have hbits := BlockFile.bit_flip hg hall
    refine ⟨hall, by rw [heq], ?_, ?_, ?_, fun k => ?_⟩
    · simpa [step, heq] using hfd
    · simp [step, heq]
    · simp [step, heq]
    · rw [← hbits k]
      simp [step, heq]
  · right
    rw [if_pos fun h => hall ((BlockFile.allocated_iff hg).mp h)] at heq
    simp only [not_forall, Bool.not_eq_true] at hall
    obtain ⟨k, hk, hbit⟩ := hall
    refine ⟨⟨k, hk, hbit⟩, ?_⟩
    simp [step, heq, NS_ERROR_ABORT]

/-- A group that is allocated has its bits set. -/
theorem Tracks.bits_of_mem (h : s.Tracks) {g : Group} (hg : g ∈ s.allocated) {k : ℕ}
    (hk : g.Has k) : bit s.file.mBitMap k = true :=
  (h.bits k ((h.valid g (h.returned g hg)).lt hk)).mpr ⟨g, hg, hk⟩

/-- Only one group has a block. -/
theorem Tracks.eq_of_has (h : s.Tracks) {g g' : Group} (hg : g ∈ s.allocated)
    (hg' : g' ∈ s.allocated) {k : ℕ} (hk : g.Has k) (hk' : g'.Has k) : g = g' := by
  by_contra hne
  have hsymm : Std.Symm fun g g' : Group => ∀ k, ¬ (g.Has k ∧ g'.Has k) :=
    ⟨fun a b hab k hk => hab k hk.symm⟩
  exact h.disjoint.forall hg hg' hne k ⟨hk, hk'⟩

/-- A group has a block. -/
theorem Tracks.nodup (h : s.Tracks) : s.allocated.Nodup := by
  refine h.disjoint.imp_of_mem fun {g g'} hg _ hdis heq => ?_
  subst heq
  have hg' := h.valid g (h.returned g hg)
  have hhas : g.Has g.startBlock := ⟨Nat.le_refl _, by have := hg'.1; omega⟩
  exact hdis _ ⟨hhas, hhas⟩

theorem tracks_start : start.Tracks where
  open_file := rfl
  valid := by simp [start]
  returned := by simp [start]
  disjoint := by simp [start]
  bits := by simp [start, bit]

/-- One call keeps the groups and the bits in step, if it meets the condition. -/
theorem Tracks.step (h : s.Tracks) {c : Call} (hallow : s.Allows c) (hmeets : s.Meets c) :
    (s.step c).Tracks := by
  cases c with
  | allocate n =>
    rcases step_allocate h.open_file hallow with ⟨g, hg, -, hu, -, hstep⟩ | ⟨-, hstep, -⟩
    · rw [hstep]
      refine ⟨h.open_file, ?_, ?_, List.pairwise_cons.mpr
        ⟨h.disjoint_of_unused hg hu, h.disjoint⟩, fun k hk => ?_⟩
      · simpa [hg] using h.valid
      · intro g' hg'
        rcases List.mem_cons.mp hg' with rfl | hg'
        · simp
        · exact List.mem_cons_of_mem _ (h.returned g' hg')
      · rw [BlockFile.bit_setBits hg]
        simp [h.bits k hk]
    · rw [hstep]
      exact h
  | deallocate g =>
    have hg := h.valid g hallow
    rcases step_deallocate h.open_file hg with ⟨hall, -, hfd, halloc, hret, hbits⟩ | ⟨-, hstep⟩
    swap
    · rw [hstep]
      exact h
    have hmem : g ∈ s.allocated := by
      rcases hmeets with hmem | ⟨k, hk, hbit⟩
      · exact hmem
      · rw [hall k hk] at hbit
        cases hbit
    refine ⟨hfd, ?_, ?_, ?_, fun k hk => ?_⟩
    · rw [hret]
      exact h.valid
    · rw [halloc, hret]
      exact fun g' hg' => h.returned g' (List.mem_of_mem_erase hg')
    · rw [halloc]
      exact h.disjoint.sublist (List.erase_sublist ..)
    · rw [hbits k, halloc]
      simp only [h.nodup.mem_erase_iff, Bool.and_eq_true, Bool.not_eq_true', decide_eq_false_iff_not,
        h.bits k hk]
      constructor
      · rintro ⟨hnot, g', hg', hk'⟩
        exact ⟨g', ⟨fun heq => hnot (heq ▸ hk'), hg'⟩, hk'⟩
      · rintro ⟨g', ⟨hne, hg'⟩, hk'⟩
        exact ⟨fun hk'' => hne (h.eq_of_has hg' hmem hk' hk''), g', hg', hk'⟩

/-- In a state where groups and bits are in step a call is exact, and keeps them in step,
exactly if it meets the condition. -/
theorem Tracks.exact_iff (h : s.Tracks) {c : Call} (hallow : s.Allows c) :
    s.Exact c ∧ (s.step c).Tracks ↔ s.Meets c := by
  constructor
  · rintro ⟨hexact, htracks⟩
    cases c with
    | allocate n =>
      exact (BlockFile.AllocateBlocks_touched_iff h.open_file hallow.1 hallow.2).mp hexact.touched
    | deallocate g =>
      by_contra hmeets
      simp only [Meets, not_or, not_exists, not_and, Bool.not_eq_false] at hmeets
      obtain ⟨hmem, hall⟩ := hmeets
      have hg := h.valid g hallow
      have hhas : g.Has g.startBlock := ⟨Nat.le_refl _, by have := hg.1; omega⟩
      rcases step_deallocate h.open_file hg with ⟨-, -, -, halloc, -, hbits⟩ | ⟨⟨k, hk, hbit⟩, -⟩
      · -- the groups that have the blocks are still there
        have hset := (htracks.bits g.startBlock (hg.lt hhas)).mpr (by
          rw [halloc, List.erase_of_not_mem hmem]
          exact (h.bits _ (hg.lt hhas)).mp (hall _ hhas))
        rw [hbits] at hset
        simp [hhas] at hset
      · rw [hall k hk] at hbit
        cases hbit
  · intro hmeets
    refine ⟨?_, h.step hallow hmeets⟩
    cases c with
    | allocate n =>
      refine ⟨(BlockFile.AllocateBlocks_touched_iff h.open_file hallow.1 hallow.2).mpr hmeets,
        ?_, ?_, by simp⟩
      · rintro n' ⟨⟩ hne
        rcases step_allocate h.open_file hallow with ⟨g, hg, hnum, hu, hr, hstep⟩ | ⟨hr, -, -⟩
        · refine ⟨g, hg, hr.symm, hnum, h.disjoint_of_unused hg hu, fun k => ?_⟩
          rw [hstep, BlockFile.bit_setBits hg]
        · exact absurd hr hne
      · rintro n' ⟨⟩
        rcases step_allocate h.open_file hallow with ⟨g, hg, hnum, hu, hr, -⟩ | ⟨hr, -, hnone⟩
        · constructor
          · intro hneg
            omega
          · intro hnone
            exact absurd hu (hnone g hg hnum)
        · exact ⟨fun _ => hnone, fun _ => hr⟩
    | deallocate g =>
      have hg := h.valid g hallow
      refine ⟨?_, by simp, by simp, ?_⟩
      · have hbyte : g.startBlock / 8 < kBitMapBytes := by
          have hlt := hg.2.2
          omega
        intro x hx
        rw [touched, BlockFile.DeallocateBlocks_eq h.open_file hg] at hx
        split_ifs at hx
        · rwa [List.mem_singleton.mp hx]
        · simp only [List.mem_cons, List.not_mem_nil, or_false, or_self] at hx
          rwa [hx]
      · rintro g' ⟨⟩ hmem
        rcases step_deallocate h.open_file hg with ⟨-, hok, -, -, -, hbits⟩ | ⟨⟨k, hk, hbit⟩, -⟩
        · exact ⟨hok, hbits⟩
        · rw [h.bits_of_mem hmem hk] at hbit
          cases hbit

/-- Runs of calls that meet the condition. -/
inductive Reaches : Session → Prop
  | start : Reaches start
  | step {s : Session} {c : Call} : Reaches s → s.Allows c → s.Meets c → Reaches (s.step c)

theorem Reaches.tracks (h : Reaches s) : s.Tracks := by
  induction h with
  | start => exact tracks_start
  | step _ hallow hmeets ih => exact ih.step hallow hmeets

/-- In every run whose calls meet the condition, the groups that are allocated are disjoint and
are the bits that are set, and exactly the calls that meet the condition are exact. -/
theorem allocation_exact (h : Reaches s) :
    s.Tracks ∧ ∀ c, s.Allows c → (s.Exact c ∧ (s.step c).Tracks ↔ s.Meets c) :=
  ⟨h.tracks, fun _ hallow => h.tracks.exact_iff hallow⟩

/-- Behind the first group of three blocks. -/
theorem allocation_exact_three :
    (start.step (.allocate 3)).Tracks ∧ ∀ c, (start.step (.allocate 3)).Allows c →
      ((start.step (.allocate 3)).Exact c ∧ ((start.step (.allocate 3)).step c).Tracks ↔
        (start.step (.allocate 3)).Meets c) :=
  allocation_exact (.step .start ⟨by decide, by decide⟩ ⟨0, by decide, by decide⟩)

/-! ### The full map -/

/-- Four blocks of the first byte that is not full. -/
theorem mBitMap_step_four {k j : ℕ} (hfd : s.file.mFD = true) (hk : k < kBitMapBytes)
    (hfull : ∀ a < k, s.file.mBitMap a = 0xFF) (hne : s.file.mBitMap k ≠ 0xFF)
    (hfit : fitIn 4 (s.file.mBitMap k) = some j) :
    (s.step (.allocate 4)).file = s.file.setBits k (mask 4 j) := by
  obtain ⟨-, hle, hbefore, hstop⟩ := skipFull_spec s.file.mBitMap 0 kBitMapBytes
  have hskip : skipFull s.file.mBitMap 0 kBitMapBytes = k := by
    rcases Nat.lt_trichotomy (skipFull s.file.mBitMap 0 kBitMapBytes) k with h | h | h
    · exact absurd (hfull _ h) (hstop (by omega))
    · exact h
    · exact absurd (hbefore k (Nat.zero_le k) h) hne
  obtain ⟨n, hn⟩ : ∃ n, kBitMapBytes - k = n + 1 := ⟨kBitMapBytes - k - 1, by omega⟩
  have hfind : (s.file.findBlocks 4).1 = some (k, j) := by
    rw [BlockFile.findBlocks]
    simp only [hskip, hn]
    simp [scan, hfit]
  rcases hf : s.file.findBlocks 4 with ⟨o, read⟩
  rw [hf] at hfind
  obtain rfl : o = some (k, j) := hfind
  have hpos : (0 : ℤ) ≤ (k : ℤ) * 8 + j := by omega
  simp [step, BlockFile.AllocateBlocks, hfd, hf, hpos]

/-- Two calls for four blocks fill a byte. -/
theorem mBitMap_run_four {k : ℕ} (hk : k ≤ kBitMapBytes) :
    (start.run (List.replicate (2 * k) (.allocate 4))).file.mFD = true ∧
      ∀ a, (start.run (List.replicate (2 * k) (.allocate 4))).file.mBitMap a =
        if a < k then 0xFF else 0 := by
  induction k with
  | zero => exact ⟨rfl, fun a => rfl⟩
  | succ k ih =>
    obtain ⟨hfd, hmap⟩ := ih (by omega)
    have hsplit : List.replicate (2 * (k + 1)) (Call.allocate 4) =
        List.replicate (2 * k) (.allocate 4) ++ [.allocate 4, .allocate 4] := by
      rw [show 2 * (k + 1) = 2 * k + 2 by omega, List.replicate_add]
      rfl
    rw [hsplit, run, List.foldl_append]
    generalize hs : List.foldl step start (List.replicate (2 * k) (.allocate 4)) = s
    rw [run, hs] at hfd hmap
    have hlow := @mBitMap_step_four s k 0 hfd (by omega) (fun a ha => by rw [hmap, if_pos ha])
      (by rw [hmap, if_neg (Nat.lt_irrefl k)]; decide)
      (by rw [hmap, if_neg (Nat.lt_irrefl k)]; decide)
    have hmap₁ (a : ℕ) : (s.step (.allocate 4)).file.mBitMap a =
        if a < k then 0xFF else if a = k then 0x0F else 0 := by
      rw [hlow, BlockFile.mBitMap_setBits]
      by_cases ha : a = k
      · subst ha
        rw [Function.update_self, hmap, if_neg (Nat.lt_irrefl a), if_neg (Nat.lt_irrefl a),
          if_pos rfl]
        decide
      · rw [Function.update_of_ne ha, hmap, if_neg ha]
    have hfd₁ : (s.step (.allocate 4)).file.mFD = true := by
      rw [hlow]
      exact hfd
    have hhigh := @mBitMap_step_four (s.step (.allocate 4)) k 4 hfd₁ (by omega)
      (fun a ha => by rw [hmap₁, if_pos ha])
      (by rw [hmap₁, if_neg (Nat.lt_irrefl k), if_pos rfl]; decide)
      (by rw [hmap₁, if_neg (Nat.lt_irrefl k), if_pos rfl]; decide)
    change ((s.step (.allocate 4)).step (.allocate 4)).file.mFD = true ∧ ∀ a,
      ((s.step (.allocate 4)).step (.allocate 4)).file.mBitMap a = _
    rw [hhigh]
    refine ⟨hfd₁, fun a => ?_⟩
    rw [BlockFile.mBitMap_setBits]
    by_cases ha : a = k
    · subst ha
      rw [Function.update_self, hmap₁, if_neg (Nat.lt_irrefl a), if_pos rfl, if_pos (by omega)]
      decide
    · rw [Function.update_of_ne ha, hmap₁, if_neg ha]
      by_cases hlt : a < k
      · rw [if_pos hlt, if_pos (by omega)]
      · rw [if_neg hlt, if_neg (by omega)]

/-- If the map is full the next call for blocks reads behind it. -/
theorem not_exact_of_full {n : ℤ} (hfd : s.file.mFD = true) (hn : s.Allows (.allocate n))
    (hfull : ∀ a < kBitMapBytes, s.file.mBitMap a = 0xFF) : ¬ s.Exact (.allocate n) := by
  intro hexact
  obtain ⟨a, ha, hne⟩ := (BlockFile.AllocateBlocks_touched_iff hfd hn.1 hn.2).mp hexact.touched
  exact hne (hfull a ha)

/-- The map is full after a call for four blocks for each quad, and the next call for a block
reads behind it. -/
theorem full_map_read_behind :
    (start.run (List.replicate (2 * kBitMapBytes) (.allocate 4))).Allows (.allocate 1) ∧
      ¬ (start.run (List.replicate (2 * kBitMapBytes) (.allocate 4))).Exact (.allocate 1) := by
  obtain ⟨hfd, hmap⟩ := mBitMap_run_four (Nat.le_refl kBitMapBytes)
  have hallow (s : Session) : s.Allows (.allocate 1) := ⟨by decide, by decide⟩
  exact ⟨hallow _, not_exact_of_full hfd (hallow _) fun a ha => by rw [hmap, if_pos ha]⟩

end Session

end Kompozer.Cache

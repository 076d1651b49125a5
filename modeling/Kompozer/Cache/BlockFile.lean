import Kompozer.Xpcom
import Mathlib.Data.List.Basic
import Mathlib.Data.Nat.Bits
import Mathlib.Tactic.Common

/-! The blocks of a disk cache file (`nsDiskCacheBlockFile.cpp`). A bit map says which blocks
are allocated. The map is the memory from the pointer on, and every index that is read or
written is recorded, so that an access behind the map shows. -/

namespace Kompozer.Cache

open NsResult

/-- `kBitMapBytes`. -/
def kBitMapBytes : ℕ := 4096

/-- `nsDiskCacheBlockFile`. The file is open or not. -/
structure BlockFile where
  mFD : Bool := true
  mBitMap : ℕ → UInt8
  mBitMapDirty : Bool := false

/-- Consecutive blocks. -/
structure Group where
  startBlock : ℕ
  numBlocks : ℕ
  deriving DecidableEq, Repr

/-- A bit of the map. -/
def bit (m : ℕ → UInt8) (k : ℕ) : Bool := (m (k / 8)).toNat.testBit (k % 8)

/-- The bits of a byte from a place on. -/
def mask (numBlocks startBit : ℕ) : UInt8 := UInt8.ofNat (((1 <<< numBlocks) - 1) <<< startBit)

/-- The first loop of `AllocateBlocks`, with the number of bytes that are left. -/
def skipFull (m : ℕ → UInt8) : ℕ → ℕ → ℕ
  | i, 0 => i
  | i, k + 1 => if m i = 0xFF then skipFull m (i + 1) k else i

/-- The binary search for the first bit that is set. -/
def firstBit (mapByte : UInt8) : ℕ :=
  let (bit, mapByte) := if mapByte &&& 0x0F = 0 then (4, mapByte >>> 4) else (0, mapByte)
  let (bit, mapByte) := if mapByte &&& 0x03 = 0 then (bit + 2, mapByte >>> 2) else (bit, mapByte)
  if mapByte &&& 0x01 = 0 then bit + 1 else bit

/-- Where a number of blocks fits into a byte without spanning a quad boundary. -/
def starts : ℕ → List ℕ
  | 2 => [0, 1, 2, 4, 5, 6]
  | 3 => [0, 1, 4, 5]
  | 4 => [0, 4]
  | _ => []

/-- The first place in a byte that is free. -/
def fitIn (numBlocks : ℕ) (b : UInt8) : Option ℕ :=
  (starts numBlocks).find? fun j => mask numBlocks j &&& ~~~b = mask numBlocks j

/-- The loop over the bytes for more than one block, and the bytes that it reads. -/
def scan (m : ℕ → UInt8) (numBlocks : ℕ) : ℕ → ℕ → Option (ℕ × ℕ) × List ℕ
  | _, 0 => (none, [])
  | i, k + 1 =>
    match fitIn numBlocks (m i) with
    | some j => (some (i, j), [i])
    | none => ((scan m numBlocks (i + 1) k).1, i :: (scan m numBlocks (i + 1) k).2)

namespace BlockFile

variable (f : BlockFile)

/-- Bits of a byte are set. -/
def setBits (i : ℕ) (bits : UInt8) : BlockFile :=
  { f with mBitMap := Function.update f.mBitMap i (f.mBitMap i ||| bits), mBitMapDirty := true }

@[simp] theorem mBitMap_setBits (i : ℕ) (bits : UInt8) :
    (f.setBits i bits).mBitMap = Function.update f.mBitMap i (f.mBitMap i ||| bits) := rfl

/-- What `AllocateBlocks` takes: the byte and the bit, and the bytes that it reads. -/
def findBlocks (numBlocks : ℤ) : Option (ℕ × ℕ) × List ℕ :=
  let i := skipFull f.mBitMap 0 kBitMapBytes
  let read := List.range (i + 1)
  if numBlocks = 1 then
    (if i < kBitMapBytes then some (i, firstBit (~~~f.mBitMap i)) else none, read)
  else if 2 ≤ numBlocks ∧ numBlocks ≤ 4 then
    let r := scan f.mBitMap numBlocks.toNat i (kBitMapBytes - i)
    (r.1, read ++ r.2)
  else (none, read)

/-- `AllocateBlocks`: the first block or -1, and the bytes that are read or written. -/
def AllocateBlocks (numBlocks : ℤ) : ℤ × BlockFile × List ℕ :=
  if !f.mFD then (-1, f, [])
  else
    match f.findBlocks numBlocks with
    | (some (i, j), read) => (i * 8 + j, f.setBits i (mask numBlocks.toNat j), read ++ [i])
    | (none, read) => (-1, f, read)

/-- `DeallocateBlocks`, with the bytes that are read or written. -/
def DeallocateBlocks (startBlock numBlocks : ℤ) : NsResult × BlockFile × List ℕ :=
  if !f.mFD then (NS_ERROR_NOT_AVAILABLE, f, [])
  else if startBlock < 0 ∨ kBitMapBytes * 8 - 1 < startBlock ∨ numBlocks < 1 ∨ 4 < numBlocks then
    (NS_ERROR_ILLEGAL_VALUE, f, [])
  else
    let startByte := (startBlock / 8).toNat
    let startBit := (startBlock % 8).toNat
    if (startBlock + numBlocks - 1) / 8 ≠ startByte then (NS_ERROR_UNEXPECTED, f, [])
    else
      let bits := mask numBlocks.toNat startBit
      if ~~~f.mBitMap startByte &&& bits ≠ 0 then (NS_ERROR_ABORT, f, [startByte])
      else
        (.ok, { f with
          mBitMap := Function.update f.mBitMap startByte (f.mBitMap startByte ^^^ bits)
          mBitMapDirty := true }, [startByte, startByte])

end BlockFile

/-! ### Bytes -/

theorem eq_of_testBit {a b : UInt8} (h : ∀ k < 8, a.toNat.testBit k = b.toNat.testBit k) :
    a = b := by
  apply UInt8.toNat_inj.mp
  apply Nat.eq_of_testBit_eq
  intro k
  by_cases hk : k < 8
  · exact h k hk
  · have hpow : 2 ^ 8 ≤ 2 ^ k := Nat.pow_le_pow_right (by decide) (by omega)
    rw [Nat.testBit_lt_two_pow (Nat.lt_of_lt_of_le a.toNat_lt hpow),
      Nat.testBit_lt_two_pow (Nat.lt_of_lt_of_le b.toNat_lt hpow)]

theorem testBit_not {b : UInt8} {k : ℕ} (hk : k < 8) :
    (~~~b).toNat.testBit k = !b.toNat.testBit k := by
  have hb : b.toNat < 2 ^ 8 := b.toNat_lt
  have hnot : (~~~b).toNat = 2 ^ 8 - (b.toNat + 1) := by
    rw [UInt8.toNat_not]
    change 256 - 1 - b.toNat = 256 - (b.toNat + 1)
    omega
  rw [hnot, Nat.testBit_two_pow_sub_succ hb]
  simp [hk]

theorem testBit_mask : ∀ n < 5, ∀ j < 8, ∀ k < 8,
    (mask n j).toNat.testBit k = decide (j ≤ k ∧ k < j + n) := by
  decide +kernel

/-- The bits of a byte from a place on are clear. -/
def Clear (b : UInt8) (n j : ℕ) : Prop :=
  ∀ k < 8, j ≤ k → k < j + n → b.toNat.testBit k = false

/-- What the mask is compared with. -/
theorem mask_and_not_eq {b : UInt8} {n j : ℕ} (hn : n < 5) (hj : j < 8) :
    mask n j &&& ~~~b = mask n j ↔ Clear b n j := by
  constructor
  · intro h k hk hjk hkn
    have hbit := congrArg (fun a : UInt8 => a.toNat.testBit k) h
    simp only [UInt8.toNat_and, Nat.testBit_and, testBit_mask n hn j hj k hk, testBit_not hk] at hbit
    simpa [hjk, hkn] using hbit
  · intro h
    apply eq_of_testBit
    intro k hk
    simp only [UInt8.toNat_and, Nat.testBit_and, testBit_mask n hn j hj k hk, testBit_not hk]
    by_cases hkn : j ≤ k ∧ k < j + n
    · simp [hkn, h k hk hkn.1 hkn.2]
    · simp [hkn]

/-- The places that are tried are those that stay inside a quad. -/
theorem mem_starts : ∀ n < 5, 2 ≤ n → ∀ j < 8, (j ∈ starts n ↔ j % 4 + n ≤ 4) := by
  decide

theorem lt_of_mem_starts {n j : ℕ} (h : j ∈ starts n) : j < 8 := by
  have hall : ∀ n < 5, ∀ j ∈ starts n, j < 8 := by decide
  by_cases hn : n < 5
  · exact hall n hn j h
  · have hempty : starts n = [] := by
      match n, hn with
      | n + 5, _ => rfl
    simp [hempty] at h

theorem fitIn_some {n j : ℕ} {b : UInt8} (hn : n < 5) (hn' : 2 ≤ n) (h : fitIn n b = some j) :
    j < 8 ∧ j % 4 + n ≤ 4 ∧ Clear b n j := by
  have hmem := List.mem_of_find?_eq_some h
  have hj := lt_of_mem_starts hmem
  have hmask := List.find?_some h
  exact ⟨hj, (mem_starts n hn hn' j hj).mp hmem, (mask_and_not_eq hn hj).mp (by simpa using hmask)⟩

theorem fitIn_none {n j : ℕ} {b : UInt8} (hn : n < 5) (hn' : 2 ≤ n) (h : fitIn n b = none)
    (hj : j < 8) (hq : j % 4 + n ≤ 4) : ¬ Clear b n j := by
  intro hclear
  have hmem := (mem_starts n hn hn' j hj).mpr hq
  have hmask := List.find?_eq_none.mp h j hmem
  exact hmask (by simpa using (mask_and_not_eq hn hj).mpr hclear)

/-- The binary search finds a bit. -/
theorem firstBit_not : ∀ b < 256, b ≠ 255 →
    firstBit (~~~UInt8.ofNat b) < 8 ∧
      (UInt8.ofNat b).toNat.testBit (firstBit (~~~UInt8.ofNat b)) = false := by
  decide +kernel

theorem clear_firstBit {b : UInt8} (h : b ≠ 0xFF) :
    firstBit (~~~b) < 8 ∧ Clear b 1 (firstBit (~~~b)) := by
  have hb := firstBit_not b.toNat b.toNat_lt fun h' => h (UInt8.toNat_inj.mp h')
  rw [UInt8.ofNat_toNat] at hb
  refine ⟨hb.1, fun k _ hk hk' => ?_⟩
  obtain rfl : k = firstBit (~~~b) := by omega
  exact hb.2

theorem not_clear_full {b : UInt8} {n j : ℕ} (h : b = 0xFF) (hn : 1 ≤ n) (hj : j < 8) :
    ¬ Clear b n j := by
  have hall : ∀ k < 8, (0xFF : UInt8).toNat.testBit k = true := by decide
  intro hclear
  have hbit := hclear j hj (Nat.le_refl j) (by omega)
  rw [h, hall j hj] at hbit
  cases hbit

/-! ### The search -/

variable {m : ℕ → UInt8} {i k n : ℕ}

/-- The first loop stops at the first byte that is not full. -/
theorem skipFull_spec (m : ℕ → UInt8) (i k : ℕ) :
    i ≤ skipFull m i k ∧ skipFull m i k ≤ i + k ∧ (∀ a, i ≤ a → a < skipFull m i k → m a = 0xFF) ∧
      (skipFull m i k < i + k → m (skipFull m i k) ≠ 0xFF) := by
  induction k generalizing i with
  | zero => exact ⟨Nat.le_refl i, Nat.le_refl i, by unfold skipFull; omega, by unfold skipFull; omega⟩
  | succ k ih =>
    rw [skipFull]
    split_ifs with hfull
    · obtain ⟨h₁, h₂, h₃, h₄⟩ := ih (i + 1)
      refine ⟨by omega, by omega, fun a ha ha' => ?_, fun h => h₄ (by omega)⟩
      by_cases heq : a = i
      · rw [heq, hfull]
      · exact h₃ a (by omega) ha'
    · exact ⟨Nat.le_refl i, by omega, by omega, fun _ => hfull⟩

theorem scan_some {a j : ℕ} (h : (scan m n i k).1 = some (a, j)) :
    i ≤ a ∧ a < i + k ∧ fitIn n (m a) = some j := by
  induction k generalizing i with
  | zero => cases h
  | succ k ih =>
    rw [scan] at h
    split at h
    · next b hfit =>
      obtain ⟨rfl, rfl⟩ := Prod.mk.inj (Option.some.inj h)
      exact ⟨Nat.le_refl _, by omega, hfit⟩
    · next hfit =>
      obtain ⟨h₁, h₂, h₃⟩ := ih h
      exact ⟨by omega, by omega, h₃⟩

theorem scan_none (h : (scan m n i k).1 = none) {a : ℕ} (ha : i ≤ a) (ha' : a < i + k) :
    fitIn n (m a) = none := by
  induction k generalizing i with
  | zero => omega
  | succ k ih =>
    rw [scan] at h
    split at h
    · cases h
    · next hfit =>
      by_cases heq : a = i
      · rwa [heq]
      · exact ih h (by omega) (by omega)

theorem lt_of_mem_scan {x : ℕ} (h : x ∈ (scan m n i k).2) : x < i + k := by
  induction k generalizing i with
  | zero => cases h
  | succ k ih =>
    rw [scan] at h
    split at h
    · rw [List.mem_singleton.mp h]
      omega
    · rcases List.mem_cons.mp h with rfl | h
      · omega
      · have hx := ih h
        omega

/-- There is a byte that is not full. -/
def HasFree (m : ℕ → UInt8) : Prop := ∃ a < kBitMapBytes, m a ≠ 0xFF

namespace BlockFile

variable {f : BlockFile} {numBlocks : ℤ}

theorem skipFull_lt_iff : skipFull m 0 kBitMapBytes < kBitMapBytes ↔ HasFree m := by
  obtain ⟨-, -, hfull, hstop⟩ := skipFull_spec m 0 kBitMapBytes
  constructor
  · intro h
    exact ⟨_, h, hstop (by omega)⟩
  · rintro ⟨a, ha, hne⟩
    by_contra hle
    exact hne (hfull a (Nat.zero_le a) (by omega))

/-- Where `AllocateBlocks` finds blocks they are free. -/
theorem findBlocks_some {a j : ℕ} (hn : 1 ≤ numBlocks) (hn' : numBlocks ≤ 4)
    (h : (f.findBlocks numBlocks).1 = some (a, j)) :
    a < kBitMapBytes ∧ j < 8 ∧ j % 4 + numBlocks.toNat ≤ 4 ∧
      Clear (f.mBitMap a) numBlocks.toNat j := by
  obtain ⟨-, hle, -, hstop⟩ := skipFull_spec f.mBitMap 0 kBitMapBytes
  rw [findBlocks] at h
  dsimp only at h
  split_ifs at h with hone hlt hmany
  · obtain ⟨rfl, rfl⟩ := Prod.mk.inj (Option.some.inj h)
    obtain ⟨hbit, hclear⟩ := clear_firstBit (hstop (by omega))
    subst hone
    exact ⟨hlt, hbit, by change _ + 1 ≤ 4; omega, hclear⟩
  · obtain ⟨h₁, h₂, hfit⟩ := scan_some h
    obtain ⟨hj, hquad, hclear⟩ := fitIn_some (by omega) (by omega) hfit
    exact ⟨by omega, hj, hquad, hclear⟩

/-- Where it finds none there are none. -/
theorem findBlocks_none (hn : 1 ≤ numBlocks) (hn' : numBlocks ≤ 4)
    (h : (f.findBlocks numBlocks).1 = none) {a j : ℕ} (ha : a < kBitMapBytes) (hj : j < 8)
    (hquad : j % 4 + numBlocks.toNat ≤ 4) : ¬ Clear (f.mBitMap a) numBlocks.toNat j := by
  obtain ⟨-, hle, hfull, -⟩ := skipFull_spec f.mBitMap 0 kBitMapBytes
  by_cases hbefore : a < skipFull f.mBitMap 0 kBitMapBytes
  · exact not_clear_full (hfull a (Nat.zero_le a) hbefore) (by omega) hj
  · rw [findBlocks] at h
    dsimp only at h
    split_ifs at h with hone hlt hmany
    · omega
    · have hfit := @scan_none _ _ _ _ h a (by omega) (by omega)
      exact fitIn_none (by omega) (by omega) hfit hj hquad
    · omega

/-- The bytes that are read are those of the map, unless there is no byte that is not full. -/
theorem findBlocks_read_iff : (∀ x ∈ (f.findBlocks numBlocks).2, x < kBitMapBytes) ↔
    HasFree f.mBitMap := by
  rw [← skipFull_lt_iff]
  obtain ⟨-, hle, -, -⟩ := skipFull_spec f.mBitMap 0 kBitMapBytes
  have hrange : ∀ x ∈ (f.findBlocks numBlocks).2,
      x ≤ skipFull f.mBitMap 0 kBitMapBytes ∨ x < kBitMapBytes := by
    intro x hx
    rw [findBlocks] at hx
    dsimp only at hx
    split_ifs at hx with hone hlt hmany
    · have := List.mem_range.mp hx
      omega
    · have := List.mem_range.mp hx
      omega
    · rcases List.mem_append.mp hx with hx | hx
      · have := List.mem_range.mp hx
        omega
      · have := lt_of_mem_scan hx
        omega
    · have := List.mem_range.mp hx
      omega
  have hlast : skipFull f.mBitMap 0 kBitMapBytes ∈ (f.findBlocks numBlocks).2 := by
    rw [findBlocks]
    dsimp only
    split_ifs <;> simp
  constructor
  · intro h
    exact h _ hlast
  · intro h x hx
    rcases hrange x hx with h' | h' <;> omega

end BlockFile

end Kompozer.Cache

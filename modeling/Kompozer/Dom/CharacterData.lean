import Kompozer.Dom.Operations
import Kompozer.Text.Encoding

/-! The text of a node (`nsTextFragment.cpp`, `nsGenericDOMDataNode.cpp`): a buffer of bytes or of
16-bit units, and the edits of character data, which build a new buffer from copies of the old
one. Documents, listeners and the ranges of the DOM are not told here. -/

namespace Kompozer.Dom

open NsResult Text

/-! ### Text fragments -/

/-- What `m1b` or `m2b` points to, up to the length. A byte is a character below 256. -/
inductive FragmentBuffer
  | m1b (bytes : List UInt8)
  | m2b (units : List PRUnichar)
  deriving DecidableEq

namespace FragmentBuffer

def length : FragmentBuffer → ℕ
  | m1b bytes => bytes.length
  | m2b units => units.length

def text : FragmentBuffer → List PRUnichar
  | m1b bytes => bytes.map UInt8.toUInt16
  | m2b units => units

end FragmentBuffer

/-- `nsTextFragment`. The length has 29 bits. -/
structure nsTextFragment where
  buffer : FragmentBuffer
  fits : buffer.length < 2 ^ 29

namespace nsTextFragment

variable (f : nsTextFragment)

def Is2b : Bool :=
  match f.buffer with
  | .m1b _ => false
  | .m2b _ => true

/-- `AppendTo` a string, and what a reader of the fragment sees. -/
def text : List PRUnichar := f.buffer.text

/-- `GetLength`. -/
def length : UInt32 := f.buffer.length.toUInt32

/-- `mState.mLength = aLength`. -/
def mLength (aLength : ℕ) : ℕ := aLength % 2 ^ 29

def bytes (aBuffer : List UInt8) : nsTextFragment where
  buffer := .m1b (aBuffer.take (mLength aBuffer.length))
  fits := Nat.lt_of_le_of_lt (List.length_take_le _ _) (Nat.mod_lt _ (by decide))

def units (aBuffer : List PRUnichar) : nsTextFragment where
  buffer := .m2b (aBuffer.take (mLength aBuffer.length))
  fits := Nat.lt_of_le_of_lt (List.length_take_le _ _) (Nat.mod_lt _ (by decide))

/-- `IsASCII`. -/
def isASCII (aString : List PRUnichar) : Bool := aString.all fun c => c &&& 0xFF80 == 0

/-- `operator=` for a string. -/
def assign (aString : List PRUnichar) : nsTextFragment :=
  if isASCII aString then bytes (aString.map UInt16.toUInt8) else units aString

/-- `SetTo` for a buffer of units. -/
def setTo (aBuffer : List PRUnichar) : nsTextFragment :=
  -- see if we need to store the data in ucs2 or not
  if aBuffer.any fun ch => ch >>> 8 ≠ 0 then units aBuffer else bytes (aBuffer.map UInt16.toUInt8)

/-- `CopyTo`. -/
def copyTo (aOffset aCount : ℕ) : List PRUnichar :=
  let aCount := if aOffset + aCount > f.buffer.length then f.buffer.length - aOffset else aCount
  (f.text.drop aOffset).take aCount

/-! ### Character data -/

/-- `AppendData`. -/
def appendData (aData : List PRUnichar) : nsTextFragment :=
  match f.buffer with
  | .m2b units => assign (units ++ aData)
  | .m1b old_data =>
    if !isASCII aData then assign (f.text ++ aData)
    else bytes (old_data ++ aData.map UInt16.toUInt8)

/-- The buffer with a copy of some units at a place. -/
def copied (dest : List PRUnichar) (i : ℕ) (l : List PRUnichar) : List PRUnichar :=
  dest.take i ++ l ++ dest.drop (i + l.length)

/-- `ReplaceData`. A new buffer holds what the memory held before. -/
def replaceData (memory : ℕ → PRUnichar) (aOffset aCount : UInt32) (aData : List PRUnichar) :
    NsResult × nsTextFragment :=
  let textLength := f.length
  if aOffset > textLength then (NS_ERROR_DOM_INDEX_SIZE_ERR, f)
  else if aOffset = textLength then (.ok, f.appendData aData)
  else
    let endOffset := aOffset + aCount
    let clamped := decide (endOffset > textLength)
    let aCount := if clamped then textLength - aOffset else aCount
    let endOffset := if clamped then textLength else endOffset
    let dataLength := aData.length.toUInt32
    let newLength := (textLength - aCount + dataLength).toNat
    -- a negative size
    if 2 ^ 31 ≤ newLength then (NS_ERROR_OUT_OF_MEMORY, f)
    else
      let dest := (List.range (newLength + 1)).map memory
      let dest := if 0 ≠ aOffset then copied dest 0 (f.copyTo 0 aOffset.toNat) else dest
      let dest := if 0 ≠ dataLength then copied dest aOffset.toNat aData else dest
      let dest :=
        if endOffset ≠ textLength then
          copied dest (aOffset.toNat + dataLength.toNat)
            (f.copyTo endOffset.toNat (textLength - endOffset).toNat)
        else dest
      let dest := dest.set newLength 0
      (.ok, setTo (dest.take newLength))

/-- `InsertData`. -/
def insertData (memory : ℕ → PRUnichar) (aOffset : UInt32) (aData : List PRUnichar) :
    NsResult × nsTextFragment :=
  f.replaceData memory aOffset 0 aData

/-- `DeleteData`. -/
def deleteData (memory : ℕ → PRUnichar) (aOffset aCount : UInt32) : NsResult × nsTextFragment :=
  f.replaceData memory aOffset aCount []

/-! ### Buffers -/

variable {f}

@[simp] theorem length_text : f.text.length = f.buffer.length := by
  rw [text]
  cases f.buffer with
  | m1b bytes => exact List.length_map _
  | m2b units => rfl

theorem toNat_length : f.length.toNat = f.text.length := by
  have := f.fits
  rw [length, length_text, Nat.toUInt32_eq, UInt32.toNat_ofNat']
  omega

theorem map_toUInt16 {l : List PRUnichar} (h : ∀ c ∈ l, c.toNat < 256) :
    (l.map UInt16.toUInt8).map UInt8.toUInt16 = l := by
  rw [List.map_map]
  refine (List.map_congr_left fun c hc => ?_).trans (List.map_id l)
  have := h c hc
  apply UInt16.toNat_inj.mp
  simp only [Function.comp_apply, UInt8.toNat_toUInt16, UInt16.toNat_toUInt8, id_eq]
  omega

theorem lt_of_isASCII {l : List PRUnichar} (h : isASCII l = true) : ∀ c ∈ l, c.toNat < 256 := by
  intro c hc
  have := List.all_eq_true.mp h c hc
  rw [unit_one, decide_eq_true_eq] at this
  omega

theorem text_bytes (l : List UInt8) :
    (bytes l).text = (l.map UInt8.toUInt16).take (mLength l.length) := List.map_take

/-- A string is kept up to its length in 29 bits, however it is stored. -/
theorem text_bytes_toUInt8 {l : List PRUnichar} (h : ∀ c ∈ l, c.toNat < 256) :
    (bytes (l.map UInt16.toUInt8)).text = l.take (mLength l.length) := by
  rw [text_bytes, map_toUInt16 h, List.length_map]

theorem text_assign (l : List PRUnichar) : (assign l).text = l.take (mLength l.length) := by
  rw [assign]
  split_ifs with h
  · exact text_bytes_toUInt8 (lt_of_isASCII h)
  · rfl

theorem text_setTo (l : List PRUnichar) : (setTo l).text = l.take (mLength l.length) := by
  rw [setTo]
  split_ifs with h
  · rfl
  · refine text_bytes_toUInt8 fun c hc => ?_
    have hc : ¬ c >>> 8 ≠ 0 := fun hn => h (List.any_eq_true.mpr ⟨c, hc, decide_eq_true hn⟩)
    have hz : (c >>> 8).toNat = 0 := by rw [not_not.mp hc]; rfl
    rw [UInt16.toNat_shiftRight] at hz
    have := Nat.shiftRight_eq_div_pow c.toNat 8
    simp only [UInt16.reduceToNat, Nat.reduceMod] at hz
    omega

theorem text_appendData (aData : List PRUnichar) :
    (f.appendData aData).text = (f.text ++ aData).take (mLength (f.text ++ aData).length) := by
  obtain ⟨buffer, fits⟩ := f
  cases buffer with
  | m2b units => exact text_assign _
  | m1b old_data =>
    simp only [appendData]
    split_ifs with h
    · exact text_assign _
    · rw [text_bytes, List.map_append, map_toUInt16 (lt_of_isASCII (by simpa using h))]
      simp [text, FragmentBuffer.text]

theorem copyTo_eq (i k : ℕ) : f.copyTo i k = (f.text.drop i).take k := by
  simp only [copyTo, ← length_text]
  split_ifs with h
  · rw [List.take_of_length_le (List.length_drop ▸ Nat.le_refl _),
      List.take_of_length_le (by rw [List.length_drop]; omega)]
  · rfl

@[simp] theorem copied_nil (dest : List PRUnichar) (i : ℕ) : copied dest i [] = dest := by
  simp [copied]

/-- A copy is left out when there is nothing to copy. -/
theorem copied_of_imp {p : Prop} [Decidable p] {dest l : List PRUnichar} {i : ℕ}
    (h : ¬ p → l = []) : (if p then copied dest i l else dest) = copied dest i l := by
  split_ifs with hp
  · rfl
  · rw [h hp, copied_nil]

/-- A copy right behind what is copied already. -/
theorem copied_append (A dest l : List PRUnichar) :
    copied (A ++ dest) A.length l = A ++ l ++ dest.drop l.length := by
  rw [copied, List.take_left, List.drop_length_add_append]

/-- The three copies fill the new buffer. -/
theorem copied_three (dest A B C : List PRUnichar) :
    ((copied (copied (copied dest 0 A) A.length B) (A.length + B.length) C).set
      (A ++ B ++ C).length 0).take (A ++ B ++ C).length = A ++ B ++ C := by
  have hfront : copied dest 0 A = A ++ dest.drop A.length := by simp [copied]
  rw [List.take_set_of_le (Nat.le_refl _), hfront, copied_append, ← List.length_append,
    copied_append, List.take_left]

/-! ### Replacing a stretch -/

/-- The end of the stretch as the code has it. -/
def endOffset (f : nsTextFragment) (aOffset aCount : UInt32) : ℕ :=
  min (aOffset + aCount).toNat f.text.length

/-- `ReplaceData` inside the text, for a result that is not too long. -/
theorem replaceData_inside (memory : ℕ → PRUnichar) {aOffset aCount : UInt32}
    {aData : List PRUnichar} (ho : aOffset.toNat < f.text.length)
    (hfit : aOffset.toNat + aData.length < 2 ^ 29) :
    f.replaceData memory aOffset aCount aData = (.ok, setTo (f.text.take aOffset.toNat ++ aData ++
      f.text.drop (f.endOffset aOffset aCount))) := by
  have hl : f.length.toNat = f.text.length := toNat_length
  have hfits : f.text.length < 2 ^ 29 := length_text ▸ f.fits
  have hcount := aCount.toNat_lt
  have hend : (aOffset + aCount).toNat = (aOffset.toNat + aCount.toNat) % 2 ^ 32 :=
    UInt32.toNat_add _ _
  have hdata : aData.length.toUInt32.toNat = aData.length := by
    rw [Nat.toUInt32_eq, UInt32.toNat_ofNat']
    omega
  have hsub : (f.length - aOffset).toNat = f.text.length - aOffset.toNat := by
    rw [UInt32.toNat_sub_of_le _ _ (UInt32.le_iff_toNat_le.mpr (by omega)), hl]
  have hlt : ¬ aOffset > f.length := by
    rw [gt_iff_lt, UInt32.lt_iff_toNat_lt]
    omega
  have hne : ¬ aOffset = f.length := by
    rw [← UInt32.toNat_inj]
    omega
  -- the end, the new length and the last copy, whether the end is clamped or not
  have hrest : ∀ clamped, clamped = decide (aOffset + aCount > f.length) →
      (if clamped then f.length else aOffset + aCount).toNat = f.endOffset aOffset aCount ∧
      (f.length - (if clamped then f.length - aOffset else aCount) +
        aData.length.toUInt32).toNat =
        aOffset.toNat + aData.length + (f.text.length - f.endOffset aOffset aCount) := by
    rintro _ rfl
    rw [endOffset]
    by_cases h : aOffset + aCount > f.length
    · have h' := UInt32.lt_iff_toNat_lt.mp h
      have hback : (f.length - (f.length - aOffset)).toNat = aOffset.toNat := by
        rw [UInt32.toNat_sub_of_le _ _ (UInt32.le_iff_toNat_le.mpr (by omega)), hsub]
        omega
      simp only [h, decide_true, if_true]
      refine ⟨by omega, ?_⟩
      rw [UInt32.toNat_add _ aData.length.toUInt32, hback, hdata]
      omega
    · have h' := mt UInt32.lt_iff_toNat_lt.mpr h
      have hback : (f.length - aCount).toNat =
          (2 ^ 32 - aCount.toNat + f.text.length) % 2 ^ 32 := by rw [UInt32.toNat_sub, hl]
      simp only [h, decide_false, Bool.false_eq_true, if_false]
      refine ⟨by omega, ?_⟩
      rw [UInt32.toNat_add _ aData.length.toUInt32, hback, hdata]
      omega
  have hle : f.endOffset aOffset aCount ≤ f.text.length := Nat.min_le_right _ _
  obtain ⟨hlast, hnew⟩ := hrest _ rfl
  generalize hE : (if decide (aOffset + aCount > f.length) = true then f.length
    else aOffset + aCount) = E at hlast
  have hrem : (f.length - E).toNat = f.text.length - f.endOffset aOffset aCount := by
    rw [UInt32.toNat_sub_of_le _ _ (UInt32.le_iff_toNat_le.mpr (by omega)), hl, hlast]
  have hA : (f.text.take aOffset.toNat).length = aOffset.toNat := by
    rw [List.length_take]
    omega
  have hC : (f.text.drop (f.endOffset aOffset aCount)).take
      (f.text.length - f.endOffset aOffset aCount) =
      f.text.drop (f.endOffset aOffset aCount) :=
    List.take_of_length_le (List.length_drop ▸ Nat.le_refl _)
  have hn : aOffset.toNat + aData.length + (f.text.length - f.endOffset aOffset aCount) =
      (f.text.take aOffset.toNat ++ aData ++
        f.text.drop (f.endOffset aOffset aCount)).length := by
    rw [List.length_append, List.length_append, hA, List.length_drop]
  simp only [replaceData, if_neg hlt, if_neg hne, hnew, hE, hlast, hdata, copyTo_eq, hrem, hC,
    List.drop_zero]
  rw [if_neg (by omega), copied_of_imp, copied_of_imp, copied_of_imp]
  · have h := copied_three ((List.range (aOffset.toNat + aData.length +
      (f.text.length - f.endOffset aOffset aCount) + 1)).map memory) (f.text.take aOffset.toNat)
      aData (f.text.drop (f.endOffset aOffset aCount))
    rw [hA, ← hn] at h
    rw [h]
  · intro h
    obtain rfl : aOffset = 0 := (not_not.mp h).symm
    rfl
  · intro h
    have hz : aData.length.toUInt32.toNat = 0 := by rw [← not_not.mp h]; rfl
    exact List.eq_nil_of_length_eq_zero (hdata ▸ hz)
  · intro h
    rw [← hlast, not_not.mp h, hl, List.drop_length]

theorem replaceData_beyond (memory : ℕ → PRUnichar) {aOffset aCount : UInt32}
    {aData : List PRUnichar} (ho : f.text.length < aOffset.toNat) :
    f.replaceData memory aOffset aCount aData = (NS_ERROR_DOM_INDEX_SIZE_ERR, f) :=
  if_pos (UInt32.lt_iff_toNat_lt.mpr (toNat_length ▸ ho))

theorem replaceData_end (memory : ℕ → PRUnichar) {aOffset aCount : UInt32}
    {aData : List PRUnichar} (ho : aOffset.toNat = f.text.length) :
    f.replaceData memory aOffset aCount aData = (.ok, f.appendData aData) := by
  have heq : aOffset = f.length := UInt32.toNat_inj.mp (ho.trans toNat_length.symm)
  rw [replaceData, if_neg (by rw [heq]; exact UInt32.lt_irrefl _), if_pos heq]

theorem take_mLength {l : List PRUnichar} (h : l.length < 2 ^ 29) : l.take (mLength l.length) = l :=
  List.take_of_length_le (Nat.le_of_eq (Nat.mod_eq_of_lt h).symm)

/-- The store's `ReplaceData` is that of the fragment. -/
theorem replaceData_store {d : Document} {n : NodeId} (memory : ℕ → PRUnichar)
    {aOffset aCount : UInt32} {aData : List PRUnichar} (hf : f.text = d.data n)
    (hfit : (f.text.take aOffset.toNat ++ aData ++
      f.text.drop (f.endOffset aOffset aCount)).length < 2 ^ 29) :
    d.replaceData n aOffset.toNat aCount.toNat aData =
      ((f.replaceData memory aOffset aCount aData).1,
        d.setText n (f.replaceData memory aOffset aCount aData).2.text) := by
  rw [Document.replaceData, ← hf]
  rcases Nat.lt_trichotomy aOffset.toNat f.text.length with ho | ho | ho
  · have hdata : aOffset.toNat + aData.length < 2 ^ 29 := by
      rw [List.length_append, List.length_append, List.length_take] at hfit
      omega
    have hmin : (if (aOffset.toNat + aCount.toNat) % 2 ^ 32 > f.text.length then f.text.length
        else (aOffset.toNat + aCount.toNat) % 2 ^ 32) = f.endOffset aOffset aCount := by
      rw [endOffset, UInt32.toNat_add]
      split_ifs <;> omega
    rw [replaceData_inside memory ho hdata, text_setTo, take_mLength hfit]
    simp only [if_neg (Nat.lt_asymm ho), if_neg (Nat.ne_of_lt ho), hmin]
  · rw [replaceData_end memory ho, text_appendData, take_mLength]
    · simp only [ho, Nat.lt_irrefl, if_false, if_true, Document.appendData, hf, gt_iff_lt]
    · rw [ho, List.take_length] at hfit
      simp only [List.length_append] at hfit ⊢
      omega
  · rw [replaceData_beyond memory ho, if_pos ho, hf, Document.setText_eq_self rfl]

/-- The text with a stretch replaced. The sum is that of the numbers. -/
def spliced (text : List PRUnichar) (aOffset aCount : ℕ) (aData : List PRUnichar) :
    List PRUnichar :=
  text.take aOffset ++ aData ++ text.drop (min (aOffset + aCount) text.length)

/-- What an edit of character data is for. -/
def Edits (f : nsTextFragment) (aOffset aCount : ℕ) (aData : List PRUnichar)
    (r : NsResult × nsTextFragment) : Prop :=
  (f.text.length < aOffset → r = (NS_ERROR_DOM_INDEX_SIZE_ERR, f)) ∧
    (aOffset ≤ f.text.length → r.1 = .ok ∧ r.2.text = spliced f.text aOffset aCount aData)

/-- The sum of offset and count is taken inside the text only, and must not wrap there. -/
def SumFits (f : nsTextFragment) (aOffset aCount : UInt32) : Prop :=
  aOffset.toNat < f.text.length → aOffset.toNat + aCount.toNat < 2 ^ 32

theorem edits_replaceData_iff (memory : ℕ → PRUnichar) {aOffset aCount : UInt32}
    {aData : List PRUnichar}
    (hfit : (spliced f.text aOffset.toNat aCount.toNat aData).length < 2 ^ 29) :
    Edits f aOffset.toNat aCount.toNat aData (f.replaceData memory aOffset aCount aData) ↔
      SumFits f aOffset aCount := by
  have hfits : f.text.length < 2 ^ 29 := length_text ▸ f.fits
  have hcount := aCount.toNat_lt
  have hlen : (spliced f.text aOffset.toNat aCount.toNat aData).length =
      min aOffset.toNat f.text.length + aData.length +
        (f.text.length - min (aOffset.toNat + aCount.toNat) f.text.length) := by
    simp only [spliced, List.length_append, List.length_take, List.length_drop]
  rcases Nat.lt_trichotomy aOffset.toNat f.text.length with ho | ho | ho
  · rw [replaceData_inside memory ho (by omega)]
    have hsum : f.endOffset aOffset aCount =
        min ((aOffset.toNat + aCount.toNat) % 2 ^ 32) f.text.length := by
      rw [endOffset, UInt32.toNat_add]
    constructor
    · rintro ⟨-, h⟩ -
      obtain ⟨-, htext⟩ := h (Nat.le_of_lt ho)
      -- with a sum that wraps the text is longer than it should be
      by_contra hwrap
      have := congrArg List.length htext
      rw [text_setTo, hlen, List.length_take, mLength, List.length_append, List.length_append,
        List.length_take, List.length_drop, hsum] at this
      omega
    · intro h
      have hlt := h ho
      refine ⟨fun h => absurd ho (by omega), fun _ => ⟨rfl, ?_⟩⟩
      rw [text_setTo, hsum, Nat.mod_eq_of_lt hlt]
      exact take_mLength hfit
  · refine ⟨fun _ h => absurd h (by omega), fun _ => ⟨fun h => absurd h (by omega), fun _ => ?_⟩⟩
    rw [replaceData_end memory ho, text_appendData, spliced, ho, List.take_length,
      Nat.min_eq_right (by omega), List.drop_length, List.append_nil]
    refine ⟨rfl, take_mLength ?_⟩
    rw [List.length_append]
    omega
  · rw [replaceData_beyond memory ho]
    exact ⟨fun _ h => absurd h (by omega), fun _ => ⟨fun _ => rfl, fun h => absurd h (by omega)⟩⟩

/-- `ReplaceData` and `DeleteData` do what they are for exactly when the sum of offset and count
does not wrap inside the text, and `InsertData` always. -/
theorem characterData_exact_iff (f : nsTextFragment) (memory : ℕ → PRUnichar)
    (aOffset aCount : UInt32) :
    (∀ aData, (spliced f.text aOffset.toNat aCount.toNat aData).length < 2 ^ 29 →
      (Edits f aOffset.toNat aCount.toNat aData (f.replaceData memory aOffset aCount aData) ↔
        SumFits f aOffset aCount)) ∧
    (∀ aData, (spliced f.text aOffset.toNat 0 aData).length < 2 ^ 29 →
      Edits f aOffset.toNat 0 aData (f.insertData memory aOffset aData)) ∧
    (Edits f aOffset.toNat aCount.toNat [] (f.deleteData memory aOffset aCount) ↔
      SumFits f aOffset aCount) := by
  refine ⟨fun aData hfit => edits_replaceData_iff memory hfit, fun aData hfit => ?_, ?_⟩
  · have hsum : SumFits f aOffset 0 := fun _ => by
      have := aOffset.toNat_lt
      simpa using this
    exact (edits_replaceData_iff memory hfit).mpr hsum
  · refine edits_replaceData_iff memory ?_
    have hfits : f.text.length < 2 ^ 29 := length_text ▸ f.fits
    simp only [spliced, List.append_nil, List.length_append, List.length_take, List.length_drop]
    omega

/-- Three letters. -/
def abc : nsTextFragment := ⟨.m1b [97, 98, 99], by decide⟩

theorem replaceData_store_abc :
    let d : Document := ⟨fun _ => none, fun _ => .text abc.text, 1⟩
    d.replaceData 0 1 1 [120] = ((abc.replaceData (fun _ => 0) 1 1 [120]).1,
      d.setText 0 (abc.replaceData (fun _ => 0) 1 1 [120]).2.text) :=
  @replaceData_store abc _ 0 (fun _ => 0) 1 1 [120] rfl (by decide)

theorem characterData_exact_sample :
    Edits abc 1 1 [120] (abc.replaceData (fun _ => 0) 1 1 [120]) ∧
      Edits abc 3 0 [120] (abc.insertData (fun _ => 0) 3 [120]) :=
  ⟨((characterData_exact_iff abc (fun _ => 0) 1 1).1 [120] (by decide)).mpr (by
    intro _
    decide), (characterData_exact_iff abc (fun _ => 0) 3 0).2.1 [120] (by decide)⟩

/-- Deleting everything behind the first letter by the largest count brings the letter twice. -/
theorem deleteData_wraps :
    (abc.deleteData (fun _ => 0) 1 0xFFFFFFFF).2.text = [97, 97, 98, 99] ∧
      ¬ Edits abc 1 0xFFFFFFFF [] (abc.deleteData (fun _ => 0) 1 0xFFFFFFFF) := by
  refine ⟨by decide, fun h => ?_⟩
  exact absurd (h.2 (by decide)).2 (by decide)

end nsTextFragment

end Kompozer.Dom

import Kompozer.Http.HeaderArray
import Kompozer.Io.PipeRun
import Kompozer.Lib.Occurs

/-! The search in a pipe (`nsPipeInputStream::Search`): segment by segment, and at each boundary of
two segments. A read through a pointer to a segment that is not at one of its bytes in the pipe has
no result. -/

namespace Kompozer.Io

open NsResult
open Http (uc)

/-! ### The search -/

/-- What is compared of a byte. -/
def fold (ignoreCase : Bool) (b : UInt8) : UInt8 := if ignoreCase then uc b else b

/-- Whether `COMPARE` finds no difference in at most `i` bytes. Of `s1` there are only the bytes
that are in the pipe. -/
def COMPARE (ignoreCase : Bool) : List UInt8 → List UInt8 → ℕ → Option Bool
  | _, _, 0 => some true
  | [], _, _ + 1 => none
  | a :: s1, s2, i + 1 =>
    if fold ignoreCase a ≠ fold ignoreCase (s2.headD 0) then some false
    else if a = 0 then some true
    else COMPARE ignoreCase s1 s2.tail i

/-- `for (i = 0; i < turns; i++)`, up to the first `i` that is found. -/
def firstTurn (found : UInt32 → Option Bool) : ℕ → UInt32 → Option (Option UInt32)
  | 0, _ => some none
  | turns + 1, i => do if ← found i then some (some i) else firstTurn found turns (i + 1)

section Search

variable (ignoreCase : Bool) (forString : List UInt8) (strLen : UInt32)

/-- Is the string in the buffer segment? -/
def searchSegment (segment : List UInt8) : Option (Option UInt32) :=
  let len1 := UInt32.ofNat segment.length
  firstTurn (fun i => COMPARE ignoreCase (segment.drop i.toNat) forString strLen.toNat)
    (len1 - strLen + 1).toNat 0

/-- Is the string straddling the next buffer segment, with `strPart1Len` bytes in this one? -/
def straddles (segment next : List UInt8) (strPart1Len : UInt32) : Option Bool := do
  let len1 := UInt32.ofNat segment.length
  let strPart2Len := strLen - strPart1Len
  let strPart2 := forString.drop (strLen - strPart2Len).toNat
  let bufSeg1Offset := len1 - strPart1Len
  if ← COMPARE ignoreCase (segment.drop bufSeg1Offset.toNat) forString strPart1Len.toNat then
    COMPARE ignoreCase next strPart2 strPart2Len.toNat
  else some false

def searchStraddling (segment next : List UInt8) : Option (Option UInt32) :=
  let len2 := UInt32.ofNat next.length
  let lim := if strLen < len2 + 1 then strLen else len2 + 1
  firstTurn (fun i => straddles ignoreCase forString strLen segment next (strLen - i - 1))
    lim.toNat 0

/-- The loop of `Search`, with what is in the segments. It has no result if it takes more turns than
there are segments. -/
def searchFrom (peek : UInt32 → Option (List UInt8)) :
    ℕ → UInt32 → UInt32 → List UInt8 → Option (Bool × UInt32)
  | 0, _, _, _ => none
  | turns + 1, index, offset, segment => do
    match ← searchSegment ignoreCase forString strLen segment with
    | some i => some (true, offset + i)
    | none =>
      let index := index + 1
      let offset := offset + UInt32.ofNat segment.length
      let next ← peek index
      if next = [] then some (false, offset - strLen + 1)
      else match ← searchStraddling ignoreCase forString strLen segment next with
        | some i => some (true, offset - (strLen - i - 1))
        | none => searchFrom peek turns index offset next

end Search

namespace nsPipe

variable (m : Machine) (p : nsPipe) (memory : Segment → ℕ → UInt8)

/-- The cursor and the limit. -/
def PeekSegment (index : UInt32) : Option (Option Ptr × Option Ptr) :=
  if index = 0 then some (p.mReadCursor, p.mReadLimit)
  else if p.mBuffer.GetSegmentCount ≤ index then some (none, none)
  else do
    let cursor ← p.mBuffer.GetSegment index
    let cursor ← cursor
    some (some ⟨cursor, 0⟩, if p.mWriteSegment = index.toNat then p.mWriteCursor
      else some ⟨cursor, p.mBuffer.mSegmentSize.toNat⟩)

/-- The bytes from the cursor to the limit. -/
def peek (index : UInt32) : Option (List UInt8) := do
  match ← p.PeekSegment index with
  | (some cursor, some limit) =>
    some (bytesAt memory cursor.seg cursor.off (m.addr limit - m.addr cursor))
  | (none, none) => some []
  | _ => none

/-- Whether the string is found, and the offset. -/
def Search (forString : List UInt8) (ignoreCase : Bool) : Option (Bool × UInt32) :=
  let strLen := UInt32.ofNat forString.length
  (p.peek m memory 0).bind fun segment =>
    if segment = [] then some (false, 0)
    else searchFrom ignoreCase forString strLen (p.peek m memory)
      p.mBuffer.GetSegmentCount.toNat 0 0 segment

end nsPipe

/-! ### What is searched right -/

/-- Where the string did not occur up to the end of a segment, the segment has no less than all but
one of its bytes; and it is not, unless it is the first one, the string without its last byte. -/
def Fits (w : List UInt8) : List UInt8 → List (List UInt8) → Prop
  | _, [] => True
  | done, piece :: rest =>
    (¬w <:+: done ++ piece → w.length ≤ piece.length + 1 ∧ (done ≠ [] → piece ≠ w.dropLast)) ∧
      Fits w (done ++ piece) rest

/-- Where the string is found, it is its first occurrence; otherwise it does not occur, and will not
occur before the offset. -/
def Answers (w u : List UInt8) : Bool × UInt32 → Prop
  | (true, offset) => FirstAt w u offset.toNat
  | (false, offset) => ¬w <:+: u ∧ ∀ later, NoneBefore w (u ++ later) offset.toNat

theorem Fits.of_isInfix {w : List UInt8} : ∀ {rest : List (List UInt8)} {done : List UInt8},
    w <:+: done → Fits w done rest
  | [], _, _ => trivial
  | piece :: _, done, h => by
    have hnext : w <:+: done ++ piece := h.trans (List.prefix_append done piece).isInfix
    exact ⟨fun hno => absurd hnext hno, .of_isInfix hnext⟩

theorem Fits.of_isInfix_append {w done piece : List UInt8} {rest : List (List UInt8)}
    (h : w <:+: done ++ piece) : Fits w done (piece :: rest) :=
  ⟨fun hno => absurd h hno, .of_isInfix h⟩

/-! ### Comparisons -/

theorem uc_eq_zero {c : UInt8} : uc c = 0 ↔ c = 0 := by
  unfold uc
  split
  · rename_i h
    have hlow := UInt8.le_iff_toNat_le.mp h.1
    have hlow' : 97 ≤ c.toNat := hlow
    have hsub : (c - 32).toNat = c.toNat - 32 :=
      UInt8.toNat_sub_of_le _ _ (UInt8.le_iff_toNat_le.mpr (by change 32 ≤ c.toNat; omega))
    rw [← UInt8.toNat_inj, ← UInt8.toNat_inj, hsub]
    change c.toNat - 32 = 0 ↔ c.toNat = 0
    omega
  · rfl

theorem fold_eq_zero {ignoreCase : Bool} {c : UInt8} : fold ignoreCase c = 0 ↔ c = 0 := by
  cases ignoreCase
  · rfl
  · exact uc_eq_zero

section Proofs

variable {ignoreCase : Bool} {forString segment next : List UInt8} {strLen : UInt32}

/-- A comparison either finds all bytes, or comes to the end of those that are in the pipe, or finds
a difference. -/
theorem COMPARE_eq : ∀ (s1 s2 : List UInt8) (i : ℕ), 0 ∉ s2 → i ≤ s2.length →
    COMPARE ignoreCase s1 s2 i =
      if (s2.map (fold ignoreCase)).take i <+: s1.map (fold ignoreCase) then some true
      else if s1.map (fold ignoreCase) <+: (s2.map (fold ignoreCase)).take i then none
      else some false
  | s1, s2, 0, _, _ => by
    cases s1 <;> simp [COMPARE]
  | [], s2, i + 1, _, hi => by
    cases s2 with
    | nil => simp at hi
    | cons b s2 => simp [COMPARE]
  | a :: s1, [], i + 1, _, hi => by simp at hi
  | a :: s1, b :: s2, i + 1, h0, hi => by
    rw [List.mem_cons, not_or] at h0
    have ih := COMPARE_eq s1 s2 i h0.2 (Nat.le_of_succ_le_succ hi)
    rw [COMPARE, List.headD_cons, List.tail_cons]
    simp only [List.map_cons, List.take_succ_cons, List.cons_prefix_cons]
    by_cases hab : fold ignoreCase a = fold ignoreCase b
    · have ha : a ≠ 0 := by
        rintro rfl
        exact h0.1 (fold_eq_zero.mp (hab.symm.trans (fold_eq_zero.mpr rfl))).symm
      rw [if_neg (not_not.mpr hab), if_neg ha, ih]
      simp only [hab, true_and]
    · rw [if_pos hab, if_neg fun h => hab h.1.symm, if_neg fun h => hab h.1]

/-- The outcomes of a loop. -/
theorem firstTurn_cases (found : UInt32 → Option Bool) : ∀ (turns i : ℕ),
    (∃ j < turns, found (UInt32.ofNat (i + j)) = some true ∧
      (∀ k < j, found (UInt32.ofNat (i + k)) = some false) ∧
      firstTurn found turns (UInt32.ofNat i) = some (some (UInt32.ofNat (i + j)))) ∨
    (∃ j < turns, found (UInt32.ofNat (i + j)) = none ∧
      (∀ k < j, found (UInt32.ofNat (i + k)) = some false) ∧
      firstTurn found turns (UInt32.ofNat i) = none) ∨
    (∀ k < turns, found (UInt32.ofNat (i + k)) = some false) ∧
      firstTurn found turns (UInt32.ofNat i) = some none
  | 0, i => .inr (.inr ⟨fun k hk => absurd hk (Nat.not_lt_zero k), rfl⟩)
  | turns + 1, i => by
    have hnext : UInt32.ofNat i + 1 = UInt32.ofNat (i + 1) := (UInt32.ofNat_add i 1).symm
    rw [firstTurn, hnext]
    have hshift : ∀ j, i + 1 + j = i + (j + 1) := fun j => by omega
    cases hfound : found (UInt32.ofNat i) with
    | none => exact .inr (.inl ⟨0, Nat.succ_pos _, hfound, by simp, rfl⟩)
    | some b =>
      cases b with
      | true => exact .inl ⟨0, Nat.succ_pos _, hfound, by simp, rfl⟩
      | false =>
        have hbefore : ∀ j, (∀ k < j, found (UInt32.ofNat (i + 1 + k)) = some false) →
            ∀ k < j + 1, found (UInt32.ofNat (i + k)) = some false := by
          intro j h k hk
          cases k with
          | zero => exact hfound
          | succ k =>
            rw [← hshift]
            exact h k (by omega)
        rcases firstTurn_cases found turns (i + 1) with ⟨j, hj, hat, hfalse, hrun⟩ |
          ⟨j, hj, hat, hfalse, hrun⟩ | ⟨hfalse, hrun⟩
        · rw [hshift] at hat hrun
          exact .inl ⟨j + 1, by omega, hat, hbefore j hfalse, hrun⟩
        · rw [hshift] at hat
          exact .inr (.inl ⟨j + 1, by omega, hat, hbefore j hfalse, hrun⟩)
        · exact .inr (.inr ⟨hbefore turns hfalse, hrun⟩)

/-! ### In one segment, and at a boundary -/

/-- The bytes of the string that are looked for. -/
def wanted (ignoreCase : Bool) (forString : List UInt8) (strLen : UInt32) : List UInt8 :=
  (forString.map (fold ignoreCase)).take strLen.toNat

variable (h0 : 0 ∉ forString) (hn : strLen.toNat ≤ forString.length) (hpos : 0 < strLen.toNat)

include hn in
theorem length_wanted : (wanted ignoreCase forString strLen).length = strLen.toNat := by
  rw [wanted, List.length_take, List.length_map, Nat.min_eq_left hn]

include hn hpos in
theorem wanted_ne_nil : wanted ignoreCase forString strLen ≠ [] := by
  intro hnil
  have hlen := @length_wanted ignoreCase forString strLen hn
  rw [hnil, List.length_nil] at hlen
  omega

include h0 hn in
theorem COMPARE_segment (i : ℕ) (hi : i < 2 ^ 32) :
    COMPARE ignoreCase (segment.drop (UInt32.ofNat i).toNat) forString strLen.toNat =
      if OccursAt (wanted ignoreCase forString strLen) (segment.map (fold ignoreCase)) i then
        some true
      else if (segment.map (fold ignoreCase)).drop i <+:
          wanted ignoreCase forString strLen then none
      else some false := by
  rw [COMPARE_eq _ _ _ h0 hn, UInt32.toNat_ofNat_of_lt' hi, List.map_drop]
  rfl

theorem searchSegment_eq : searchSegment ignoreCase forString strLen segment =
    firstTurn (fun i => COMPARE ignoreCase (segment.drop i.toNat) forString strLen.toNat)
      (UInt32.ofNat segment.length - strLen + 1).toNat (UInt32.ofNat 0) := rfl

include hpos in
theorem toNat_sub_add_one {n : ℕ} (hle : strLen.toNat ≤ n + 1) (hlt : n < 2 ^ 32) :
    (UInt32.ofNat n - strLen + 1).toNat = n + 1 - strLen.toNat := by
  rw [UInt32.toNat_add, UInt32.toNat_sub, UInt32.toNat_ofNat_of_lt' hlt]
  change (_ + 1) % 2 ^ 32 = _
  omega

/-- The bytes of an occurrence that are before a boundary. -/
theorem toNat_part1 {i : ℕ} (hi : i < strLen.toNat) :
    (strLen - UInt32.ofNat i - 1).toNat = strLen.toNat - 1 - i := by
  have hlt32 := strLen.toNat_lt
  have hinat : (UInt32.ofNat i).toNat = i := UInt32.toNat_ofNat_of_lt' (Nat.lt_trans hi hlt32)
  have hsub : (strLen - UInt32.ofNat i).toNat = strLen.toNat - i := by
    rw [UInt32.toNat_sub_of_le _ _ (by rw [UInt32.le_iff_toNat_le, hinat]; omega), hinat]
  rw [UInt32.toNat_sub_of_le _ _ (by rw [UInt32.le_iff_toNat_le, hsub]; change 1 ≤ _; omega), hsub]
  change _ - 1 = _
  omega

include h0 hn hpos

omit h0 hn hpos in
/-- Without a string, the first byte is as good as any, if the turns can be counted. -/
theorem searchFrom_empty {peek : UInt32 → Option (List UInt8)} {turns : ℕ}
    (hzero : strLen.toNat = 0) (hlt : segment.length + 1 < 2 ^ 32) :
    searchFrom ignoreCase forString strLen peek (turns + 1) 0 0 segment = some (true, 0) := by
  have hzero' : strLen = 0 := UInt32.toNat_inj.mp hzero
  have hbound : (UInt32.ofNat segment.length - 0 + 1).toNat = segment.length + 1 := by
    rw [UInt32.sub_zero, ← UInt32.ofNat_one, ← UInt32.ofNat_add, UInt32.toNat_ofNat_of_lt' hlt]
  have hsegment : searchSegment ignoreCase forString strLen segment = some (some 0) := by
    rw [searchSegment_eq, hzero', hbound, firstTurn]
    cases segment <;> simp [COMPARE]
  rw [searchFrom, hsegment]
  rfl

omit h0 hn hpos in
/-- If they cannot be counted, nothing is found. -/
theorem searchFrom_empty_full {peek : UInt32 → Option (List UInt8)} {turns : ℕ}
    (hzero : strLen.toNat = 0) (hfull : segment.length + 1 = 2 ^ 32) (hpeek : peek 1 = some []) :
    searchFrom ignoreCase forString strLen peek (turns + 1) 0 0 segment = some (false, 0) := by
  have hzero' : strLen = 0 := UInt32.toNat_inj.mp hzero
  have hlen : segment.length = 2 ^ 32 - 1 := by omega
  have hsegment : searchSegment ignoreCase forString strLen segment = some none := by
    rw [searchSegment_eq, hzero', hlen]
    rfl
  rw [searchFrom, hsegment]
  simp only [Option.bind_eq_bind, Option.bind_some]
  rw [show (0 : UInt32) + 1 = 1 from rfl, hpeek, Option.bind_some, if_pos rfl, hlen, hzero']
  rfl

/-- In a segment that is too short, the search reads behind its end. -/
theorem searchSegment_short (hlen : segment.length + 1 < strLen.toNat) :
    searchSegment ignoreCase forString strLen segment = none := by
  have hlt := strLen.toNat_lt
  have hlen1 : (UInt32.ofNat segment.length).toNat = segment.length :=
    UInt32.toNat_ofNat_of_lt' (by change _ < 2 ^ 32; omega)
  have hbound : (UInt32.ofNat segment.length - strLen + 1).toNat =
      2 ^ 32 + segment.length + 1 - strLen.toNat := by
    rw [UInt32.toNat_add, UInt32.toNat_sub, hlen1]
    change (_ + 1) % 2 ^ 32 = _
    omega
  have hw := @wanted_ne_nil ignoreCase forString strLen hn hpos
  have hno : ∀ i, ¬OccursAt (wanted ignoreCase forString strLen)
      (segment.map (fold ignoreCase)) i := by
    intro i hocc
    have hle := hocc.le hw
    rw [length_wanted hn, List.length_map] at hle
    omega
  rw [searchSegment_eq, hbound]
  rcases firstTurn_cases (fun i => COMPARE ignoreCase (segment.drop i.toNat) forString strLen.toNat)
    (2 ^ 32 + segment.length + 1 - strLen.toNat) 0 with
    ⟨j, hj, hat, -, -⟩ | ⟨-, -, -, -, hrun⟩ | ⟨hfalse, -⟩
  · rw [Nat.zero_add, COMPARE_segment h0 hn j (by omega), if_neg (hno j)] at hat
    split at hat <;> cases hat
  · exact hrun
  · have hat := hfalse segment.length (by omega)
    rw [Nat.zero_add, COMPARE_segment h0 hn _ (by omega), if_neg (hno _), if_pos] at hat
    · cases hat
    · rw [List.drop_eq_nil_of_le (by rw [List.length_map])]
      exact List.nil_prefix

/-- In the others, it finds the first occurrence. -/
theorem searchSegment_cases (hlen : strLen.toNat ≤ segment.length + 1)
    (hlt : segment.length < 2 ^ 32) :
    (∃ i, i + strLen.toNat ≤ segment.length ∧
      FirstAt (wanted ignoreCase forString strLen) (segment.map (fold ignoreCase)) i ∧
      searchSegment ignoreCase forString strLen segment = some (some (UInt32.ofNat i))) ∨
    NoneBefore (wanted ignoreCase forString strLen) (segment.map (fold ignoreCase))
      (segment.length + 1 - strLen.toNat) ∧
      searchSegment ignoreCase forString strLen segment = some none := by
  have hbound := toNat_sub_add_one hpos hlen hlt
  have hfalse : ∀ k, k < segment.length + 1 - strLen.toNat → COMPARE ignoreCase
      (segment.drop (UInt32.ofNat (0 + k)).toNat) forString strLen.toNat = some false →
      ¬OccursAt (wanted ignoreCase forString strLen) (segment.map (fold ignoreCase)) k := by
    intro k hk hcompare hocc
    rw [Nat.zero_add, COMPARE_segment h0 hn k (by omega), if_pos hocc] at hcompare
    cases hcompare
  rw [searchSegment_eq, hbound]
  rcases firstTurn_cases (fun i => COMPARE ignoreCase (segment.drop i.toNat) forString strLen.toNat)
    (segment.length + 1 - strLen.toNat) 0 with
    ⟨j, hj, hat, hbefore, hrun⟩ | ⟨j, hj, hat, -, -⟩ | ⟨hbefore, hrun⟩
  · refine .inl ⟨j, by omega, ⟨?_, fun k hk => hfalse k (by omega) (hbefore k hk)⟩, ?_⟩
    · rw [Nat.zero_add, COMPARE_segment h0 hn j (by omega)] at hat
      by_contra hno
      rw [if_neg hno] at hat
      split at hat <;> cases hat
    · rw [Nat.zero_add] at hrun
      exact hrun
  · exfalso
    rw [Nat.zero_add, COMPARE_segment h0 hn j (by omega)] at hat
    split at hat
    · cases hat
    · rename_i hno
      split at hat
      · rename_i hend
        apply hno
        refine (hend.eq_of_length_le ?_).symm ▸ List.prefix_rfl
        rw [length_wanted hn, List.length_drop, List.length_map]
        omega
      · cases hat
  · exact .inr ⟨fun k hk => hfalse k hk (hbefore k hk), hrun⟩

/-- Whether an occurrence begins `k` bytes before a boundary, or cannot be told from the bytes up
to the end of the next segment. -/
theorem straddles_eq {k : ℕ} (hk : k < strLen.toNat) (hlen : strLen.toNat ≤ segment.length + 1)
    (hlt : segment.length < 2 ^ 32) :
    straddles ignoreCase forString strLen segment next (UInt32.ofNat k) =
      if OccursAt (wanted ignoreCase forString strLen)
        (segment.map (fold ignoreCase) ++ next.map (fold ignoreCase)) (segment.length - k) then
        some true
      else if (wanted ignoreCase forString strLen).take k <+:
          (segment.map (fold ignoreCase)).drop (segment.length - k) ∧
          next.map (fold ignoreCase) <+: (wanted ignoreCase forString strLen).drop k then none
      else some false := by
  have hk32 := strLen.toNat_lt
  have hlen1 : (UInt32.ofNat segment.length).toNat = segment.length :=
    UInt32.toNat_ofNat_of_lt' hlt
  have hknat : (UInt32.ofNat k).toNat = k := UInt32.toNat_ofNat_of_lt' (Nat.lt_trans hk hk32)
  have hoffset : (UInt32.ofNat segment.length - UInt32.ofNat k).toNat = segment.length - k := by
    rw [UInt32.toNat_sub_of_le _ _ (by rw [UInt32.le_iff_toNat_le, hlen1, hknat]; omega), hlen1,
      hknat]
  have hpart2 : (strLen - UInt32.ofNat k).toNat = strLen.toNat - k := by
    rw [UInt32.toNat_sub_of_le _ _ (by rw [UInt32.le_iff_toNat_le, hknat]; omega), hknat]
  have hback : (strLen - (strLen - UInt32.ofNat k)).toNat = k := by
    rw [UInt32.toNat_sub_of_le _ _ (by rw [UInt32.le_iff_toNat_le, hpart2]; omega), hpart2]
    omega
  have htake : ((forString.map (fold ignoreCase)).take k) =
      (wanted ignoreCase forString strLen).take k := by
    rw [wanted, List.take_take, Nat.min_eq_left hk.le]
  have hdrop : (((forString.drop k).map (fold ignoreCase)).take (strLen.toNat - k)) =
      (wanted ignoreCase forString strLen).drop k := by
    rw [wanted, List.drop_take, List.map_drop]
  have hfront : ((segment.map (fold ignoreCase)).drop (segment.length - k)).length = k := by
    rw [List.length_drop, List.length_map]
    omega
  have hwant : ((wanted ignoreCase forString strLen).take k).length = k := by
    rw [List.length_take, length_wanted hn]
    omega
  have hocc := @occursAt_append_iff _ (wanted ignoreCase forString strLen)
    (segment.map (fold ignoreCase)) (next.map (fold ignoreCase)) (segment.length - k) k
    (by rw [List.length_map]; omega) (by rw [length_wanted hn]; omega)
  have hrest : 0 ∉ forString.drop k := fun hmem => h0 (List.mem_of_mem_drop hmem)
  unfold straddles
  simp only [Option.bind_eq_bind]
  rw [hoffset, hknat, hpart2, hback, COMPARE_eq _ _ _ h0 (by omega),
    COMPARE_eq _ _ _ hrest (by rw [List.length_drop]; omega), List.map_drop, htake, hdrop]
  by_cases hfirst : (wanted ignoreCase forString strLen).take k <+:
      (segment.map (fold ignoreCase)).drop (segment.length - k)
  · rw [if_pos hfirst, Option.bind_some, if_pos rfl]
    simp only [hocc, hfirst, true_and]
  · have hnot : ¬(segment.map (fold ignoreCase)).drop (segment.length - k) <+:
        (wanted ignoreCase forString strLen).take k := by
      intro hpre
      exact hfirst (hpre.eq_of_length (hfront.trans hwant.symm) ▸ List.prefix_rfl)
    rw [if_neg hfirst, if_neg hnot, Option.bind_some, if_neg (by decide)]
    simp only [hocc, hfirst, false_and, if_false]

omit h0 hn hpos in
theorem searchStraddling_eq : searchStraddling ignoreCase forString strLen segment next =
    firstTurn (fun i => straddles ignoreCase forString strLen segment next (strLen - i - 1))
      (if strLen < UInt32.ofNat next.length + 1 then strLen
        else UInt32.ofNat next.length + 1).toNat (UInt32.ofNat 0) := rfl

/-- The turn `i` looks for an occurrence that ends `i + 1` bytes behind the boundary. -/
theorem straddles_turn {i : ℕ} (hi : i < strLen.toNat) (hlen : strLen.toNat ≤ segment.length + 1)
    (hlt : segment.length < 2 ^ 32) :
    straddles ignoreCase forString strLen segment next (strLen - UInt32.ofNat (0 + i) - 1) =
      if OccursAt (wanted ignoreCase forString strLen)
        (segment.map (fold ignoreCase) ++ next.map (fold ignoreCase))
        (segment.length + 1 + i - strLen.toNat) then some true
      else if (wanted ignoreCase forString strLen).take (strLen.toNat - 1 - i) <+:
          (segment.map (fold ignoreCase)).drop (segment.length + 1 + i - strLen.toNat) ∧
          next.map (fold ignoreCase) <+:
            (wanted ignoreCase forString strLen).drop (strLen.toNat - 1 - i) then none
      else some false := by
  have hlt32 := strLen.toNat_lt
  have hpart1 : strLen - UInt32.ofNat (0 + i) - 1 = UInt32.ofNat (strLen.toNat - 1 - i) := by
    rw [Nat.zero_add, ← UInt32.toNat_inj, toNat_part1 hi,
      UInt32.toNat_ofNat_of_lt' (by change _ < 2 ^ 32; omega)]
  have hplace : segment.length - (strLen.toNat - 1 - i) =
      segment.length + 1 + i - strLen.toNat := by
    omega
  rw [hpart1, straddles_eq h0 hn hpos (by omega) hlen hlt, hplace]

/-- At a boundary the search finds the first occurrence; or it reads behind the end of the next
segment; or no occurrence begins before the boundary. -/
theorem searchStraddling_cases (hlen : strLen.toNat ≤ segment.length + 1)
    (hlt : segment.length < 2 ^ 32) (hlt' : next.length + 1 < 2 ^ 32) :
    (∃ i < strLen.toNat, i < next.length ∧
      OccursAt (wanted ignoreCase forString strLen)
        (segment.map (fold ignoreCase) ++ next.map (fold ignoreCase))
        (segment.length + 1 + i - strLen.toNat) ∧
      (∀ k < i, ¬OccursAt (wanted ignoreCase forString strLen)
        (segment.map (fold ignoreCase) ++ next.map (fold ignoreCase))
        (segment.length + 1 + k - strLen.toNat)) ∧
      searchStraddling ignoreCase forString strLen segment next = some (some (UInt32.ofNat i))) ∨
    (next.length < strLen.toNat ∧
      (next.length + 1 = strLen.toNat →
        next.map (fold ignoreCase) = (wanted ignoreCase forString strLen).dropLast) ∧
      (∀ k < next.length, ¬OccursAt (wanted ignoreCase forString strLen)
        (segment.map (fold ignoreCase) ++ next.map (fold ignoreCase))
        (segment.length + 1 + k - strLen.toNat)) ∧
      searchStraddling ignoreCase forString strLen segment next = none) ∨
    (next.map (fold ignoreCase) ≠ (wanted ignoreCase forString strLen).dropLast ∧
      (∀ k < strLen.toNat, k ≤ next.length → ¬OccursAt (wanted ignoreCase forString strLen)
        (segment.map (fold ignoreCase) ++ next.map (fold ignoreCase))
        (segment.length + 1 + k - strLen.toNat)) ∧
      searchStraddling ignoreCase forString strLen segment next = some none) := by
  obtain ⟨w, hwdef⟩ : ∃ w, w = wanted ignoreCase forString strLen := ⟨_, rfl⟩
  have hwlen : w.length = strLen.toNat := hwdef ▸ length_wanted hn
  have hw : w ≠ [] := hwdef ▸ wanted_ne_nil hn hpos
  have hlim : (if strLen < UInt32.ofNat next.length + 1 then strLen
      else UInt32.ofNat next.length + 1).toNat = min strLen.toNat (next.length + 1) := by
    have hlen2 : (UInt32.ofNat next.length + 1).toNat = next.length + 1 := by
      rw [← UInt32.ofNat_one, ← UInt32.ofNat_add, UInt32.toNat_ofNat_of_lt' hlt']
    by_cases hless : strLen < UInt32.ofNat next.length + 1
    · rw [if_pos hless]
      rw [UInt32.lt_iff_toNat_lt, hlen2] at hless
      omega
    · rw [if_neg hless, hlen2]
      rw [UInt32.lt_iff_toNat_lt, hlen2] at hless
      omega
  have hturn := @straddles_turn ignoreCase forString segment next strLen h0 hn hpos
  rw [← hwdef] at hturn ⊢
  have hnotrue : ∀ k, k < strLen.toNat →
      straddles ignoreCase forString strLen segment next (strLen - UInt32.ofNat (0 + k) - 1) ≠
        some true →
      ¬OccursAt w (segment.map (fold ignoreCase) ++ next.map (fold ignoreCase))
        (segment.length + 1 + k - strLen.toNat) := by
    intro k hk hne hocc
    rw [hturn hk hlen hlt, if_pos hocc] at hne
    exact hne rfl
  rw [searchStraddling_eq, hlim]
  rcases firstTurn_cases
    (fun i => straddles ignoreCase forString strLen segment next (strLen - i - 1))
    (min strLen.toNat (next.length + 1)) 0 with
    ⟨j, hj, hat, hbefore, hrun⟩ | ⟨j, hj, hat, hbefore, hrun⟩ | ⟨hbefore, hrun⟩
  · have hjlen : j < strLen.toNat := by omega
    have hocc : OccursAt w (segment.map (fold ignoreCase) ++ next.map (fold ignoreCase))
        (segment.length + 1 + j - strLen.toNat) := by
      rw [hturn hjlen hlen hlt] at hat
      by_contra hno
      rw [if_neg hno] at hat
      split at hat <;> cases hat
    have hle := hocc.le hw
    rw [List.length_append, List.length_map, List.length_map, hwlen] at hle
    refine .inl ⟨j, hjlen, by omega, hocc, fun k hk => hnotrue k (by omega) ?_, ?_⟩
    · rw [hbefore k hk]
      simp
    · rw [hrun, Nat.zero_add]
  · right
    left
    have hjlen : j < strLen.toNat := by omega
    rw [hturn hjlen hlen hlt] at hat
    split at hat
    · cases hat
    · rename_i hno
      split at hat
      · rename_i hend
        have hplace : segment.length + 1 + j - strLen.toNat + (strLen.toNat - 1 - j) =
            (segment.map (fold ignoreCase)).length := by
          rw [List.length_map]
          omega
        rw [occursAt_append_iff hplace (by omega), not_and] at hno
        have hback := hno hend.1
        have hnextlen : next.length ≤ j := by
          by_contra hgt
          apply hback
          have heq := hend.2.eq_of_length_le
            (by rw [List.length_drop, List.length_map, hwlen]; omega)
          exact heq ▸ List.prefix_rfl
        obtain rfl : j = next.length := by omega
        refine ⟨hjlen, fun hshort => ?_, fun k hk => hnotrue k (by omega) ?_, hrun⟩
        · have hpre := hend.2
          rw [show strLen.toNat - 1 - next.length = 0 by omega, List.drop_zero] at hpre
          rw [List.dropLast_eq_take, hwlen, ← hshort, Nat.add_sub_cancel]
          rw [List.prefix_iff_eq_take, List.length_map] at hpre
          exact hpre
        · rw [hbefore k hk]
          simp
      · cases hat
  · refine .inr (.inr ⟨fun heq => ?_, fun k hk hk' => hnotrue k hk ?_, hrun⟩)
    · have hlenEq : next.length + 1 = strLen.toNat := by
        have hcongr := congrArg List.length heq
        rw [List.length_map, List.length_dropLast, hwlen] at hcongr
        omega
      have hat := hbefore next.length (by omega)
      have hzero : strLen.toNat - 1 - next.length = 0 := by omega
      rw [hturn (by omega) hlen hlt, hzero, List.take_zero, List.drop_zero] at hat
      split at hat
      · cases hat
      · rw [if_pos ⟨List.nil_prefix, heq ▸ List.dropLast_prefix w⟩] at hat
        cases hat
    · rw [hbefore k (by omega)]
      simp

/-! ### The loop -/

/-- A segment, with the bytes `done` before it and `back` behind it. -/
theorem segment_step {w done back u : List UInt8} (hwanted : w = wanted ignoreCase forString strLen)
    (hu : u = done ++ (segment.map (fold ignoreCase) ++ back)) (hlt : segment.length < 2 ^ 32)
    (hfirst : NoneBefore w u done.length) :
    (segment.length + 1 < w.length ∧ ¬w <:+: done ++ segment.map (fold ignoreCase) ∧
      searchSegment ignoreCase forString strLen segment = none) ∨
    (∃ i, i + w.length ≤ segment.length ∧ FirstAt w u (done.length + i) ∧
      w <:+: done ++ segment.map (fold ignoreCase) ∧
      searchSegment ignoreCase forString strLen segment = some (some (UInt32.ofNat i))) ∨
    (w.length ≤ segment.length + 1 ∧ ¬w <:+: done ++ segment.map (fold ignoreCase) ∧
      NoneBefore w u (done.length + (segment.length + 1 - w.length)) ∧
      searchSegment ignoreCase forString strLen segment = some none) := by
  have hwlen : w.length = strLen.toNat := hwanted ▸ length_wanted hn
  have hw : w ≠ [] := hwanted ▸ wanted_ne_nil hn hpos
  have hplace : ∀ k, OccursAt w u (done.length + k) ↔
      OccursAt w (segment.map (fold ignoreCase) ++ back) k := by
    intro k
    rw [hu, occursAt_append_right]
  have hassoc : u = (done ++ segment.map (fold ignoreCase)) ++ back := by
    rw [hu, List.append_assoc]
  have hlength : (done ++ segment.map (fold ignoreCase)).length = done.length + segment.length := by
    rw [List.length_append, List.length_map]
  by_cases hlen : segment.length + 1 < w.length
  · refine .inl ⟨hlen, (hassoc ▸ hfirst).not_isInfix hw (by omega), ?_⟩
    exact searchSegment_short h0 hn hpos (by omega)
  · right
    rcases @searchSegment_cases ignoreCase forString segment strLen h0 hn hpos (by omega) hlt with
      ⟨i, hi, ⟨hocc, hbefore⟩, hrun⟩ | ⟨hbefore, hrun⟩
    · rw [← hwanted] at hocc hbefore
      have hat : OccursAt w (done ++ segment.map (fold ignoreCase)) (done.length + i) :=
        occursAt_append_right.mpr hocc
      refine .inl ⟨i, by omega, ⟨hassoc ▸ hat.append back, hfirst.extend fun k hk hki hno => ?_⟩,
        hat.isInfix, hrun⟩
      obtain ⟨j, rfl⟩ := Nat.exists_eq_add_of_le hk
      rw [hplace, occursAt_append_left (by rw [List.length_map]; omega)] at hno
      exact hbefore j (by omega) hno
    · rw [← hwanted] at hbefore
      have hnone : NoneBefore w u (done.length + (segment.length + 1 - w.length)) := by
        refine hfirst.extend fun k hk hki hno => ?_
        obtain ⟨j, rfl⟩ := Nat.exists_eq_add_of_le hk
        rw [hplace, occursAt_append_left (by rw [List.length_map]; omega)] at hno
        exact hbefore j (by omega) hno
      exact .inr ⟨by omega, (hassoc ▸ hnone).not_isInfix hw (by omega), hnone, hrun⟩

/-- A boundary of two segments. -/
theorem boundary_step {w done back u : List UInt8}
    (hwanted : w = wanted ignoreCase forString strLen)
    (hu : u = done ++ ((segment.map (fold ignoreCase) ++ next.map (fold ignoreCase)) ++ back))
    (hlt : segment.length < 2 ^ 32) (hlt' : next.length + 1 < 2 ^ 32)
    (hlen : w.length ≤ segment.length + 1)
    (hfirst : NoneBefore w u (done.length + (segment.length + 1 - w.length))) :
    (∃ i < w.length, FirstAt w u (done.length + (segment.length + 1 + i - w.length)) ∧
      w <:+: done ++ segment.map (fold ignoreCase) ++ next.map (fold ignoreCase) ∧
      searchStraddling ignoreCase forString strLen segment next = some (some (UInt32.ofNat i))) ∨
    (¬w <:+: done ++ segment.map (fold ignoreCase) ++ next.map (fold ignoreCase) ∧
      (w.length ≤ next.length + 1 → next.map (fold ignoreCase) = w.dropLast) ∧
      searchStraddling ignoreCase forString strLen segment next = none) ∨
    (next.map (fold ignoreCase) ≠ w.dropLast ∧
      (w.length ≤ next.length + 1 → NoneBefore w u (done.length + segment.length)) ∧
      (next.length + 1 < w.length →
        ¬w <:+: done ++ segment.map (fold ignoreCase) ++ next.map (fold ignoreCase)) ∧
      searchStraddling ignoreCase forString strLen segment next = some none) := by
  have hwlen : w.length = strLen.toNat := hwanted ▸ length_wanted hn
  have hw : w ≠ [] := hwanted ▸ wanted_ne_nil hn hpos
  have hassoc : u =
      (done ++ segment.map (fold ignoreCase) ++ next.map (fold ignoreCase)) ++ back := by
    rw [hu, List.append_assoc, List.append_assoc, List.append_assoc]
  have hlength : (done ++ segment.map (fold ignoreCase) ++ next.map (fold ignoreCase)).length =
      done.length + segment.length + next.length := by
    rw [List.length_append, List.length_append, List.length_map, List.length_map]
  -- what was looked at up to the turn `i`
  have hextend : ∀ i ≤ next.length,
      (∀ k < i, ¬OccursAt w (segment.map (fold ignoreCase) ++ next.map (fold ignoreCase))
        (segment.length + 1 + k - w.length)) →
      NoneBefore w u (done.length + (segment.length + 1 + i - w.length)) := by
    intro i hi hnot
    refine hfirst.extend fun k hk hki hno => ?_
    obtain ⟨j, rfl⟩ : ∃ j, k = done.length + (segment.length + 1 + j - w.length) :=
      ⟨k - done.length + w.length - (segment.length + 1), by omega⟩
    have hin : segment.length + 1 + j - w.length + w.length ≤
        (segment.map (fold ignoreCase) ++ next.map (fold ignoreCase)).length := by
      rw [List.length_append, List.length_map, List.length_map]
      omega
    rw [hu, occursAt_append_right, occursAt_append_left hin] at hno
    exact hnot j (by omega) hno
  have hnotin : (∀ k < next.length,
      ¬OccursAt w (segment.map (fold ignoreCase) ++ next.map (fold ignoreCase))
        (segment.length + 1 + k - w.length)) →
      ¬w <:+: done ++ segment.map (fold ignoreCase) ++ next.map (fold ignoreCase) := fun hnot =>
    (hassoc ▸ hextend _ (Nat.le_refl _) hnot).not_isInfix hw (by omega)
  rcases @searchStraddling_cases ignoreCase forString segment next strLen h0 hn hpos (by omega) hlt
    hlt' with ⟨i, hi, hin, hocc, hbefore, hrun⟩ | ⟨hin, hend, hbefore, hrun⟩ | ⟨hend, hbefore, hrun⟩
  · rw [← hwanted, ← hwlen] at hocc hbefore
    have hat : OccursAt w (done ++ (segment.map (fold ignoreCase) ++ next.map (fold ignoreCase)))
        (done.length + (segment.length + 1 + i - w.length)) := occursAt_append_right.mpr hocc
    rw [← List.append_assoc] at hat
    refine .inl ⟨i, by omega, ⟨hassoc ▸ hat.append back, hextend i hin.le hbefore⟩, hat.isInfix,
      hrun⟩
  · rw [← hwanted, ← hwlen] at hbefore
    rw [← hwanted] at hend
    exact .inr (.inl ⟨hnotin hbefore, fun hle => hend (by omega), hrun⟩)
  · rw [← hwanted, ← hwlen] at hbefore
    rw [← hwanted] at hend
    refine .inr (.inr ⟨hend, fun hle => ?_, fun hless => ?_, hrun⟩)
    · have hnone := hextend (w.length - 1) (by omega) fun k hk => hbefore k (by omega) (by omega)
      rw [show segment.length + 1 + (w.length - 1) - w.length = segment.length by omega] at hnone
      exact hnone
    · exact hnotin fun k hk => hbefore k (by omega) hk.le

/-- What is searched right if it fits, and else has no result. -/
structure Searched (w u : List UInt8) (fits : Prop) (r : Option (Bool × UInt32)) : Prop where
  answers : fits → ∃ answer, r = some answer ∧ Answers w u answer
  stuck : ¬fits → r = none

omit h0 hn hpos in
theorem Searched.of_answers {w u : List UInt8} {fits : Prop} {answer : Bool × UInt32} (hfits : fits)
    (h : Answers w u answer) : Searched w u fits (some answer) :=
  ⟨fun _ => ⟨answer, rfl, h⟩, fun hno => absurd hfits hno⟩

omit h0 hn hpos in
theorem Searched.of_stuck {w u : List UInt8} {fits : Prop} (hfits : ¬fits) :
    Searched w u fits none :=
  ⟨fun h => absurd h hfits, fun _ => rfl⟩

theorem searchFrom_short {peek : UInt32 → Option (List UInt8)} {turns : ℕ} {index offset : UInt32}
    (hlen : segment.length + 1 < strLen.toNat) :
    searchFrom ignoreCase forString strLen peek turns index offset segment = none := by
  cases turns with
  | zero => rfl
  | succ turns =>
    rw [searchFrom, searchSegment_short h0 hn hpos hlen]
    rfl

/-- The segments from one on, of which no occurrence begins before, are searched right if they fit,
and else the search reads behind the end of one. By induction on the turns of the loop. -/
theorem searchFrom_spec {w : List UInt8} (hwanted : w = wanted ignoreCase forString strLen)
    {peek : UInt32 → Option (List UInt8)} {pieces : List (List UInt8)}
    (hpeek : ∀ i, peek i = some (pieces.getD i.toNat [])) (hcount : pieces.length < 2 ^ 32)
    (hne : ∀ piece ∈ pieces, piece ≠ []) (hlt : pieces.flatten.length < 2 ^ 32) :
    ∀ (turns : ℕ) (rest before : List (List UInt8)) (segment : List UInt8),
    pieces = before ++ segment :: rest → rest.length < turns →
    NoneBefore w (pieces.flatten.map (fold ignoreCase)) before.flatten.length →
    (before.flatten ≠ [] → segment.map (fold ignoreCase) ≠ w.dropLast) →
    Searched w (pieces.flatten.map (fold ignoreCase))
      (Fits w (before.flatten.map (fold ignoreCase))
        ((segment :: rest).map (List.map (fold ignoreCase))))
      (searchFrom ignoreCase forString strLen peek turns (UInt32.ofNat before.length)
        (UInt32.ofNat before.flatten.length) segment) := by
  have hwlen : w.length = strLen.toNat := hwanted ▸ length_wanted hn
  have hw : w ≠ [] := hwanted ▸ wanted_ne_nil hn hpos
  intro turns
  induction turns with
  | zero => exact fun rest _ _ _ hturns => absurd hturns (Nat.not_lt_zero _)
  | succ turns ih =>
    intro rest before segment hpieces hturns hfirst hentry
    have hu : pieces.flatten.map (fold ignoreCase) = before.flatten.map (fold ignoreCase) ++
        (segment.map (fold ignoreCase) ++ rest.flatten.map (fold ignoreCase)) := by
      simp [hpieces]
    have htotal : pieces.flatten.length =
        before.flatten.length + segment.length + rest.flatten.length := by
      simp [hpieces, Nat.add_assoc]
    have hdone : (before.flatten.map (fold ignoreCase)).length = before.flatten.length :=
      List.length_map _
    have hall : (before ++ [segment]).flatten.length = before.flatten.length + segment.length := by
      simp
    have hoffset : UInt32.ofNat before.flatten.length + UInt32.ofNat segment.length =
        UInt32.ofNat (before ++ [segment]).flatten.length := by
      rw [← UInt32.ofNat_add]
      simp
    have hindex : UInt32.ofNat before.length + 1 = UInt32.ofNat (before ++ [segment]).length := by
      rw [← UInt32.ofNat_one, ← UInt32.ofNat_add]
      simp
    rw [List.map_cons]
    rcases segment_step h0 hn hpos hwanted hu (by omega) (hdone.symm ▸ hfirst) with
      ⟨hshort, hnot, hrun⟩ | ⟨i, hi, hat, hin, hrun⟩ | ⟨hlen, hnot, hnone, hrun⟩
    · rw [searchFrom, hrun]
      refine .of_stuck fun hfits => absurd (hfits.1 hnot).1 ?_
      rw [List.length_map]
      omega
    · rw [searchFrom, hrun]
      refine .of_answers (Fits.of_isInfix_append hin) ?_
      rw [hdone] at hat
      rw [← UInt32.ofNat_add, Answers, UInt32.toNat_ofNat_of_lt' (by change _ < 2 ^ 32; omega)]
      exact hat
    · have hfits : Fits w (before.flatten.map (fold ignoreCase))
            (segment.map (fold ignoreCase) :: rest.map (List.map (fold ignoreCase))) ↔
          Fits w ((before ++ [segment]).flatten.map (fold ignoreCase))
            (rest.map (List.map (fold ignoreCase))) := by
        rw [List.flatten_append, List.map_append, List.flatten_singleton]
        have hlength : w.length ≤ (segment.map (fold ignoreCase)).length + 1 := by
          rw [List.length_map]
          omega
        refine ⟨fun h => h.2, fun h => ⟨fun _ => ⟨hlength, fun hne => ?_⟩, h⟩⟩
        exact hentry fun hnil => hne (by rw [hnil]; rfl)
      have hlength : (before ++ [segment]).length < 2 ^ 32 := by
        rw [hpieces, List.length_append, List.length_cons] at hcount
        rw [List.length_append, List.length_singleton]
        omega
      rw [hfits, searchFrom, hrun]
      simp only [Option.bind_eq_bind, Option.bind_some]
      rw [hoffset, hindex, hpeek, UInt32.toNat_ofNat_of_lt' hlength, Option.bind_some]
      cases rest with
      | nil =>
        have hend : pieces.getD (before ++ [segment]).length [] = [] := by
          rw [hpieces]
          simp
        rw [hend, if_pos rfl]
        have hlen' := toNat_sub_add_one hpos
          (show strLen.toNat ≤ (before ++ [segment]).flatten.length + 1 by omega) (by omega)
        rw [List.flatten_nil, List.length_nil, Nat.add_zero] at htotal
        have hulen : (pieces.flatten.map (fold ignoreCase)).length =
            before.flatten.length + segment.length := by
          rw [List.length_map, htotal]
        rw [← List.append_nil (pieces.flatten.map (fold ignoreCase))] at hnone
        refine .of_answers trivial ⟨hnone.not_isInfix hw (by omega), fun later => ?_⟩
        rw [List.append_nil] at hnone
        rw [hlen', show (before ++ [segment]).flatten.length + 1 - strLen.toNat =
          (before.flatten.map (fold ignoreCase)).length + (segment.length + 1 - w.length) by omega]
        exact hnone.append (by omega) later
      | cons next rest =>
        have hnext : pieces.getD (before ++ [segment]).length [] = next := by
          rw [hpieces]
          simp
        have hnonempty : next ≠ [] := hne next (by rw [hpieces]; simp)
        rw [hnext, if_neg hnonempty]
        have hpieces' : pieces = (before ++ [segment]) ++ next :: rest := by
          rw [hpieces, List.append_assoc]
          rfl
        have hu' : pieces.flatten.map (fold ignoreCase) = before.flatten.map (fold ignoreCase) ++
            ((segment.map (fold ignoreCase) ++ next.map (fold ignoreCase)) ++
              rest.flatten.map (fold ignoreCase)) := by
          simp [hpieces]
        have hsegment : segment ≠ [] := hne segment (by rw [hpieces]; simp)
        have hpos' := List.length_pos_iff.mpr hsegment
        rw [List.flatten_cons, List.length_append] at htotal
        have hdone' : (before ++ [segment]).flatten.map (fold ignoreCase) =
            before.flatten.map (fold ignoreCase) ++ segment.map (fold ignoreCase) := by
          simp
        rcases boundary_step h0 hn hpos hwanted hu' (by omega) (by omega) hlen hnone with
          ⟨i, hi, hat, hin, hrun'⟩ | ⟨hnotin, hend, hrun'⟩ | ⟨hdiff, hbefore, hnotin, hrun'⟩
        · rw [hrun']
          rw [← hdone'] at hin
          refine .of_answers (Fits.of_isInfix_append hin) ?_
          have hplace : (UInt32.ofNat (before ++ [segment]).flatten.length -
              (strLen - UInt32.ofNat i - 1)).toNat =
              before.flatten.length + (segment.length + 1 + i - w.length) := by
            have hpart1 := toNat_part1 (hwlen ▸ hi)
            have hboundary : (UInt32.ofNat (before ++ [segment]).flatten.length).toNat =
                before.flatten.length + segment.length := by
              rw [hall, UInt32.toNat_ofNat_of_lt' (by change _ < 2 ^ 32; omega)]
            rw [UInt32.toNat_sub_of_le _ _
              (by rw [UInt32.le_iff_toNat_le, hboundary, hpart1]; omega), hboundary, hpart1]
            omega
          rw [Answers, hplace]
          rw [hdone] at hat
          exact hat
        · rw [hrun']
          refine .of_stuck fun hfit => ?_
          rw [List.map_cons, hdone'] at hfit
          obtain ⟨hle, hother⟩ := hfit.1 hnotin
          rw [List.length_map] at hle
          refine hother (fun hnil => ?_) (hend hle)
          rw [List.append_eq_nil_iff, List.map_eq_nil_iff] at hnil
          exact hsegment (List.map_eq_nil_iff.mp hnil.2)
        · rw [hrun']
          by_cases hshort : next.length + 1 < w.length
          · rw [Option.bind_some]
            dsimp only
            rw [searchFrom_short h0 hn hpos (hwlen ▸ hshort)]
            refine .of_stuck fun hfit => absurd (hfit.1 ?_).1 (by rw [List.length_map]; omega)
            rw [hdone']
            exact hnotin hshort
          · refine ih rest (before ++ [segment]) next hpieces' ?_ ?_ fun _ => hdiff
            · rw [List.length_cons] at hturns
              omega
            · rw [hall, ← hdone]
              exact hbefore (by omega)

end Proofs

/-! ### The pipe -/

/-- The bytes in a pipe, segment by segment. -/
def pieces (memory : Segment → ℕ → UInt8) (s wo : ℕ) : List Segment → ℕ → List (List UInt8)
  | [], _ => []
  | [seg], ro => [bytesAt memory seg ro (wo - ro)]
  | seg :: next :: rest, ro => bytesAt memory seg ro (s - ro) :: pieces memory s wo (next :: rest) 0

/-- Without the last segment, if nothing is in it yet. -/
def filled (memory : Segment → ℕ → UInt8) (s wo : ℕ) (q : List Segment) (ro : ℕ) :
    List (List UInt8) := (pieces memory s wo q ro).filter (· ≠ [])

section Pieces

variable {memory : Segment → ℕ → UInt8} {s ro wo : ℕ}

theorem flatten_pieces : ∀ (q : List Segment) (ro : ℕ),
    (pieces memory s wo q ro).flatten = stored memory s wo q ro
  | [], _ => rfl
  | [seg], ro => by simp [pieces, stored]
  | seg :: next :: rest, ro => by
    rw [pieces, stored, List.flatten_cons, flatten_pieces (next :: rest) 0]

theorem length_pieces : ∀ (q : List Segment) (ro : ℕ), (pieces memory s wo q ro).length = q.length
  | [], _ => rfl
  | [seg], ro => rfl
  | seg :: next :: rest, ro => by
    rw [pieces, List.length_cons, length_pieces (next :: rest) 0, List.length_cons (a := seg)]

/-- The segments behind the first one are read from their beginning. -/
theorem getElem?_pieces {seg : Segment} : ∀ (q : List Segment) (ro i : ℕ), q[i]? = some seg →
    (pieces memory s wo q ro)[i]? = some (bytesAt memory seg (if i = 0 then ro else 0)
      ((if i + 1 = q.length then wo else s) - if i = 0 then ro else 0))
  | [], _, _, hget => by simp at hget
  | [first], ro, i, hget => by
    cases i with
    | zero =>
      obtain rfl : first = seg := by simpa using hget
      rfl
    | succ i => simp at hget
  | first :: next :: rest, ro, i, hget => by
    cases i with
    | zero =>
      obtain rfl : first = seg := by simpa using hget
      simp [pieces]
    | succ i =>
      rw [List.getElem?_cons_succ] at hget
      rw [pieces, List.getElem?_cons_succ, getElem?_pieces (next :: rest) 0 i hget]
      simp

theorem flatten_filled (q : List Segment) (ro : ℕ) :
    (filled memory s wo q ro).flatten = stored memory s wo q ro := by
  rw [← flatten_pieces, filled]
  induction pieces memory s wo q ro with
  | nil => rfl
  | cons piece rest ih =>
    by_cases hnil : piece = []
    · rw [List.filter_cons_of_neg (by simp [hnil]), ih, hnil, List.flatten_cons, List.nil_append]
    · rw [List.filter_cons_of_pos (by simp [hnil]), List.flatten_cons, List.flatten_cons, ih]

end Pieces

/-- What is left out at the end cannot be told from what is not there. -/
theorem getD_filter {α : Type*} [DecidableEq α] : ∀ (l : List (List α)) (i : ℕ),
    (∀ piece ∈ l.dropLast, piece ≠ []) → (l.filter (· ≠ [])).getD i [] = l.getD i []
  | [], _, _ => rfl
  | [piece], i, _ => by
    by_cases hnil : piece = []
    · rw [List.filter_cons_of_neg (by simp [hnil])]
      cases i <;> simp [hnil]
    · rw [List.filter_cons_of_pos (by simp [hnil])]
      rfl
  | piece :: next :: rest, i, h => by
    have hne : piece ≠ [] := h piece (by simp)
    rw [List.filter_cons_of_pos (by simp [hne])]
    cases i with
    | zero => rfl
    | succ i =>
      rw [List.getD_cons_succ, List.getD_cons_succ]
      refine getD_filter (next :: rest) i fun other hmem => h other ?_
      rw [List.dropLast_cons_of_ne_nil (List.cons_ne_nil _ _)]
      exact List.mem_cons_of_mem _ hmem

namespace nsPipe

variable {m : Machine} {p : nsPipe} {n ro wo : ℕ} {q : List Segment}
  {memory : Segment → ℕ → UInt8}

namespace Laid

variable (h : p.Laid n q ro wo)
include h

theorem length_stored : (stored memory p.size wo q ro).length < 2 ^ 32 :=
  Nat.lt_of_le_of_lt (length_stored_le memory h.write_le q ro) h.size_lt

/-- Only the last segment can be without bytes. -/
theorem pieces_ne_nil : ∀ piece ∈ (pieces memory p.size wo q ro).dropLast, piece ≠ [] := by
  intro piece hmem hnil
  obtain ⟨i, hi⟩ := List.mem_iff_getElem?.mp hmem
  have hlast : i + 1 < q.length := by
    have hlt := (List.getElem?_eq_some_iff.mp hi).1
    rw [List.length_dropLast, length_pieces] at hlt
    omega
  rw [List.getElem?_dropLast, length_pieces, if_pos (by omega),
    getElem?_pieces q ro i (List.getElem?_eq_getElem (show i < q.length by omega)),
    if_neg (show ¬i + 1 = q.length by omega)] at hi
  have hlen := congrArg List.length (Option.some.inj hi)
  rw [length_bytesAt, hnil, List.length_nil] at hlen
  have hpos := h.pos
  split at hlen
  · have hlimit : limitOf p.size wo q = p.size := by
      match q with
      | [] => simp at hlast
      | [_] => simp at hlast
      | _ :: _ :: _ => rfl
    have hle := h.read_le
    have hq : q ≠ [] := by
      rintro rfl
      simp at hlast
    have hone := h.unread hq (by omega)
    omega
  · omega

theorem peek_eq (i : UInt32) :
    p.peek m memory i = some ((filled memory p.size wo q ro).getD i.toNat []) := by
  rw [filled, getD_filter _ _ h.pieces_ne_nil]
  have hcount := h.holds.segmentCount
  have hin : ∀ seg, q[i.toNat]? = some seg → ∀ lo hi,
      lo = (if i.toNat = 0 then ro else 0) → hi = (if i.toNat + 1 = q.length then wo else p.size) →
      p.PeekSegment i = some (some ⟨seg, lo⟩, some ⟨seg, hi⟩) →
      p.peek m memory i = some ((pieces memory p.size wo q ro).getD i.toNat []) := by
    intro seg hseg lo hi hlo hhi hpeek
    rw [List.getD_eq_getElem?_getD, getElem?_pieces q ro i.toNat hseg, ← hlo, ← hhi, peek, hpeek]
    simp [Machine.addr, Nat.add_sub_add_left]
  by_cases hzero : i = 0
  · subst hzero
    cases hq : q with
    | nil =>
      have hpeek : p.PeekSegment 0 = some (none, none) := by
        rw [PeekSegment, if_pos rfl, h.readCursor, h.readLimit, hq]
        rfl
      rw [peek, hpeek]
      rfl
    | cons first rest =>
      rw [← hq]
      refine hin first (by rw [hq]; rfl) ro (limitOf p.size wo q) rfl ?_ ?_
      · rw [hq]
        cases rest with
        | nil => rfl
        | cons next rest => simp [limitOf]
      · rw [PeekSegment, if_pos rfl, h.readCursor, h.readLimit, hq]
        rfl
  · have hpos : i.toNat ≠ 0 := fun hnat => hzero (UInt32.toNat_inj.mp hnat)
    by_cases hend : q.length ≤ i.toNat
    · have hpeek : p.PeekSegment i = some (none, none) := by
        rw [PeekSegment, if_neg hzero, if_pos (UInt32.le_iff_toNat_le.mpr (by omega))]
      rw [peek, hpeek, List.getD_eq_default _ _ (by rw [length_pieces]; exact hend)]
      rfl
    · have hseg := List.getElem?_eq_getElem (show i.toNat < q.length by omega)
      refine hin _ hseg 0 _ (if_neg hpos).symm rfl ?_
      rw [PeekSegment, if_neg hzero,
        if_neg (by rw [UInt32.le_iff_toNat_le]; omega), h.holds.getSegment i hseg]
      simp only [Option.bind_eq_bind, Option.bind_some]
      by_cases hlast : i.toNat + 1 = q.length
      · have hwrite : p.mWriteSegment = i.toNat := by
          rw [h.writeSegment]
          omega
        rw [if_pos hwrite, if_pos hlast, h.writeCursor, List.getLast?_eq_getElem?,
          show q.length - 1 = i.toNat by omega, hseg]
        rfl
      · have hwrite : p.mWriteSegment ≠ i.toNat := by
          rw [h.writeSegment]
          omega
        rw [if_neg hwrite, if_neg hlast]
        rfl

end Laid

/-! ### Where the search is exact -/

/-- The search reads only what is in the pipe, and its answer is right. -/
def SearchExact (m : Machine) (p : nsPipe) (memory : Segment → ℕ → UInt8)
    (forString : List UInt8) (ignoreCase : Bool) (content : List UInt8) : Prop :=
  ∃ answer, p.Search m memory forString ignoreCase = some answer ∧
    Answers (forString.map (fold ignoreCase)) (content.map (fold ignoreCase)) answer

/-- The string fits to the segments, if its length is less than `2 ^ 32`. If not, the bytes that the
lower 32 bits of the length count fit, and do not occur; or there are none of these, and the only
segment is as long as one can be. -/
def Searchable (ignoreCase : Bool) (forString : List UInt8) (segments : List (List UInt8)) : Prop :=
  Fits (wanted ignoreCase forString (UInt32.ofNat forString.length)) []
      (segments.map (List.map (fold ignoreCase))) ∧
    (forString.length < 2 ^ 32 ∨ segments = [] ∨
      ¬wanted ignoreCase forString (UInt32.ofNat forString.length) <:+:
        segments.flatten.map (fold ignoreCase) ∨
      (UInt32.ofNat forString.length).toNat = 0 ∧ segments.map List.length = [2 ^ 32 - 1])

variable {ignoreCase : Bool} {forString : List UInt8}

theorem search_iff (h : p.Laid n q ro wo) (hne : forString ≠ []) (h0 : 0 ∉ forString) :
    SearchExact m p memory forString ignoreCase (stored memory p.size wo q ro) ↔
      Searchable ignoreCase forString (filled memory p.size wo q ro) := by
  have hpeek : ∀ i, p.peek m memory i = some ((filled memory p.size wo q ro).getD i.toNat []) :=
    h.peek_eq
  have hstored : (filled memory p.size wo q ro).flatten = stored memory p.size wo q ro :=
    flatten_filled q ro
  have hlt : (stored memory p.size wo q ro).length < 2 ^ 32 := h.length_stored
  have hcount : (filled memory p.size wo q ro).length ≤ q.length := by
    rw [← @length_pieces memory p.size wo q ro]
    exact List.length_filter_le _ _
  have hnonempty : ∀ piece ∈ filled memory p.size wo q ro, piece ≠ [] := by
    intro piece hpiece
    simpa using (List.mem_filter.mp hpiece).2
  have hsegments : p.mBuffer.GetSegmentCount.toNat = q.length := h.holds.segmentCount
  have hfew : q.length < 2 ^ 32 := hsegments ▸ p.mBuffer.GetSegmentCount.toNat_lt
  rw [← hstored] at hlt ⊢
  generalize filled memory p.size wo q ro = segments at hpeek hlt hcount hnonempty ⊢
  unfold SearchExact Search Searchable
  rw [hpeek, Option.bind_some]
  cases segments with
  | nil =>
    refine ⟨fun _ => ⟨trivial, .inr (.inl rfl)⟩, fun _ => ⟨(false, 0), rfl, ?_, ?_⟩⟩
    · simpa using hne
    · exact fun later k hk => absurd hk (Nat.not_lt_zero k)
  | cons segment rest =>
    have hsegment : segment ≠ [] := hnonempty segment List.mem_cons_self
    have hget : ((segment :: rest).getD (0 : UInt32).toNat []) = segment := rfl
    rw [hget, if_neg hsegment, hsegments]
    rw [List.length_cons] at hcount
    -- the string cannot be there if it is longer than what a pipe can hold
    have hlong : ¬forString.length < 2 ^ 32 → ¬forString.map (fold ignoreCase) <:+:
        (segment :: rest).flatten.map (fold ignoreCase) := by
      intro hge hin
      have hle := hin.length_le
      rw [List.length_map, List.length_map] at hle
      omega
    by_cases hzero : (UInt32.ofNat forString.length).toNat = 0
    · have hge : ¬forString.length < 2 ^ 32 := by
        intro hless
        rw [UInt32.toNat_ofNat_of_lt' hless] at hzero
        exact hne (List.eq_nil_of_length_eq_zero hzero)
      have hwanted : wanted ignoreCase forString (UInt32.ofNat forString.length) = [] := by
        rw [wanted, hzero, List.take_zero]
      obtain ⟨turns, hturns⟩ := Nat.exists_eq_succ_of_ne_zero (show q.length ≠ 0 by omega)
      rw [hwanted, hturns]
      rw [List.flatten_cons, List.length_append] at hlt
      by_cases hfull : segment.length + 1 = 2 ^ 32
      · have hrest : rest = [] := by
          by_contra hcons
          obtain ⟨piece, hpiece⟩ := List.exists_mem_of_ne_nil rest hcons
          have hpos := List.length_pos_iff.mpr (hnonempty piece (List.mem_cons_of_mem _ hpiece))
          have hle := (List.sublist_flatten_of_mem hpiece).length_le
          omega
        subst hrest
        rw [searchFrom_empty_full hzero hfull (hpeek 1)]
        refine ⟨fun _ => ⟨Fits.of_isInfix List.nil_infix, .inr (.inr (.inr ⟨hzero, ?_⟩))⟩,
          fun _ => ⟨_, rfl, hlong hge, fun later k hk => absurd hk (Nat.not_lt_zero k)⟩⟩
        rw [List.map_singleton, ← hfull]
        rfl
      · rw [searchFrom_empty hzero (by omega)]
        constructor
        · rintro ⟨answer, hanswer, hright⟩
          cases hanswer
          exact absurd hright.1.isInfix (hlong hge)
        · rintro ⟨-, hless | hnil | hno | ⟨-, htotal⟩⟩
          · exact absurd hless hge
          · cases hnil
          · exact absurd List.nil_infix hno
          · rw [List.map_cons, List.cons.injEq] at htotal
            omega
    · have hn : (UInt32.ofNat forString.length).toNat ≤ forString.length := by
        rw [UInt32.toNat_ofNat']
        exact Nat.mod_le _ _
      have hspec := @searchFrom_spec ignoreCase forString _ h0 hn (Nat.pos_of_ne_zero hzero) _ rfl
        _ _ hpeek (Nat.lt_of_le_of_lt hcount hfew) hnonempty hlt q.length rest [] segment rfl (by omega)
        (fun k hk => absurd hk (Nat.not_lt_zero k)) fun hnil => absurd rfl hnil
      change Searched _ _ (Fits _ [] _) (searchFrom _ _ _ _ _ 0 0 _) at hspec
      by_cases hless : forString.length < 2 ^ 32
      · have hwanted : wanted ignoreCase forString (UInt32.ofNat forString.length) =
            forString.map (fold ignoreCase) := by
          rw [wanted, UInt32.toNat_ofNat_of_lt' hless, List.take_of_length_le (by simp)]
        rw [hwanted] at hspec ⊢
        constructor
        · rintro ⟨answer, hanswer, -⟩
          refine ⟨by_contra fun hno => ?_, .inl hless⟩
          rw [hspec.stuck hno] at hanswer
          cases hanswer
        · rintro ⟨hfits, -⟩
          exact hspec.answers hfits
      · have hpre : wanted ignoreCase forString (UInt32.ofNat forString.length) <+:
            forString.map (fold ignoreCase) := List.take_prefix _ _
        constructor
        · rintro ⟨⟨found, offset⟩, hanswer, hright⟩
          have hfits := by_contra fun hno => by
            rw [hspec.stuck hno] at hanswer
            cases hanswer
          refine ⟨hfits, .inr (.inr (.inl fun hin => ?_))⟩
          obtain ⟨answer, hanswer', hright'⟩ := hspec.answers hfits
          rw [hanswer'] at hanswer
          cases hanswer
          cases found with
          | true => exact hlong hless hright.1.isInfix
          | false => exact hright'.1 hin
        · rintro ⟨hfits, hcases⟩
          have hno :=
            ((hcases.resolve_left hless).resolve_left (List.cons_ne_nil _ _)).resolve_right
              fun hempty => hzero hempty.1
          obtain ⟨⟨found, offset⟩, hanswer, hright⟩ := hspec.answers hfits
          refine ⟨_, hanswer, ?_⟩
          cases found with
          | true => exact absurd hright.1.isInfix hno
          | false =>
            exact ⟨hlong hless, fun later k hk hocc => hright.2 later k hk (hpre.trans hocc)⟩

/-- A pipe of two segments of two bytes, with `ab` in the first one and `c` in the second. -/
def shortPipe : nsPipe where
  mBuffer :=
    { mSegmentSize := 2, mMaxSize := 4
      mSegmentArray := some ⟨32, fun i => if i < 2 then some i else none⟩
      mLastSegmentIndex := 2 }
  mReadCursor := some ⟨0, 0⟩
  mReadLimit := some ⟨0, 2⟩
  mWriteSegment := 1
  mWriteCursor := some ⟨1, 1⟩
  mWriteLimit := some ⟨1, 2⟩

theorem shortPipe_laid : shortPipe.Laid 2 [0, 1] 0 1 := by
  refine ⟨⟨⟨⟨5, by decide, rfl, by decide⟩, by decide, rfl, by decide, ?_, nofun⟩, by decide, rfl,
    by decide, rfl, rfl, rfl, rfl, rfl, by decide, by decide⟩, fun _ hfull => by cases hfull⟩
  rintro block hblock
  cases hblock
  refine ⟨rfl, by decide, by decide, fun i a hget => ?_⟩
  match i with
  | 0 => exact Option.some.inj hget
  | 1 => exact Option.some.inj hget
  | i + 2 => simp at hget

/-- `bc` is found, although it straddles the segments. -/
theorem search_iff_short :
    SearchExact World.machine shortPipe (fun seg i => UInt8.ofNat (97 + 2 * seg + i)) [98, 99] false
      (stored (fun seg i => UInt8.ofNat (97 + 2 * seg + i)) shortPipe.size 1 [0, 1] 0) := by
  refine (search_iff shortPipe_laid (by decide) (by decide)).mpr
    ⟨⟨?_, ?_, trivial⟩, .inl (by decide)⟩
  · exact fun _ => ⟨by decide, fun hne => absurd rfl hne⟩
  · intro hno
    exact absurd (by decide) hno

/-- For `bcd`, the byte behind the last one is read. -/
theorem not_searchExact_short : ¬SearchExact World.machine shortPipe
    (fun seg i => UInt8.ofNat (97 + 2 * seg + i)) [98, 99, 100] false [97, 98, 99] := by
  rintro ⟨answer, hanswer, -⟩
  have hstuck : shortPipe.Search World.machine (fun seg i => UInt8.ofNat (97 + 2 * seg + i))
    [98, 99, 100] false = none := by decide
  rw [hstuck] at hanswer
  cases hanswer

end nsPipe

end Kompozer.Io

import Kompozer.Lib.Unicode

/-! The conversions between UTF-16 and UTF-8 (`nsUTF8Utils.h`). A sink is handed the fragments of a
string one by one. Where the source extends a signed byte, masks drop what that adds. -/

namespace Kompozer.Text

/-! ### Classes of bytes (`UTF8traits`) -/

def isASCII (c : UInt8) : Bool := c &&& 0x80 == 0x00
def isInSeq (c : UInt8) : Bool := c &&& 0xC0 == 0x80
def is2byte (c : UInt8) : Bool := c &&& 0xE0 == 0xC0
def is3byte (c : UInt8) : Bool := c &&& 0xF0 == 0xE0
def is4byte (c : UInt8) : Bool := c &&& 0xF8 == 0xF0
def is5byte (c : UInt8) : Bool := c &&& 0xFC == 0xF8
def is6byte (c : UInt8) : Bool := c &&& 0xFE == 0xFC

/-! ### Surrogates (`nsCharTraits.h`) -/

def PLANE1_BASE : UInt32 := 0x00010000
def UCS2_REPLACEMENT_CHAR : UInt16 := 0xFFFD
def UCS_END : UInt32 := 0x00110000

def IS_HIGH_SURROGATE (u : UInt16) : Bool := u &&& 0xFC00 == 0xD800
def IS_LOW_SURROGATE (u : UInt16) : Bool := u &&& 0xFC00 == 0xDC00
def IS_SURROGATE (u : UInt16) : Bool := u &&& 0xF800 == 0xD800

def SURROGATE_TO_UCS4 (h l : UInt16) : UInt32 :=
  ((h.toUInt32 &&& 0x03FF) <<< 10) + (l.toUInt32 &&& 0x03FF) + PLANE1_BASE

def H_SURROGATE (c : UInt32) : UInt16 := ((c - PLANE1_BASE) >>> 10).toUInt16 ||| 0xD800
def L_SURROGATE (c : UInt32) : UInt16 := ((c - PLANE1_BASE) &&& 0x03FF).toUInt16 ||| 0xDC00

/-! ### `ConvertUTF8toUTF16` -/

/-- What the first byte of a sequence says. -/
structure Lead where
  ucs4 : UInt32
  state : ℕ
  minUcs4 : UInt32

def lead (c : UInt8) : Option Lead :=
  if is2byte c then some ⟨(c.toUInt32 <<< 6) &&& 0x000007C0, 1, 0x00000080⟩
  else if is3byte c then some ⟨(c.toUInt32 <<< 12) &&& 0x0000F000, 2, 0x00000800⟩
  else if is4byte c then some ⟨(c.toUInt32 <<< 18) &&& 0x001F0000, 3, 0x00010000⟩
  else if is5byte c then some ⟨(c.toUInt32 <<< 24) &&& 0x03000000, 4, 0x00200000⟩
  else if is6byte c then some ⟨(c.toUInt32 <<< 30) &&& 0x40000000, 5, 0x04000000⟩
  else none

/-- The loop over the bytes that continue a sequence. It fails at the end of the fragment and at a
byte that begins something else. -/
def continuation : ℕ → UInt32 → List UInt8 → Option (UInt32 × List UInt8)
  | 0, ucs4, p => some (ucs4, p)
  | _ + 1, _, [] => none
  | state + 1, ucs4, c :: p =>
    if isInSeq c then
      continuation state (ucs4 ||| ((c.toUInt32 &&& 0x3F) <<< UInt32.ofNat (state * 6))) p
    else none

/-- The units that are written for a sequence. -/
def emit (ucs4 minUcs4 : UInt32) : List UInt16 :=
  if ucs4 < minUcs4 then [UCS2_REPLACEMENT_CHAR]
  else if ucs4 ≤ 0xD7FF then [ucs4.toUInt16]
  else if ucs4 ≤ 0xDFFF then [UCS2_REPLACEMENT_CHAR]
  else if ucs4 = 0xFFFE ∨ ucs4 = 0xFFFF then [UCS2_REPLACEMENT_CHAR]
  else if PLANE1_BASE ≤ ucs4 then
    if UCS_END ≤ ucs4 then [UCS2_REPLACEMENT_CHAR] else [H_SURROGATE ucs4, L_SURROGATE ucs4]
  else [ucs4.toUInt16]

theorem length_continuation {state : ℕ} {ucs4 v : UInt32} {p q : List UInt8}
    (h : continuation state ucs4 p = some (v, q)) : p.length = q.length + state := by
  induction state generalizing ucs4 p with
  | zero =>
    obtain ⟨-, rfl⟩ := Prod.mk.inj (Option.some.inj h)
    rfl
  | succ state ih =>
    cases p with
    | nil => simp [continuation] at h
    | cons c p =>
      rw [continuation] at h
      split_ifs at h
      rw [List.length_cons, ih h]
      rfl

/-- The units written for a fragment, and whether there was an error in it. -/
def toUTF16 : List UInt8 → List UInt16 × Bool
  | [] => ([], false)
  | c :: p =>
    if isASCII c then (c.toUInt16 :: (toUTF16 p).1, (toUTF16 p).2)
    else match lead c with
      | none => ([], true)
      | some l => match _ : continuation l.state l.ucs4 p with
        | none => ([], true)
        | some (ucs4, q) => (emit ucs4 l.minUcs4 ++ (toUTF16 q).1, (toUTF16 q).2)
termination_by p => p.length
decreasing_by
  all_goals simp only [List.length_cons]
  all_goals first
    | omega
    | have := length_continuation ‹_›
      omega

structure ConvertUTF8toUTF16 where
  mBuffer : List UInt16 := []
  mErrorEncountered : Bool := false

namespace ConvertUTF8toUTF16

def write (s : ConvertUTF8toUTF16) (frag : List UInt8) : ConvertUTF8toUTF16 :=
  if s.mErrorEncountered then s else ⟨s.mBuffer ++ (toUTF16 frag).1, (toUTF16 frag).2⟩

def writeAll (frags : List (List UInt8)) : ConvertUTF8toUTF16 := frags.foldl write {}

end ConvertUTF8toUTF16

/-! ### `CalculateUTF8Length` -/

/-- The number of bytes to step over and of units to count. -/
def stride (c : UInt8) : Option (ℕ × ℕ) :=
  if isASCII c then some (1, 1)
  else if is2byte c then some (2, 1)
  else if is3byte c then some (3, 1)
  else if is4byte c then some (4, 2)
  else if is5byte c then some (5, 1)
  else if is6byte c then some (6, 1)
  else none

/-- The units counted in a fragment, and whether the loop did not stop at its end. -/
def countUTF16 : List UInt8 → ℕ × Bool
  | [] => (0, false)
  | c :: p => match stride c with
    | none => (0, true)
    | some (n, k) =>
      if p.length + 1 < n then (k, true)
      else (k + (countUTF16 (p.drop (n - 1))).1, (countUTF16 (p.drop (n - 1))).2)
termination_by p => p.length
decreasing_by all_goals simp only [List.length_drop, List.length_cons]; omega

structure CalculateUTF8Length where
  mLength : ℕ := 0
  mErrorEncountered : Bool := false

namespace CalculateUTF8Length

def write (s : CalculateUTF8Length) (frag : List UInt8) : CalculateUTF8Length :=
  if s.mErrorEncountered then s else ⟨s.mLength + (countUTF16 frag).1, (countUTF16 frag).2⟩

def writeAll (frags : List (List UInt8)) : CalculateUTF8Length := frags.foldl write {}

end CalculateUTF8Length

/-! ### `ConvertUTF16toUTF8` and `CalculateUTF8Size` -/

/-- A byte that continues a sequence, with the last six bits of a number. -/
def trail (n : UInt32) : UInt8 := 0x80 ||| (0x003F &&& n).toUInt8

/-- The bytes written for a fragment. -/
def toUTF8 : List UInt16 → List UInt8
  | [] => []
  | c :: p =>
    if c &&& 0xFF80 == 0 then c.toUInt8 :: toUTF8 p
    else if c &&& 0xF800 == 0 then
      [(0xC0 : UInt8) ||| (c >>> 6).toUInt8, trail c.toUInt32] ++ toUTF8 p
    else if !IS_SURROGATE c then
      [(0xE0 : UInt8) ||| (c >>> 12).toUInt8, trail (c >>> 6).toUInt32, trail c.toUInt32] ++ toUTF8 p
    else if IS_HIGH_SURROGATE c then
      match p with
      | [] => []
      | l :: p =>
        if IS_LOW_SURROGATE l then
          let ucs4 := SURROGATE_TO_UCS4 c l
          [(0xF0 : UInt8) ||| (ucs4 >>> 18).toUInt8, trail (ucs4 >>> 12), trail (ucs4 >>> 6), trail ucs4] ++
            toUTF8 p
        else toUTF8 p
    else toUTF8 p

/-- `ConvertUTF16toUTF8`, which keeps nothing between fragments. -/
def ConvertUTF16toUTF8 (frags : List (List UInt16)) : List UInt8 := frags.flatMap toUTF8

/-- The bytes counted in a fragment. -/
def sizeUTF8 : List UInt16 → ℕ
  | [] => 0
  | c :: p =>
    if c &&& 0xFF80 == 0 then 1 + sizeUTF8 p
    else if c &&& 0xF800 == 0 then 2 + sizeUTF8 p
    else if 0xD800 != 0xF800 &&& c then 3 + sizeUTF8 p
    else if 0xD800 == 0xFC00 &&& c then
      match p with
      | [] => 0
      | l :: p => if 0xDC00 == 0xFC00 &&& l then 4 + sizeUTF8 p else sizeUTF8 p
    else sizeUTF8 p

def CalculateUTF8Size (frags : List (List UInt16)) : ℕ := (frags.map sizeUTF8).sum

end Kompozer.Text

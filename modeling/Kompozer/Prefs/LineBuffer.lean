import Kompozer.Prefs.Buffering
import Mathlib

/-! Where the reader of preference files writes (`prefread.cpp`). A round of its loop checks at some
places whether the line buffer has room, and writes at others. Both are listed here in their order,
with the buffer's end, which the list of the bytes in front of the cursor leaves out. -/

namespace Kompozer.Prefs

/-- What a round does to the line buffer and to `esctmp`. -/
inductive LineOp
  | roomAt (n : ℕ)
  | roomFor (n : ℕ)
  | put (c : UInt8)
  | putEsc (i : ℕ)
  deriving DecidableEq, Repr

/-- Memory is exhausted, or something is written at the end of a buffer or behind it. -/
inductive Fault
  | outOfMemory
  | overflow
  deriving DecidableEq, Repr

/-- `sizeof(esctmp)`. -/
def ESCTMP_SIZE : ℕ := 6

/-- The states in the middle of an escape sequence. -/
def ParseState.inEscape : ParseState → Bool
  | .escSequence | .hexEscape | .utf16LowSurrogate => true
  | _ => false

namespace ParseVars

/-- The accesses of a round. -/
def lineOps (ps : ParseVars) (state : ParseState) (c : UInt8) : List LineOp :=
  match state with
  | .quotedString =>
    .roomAt 0 ::
      if c = backslash then [] else if c = ps.quotechar then [.put 0] else [.put c]
  | .untilValue =>
    if c = dquote ∨ c = squote then []
    else if c = 't'.toUInt8 ∨ c = 'f'.toUInt8 then []
    else if isdigit c ∨ c = '-'.toUInt8 ∨ c = '+'.toUInt8 then [.roomAt 0, .put c]
    else []
  | .intValue => [.roomAt 0, .put (if isdigit c then c else 0)]
  | .escSequence =>
    if c = dquote ∨ c = squote ∨ c = backslash then [.put c]
    else if c = 'r'.toUInt8 then [.put CR]
    else if c = 'n'.toUInt8 then [.put LF]
    else if c = 'x'.toUInt8 ∨ c = 'u'.toUInt8 then [.putEsc 0]
    else [.roomAt 1, .put backslash, .put c]
  | .hexEscape =>
    match udigit c with
    | none => .put backslash :: .roomFor ps.esctmp.length :: ps.esctmp.map .put
    | some udigit =>
      let utf16 := (ps.utf16.1, (ps.utf16.2 <<< 4) ||| udigit)
      .putEsc ps.esctmp.length ::
        if ps.sindex - 1 = 0 then
          if utf16.1 ≠ 0 then
            .roomFor 6 :: (convertUTF16toUTF8 [utf16.1, utf16.2]).map .put
          else if utf16.2 &&& 0xFC00 = 0xD800 then []
          else .roomFor 6 :: (convertUTF16toUTF8 [utf16.2]).map .put
        else []
  | .utf16LowSurrogate =>
    if ps.sindex = 0 ∧ c = backslash then []
    else if ps.sindex = 1 ∧ c = 'u'.toUInt8 then [.putEsc 0]
    else []
  | _ => []

end ParseVars

section
variable (realloc : ℕ → Bool)

/-- `pref_GrowBuf`, which doubles the buffer. A `bufLen` of 2³¹ is a negative number. -/
def pref_GrowBuf (bufLen : ℕ) : Except Fault ℕ :=
  let bufLen := if bufLen = 0 then 128 else 2 * bufLen
  if bufLen < 2 ^ 31 ∧ realloc bufLen then .ok bufLen else .error .outOfMemory

/-- An access with the cursor and the end of the buffer where they are. -/
def LineOp.run (cur size : ℕ) : LineOp → Except Fault (ℕ × ℕ)
  | .roomAt n =>
    if cur + n = size then (pref_GrowBuf realloc size).map (cur, ·) else .ok (cur, size)
  | .roomFor n =>
    if cur + n ≥ size then (pref_GrowBuf realloc size).map (cur, ·) else .ok (cur, size)
  | .put _ => if cur < size then .ok (cur + 1, size) else .error .overflow
  | .putEsc i => if i < ESCTMP_SIZE then .ok (cur, size) else .error .overflow

def runOps : List LineOp → ℕ → ℕ → Except Fault (ℕ × ℕ)
  | [], cur, size => .ok (cur, size)
  | op :: ops, cur, size => (op.run realloc cur size).bind fun p => runOps ops p.1 p.2

namespace ParseVars

/-- A round, and the size of the buffer after it. -/
def lineRound (state : ParseState) (c : UInt8) (ps : ParseVars) (size : ℕ) :
    Except Fault (Round × ℕ) :=
  (runOps realloc (ps.lineOps state c) ps.lb.length size).map fun p => (ps.round state c, p.2)

/-- One character, read once more when it was pushed back. -/
def lineRead (state : ParseState) (c : UInt8) (ps : ParseVars) (size : ℕ) :
    Except Fault (Round × ℕ) :=
  (lineRound realloc state c ps size).bind fun r =>
    match r.1 with
    | .again state ps => lineRound realloc state c ps r.2
    | _ => .ok r

/-- The loop. -/
def lineReadAll : List UInt8 → ParseState → ParseVars → ℕ →
    Except Fault (Option ParseState × ParseVars × ℕ)
  | [], state, ps, size => .ok (some state, ps, size)
  | c :: buf, state, ps, size =>
    (lineRead realloc state c ps size).bind fun r =>
      match r.1 with
      | .next state ps _ => lineReadAll buf state ps r.2
      | .again _ ps => .ok (none, ps, r.2)
      | .malformed ps => .ok (none, ps, r.2)

end ParseVars

/-- `PREF_ParseBuf`, with the size of the line buffer. -/
def parseBuf (ps : PrefParseState) (size : ℕ) (buf : List UInt8) :
    Except Fault (Bool × PrefParseState × ℕ) :=
  (ps.vars.lineReadAll realloc buf ps.state size).map fun r =>
    (r.1.isSome, ⟨r.1.getD ps.state, r.2.1⟩, r.2.2)

/-- Whether the calls that `openPrefFile` makes stay inside the buffers. When memory is exhausted
`lb` is null while the cursor still points to the old buffer, so that no call may follow. -/
def inBounds : List (List UInt8) → PrefParseState → ℕ → Bool
  | [], _, _ => true
  | readBuf :: bufs, ps, size =>
    match parseBuf realloc ps size readBuf with
    | .error .overflow => false
    | .error .outOfMemory => bufs.isEmpty
    | .ok r => inBounds bufs r.2.1 r.2.2

end

end Kompozer.Prefs

/-! The reader of preference files stays inside its line buffer as long as each of its calls finds
the room that an escape sequence relies on: a state in the middle of an escape has a byte in front
of the buffer's end. A call that fails can leave such a state behind with a buffer that is full. -/

namespace Kompozer.Prefs

/-! ### Accesses one after the other -/

section Runs
variable {realloc : ℕ → Bool} {cur size n : ℕ} {ops : List LineOp} {Q : ℕ → ℕ → Prop}

/-- The accesses stay inside the buffer, and what they leave has a property. -/
def Runs (realloc : ℕ → Bool) (ops : List LineOp) (cur size : ℕ) (Q : ℕ → ℕ → Prop) : Prop :=
  runOps realloc ops cur size ≠ .error .overflow ∧
    ∀ p, runOps realloc ops cur size = .ok p → Q p.1 p.2

theorem runs_nil (h : Q cur size) : Runs realloc [] cur size Q :=
  ⟨by simp [runOps], fun p hp => by
    obtain rfl := Except.ok.inj hp
    exact h⟩

theorem runs_put {c : UInt8} (hlt : cur < size) (h : Runs realloc ops (cur + 1) size Q) :
    Runs realloc (.put c :: ops) cur size Q := by
  have hop : LineOp.run realloc cur size (.put c) = .ok (cur + 1, size) := if_pos hlt
  rw [Runs, runOps, hop]
  exact h

theorem runs_putEsc {i : ℕ} (hlt : i < ESCTMP_SIZE) (h : Runs realloc ops cur size Q) :
    Runs realloc (.putEsc i :: ops) cur size Q := by
  have hop : LineOp.run realloc cur size (.putEsc i) = .ok (cur, size) := if_pos hlt
  rw [Runs, runOps, hop]
  exact h

theorem runs_puts {l : List UInt8} (hle : cur + l.length ≤ size)
    (h : Runs realloc ops (cur + l.length) size Q) :
    Runs realloc (l.map .put ++ ops) cur size Q := by
  induction l generalizing cur with
  | nil => exact h
  | cons c l ih =>
    rw [List.length_cons] at hle h
    refine runs_put (by omega) (ih (by omega) ?_)
    rw [Nat.add_right_comm, Nat.add_assoc]
    exact h

/-- A larger buffer, or none. -/
theorem runs_grow {size' : ℕ} (hsize : size' = if size = 0 then 128 else 2 * size)
    (h : Runs realloc ops cur size' Q) :
    ((pref_GrowBuf realloc size).map fun size => (cur, size)).bind
        (fun p => runOps realloc ops p.1 p.2) ≠ .error .overflow ∧
      ∀ p, ((pref_GrowBuf realloc size).map fun size => (cur, size)).bind
        (fun p => runOps realloc ops p.1 p.2) = .ok p → Q p.1 p.2 := by
  rw [pref_GrowBuf, ← hsize]
  by_cases hok : size' < 2 ^ 31 ∧ realloc size' = true
  · simp only [if_pos hok]
    exact h
  · simp only [if_neg hok]
    exact ⟨by simp [Except.map, Except.bind], fun p hp => by simp [Except.map, Except.bind] at hp⟩

/-- Where the buffer was full there is a byte of room afterwards. -/
theorem runs_roomAt (hn : n < 128) (hcur : cur + n ≤ size) (hsize : size = 0 ∨ 128 ≤ size)
    (h : ∀ size', cur + n < size' → 128 ≤ size' → Runs realloc ops cur size' Q) :
    Runs realloc (.roomAt n :: ops) cur size Q := by
  rw [Runs, runOps, LineOp.run]
  split_ifs with hfull
  · refine runs_grow rfl (h _ ?_ ?_) <;> split_ifs <;> omega
  · exact h size (by omega) (by omega)

/-- A buffer that is doubled has room for all that is asked for. -/
theorem runs_roomFor (hn : n ≤ 128) (hcur : cur ≤ size) (hsize : 128 ≤ size)
    (h : ∀ size', cur + n ≤ size' → 128 ≤ size' → Runs realloc ops cur size' Q) :
    Runs realloc (.roomFor n :: ops) cur size Q := by
  rw [Runs, runOps, LineOp.run]
  split_ifs with hfull
  · refine runs_grow rfl (h _ ?_ ?_) <;> split_ifs <;> omega
  · exact h size (by omega) hsize

end Runs

/-- A character takes no more than three bytes. -/
theorem length_convertUTF16toUTF8_le (l : List UInt16) :
    (convertUTF16toUTF8 l).length ≤ 3 * l.length := by
  induction hn : l.length using Nat.strong_induction_on generalizing l with
  | h n ih =>
    subst hn
    cases l with
    | nil => simp [convertUTF16toUTF8]
    | cons c cs =>
      have hcs := ih cs.length (by simp) cs rfl
      unfold convertUTF16toUTF8
      split_ifs
      · rw [List.length_cons, List.length_cons]
        omega
      · rw [List.length_append, List.length_cons]
        simp only [List.length_cons, List.length_nil]
        omega
      · rw [List.length_append, List.length_cons]
        simp only [List.length_cons, List.length_nil]
        omega
      · cases cs with
        | nil => simp
        | cons l cs =>
          have hcs' := ih cs.length (by simp only [List.length_cons]; omega) cs rfl
          simp only [List.length_cons]
          split_ifs
          · simp only [List.length_append, List.length_cons, List.length_nil]
            omega
          · omega
      · rw [List.length_cons]
        omega

/-! ### One round -/

/-- What holds of the line buffer whenever a character is looked at. -/
structure Intact (ps : ParseVars) (size : ℕ) : Prop where
  cur_le : ps.lb.length ≤ size
  size_ok : size = 0 ∨ 128 ≤ size
  next_ok : ps.nextstate.inEscape = false

/-- What the states in the middle of an escape rely on: a byte of room, and in a hexadecimal escape
the digits that are to come, for which `esctmp` has room. -/
def Reserved (state : ParseState) (ps : ParseVars) (size : ℕ) : Prop :=
  (state.inEscape = true → ps.lb.length < size) ∧
    (state = .hexEscape → 0 < ps.sindex ∧ ps.esctmp.length + ps.sindex ≤ ESCTMP_SIZE)

/-- What a round leaves. -/
def Round.Held (size : ℕ) : Round → Prop
  | .next state ps _ => Intact ps size ∧ Reserved state ps size
  | .again state ps => Intact ps size ∧ Reserved state ps size
  | .malformed ps => Intact ps size

instance (state : ParseState) (ps : ParseVars) (size : ℕ) : Decidable (Reserved state ps size) :=
  inferInstanceAs (Decidable (_ ∧ _))

theorem reserved_of_not_inEscape {state : ParseState} {ps : ParseVars} {size : ℕ}
    (h : state.inEscape = false) : Reserved state ps size :=
  ⟨fun hin => absurd hin (by simp [h]), fun heq => by subst heq; simp [ParseState.inEscape] at h⟩

namespace ParseVars
variable {realloc : ℕ → Bool} {state : ParseState} {c : UInt8} {ps : ParseVars} {size : ℕ}

/-- A state outside of escapes relies on nothing. -/
theorem held_next {calls : List Call} (hcur : ps.lb.length ≤ size) (hsize : size = 0 ∨ 128 ≤ size)
    (hnext : ps.nextstate.inEscape = false) (hstate : state.inEscape = false) :
    (Round.next state ps calls).Held size :=
  ⟨⟨hcur, hsize, hnext⟩, reserved_of_not_inEscape hstate⟩

/-- A byte that is written in front of the end. -/
theorem held_write {c : UInt8} (hcur : ps.lb.length < size) (hsize : 128 ≤ size)
    (hnext : ps.nextstate.inEscape = false) :
    (Round.next .quotedString (ps.write [c]) []).Held size := by
  refine held_next ?_ (.inr hsize) hnext rfl
  rw [write, List.length_append]
  exact hcur

theorem held_junk (h : Intact ps size) (hstate : state.inEscape = false) :
    (junk state c ps).Held size := by
  rw [junk]
  split_ifs
  · exact ⟨⟨h.cur_le, h.size_ok, hstate⟩, reserved_of_not_inEscape rfl⟩
  · exact h
  · exact ⟨h, reserved_of_not_inEscape hstate⟩

variable (realloc c) in
/-- A round stays inside the line buffer and leaves what the next one relies on. -/
theorem runs_lineOps (h : Intact ps size) (hres : Reserved state ps size) :
    Runs realloc (ps.lineOps state c) ps.lb.length size fun _ size' =>
      (ps.round state c).Held size' := by
  have hplain {state' : ParseState} {ps' : ParseVars} (hlb : ps'.lb.length ≤ size)
      (hnext : ps'.nextstate.inEscape = false) (hstate : state'.inEscape = false)
      {calls : List Call} : (Round.next state' ps' calls).Held size :=
    held_next hlb h.size_ok hnext hstate
  obtain ⟨hcur, hsize, hnext⟩ := h
  cases state with
  | init =>
    refine runs_nil ?_
    simp only [round]
    have hlb : (if ps.lb ≠ [] then
        { ps with lb := [], vb := .null, vtype := none, fdefault := false } else ps).lb.length ≤
          size ∧
        (if ps.lb ≠ [] then
        { ps with lb := [], vb := .null, vtype := none, fdefault := false } else ps).nextstate =
          ps.nextstate := by
      split_ifs
      · exact ⟨Nat.zero_le _, rfl⟩
      · exact ⟨hcur, rfl⟩
    generalize (if ps.lb ≠ [] then
        { ps with lb := [], vb := .null, vtype := none, fdefault := false } else ps) = ps' at hlb
    have hnext' : ps'.nextstate.inEscape = false := by rw [hlb.2]; exact hnext
    split_ifs
    · exact hplain hlb.1 hnext' (by rfl)
    · exact hplain hlb.1 hnext' (by rfl)
    · exact hplain (by exact hlb.1) (by rfl) (by rfl)
    · exact hplain (by exact hlb.1) (by rfl) (by rfl)
    · exact hplain hlb.1 hnext' (by rfl)
  | matchString =>
    refine runs_nil ?_
    simp only [round]
    split_ifs
    · exact hplain (by exact hcur) (by rfl) hnext
    · exact hplain (by exact hcur) (by exact hnext) (by rfl)
    · exact ⟨hcur, hsize, hnext⟩
  | quotedString =>
    refine runs_roomAt (by decide) hcur hsize fun size' hlt h128 => ?_
    simp only [round]
    split_ifs
    · exact runs_nil ⟨⟨Nat.le_of_lt hlt, .inr h128, hnext⟩, fun _ => hlt, fun heq => by cases heq⟩
    · refine runs_put hlt (runs_nil (held_next ?_ (.inr h128) (by rfl) hnext))
      rw [write, List.length_append]
      exact hlt
    · exact runs_put hlt (runs_nil (held_write hlt h128 hnext))
  | untilName =>
    refine runs_nil ?_
    simp only [round]
    split_ifs
    · exact hplain (by exact hcur) (by rfl) (by rfl)
    · exact held_junk ⟨hcur, hsize, hnext⟩ rfl
  | untilComma =>
    refine runs_nil ?_
    simp only [round]
    split_ifs
    · exact hplain (by exact hcur) (by exact hnext) (by rfl)
    · exact held_junk ⟨hcur, hsize, hnext⟩ rfl
  | untilValue =>
    simp only [round, lineOps]
    split_ifs
    · exact runs_nil (hplain (by exact hcur) (by rfl) (by rfl))
    · exact runs_nil (hplain (by exact hcur) (by rfl) (by rfl))
    · exact runs_nil (hplain (by exact hcur) (by rfl) (by rfl))
    · refine runs_roomAt (by decide) hcur hsize fun size' hlt h128 => ?_
      refine runs_put hlt (runs_nil (held_next ?_ (.inr h128) (by exact hnext) (by rfl)))
      rw [write, List.length_append]
      exact hlt
    · exact runs_nil (held_junk ⟨hcur, hsize, hnext⟩ rfl)
  | intValue =>
    refine runs_roomAt (by decide) hcur hsize fun size' hlt h128 => runs_put hlt (runs_nil ?_)
    have hlb (c : UInt8) : (ps.write [c]).lb.length ≤ size' := by
      rw [write, List.length_append]
      exact hlt
    simp only [round]
    split_ifs
    · exact held_next (hlb c) (.inr h128) hnext (by rfl)
    · exact held_next (hlb 0) (.inr h128) hnext (by rfl)
    · exact held_next (by exact hlb 0) (.inr h128) (by rfl) (by rfl)
    · exact held_next (hlb 0) (.inr h128) hnext (by rfl)
    · exact ⟨hlb 0, .inr h128, hnext⟩
  | commentMaybeStart =>
    refine runs_nil ?_
    simp only [round]
    split_ifs
    · exact hplain hcur hnext (by rfl)
    · exact hplain hcur hnext (by rfl)
    · exact ⟨hcur, hsize, hnext⟩
  | commentBlock =>
    refine runs_nil ?_
    simp only [round]
    split_ifs
    · exact hplain hcur hnext (by rfl)
    · exact hplain hcur hnext (by rfl)
  | commentBlockMaybeEnd =>
    refine runs_nil ?_
    simp only [round]
    split_ifs
    · exact hplain (by exact hcur) (by rfl) hnext
    · exact hplain hcur hnext (by rfl)
    · exact hplain hcur hnext (by rfl)
  | escSequence =>
    have hlt := hres.1 rfl
    have h128 : 128 ≤ size := by omega
    simp only [round, lineOps]
    split_ifs
    · exact runs_put hlt (runs_nil (held_write hlt h128 hnext))
    · exact runs_put hlt (runs_nil (held_write hlt h128 hnext))
    · exact runs_put hlt (runs_nil (held_write hlt h128 hnext))
    · exact runs_putEsc (by decide) (runs_nil
        ⟨⟨hcur, hsize, hnext⟩, fun _ => hlt, fun _ => ⟨(by decide : 0 < HEX_ESC_NUM_DIGITS),
          (by decide : 1 + HEX_ESC_NUM_DIGITS ≤ ESCTMP_SIZE)⟩⟩)
    · exact runs_putEsc (by decide) (runs_nil
        ⟨⟨hcur, hsize, hnext⟩, fun _ => hlt, fun _ => ⟨(by decide : 0 < UTF16_ESC_NUM_DIGITS),
          (by decide : 1 + UTF16_ESC_NUM_DIGITS ≤ ESCTMP_SIZE)⟩⟩)
    · refine runs_roomAt (by decide) hlt hsize fun size' hlt' h128' => ?_
      refine runs_put (by omega) (runs_put hlt' (runs_nil (held_next ?_ (.inr h128') hnext rfl)))
      rw [write, List.length_append]
      exact hlt'
  | hexEscape =>
    have hlt := hres.1 rfl
    obtain ⟨hpos, hesc⟩ := hres.2 rfl
    have h128 : 128 ≤ size := by omega
    rw [ESCTMP_SIZE] at hesc
    have hconv (utf16 : List UInt16) (hlen : utf16.length ≤ 2) {ps' : ParseVars}
        (hlb : ps'.lb = ps.lb) (hnext' : ps'.nextstate = ps.nextstate) :
        Runs realloc (.roomFor 6 :: (convertUTF16toUTF8 utf16).map .put) ps.lb.length size
          fun _ size' =>
            (Round.next .quotedString (ps'.write (convertUTF16toUTF8 utf16)) []).Held size' := by
      have hle := length_convertUTF16toUTF8_le utf16
      refine runs_roomFor (by decide) hcur h128 fun size' hroom h128' => ?_
      rw [← List.append_nil (List.map _ _)]
      refine runs_puts (by omega) (runs_nil (held_next ?_ (.inr h128') ?_ rfl))
      · rw [write, List.length_append, hlb]
        omega
      · rw [write, hnext']
        exact hnext
    cases hdigit : udigit c with
    | none =>
      simp only [round, lineOps, hdigit]
      refine runs_put hlt (runs_roomFor (by omega) hlt h128 fun size' hroom h128' => ?_)
      rw [← List.append_nil (List.map _ _)]
      refine runs_puts hroom (runs_nil ⟨⟨?_, .inr h128', hnext⟩, reserved_of_not_inEscape rfl⟩)
      rw [write, List.length_append, List.length_cons]
      omega
    | some udigit =>
      simp only [round, lineOps, hdigit]
      refine runs_putEsc (by rw [ESCTMP_SIZE]; omega) ?_
      split_ifs with hlast
      · exact hconv _ le_rfl rfl rfl
      · refine runs_nil ⟨⟨hcur, hsize, hnext⟩, fun _ => hlt, fun heq => by cases heq⟩
      · exact hconv _ (by simp) rfl rfl
      · refine runs_nil ⟨⟨hcur, hsize, hnext⟩, fun _ => hlt, fun _ => ⟨?_, ?_⟩⟩
        · exact Nat.pos_of_ne_zero hlast
        · rw [List.length_append, List.length_singleton, ESCTMP_SIZE]
          simp only []
          omega
  | utf16LowSurrogate =>
    have hlt := hres.1 rfl
    simp only [round, lineOps]
    split_ifs
    · exact runs_nil ⟨⟨hcur, hsize, hnext⟩, fun _ => hlt, fun heq => by cases heq⟩
    · exact runs_putEsc (by decide) (runs_nil
        ⟨⟨hcur, hsize, hnext⟩, fun _ => hlt, fun _ => ⟨(by decide : 0 < UTF16_ESC_NUM_DIGITS),
          (by decide : 1 + UTF16_ESC_NUM_DIGITS ≤ ESCTMP_SIZE)⟩⟩)
    · exact runs_nil ⟨⟨hcur, hsize, hnext⟩, fun _ => hlt, fun heq => by cases heq⟩
    · exact runs_nil ⟨⟨hcur, hsize, hnext⟩, reserved_of_not_inEscape rfl⟩
  | untilOpenParen =>
    refine runs_nil ?_
    simp only [round]
    split_ifs
    · exact hplain hcur hnext (by rfl)
    · exact held_junk ⟨hcur, hsize, hnext⟩ rfl
  | untilCloseParen =>
    refine runs_nil ?_
    simp only [round]
    split_ifs
    · exact hplain hcur hnext (by rfl)
    · exact held_junk ⟨hcur, hsize, hnext⟩ rfl
  | untilSemicolon =>
    refine runs_nil ?_
    simp only [round]
    split_ifs
    · cases ps.pref_DoCallback with
      | none => exact ⟨hcur, hsize, hnext⟩
      | some call => exact hplain hcur hnext (by rfl)
    · exact held_junk ⟨hcur, hsize, hnext⟩ rfl
  | untilEol =>
    refine runs_nil ?_
    simp only [round]
    split_ifs
    · exact hplain (by exact hcur) (by rfl) hnext
    · exact hplain hcur hnext (by rfl)

/-! ### All characters -/

variable (realloc c) in
theorem lineRound_held (h : Intact ps size) (hres : Reserved state ps size) :
    lineRound realloc state c ps size ≠ .error .overflow ∧
      ∀ r, lineRound realloc state c ps size = .ok r → r.1.Held r.2 := by
  obtain ⟨hrun, hheld⟩ := runs_lineOps realloc c h hres
  rw [lineRound]
  cases hops : runOps realloc (ps.lineOps state c) ps.lb.length size with
  | error fault =>
    rw [hops] at hrun
    exact ⟨by simpa [Except.map] using hrun, fun r hr => by simp [Except.map] at hr⟩
  | ok p =>
    refine ⟨by simp [Except.map], fun r hr => ?_⟩
    obtain rfl := Except.ok.inj hr
    exact hheld p hops

variable (realloc c) in
theorem lineRead_held (h : Intact ps size) (hres : Reserved state ps size) :
    lineRead realloc state c ps size ≠ .error .overflow ∧
      ∀ r, lineRead realloc state c ps size = .ok r → r.1.Held r.2 := by
  obtain ⟨hrun, hheld⟩ := lineRound_held realloc c h hres
  rw [lineRead]
  cases hround : lineRound realloc state c ps size with
  | error fault =>
    rw [hround] at hrun
    exact ⟨by simpa [Except.bind] using hrun, fun r hr => by simp [Except.bind] at hr⟩
  | ok r =>
    have hr := hheld r hround
    simp only [Except.bind]
    cases hr1 : r.1 with
    | again state' ps' =>
      rw [hr1] at hr
      exact lineRound_held realloc c hr.1 hr.2
    | next state' ps' calls =>
      refine ⟨by simp, fun r' hr' => ?_⟩
      obtain rfl := Except.ok.inj hr'
      rw [hr1] at hr ⊢
      exact hr
    | malformed ps' =>
      refine ⟨by simp, fun r' hr' => ?_⟩
      obtain rfl := Except.ok.inj hr'
      rw [hr1] at hr ⊢
      exact hr

variable (realloc) in
/-- The loop stays inside the buffer, and leaves it so that it can go on. -/
theorem lineReadAll_held (buf : List UInt8) (h : Intact ps size) (hres : Reserved state ps size) :
    lineReadAll realloc buf state ps size ≠ .error .overflow ∧
      ∀ r, lineReadAll realloc buf state ps size = .ok r →
        Intact r.2.1 r.2.2 ∧ ∀ state', r.1 = some state' → Reserved state' r.2.1 r.2.2 := by
  induction buf generalizing state ps size with
  | nil =>
    refine ⟨by simp [lineReadAll], fun r hr => ?_⟩
    obtain rfl := Except.ok.inj hr
    refine ⟨h, fun state' heq => ?_⟩
    obtain rfl := Option.some.inj heq
    exact hres
  | cons c buf ih =>
    obtain ⟨hrun, hheld⟩ := lineRead_held realloc c h hres
    rw [lineReadAll]
    cases hread : lineRead realloc state c ps size with
    | error fault =>
      rw [hread] at hrun
      exact ⟨by simpa [Except.bind] using hrun, fun r hr => by simp [Except.bind] at hr⟩
    | ok r =>
      have hr := hheld r hread
      simp only [Except.bind]
      cases hr1 : r.1 with
      | next state' ps' calls =>
        rw [hr1] at hr
        exact ih hr.1 hr.2
      | again state' ps' =>
        rw [hr1] at hr
        refine ⟨by simp, fun r' hr' => ?_⟩
        obtain rfl := Except.ok.inj hr'
        exact ⟨hr.1, fun state' heq => by simp at heq⟩
      | malformed ps' =>
        rw [hr1] at hr
        refine ⟨by simp, fun r' hr' => ?_⟩
        obtain rfl := Except.ok.inj hr'
        exact ⟨hr, fun state' heq => by simp at heq⟩

end ParseVars

/-! ### What is written -/

/-- The bytes that an access adds to the line. -/
def LineOp.bytes : LineOp → List UInt8
  | .put c => [c]
  | _ => []

/-- The line after a round. -/
def Round.lb : Round → List UInt8
  | .next _ ps _ => ps.lb
  | .again _ ps => ps.lb
  | .malformed ps => ps.lb

section
variable {state : ParseState} {ps : ParseVars} {calls : List Call}

@[simp] theorem lb_next : (Round.next state ps calls).lb = ps.lb := rfl

@[simp] theorem lb_again : (Round.again state ps).lb = ps.lb := rfl

@[simp] theorem lb_malformed : (Round.malformed ps).lb = ps.lb := rfl

end

theorem flatMap_bytes_puts (l : List UInt8) : (l.map LineOp.put).flatMap LineOp.bytes = l := by
  induction l with
  | nil => rfl
  | cons c l ih => rw [List.map_cons, List.flatMap_cons, ih]; rfl

/-- The cursor moves by what is written. -/
theorem runOps_cur {realloc : ℕ → Bool} {ops : List LineOp} {cur size : ℕ} {p : ℕ × ℕ}
    (h : runOps realloc ops cur size = .ok p) : p.1 = cur + (ops.flatMap LineOp.bytes).length := by
  induction ops generalizing cur size with
  | nil =>
    obtain rfl := Except.ok.inj h
    rfl
  | cons op ops ih =>
    rw [runOps] at h
    cases hop : op.run realloc cur size with
    | error fault => simp [hop, Except.bind] at h
    | ok q =>
      rw [hop] at h
      have hq : q.1 = cur + op.bytes.length := by
        have hgrow {size' : ℕ} :
            (pref_GrowBuf realloc size').map (fun size => (cur, size)) = .ok q → q.1 = cur := by
          intro h
          cases hg : pref_GrowBuf realloc size' with
          | error fault => simp [hg, Except.map] at h
          | ok size'' =>
            rw [hg] at h
            rw [← Except.ok.inj h]
        cases op with
        | roomAt n =>
          rw [LineOp.run] at hop
          split_ifs at hop
          · exact hgrow hop
          · rw [← Except.ok.inj hop]; rfl
        | roomFor n =>
          rw [LineOp.run] at hop
          split_ifs at hop
          · exact hgrow hop
          · rw [← Except.ok.inj hop]; rfl
        | put c =>
          rw [LineOp.run] at hop
          split_ifs at hop
          rw [← Except.ok.inj hop]; rfl
        | putEsc i =>
          rw [LineOp.run] at hop
          split_ifs at hop
          rw [← Except.ok.inj hop]; rfl
      rw [ih h, hq, List.flatMap_cons, List.length_append, Nat.add_assoc]

namespace ParseVars

theorem lb_junk (state : ParseState) (c : UInt8) (ps : ParseVars) :
    (junk state c ps).lb = ps.lb := by
  rw [junk]
  split_ifs <;> rfl

/-- The accesses of a round write what the reader adds to its line. -/
theorem lb_round (ps : ParseVars) {state : ParseState} (c : UInt8) (h : state ≠ .init) :
    (ps.round state c).lb = ps.lb ++ (ps.lineOps state c).flatMap LineOp.bytes := by
  cases state with
  | init => exact absurd rfl h
  | hexEscape =>
    cases hdigit : udigit c with
    | none => simp [round, lineOps, hdigit, write, LineOp.bytes, flatMap_bytes_puts]
    | some udigit =>
      simp only [round, lineOps, hdigit]
      split_ifs <;> simp [write, LineOp.bytes, flatMap_bytes_puts]
  | untilSemicolon =>
    simp only [round, lineOps]
    split_ifs
    · cases ps.pref_DoCallback <;> simp
    · rw [lb_junk]; simp
  | _ =>
    simp only [round, lineOps]
    split_ifs <;> simp [write, LineOp.bytes, lb_junk]

/-- After the accesses of a round the cursor is at the end of the reader's line. -/
theorem cur_round {realloc : ℕ → Bool} {ps : ParseVars} {state : ParseState} {c : UInt8} {size : ℕ}
    {p : ℕ × ℕ} (h : state ≠ .init)
    (hrun : runOps realloc (ps.lineOps state c) ps.lb.length size = .ok p) :
    p.1 = (ps.round state c).lb.length := by
  rw [runOps_cur hrun, lb_round ps c h, List.length_append]

end ParseVars

/-! ### The calls -/

section Calls
variable {realloc : ℕ → Bool} {ps : PrefParseState} {size : ℕ}

theorem lineRound_eq {state : ParseState} {c : UInt8} {ps : ParseVars} {r : Round × ℕ}
    (h : ps.lineRound realloc state c size = .ok r) : ps.round state c = r.1 := by
  rw [ParseVars.lineRound] at h
  cases hops : runOps realloc (ps.lineOps state c) ps.lb.length size with
  | error fault => simp [hops, Except.map] at h
  | ok p =>
    rw [hops] at h
    rw [← Except.ok.inj h]

theorem lineRead_eq {state : ParseState} {c : UInt8} {ps : ParseVars} {r : Round × ℕ}
    (h : ps.lineRead realloc state c size = .ok r) : ps.read state c = r.1 := by
  rw [ParseVars.lineRead] at h
  cases hround : ps.lineRound realloc state c size with
  | error fault => simp [hround, Except.bind] at h
  | ok q =>
    simp only [hround, Except.bind] at h
    rw [ParseVars.read, lineRound_eq hround]
    cases hq : q.1 with
    | again state' ps' =>
      rw [hq] at h
      exact lineRound_eq h
    | next state' ps' calls =>
      rw [hq] at h
      rw [← Except.ok.inj h, hq]
    | malformed ps' =>
      rw [hq] at h
      rw [← Except.ok.inj h, hq]

theorem lineReadAll_eq {readBuf : List UInt8} {state : ParseState} {ps : ParseVars}
    {r : Option ParseState × ParseVars × ℕ}
    (h : ps.lineReadAll realloc readBuf state size = .ok r) :
    (ps.readAll readBuf state).1 = r.1 ∧ (ps.readAll readBuf state).2.1 = r.2.1 := by
  induction readBuf generalizing state ps size with
  | nil =>
    rw [← Except.ok.inj h]
    exact ⟨rfl, rfl⟩
  | cons c readBuf ih =>
    rw [ParseVars.lineReadAll] at h
    cases hread : ps.lineRead realloc state c size with
    | error fault => simp [hread, Except.bind] at h
    | ok q =>
      simp only [hread, Except.bind] at h
      rw [ParseVars.readAll, lineRead_eq hread]
      cases hq : q.1 with
      | next state' ps' calls =>
        rw [hq] at h
        exact ih h
      | again state' ps' =>
        rw [hq] at h
        rw [← Except.ok.inj h]
        exact ⟨rfl, rfl⟩
      | malformed ps' =>
        rw [hq] at h
        rw [← Except.ok.inj h]
        exact ⟨rfl, rfl⟩

/-- With memory enough a call does what the reader does whose line grows as it has to. -/
theorem parseBuf_eq {readBuf : List UInt8} {r : Bool × PrefParseState × ℕ}
    (h : parseBuf realloc ps size readBuf = .ok r) :
    (PREF_ParseBuf ps readBuf).1 = r.1 ∧ (PREF_ParseBuf ps readBuf).2.1 = r.2.1 := by
  rw [parseBuf] at h
  cases hread : ps.vars.lineReadAll realloc readBuf ps.state size with
  | error fault => simp [hread, Except.map] at h
  | ok q =>
    rw [hread] at h
    obtain ⟨hstate, hvars⟩ := lineReadAll_eq hread
    rw [← Except.ok.inj h, PREF_ParseBuf]
    simp only [hstate, hvars]
    exact ⟨trivial, trivial⟩

/-- Each call finds what the state it begins in relies on, and none follows when memory is
exhausted. -/
def eachReserved (realloc : ℕ → Bool) : List (List UInt8) → PrefParseState → ℕ → Bool
  | [], _, _ => true
  | readBuf :: bufs, ps, size =>
    decide (Reserved ps.state ps.vars size) &&
      match parseBuf realloc ps size readBuf with
      | .error _ => bufs.isEmpty
      | .ok r => eachReserved realloc bufs r.2.1 r.2.2

variable (realloc) in
/-- A call stays inside the buffers, and when it succeeds the next one finds what it relies on. -/
theorem parseBuf_held (readBuf : List UInt8) (h : Intact ps.vars size)
    (hres : Reserved ps.state ps.vars size) :
    parseBuf realloc ps size readBuf ≠ .error .overflow ∧
      ∀ r, parseBuf realloc ps size readBuf = .ok r →
        Intact r.2.1.vars r.2.2 ∧ (r.1 = true → Reserved r.2.1.state r.2.1.vars r.2.2) := by
  obtain ⟨hrun, hheld⟩ := ParseVars.lineReadAll_held realloc readBuf h hres
  rw [parseBuf]
  cases hread : ParseVars.lineReadAll realloc readBuf ps.state ps.vars size with
  | error fault =>
    rw [hread] at hrun
    exact ⟨by simpa [Except.map] using hrun, fun r hr => by simp [Except.map] at hr⟩
  | ok q =>
    obtain ⟨hintact, hstate⟩ := hheld q hread
    refine ⟨by simp [Except.map], fun r hr => ?_⟩
    obtain rfl := Except.ok.inj hr
    refine ⟨hintact, fun hsome => ?_⟩
    obtain ⟨state', hstate'⟩ := Option.isSome_iff_exists.mp hsome
    have hres' := hstate state' hstate'
    simp only [hstate', Option.getD_some]
    exact hres'

theorem inBounds_of_reserved (bufs : List (List UInt8)) (h : Intact ps.vars size)
    (hres : eachReserved realloc bufs ps size = true) : inBounds realloc bufs ps size = true := by
  induction bufs generalizing ps size with
  | nil => rfl
  | cons readBuf bufs ih =>
    rw [eachReserved, Bool.and_eq_true, decide_eq_true_iff] at hres
    obtain ⟨hfirst, hrest⟩ := hres
    obtain ⟨hrun, hheld⟩ := parseBuf_held realloc readBuf h hfirst
    rw [inBounds]
    cases hcall : parseBuf realloc ps size readBuf with
    | error fault =>
      simp only [hcall] at hrun hrest
      cases fault with
      | outOfMemory => exact hrest
      | overflow => exact absurd rfl hrun
    | ok r =>
      simp only [hcall] at hrest
      exact ih (hheld r hcall).1 hrest

end Calls

theorem intact_init : Intact PREF_InitParseState.vars 0 := ⟨le_rfl, .inl rfl, rfl⟩

/-- The calls that read a file stay inside the buffers when each finds the room that the state it
begins in relies on. -/
theorem parseBuf_inBounds (realloc : ℕ → Bool) (bufs : List (List UInt8))
    (h : eachReserved realloc bufs PREF_InitParseState 0 = true) :
    inBounds realloc bufs PREF_InitParseState 0 = true :=
  inBounds_of_reserved bufs intact_init h

theorem parseBuf_inBounds_line :
    inBounds (fun _ => true) [ascii "pref('a\\x4", ascii "1b', 1);"] PREF_InitParseState 0 = true :=
  parseBuf_inBounds _ _ (by decide +kernel)

/-- The calls that read a file, up to the first that fails for its buffers. -/
def lineParse (realloc : ℕ → Bool) :
    List (List UInt8) → PrefParseState → ℕ → Except Fault (PrefParseState × ℕ)
  | [], ps, size => .ok (ps, size)
  | readBuf :: bufs, ps, size =>
    (parseBuf realloc ps size readBuf).bind fun r => lineParse realloc bufs r.2.1 r.2.2

theorem lineParse_wellFormed {realloc : ℕ → Bool} {bufs : List (List UInt8)} {ps : PrefParseState}
    {size : ℕ} (hin : Intact ps.vars size) (hres : Reserved ps.state ps.vars size)
    (h : (PREF_ParseBuf ps bufs.flatten).1 = true) :
    lineParse realloc bufs ps size = .error .outOfMemory ∨
      ∃ size', lineParse realloc bufs ps size = .ok ((openPrefFile bufs ps).2.1, size') := by
  induction bufs generalizing ps size with
  | nil => exact .inr ⟨size, rfl⟩
  | cons readBuf bufs ih =>
    have hbuf : (PREF_ParseBuf ps readBuf).1 = true := by
      by_contra hbuf
      rw [List.flatten_cons, PREF_ParseBuf_append_of_malformed ps _ (by simpa using hbuf)] at h
      exact hbuf h
    rw [List.flatten_cons, (PREF_ParseBuf_append ps bufs.flatten hbuf).1] at h
    obtain ⟨hrun, hheld⟩ := parseBuf_held realloc readBuf hin hres
    rw [lineParse, openPrefFile]
    cases hcall : parseBuf realloc ps size readBuf with
    | error fault =>
      cases fault with
      | outOfMemory => exact .inl rfl
      | overflow => exact absurd hcall hrun
    | ok r =>
      obtain ⟨hok, hstate⟩ := parseBuf_eq hcall
      obtain ⟨hin', hres'⟩ := hheld r hcall
      rw [hok] at hbuf
      rw [hstate] at h ⊢
      exact ih hin' (hres' hbuf) h

/-- A file that is well formed, in buffers of any sizes, is read without a write outside the line
buffer, and unless memory is exhausted as the reader reads it whose line grows as it has to. -/
theorem wellFormed_read (realloc : ℕ → Bool) (bufs : List (List UInt8))
    (h : (PREF_ParseBuf PREF_InitParseState bufs.flatten).1 = true) :
    lineParse realloc bufs PREF_InitParseState 0 = .error .outOfMemory ∨
      ∃ size, lineParse realloc bufs PREF_InitParseState 0 =
        .ok ((openPrefFile bufs PREF_InitParseState).2.1, size) :=
  lineParse_wellFormed intact_init (by decide) h

theorem wellFormed_read_line :
    lineParse (fun _ => true) [ascii "pref('a\\x4", ascii "1b', 1);"] PREF_InitParseState 0 =
        .error .outOfMemory ∨
      ∃ size, lineParse (fun _ => true) [ascii "pref('a\\x4", ascii "1b', 1);"]
        PREF_InitParseState 0 = .ok ((openPrefFile [ascii "pref('a\\x4", ascii "1b', 1);"]
          PREF_InitParseState).2.1, size) :=
  wellFormed_read _ _ (by decide +kernel)

/-- The second of three buffers begins behind a backslash, fills the line buffer and fails. The
third is then begun behind a backslash again and is written at the end of the buffer. -/
theorem not_inBounds : ¬ ∀ (realloc : ℕ → Bool) (bufs : List (List UInt8)),
    inBounds realloc bufs PREF_InitParseState 0 = true := by
  intro h
  have hall := h (fun _ => true) [ascii "pref('" ++ [backslash],
    ascii "n" ++ List.replicate 126 97 ++ ascii "'!", ascii "n"]
  exact absurd hall (by decide +kernel)

end Kompozer.Prefs

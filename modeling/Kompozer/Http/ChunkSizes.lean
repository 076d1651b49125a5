import Kompozer.Http.Coding

/-! Which chunk sizes the decoder takes. The lines that it reads as sizes are logged along a run
over buffers; `sscanf` also takes white space, a sign and numbers that do not fit, and where it
finds nothing at all its answer is not taken for an error. -/

namespace Kompozer.Http

open NsResult
open Net (cString CR LF semicolon)

/-! ### Sizes -/

/-- What is read as a number: a line without its extensions. -/
def sizeText (line : List UInt8) : List UInt8 := line.takeWhile (· ≠ semicolon)

/-- The hexadecimal number with which a line begins. -/
def sizeNumber (line : List UInt8) : Option ℕ :=
  match sizeText line with
  | [] => none
  | c :: s => (hexDigit c).map (hexFrom · s)

/-- A number that the counter holds. -/
def HasSize (line : List UInt8) : Prop := ∃ n, sizeNumber line = some n ∧ n < 2 ^ 32

/-- Behind white space, a sign and a radix there is something else than a digit. -/
def Refused (line : List UInt8) : Prop :=
  (sizeText line).dropWhile isspace ≠ [] ∧
    ∀ c ∈ (radixPrefix (sign ((sizeText line).dropWhile isspace)).2).head?, hexDigit c = none

variable (overflow : ℕ → UInt32)

/-! ### The lines of a run -/

/-- A line that was read as a size, and whether this was an error. -/
structure SizeLine where
  line : List UInt8
  failed : Bool
  deriving DecidableEq

/-- The line that `ParseChunkRemaining` reads where a size is expected. An empty one is none unless
a size is due: it ends a chunk. -/
def Decoder.sizeLine (d : Decoder) (due : Bool) (buf : List UInt8) : Option (List UInt8) :=
  if LF ∈ buf ∧ !d.mWaitEOF then
    let text := dropCR (buf.takeWhile (· ≠ LF))
    let whole := cString (if d.mLineBuf ≠ [] then d.mLineBuf ++ cString text else text)
    if whole ≠ [] ∨ due then some whole else none
  else none

/-- The lines for sizes in the loop of `HandleChunkedContent`, and whether a size is due behind it:
the data of a chunk is followed by the end of a line first. -/
def Decoder.loopLines : ℕ → Decoder → Bool → List UInt8 → ℕ → ℕ → List SizeLine × Bool
  | 0, _, due, _, _, _ => ([], due)
  | fuel + 1, d, due, mem, read, count =>
    if count = 0 then ([], due)
    else if d.mChunkRemaining ≠ 0 then
      let amt := min d.mChunkRemaining count
      loopLines fuel { d with mChunkRemaining := d.mChunkRemaining - amt } false mem (read + amt)
        (count - amt)
    else if d.mReachedEOF then ([], due)
    else
      let line := d.sizeLine due ((mem.drop read).take count)
      let due := due || LF ∈ (mem.drop read).take count
      let (rv, d, bytes, consumed) :=
        d.ParseChunkRemaining overflow ((mem.drop read).take count)
      let mem := mem.take read ++ bytes ++ mem.drop (read + count)
      let left := count - consumed
      let rest :=
        if rv.failed then ([], due)
        else if left = 0 then loopLines fuel d due mem read left
        else
          let moved := mem.take read ++ (mem.drop (read + consumed)).take left ++
            mem.drop (read + left)
          loopLines fuel d due moved read left
      ((line.map (⟨·, rv.failed⟩)).toList ++ rest.1, rest.2)

/-- The lines for sizes in all buffers. -/
def Decoder.feedLines (d : Decoder) (due : Bool) : List (List UInt8) → List SizeLine
  | [] => []
  | buf :: bufs =>
    let h := d.HandleChunkedContent overflow buf
    let (lines, due) := d.loopLines overflow buf.length due buf 0 buf.length
    lines ++ if h.rv.failed then [] else h.decoder.feedLines due bufs

/-- The lines of a stream where a size is expected. A size is due in the beginning. -/
def sizeLines (bufs : List (List UInt8)) : List SizeLine :=
  ({} : Decoder).feedLines overflow true bufs

/-- No body ends but behind the size zero, and whatever is no size is an error. -/
structure ChecksSizes (bufs : List (List UInt8)) : Prop where
  zero : ∀ d content, ({} : Decoder).feed overflow [] bufs = some (d, content) →
    d.mWaitEOF = true ∨ d.mReachedEOF = true →
      ∃ l ∈ sizeLines overflow bufs, sizeNumber l.line = some 0
  error : ∀ l ∈ sizeLines overflow bufs, ¬ HasSize l.line → l.failed = true

variable {overflow}

/-! ### What `sscanf` takes -/

theorem sscanf_mismatch_iff (line : List UInt8) :
    sscanf overflow (sizeText line) = .mismatch ↔ Refused line := by
  rw [sscanf, Refused]
  cases hdrop : (sizeText line).dropWhile isspace with
  | nil => simp
  | cons c s =>
    dsimp only
    cases hprefix : radixPrefix (sign (c :: s)).2 with
    | nil => simp
    | cons d rest =>
      cases hdigit : hexDigit d with
      | none => simp [hdigit]
      | some n => simp [hdigit]

/-- A line that begins with a number is read as this number, or as the one behind `0x`. -/
theorem sscanf_number {line : List UInt8} {n : ℕ} (h : sizeNumber line = some n) :
    n = 0 ∧ sscanf overflow (sizeText line) ≠ .eof ∨
      sscanf overflow (sizeText line) = .stored (store overflow false n) := by
  rw [sizeNumber] at h
  rw [sscanf]
  generalize sizeText line = text at h ⊢
  cases text with
  | nil => cases h
  | cons c s =>
    obtain ⟨d, hd, rfl⟩ := Option.map_eq_some_iff.mp h
    obtain ⟨hspace, hplus, hminus, -⟩ := hexDigit_ne (Option.isSome_iff_exists.mpr ⟨d, hd⟩)
    have hsign : sign (c :: s) = (false, c :: s) := by rw [sign, if_neg hplus, if_neg hminus]
    rw [List.dropWhile_cons_of_neg (by simp [hspace])]
    dsimp only
    rw [hsign]
    by_cases hradix : radixPrefix (c :: s) = c :: s
    · right
      dsimp only
      rw [hradix]
      dsimp only
      rw [hd]
    · left
      cases s with
      | nil => exact absurd rfl hradix
      | cons x s =>
        rw [radixPrefix] at hradix
        split_ifs at hradix with h0x
        · obtain ⟨rfl, hx⟩ := h0x
          have hx' : hexDigit x = none := by rcases hx with rfl | rfl <;> decide
          have hzero : d = 0 := by
            rw [show hexDigit 48 = some 0 from rfl] at hd
            exact (Option.some.inj hd).symm
          refine ⟨by rw [hexFrom, hx', hzero], ?_⟩
          dsimp only
          split
          · intro h
            cases h
          · split <;> (intro h; cases h)
        · exact absurd rfl hradix

/-- The decoder goes on to the end of the body only if the number is zero. -/
theorem size_zero {line : List UInt8} (h : HasSize line)
    (hends : sscanf overflow (sizeText line) = .eof ∨
      ∃ k, sscanf overflow (sizeText line) = .stored k ∧ k.toNat = 0) :
    sizeNumber line = some 0 := by
  obtain ⟨n, hnumber, hn⟩ := h
  rcases @sscanf_number overflow _ _ hnumber with ⟨rfl, -⟩ | hstored
  · exact hnumber
  · rw [hstored] at hends
    rcases hends with hends | ⟨k, hk, hzero⟩
    · cases hends
    · have hstore : store overflow false n = UInt32.ofNat n := if_pos hn
      rw [hstore] at hk
      cases hk
      rw [UInt32.toNat_ofNat', Nat.mod_eq_of_lt hn] at hzero
      rw [hnumber, hzero]

/-! ### One line -/

/-- The body has ended, or its trailer is read. -/
def Decoder.Ending (d : Decoder) : Prop := d.mWaitEOF = true ∨ d.mReachedEOF = true

/-- A line that was taken, and behind which the body may end. -/
def SizeLine.Ends (l : SizeLine) : Prop :=
  l.failed = false ∧ (HasSize l.line → sizeNumber l.line = some 0)

theorem parseLine_size {d : Decoder} (hwait : d.mWaitEOF = false) (line : List UInt8) :
    ((d.parseLine overflow line).1.failed = true ↔ Refused line) ∧
      ((d.parseLine overflow line).2.Ending →
        d.Ending ∨ line ≠ [] ∧ SizeLine.Ends ⟨line, (d.parseLine overflow line).1.failed⟩) := by
  have hrefused := @sscanf_mismatch_iff overflow line
  have htext : line.takeWhile (· ≠ semicolon) = sizeText line := rfl
  rw [Decoder.parseLine, if_neg (by simp [hwait])]
  by_cases hline : line = []
  · rw [if_neg (by simp [hline])]
    refine ⟨iff_of_false (by simp) fun h => h.1 ?_, fun h => .inl h⟩
    rw [hline]
    rfl
  rw [if_pos hline, htext]
  cases hscan : sscanf overflow (sizeText line) with
  | mismatch => exact ⟨iff_of_true rfl (hrefused.mp hscan), fun h => .inl h⟩
  | eof =>
    refine ⟨iff_of_false (by simp) fun h => ?_, fun _ => .inr ⟨hline, rfl, fun h => ?_⟩⟩
    · rw [hrefused.mpr h] at hscan
      cases hscan
    · exact size_zero h (.inl hscan)
  | stored n =>
    refine ⟨iff_of_false (by simp) fun h => ?_, fun hend => ?_⟩
    · rw [hrefused.mpr h] at hscan
      cases hscan
    · rcases hend with hend | hend
      · exact .inr ⟨hline, rfl, fun h => size_zero h (.inr ⟨n, hscan, by simpa using hend⟩)⟩
      · exact .inl (.inr hend)

/-- What a call of `ParseChunkRemaining` does with a line for a size. -/
theorem ParseChunkRemaining_size (d : Decoder) (due : Bool) (buf : List UInt8) :
    (∀ l ∈ d.sizeLine due buf,
      (d.ParseChunkRemaining overflow buf).1.failed = true ↔ Refused l) ∧
    ((d.ParseChunkRemaining overflow buf).2.1.Ending →
      d.Ending ∨ ∃ l ∈ d.sizeLine due buf,
        SizeLine.Ends ⟨l, (d.ParseChunkRemaining overflow buf).1.failed⟩) := by
  rw [Decoder.ParseChunkRemaining, Decoder.sizeLine]
  by_cases hlf : LF ∈ buf
  · rw [if_pos hlf]
    dsimp only
    generalize cString (if d.mLineBuf ≠ [] then d.mLineBuf ++
      cString (dropCR (buf.takeWhile (· ≠ LF))) else dropCR (buf.takeWhile (· ≠ LF))) = line
    cases hwait : d.mWaitEOF with
    | true =>
      rw [if_neg (by simp)]
      exact ⟨by simp, fun _ => .inl (.inl hwait)⟩
    | false =>
      obtain ⟨hfails, hends⟩ := @parseLine_size overflow d hwait line
      rw [if_pos ⟨hlf, rfl⟩]
      constructor
      · intro l hl
        split_ifs at hl
        · cases hl
          exact hfails
        · cases hl
      · intro h
        refine (hends h).imp id fun hline => ⟨line, ?_, hline.2⟩
        rw [if_pos (.inl hline.1)]
        rfl
  · rw [if_neg hlf, if_neg (by simp [hlf])]
    exact ⟨by simp, fun h => .inl h⟩

/-! ### Runs -/

theorem loopLines_size (fuel : ℕ) (d : Decoder) (due : Bool) (mem : List UInt8)
    (read count : ℕ) :
    (∀ l ∈ (d.loopLines overflow fuel due mem read count).1,
      l.failed = true ↔ Refused l.line) ∧
    ((d.handleLoop overflow fuel mem read count).decoder.Ending →
      d.Ending ∨ ∃ l ∈ (d.loopLines overflow fuel due mem read count).1, l.Ends) := by
  induction fuel generalizing d due mem read count with
  | zero => exact ⟨by simp [Decoder.loopLines], fun h => .inl h⟩
  | succ fuel ih =>
    rw [Decoder.loopLines, Decoder.handleLoop]
    split_ifs with hcount hmore heof
    · exact ⟨by simp, fun h => .inl h⟩
    · exact ih _ _ _ _ _
    · exact ⟨by simp, fun h => .inl h⟩
    · have hparse := @ParseChunkRemaining_size overflow d due
        ((mem.drop read).take count)
      generalize d.ParseChunkRemaining overflow ((mem.drop read).take count) = r at hparse ⊢
      generalize d.sizeLine due ((mem.drop read).take count) = line at hparse ⊢
      obtain ⟨rv, d', bytes, consumed⟩ := r
      dsimp only at hparse ⊢
      have hline : ∀ l ∈ (line.map (SizeLine.mk · rv.failed)).toList,
          l.failed = true ↔ Refused l.line := by
        intro l hl
        rw [Option.mem_toList] at hl
        obtain ⟨text, htext, rfl⟩ := Option.map_eq_some_iff.mp hl
        exact hparse.1 text htext
      have hjoin {lines : List SizeLine} {final : Decoder}
          (h : (∀ l ∈ lines, l.failed = true ↔ Refused l.line) ∧
            (final.Ending → d'.Ending ∨ ∃ l ∈ lines, l.Ends)) :
          (∀ l ∈ (line.map (SizeLine.mk · rv.failed)).toList ++ lines,
            l.failed = true ↔ Refused l.line) ∧
          (final.Ending → d.Ending ∨
            ∃ l ∈ (line.map (SizeLine.mk · rv.failed)).toList ++ lines, l.Ends) := by
        refine ⟨fun l hl => (List.mem_append.mp hl).elim (hline l) (h.1 l), fun hend => ?_⟩
        rcases h.2 hend with hend | ⟨l, hl, hends⟩
        · rcases hparse.2 hend with hd | ⟨text, htext, hends⟩
          · exact .inl hd
          · refine .inr ⟨_, List.mem_append_left _ ?_, hends⟩
            rw [Option.mem_toList]
            exact Option.map_eq_some_iff.mpr ⟨text, htext, rfl⟩
        · exact .inr ⟨l, List.mem_append_right _ hl, hends⟩
      split_ifs
      · exact hjoin ⟨by simp, fun h => .inl h⟩
      · exact hjoin (ih _ _ _ _ _)
      · exact hjoin (ih _ _ _ _ _)

theorem feedLines_size (bufs : List (List UInt8)) (d : Decoder) (due : Bool)
    (content : List UInt8) :
    (∀ l ∈ d.feedLines overflow due bufs, l.failed = true ↔ Refused l.line) ∧
    ∀ d' content', d.feed overflow content bufs = some (d', content') → d'.Ending →
      d.Ending ∨ ∃ l ∈ d.feedLines overflow due bufs, l.Ends := by
  induction bufs generalizing d due content with
  | nil =>
    refine ⟨by simp [Decoder.feedLines], fun d' content' hfeed hend => .inl ?_⟩
    cases hfeed
    exact hend
  | cons buf bufs ih =>
    obtain ⟨hloop, hends⟩ :=
      @loopLines_size overflow buf.length d due buf 0 buf.length
    rw [Decoder.feedLines, Decoder.feed]
    dsimp only
    have hhandled : (d.HandleChunkedContent overflow buf).decoder =
        (d.handleLoop overflow buf.length buf 0 buf.length).decoder := rfl
    split_ifs with hfailed
    · exact ⟨by simpa using hloop, fun _ _ h => by cases h⟩
    · obtain ⟨hlines, hrun⟩ := ih (d.HandleChunkedContent overflow buf).decoder
        (d.loopLines overflow buf.length due buf 0 buf.length).2
        (content ++ (d.HandleChunkedContent overflow buf).content)
      refine ⟨fun l hl => (List.mem_append.mp hl).elim (hloop l) (hlines l),
        fun d' content' hfeed hend => ?_⟩
      rcases hrun d' content' hfeed hend with hend | ⟨l, hl, hl'⟩
      · rw [hhandled] at hend
        rcases hends hend with hd | ⟨l, hl, hl'⟩
        · exact .inl hd
        · exact .inr ⟨l, List.mem_append_left _ hl, hl'⟩
      · exact .inr ⟨l, List.mem_append_right _ hl, hl'⟩

/-- The decoder checks the sizes of a stream exactly if every line where a size is expected begins
with a number that fits the counter, or is refused by `sscanf`. -/
theorem checksSizes_iff (overflow : ℕ → UInt32) (bufs : List (List UInt8)) :
    ChecksSizes overflow bufs ↔
      ∀ l ∈ sizeLines overflow bufs, HasSize l.line ∨ Refused l.line := by
  obtain ⟨hfailed, hends⟩ := @feedLines_size overflow bufs {} true []
  constructor
  · intro h l hl
    by_cases hsize : HasSize l.line
    · exact .inl hsize
    · exact .inr ((hfailed l hl).mp (h.error l hl hsize))
  · intro h
    refine ⟨fun d content hfeed hend => ?_, fun l hl hsize => ?_⟩
    · rcases hends d content hfeed hend with hend | ⟨l, hl, hfalse, hzero⟩
      · rcases hend with hend | hend <;> cases hend
      · refine ⟨l, hl, hzero ((h l hl).resolve_right fun hrefused => ?_)⟩
        rw [(hfailed l hl).mpr hrefused] at hfalse
        cases hfalse
    · exact (hfailed l hl).mpr ((h l hl).resolve_left hsize)

/-- A line of one space ends the body, without an error. -/
theorem space_ends_body :
    ¬ ChecksSizes UInt32.ofNat [[32, LF, LF]] ∧
      (({} : Decoder).feed UInt32.ofNat [] [[32, LF, LF]]).map (·.1.mReachedEOF) = some true ∧
      sizeLines UInt32.ofNat [[32, LF, LF]] = [⟨[32], false⟩] := by
  refine ⟨fun h => ?_, by decide, by decide⟩
  have hfailed := h.error ⟨[32], false⟩ (by decide) (by
    rintro ⟨n, hn, -⟩
    cases hn)
  cases hfailed

end Kompozer.Http

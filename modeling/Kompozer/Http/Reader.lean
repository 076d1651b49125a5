import Kompozer.Http.ChunkedDecoder

/-! Chunked coding read byte by byte, as if the whole body lay in one buffer. This is what the
decoder is for; a line is known here with every `CR` it has. -/

namespace Kompozer.Http

open Net (cString CR LF semicolon)

/-! ### Lines -/

theorem cString_append_cString (s t : List UInt8) : cString (s ++ cString t) = cString (s ++ t) := by
  unfold cString
  induction s with
  | nil => simp only [List.nil_append, List.takeWhile_idem]
  | cons c s ih =>
    rw [List.cons_append, List.cons_append, List.takeWhile_cons, List.takeWhile_cons, ih]

@[simp] theorem dropCR_nil : dropCR [] = [] := rfl

theorem dropCR_append (s : List UInt8) {t : List UInt8} (ht : t ≠ []) :
    dropCR (s ++ t) = s ++ dropCR t := by
  rw [dropCR, dropCR, List.getLast?_append_of_ne_nil s ht]
  split_ifs
  · rw [List.dropLast_append_of_ne_nil ht]
  · rfl

theorem dropCR_of_ne {s : List UInt8} (h : s.getLast? ≠ some CR) : dropCR s = s := if_neg h

theorem dropCR_append_CR (s : List UInt8) : dropCR (s ++ [CR]) = s := by
  rw [dropCR_append s (by simp)]
  exact List.append_nil s

/-- Some of the `CR`s of a line are left out. -/
inductive Drops : List UInt8 → List UInt8 → Prop
  | nil : Drops [] []
  | keep {s t : List UInt8} (c : UInt8) : Drops s t → Drops (c :: s) (c :: t)
  | drop {s t : List UInt8} : Drops s t → Drops (CR :: s) t

theorem Drops.refl (s : List UInt8) : Drops s s := by
  induction s with
  | nil => exact .nil
  | cons c s ih => exact .keep c ih

theorem Drops.append {s t s' t' : List UInt8} (h : Drops s t) (h' : Drops s' t') :
    Drops (s ++ s') (t ++ t') := by
  induction h with
  | nil => exact h'
  | keep c _ ih => exact .keep c ih
  | drop _ ih => exact .drop ih

theorem Drops.trans {s t u : List UInt8} (h : Drops s t) (h' : Drops t u) : Drops s u := by
  induction h generalizing u with
  | nil => exact h'
  | keep c _ ih =>
    cases h' with
    | keep _ h' => exact .keep c (ih h')
    | drop h' => exact .drop (ih h')
  | drop _ ih => exact .drop (ih h')

theorem drops_dropCR (s : List UInt8) : Drops s (dropCR s) := by
  rcases List.eq_nil_or_concat s with rfl | ⟨s, c, rfl⟩
  · exact .nil
  · rw [List.concat_eq_append, dropCR_append s (by simp)]
    apply (Drops.refl s).append
    by_cases hc : c = CR
    · rw [hc]
      exact .drop .nil
    · rw [dropCR_of_ne (by simpa using hc)]
      exact Drops.refl _

/-! ### The reader -/

/-- What the reader expects: more than a number of bytes of a chunk, the rest of a line, or
nothing. -/
inductive Phase
  | data (more : ℕ)
  | line (trailer : Bool) (text : List UInt8)
  | done
  | failed
  deriving DecidableEq, Repr

variable (overflow : ℕ → UInt32)

/-- A line has ended. -/
def endLine (trailer : Bool) (text : List UInt8) : Phase :=
  if cString text = [] then (if trailer then .done else .line false [])
  else if trailer then .line true []
  else match sscanf overflow ((cString text).takeWhile (· ≠ semicolon)) with
    | .mismatch => .failed
    | .eof => .line true []
    | .stored n => if n.toNat = 0 then .line true [] else .data (n.toNat - 1)

/-- Bytes are read: what is expected then, the content, and the bytes that are left. -/
def Phase.read : Phase → List UInt8 → Phase × List UInt8 × List UInt8
  | .data more, c :: s =>
    let (p, content, rest) := read (if more = 0 then .line false [] else .data (more - 1)) s
    (p, c :: content, rest)
  | .line trailer text, c :: s =>
    if c = LF then read (endLine overflow trailer (dropCR text)) s
    else read (.line trailer (text ++ [c])) s
  | p, s => (p, [], s)

/-- A body begins with a line. -/
def Phase.start : Phase := .line false []

variable {overflow}

@[simp] theorem read_nil (p : Phase) : p.read overflow [] = (p, [], []) := by
  cases p <;> rfl

@[simp] theorem read_done (s : List UInt8) : Phase.done.read overflow s = (.done, [], s) := by
  cases s <;> rfl

@[simp] theorem read_failed (s : List UInt8) :
    Phase.failed.read overflow s = (.failed, [], s) := by
  cases s <;> rfl

/-- What is read in two parts is read in one. -/
theorem read_append (p : Phase) (s t : List UInt8) :
    p.read overflow (s ++ t) =
      (((p.read overflow s).1.read overflow ((p.read overflow s).2.2 ++ t)).1,
        (p.read overflow s).2.1 ++
          ((p.read overflow s).1.read overflow ((p.read overflow s).2.2 ++ t)).2.1,
        ((p.read overflow s).1.read overflow ((p.read overflow s).2.2 ++ t)).2.2) := by
  induction s generalizing p with
  | nil => simp
  | cons c s ih =>
    cases p with
    | data more => simp [Phase.read, ih]
    | line trailer text =>
      by_cases hc : c = LF
      · simp [Phase.read, hc, ih]
      · simp [Phase.read, hc, ih]
    | done => simp
    | failed => simp

/-- Nothing is left while something is expected. -/
theorem read_rest (p : Phase) (s : List UInt8) :
    (p.read overflow s).2.2 = [] ∨ (p.read overflow s).1 = .done ∨
      (p.read overflow s).1 = .failed := by
  induction s generalizing p with
  | nil => exact .inl (by simp)
  | cons c s ih =>
    cases p with
    | data more => exact ih _
    | line trailer text =>
      rw [Phase.read]
      split_ifs
      · exact ih _
      · exact ih _
    | done => exact .inr (.inl rfl)
    | failed => exact .inr (.inr rfl)

/-- Part of a chunk is read. -/
theorem read_data_part {more : ℕ} {s : List UInt8} (h : s.length ≤ more) (t : List UInt8) :
    (Phase.data more).read overflow (s ++ t) =
      (((Phase.data (more - s.length)).read overflow t).1,
        s ++ ((Phase.data (more - s.length)).read overflow t).2.1,
        ((Phase.data (more - s.length)).read overflow t).2.2) := by
  induction s generalizing more with
  | nil => simp
  | cons c s ih =>
    rw [List.length_cons] at h
    have hne : more ≠ 0 := by omega
    have hsub : more - (s.length + 1) = more - 1 - s.length := by omega
    rw [List.cons_append, Phase.read, if_neg hne, ih (by omega), List.length_cons, hsub]
    rfl

/-- A chunk is read to its end. -/
theorem read_data_all {more : ℕ} {s : List UInt8} (h : s.length = more + 1) (t : List UInt8) :
    (Phase.data more).read overflow (s ++ t) =
      (((Phase.line false []).read overflow t).1,
        s ++ ((Phase.line false []).read overflow t).2.1,
        ((Phase.line false []).read overflow t).2.2) := by
  induction s generalizing more with
  | nil => cases h
  | cons c s ih =>
    rw [List.length_cons, Nat.add_right_cancel_iff] at h
    cases more with
    | zero =>
      obtain rfl : s = [] := List.length_eq_zero_iff.mp h
      rfl
    | succ more =>
      rw [List.cons_append, Phase.read, if_neg (Nat.succ_ne_zero more), Nat.add_sub_cancel, ih h]
      rfl

/-- Part of a line is read. -/
theorem read_line_part {s : List UInt8} (h : LF ∉ s) (trailer : Bool) (text t : List UInt8) :
    (Phase.line trailer text).read overflow (s ++ t) =
      (Phase.line trailer (text ++ s)).read overflow t := by
  induction s generalizing text with
  | nil => simp
  | cons c s ih =>
    obtain ⟨hc, hs⟩ := not_or.mp (mt List.mem_cons.mpr h)
    rw [List.cons_append, Phase.read, if_neg (Ne.symm hc), ih hs, List.append_assoc]
    rfl

/-- A line is read to its end. -/
theorem read_line_all {s : List UInt8} (h : LF ∉ s) (trailer : Bool) (text t : List UInt8) :
    (Phase.line trailer text).read overflow (s ++ LF :: t) =
      (endLine overflow trailer (dropCR (text ++ s))).read overflow t := by
  rw [read_line_part h, Phase.read, if_pos rfl]

end Kompozer.Http

import Mathlib

/-! Bracketed sequences of events. A classification says which events open and
which close a bracket of which label; the others are neutral. A sequence is
balanced when every opening event is closed by exactly one later event of its
label and the pairs are nested. A stack machine decides this. -/

namespace Kompozer.Brackets

variable {ε α : Type*}

inductive Token (α : Type*)
  | opening (a : α)
  | closing (a : α)
  | neutral

inductive Balanced (tok : ε → Token α) : List ε → Prop
  | nil : Balanced tok []
  | neutral {e l} : tok e = .neutral → Balanced tok l → Balanced tok (e :: l)
  | bracket {e e' a inner rest} : tok e = .opening a → tok e' = .closing a →
      Balanced tok inner → Balanced tok rest → Balanced tok (e :: (inner ++ e' :: rest))

variable {tok : ε → Token α}

theorem Balanced.append {l r : List ε} (hl : Balanced tok l) (hr : Balanced tok r) :
    Balanced tok (l ++ r) := by
  induction hl with
  | nil => exact hr
  | neutral he _ ih => exact .neutral he ih
  | bracket he he' hi _ _ ih =>
    rw [List.cons_append, List.append_assoc, List.cons_append]
    exact .bracket he he' hi ih

theorem Balanced.single {e : ε} (he : tok e = .neutral) : Balanced tok [e] := .neutral he .nil

theorem Balanced.enclose {e e' : ε} {a : α} {l : List ε} (he : tok e = .opening a)
    (he' : tok e' = .closing a) (hl : Balanced tok l) : Balanced tok (e :: (l ++ [e'])) :=
  .bracket he he' hl .nil

theorem Balanced.pad {e e' : ε} {l : List ε} (he : tok e = .neutral) (he' : tok e' = .neutral)
    (hl : Balanced tok l) : Balanced tok (e :: (l ++ [e'])) :=
  .neutral he (hl.append (.single he'))

/-! ### Counting -/

/-- Openings count one, closings minus one. -/
def Token.weight : Token α → ℤ
  | .opening _ => 1
  | .closing _ => -1
  | .neutral => 0

/-- Openings minus closings of a sequence. -/
def excess (tok : ε → Token α) (l : List ε) : ℤ := (l.map fun e => (tok e).weight).sum

@[simp] theorem excess_nil : excess tok [] = 0 := rfl

@[simp] theorem excess_cons (e : ε) (l : List ε) :
    excess tok (e :: l) = (tok e).weight + excess tok l := by
  simp [excess]

@[simp] theorem excess_append (l r : List ε) :
    excess tok (l ++ r) = excess tok l + excess tok r := by
  simp [excess]

theorem Balanced.excess_eq_zero {l : List ε} (h : Balanced tok l) : excess tok l = 0 := by
  induction h with
  | nil => rfl
  | neutral he _ ih => simp [he, Token.weight, ih]
  | bracket he he' _ _ ih ih' => simp [he, he', Token.weight, ih, ih']

/-! ### Deciding -/

section Scan
variable [DecidableEq α]

/-- Read a sequence with a stack of the labels still open. -/
def scan (tok : ε → Token α) : List α → List ε → Option (List α)
  | st, [] => some st
  | st, e :: l => match tok e, st with
    | .neutral, st => scan tok st l
    | .opening a, st => scan tok (a :: st) l
    | .closing _, [] => none
    | .closing a, b :: st => if a = b then scan tok st l else none

theorem Balanced.scan_append {l : List ε} (h : Balanced tok l) (st : List α) (r : List ε) :
    scan tok st (l ++ r) = scan tok st r := by
  induction h generalizing st r with
  | nil => rfl
  | neutral he _ ih => simp only [List.cons_append, scan, he, ih]
  | bracket he he' _ _ ih ih' =>
    simp only [List.cons_append, List.append_assoc, scan, he, ih]
    simp [he', ih']

/-- A sequence that closes the given labels and is balanced in between. -/
inductive Closes (tok : ε → Token α) : List α → List ε → Prop
  | done {l} : Balanced tok l → Closes tok [] l
  | close {l e a st r} : Balanced tok l → tok e = .closing a → Closes tok st r →
      Closes tok (a :: st) (l ++ e :: r)

omit [DecidableEq α] in
theorem Closes.balanced_append {st : List α} {l r : List ε} (hl : Balanced tok l)
    (h : Closes tok st r) : Closes tok st (l ++ r) := by
  cases h with
  | done hr => exact .done (hl.append hr)
  | close hb he hr =>
    rw [← List.append_assoc]
    exact .close (hl.append hb) he hr

theorem closes_of_scan : ∀ (l : List ε) (st : List α), scan tok st l = some [] → Closes tok st l
  | [], st, h => by
    simp only [scan, Option.some.injEq] at h
    subst h
    exact .done .nil
  | e :: l, st, h => by
    unfold scan at h
    split at h
    next he =>
      exact (closes_of_scan l _ h).balanced_append (l := [e]) (.single he)
    next a he =>
      -- the rest closes `a` first, which pairs with this event
      cases closes_of_scan l _ h with
      | close hb he' hr =>
        have hpair := Balanced.enclose he he' hb
        simpa using hr.balanced_append hpair
    next => cases h
    next a b st' he =>
      split_ifs at h with hab
      subst hab
      exact .close (l := []) .nil he (closes_of_scan l _ h)

theorem balanced_iff_scan {l : List ε} : Balanced tok l ↔ scan tok [] l = some [] := by
  constructor
  · intro h
    simpa [scan] using h.scan_append [] []
  · intro h
    cases closes_of_scan l [] h with
    | done hb => exact hb

instance (l : List ε) : Decidable (Balanced tok l) := decidable_of_iff _ balanced_iff_scan.symm

end Scan

end Kompozer.Brackets

import Kompozer.Net.Bytes
import Mathlib.Data.List.GetD
import Mathlib.Tactic.Common

/-! `net_CoalesceDirs` (`nsURLHelper.cpp`) takes the dot segments out of a path. It works in
place: `urlPtr` writes behind `fwdPtr`, so that the buffer is what is written, what lies
between the two pointers, and what is still to be read. -/

namespace Kompozer.Net

/-- `netCoalesceFlags`. -/
structure NetCoalesceFlags where
  allowRelativeRoot : Bool
  doubleSlashIsRoot : Bool
  deriving DecidableEq

def NET_COALESCE_NORMAL : NetCoalesceFlags := ⟨false, false⟩

/-- The flags for `ftp`. -/
def NET_COALESCE_FTP : NetCoalesceFlags := ⟨true, true⟩

/-- A query or a reference begins. -/
def isTail (c : UInt8) : Bool := c == question || c == hash

/-- The length of the marker of the root directory in front of a path. -/
def specialFtpLen (flags : NetCoalesceFlags) (path : NsCString) : ℕ :=
  if flags.doubleSlashIsRoot then
    if net_ToLowerCase (path.take 4) = Prefs.ascii "/%2f" then 4
    else if path.take 2 = Prefs.ascii "//" then 2
    else 0
  else 0

/-- Escaped dots are dots. -/
def decodeDots : NsCString → NsCString
  | a :: b :: c :: rest =>
    if a = percent ∧ b = 50 ∧ (c = 69 ∨ c = 101) then dot :: decodeDots rest
    else a :: decodeDots (b :: c :: rest)
  | rest => rest

/-- The part of a path in front of the last slash before a query or a reference. -/
def beforeLastSlash (path : NsCString) : NsCString :=
  ((path.takeWhile (!isTail ·)).rdropWhile (· ≠ slash)).dropLast

/-- The first pass over the path. -/
def decoded (path : NsCString) : NsCString :=
  decodeDots (beforeLastSlash path) ++ path.drop (beforeLastSlash path).length

/-- The buffer behind the place of `fwdPtr`: what is written, the last character in front, and
what it has been before that is still in place. -/
structure Coalescing where
  out : NsCString
  stale : NsCString
  traversal : UInt32
  deriving DecidableEq

namespace Coalescing

/-- `++fwdPtr`. -/
def pass (s : Coalescing) (c : UInt8) : Coalescing := { s with stale := s.stale ++ [c] }

/-- `*urlPtr++ = c`. -/
def write (s : Coalescing) (c : UInt8) : Coalescing :=
  { s with out := c :: s.out, stale := s.stale.tail }

/-- `*urlPtr++ = *fwdPtr++`. -/
def copy (s : Coalescing) (c : UInt8) : Coalescing := (s.pass c).write c

/-- `++urlPtr`. -/
def forward (s : Coalescing) : Coalescing :=
  match s.stale with
  | [] => s
  | c :: stale => { s with out := c :: s.out, stale := stale }

/-- Back to the slash in front, or to the beginning of the path. -/
def backTo : NsCString → NsCString → NsCString × NsCString
  | [], stale => ([], stale)
  | c :: out, stale => if c = slash then (out, c :: stale) else backTo out (c :: stale)

def back (s : Coalescing) : Coalescing :=
  { s with out := (backTo s.out s.stale).1, stale := (backTo s.out s.stale).2 }

/-- `/..` takes the directory in front with it. At the end of the string its slash stays. -/
def up (s : Coalescing) (special_ftp_len : ℕ) (atEnd : Bool) : Coalescing :=
  let s := { s.back with traversal := s.traversal - 1 }
  let s := (s.pass slash).pass dot
  let s := if s.out = [] ∧ 3 < special_ftp_len then s.forward.forward.forward else s
  let s := if atEnd then s.forward else s
  s.pass dot

/-- `/..` above the root is copied, but not over the marker of the root. -/
def keep (s : Coalescing) (special_ftp_len : ℕ) : Coalescing :=
  let s := if 3 < special_ftp_len ∧ s.out.length = special_ftp_len - 1 then (s.pass slash).forward
    else s.copy slash
  (s.copy dot).copy dot

/-- The hierarchy is counted. -/
def count (s : Coalescing) (special_ftp_len : ℕ) (c next : UInt8) : Coalescing :=
  if c = slash ∧ next ≠ dot ∧ (special_ftp_len ≠ 2 ∨ next ≠ slash) then
    { s with traversal := s.traversal + 1 }
  else s

end Coalescing

/-- The second pass. It returns what is left at a query or a reference. A number of characters
is skipped that are taken care of. -/
def coalesceLoop (flags : NetCoalesceFlags) (special_ftp_len : ℕ) :
    Coalescing → ℕ → NsCString → Coalescing × NsCString
  | s, _, [] => (s, [])
  | s, k + 1, _ :: rest => coalesceLoop flags special_ftp_len s k rest
  | s, 0, c :: rest =>
    if isTail c then (s, c :: rest)
    else if c = slash ∧ charAt rest 0 = dot ∧ charAt rest 1 = slash then
      coalesceLoop flags special_ftp_len ((s.pass slash).pass dot) 1 rest
    else if c = slash ∧ charAt rest 0 = dot ∧ charAt rest 1 = dot ∧
        (charAt rest 2 = slash ∨ charAt rest 2 = 0 ∨ isTail (charAt rest 2)) then
      if 0 < s.traversal ∨ !flags.allowRelativeRoot then
        coalesceLoop flags special_ftp_len (s.up special_ftp_len (charAt rest 2 = 0)) 2 rest
      else coalesceLoop flags special_ftp_len (s.keep special_ftp_len) 2 rest
    else
      coalesceLoop flags special_ftp_len ((s.count special_ftp_len c (charAt rest 0)).copy c) 0 rest

/-- A trailing dot goes. -/
def removeTrailingDot (path : NsCString) : NsCString :=
  if [slash, dot] <:+ path then path.dropLast else path

/-- `net_CoalesceDirs`. -/
def net_CoalesceDirs (flags : NetCoalesceFlags) (path : NsCString) : NsCString :=
  let r := coalesceLoop flags (specialFtpLen flags path) ⟨[], [], 0⟩ 0 (decoded path)
  removeTrailingDot (r.1.out.reverse ++ r.2)

/-! ### Lengths -/

namespace Coalescing

variable {s : Coalescing} {c : UInt8} {k : ℕ}

@[simp] theorem out_copy : (s.copy c).out = c :: s.out := rfl

end Coalescing

variable {flags : NetCoalesceFlags} {special : ℕ}

/-! ### The directory alone changes -/

/-- One turn of the second pass. -/
theorem coalesceLoop_cons (s : Coalescing) (c : UInt8) (rest : NsCString) :
    coalesceLoop flags special s 0 (c :: rest) =
      if isTail c then (s, c :: rest)
      else if c = slash ∧ charAt rest 0 = dot ∧ charAt rest 1 = slash then
        coalesceLoop flags special ((s.pass slash).pass dot) 1 rest
      else if c = slash ∧ charAt rest 0 = dot ∧ charAt rest 1 = dot ∧
          (charAt rest 2 = slash ∨ charAt rest 2 = 0 ∨ isTail (charAt rest 2)) then
        if 0 < s.traversal ∨ !flags.allowRelativeRoot then
          coalesceLoop flags special (s.up special (charAt rest 2 = 0)) 2 rest
        else coalesceLoop flags special (s.keep special) 2 rest
      else coalesceLoop flags special ((s.count special c (charAt rest 0)).copy c) 0 rest := by
  rw [coalesceLoop]

theorem mem_decodeDots {path : NsCString} {c : UInt8} (h : c ∈ decodeDots path) :
    c = dot ∨ c ∈ path := by
  fun_induction decodeDots path with
  | case1 a b d rest hd ih =>
    rcases List.mem_cons.mp h with rfl | h
    · exact .inl rfl
    · exact (ih h).imp_right fun h => by simp [h]
  | case2 a b d rest hd ih =>
    rcases List.mem_cons.mp h with rfl | h
    · exact .inr (by simp)
    · exact (ih h).imp_right fun h => List.mem_cons_of_mem _ h
  | case3 rest hd => exact .inr h

/-- A path is taken apart at its last slash. -/
theorem beforeLastSlash_append {d f t : NsCString} (hd : ∀ c ∈ d, isTail c = false)
    (hf : ∀ c ∈ f, c ≠ slash ∧ isTail c = false) (ht : t = [] ∨ isTail (charAt t 0) = true) :
    beforeLastSlash (d ++ slash :: (f ++ t)) = d := by
  have hfront : ∀ c ∈ d ++ slash :: f, (!isTail c) = true := by
    intro c hc
    rcases List.mem_append.mp hc with hc | hc
    · simp [hd c hc]
    · rcases List.mem_cons.mp hc with rfl | hc
      · rfl
      · simp [(hf c hc).2]
  have htake : (d ++ slash :: (f ++ t)).takeWhile (!isTail ·) = d ++ slash :: f := by
    rw [← List.cons_append, ← List.append_assoc, List.takeWhile_append_of_pos hfront]
    rcases ht with rfl | ht
    · simp
    · cases t with
      | nil => simp
      | cons c t =>
        change isTail c = true at ht
        simp [ht]
  have hdrop : (d ++ slash :: f).rdropWhile (· ≠ slash) = d ++ [slash] := by
    apply rdropWhile_append
    · simp
    · intro c hc
      simpa using (hf c hc).1
  rw [beforeLastSlash, htake, hdrop, List.dropLast_concat]

/-! ### Characters -/

section Characters

variable {P : UInt8 → Prop}

namespace Coalescing

variable {s : Coalescing} {c : UInt8}

end Coalescing

end Characters

end Kompozer.Net

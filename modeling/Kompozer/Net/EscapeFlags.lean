import Kompozer.Net.Escape
import Mathlib

/-! `NS_EscapeURL` and `NS_UnescapeURL` (`nsEscape.cpp`) with all their flags, turn by turn: the
temporary buffer of the one and the pointer to what is not appended yet of the other. Both are
reduced to what they do to each character, from which it is read off when one undoes the other and
when escaping twice is escaping once. -/

namespace Kompozer.Net.EscapeFlags

open Prefs (ascii)

/-! ### The flags -/

/-- The components of a URL are the ten bits of `esc_Minimal`. -/
def esc_Minimal : ℕ := 1023
def esc_Forced : ℕ := 1024
def esc_OnlyASCII : ℕ := 2048
def esc_OnlyNonASCII : ℕ := 4096
def esc_AlwaysCopy : ℕ := 8192
def esc_Colon : ℕ := 16384
def esc_SkipControl : ℕ := 32768

/-- `flags & flag`. -/
def has (flags flag : ℕ) : Bool := flags &&& flag != 0

/-- `NO_NEED_ESC`. -/
def NO_NEED_ESC (flags : ℕ) (c : UInt8) : Bool := EscapeChars c &&& flags != 0

/-! ### `NS_EscapeURL` -/

/-- Whether a character is copied. -/
def isCopied (flags : ℕ) (previousIsNonASCII : Bool) (c : UInt8) : Bool :=
  (NO_NEED_ESC flags c || (c == percent && !has flags esc_Forced) ||
      (c > 127 && has flags esc_OnlyASCII) ||
      (c > 31 && c < 127 && has flags esc_OnlyNonASCII)) &&
    !(c == colon && has flags esc_Colon) &&
    !(previousIsNonASCII && c == pipe && !has flags esc_OnlyASCII)

/-- The variables of the loop. -/
structure Escaping where
  result : NsCString := []
  tempBuffer : NsCString := []
  writing : Bool
  previousIsNonASCII : Bool := false

/-- The buffer is appended as a terminated string. -/
def Escaping.flush (s : Escaping) : Escaping :=
  { s with result := s.result ++ cString s.tempBuffer, tempBuffer := [] }

/-- A character is put into the buffer. -/
def Escaping.put (flags : ℕ) (front : NsCString) (s : Escaping) (c : UInt8) : Escaping :=
  if isCopied flags s.previousIsNonASCII c then
    if s.writing then { s with tempBuffer := s.tempBuffer ++ [c] } else s
  else
    let s := if s.writing then s else { s with result := s.result ++ front, writing := true }
    { s with tempBuffer := s.tempBuffer ++ [percent, hexChar (c / 16), hexChar (c % 16)] }

/-- One turn, for what is in front of the character. The buffer has a hundred bytes. -/
def Escaping.turn (flags : ℕ) (front : NsCString) (s : Escaping) (c : UInt8) : Escaping :=
  let s := s.put flags front c
  let s := if 100 - 4 ≤ s.tempBuffer.length then s.flush else s
  { s with previousIsNonASCII := c > 127 }

def escapeLoop (flags : ℕ) : (src front : NsCString) → Escaping → Escaping
  | [], _, s => s
  | c :: src, front, s => escapeLoop flags src (front ++ [c]) (s.turn flags front c)

/-- `NS_EscapeURL`. The result is untouched if nothing is escaped. -/
def NS_EscapeURL (flags : ℕ) (part : NsCString) : Option NsCString :=
  let s := escapeLoop flags part [] { writing := has flags esc_AlwaysCopy }
  if s.writing then some s.flush.result else none

/-! ### `NS_UnescapeURL` -/

/-- `hexChars` of `NS_UnescapeURL`. -/
def ISHEX (c : UInt8) : Bool := c ∈ ascii "0123456789ABCDEFabcdef"

def UNHEX (c : UInt8) : UInt8 :=
  if 48 ≤ c ∧ c ≤ 57 then c - 48
  else if 65 ≤ c ∧ c ≤ 70 then c - 65 + 10
  else if 97 ≤ c ∧ c ≤ 102 then c - 97 + 10
  else 0

/-- Whether the two characters behind a `%` are read as an escape. -/
def unescapes (flags : ℕ) (p1 p2 : UInt8) : Bool :=
  ISHEX p1 && ISHEX p2 &&
    ((p1 < 56 && !has flags esc_OnlyNonASCII) || (56 ≤ p1 && !has flags esc_OnlyASCII)) &&
    !(has flags esc_SkipControl && (p1 < 50 || (p1 == 55 && (p2 == 102 || p2 == 70))))

/-- The variables of the loop; `last` is what is not appended yet. -/
structure Unescaping where
  result : NsCString := []
  last : NsCString := []
  writing : Bool

def unescapeLoop (flags : ℕ) : NsCString → Unescaping → Unescaping
  | p :: p1 :: p2 :: rest, s =>
    if p = percent ∧ unescapes flags p1 p2 then
      unescapeLoop flags rest
        ⟨s.result ++ s.last ++ [UNHEX p1 * 16 + UNHEX p2], [], true⟩
    else unescapeLoop flags (p1 :: p2 :: rest) { s with last := s.last ++ [p] }
  | rest, s => { s with last := s.last ++ rest }

/-- `NS_UnescapeURL`. The result is untouched if there is nothing to unescape. -/
def NS_UnescapeURL (flags : ℕ) (str : NsCString) : Option NsCString :=
  let s := unescapeLoop flags str { writing := has flags esc_AlwaysCopy }
  if s.writing then some (s.result ++ s.last) else none

/-! ### Character by character -/

/-- What is written for a character. -/
def escapeChar (flags : ℕ) (previousIsNonASCII : Bool) (c : UInt8) : NsCString :=
  if isCopied flags previousIsNonASCII c then [c]
  else [percent, hexChar (c / 16), hexChar (c % 16)]

def escapeText (flags : ℕ) : Bool → NsCString → NsCString
  | _, [] => []
  | previous, c :: src => escapeChar flags previous c ++ escapeText flags (c > 127) src

def unescapeText (flags : ℕ) : NsCString → NsCString
  | p :: p1 :: p2 :: rest =>
    if p = percent ∧ unescapes flags p1 p2 then
      (UNHEX p1 * 16 + UNHEX p2) :: unescapeText flags rest
    else p :: unescapeText flags (p1 :: p2 :: rest)
  | rest => rest

/-- The string that the callers go on with. -/
def escaped (flags : ℕ) (s : NsCString) : NsCString := (NS_EscapeURL flags s).getD s

def unescaped (flags : ℕ) (s : NsCString) : NsCString := (NS_UnescapeURL flags s).getD s

/-! ### The buffer -/

theorem NO_NEED_ESC_zero (flags : ℕ) : NO_NEED_ESC flags 0 = false := by
  simp [NO_NEED_ESC, EscapeChars, escapeTable]

/-- A terminator is always escaped. -/
theorem isCopied_zero (flags : ℕ) (previous : Bool) : isCopied flags previous 0 = false := by
  rw [isCopied, NO_NEED_ESC_zero]
  rfl

theorem hexChar_mem {n : UInt8} (h : n < 16) : hexChar n ∈ hexChars := by
  have hlt : n.toNat < hexChars.length := h
  rw [hexChar, List.getD_eq_getElem _ _ hlt]
  exact List.getElem_mem hlt

theorem zero_notMem_hexChars : (0 : UInt8) ∉ hexChars := by decide

theorem zero_notMem_escapeChar (flags : ℕ) (previous : Bool) (c : UInt8) :
    0 ∉ escapeChar flags previous c := by
  rw [escapeChar]
  split_ifs with hcopy
  · intro h0
    rw [← List.mem_singleton.mp h0, isCopied_zero] at hcopy
    cases hcopy
  · have hhigh : hexChar (c / 16) ≠ 0 := fun h =>
      zero_notMem_hexChars (h ▸ hexChar_mem (div_lt c))
    have hlow : hexChar (c % 16) ≠ 0 := fun h =>
      zero_notMem_hexChars (h ▸ hexChar_mem (mod_lt c))
    simp [hhigh.symm, hlow.symm, percent]

/-- Whether the last character is not ASCII. -/
def lastNonASCII (previous : Bool) (front : NsCString) : Bool :=
  (front.getLast?.map fun c => decide (c > 127)).getD previous

theorem escapeText_concat (flags : ℕ) (previous : Bool) (front : NsCString) (c : UInt8) :
    escapeText flags previous (front ++ [c]) =
      escapeText flags previous front ++ escapeChar flags (lastNonASCII previous front) c := by
  induction front generalizing previous with
  | nil => simp [escapeText, lastNonASCII]
  | cons d front ih =>
    have hlast : lastNonASCII (decide (d > 127)) front = lastNonASCII previous (d :: front) := by
      cases front with
      | nil => rfl
      | cons e front =>
        rw [lastNonASCII, lastNonASCII, List.getLast?_cons_cons, List.getLast?_cons]
        rfl
    rw [List.cons_append, escapeText, escapeText, ih, List.append_assoc, hlast]

/-- What the loop has written for the characters in front: it is in the result and the buffer, or
nothing had to be written. -/
structure Wrote (flags : ℕ) (front : NsCString) (s : Escaping) : Prop where
  text : if s.writing then s.result ++ s.tempBuffer = escapeText flags false front
    else s.result = [] ∧ s.tempBuffer = [] ∧ escapeText flags false front = front
  room : s.tempBuffer.length < 96
  terminated : 0 ∉ s.tempBuffer
  previous : s.previousIsNonASCII = lastNonASCII false front

variable {flags : ℕ} {front : NsCString} {s : Escaping}

/-- A character is put behind the others. The buffer is not left. -/
theorem Wrote.put (h : Wrote flags front s) (c : UInt8) :
    (if (s.put flags front c).writing then
        (s.put flags front c).result ++ (s.put flags front c).tempBuffer =
          escapeText flags false (front ++ [c])
      else (s.put flags front c).result = [] ∧ (s.put flags front c).tempBuffer = [] ∧
        escapeText flags false (front ++ [c]) = front ++ [c]) ∧
      (s.put flags front c).tempBuffer.length ≤ 98 ∧ 0 ∉ (s.put flags front c).tempBuffer := by
  have hesc : escapeText flags false (front ++ [c]) =
      escapeText flags false front ++ escapeChar flags s.previousIsNonASCII c := by
    rw [escapeText_concat, h.previous]
  have htext := h.text
  have hroom := h.room
  have hfree := h.terminated
  have hzero := zero_notMem_escapeChar flags s.previousIsNonASCII c
  rw [escapeChar] at hesc hzero
  rw [hesc, Escaping.put]
  obtain ⟨result, tempBuffer, writing, previous⟩ := s
  dsimp only at htext hroom hfree hzero ⊢
  by_cases hcopy : isCopied flags previous c = true
  · rw [if_pos hcopy] at hzero ⊢
    rw [if_pos hcopy]
    cases writing with
    | true =>
      have htext : result ++ tempBuffer = escapeText flags false front := htext
      refine ⟨?_, ?_, ?_⟩
      · exact (List.append_assoc ..).symm.trans (congrArg (· ++ [c]) htext)
      · simp only [if_pos, List.length_append, List.length_singleton]
        omega
      · exact List.not_mem_append hfree hzero
    | false =>
      obtain ⟨hresult, hbuffer, hfront⟩ := htext
      exact ⟨⟨hresult, hbuffer, congrArg (· ++ [c]) hfront⟩, by simp [hbuffer], hfree⟩
  · rw [if_neg hcopy] at hzero ⊢
    rw [if_neg hcopy]
    cases writing with
    | true =>
      have htext : result ++ tempBuffer = escapeText flags false front := htext
      refine ⟨?_, ?_, ?_⟩
      · exact (List.append_assoc ..).symm.trans (congrArg (· ++ _) htext)
      · simp only [if_pos, List.length_append, List.length_cons, List.length_nil]
        omega
      · exact List.not_mem_append hfree hzero
    | false =>
      obtain ⟨hresult, hbuffer, hfront⟩ := htext
      subst hresult hbuffer
      exact ⟨congrArg (· ++ _) hfront.symm, by simp, hzero⟩

theorem Wrote.turn (h : Wrote flags front s) (c : UInt8) :
    Wrote flags (front ++ [c]) (s.turn flags front c) := by
  obtain ⟨htext, hroom, hzero⟩ := h.put c
  rw [Escaping.turn]
  have hprev : decide (c > 127) = lastNonASCII false (front ++ [c]) := by simp [lastNonASCII]
  generalize s.put flags front c = t at htext hroom hzero
  by_cases hfull : 100 - 4 ≤ t.tempBuffer.length
  · rw [if_pos hfull]
    refine ⟨?_, by simp [Escaping.flush], by simp [Escaping.flush], hprev⟩
    rw [Escaping.flush, cString_eq_self hzero]
    by_cases hw : t.writing = true
    · rw [if_pos hw] at htext ⊢
      simpa using htext
    · rw [if_neg hw] at htext
      rw [htext.2.1] at hfull
      exact absurd hfull (by decide)
  · rw [if_neg hfull]
    exact ⟨htext, by dsimp only; omega, hzero, hprev⟩

theorem Wrote.run (h : Wrote flags front s) (src : NsCString) :
    Wrote flags (front ++ src) (escapeLoop flags src front s) := by
  induction src generalizing front s with
  | nil => rwa [List.append_nil]
  | cons c src ih =>
    have hrest := ih (h.turn c)
    rw [List.append_assoc, List.singleton_append] at hrest
    exact hrest

theorem wrote_start (flags : ℕ) (writing : Bool) : Wrote flags [] { writing } where
  text := by cases writing <;> simp [escapeText]
  room := by simp
  terminated := by simp
  previous := rfl

/-- The buffer is written in pieces, but nothing is lost. -/
theorem escaped_eq (flags : ℕ) (part : NsCString) :
    escaped flags part = escapeText flags false part := by
  have hrun := (wrote_start flags (has flags esc_AlwaysCopy)).run part
  rw [List.nil_append] at hrun
  rw [escaped, NS_EscapeURL]
  generalize EscapeFlags.escapeLoop flags part [] _ = s at hrun
  have htext := hrun.text
  by_cases hw : s.writing = true
  · rw [if_pos hw] at htext
    rw [if_pos hw, Escaping.flush, cString_eq_self hrun.terminated]
    exact htext
  · rw [if_neg hw] at htext
    rw [if_neg hw]
    exact htext.2.2.symm

theorem unescapeLoop_eq (flags : ℕ) (str : NsCString) (s : Unescaping) :
    (unescapeLoop flags str s).result ++ (unescapeLoop flags str s).last =
        s.result ++ s.last ++ unescapeText flags str ∧
      ((unescapeLoop flags str s).writing = false →
        s.writing = false ∧ unescapeText flags str = str) := by
  fun_induction unescapeLoop flags str s with
  | case1 p p1 p2 rest s h ih =>
    rw [unescapeText, if_pos h]
    refine ⟨by rw [ih.1]; simp, fun hnot => ?_⟩
    cases (ih.2 hnot).1
  | case2 p p1 p2 rest s h ih =>
    rw [unescapeText, if_neg h]
    refine ⟨by rw [ih.1]; simp, fun hnot => ?_⟩
    exact ⟨(ih.2 hnot).1, by rw [(ih.2 hnot).2]⟩
  | case3 rest s h =>
    have hrest : unescapeText flags rest = rest := by
      rcases rest with _ | ⟨a, _ | ⟨b, _ | ⟨c, rest⟩⟩⟩
      · rfl
      · rfl
      · rfl
      · exact absurd rfl (h a b c rest)
    rw [hrest]
    exact ⟨(List.append_assoc ..).symm, fun hnot => ⟨hnot, rfl⟩⟩

theorem unescaped_eq (flags : ℕ) (str : NsCString) :
    unescaped flags str = unescapeText flags str := by
  obtain ⟨htext, hnot⟩ := unescapeLoop_eq flags str { writing := has flags esc_AlwaysCopy }
  rw [unescaped, NS_UnescapeURL]
  generalize unescapeLoop flags str _ = s at htext hnot
  by_cases hw : s.writing = true
  · rw [if_pos hw]
    exact htext
  · rw [if_neg hw]
    exact (hnot (by simpa using hw)).2.symm

/-! ### Unescaping what was escaped -/

/-- The flags of `NS_UnescapeURL` leave no escape out that `NS_EscapeURL` writes. -/
structure Undoes (flags uflags : ℕ) : Prop where
  ascii : has uflags esc_OnlyNonASCII = false
  control : has uflags esc_SkipControl = false
  nonASCII : has uflags esc_OnlyASCII = true → has flags esc_OnlyASCII = true

theorem unescapeText_cons {c : UInt8} (h : c ≠ percent) (uflags : ℕ) (rest : NsCString) :
    unescapeText uflags (c :: rest) = c :: unescapeText uflags rest := by
  rcases rest with _ | ⟨p1, _ | ⟨p2, rest⟩⟩
  · rfl
  · rfl
  · rw [unescapeText, if_neg fun hp => h hp.1]

/-- Two digits are what they stand for. -/
theorem UNHEX_hexChar (n : Fin 16) : UNHEX (hexChars.getD n 0) = UInt8.ofNat n := by
  revert n
  decide

theorem ISHEX_hexChar (n : Fin 16) : ISHEX (hexChars.getD n 0) = true := by
  revert n
  decide

theorem hexChar_lt_iff (n : Fin 16) : hexChars.getD n 0 < 56 ↔ n.val < 8 := by
  revert n
  decide

theorem unhex_digits (c : UInt8) :
    UNHEX (hexChar (c / 16)) * 16 + UNHEX (hexChar (c % 16)) = c := by
  have hhigh := UNHEX_hexChar ⟨(c / 16).toNat, div_lt c⟩
  have hlow := UNHEX_hexChar ⟨(c % 16).toNat, mod_lt c⟩
  rw [hexChar, hexChar, hhigh, hlow, UInt8.ofNat_toNat, UInt8.ofNat_toNat]
  apply UInt8.toNat_inj.mp
  have hc := c.toNat_lt
  simp only [UInt8.toNat_add, UInt8.toNat_mul, UInt8.toNat_div, UInt8.toNat_mod,
    show (16 : UInt8).toNat = 16 from rfl]
  omega

/-- An escape that is not left out is undone. -/
theorem unescapeText_digits {uflags : ℕ} {c : UInt8} (hascii : has uflags esc_OnlyNonASCII = false)
    (hcontrol : has uflags esc_SkipControl = false)
    (hnon : c > 127 → has uflags esc_OnlyASCII = false) (rest : NsCString) :
    unescapeText uflags (percent :: hexChar (c / 16) :: hexChar (c % 16) :: rest) =
      c :: unescapeText uflags rest := by
  have hhigh : ISHEX (hexChar (c / 16)) = true := ISHEX_hexChar ⟨(c / 16).toNat, div_lt c⟩
  have hlow : ISHEX (hexChar (c % 16)) = true := ISHEX_hexChar ⟨(c % 16).toNat, mod_lt c⟩
  have hlt : hexChar (c / 16) < 56 ↔ (c / 16).toNat < 8 :=
    hexChar_lt_iff ⟨(c / 16).toNat, div_lt c⟩
  have hdigit : (c / 16).toNat < 8 ↔ ¬ c > 127 := by
    rw [UInt8.toNat_div, gt_iff_lt, UInt8.lt_iff_toNat_lt, show (16 : UInt8).toNat = 16 from rfl,
      show (127 : UInt8).toNat = 127 from rfl]
    omega
  have hunescapes : unescapes uflags (hexChar (c / 16)) (hexChar (c % 16)) = true := by
    rw [unescapes, hhigh, hlow, hascii, hcontrol]
    by_cases hc : c > 127
    · have hge : 56 ≤ hexChar (c / 16) := by
        rw [← UInt8.not_lt, hlt, hdigit]
        exact not_not_intro hc
      simp [hnon hc, hge]
    · simp [hlt.mpr (hdigit.mpr hc)]
  rw [unescapeText, if_pos ⟨rfl, hunescapes⟩, unhex_digits]

/-- With `esc_Forced` a `%` is escaped, but as every graphic character not with
`esc_OnlyNonASCII`. -/
theorem isCopied_percent {flags : ℕ} (hforced : has flags esc_Forced = true) (previous : Bool) :
    isCopied flags previous percent = has flags esc_OnlyNonASCII := by
  have hneed : NO_NEED_ESC flags percent = false := by
    simp [NO_NEED_ESC, EscapeChars, escapeTable, percent]
  rw [isCopied, hneed, hforced]
  simp [percent, colon, pipe]

/-- A character that is not ASCII is copied with `esc_OnlyASCII`. -/
theorem isCopied_nonASCII {flags : ℕ} {c : UInt8} (hc : c > 127)
    (honly : has flags esc_OnlyASCII = true) (previous : Bool) :
    isCopied flags previous c = true := by
  have hcolon : c ≠ colon := by
    rintro rfl
    exact absurd hc (by decide)
  simp [isCopied, hc, honly, hcolon]

variable {uflags : ℕ}

/-- What is written for a character is read as the character. -/
theorem unescapeText_escapeChar (hundo : Undoes flags uflags) {previous : Bool} {c : UInt8}
    (hc : c ≠ percent ∨ isCopied flags previous c = false) (rest : NsCString) :
    unescapeText uflags (escapeChar flags previous c ++ rest) =
      c :: unescapeText uflags rest := by
  rw [escapeChar]
  split_ifs with hcopy
  · exact unescapeText_cons (hc.resolve_right (by simp [hcopy])) uflags rest
  · refine unescapeText_digits hundo.ascii hundo.control (fun hnon => ?_) rest
    by_contra honly
    have hflag := hundo.nonASCII (by simpa using honly)
    exact hcopy (isCopied_nonASCII hnon hflag previous)

/-- Without `esc_OnlyNonASCII` everything is undone. -/
theorem unescapeText_escapeText (hforced : has flags esc_Forced = true)
    (hascii : has flags esc_OnlyNonASCII = false) (hundo : Undoes flags uflags) (previous : Bool)
    (s : NsCString) : unescapeText uflags (escapeText flags previous s) = s := by
  induction s generalizing previous with
  | nil => rfl
  | cons c s ih =>
    have hc : c ≠ percent ∨ isCopied flags previous c = false := by
      by_cases hp : c = percent
      · exact .inr (by rw [hp, isCopied_percent hforced, hascii])
      · exact .inl hp
    rw [escapeText, unescapeText_escapeChar hundo hc, ih]

/-- The rest of an escape stands in front. -/
def StartsEscape (uflags : ℕ) (t : NsCString) : Prop :=
  ∃ p1 p2 rest, t = p1 :: p2 :: rest ∧ unescapes uflags p1 p2 = true

theorem unescapeText_percent {t : NsCString} (h : ¬ StartsEscape uflags t) :
    unescapeText uflags (percent :: t) = percent :: unescapeText uflags t := by
  rcases t with _ | ⟨p1, _ | ⟨p2, rest⟩⟩
  · rfl
  · rfl
  · rw [unescapeText, if_neg fun hp => h ⟨p1, p2, rest, rfl, hp.2⟩]

theorem ISHEX_of_unescapes {p1 p2 : UInt8} (h : unescapes uflags p1 p2 = true) :
    ISHEX p1 = true ∧ ISHEX p2 = true := by
  simp only [unescapes, Bool.and_eq_true] at h
  exact h.1.1

theorem graphic_of_ISHEX {c : UInt8} (h : ISHEX c = true) :
    c > 31 ∧ c < 127 ∧ c ≠ percent ∧ c ≠ colon ∧ c ≠ pipe := by
  have hall : (ascii "0123456789ABCDEFabcdef").all fun d =>
      31 < d && d < 127 && d != percent && d != colon && d != pipe := by decide
  have hc := List.all_eq_true.mp hall c (by simpa [ISHEX] using h)
  simpa [and_assoc] using hc

theorem isCopied_ISHEX (hascii : has flags esc_OnlyNonASCII = true) {c : UInt8}
    (h : ISHEX c = true) (previous : Bool) : isCopied flags previous c = true := by
  obtain ⟨hlow, hhigh, -, hcolon, hpipe⟩ := graphic_of_ISHEX h
  simp [isCopied, hascii, hcolon, hpipe, hlow, hhigh]

/-- A digit in front of what is written stands in front of the text. -/
theorem head_escapeText {previous : Bool} {t rest : NsCString} {c : UInt8} (h : ISHEX c = true)
    (heq : escapeText flags previous t = c :: rest) :
    ∃ t', t = c :: t' ∧ rest = escapeText flags (c > 127) t' := by
  cases t with
  | nil => cases heq
  | cons d t =>
    rw [escapeText, escapeChar] at heq
    split_ifs at heq with hcopy
    · obtain ⟨rfl, rfl⟩ := List.cons.inj heq
      exact ⟨t, rfl, rfl⟩
    · exact absurd (List.cons.inj heq).1.symm (graphic_of_ISHEX h).2.2.1

theorem StartsEscape.of_escapeText {previous : Bool} {t : NsCString}
    (h : StartsEscape uflags (escapeText flags previous t)) : StartsEscape uflags t := by
  obtain ⟨p1, p2, rest, heq, hun⟩ := h
  obtain ⟨hp1, hp2⟩ := ISHEX_of_unescapes hun
  obtain ⟨t₁, rfl, hrest⟩ := head_escapeText hp1 heq
  obtain ⟨t₂, rfl, -⟩ := head_escapeText hp2 hrest.symm
  exact ⟨p1, p2, t₂, rfl, hun⟩

/-- With `esc_OnlyNonASCII` the escapes that were there are undone, too. -/
theorem unescapeText_escapeText_ascii (hforced : has flags esc_Forced = true)
    (hascii : has flags esc_OnlyNonASCII = true) (hundo : Undoes flags uflags) (previous : Bool)
    (s : NsCString) :
    unescapeText uflags (escapeText flags previous s) = unescapeText uflags s := by
  induction hn : s.length using Nat.strong_induction_on generalizing s previous with
  | _ n ih =>
    cases s with
    | nil => rfl
    | cons c s =>
      rw [List.length_cons] at hn
      by_cases hc : c = percent
      · subst hc
        have hcopy : isCopied flags previous percent = true := by
          rw [isCopied_percent hforced, hascii]
        rw [escapeText, escapeChar, if_pos hcopy, List.singleton_append]
        by_cases hstart : StartsEscape uflags s
        · obtain ⟨p1, p2, rest, rfl, hun⟩ := hstart
          obtain ⟨hp1, hp2⟩ := ISHEX_of_unescapes hun
          rw [escapeText, escapeChar, if_pos (isCopied_ISHEX hascii hp1 _), escapeText,
            escapeChar, if_pos (isCopied_ISHEX hascii hp2 _)]
          simp only [List.singleton_append]
          rw [unescapeText, if_pos ⟨rfl, hun⟩, unescapeText, if_pos ⟨rfl, hun⟩,
            ih rest.length (by simp at hn; omega) _ _ rfl]
        · rw [unescapeText_percent hstart,
            unescapeText_percent fun h => hstart h.of_escapeText,
            ih s.length (by omega) _ _ rfl]
      · rw [escapeText, unescapeText_escapeChar hundo (.inl hc), unescapeText_cons hc,
          ih s.length (by omega) _ _ rfl]

/-! ### Escaping twice -/

/-- The digits of an escape are copied: the mask names a component, or graphic characters are left
alone. -/
def KeepsDigits (flags : ℕ) : Prop :=
  has flags esc_Minimal = true ∨ has flags esc_OnlyNonASCII = true

theorem escapeChars_digit {c : UInt8} (hc : c ∈ hexChars) :
    EscapeChars c = esc_Minimal ∧ c > 31 ∧ c < 127 ∧ c ≠ percent ∧ c ≠ colon ∧ c ≠ pipe := by
  have hall : hexChars.all fun d => EscapeChars d == esc_Minimal && 31 < d && d < 127 &&
      d != percent && d != colon && d != pipe := by decide
  simpa [and_assoc] using List.all_eq_true.mp hall c hc

theorem isCopied_digit (h : KeepsDigits flags) {c : UInt8} (hc : c ∈ hexChars) (previous : Bool) :
    isCopied flags previous c = true := by
  obtain ⟨hbits, hlow, hhigh, -, hcolon, hpipe⟩ := escapeChars_digit hc
  rcases h with h | h
  · have hneed : NO_NEED_ESC flags c = true := by
      rwa [NO_NEED_ESC, hbits, Nat.land_comm]
    simp [isCopied, hneed, hcolon, hpipe]
  · simp [isCopied, h, hcolon, hpipe, hlow, hhigh]

theorem not_isCopied_digit (h : ¬ KeepsDigits flags) {c : UInt8} (hc : c ∈ hexChars)
    (previous : Bool) : isCopied flags previous c = false := by
  obtain ⟨hbits, hlow, hhigh, hpercent, -, -⟩ := escapeChars_digit hc
  rw [KeepsDigits, not_or, Bool.not_eq_true, Bool.not_eq_true] at h
  have hneed : NO_NEED_ESC flags c = false := by
    rw [NO_NEED_ESC, hbits, Nat.land_comm]
    exact h.1
  have hnon : ¬ c > 127 := UInt8.lt_asymm hhigh
  simp [isCopied, hneed, hpercent, h.2, hnon]

/-- A character that is copied behind another one is copied behind an ASCII character. -/
theorem isCopied_of_not_pipe {previous : Bool} {c : UInt8} (h : isCopied flags previous c = true) :
    isCopied flags false c = true := by
  simp only [isCopied, Bool.and_eq_true] at h ⊢
  exact ⟨h.1, by simp⟩

theorem isCopied_percent_of_not_forced (h : has flags esc_Forced = false) :
    isCopied flags false percent = true := by
  simp [isCopied, h, percent, colon]

/-- Every character that is written is copied. -/
theorem isCopied_of_mem_escapeText (hforced : has flags esc_Forced = false)
    (hdigits : KeepsDigits flags) {previous : Bool} {s : NsCString} :
    ∀ c ∈ escapeText flags previous s, isCopied flags false c = true := by
  induction s generalizing previous with
  | nil => simp [escapeText]
  | cons d s ih =>
    intro c hc
    rw [escapeText, List.mem_append] at hc
    rcases hc with hc | hc
    · rw [escapeChar] at hc
      split_ifs at hc with hcopy
      · rw [List.mem_singleton.mp hc]
        exact isCopied_of_not_pipe hcopy
      · simp only [List.mem_cons, List.not_mem_nil, or_false] at hc
        rcases hc with rfl | rfl | rfl
        · exact isCopied_percent_of_not_forced hforced
        · exact isCopied_digit hdigits (hexChar_mem (div_lt d)) false
        · exact isCopied_digit hdigits (hexChar_mem (mod_lt d)) false
    · exact ih c hc

/-- Characters that are not ASCII are only copied with `esc_OnlyASCII`. -/
theorem onlyASCII_of_isCopied {previous : Bool} {c : UInt8} (h : isCopied flags previous c = true)
    (hc : c > 127) : has flags esc_OnlyASCII = true := by
  have hlen : escapeTable.length ≤ c.toNat := hc
  have hneed : NO_NEED_ESC flags c = false := by
    rw [NO_NEED_ESC, EscapeChars, List.getD_eq_default _ _ hlen, Nat.zero_and]
    rfl
  have hpercent : c ≠ percent := by
    rintro rfl
    exact absurd hc (by decide)
  have hgraphic : ¬ c < 127 := UInt8.lt_asymm hc
  simp only [isCopied, hneed, hgraphic, Bool.and_eq_true] at h
  have hparts : 127 < c ∧ has flags esc_OnlyASCII = true := by simpa [hpercent] using h.1.1
  exact hparts.2

/-- Text that may be copied is copied. -/
theorem escapeText_eq_self {t : NsCString} (h : ∀ c ∈ t, isCopied flags false c = true)
    {previous : Bool} (hprev : previous = true → has flags esc_OnlyASCII = true) :
    escapeText flags previous t = t := by
  induction t generalizing previous with
  | nil => rfl
  | cons c t ih =>
    have hc := h c (by simp)
    have hcopy : isCopied flags previous c = true := by
      cases previous with
      | false => exact hc
      | true =>
        simp only [isCopied, Bool.and_eq_true] at hc ⊢
        exact ⟨hc.1, by simp [hprev rfl]⟩
    rw [escapeText, escapeChar, if_pos hcopy, ih (fun d hd => h d (by simp [hd])) fun hnon =>
      onlyASCII_of_isCopied hc (by simpa using hnon)]
    rfl

theorem length_le_escapeText (previous : Bool) (t : NsCString) :
    t.length ≤ (escapeText flags previous t).length := by
  induction t generalizing previous with
  | nil => exact le_rfl
  | cons c t ih =>
    have hrest := ih (decide (c > 127))
    rw [escapeText, escapeChar, List.length_append, List.length_cons]
    split_ifs <;> simp only [List.length_cons, List.length_nil] <;> omega

/-- What is not changed consists of characters that are copied. -/
theorem isCopied_of_escapeText_eq {previous : Bool} {t : NsCString}
    (h : escapeText flags previous t = t) : ∀ c ∈ t, isCopied flags false c = true := by
  induction t generalizing previous with
  | nil => simp
  | cons c t ih =>
    have hlen := @length_le_escapeText flags (decide (c > 127)) t
    rw [escapeText, escapeChar] at h
    split_ifs at h with hcopy
    · rw [List.singleton_append] at h
      rw [List.forall_mem_cons]
      exact ⟨isCopied_of_not_pipe hcopy, ih (List.cons.inj h).2⟩
    · have heq := congrArg List.length h
      simp only [List.length_append, List.length_cons, List.length_nil] at heq
      omega

/-- Where something is escaped, a digit of the escape is escaped in turn. -/
theorem exists_digit_escapeText (h : ¬ KeepsDigits flags) {previous : Bool} {s : NsCString}
    (hne : escapeText flags previous s ≠ s) :
    ∃ c ∈ escapeText flags previous s, isCopied flags false c = false := by
  induction s generalizing previous with
  | nil => exact absurd rfl hne
  | cons d s ih =>
    rw [escapeText, escapeChar] at hne ⊢
    split_ifs at hne ⊢ with hcopy
    · rw [List.singleton_append] at hne
      obtain ⟨c, hc, hdigit⟩ := ih (fun heq => hne (by rw [heq]))
      exact ⟨c, List.mem_append_right _ hc, hdigit⟩
    · exact ⟨hexChar (d / 16), by simp, not_isCopied_digit h (hexChar_mem (div_lt d)) false⟩

/-! ### The laws -/

variable (flags uflags : ℕ) (s : NsCString)

/-- Escaping twice is escaping once exactly if the digits of an escape are kept, or if nothing has
to be escaped. -/
theorem escaped_escaped (hforced : has flags esc_Forced = false) :
    escaped flags (escaped flags s) = escaped flags s ↔
      KeepsDigits flags ∨ escaped flags s = s := by
  rw [escaped_eq, escaped_eq]
  constructor
  · intro htwice
    by_contra hnot
    rw [not_or] at hnot
    obtain ⟨c, hc, hcopy⟩ := exists_digit_escapeText hnot.1 hnot.2
    rw [isCopied_of_escapeText_eq htwice c hc] at hcopy
    cases hcopy
  · rintro (hdigits | hsame)
    · exact escapeText_eq_self (isCopied_of_mem_escapeText hforced hdigits) (by simp)
    · rw [hsame, hsame]

/-- With `esc_Forced` the escapes are undone exactly if a `%` is escaped, or if the string holds
nothing to unescape. -/
theorem unescaped_escaped (hforced : has flags esc_Forced = true) (hundo : Undoes flags uflags) :
    unescaped uflags (escaped flags s) = s ↔
      has flags esc_OnlyNonASCII = false ∨ unescaped uflags s = s := by
  rw [escaped_eq, unescaped_eq, unescaped_eq]
  cases hascii : has flags esc_OnlyNonASCII with
  | false => simp [unescapeText_escapeText hforced hascii hundo]
  | true => simp [unescapeText_escapeText_ascii hforced hascii hundo]

/-- `NS_UnescapeURL` undoes `NS_EscapeURL` with `esc_Forced`, but not where graphic characters are
left alone and the string holds an escape. Without `esc_Forced` escaping twice is escaping once for
the masks that name a component or leave graphic characters alone. -/
theorem NS_EscapeURL_laws :
    (has flags esc_Forced = true → Undoes flags uflags →
      (unescaped uflags (escaped flags s) = s ↔
        has flags esc_OnlyNonASCII = false ∨ unescaped uflags s = s)) ∧
      (has flags esc_Forced = false →
        (escaped flags (escaped flags s) = escaped flags s ↔
          KeepsDigits flags ∨ escaped flags s = s)) :=
  ⟨unescaped_escaped flags uflags s, escaped_escaped flags s⟩

/-- A string with all kinds of characters, longer than the buffer. -/
theorem NS_EscapeURL_laws_long :
    unescaped 0 (escaped (esc_Forced + 4) (ascii "%41 %" ++ List.replicate 100 0)) =
        ascii "%41 %" ++ List.replicate 100 0 ∧
      escaped 4 (escaped 4 (ascii "a b|%20")) = escaped 4 (ascii "a b|%20") :=
  ⟨((NS_EscapeURL_laws (esc_Forced + 4) 0 _).1 (by decide)
      ⟨by decide, by decide, by decide⟩).mpr (.inl (by decide)),
    ((NS_EscapeURL_laws 4 0 _).2 (by decide)).mpr (.inl (.inl (by decide)))⟩

/-- With `esc_OnlyNonASCII` the escape in `%41` is not escaped, and without a component the digits
of an escape are escaped again. -/
theorem NS_EscapeURL_leaves_escape :
    unescaped 0 (escaped (esc_Forced + esc_OnlyNonASCII) (ascii "%41")) ≠ ascii "%41" ∧
      escaped 0 (escaped 0 (ascii " ")) ≠ escaped 0 (ascii " ") := by
  decide

end Kompozer.Net.EscapeFlags

import Kompozer.Publish.FtpDirParser

/-! Directory indexes as they are written, and which of them the parser reads: those without
comments, where every column of a format has a name and the last field of an entry ends before its
line does. -/

namespace Kompozer.Publish

open Entry

/-! ### Indexes -/

def NoEol (s : JSString) : Prop := ∀ c ∈ s, isEol c = false

/-- What ends a line. -/
def IsEnd (eol : JSString) : Prop := eol ≠ [] ∧ ∀ c ∈ eol, isEol c = true

/-- A field of an entry. -/
inductive Field
  | quoted (text : JSString)
  | bare (text : JSString)

def Field.value : Field → JSString
  | quoted text => text
  | bare text => text

def Field.text : Field → JSString
  | quoted text => '"' :: text ++ ['"']
  | bare text => text

/-- What stands between quotes has none, and what does not has no spaces. -/
def Field.Valid : Field → Prop
  | quoted text => NoEol text ∧ '"' ∉ text
  | bare text => NoEol text ∧ text ≠ [] ∧ ' ' ∉ text ∧ text.head? ≠ some '"'

def Field.Quoted : Field → Prop
  | quoted _ => True
  | bare _ => False

/-- A space, or nothing. -/
def space (there : Bool) : JSString := if there then [' '] else []

@[simp] theorem space_false : space false = [] := rfl

@[simp] theorem space_true : space true = [' '] := rfl

/-- Words with single spaces between them, and maybe one before and one behind. -/
def spaced (lead trail : Bool) : List JSString → JSString
  | [] => space lead ++ space trail
  | word :: words => space lead ++ word ++ words.flatMap (' ' :: ·) ++ space trail

inductive Line
  | info (code text : JSString)
  | comment (code text : JSString)
  | format (lead trail : Bool) (names : List JSString)
  | entry (lead trail : Bool) (fields : List Field)

def Line.text : Line → JSString
  | info code text => code ++ ':' :: text
  | comment code text => code ++ ':' :: text
  | format lead trail names => ['2', '0', '0'] ++ ':' :: spaced lead trail names
  | entry lead trail fields => ['2', '0', '1'] ++ ':' :: spaced lead trail (fields.map Field.text)

/-- A line with its end. -/
structure EndedLine where
  line : Line
  eol : JSString

def indexText (lines : List EndedLine) : JSString := lines.flatMap fun l => l.line.text ++ l.eol

/-- The name of a column. -/
def IsName (name : JSString) : Prop := name ≠ [] ∧ ∀ c ∈ name, isName c = true

/-- The lines of an index behind a format with some names. An entry has a field for each of them. -/
def Index : Option (List JSString) → List EndedLine → Prop
  | _, [] => True
  | known, l :: lines => IsEnd l.eol ∧
    match l.line with
    | .info code text => code ∈ [['1', '0', '0'], ['3', '0', '0']] ∧ NoEol text ∧
        Index known lines
    | .comment code text => code ∈ [['1', '0', '1'], ['1', '0', '2']] ∧ NoEol text ∧
        Index known lines
    | .format _ _ names => (∀ name ∈ names, IsName name) ∧ Index (some names) lines
    | .entry _ _ fields => (∃ names, known = some names ∧ names.length = fields.length) ∧
        (∀ field ∈ fields, field.Valid) ∧ Index known lines

/-- The fields of every entry in the columns of the last format before it. -/
def indexFields : Option (List JSString) → List EndedLine → List (List (Entry × JSString))
  | _, [] => []
  | known, l :: lines =>
    match l.line with
    | .info _ _ => indexFields known lines
    | .comment _ _ => indexFields known lines
    | .format _ _ names => indexFields (some names) lines
    | .entry _ _ fields =>
      ((known.getD []).map columnEntry).zip (fields.map Field.value) :: indexFields known lines

/-- There are no comments; no entry stands behind a format that ends in a space; and the last field
of an entry is quoted or followed by a space. -/
def Readable : Bool → List EndedLine → Prop
  | _, [] => True
  | clean, l :: lines =>
    match l.line with
    | .info _ _ => Readable clean lines
    | .comment _ _ => False
    | .format lead trail names => Readable (!(trail || lead && names.isEmpty)) lines
    | .entry _ trail fields => clean = true ∧
        (trail = true ∨ ∀ field ∈ fields.getLast?, field.Quoted) ∧ Readable clean lines

/-! ### Ends of lines -/

theorem dropWhile_head {P : Char → Bool} {s : JSString} (h : ∀ c ∈ s.head?, P c = false) :
    s.dropWhile P = s := by
  cases s with
  | nil => rfl
  | cons c s => exact List.dropWhile_cons_of_neg (by simp [h c rfl])

theorem skipEndOfLine_text {text eol tail : JSString} (htext : NoEol text) (heol : IsEnd eol)
    (htail : ∀ c ∈ tail.head?, isEol c = false) :
    skipEndOfLine (text ++ eol ++ tail) = tail := by
  obtain ⟨hne, hall⟩ := heol
  have hstop : (eol ++ tail).dropWhile (!isEol ·) = eol ++ tail := by
    refine dropWhile_head fun c hc => ?_
    rw [List.head?_append_of_ne_nil _ hne] at hc
    simp [hall c (List.mem_of_mem_head? hc)]
  rw [skipEndOfLine, List.append_assoc,
    List.dropWhile_append_of_pos (fun c hc => by simp [htext c hc]), hstop,
    List.dropWhile_append_of_pos hall, dropWhile_head htail]

/-- A line begins with a digit. -/
theorem indexText_head {known : Option (List JSString)} {lines : List EndedLine}
    (h : Index known lines) : ∀ c ∈ (indexText lines).head?, isEol c = false := by
  cases lines with
  | nil => simp [indexText]
  | cons l lines =>
    have hdigit : ∃ c s, l.line.text = c :: s ∧ isEol c = false := by
      obtain ⟨line, eol⟩ := l
      obtain ⟨-, hline⟩ := h
      cases line with
      | info code text =>
        obtain ⟨hcode, -⟩ := hline
        rcases List.mem_pair.mp hcode with rfl | rfl
        · exact ⟨'1', _, rfl, by decide⟩
        · exact ⟨'3', _, rfl, by decide⟩
      | comment code text =>
        obtain ⟨hcode, -⟩ := hline
        rcases List.mem_pair.mp hcode with rfl | rfl
        · exact ⟨'1', _, rfl, by decide⟩
        · exact ⟨'1', _, rfl, by decide⟩
      | format lead trail names => exact ⟨'2', _, rfl, by decide⟩
      | entry lead trail fields => exact ⟨'2', _, rfl, by decide⟩
    obtain ⟨c, s, hc, hnot⟩ := hdigit
    intro d hd
    rw [indexText, List.flatMap_cons, hc] at hd
    cases hd
    exact hnot

theorem getHeaderToken_code {code : JSString} {token : ℕ} (hlength : code.length = 3)
    (h : headerCodes.lookup code = some token) (r : JSString) :
    getHeaderToken (code ++ ':' :: r) = (token, r) := by
  have hcolon : (code ++ ':' :: r)[3]? = some ':' := by
    rw [List.getElem?_append_right hlength.le, hlength]
    rfl
  have hdrop : (code ++ ':' :: r).drop 4 = r := by
    rw [List.drop_append, hlength, List.drop_eq_nil_of_le (by omega)]
    rfl
  rw [getHeaderToken, if_pos ⟨by simp [hlength], hcolon⟩, List.take_left' hlength, h, hdrop]

/-! ### Words of a format -/

theorem isName_iff {c : Char} : isName c = true ↔ c ≠ ' ' ∧ isEol c = false := by
  simp [isName]

/-- The next character is a space or the end of a line. -/
def Stops (r : JSString) : Prop := ∃ c s, r = c :: s ∧ isName c = false

theorem stops_end {eol : JSString} (h : IsEnd eol) (tail : JSString) : Stops (eol ++ tail) := by
  obtain ⟨hne, hall⟩ := h
  cases eol with
  | nil => exact absurd rfl hne
  | cons c eol => exact ⟨c, eol ++ tail, rfl, by simp [isName, hall c (by simp)]⟩

theorem stops_words {eol : JSString} (h : IsEnd eol) (words : List JSString) (trail : Bool)
    (tail : JSString) :
    Stops (words.flatMap (' ' :: ·) ++ space trail ++ (eol ++ tail)) := by
  cases words with
  | nil =>
    cases trail with
    | false => exact stops_end h tail
    | true => exact ⟨' ', _, rfl, by decide⟩
  | cons word words => exact ⟨' ', _, rfl, by decide⟩

theorem skipWS_space (there : Bool) {r : JSString} (h : ∀ c ∈ r.head?, c ≠ ' ') :
    skipWS (space there ++ r) = r := by
  have hr : r.dropWhile (· = ' ') = r := dropWhile_head fun c hc => by simp [h c hc]
  cases there with
  | false => exact hr
  | true =>
    rw [skipWS, space_true, List.singleton_append, List.dropWhile_cons_of_pos rfl, hr]

/-- One name is read, with the space in front of it. -/
theorem formatLoop_name {name r : JSString} (hname : IsName name) (hr : Stops r) (there : Bool)
    (fuel : ℕ) (entries : List Entry) :
    formatLoop (fuel + 1) (space there ++ name ++ r) entries =
      formatLoop fuel r (entries ++ [columnEntry name]) := by
  obtain ⟨hne, hall⟩ := hname
  obtain ⟨c, s, rfl, hc⟩ := hr
  have hfirst : ∀ d ∈ (name ++ c :: s).head?, isName d = true := by
    intro d hd
    rw [List.head?_append_of_ne_nil _ hne] at hd
    exact hall d (List.mem_of_mem_head? hd)
  have hskip : skipWS (space there ++ (name ++ c :: s)) = name ++ c :: s := by
    refine skipWS_space there fun d hd => ?_
    rintro rfl
    exact absurd (hfirst ' ' hd) (by decide)
  have hhead : (space there ++ (name ++ c :: s)).head?.any isEol = false := by
    cases there with
    | true => rfl
    | false =>
      rw [space, if_neg (by simp), List.nil_append]
      cases hd : (name ++ c :: s).head? with
      | none => rfl
      | some d =>
        exact (isName_iff.mp (hfirst d hd)).2
  rw [List.append_assoc, formatLoop_succ hhead, behindName, hskip]
  congr 2
  · rw [List.dropWhile_append_of_pos hall, List.dropWhile_cons_of_neg (by simp [hc])]
  · rw [List.takeWhile_append_of_pos hall, List.takeWhile_cons_of_neg (by simp [hc]),
      List.append_nil]

theorem formatLoop_stop {eol : JSString} (h : IsEnd eol) (tail : JSString) (fuel : ℕ)
    (entries : List Entry) :
    formatLoop (fuel + 1) (eol ++ tail) entries = some (eol ++ tail, entries) := by
  obtain ⟨hne, hall⟩ := h
  cases eol with
  | nil => exact absurd rfl hne
  | cons c eol => exact if_pos (hall c (by simp))

/-- Spaces before the end of a line are read as a column without a name. -/
theorem formatLoop_space {eol : JSString} (h : IsEnd eol) (lead trail : Bool) (tail : JSString)
    (fuel : ℕ) (entries : List Entry) :
    formatLoop (fuel + 2) (space lead ++ space trail ++ (eol ++ tail)) entries =
      some (eol ++ tail, entries ++ if trail || lead then [UNKNOWN_ENTRY] else []) := by
  have hstop : ∀ c ∈ (eol ++ tail).head?, isEol c = true := by
    intro c hc
    rw [List.head?_append_of_ne_nil _ h.1] at hc
    exact h.2 c (List.mem_of_mem_head? hc)
  have hspace : ∀ c ∈ (eol ++ tail).head?, c ≠ ' ' := by
    rintro c hc rfl
    exact absurd (hstop ' ' hc) (by decide)
  have hname : (eol ++ tail).takeWhile isName = [] ∧
      (eol ++ tail).dropWhile isName = eol ++ tail := by
    obtain ⟨c, s, hcs, hc⟩ := stops_end h tail
    rw [hcs, List.takeWhile_cons_of_neg (by simp [hc]), List.dropWhile_cons_of_neg (by simp [hc])]
    exact ⟨rfl, rfl⟩
  have hskip : skipWS (space lead ++ space trail ++ (eol ++ tail)) = eol ++ tail := by
    rw [List.append_assoc]
    cases lead with
    | false => exact skipWS_space trail hspace
    | true =>
      exact (List.dropWhile_cons_of_pos rfl).trans (skipWS_space trail hspace)
  by_cases hnone : trail || lead
  · have hhead : (space lead ++ space trail ++ (eol ++ tail)).head?.any isEol = false := by
      cases lead with
      | true => rfl
      | false =>
        cases trail with
        | true => rfl
        | false => cases hnone
    rw [formatLoop_succ hhead, behindName, hskip, hname.1, hname.2, formatLoop_stop h,
      if_pos hnone]
    rfl
  · obtain ⟨rfl, rfl⟩ : trail = false ∧ lead = false := by simpa using hnone
    rw [if_neg hnone, List.append_nil]
    exact formatLoop_stop h tail (fuel + 1) entries

theorem formatLoop_words {eol : JSString} (h : IsEnd eol) (trail : Bool) (tail : JSString)
    {names : List JSString} (hnames : ∀ name ∈ names, IsName name) (entries : List Entry) :
    ∃ fuel, formatLoop fuel (names.flatMap (' ' :: ·) ++ space trail ++ (eol ++ tail)) entries =
      some (eol ++ tail,
        entries ++ names.map columnEntry ++ if trail then [UNKNOWN_ENTRY] else []) := by
  induction names generalizing entries with
  | nil =>
    refine ⟨2, ?_⟩
    simpa using formatLoop_space h false trail tail 0 entries
  | cons name names ih =>
    obtain ⟨hname, hnames⟩ := List.forall_mem_cons.mp hnames
    obtain ⟨fuel, hfuel⟩ := ih hnames (entries ++ [columnEntry name])
    refine ⟨fuel + 1, ?_⟩
    have hread := formatLoop_name hname (stops_words h names trail tail) true fuel entries
    rw [hfuel] at hread
    simpa [space] using hread

/-- What is read of a format. -/
theorem formatLoop_spaced {eol : JSString} (h : IsEnd eol) (lead trail : Bool) (tail : JSString)
    {names : List JSString} (hnames : ∀ name ∈ names, IsName name) :
    ∃ fuel, formatLoop fuel (spaced lead trail names ++ (eol ++ tail)) [] =
      some (eol ++ tail, names.map columnEntry ++
        if trail || lead && names.isEmpty then [UNKNOWN_ENTRY] else []) := by
  cases names with
  | nil => exact ⟨2, by simpa [spaced] using formatLoop_space h lead trail tail 0 []⟩
  | cons name names =>
    obtain ⟨hname, hnames⟩ := List.forall_mem_cons.mp hnames
    obtain ⟨fuel, hfuel⟩ := formatLoop_words h trail tail hnames [columnEntry name]
    have hread := formatLoop_name hname (stops_words h names trail tail) lead fuel []
    rw [List.nil_append, hfuel] at hread
    exact ⟨fuel + 1, by simpa [spaced] using hread⟩

/-! ### Fields of an entry -/

theorem Field.Valid.noEol {field : Field} (h : field.Valid) : NoEol field.value := by
  cases field with
  | quoted text => exact h.1
  | bare text => exact h.1

theorem readField_quoted {text : JSString} (hquote : '"' ∉ text) (there : Bool) (r : JSString) :
    readField (space there ++ ('"' :: text ++ ['"']) ++ r) = (text, r) := by
  have hskip : skipWS (space there ++ ('"' :: (text ++ '"' :: r))) = '"' :: (text ++ '"' :: r) := by
    refine skipWS_space there fun c hc => ?_
    rw [← Option.some.inj hc]
    decide
  have hall : ∀ c ∈ text, (decide (c ≠ '"')) = true := by
    intro c hc
    rw [decide_eq_true_iff]
    rintro rfl
    exact hquote hc
  have htext : space there ++ ('"' :: text ++ ['"']) ++ r =
      space there ++ ('"' :: (text ++ '"' :: r)) := by simp
  rw [htext, readField, hskip, if_pos (List.head?_cons ..), List.drop_one, List.tail_cons,
    List.takeWhile_append_of_pos hall, List.dropWhile_append_of_pos hall,
    List.takeWhile_cons_of_neg (by simp), List.dropWhile_cons_of_neg (by simp)]
  simp

theorem readField_bare {text : JSString} (hne : text ≠ []) (hspace : ' ' ∉ text)
    (hquote : text.head? ≠ some '"') (there : Bool) (r : JSString) :
    readField (space there ++ text ++ r) =
      (text ++ r.takeWhile (· ≠ ' '), r.dropWhile (· ≠ ' ')) := by
  have hhead : (text ++ r).head? = text.head? := List.head?_append_of_ne_nil _ hne
  have hskip : skipWS (space there ++ (text ++ r)) = text ++ r := by
    refine skipWS_space there fun c hc => ?_
    rintro rfl
    rw [hhead] at hc
    exact hspace (List.mem_of_mem_head? hc)
  have hall : ∀ c ∈ text, (decide (c ≠ ' ')) = true := by
    intro c hc
    rw [decide_eq_true_iff]
    rintro rfl
    exact hspace hc
  rw [List.append_assoc, readField, hskip, if_neg (by rwa [hhead]),
    List.takeWhile_append_of_pos hall, List.dropWhile_append_of_pos hall]

/-- A field is read up to a space, or up to its quote. -/
theorem readField_text {field : Field} (h : field.Valid) (there : Bool) {r : JSString}
    (hr : field.Quoted ∨ ∃ s, r = ' ' :: s) :
    readField (space there ++ field.text ++ r) = (field.value, r) := by
  cases field with
  | quoted text => exact readField_quoted h.2 there r
  | bare text =>
    obtain ⟨-, hne, hspace, hquote⟩ := h
    obtain ⟨s, rfl⟩ := hr.resolve_left id
    have hread := readField_bare hne hspace hquote there (' ' :: s)
    rw [List.takeWhile_cons_of_neg (by simp), List.dropWhile_cons_of_neg (by simp),
      List.append_nil] at hread
    exact hread

/-- A field that is not quoted goes on behind the end of its line. -/
theorem readField_end {field : Field} (h : field.Valid) (hbare : ¬ field.Quoted) (there : Bool)
    {eol : JSString} (heol : IsEnd eol) (tail : JSString) :
    ∃ c ∈ (readField (space there ++ field.text ++ (eol ++ tail))).1, isEol c = true := by
  cases field with
  | quoted text => exact absurd trivial hbare
  | bare text =>
    obtain ⟨-, hne, hspace, hquote⟩ := h
    obtain ⟨hend, hends⟩ := heol
    have hread := readField_bare hne hspace hquote there (eol ++ tail)
    cases eol with
    | nil => exact absurd rfl hend
    | cons c eol =>
      have hc := hends c (by simp)
      have hcspace : c ≠ ' ' := by
        rintro rfl
        cases hc
      rw [List.cons_append, List.takeWhile_cons_of_pos (by simpa using hcspace)] at hread
      refine ⟨c, ?_, hc⟩
      dsimp only [Field.text]
      rw [List.cons_append, hread]
      simp

/-- The words behind the first one. -/
theorem spaced_cons (lead trail : Bool) (word : JSString) (words : List JSString) :
    spaced lead trail (word :: words) =
      space lead ++ word ++ spaced (!words.isEmpty) trail words := by
  cases words with
  | nil => simp [spaced]
  | cons next words => simp [spaced]

theorem noEol_space (there : Bool) : NoEol (space there) := by
  cases there with
  | false => exact fun c hc => by cases hc
  | true =>
    intro c hc
    rw [List.mem_singleton.mp hc]
    decide

/-- Where the last field ends, all are read. -/
theorem readFields_spaced {fields : List Field} (h : ∀ field ∈ fields, field.Valid)
    {entries : List Entry} (hlength : entries.length = fields.length) (lead : Bool) {trail : Bool}
    (hlast : trail = true ∨ ∀ field ∈ fields.getLast?, field.Quoted) (r : JSString) :
    ∃ s, NoEol s ∧ readFields entries (spaced lead trail (fields.map Field.text) ++ r) =
      (entries.zip (fields.map Field.value), s ++ r) := by
  induction fields generalizing entries lead with
  | nil =>
    obtain rfl := List.length_eq_zero_iff.mp hlength
    refine ⟨space lead ++ space trail, fun c hc => ?_, rfl⟩
    exact (List.mem_append.mp hc).elim (noEol_space lead c) (noEol_space trail c)
  | cons field fields ih =>
    obtain ⟨hfield, hfields⟩ := List.forall_mem_cons.mp h
    cases entries with
    | nil => cases hlength
    | cons entry entries =>
      have hlast' : trail = true ∨ ∀ field ∈ fields.getLast?, field.Quoted := by
        refine hlast.imp id fun hquoted => ?_
        cases fields with
        | nil => simp
        | cons next fields => simpa using hquoted
      have hstop : field.Quoted ∨
          ∃ s, spaced (!(fields.map Field.text).isEmpty) trail (fields.map Field.text) ++ r =
            ' ' :: s := by
        cases fields with
        | nil =>
          refine hlast.symm.imp (fun hquoted => hquoted field rfl) fun htrail => ⟨r, ?_⟩
          rw [htrail]
          rfl
        | cons next fields => exact .inr ⟨_, rfl⟩
      obtain ⟨s, hs, hread⟩ := ih hfields (Nat.succ.inj hlength)
        (!(fields.map Field.text).isEmpty) hlast'
      refine ⟨s, hs, ?_⟩
      rw [List.map_cons, spaced_cons, List.append_assoc, readFields,
        readField_text hfield lead hstop]
      dsimp only
      rw [hread]
      rfl

/-- Where the last field does not end, it goes on behind the line. -/
theorem readFields_end {fields : List Field} (h : ∀ field ∈ fields, field.Valid)
    {entries : List Entry} (hlength : entries.length = fields.length) (lead : Bool)
    (hlast : ∃ field ∈ fields.getLast?, ¬ field.Quoted) {eol : JSString} (heol : IsEnd eol)
    (tail : JSString) :
    ∃ x ∈ (readFields entries (spaced lead false (fields.map Field.text) ++ (eol ++ tail))).1,
      ∃ c ∈ x.2, isEol c = true := by
  induction fields generalizing entries lead with
  | nil =>
    obtain ⟨field, hfield, -⟩ := hlast
    cases hfield
  | cons field fields ih =>
    obtain ⟨hfield, hfields⟩ := List.forall_mem_cons.mp h
    cases entries with
    | nil => cases hlength
    | cons entry entries =>
      rw [List.map_cons, spaced_cons, List.append_assoc, readFields]
      cases fields with
      | nil =>
        obtain ⟨last, hmem, hbare⟩ := hlast
        obtain rfl := Option.some.inj hmem
        obtain ⟨c, hc, heolc⟩ := readField_end hfield hbare lead heol tail
        exact ⟨_, List.mem_cons_self, c, hc, heolc⟩
      | cons next fields =>
        have hstop : field.Quoted ∨ ∃ s, spaced (!((next :: fields).map Field.text).isEmpty) false
            ((next :: fields).map Field.text) ++ (eol ++ tail) = ' ' :: s := .inr ⟨_, rfl⟩
        rw [readField_text hfield lead hstop]
        obtain ⟨x, hx, c, hc, heolc⟩ := ih hfields (Nat.succ.inj hlength)
          (!((next :: fields).map Field.text).isEmpty) (by simpa using hlast)
        exact ⟨x, List.mem_cons_of_mem _ hx, c, hc, heolc⟩

theorem readFields_fst (entries : List Entry) (rest : JSString) :
    (readFields entries rest).1.map Prod.fst = entries := by
  induction entries generalizing rest with
  | nil => rfl
  | cons entry entries ih =>
    rw [readFields]
    exact congrArg (entry :: ·) (ih _)

/-! ### Lines -/

variable {Number : JSString → ℤ}

namespace Parser

theorem Turn.returns {p next q : Parser} (h : Turn Number p next) :
    Returns Number p q ↔ Returns Number next q := by
  rw [returns_iff h.1]
  constructor
  · rintro ⟨next', hnext, hreturns⟩
    rwa [h.unique hnext]
  · exact fun hreturns => ⟨next, h, hreturns⟩

/-- Calls that were made stay. -/
theorem Turn.calls {p q : Parser} (h : Turn Number p q) : p.calls <+: q.calls := by
  obtain ⟨-, fuel, h⟩ := h
  simp only [turn] at h
  split_ifs at h
  · cases h
    exact List.prefix_refl _
  · cases h
  · obtain ⟨r, hr, hq⟩ := Option.map_eq_some_iff.mp h
    cases hq
    obtain ⟨loop, -, rfl⟩ := Option.map_eq_some_iff.mp hr
    exact List.prefix_refl _
  · cases hentries : p.entries with
    | none =>
      rw [hentries] at h
      cases h
    | some entries =>
      rw [hentries] at h
      cases h
      exact List.prefix_append _ _
  · cases h
    exact List.prefix_refl _

theorem Returns.calls {p q : Parser} (h : Returns Number p q) : p.calls <+: q.calls := by
  obtain ⟨fuel, h⟩ := h
  induction fuel generalizing p with
  | zero => cases h
  | succ fuel ih =>
    by_cases hne : p.rest = []
    · rw [(returns_nil hne).mp ⟨_, h⟩]
    · rw [parseLoop, if_neg hne] at h
      cases hturn : p.turn Number fuel with
      | none =>
        rw [hturn] at h
        cases h
      | some result =>
        rw [hturn] at h
        cases result with
        | error e => cases h
        | ok next => exact (Turn.calls ⟨hne, fuel, hturn⟩).trans (ih h)

variable {p : Parser} {code r : JSString}

theorem turn_info (h : p.rest = code ++ ':' :: r)
    (hcode : code ∈ [['1', '0', '0'], ['3', '0', '0']]) :
    Turn Number p { p with rest := skipEndOfLine r } := by
  have hne : p.rest ≠ [] := by simp [h]
  refine ⟨hne, 0, ?_⟩
  rcases List.mem_pair.mp hcode with rfl | rfl
  · rw [turn, h, @getHeaderToken_code _ 100 rfl rfl]
    rfl
  · rw [turn, h, @getHeaderToken_code _ 300 rfl rfl]
    rfl

theorem turn_comment (h : p.rest = code ++ ':' :: r)
    (hcode : code ∈ [['1', '0', '1'], ['1', '0', '2']]) (q : Parser) : ¬ Turn Number p q := by
  rintro ⟨-, fuel, hq⟩
  rcases List.mem_pair.mp hcode with rfl | rfl
  · rw [turn, h, @getHeaderToken_code _ 101 rfl rfl] at hq
    cases hq
  · rw [turn, h, @getHeaderToken_code _ 102 rfl rfl] at hq
    cases hq

theorem turn_format (h : p.rest = ['2', '0', '0'] ++ ':' :: r) {fuel : ℕ}
    {loop : JSString × List Entry} (hloop : formatLoop fuel r [] = some loop) :
    Turn Number p { p with rest := skipEndOfLine loop.1, entries := some loop.2 } := by
  have hne : p.rest ≠ [] := by simp [h]
  refine ⟨hne, fuel, ?_⟩
  rw [turn, h, @getHeaderToken_code _ 200 rfl rfl]
  dsimp only
  rw [if_neg (by decide), if_neg (by decide), if_pos rfl, getFormat, hloop]
  rfl

theorem turn_entry (h : p.rest = ['2', '0', '1'] ++ ':' :: r) {entries : List Entry}
    (hentries : p.entries = some entries) :
    Turn Number p { p with
      rest := skipEndOfLine (readFields entries r).2
      calls := p.calls ++ [callOf Number (readFields entries r).1] } := by
  have hne : p.rest ≠ [] := by simp [h]
  refine ⟨hne, 0, ?_⟩
  rw [turn, h, @getHeaderToken_code _ 201 rfl rfl]
  dsimp only
  rw [if_neg (by decide), if_neg (by decide), if_neg (by decide), if_pos rfl, hentries]
  rfl

end Parser

/-! ### Runs -/

open Kompozer.Publish.Parser (Returns Turn)

/-- A call with wrong fields is never made good. -/
theorem not_reads {p next : Parser} (hturn : Turn Number p next)
    {fields good : List (Entry × JSString)}
    (hcalls : next.calls = p.calls ++ [callOf Number fields]) (hbad : fields ≠ good)
    (more : List (List (Entry × JSString))) :
    ¬ ∃ q, Returns Number p q ∧ q.calls = p.calls ++ (good :: more).map (callOf Number) := by
  rintro ⟨q, hreturns, hq⟩
  have hstay := (hturn.returns.mp hreturns).calls
  rw [hcalls, hq, List.prefix_append_right_inj, List.map_cons] at hstay
  have hsame := (List.cons_prefix_cons.mp hstay).1
  exact hbad (congrArg Call.fields hsame)

/-- The parser's columns behind a format with some names, and with a nameless one unless the format
was clean. -/
def columns (clean : Bool) (names : List JSString) : List Entry :=
  names.map columnEntry ++ if clean then [] else [UNKNOWN_ENTRY]

/-- One call is made for every entry, with its fields in their columns, exactly if the lines are
readable. -/
theorem reads_index {lines : List EndedLine} {known : Option (List JSString)} {clean : Bool}
    {p : Parser} (h : Index known lines) (hrest : p.rest = indexText lines)
    (hentries : ∀ names ∈ known, p.entries = some (columns clean names)) :
    (∃ q, Returns Number p q ∧ q.calls = p.calls ++ (indexFields known lines).map (callOf Number)) ↔
      Readable clean lines := by
  induction lines generalizing known clean p with
  | nil =>
    refine iff_of_true ⟨p, (Parser.returns_nil hrest).mpr rfl, ?_⟩ trivial
    rw [indexFields, List.map_nil, List.append_nil]
  | cons l lines ih =>
    obtain ⟨line, eol⟩ := l
    obtain ⟨heol, hline⟩ := h
    rw [indexText, List.flatMap_cons] at hrest
    change p.rest = line.text ++ eol ++ indexText lines at hrest
    cases line with
    | info code text =>
      obtain ⟨hcode, htext, hindex⟩ := hline
      have hturn : Turn Number p _ := Parser.turn_info
        (r := text ++ eol ++ indexText lines) (by rw [hrest]; simp [Line.text]) hcode
      rw [skipEndOfLine_text htext heol (indexText_head hindex)] at hturn
      simp only [hturn.returns]
      exact ih hindex rfl hentries
    | comment code text =>
      obtain ⟨hcode, -, -⟩ := hline
      have hnot (q : Parser) : ¬ Turn Number p q := Parser.turn_comment
        (r := text ++ eol ++ indexText lines) (by rw [hrest]; simp [Line.text]) hcode q
      refine iff_of_false ?_ id
      rintro ⟨q, hreturns, -⟩
      have hne : p.rest ≠ [] := by simp [hrest, Line.text]
      obtain ⟨next, hnext, -⟩ := (Parser.returns_iff hne).mp hreturns
      exact hnot next hnext
    | format lead trail names =>
      obtain ⟨hnames, hindex⟩ := hline
      obtain ⟨fuel, hloop⟩ := formatLoop_spaced heol lead trail (indexText lines) hnames
      have hturn : Turn Number p _ := Parser.turn_format
        (r := spaced lead trail names ++ (eol ++ indexText lines)) (by rw [hrest]; simp [Line.text])
        hloop
      have hskip := skipEndOfLine_text (noEol_space false) heol (indexText_head hindex)
      rw [space_false, List.nil_append] at hskip
      rw [hskip] at hturn
      simp only [hturn.returns]
      refine ih hindex rfl fun names' hnames' => ?_
      cases hnames'
      rw [columns]
      cases trail || lead && names.isEmpty <;> rfl
    | entry lead trail fields =>
      obtain ⟨⟨names, rfl, hlength⟩, hfields, hindex⟩ := hline
      have hknown := hentries names rfl
      have hturn : Turn Number p _ := Parser.turn_entry
        (r := spaced lead trail (fields.map Field.text) ++ (eol ++ indexText lines))
        (by rw [hrest]; simp [Line.text]) hknown
      rw [indexFields, Readable, Option.getD_some]
      dsimp only
      cases clean with
      | false =>
        refine iff_of_false (not_reads hturn rfl (fun hsame => ?_) _) fun hread => ?_
        · have hcount := congrArg (fun fields => (fields.map Prod.fst).length) hsame
          simp [readFields_fst, columns, hlength] at hcount
        · cases hread.1
      | true =>
        have hcolumns : columns true names = names.map columnEntry := List.append_nil _
        have hcount : (names.map columnEntry).length = fields.length := by
          rw [List.length_map, hlength]
        rw [hcolumns] at hturn
        by_cases hlast : trail = true ∨ ∀ field ∈ fields.getLast?, field.Quoted
        · obtain ⟨s, hs, hread⟩ :=
            readFields_spaced hfields hcount lead hlast (eol ++ indexText lines)
          rw [hread, ← List.append_assoc,
            skipEndOfLine_text hs heol (indexText_head hindex)] at hturn
          simp only [hturn.returns]
          have hrun := ih hindex
            (p := { p with
              rest := indexText lines
              calls := p.calls ++
                [callOf Number ((names.map columnEntry).zip (fields.map Field.value))] })
            rfl hentries
          simp only [List.append_assoc, List.singleton_append] at hrun
          exact hrun.trans ⟨fun h => ⟨trivial, hlast, h⟩, fun h => h.2.2⟩
        · refine iff_of_false (not_reads hturn rfl (fun hsame => ?_) _) fun hread => ?_
          · simp only [not_or, Bool.not_eq_true, not_forall, exists_prop] at hlast
            obtain ⟨rfl, hbare⟩ := hlast
            obtain ⟨x, hx, c, hc, heolc⟩ :=
              readFields_end hfields hcount lead hbare heol (indexText lines)
            rw [hsame] at hx
            obtain ⟨field, hfield, hvalue⟩ := List.mem_map.mp (List.of_mem_zip hx).2
            rw [← hvalue] at hc
            rw [(hfields field hfield).noEol c hc] at heolc
            cases heolc
          · exact hlast hread.2.1

/-- The parser ends and does not throw exactly if nothing goes wrong in any turn; and it reads an
index, with one call for every entry, exactly if the index is readable. -/
theorem parseData_exact (Number : JSString → ℤ) :
    (∀ data, (∃ fuel q, parseData Number fuel data = some (.ok q)) ↔
      ∀ q, Relation.ReflTransGen (Turn Number) { rest := data } q → q.rest ≠ [] → q.Safe) ∧
    ∀ lines, Index none lines →
      ((∃ fuel q, parseData Number fuel (indexText lines) = some (.ok q) ∧
          q.calls = (indexFields none lines).map (callOf Number)) ↔
        Readable true lines) := by
  constructor
  · intro data
    rw [← Parser.exists_returns_iff]
    exact exists_comm
  · intro lines h
    rw [← @reads_index Number lines none true { rest := indexText lines } h rfl (by simp)]
    simp only [List.nil_append, Returns, ← exists_and_right]
    exact exists_comm

/-- A format and an entry. -/
def fileIndex : List EndedLine :=
  [⟨.format true false [js "filename", js "file-type"], ['\n']⟩,
    ⟨.entry true true [.quoted (js "a b"), .bare (js "FILE")], ['\n']⟩]

theorem parseData_exact_file :
    indexText fileIndex = js "200: filename file-type\n201: \"a b\" FILE \n" ∧
      ∃ fuel q, parseData (fun _ => 0) fuel (indexText fileIndex) = some (.ok q) ∧
        q.calls = [callOf (fun _ => 0)
          [(FILENAME_ENTRY, js "a b"), (FILE_TYPE_ENTRY, js "FILE")]] := by
  refine ⟨by decide +kernel, ?_⟩
  have hend : IsEnd ['\n'] := ⟨by simp, by simp [isEol]⟩
  have hindex : Index none fileIndex := by
    refine ⟨hend, fun name hname => ?_, hend, ⟨_, rfl, rfl⟩, fun field hfield => ?_, trivial⟩
    · rcases List.mem_pair.mp hname with rfl | rfl
      · exact ⟨by decide +kernel, List.all_eq_true.mp (by decide +kernel)⟩
      · exact ⟨by decide +kernel, List.all_eq_true.mp (by decide +kernel)⟩
    · rcases List.mem_pair.mp hfield with rfl | rfl
      · refine ⟨fun c hc => ?_, by decide +kernel⟩
        have hall : (js "a b").all (!isEol ·) = true := by decide +kernel
        simpa using List.all_eq_true.mp hall c hc
      · refine ⟨fun c hc => ?_, by decide +kernel, by decide +kernel, by decide +kernel⟩
        have hall : (js "FILE").all (!isEol ·) = true := by decide +kernel
        simpa using List.all_eq_true.mp hall c hc
  exact ((parseData_exact fun _ => 0).2 fileIndex hindex).mpr ⟨rfl, .inl rfl, trivial⟩

/-- A format without the end of its line is read for ever, a comment throws, and a last field
without a space behind it takes the next entry with it. -/
theorem parseData_fails :
    (∀ fuel, parseData (fun _ => 0) fuel (js "200:") = none) ∧
      parseData (fun _ => 0) 2 (js "101: x\n") = some (.error .ReferenceError) ∧
      parseData (fun _ => 0) 9 (js "200: file-type\n201: FILE\n201: FILE\n") = some (.ok
        { rest := []
          entries := some [FILE_TYPE_ENTRY]
          calls := [callOf (fun _ => 0) [(FILE_TYPE_ENTRY, js "FILE\n201:")]] }) := by
  refine ⟨fun fuel => ?_, by decide +kernel, by decide +kernel⟩
  cases fuel with
  | zero => rfl
  | succ fuel =>
    have hheader : getHeaderToken (js "200:") = (200, []) := by decide +kernel
    have hturn : Parser.turn (fun _ => 0) fuel { rest := js "200:" } = none := by
      rw [Parser.turn, hheader]
      dsimp only
      rw [if_neg (by decide), if_neg (by decide), if_pos rfl, Parser.getFormat,
        formatLoop_none (by simp)]
      rfl
    rw [parseData, Parser.parseLoop, if_neg (by decide +kernel), hturn]

end Kompozer.Publish

import Mathlib
import Kompozer.Publish.PublishPrefs

/-! The parser of directory indexes (`ftpDirParser.js`). Of the data the parser keeps what is still
to be read. A loop that does not end runs out of every amount of fuel. -/

namespace Kompozer.Publish

/-! ### Entries -/

/-- The kinds of columns. -/
inductive Entry
  | FILENAME_ENTRY | DESCRIPTION_ENTRY | CONTENT_LENGTH_ENTRY | LAST_MODIFIED_ENTRY
  | CONTENT_TYPE_ENTRY | FILE_TYPE_ENTRY | UNKNOWN_ENTRY
  deriving DecidableEq

open Entry

inductive FileType
  | TYPE_UNKNOWN | TYPE_DIRECTORY | TYPE_FILE | TYPE_SYMLINK
  deriving DecidableEq

/-- What is set of an `nsIDirIndex`. -/
structure DirIndex where
  location : Option JSString := none
  size : Option ℤ := none
  description : Option JSString := none
  contentType : Option JSString := none
  type : Option FileType := none
  deriving DecidableEq

/-- The digit of a hexadecimal number. -/
def hexValue (c : Char) : Option ℕ :=
  if '0' ≤ c ∧ c ≤ '9' then some (c.toNat - '0'.toNat)
  else if 'a' ≤ c ∧ c ≤ 'f' then some (c.toNat - 'a'.toNat + 10)
  else if 'A' ≤ c ∧ c ≤ 'F' then some (c.toNat - 'A'.toNat + 10)
  else none

/-- The character with the number `0x…`. What is no number gives the character zero. -/
def fromHex (s : JSString) : Char :=
  match (s.rdropWhile isSpace).mapM hexValue with
  | some (d :: ds) => Char.ofNat ((d :: ds).foldl (fun n d => 16 * n + d) 0)
  | _ => Char.ofNat 0

/-- The loop of `UnEscape`, with the characters that it steps over. -/
def unescapeFrom : ℕ → JSString → JSString
  | _, [] => []
  | skip + 1, _ :: s => unescapeFrom skip s
  | 0, c :: s =>
    if c = '%' then fromHex (s.take 2) :: unescapeFrom 2 s else c :: unescapeFrom 0 s

def UnEscape (s : JSString) : JSString := unescapeFrom 0 s

/-- What the name of a column says. -/
def columnEntry (token : JSString) : Entry :=
  let token := token.map Char.toLower
  if token = js "filename" then FILENAME_ENTRY
  else if token = js "description" then DESCRIPTION_ENTRY
  else if token = js "content-length" then CONTENT_LENGTH_ENTRY
  else if token = js "last-modified" then LAST_MODIFIED_ENTRY
  else if token = js "content-type" then CONTENT_TYPE_ENTRY
  else if token = js "file-type" then FILE_TYPE_ENTRY
  else UNKNOWN_ENTRY

def fileType (token : JSString) : FileType :=
  if token = js "FILE" then .TYPE_FILE
  else if token = js "DIRECTORY" then .TYPE_DIRECTORY
  else if token = js "SYMBOLIC-LINK" then .TYPE_SYMLINK
  else .TYPE_UNKNOWN

/-- A field is put where its column says. What `Number` gives is a parameter. -/
def DirIndex.assign (Number : JSString → ℤ) (dirIndex : DirIndex) (field : Entry × JSString) :
    DirIndex :=
  match field.1 with
  | FILENAME_ENTRY => { dirIndex with location := some (UnEscape field.2) }
  | DESCRIPTION_ENTRY => dirIndex
  | CONTENT_LENGTH_ENTRY => { dirIndex with size := some (Number field.2) }
  | LAST_MODIFIED_ENTRY => { dirIndex with description := some (UnEscape field.2) }
  | CONTENT_TYPE_ENTRY => { dirIndex with contentType := some (UnEscape field.2) }
  | FILE_TYPE_ENTRY => { dirIndex with type := some (fileType field.2) }
  | UNKNOWN_ENTRY => dirIndex

/-! ### The parser -/

/-- A call of the entry callback: the entry, and the fields it was made of. -/
structure Call where
  fields : List (Entry × JSString)
  dirIndex : DirIndex
  deriving DecidableEq

/-- What the parser has, and the calls it has made. -/
structure Parser where
  rest : JSString
  comment : JSString := []
  entries : Option (List Entry) := none
  calls : List Call := []
  deriving DecidableEq

inductive Exn
  | ReferenceError | TypeError
  deriving DecidableEq

def isEol (c : Char) : Bool := c = '\r' || c = '\n'

def skipWS (rest : JSString) : JSString := rest.dropWhile (· = ' ')

def skipEndOfLine (rest : JSString) : JSString := (rest.dropWhile (!isEol ·)).dropWhile isEol

/-- The codes of lines. -/
def headerCodes : List (JSString × ℕ) :=
  [(['1', '0', '0'], 100), (['1', '0', '1'], 101), (['1', '0', '2'], 102), (['2', '0', '0'], 200),
    (['2', '0', '1'], 201), (['3', '0', '0'], 300), (['3', '0', '1'], 301)]

/-- The code of a line, and what is behind it. Where there is none, one character is left out. -/
def getHeaderToken (rest : JSString) : ℕ × JSString :=
  if 3 < rest.length ∧ rest[3]? = some ':' then
    match headerCodes.lookup (rest.take 3) with
    | some token => (token, rest.drop 4)
    | none => (0, rest.drop 1)
  else (0, rest.drop 1)

def Parser.getCommentLine (p : Parser) : Parser :=
  let rest := skipWS p.rest
  { p with
    comment := p.comment ++ rest.takeWhile (!isEol ·)
    rest := skipEndOfLine (rest.dropWhile (!isEol ·)) }

/-- What belongs to the name of a column. -/
def isName (c : Char) : Bool := c ≠ ' ' && !isEol c

/-- The loop of `getFormat` up to the end of the line. Behind the data there is no end of a line. -/
def formatLoop : ℕ → JSString → List Entry → Option (JSString × List Entry)
  | 0, _, _ => none
  | fuel + 1, rest, entries =>
    if rest.head?.any isEol then some (rest, entries)
    else
      let rest := skipWS rest
      let token := rest.takeWhile isName
      formatLoop fuel (rest.dropWhile isName) (entries ++ [columnEntry token])

def Parser.getFormat (fuel : ℕ) (p : Parser) : Option Parser :=
  (formatLoop fuel p.rest []).map fun r =>
    { p with rest := skipEndOfLine r.1, entries := some r.2 }

/-- One field. A quoted one ends at a quote, another one at a space. -/
def readField (rest : JSString) : JSString × JSString :=
  let rest := skipWS rest
  if rest.head? = some '"' then
    ((rest.drop 1).takeWhile (· ≠ '"'), ((rest.drop 1).dropWhile (· ≠ '"')).drop 1)
  else (rest.takeWhile (· ≠ ' '), rest.dropWhile (· ≠ ' '))

def readFields : List Entry → JSString → List (Entry × JSString) × JSString
  | [], rest => ([], rest)
  | entry :: entries, rest =>
    let (token, rest) := readField rest
    let (fields, rest) := readFields entries rest
    ((entry, token) :: fields, rest)

variable (Number : JSString → ℤ)

/-- The entry that is made of fields. -/
def callOf (fields : List (Entry × JSString)) : Call :=
  ⟨fields, fields.foldl (DirIndex.assign Number) {}⟩

def Parser.getDataLine (p : Parser) (entries : List Entry) : Call × Parser :=
  let (fields, rest) := readFields entries p.rest
  (callOf Number fields, { p with rest := skipEndOfLine rest })

/-- One turn of the loop in `parseData`. The name `breal` is not defined. -/
def Parser.turn (fuel : ℕ) (p : Parser) : Option (Except Exn Parser) :=
  let (token, rest) := getHeaderToken p.rest
  let p := { p with rest := rest }
  if token = 100 ∨ token = 300 then some (.ok { p with rest := skipEndOfLine p.rest })
  else if token = 101 ∨ token = 102 then
    let _ := p.getCommentLine
    some (.error .ReferenceError)
  else if token = 200 then (p.getFormat fuel).map .ok
  else if token = 201 then
    match p.entries with
    | none => some (.error .TypeError)
    | some entries =>
      let (call, p) := p.getDataLine Number entries
      some (.ok { p with calls := p.calls ++ [call] })
  else some (.ok p)

def Parser.parseLoop : ℕ → Parser → Option (Except Exn Parser)
  | 0, _ => none
  | fuel + 1, p =>
    if p.rest = [] then some (.ok p)
    else match p.turn Number fuel with
      | none => none
      | some (.error e) => some (.error e)
      | some (.ok p) => p.parseLoop fuel

/-- The data are parsed by a new parser. -/
def parseData (fuel : ℕ) (data : JSString) : Option (Except Exn Parser) :=
  Parser.parseLoop Number fuel { rest := data }

example :
    parseData (fun s => s.length) 20 (js "200: filename size\n201: \"a b\" 12 \n") = some (.ok
      { rest := []
        entries := some [FILENAME_ENTRY, UNKNOWN_ENTRY]
        calls := [callOf (fun s => s.length)
          [(FILENAME_ENTRY, js "a b"), (UNKNOWN_ENTRY, js "12")]] }) := by
  decide +kernel

/-! ### What is left behind a step -/

variable {Number}

theorem skipEndOfLine_length (rest : JSString) : (skipEndOfLine rest).length ≤ rest.length :=
  ((List.dropWhile_sublist _).trans (List.dropWhile_sublist _)).length_le

theorem getHeaderToken_length {rest : JSString} (h : rest ≠ []) :
    (getHeaderToken rest).2.length < rest.length := by
  have hpos := List.length_pos_iff.mpr h
  rw [getHeaderToken]
  split_ifs with hlong
  · cases headerCodes.lookup (rest.take 3) with
    | none =>
      dsimp only
      rw [List.length_drop]
      omega
    | some token =>
      dsimp only
      rw [List.length_drop]
      omega
  · dsimp only
    rw [List.length_drop]
    omega

theorem readField_length (rest : JSString) : (readField rest).2.length ≤ rest.length := by
  have hskip : (skipWS rest).length ≤ rest.length := (List.dropWhile_sublist _).length_le
  rw [readField]
  split_ifs
  · have hdrop := (List.dropWhile_sublist (· ≠ '"')
      (l := (skipWS rest).drop 1)).length_le
    dsimp only
    rw [List.length_drop] at hdrop ⊢
    omega
  · exact (List.dropWhile_sublist _).length_le.trans hskip

theorem readFields_length (entries : List Entry) (rest : JSString) :
    (readFields entries rest).2.length ≤ rest.length := by
  induction entries generalizing rest with
  | nil => exact le_refl _
  | cons entry entries ih => exact (ih _).trans (readField_length rest)

/-! ### The format -/

/-- The rest behind one name. -/
def behindName (rest : JSString) : JSString := (skipWS rest).dropWhile isName

theorem formatLoop_succ {fuel : ℕ} {rest : JSString} (h : rest.head?.any isEol = false)
    (entries : List Entry) :
    formatLoop (fuel + 1) rest entries =
      formatLoop fuel (behindName rest)
        (entries ++ [columnEntry ((skipWS rest).takeWhile isName)]) := by
  rw [formatLoop, if_neg (by simp [h])]
  rfl

theorem behindName_suffix (rest : JSString) : behindName rest <:+ rest :=
  (List.dropWhile_suffix _).trans (List.dropWhile_suffix _)

/-- A loop that comes no more to the end of a line takes at least one character. -/
theorem behindName_length {rest : JSString} (hne : rest ≠ []) (h : rest.head?.any isEol = false) :
    (behindName rest).length < rest.length := by
  cases rest with
  | nil => exact absurd rfl hne
  | cons c s =>
    rw [behindName, skipWS, List.length_cons]
    by_cases hc : c = ' '
    · rw [List.dropWhile_cons_of_pos (by simp [hc])]
      exact Nat.lt_succ_of_le
        ((List.dropWhile_sublist _).trans (List.dropWhile_sublist _)).length_le
    · rw [List.dropWhile_cons_of_neg (by simp [hc]), List.dropWhile_cons_of_pos]
      · exact Nat.lt_succ_of_le (List.dropWhile_sublist _).length_le
      · have heol : isEol c = false := h
        simp [isName, hc, heol]

theorem mem_behindName {rest : JSString} {c : Char} (hc : isEol c = true) (h : c ∈ rest) :
    c ∈ behindName rest := by
  have hkeep {P : Char → Bool} (hP : P c = false) {l : JSString} (hl : c ∈ l) :
      c ∈ l.dropWhile P := by
    rw [← List.takeWhile_append_dropWhile (p := P) (l := l)] at hl
    rcases List.mem_append.mp hl with htake | hdrop
    · have htrue := List.mem_takeWhile_imp htake
      rw [hP] at htrue
      cases htrue
    · exact hdrop
  refine hkeep (by simp [isName, hc]) (hkeep ?_ h)
  rw [decide_eq_false_iff_not]
  rintro rfl
  cases hc

/-- Without an end of a line the loop goes on for ever. -/
theorem formatLoop_none {rest : JSString} (h : ∀ c ∈ rest, isEol c = false) (fuel : ℕ)
    (entries : List Entry) : formatLoop fuel rest entries = none := by
  induction fuel generalizing rest entries with
  | zero => rfl
  | succ fuel ih =>
    have hhead : rest.head?.any isEol = false := by
      cases rest with
      | nil => rfl
      | cons c s => exact h c (by simp)
    rw [formatLoop_succ hhead]
    exact ih (fun c hc => h c ((behindName_suffix rest).subset hc)) _

theorem formatLoop_some {rest : JSString} (h : ∃ c ∈ rest, isEol c = true)
    (entries : List Entry) :
    ∃ fuel r, formatLoop fuel rest entries = some r ∧ r.1.length ≤ rest.length := by
  induction hn : rest.length using Nat.strong_induction_on generalizing rest entries with
  | _ n ih =>
    cases hhead : rest.head?.any isEol with
    | true => exact ⟨1, (rest, entries), by rw [formatLoop, if_pos hhead], hn.le⟩
    | false =>
      obtain ⟨c, hmem, hc⟩ := h
      have hshort := behindName_length (List.ne_nil_of_mem hmem) hhead
      obtain ⟨fuel, r, hr, hlength⟩ := ih _ (hn ▸ hshort) ⟨c, mem_behindName hc hmem, hc⟩
        (entries ++ [columnEntry ((skipWS rest).takeWhile isName)]) rfl
      exact ⟨fuel + 1, r, by rw [formatLoop_succ hhead, hr], by omega⟩

theorem formatLoop_mono {fuel fuel' : ℕ} (hle : fuel ≤ fuel') {rest : JSString}
    {entries : List Entry} {r : JSString × List Entry}
    (h : formatLoop fuel rest entries = some r) : formatLoop fuel' rest entries = some r := by
  induction fuel generalizing fuel' rest entries with
  | zero => cases h
  | succ fuel ih =>
    obtain ⟨k, rfl⟩ := Nat.exists_eq_succ_of_ne_zero (show fuel' ≠ 0 by omega)
    rw [formatLoop] at h ⊢
    split_ifs at h ⊢ with hhead
    · exact h
    · exact ih (Nat.le_of_succ_le_succ hle) h

/-! ### Turns -/

variable (Number) in
/-- A turn of the loop that ends and does not throw. -/
def Parser.Turn (p q : Parser) : Prop :=
  p.rest ≠ [] ∧ ∃ fuel, p.turn Number fuel = some (.ok q)

/-- Nothing goes wrong behind a header: it is no comment, a format only with the end of its line,
and an entry only where a format is known. -/
structure SafeHeader (header : ℕ × JSString) (entries : Option (List Entry)) : Prop where
  comment : header.1 ≠ 101 ∧ header.1 ≠ 102
  format : header.1 = 200 → ∃ c ∈ header.2, isEol c = true
  entry : header.1 = 201 → entries ≠ none

def Parser.Safe (p : Parser) : Prop := SafeHeader (getHeaderToken p.rest) p.entries

theorem Parser.turn_mono {fuel fuel' : ℕ} (hle : fuel ≤ fuel') {p : Parser}
    {r : Except Exn Parser} (h : p.turn Number fuel = some r) : p.turn Number fuel' = some r := by
  rw [turn] at h ⊢
  dsimp only at h ⊢
  split_ifs at h ⊢
  · exact h
  · exact h
  · obtain ⟨q, hq, rfl⟩ := Option.map_eq_some_iff.mp h
    rw [getFormat] at hq ⊢
    obtain ⟨loop, hloop, rfl⟩ := Option.map_eq_some_iff.mp hq
    rw [formatLoop_mono hle hloop]
    rfl
  · exact h
  · exact h

theorem Parser.Turn.unique {p q q' : Parser} (h : Turn Number p q) (h' : Turn Number p q') :
    q = q' := by
  obtain ⟨-, fuel, hq⟩ := h
  obtain ⟨-, fuel', hq'⟩ := h'
  have hmax := turn_mono (le_max_left fuel fuel') hq
  rw [turn_mono (le_max_right fuel fuel') hq'] at hmax
  cases hmax
  rfl

/-- A turn ends and does not throw exactly if nothing goes wrong in it. -/
theorem Parser.exists_turn_iff {p : Parser} :
    (∃ fuel q, p.turn Number fuel = some (.ok q)) ↔ p.Safe := by
  simp only [turn, Safe]
  generalize getHeaderToken p.rest = header
  constructor
  · rintro ⟨fuel, q, h⟩
    split_ifs at h with hinfo hcomment hformat hentry
    · exact ⟨by omega, by omega, by omega⟩
    · cases h
    · refine ⟨by omega, fun _ => ?_, by omega⟩
      obtain ⟨loop, hloop, -⟩ := Option.map_eq_some_iff.mp h
      by_contra hnone
      simp only [not_exists, not_and, Bool.not_eq_true] at hnone
      rw [getFormat, formatLoop_none hnone] at hloop
      cases hloop
    · refine ⟨by omega, by omega, fun _ hnone => ?_⟩
      rw [hnone] at h
      cases h
    · exact ⟨by omega, by omega, by omega⟩
  · rintro ⟨hcomment, hformat, hentry⟩
    have hnot : ¬ (header.1 = 101 ∨ header.1 = 102) := by omega
    simp only [if_neg hnot]
    split_ifs with hinfo hformatLine hentryLine
    · exact ⟨0, _, rfl⟩
    · obtain ⟨fuel, r, hr, -⟩ := formatLoop_some (hformat hformatLine) []
      refine ⟨fuel, { p with rest := skipEndOfLine r.1, entries := some r.2 }, ?_⟩
      rw [getFormat, hr]
      rfl
    · cases hentries : p.entries with
      | none => exact absurd hentries (hentry hentryLine)
      | some entries => exact ⟨0, _, rfl⟩
    · exact ⟨0, _, rfl⟩

theorem Parser.turn_length {p q : Parser} (h : Turn Number p q) :
    q.rest.length < p.rest.length := by
  obtain ⟨hne, fuel, h⟩ := h
  have hheader := getHeaderToken_length hne
  simp only [turn] at h
  generalize getHeaderToken p.rest = header at h hheader
  split_ifs at h
  · cases h
    exact (skipEndOfLine_length _).trans_lt hheader
  · cases h
  · obtain ⟨r, hr, hq⟩ := Option.map_eq_some_iff.mp h
    cases hq
    obtain ⟨loop, hloop, rfl⟩ := Option.map_eq_some_iff.mp hr
    have heol : ∃ c ∈ header.2, isEol c = true := by
      by_contra hnone
      simp only [not_exists, not_and, Bool.not_eq_true] at hnone
      rw [formatLoop_none hnone] at hloop
      cases hloop
    obtain ⟨fuel', loop', hloop', hshort⟩ := formatLoop_some heol []
    have hmax := formatLoop_mono (le_max_left fuel fuel') hloop
    rw [formatLoop_mono (le_max_right fuel fuel') hloop'] at hmax
    cases hmax
    exact ((skipEndOfLine_length _).trans hshort).trans_lt hheader
  · cases hentries : p.entries with
    | none =>
      rw [hentries] at h
      cases h
    | some entries =>
      rw [hentries] at h
      cases h
      exact ((skipEndOfLine_length _).trans (readFields_length entries _)).trans_lt hheader
  · cases h
    exact hheader

/-! ### Runs -/

/-- A loop that returns does so with more fuel too, and behind the next turn. -/
theorem Parser.parseLoop_mono {fuel fuel' : ℕ} (hle : fuel ≤ fuel') {p : Parser}
    {r : Except Exn Parser} (h : p.parseLoop Number fuel = some r) :
    p.parseLoop Number fuel' = some r := by
  induction fuel generalizing fuel' p with
  | zero => cases h
  | succ fuel ih =>
    obtain ⟨k, rfl⟩ := Nat.exists_eq_succ_of_ne_zero (show fuel' ≠ 0 by omega)
    have hk : fuel ≤ k := Nat.le_of_succ_le_succ hle
    rw [parseLoop] at h ⊢
    split_ifs at h ⊢ with hrest
    · exact h
    · cases hturn : p.turn Number fuel with
      | none =>
        rw [hturn] at h
        cases h
      | some result =>
        rw [hturn] at h
        rw [turn_mono hk hturn]
        cases result with
        | error e => exact h
        | ok q => exact ih hk h

variable (Number) in
/-- The loop ends in a state and has not thrown. -/
def Parser.Returns (p q : Parser) : Prop := ∃ fuel, p.parseLoop Number fuel = some (.ok q)

theorem Parser.returns_nil {p q : Parser} (h : p.rest = []) : Returns Number p q ↔ q = p := by
  constructor
  · rintro ⟨fuel, hq⟩
    cases fuel with
    | zero => cases hq
    | succ fuel =>
      rw [parseLoop, if_pos h] at hq
      cases hq
      rfl
  · rintro rfl
    exact ⟨1, if_pos h⟩

/-- What the loop ends in is what it ends in behind the next turn. -/
theorem Parser.returns_iff {p q : Parser} (hne : p.rest ≠ []) :
    Returns Number p q ↔ ∃ next, Turn Number p next ∧ Returns Number next q := by
  constructor
  · rintro ⟨fuel, hq⟩
    cases fuel with
    | zero => cases hq
    | succ fuel =>
      rw [parseLoop, if_neg hne] at hq
      cases hturn : p.turn Number fuel with
      | none =>
        rw [hturn] at hq
        cases hq
      | some result =>
        rw [hturn] at hq
        cases result with
        | error e => cases hq
        | ok next => exact ⟨next, ⟨hne, fuel, hturn⟩, fuel, hq⟩
  · rintro ⟨next, ⟨-, fuel, hturn⟩, fuel', hq⟩
    refine ⟨max fuel fuel' + 1, ?_⟩
    rw [parseLoop, if_neg hne, turn_mono (le_max_left fuel fuel') hturn]
    exact parseLoop_mono (le_max_right fuel fuel') hq

/-- The loop ends and does not throw exactly if nothing goes wrong in any turn to which it comes. -/
theorem Parser.exists_returns_iff (p : Parser) :
    (∃ q, Returns Number p q) ↔
      ∀ q, Relation.ReflTransGen (Turn Number) p q → q.rest ≠ [] → q.Safe := by
  induction hn : p.rest.length using Nat.strong_induction_on generalizing p with
  | _ n ih =>
    by_cases hne : p.rest = []
    · refine iff_of_true ⟨p, (returns_nil hne).mpr rfl⟩ fun q hq hrest => ?_
      rcases Relation.ReflTransGen.cases_head hq with rfl | ⟨next, hturn, -⟩
      · exact absurd hne hrest
      · exact absurd hne hturn.1
    · simp only [returns_iff hne]
      constructor
      · rintro ⟨q, next, hturn, hreturns⟩ last hlast hrest
        have hlength := turn_length hturn
        rcases Relation.ReflTransGen.cases_head hlast with rfl | ⟨next', hturn', hlast⟩
        · obtain ⟨-, fuel, hsome⟩ := hturn
          exact exists_turn_iff.mp ⟨fuel, next, hsome⟩
        · obtain rfl := hturn.unique hturn'
          exact (ih _ (hn ▸ hlength) next rfl).mp ⟨q, hreturns⟩ last hlast hrest
      · intro hsafe
        obtain ⟨fuel, next, hsome⟩ := exists_turn_iff.mpr (hsafe p .refl hne)
        have hturn : Turn Number p next := ⟨hne, fuel, hsome⟩
        have hlength := turn_length hturn
        obtain ⟨q, hq⟩ := (ih _ (hn ▸ hlength) next rfl).mpr fun last hlast hrest =>
          hsafe last (.head hturn hlast) hrest
        exact ⟨q, next, hturn, hq⟩

end Kompozer.Publish

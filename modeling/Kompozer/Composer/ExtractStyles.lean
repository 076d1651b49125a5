import Mathlib

/-! The dialog that makes a rule of inline styles (`ExtractStyles.js`). A new text gives a STYLE
element a new sheet, and the sheet it had loses its owner node. -/

namespace Kompozer.Composer.ExtractStyles

/-- A declaration, as `item`, `getPropertyValue` and `getPropertyPriority` read it. -/
structure Declaration where
  property : String
  value : String
  important : Bool
  deriving DecidableEq

/-- The rules of a sheet: style rules, and others of which nothing is read. -/
inductive Rule
  | style (selectorText : String) (declarations : List Declaration)
  | other (cssText : String)
  deriving DecidableEq

def ELEMENT_NODE : ℕ := 1

/-- The node a sheet belongs to, with its text. -/
structure Node where
  nodeType : ℕ
  nodeName : String
  text : String

structure StyleSheet where
  ownerNode : Option Node
  cssRules : List Rule

structure Element where
  nodeName : String
  attributes : String → Option String
  style : List Declaration

structure Document where
  styleSheets : List StyleSheet
  hasHead : Bool
  /-- The number of sheets in front of the end of the head. -/
  headSheets : ℕ
  firingElement : Element
  modificationCount : ℕ

/-- The fields of the dialog. -/
structure Dialog where
  applicationField : String
  idTextbox : String
  classTextbox : String
  classCheckbox : Bool
  typeCheckbox : Bool
  hoveredCheckbox : Bool

/-- What the dialog uses: the rules of a text, the text `SerializeEmbeddedSheet` writes, and texts
in lower case. -/
structure Browser where
  parse : String → List Rule
  serialize : List Rule → String
  toLowerCase : String → String
  /-- No rule, comment or string is open at the end of a text. -/
  isClosed : String → Prop
  isSelector : String → Prop
  /-- Declarations that are all kept when they are read. -/
  isBlock : List Declaration → Prop

/-! ### The rule -/

/-- The selector of the rule. -/
def chosenSelector (B : Browser) (gDialog : Dialog) (firingElement : Element) : String :=
  if gDialog.applicationField = "allElements" then
    let selector := if gDialog.typeCheckbox then B.toLowerCase firingElement.nodeName else "*"
    let selector :=
      if gDialog.classCheckbox then selector ++ "." ++ gDialog.classTextbox else selector
    if gDialog.hoveredCheckbox then selector ++ ":hover" else selector
  else "*#" ++ gDialog.idTextbox

def declarationText (d : Declaration) : String :=
  "  " ++ d.property ++ ": " ++ d.value ++ (if d.important then " ! important" else "") ++ ";\n"

def ruleText (selector : String) (styles : List Declaration) : String :=
  "\n" ++ selector ++ "\n\x7b\n" ++ String.join (styles.map declarationText) ++ "\x7d\n\n"

/-- The CSS parser reads a rule behind a text just when nothing is open and the rule is one. -/
structure Browser.Lawful (B : Browser) : Prop where
  parse_empty : B.parse "" = []
  isClosed_empty : B.isClosed ""
  parse_ruleText (text selector : String) (styles : List Declaration) :
    B.parse (text ++ ruleText selector styles) = B.parse text ++ [.style selector styles] ↔
      B.isClosed text ∧ B.isSelector selector ∧ B.isBlock styles
  toLowerCase_style : B.toLowerCase "STYLE" = "style"

/-! ### The rules with the same selector -/

/-- `deleteThisRule`. -/
def deleteThisRule (selector : String) : Rule → Bool
  | .style selectorText _ =>
    selectorText = selector ||
      selector.toList.head? = some '*' && selector = "*" ++ selectorText
  | .other _ => false

/-- The loop over the rules, with the length that was read before. A rule that is not there is an
exception. -/
def ruleLoop (selector : String) (cssRules : List Rule) (ruleIndex ruleLength : ℕ)
    (modified : Bool) : Except (List Rule) (List Rule × Bool) :=
  if ruleIndex < ruleLength then
    match cssRules[ruleIndex]? with
    | none => .error cssRules
    | some rule =>
      if deleteThisRule selector rule then
        -- `ruleIndex` goes down here and up again at the end of the round.
        ruleLoop selector (cssRules.eraseIdx ruleIndex) ruleIndex (ruleLength - 1) true
      else ruleLoop selector cssRules (ruleIndex + 1) ruleLength modified
  else .ok (cssRules, modified)
termination_by ruleLength - ruleIndex

/-- The sheet of a STYLE element. -/
def isEmbedded (B : Browser) (sheet : StyleSheet) : Bool :=
  sheet.ownerNode.any fun node =>
    node.nodeType = ELEMENT_NODE && B.toLowerCase node.nodeName = "style"

/-- The sheet a node gets with a new text. -/
def UpdateStyleSheet (B : Browser) (sheet : StyleSheet) (newText : String → String) :
    StyleSheet where
  ownerNode := sheet.ownerNode.map fun node => { node with text := newText node.text }
  cssRules := B.parse (newText (sheet.ownerNode.elim "" Node.text))

def SerializeEmbeddedSheet (B : Browser) (sheet : StyleSheet) (cssRules : List Rule) : StyleSheet :=
  UpdateStyleSheet B sheet fun _ => B.serialize cssRules

/-- The place of a sheet, and whether it still has its owner node. -/
structure InsertionPoint where
  sheetIndex : ℕ
  hasOwnerNode : Bool

structure SheetWalk where
  styleSheets : List StyleSheet
  insertionPoint : Option InsertionPoint

/-- One round of the loop over the sheets. -/
def visitSheet (B : Browser) (selector : String) (walk : SheetWalk) (sheetIndex : ℕ) :
    Except (List StyleSheet) SheetWalk :=
  match walk.styleSheets[sheetIndex]? with
  | none => .error walk.styleSheets
  | some stylesheet =>
    if isEmbedded B stylesheet then
      let ruleLength := stylesheet.cssRules.length
      match ruleLoop selector stylesheet.cssRules 0 ruleLength false with
      | .error cssRules =>
        .error (walk.styleSheets.set sheetIndex { stylesheet with cssRules := cssRules })
      | .ok (cssRules, modified) =>
        if modified then
          let sheet := SerializeEmbeddedSheet B stylesheet cssRules
          .ok ⟨walk.styleSheets.set sheetIndex sheet, some ⟨sheetIndex, false⟩⟩
        else .ok ⟨walk.styleSheets, some ⟨sheetIndex, true⟩⟩
    else .ok walk

def removeRules (B : Browser) (selector : String) (styleSheets : List StyleSheet) :
    Except (List StyleSheet) SheetWalk :=
  (List.range styleSheets.length).foldlM (visitSheet B selector) ⟨styleSheets, none⟩

/-! ### The new rule and the element -/

/-- The text is appended to the STYLE element, which is made where there is none. No element is
found from a sheet that lost its owner node. -/
def appendRule (B : Browser) (text : String) (doc : Document) :
    Option InsertionPoint → Except Document Document
  | none =>
    if doc.hasHead then
      let sheet : StyleSheet := ⟨some ⟨ELEMENT_NODE, "STYLE", text⟩, B.parse text⟩
      let styleSheets := doc.styleSheets.take doc.headSheets ++ sheet ::
        doc.styleSheets.drop doc.headSheets
      .ok { doc with styleSheets := styleSheets }
    else .error doc
  | some ⟨sheetIndex, hasOwnerNode⟩ =>
    if hasOwnerNode then
      .ok { doc with
        styleSheets := doc.styleSheets.modify sheetIndex fun sheet =>
          UpdateStyleSheet B sheet (· ++ text) }
    else .error doc

def removeAttribute (attributes : String → Option String) (name : String) :
    String → Option String :=
  Function.update attributes name none

def setAttribute (attributes : String → Option String) (name value : String) :
    String → Option String :=
  Function.update attributes name (some value)

/-- What becomes of the element. -/
def markElement (gDialog : Dialog) (element : Element) : Element :=
  let attributes :=
    removeAttribute (removeAttribute (removeAttribute element.attributes "style") "id") "class"
  { element with
    style := []
    attributes :=
      if gDialog.applicationField = "allElements" then
        if gDialog.classCheckbox then setAttribute attributes "class" gDialog.classTextbox
        else attributes
      else setAttribute attributes "id" gDialog.idTextbox }

/-- The document after the dialog, or at an exception. -/
def onAccept (B : Browser) (gDialog : Dialog) (doc : Document) : Except Document Document :=
  let selector := chosenSelector B gDialog doc.firingElement
  match removeRules B selector doc.styleSheets with
  | .error styleSheets => .error { doc with styleSheets := styleSheets }
  | .ok walk =>
    let text := ruleText selector doc.firingElement.style
    (appendRule B text { doc with styleSheets := walk.styleSheets } walk.insertionPoint).map
      fun doc => { doc with
        firingElement := markElement gDialog doc.firingElement
        modificationCount := doc.modificationCount + 1 }

end Kompozer.Composer.ExtractStyles

/-! What the dialog leaves of the document: when the inline styles are moved into a rule and nothing
else is changed. -/

namespace Kompozer.Composer.ExtractStyles

/-! ### What is meant -/

/-- The rules that are replaced: those with a selector, also without the `*` it begins with. -/
def hasSelector (selector : String) : Rule → Bool
  | .style selectorText _ => selectorText = selector || "*" ++ selectorText = selector
  | .other _ => false

/-- The rules of the embedded sheets. -/
def embeddedRules (B : Browser) (sheets : List StyleSheet) : List (List Rule) :=
  (sheets.filter (isEmbedded B)).map StyleSheet.cssRules

/-- A rule at the end of the last sheet, or alone in a sheet. -/
def addRule (rule : Rule) : List (List Rule) → List (List Rule)
  | [] => [[rule]]
  | [rules] => [rules ++ [rule]]
  | rules :: rules' :: sheets => rules :: addRule rule (rules' :: sheets)

/-- The attribute that stands for the selector, with its value. -/
def chosenAttribute (gDialog : Dialog) : Option (String × String) :=
  if gDialog.applicationField = "allElements" then
    if gDialog.classCheckbox then some ("class", gDialog.classTextbox) else none
  else some ("id", gDialog.idTextbox)

/-- The attributes without the styles and with the chosen one. -/
def chosenAttributes (gDialog : Dialog) (attributes : String → Option String) :
    String → Option String :=
  (chosenAttribute gDialog).elim (removeAttribute attributes "style") fun chosen =>
    setAttribute (removeAttribute attributes "style") chosen.1 chosen.2

/-- The inline styles were moved, and only they. -/
structure Moved (B : Browser) (gDialog : Dialog) (old new : Document) : Prop where
  embedded : embeddedRules B new.styleSheets =
    addRule (.style (chosenSelector B gDialog old.firingElement) old.firingElement.style)
      ((embeddedRules B old.styleSheets).map (List.filter fun rule =>
        !hasSelector (chosenSelector B gDialog old.firingElement) rule))
  others : new.styleSheets.filter (fun sheet => !isEmbedded B sheet) =
    old.styleSheets.filter (fun sheet => !isEmbedded B sheet)
  attributes : new.firingElement.attributes =
    chosenAttributes gDialog old.firingElement.attributes
  style : new.firingElement.style = []

/-- A document in which the rules of the embedded sheets are those of their texts. -/
structure Page (B : Browser) extends Document where
  parsed : ∀ sheet ∈ styleSheets, isEmbedded B sheet → ∀ node ∈ sheet.ownerNode,
    sheet.cssRules = B.parse node.text

/-- The last embedded sheet has no rule with the selector and nothing is open at its end, the rule
is one, and the element has no attribute that is removed without being chosen. -/
structure Movable (B : Browser) (gDialog : Dialog) (doc : Document) : Prop where
  selector : B.isSelector (chosenSelector B gDialog doc.firingElement)
  block : B.isBlock doc.firingElement.style
  head : (∀ sheet ∈ doc.styleSheets, isEmbedded B sheet = false) → doc.hasHead
  last : ∀ sheet ∈ (doc.styleSheets.filter (isEmbedded B)).getLast?,
    (∀ rule ∈ sheet.cssRules,
      hasSelector (chosenSelector B gDialog doc.firingElement) rule = false) ∧
    ∀ node ∈ sheet.ownerNode, B.isClosed node.text
  attributes : ∀ name ∈ ["id", "class"], name ∉ (chosenAttribute gDialog).map Prod.fst →
    doc.firingElement.attributes name = none

/-! ### The loops -/

theorem deleteThisRule_eq (selector : String) (rule : Rule) :
    deleteThisRule selector rule = hasSelector selector rule := by
  cases rule with
  | other cssText => rfl
  | style selectorText declarations =>
    rw [deleteThisRule, hasSelector, Bool.eq_iff_iff]
    simp only [Bool.or_eq_true, Bool.and_eq_true, decide_eq_true_iff]
    constructor
    · rintro (h | ⟨-, h⟩)
      · exact .inl h
      · exact .inr h.symm
    · rintro (h | h)
      · exact .inl h
      · refine .inr ⟨?_, h.symm⟩
        rw [← h, String.toList_append]
        rfl

/-- What stands in front of the index is kept, and behind it the rules with the selector go. -/
theorem ruleLoop_append (selector : String) (kept rest : List Rule) (modified : Bool) :
    ruleLoop selector (kept ++ rest) kept.length (kept.length + rest.length) modified =
      .ok (kept ++ rest.filter (fun rule => !hasSelector selector rule),
        modified || rest.any (hasSelector selector)) := by
  induction rest generalizing kept modified with
  | nil =>
    rw [ruleLoop.eq_def, if_neg (by simp)]
    simp
  | cons rule rest ih =>
    have hrule : (kept ++ rule :: rest)[kept.length]? = some rule := by simp
    rw [ruleLoop.eq_def, if_pos (by simp), hrule]
    simp only [deleteThisRule_eq]
    by_cases h : hasSelector selector rule = true
    · have herase : (kept ++ rule :: rest).eraseIdx kept.length = kept ++ rest := by
        rw [List.eraseIdx_append_of_length_le le_rfl, Nat.sub_self, List.eraseIdx_cons_zero]
      rw [if_pos h, herase, List.length_cons, Nat.add_succ_sub_one, ih]
      simp [h]
    · have hsnoc : kept ++ rule :: rest = (kept ++ [rule]) ++ rest := by simp
      have hlen : kept.length + (rule :: rest).length = (kept ++ [rule]).length + rest.length := by
        simp only [List.length_append, List.length_cons, List.length_nil]
        omega
      have hindex : kept.length + 1 = (kept ++ [rule]).length := by simp
      rw [if_neg h, hsnoc, hlen, hindex, ih]
      simp [h]

theorem ruleLoop_eq (selector : String) (cssRules : List Rule) :
    ruleLoop selector cssRules 0 cssRules.length false =
      .ok (cssRules.filter (fun rule => !hasSelector selector rule),
        cssRules.any (hasSelector selector)) := by
  have h := ruleLoop_append selector [] cssRules false
  rwa [List.nil_append, List.length_nil, Nat.zero_add, List.nil_append, Bool.false_or] at h

/-- A sheet after its round. -/
def cleaned (B : Browser) (selector : String) (sheet : StyleSheet) : StyleSheet :=
  if isEmbedded B sheet && sheet.cssRules.any (hasSelector selector) then
    SerializeEmbeddedSheet B sheet (sheet.cssRules.filter fun rule => !hasSelector selector rule)
  else sheet

section Walk
variable {B : Browser} {selector : String}

@[simp] theorem isEmbedded_UpdateStyleSheet (sheet : StyleSheet) (newText : String → String) :
    isEmbedded B (UpdateStyleSheet B sheet newText) = isEmbedded B sheet := by
  obtain ⟨ownerNode, cssRules⟩ := sheet
  cases ownerNode <;> rfl

@[simp] theorem isEmbedded_cleaned (sheet : StyleSheet) :
    isEmbedded B (cleaned B selector sheet) = isEmbedded B sheet := by
  unfold cleaned
  split_ifs
  · exact isEmbedded_UpdateStyleSheet sheet _
  · rfl

variable (B selector) in
/-- One round: the sheet is cleaned, and it becomes the insertion point when it is embedded. -/
theorem visitSheet_eq (done rest : List StyleSheet) (sheet : StyleSheet)
    (point : Option InsertionPoint) :
    visitSheet B selector ⟨done ++ sheet :: rest, point⟩ done.length =
      .ok ⟨done ++ cleaned B selector sheet :: rest,
        if isEmbedded B sheet then
          some ⟨done.length, !sheet.cssRules.any (hasSelector selector)⟩
        else point⟩ := by
  have hsheet : (done ++ sheet :: rest)[done.length]? = some sheet := by simp
  unfold visitSheet cleaned
  simp only [hsheet, ruleLoop_eq]
  by_cases h : isEmbedded B sheet = true
  · cases hany : sheet.cssRules.any (hasSelector selector) <;> simp [h]
  · simp [h]

/-- The last embedded sheet, which still has its owner node when it was not changed. -/
def IsLastEmbedded (B : Browser) (selector : String) (sheets : List StyleSheet) :
    Option InsertionPoint → Prop
  | none => ∀ sheet ∈ sheets, isEmbedded B sheet = false
  | some point => ∃ before sheet after, sheets = before ++ sheet :: after ∧ isEmbedded B sheet ∧
      (∀ other ∈ after, isEmbedded B other = false) ∧
      point = ⟨before.length, !sheet.cssRules.any (hasSelector selector)⟩

theorem IsLastEmbedded.snoc {sheets : List StyleSheet} {point : Option InsertionPoint}
    (h : IsLastEmbedded B selector sheets point) (last : StyleSheet) :
    IsLastEmbedded B selector (sheets ++ [last])
      (if isEmbedded B last then
        some ⟨sheets.length, !last.cssRules.any (hasSelector selector)⟩ else point) := by
  by_cases hlast : isEmbedded B last = true
  · rw [if_pos hlast]
    exact ⟨sheets, last, [], rfl, hlast, by simp, rfl⟩
  · rw [if_neg hlast]
    rw [Bool.not_eq_true] at hlast
    have hall {others : List StyleSheet} (h : ∀ other ∈ others, isEmbedded B other = false) :
        ∀ other ∈ others ++ [last], isEmbedded B other = false := by
      intro other hmem
      rcases List.mem_append.mp hmem with hmem | hmem
      · exact h other hmem
      · rwa [List.mem_singleton.mp hmem]
    cases point with
    | none => exact hall h
    | some point =>
      obtain ⟨before, sheet, after, rfl, hsheet, hafter, hpoint⟩ := h
      exact ⟨before, sheet, after ++ [last], by simp, hsheet, hall hafter, hpoint⟩

variable (B selector) in
theorem foldlM_visitSheet (sheets rest : List StyleSheet) :
    ∃ point, IsLastEmbedded B selector sheets point ∧
      (List.range sheets.length).foldlM (visitSheet B selector) ⟨sheets ++ rest, none⟩ =
        .ok ⟨sheets.map (cleaned B selector) ++ rest, point⟩ := by
  induction sheets using List.reverseRecOn generalizing rest with
  | nil => exact ⟨none, by simp [IsLastEmbedded], rfl⟩
  | append_singleton sheets last ih =>
    obtain ⟨point, hpoint, hfold⟩ := ih (last :: rest)
    refine ⟨_, hpoint.snoc last, ?_⟩
    have hrange : List.range (sheets ++ [last]).length =
        List.range sheets.length ++ [sheets.length] := by
      rw [List.length_append, List.length_singleton, List.range_succ]
    have hround := visitSheet_eq B selector (sheets.map (cleaned B selector)) rest last point
    rw [List.length_map] at hround
    rw [hrange, List.foldlM_append, List.append_assoc, List.singleton_append, hfold]
    change visitSheet B selector _ _ >>= _ = _
    rw [hround, List.map_append, List.map_singleton, List.append_assoc]
    rfl

variable (B selector) in
/-- The loop over the sheets comes to its end. -/
theorem removeRules_eq (sheets : List StyleSheet) :
    ∃ point, IsLastEmbedded B selector sheets point ∧
      removeRules B selector sheets = .ok ⟨sheets.map (cleaned B selector), point⟩ := by
  obtain ⟨point, hpoint, hfold⟩ := foldlM_visitSheet B selector sheets []
  rw [List.append_nil, List.append_nil] at hfold
  exact ⟨point, hpoint, hfold⟩

end Walk

/-! ### The sheets -/

section Sheets
variable {B : Browser} {selector : String}

theorem embeddedRules_append (sheets sheets' : List StyleSheet) :
    embeddedRules B (sheets ++ sheets') = embeddedRules B sheets ++ embeddedRules B sheets' := by
  simp [embeddedRules]

theorem embeddedRules_cons {sheet : StyleSheet} (h : isEmbedded B sheet)
    (sheets : List StyleSheet) :
    embeddedRules B (sheet :: sheets) = sheet.cssRules :: embeddedRules B sheets := by
  simp [embeddedRules, h]

theorem embeddedRules_of_none {sheets : List StyleSheet}
    (h : ∀ sheet ∈ sheets, isEmbedded B sheet = false) : embeddedRules B sheets = [] := by
  have hnil : sheets.filter (isEmbedded B) = [] :=
    List.filter_eq_nil_iff.mpr fun sheet hsheet => by simp [h sheet hsheet]
  rw [embeddedRules, hnil, List.map_nil]

theorem addRule_append (rule : Rule) (sheets : List (List Rule)) (rules : List Rule) :
    addRule rule (sheets ++ [rules]) = sheets ++ [rules ++ [rule]] := by
  induction sheets with
  | nil => rfl
  | cons first sheets ih =>
    cases sheets with
    | nil => rfl
    | cons second sheets => exact congrArg (first :: ·) ih

theorem filter_cleaned (sheets : List StyleSheet) :
    (sheets.map (cleaned B selector)).filter (fun sheet => !isEmbedded B sheet) =
      sheets.filter fun sheet => !isEmbedded B sheet := by
  induction sheets with
  | nil => rfl
  | cons sheet sheets ih =>
    rw [List.map_cons]
    by_cases h : isEmbedded B sheet = true
    · rw [List.filter_cons_of_neg (by simp [h]), List.filter_cons_of_neg (by simp [h]), ih]
    · have hclean : cleaned B selector sheet = sheet := by simp [cleaned, h]
      rw [hclean, List.filter_cons_of_pos (by simp [h]), List.filter_cons_of_pos (by simp [h]), ih]

/-- A sheet that is written again has the rules that are left. -/
theorem cssRules_cleaned {sheet : StyleSheet} (h : isEmbedded B sheet)
    (hserialize : ∀ rules, rules.Sublist sheet.cssRules → B.parse (B.serialize rules) = rules) :
    (cleaned B selector sheet).cssRules =
      sheet.cssRules.filter fun rule => !hasSelector selector rule := by
  unfold cleaned
  split_ifs with hany
  · exact hserialize _ List.filter_sublist
  · rw [h, Bool.true_and, Bool.not_eq_true, List.any_eq_false] at hany
    exact (List.filter_eq_self.mpr fun rule hrule => by simp [hany rule hrule]).symm

theorem embeddedRules_cleaned {sheets : List StyleSheet}
    (hserialize : ∀ sheet ∈ sheets, ∀ rules, rules.Sublist sheet.cssRules →
      B.parse (B.serialize rules) = rules) :
    embeddedRules B (sheets.map (cleaned B selector)) =
      (embeddedRules B sheets).map (List.filter fun rule => !hasSelector selector rule) := by
  induction sheets with
  | nil => rfl
  | cons sheet sheets ih =>
    obtain ⟨hsheet, hsheets⟩ := List.forall_mem_cons.mp hserialize
    rw [List.map_cons]
    by_cases h : isEmbedded B sheet = true
    · rw [embeddedRules_cons (by simpa using h), embeddedRules_cons h, List.map_cons, ih hsheets,
        cssRules_cleaned h hsheet]
    · have hskip {s : StyleSheet} (hs : ¬ isEmbedded B s = true) (ss : List StyleSheet) :
          embeddedRules B (s :: ss) = embeddedRules B ss := by
        simp [embeddedRules, hs]
      rw [hskip (by simpa using h), hskip h, ih hsheets]

end Sheets

/-! ### The element -/

/-- The attributes without styles, identifier and class. -/
def cleared (attributes : String → Option String) : String → Option String :=
  removeAttribute (removeAttribute (removeAttribute attributes "style") "id") "class"

theorem attributes_markElement (gDialog : Dialog) (element : Element) :
    (markElement gDialog element).attributes =
      (chosenAttribute gDialog).elim (cleared element.attributes) fun chosen =>
        setAttribute (cleared element.attributes) chosen.1 chosen.2 := by
  unfold markElement chosenAttribute
  simp only []
  split_ifs <;> rfl

theorem cleared_eq_iff (attributes : String → Option String) (name : String) :
    cleared attributes name = removeAttribute attributes "style" name ↔
      (name ∈ ["id", "class"] → attributes name = none) := by
  have hid : "id" ≠ "style" := by decide
  have hclass : "class" ≠ "style" := by decide
  unfold cleared removeAttribute
  by_cases hname : name = "class"
  · rw [hname, Function.update_self, Function.update_of_ne hclass]
    simp [eq_comm]
  · rw [Function.update_of_ne hname]
    by_cases hname' : name = "id"
    · rw [hname', Function.update_self, Function.update_of_ne hid]
      simp [eq_comm]
    · rw [Function.update_of_ne hname']
      simp [hname, hname']

/-- The other one of `id` and `class`, or both, must be absent. -/
theorem attributes_markElement_iff (gDialog : Dialog) (element : Element) :
    (markElement gDialog element).attributes = chosenAttributes gDialog element.attributes ↔
      ∀ name ∈ ["id", "class"], name ∉ (chosenAttribute gDialog).map Prod.fst →
        element.attributes name = none := by
  have hsame : (markElement gDialog element).attributes =
      chosenAttributes gDialog element.attributes ↔
      ∀ name, name ∉ (chosenAttribute gDialog).map Prod.fst →
        cleared element.attributes name = removeAttribute element.attributes "style" name := by
    rw [attributes_markElement, chosenAttributes]
    cases chosenAttribute gDialog with
    | none => simp [funext_iff]
    | some chosen =>
      simp only [Option.elim_some, Option.map_some, Option.mem_def, Option.some.injEq, setAttribute]
      constructor
      · intro h name hname
        have hat := congrFun h name
        rwa [Function.update_of_ne (Ne.symm hname), Function.update_of_ne (Ne.symm hname)] at hat
      · intro h
        funext name
        by_cases hname : name = chosen.1
        · rw [hname, Function.update_self, Function.update_self]
        · rw [Function.update_of_ne hname, Function.update_of_ne hname, h name (Ne.symm hname)]
  rw [hsame]
  constructor
  · intro h name hname hchosen
    exact (cleared_eq_iff _ name).mp (h name hchosen) hname
  · intro h name hchosen
    exact (cleared_eq_iff _ name).mpr fun hname => h name hname hchosen

/-! ### The dialog -/

section Dialog
variable {B : Browser} {selector : String}

theorem modify_append {α : Type*} (before after : List α) (a : α) (f : α → α) :
    (before ++ a :: after).modify before.length f = before ++ f a :: after := by
  induction before with
  | nil => rfl
  | cons b before ih => simpa using ih

/-- The document with its rules and its element changed. -/
theorem onAccept_ok_iff (gDialog : Dialog) (doc : Document) {point : Option InsertionPoint}
    {sheets : List StyleSheet}
    (h : removeRules B (chosenSelector B gDialog doc.firingElement) doc.styleSheets =
      .ok ⟨sheets, point⟩) (P : Document → Prop) :
    (∃ new, onAccept B gDialog doc = .ok new ∧ P new) ↔
      ∃ new, appendRule B (ruleText (chosenSelector B gDialog doc.firingElement)
          doc.firingElement.style) { doc with styleSheets := sheets } point = .ok new ∧
        P { new with
          firingElement := markElement gDialog new.firingElement
          modificationCount := new.modificationCount + 1 } := by
  unfold onAccept
  simp only [h]
  cases appendRule B (ruleText (chosenSelector B gDialog doc.firingElement)
    doc.firingElement.style) { doc with styleSheets := sheets } point with
  | error doc' => simp [Except.map]
  | ok doc' => simp [Except.map]

theorem moved_iff {gDialog : Dialog} {old new : Document}
    (helement : new.firingElement = markElement gDialog old.firingElement)
    (hothers : new.styleSheets.filter (fun sheet => !isEmbedded B sheet) =
      old.styleSheets.filter (fun sheet => !isEmbedded B sheet)) :
    Moved B gDialog old new ↔
      embeddedRules B new.styleSheets =
        addRule (.style (chosenSelector B gDialog old.firingElement) old.firingElement.style)
          ((embeddedRules B old.styleSheets).map (List.filter fun rule =>
            !hasSelector (chosenSelector B gDialog old.firingElement) rule)) ∧
      ∀ name ∈ ["id", "class"], name ∉ (chosenAttribute gDialog).map Prod.fst →
        old.firingElement.attributes name = none := by
  rw [← attributes_markElement_iff, ← helement]
  constructor
  · rintro ⟨hembedded, -, hattributes, -⟩
    exact ⟨hembedded, hattributes⟩
  · rintro ⟨hembedded, hattributes⟩
    exact ⟨hembedded, hothers, hattributes, by rw [helement]; rfl⟩

/-- Without an embedded sheet a new one is made, at the end of the head. -/
theorem moves_iff_of_none (hB : B.Lawful) (gDialog : Dialog) (doc : Document)
    (hnone : ∀ sheet ∈ doc.styleSheets, isEmbedded B sheet = false) :
    (∃ new, appendRule B (ruleText (chosenSelector B gDialog doc.firingElement)
        doc.firingElement.style) doc none = .ok new ∧
      Moved B gDialog doc { new with
        firingElement := markElement gDialog new.firingElement
        modificationCount := new.modificationCount + 1 }) ↔ Movable B gDialog doc := by
  have hlast : (doc.styleSheets.filter (isEmbedded B)).getLast? = none := by
    rw [List.filter_eq_nil_iff.mpr fun sheet hsheet => by simp [hnone sheet hsheet]]
    rfl
  have hparse := hB.parse_ruleText "" (chosenSelector B gDialog doc.firingElement)
    doc.firingElement.style
  rw [String.empty_append, hB.parse_empty, List.nil_append] at hparse
  unfold appendRule
  by_cases hhead : doc.hasHead = true
  · simp only [if_pos hhead, Except.ok.injEq, exists_eq_left']
    generalize hnew : (⟨some ⟨ELEMENT_NODE, "STYLE", _⟩, _⟩ : StyleSheet) = sheet
    have hsheet : isEmbedded B sheet = true := by
      rw [← hnew]
      simp [isEmbedded, hB.toLowerCase_style]
    have htake := embeddedRules_of_none fun s hs =>
      hnone s (List.mem_of_mem_take (i := doc.headSheets) hs)
    have hdrop := embeddedRules_of_none fun s hs =>
      hnone s (List.mem_of_mem_drop (i := doc.headSheets) hs)
    have hothers : (doc.styleSheets.take doc.headSheets ++ sheet ::
        doc.styleSheets.drop doc.headSheets).filter (fun sheet => !isEmbedded B sheet) =
        doc.styleSheets.filter fun sheet => !isEmbedded B sheet := by
      rw [List.filter_append, List.filter_cons_of_neg (by simp [hsheet]), ← List.filter_append,
        List.take_append_drop]
    rw [moved_iff rfl hothers, embeddedRules_append, htake, embeddedRules_cons hsheet, hdrop,
      embeddedRules_of_none hnone, ← hnew, List.nil_append, List.map_nil, addRule,
      List.cons.injEq, hparse]
    constructor
    · rintro ⟨⟨⟨-, hselector, hblock⟩, -⟩, hattributes⟩
      exact ⟨hselector, hblock, fun _ => hhead, by simp [hlast], hattributes⟩
    · rintro ⟨hselector, hblock, -, -, hattributes⟩
      exact ⟨⟨⟨hB.isClosed_empty, hselector, hblock⟩, rfl⟩, hattributes⟩
  · simp only [if_neg hhead]
    constructor
    · rintro ⟨new, hnew, -⟩
      cases hnew
    · intro h
      exact absurd (h.head hnone) hhead

/-- The rule is appended to the last embedded sheet unless this one was written again. -/
theorem moves_iff_of_some (hB : B.Lawful) (gDialog : Dialog) (page : Page B)
    (hserialize : ∀ sheet ∈ page.styleSheets, ∀ rules, rules.Sublist sheet.cssRules →
      B.parse (B.serialize rules) = rules)
    {before after : List StyleSheet} {sheet : StyleSheet}
    (hsheets : page.styleSheets = before ++ sheet :: after) (hsheet : isEmbedded B sheet)
    (hafter : ∀ other ∈ after, isEmbedded B other = false)
    (hselector : chosenSelector B gDialog page.firingElement = selector) :
    (∃ new, appendRule B (ruleText selector page.firingElement.style)
        { page.toDocument with styleSheets := page.styleSheets.map (cleaned B selector) }
        (some ⟨before.length, !sheet.cssRules.any (hasSelector selector)⟩) = .ok new ∧
      Moved B gDialog page.toDocument { new with
        firingElement := markElement gDialog new.firingElement
        modificationCount := new.modificationCount + 1 }) ↔ Movable B gDialog page.toDocument := by
  have hlast : (page.styleSheets.filter (isEmbedded B)).getLast? = some sheet := by
    have hnil : after.filter (isEmbedded B) = [] :=
      List.filter_eq_nil_iff.mpr fun other hother => by simp [hafter other hother]
    rw [hsheets, List.filter_append, List.filter_cons_of_pos hsheet, hnil]
    simp
  have hmem : sheet ∈ page.styleSheets := by simp [hsheets]
  obtain ⟨node, hnode⟩ : ∃ node, sheet.ownerNode = some node := by
    cases h : sheet.ownerNode with
    | none => simp [isEmbedded, h] at hsheet
    | some node => exact ⟨node, rfl⟩
  have hparsed := page.parsed sheet hmem hsheet node hnode
  have hparse := hB.parse_ruleText node.text selector page.firingElement.style
  rw [← hparsed] at hparse
  cases hany : sheet.cssRules.any (hasSelector selector) with
  | true =>
    constructor
    · rintro ⟨new, hnew, -⟩
      cases hnew
    · intro h
      obtain ⟨rule, hrule, hhas⟩ := List.any_eq_true.mp hany
      have hno := (h.last sheet hlast).1 rule hrule
      rw [hselector, hhas] at hno
      cases hno
  | false =>
    have hno := List.any_eq_false.mp hany
    have hclean : cleaned B selector sheet = sheet := by simp [cleaned, hany]
    have hkeep : sheet.cssRules.filter (fun rule => !hasSelector selector rule) = sheet.cssRules :=
      List.filter_eq_self.mpr fun rule hrule => by simp [hno rule hrule]
    have hmodify (f : StyleSheet → StyleSheet) :
        (page.styleSheets.map (cleaned B selector)).modify before.length f =
          before.map (cleaned B selector) ++ f sheet :: after.map (cleaned B selector) := by
      rw [hsheets, List.map_append, List.map_cons, hclean, ← List.length_map (cleaned B selector),
        modify_append]
    have hothers : (before.map (cleaned B selector) ++
        UpdateStyleSheet B sheet (· ++ ruleText selector page.firingElement.style) ::
          after.map (cleaned B selector)).filter (fun sheet => !isEmbedded B sheet) =
        page.styleSheets.filter fun sheet => !isEmbedded B sheet := by
      rw [List.filter_append, List.filter_cons_of_neg (by simp [hsheet]), filter_cleaned,
        filter_cleaned, hsheets, List.filter_append, List.filter_cons_of_neg (by simp [hsheet])]
    have hbefore : embeddedRules B (before.map (cleaned B selector)) =
        (embeddedRules B before).map (List.filter fun rule => !hasSelector selector rule) := by
      refine embeddedRules_cleaned fun s hs => hserialize s ?_
      rw [hsheets]
      exact List.mem_append_left _ hs
    have hnone : embeddedRules B (after.map (cleaned B selector)) = [] := by
      refine embeddedRules_of_none fun s hs => ?_
      obtain ⟨other, hother, rfl⟩ := List.mem_map.mp hs
      rw [isEmbedded_cleaned, hafter other hother]
    have hrules : (UpdateStyleSheet B sheet
        (· ++ ruleText selector page.firingElement.style)).cssRules =
        B.parse (node.text ++ ruleText selector page.firingElement.style) := by
      rw [UpdateStyleSheet, hnode]
      rfl
    simp only [appendRule, Bool.not_false, if_true, Except.ok.injEq, exists_eq_left', hmodify]
    rw [moved_iff rfl hothers, embeddedRules_append, hbefore,
      embeddedRules_cons (by simpa using hsheet), hnone, hsheets, embeddedRules_append,
      embeddedRules_cons hsheet, embeddedRules_of_none hafter, hselector, List.map_append,
      List.map_singleton, hkeep, addRule_append, List.append_cancel_left_eq, List.cons.injEq,
      hrules, hparse]
    constructor
    · rintro ⟨⟨⟨hclosed, hsel, hblock⟩, -⟩, hattributes⟩
      refine ⟨hselector ▸ hsel, hblock, ?_, ?_, hattributes⟩
      · intro hall
        rw [hall sheet hmem] at hsheet
        cases hsheet
      · intro s hs
        obtain rfl := Option.some.inj (hlast.symm.trans hs)
        refine ⟨fun rule hrule => ?_, fun n hn => ?_⟩
        · rw [hselector]
          simpa using hno rule hrule
        · rwa [Option.some.inj (hn.symm.trans hnode)]
    · intro h
      exact ⟨⟨⟨(h.last sheet hlast).2 node hnode, hselector ▸ h.selector, h.block⟩, rfl⟩,
        h.attributes⟩

end Dialog

/-- A browser for the rule `*#x` with the declaration `color: red` alone. -/
def redBrowser : Browser where
  parse text :=
    if text = ruleText "*#x" [⟨"color", "red", false⟩] then [.style "*#x" [⟨"color", "red", false⟩]]
    else []
  serialize _ := ""
  toLowerCase s := String.ofList (s.toList.map Char.toLower)
  isClosed text := text = ""
  isSelector selector := selector = "*#x"
  isBlock styles := styles = [⟨"color", "red", false⟩]

theorem redBrowser_lawful : redBrowser.Lawful where
  parse_empty := by decide
  isClosed_empty := rfl
  parse_ruleText text selector styles := by
    simp only [redBrowser]
    constructor
    · intro h
      have hne : text ++ ruleText selector styles = ruleText "*#x" [⟨"color", "red", false⟩] := by
        by_contra hne
        rw [if_neg hne] at h
        simp at h
      rw [if_pos hne] at h
      have hlast := congrArg List.getLast? h
      rw [List.getLast?_concat] at hlast
      obtain ⟨rfl, rfl⟩ : "*#x" = selector ∧ [⟨"color", "red", false⟩] = styles := by
        simpa using hlast
      exact ⟨String.append_eq_right_iff.mp hne, rfl, rfl⟩
    · rintro ⟨rfl, rfl, rfl⟩
      decide
  toLowerCase_style := by decide +kernel

/-- A paragraph with the declaration `color: red` and, maybe, a class. -/
def redPage (className : Option String) : Page redBrowser where
  styleSheets := []
  hasHead := true
  headSheets := 0
  firingElement :=
    ⟨"P", fun name => if name = "class" then className else none, [⟨"color", "red", false⟩]⟩
  modificationCount := 0
  parsed := by simp

def redDialog : Dialog := ⟨"thisElementOnly", "x", "", false, true, false⟩

end Kompozer.Composer.ExtractStyles

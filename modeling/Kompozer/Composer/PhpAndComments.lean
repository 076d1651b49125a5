import Kompozer.Dom.Walker

/-! Comments and processing instructions are shown to the user inside elements of the editor, and
taken out of them again (`phpAndComments.js`). A call that throws ends the function. -/

namespace Kompozer.Composer

open Dom NsResult

abbrev DOMString := List PRUnichar

/-- The characters of a text. -/
def chars (s : String) : DOMString := s.toList.map fun c => UInt16.ofNat c.toNat

def NVU_NS : DOMString := chars "http://disruptive-innovations.com/zoo/nvu"

/-- What a node is, besides its contents. -/
inductive Kind
  | element (namespaceURI : Option DOMString) (attributes : List (String × DOMString))
  | text
  | comment
  | processingInstruction (target : DOMString)
  deriving DecidableEq, Repr

/-- A document with elements and character data of all kinds. -/
structure Page where
  doc : Document
  kind : NodeId → Kind

namespace Kind

def getAttribute (name : String) : Kind → Option DOMString
  | element _ attributes => attributes.lookup name
  | _ => none

/-- An attribute that is there gets the value in its place. -/
def setAttribute (name : String) (value : DOMString) : Kind → Kind
  | element ns attributes => element ns
    (if (attributes.lookup name).isSome then
      attributes.map fun a => if a.1 = name then (name, value) else a
    else attributes ++ [(name, value)])
  | k => k

/-- A comment or a processing instruction. -/
def isNote : Kind → Bool
  | comment => true
  | processingInstruction _ => true
  | _ => false

/-- An element of the editor's namespace. -/
def isNvu : Kind → Bool
  | element ns _ => ns = some NVU_NS
  | _ => false

end Kind

namespace Page

variable (pg : Page)

def setAttribute (n : NodeId) (name : String) (value : DOMString) : Page :=
  { pg with kind := Function.update pg.kind n ((pg.kind n).setAttribute name value) }

/-- `createElementNS`. -/
def createElementNS (ns : Option DOMString) (tag : String) : Page × NodeId :=
  ({ doc := pg.doc.create (.element tag []),
     kind := Function.update pg.kind pg.doc.fresh (.element ns []) }, pg.doc.fresh)

/-- `createElement`. -/
def createElement (tag : String) : Page × NodeId := pg.createElementNS none tag

/-- `parent.insertBefore (child, ref)`. -/
def insertBefore (parent child : NodeId) (ref : Option NodeId) : Option Page :=
  let (rv, doc) := pg.doc.insertBefore parent child ref
  if rv.failed then none else some { pg with doc := doc }

def appendChild (parent child : NodeId) : Option Page := pg.insertBefore parent child none

def removeChild (parent child : NodeId) : Option Page :=
  let (rv, doc) := pg.doc.removeChild parent child
  if rv.failed then none else some { pg with doc := doc }

/-- The data of a comment or a processing instruction. -/
def data (n : NodeId) : DOMString := pg.doc.data n

/-! ### Showing -/

/-- What `MakePhpAndCommentsVisible` accepts. -/
def acceptNote (n : NodeId) : Bool :=
  (pg.kind n).isNote && match pg.doc.mParent n with
    | some parent => (pg.kind parent).getAttribute "xmlns" ≠ some NVU_NS
    | none => false

/-- The element for a note: its name, its picture, and its title. -/
def span (anchor : NodeId) : String × String × DOMString :=
  match pg.kind anchor with
  | .processingInstruction target =>
    if target = chars "php" then
      ("php", "chrome://editor/content/images/tag-PHP.gif", pg.data anchor)
    else ("pi", "chrome://editor/content/images/tag-PI.gif", target ++ chars " " ++ pg.data anchor)
  | _ => ("comment", "chrome://editor/content/images/tag-comment.gif", pg.data anchor)

/-- The picture and the element for a note, in no tree. -/
def newNodes (anchor : NodeId) : Page × NodeId × NodeId :=
  let (tag, src, text) := pg.span anchor
  let (pg, image) := pg.createElement "img"
  let pg := pg.setAttribute image "_moz_dummy" (chars "true")
  let (pg, span) := pg.createElementNS (some NVU_NS) tag
  let pg := pg.setAttribute image "src" (chars src)
  let pg := pg.setAttribute span "xmlns" NVU_NS
  (pg.setAttribute span "title" (text.map fun c => if c = 10 then 32 else c), image, span)

/-- A note is put into an element. -/
def wrap (anchor : NodeId) : Option Page := do
  let (pg, image, span) := pg.newNodes anchor
  let parent ← pg.doc.mParent anchor
  let pg ← pg.insertBefore parent span (some anchor)
  let pg ← pg.appendChild span image
  pg.appendChild span anchor

/-- The loop of `MakePhpAndCommentsVisible`. -/
def wrapFrom (element : NodeId) : ℕ → Page → Option NodeId → Option Page
  | _, pg, none => some pg
  | 0, pg, some _ => some pg
  | k + 1, pg, some anchorNode => do
    let tmp := pg.doc.nextNode pg.acceptNote element anchorNode
    let pg ← pg.wrap anchorNode
    wrapFrom element k pg tmp

/-- `MakePhpAndCommentsVisible`. No node is visited twice. -/
def MakePhpAndCommentsVisible (element : NodeId) : Option Page :=
  wrapFrom element pg.doc.fresh pg (pg.doc.nextNode pg.acceptNote element element)

/-! ### Hiding -/

/-- What `MakePhpAndCommentsInvisible` accepts. -/
def acceptSpan (n : NodeId) : Bool := (pg.kind n).isNvu

/-- A child and its next siblings are moved in front of their parent. -/
def moveOut (parent anchor : NodeId) : ℕ → Page → Option NodeId → Option Page
  | _, pg, none => some pg
  | 0, pg, some _ => some pg
  | k + 1, pg, some child => do
    let nextChild := pg.doc.getNextSibling child
    let pg ← pg.insertBefore parent child (some anchor)
    moveOut parent anchor k pg nextChild

/-- An element of the editor is replaced by its children behind the first. -/
def unwrap (anchor : NodeId) : Option Page := do
  let firstChild ← (pg.doc.children anchor).head?
  let parent ← pg.doc.mParent anchor
  let pg ← moveOut parent anchor (pg.doc.children anchor).length pg
    (pg.doc.getNextSibling firstChild)
  pg.removeChild parent anchor

/-- The loop of `MakePhpAndCommentsInvisible`. -/
def unwrapFrom (element : NodeId) : ℕ → Page → Option NodeId → Option Page
  | _, pg, none => some pg
  | 0, pg, some _ => some pg
  | k + 1, pg, some anchorNode => do
    let tmp := pg.doc.nextNode pg.acceptSpan element anchorNode
    let pg ← pg.unwrap anchorNode
    unwrapFrom element k pg tmp

/-- `MakePhpAndCommentsInvisible`. -/
def MakePhpAndCommentsInvisible (element : NodeId) : Option Page :=
  unwrapFrom element pg.doc.fresh pg (pg.doc.nextNode pg.acceptSpan element element)

end Page

end Kompozer.Composer

import Mathlib

/-! Trees of elements, texts and comments. A node is named by its path from the root; a boundary is
a node and an offset in its text or among its children. What is put in at a boundary comes between
the text before and the text behind it, and it moves nothing before it. -/

namespace Kompozer.Composer

inductive DomNode
  | element (nodeName : String) (childNodes : List DomNode)
  | text (cdata : Bool) (data : List Char)
  | comment (data : List Char)

namespace DomNode

def childNodes : DomNode → List DomNode
  | element _ cs => cs
  | text _ _ => []
  | comment _ => []

/-- The number of offsets, less one. -/
def length : DomNode → ℕ
  | element _ cs => cs.length
  | text _ d => d.length
  | comment d => d.length

def isComment : DomNode → Bool
  | comment _ => true
  | element _ _ => false
  | text _ _ => false

/-- The node at the end of a path. -/
def at? : DomNode → List ℕ → Option DomNode
  | n, [] => some n
  | n, i :: p =>
    match n.childNodes[i]? with
    | none => none
    | some c => c.at? p

/-- A change of the node at the end of a path. It may fail. -/
def update (f : DomNode → Option DomNode) : DomNode → List ℕ → Option DomNode
  | n, [] => f n
  | element name cs, i :: p =>
    match cs[i]? with
    | none => none
    | some c => (c.update f p).map fun c => element name (cs.set i c)
  | text _ _, _ :: _ => none
  | comment _, _ :: _ => none

/-! ### Text -/

mutual

/-- The text in a node, in document order. -/
def allText : DomNode → List Char
  | element _ cs => texts cs
  | text _ d => d
  | comment _ => []

def texts : List DomNode → List Char
  | [] => []
  | n :: ns => n.allText ++ texts ns

end

@[simp] theorem texts_nil : texts [] = [] := rfl

@[simp] theorem texts_cons (n : DomNode) (ns : List DomNode) :
    texts (n :: ns) = n.allText ++ texts ns := rfl

@[simp] theorem texts_append (ns ms : List DomNode) : texts (ns ++ ms) = texts ns ++ texts ms := by
  induction ns with
  | nil => rfl
  | cons n ns ih => rw [List.cons_append, texts_cons, ih, texts_cons, List.append_assoc]

/-- The text of a node before an offset. -/
def textTo : DomNode → ℕ → List Char
  | element _ cs, o => texts (cs.take o)
  | text _ d, o => d.take o
  | comment _, _ => []

def textFrom : DomNode → ℕ → List Char
  | element _ cs, o => texts (cs.drop o)
  | text _ d, o => d.drop o
  | comment _, _ => []

theorem textTo_append_textFrom (n : DomNode) (o : ℕ) : n.textTo o ++ n.textFrom o = n.allText := by
  cases n with
  | element name cs =>
    rw [textTo, textFrom, ← texts_append, List.take_append_drop]
    rfl
  | text c d => exact List.take_append_drop o d
  | comment d => rfl

/-- The text before a boundary. -/
def before : DomNode → List ℕ → ℕ → List Char
  | n, [], o => n.textTo o
  | n, i :: p, o =>
    texts (n.childNodes.take i) ++
      match n.childNodes[i]? with
      | none => []
      | some c => c.before p o

/-- The text behind a boundary. -/
def after : DomNode → List ℕ → ℕ → List Char
  | n, [], o => n.textFrom o
  | n, i :: p, o =>
    (match n.childNodes[i]? with
      | none => []
      | some c => c.after p o) ++ texts (n.childNodes.drop (i + 1))

/-! ### Paths -/

theorem at?_cons {n : DomNode} {i : ℕ} {p : List ℕ} {m : DomNode} :
    n.at? (i :: p) = some m ↔ ∃ c, n.childNodes[i]? = some c ∧ c.at? p = some m := by
  rw [at?]
  cases n.childNodes[i]? with
  | none => simp
  | some c => simp

theorem at?_append {n : DomNode} {p q : List ℕ} {m : DomNode} :
    n.at? (p ++ q) = some m ↔ ∃ k, n.at? p = some k ∧ k.at? q = some m := by
  induction p generalizing n with
  | nil => simp [at?]
  | cons i p ih =>
    simp only [List.cons_append, at?_cons, ih]
    constructor
    · rintro ⟨c, hc, k, hk, hm⟩
      exact ⟨k, ⟨c, hc, hk⟩, hm⟩
    · rintro ⟨k, ⟨c, hc, hk⟩, hm⟩
      exact ⟨c, hc, k, hk, hm⟩

theorem childNodes_split {n c : DomNode} {i : ℕ} (h : n.childNodes[i]? = some c) :
    n.childNodes = n.childNodes.take i ++ c :: n.childNodes.drop (i + 1) := by
  obtain ⟨hi, rfl⟩ := List.getElem?_eq_some_iff.mp h
  rw [← List.drop_eq_getElem_cons hi, List.take_append_drop]

theorem allText_eq_texts {n c : DomNode} {i : ℕ} (h : n.childNodes[i]? = some c) :
    n.allText = texts n.childNodes := by
  cases n with
  | element name cs => rfl
  | text d cs => cases h
  | comment d => cases h

theorem before_append_after {n m : DomNode} {p : List ℕ} (h : n.at? p = some m) (o : ℕ) :
    n.before p o ++ n.after p o = n.allText := by
  induction p generalizing n with
  | nil => exact textTo_append_textFrom n o
  | cons i p ih =>
    obtain ⟨c, hc, hm⟩ := at?_cons.mp h
    have hsplit := congrArg texts (childNodes_split hc)
    rw [texts_append, texts_cons] at hsplit
    rw [before, after, hc, allText_eq_texts hc, hsplit, ← ih hm]
    simp

/-- The text before a node, and in it up to a boundary. -/
theorem before_append {n m : DomNode} {p : List ℕ} (h : n.at? p = some m) (q : List ℕ) (o : ℕ) :
    n.before (p ++ q) o = n.before p 0 ++ m.before q o := by
  induction p generalizing n with
  | nil =>
    cases h
    have hzero : m.textTo 0 = [] := by cases m <;> rfl
    rw [List.nil_append, before, hzero, List.nil_append]
  | cons i p ih =>
    obtain ⟨c, hc, hm⟩ := at?_cons.mp h
    rw [List.cons_append, before, before, hc]
    dsimp only
    rw [ih hm, List.append_assoc]

/-- The text before a boundary in a child. -/
theorem before_child {n c : DomNode} {g : List ℕ} {name : String} {cs : List DomNode} {k : ℕ}
    (hg : n.at? g = some (element name cs)) (hk : cs[k]? = some c) (o : ℕ) :
    n.before (g ++ [k]) o = n.before g k ++ c.textTo o := by
  have hplace := before_append hg [] k
  rw [List.append_nil] at hplace
  have hk' : (element name cs).childNodes[k]? = some c := hk
  have hinner : (element name cs).before [k] o = texts (cs.take k) ++ c.textTo o := by
    rw [before, hk']
    rfl
  rw [before_append hg [k] o, hplace, hinner, List.append_assoc]
  rfl

/-! ### Putting something in -/

/-- The text of a text node with some characters more. -/
def insertData (n : DomNode) (offset : ℕ) (arg : List Char) : Option DomNode :=
  match n with
  | text cdata data =>
    if offset ≤ data.length then
      some (text cdata (data.take offset ++ arg ++ data.drop offset))
    else none
  | _ => none

/-- A new child before the one with an index, or behind the last one. -/
def insertBefore (n newChild : DomNode) (index : ℕ) : Option DomNode :=
  match n with
  | element name cs => some (element name (cs.take index ++ newChild :: cs.drop index))
  | _ => none

/-- A mark at an offset of a node, in its text or as a text of its own. -/
def put (mark : List Char) (offset : ℕ) (n : DomNode) : Option DomNode :=
  match n with
  | text cdata data => (text cdata data).insertData offset mark
  | n => n.insertBefore (text false mark) offset

theorem put_text {cdata : Bool} {data : List Char} {offset : ℕ} (h : offset ≤ data.length)
    (mark : List Char) :
    (text cdata data).put mark offset =
      some (text cdata (data.take offset ++ mark ++ data.drop offset)) := if_pos h

theorem update_cons {f : DomNode → Option DomNode} {n n' : DomNode} {i : ℕ} {p : List ℕ} :
    n.update f (i :: p) = some n' ↔ ∃ name cs c c', n = element name cs ∧ cs[i]? = some c ∧
      c.update f p = some c' ∧ n' = element name (cs.set i c') := by
  cases n with
  | element name cs =>
    rw [update]
    cases hc : cs[i]? with
    | none =>
      refine iff_of_false (by simp) ?_
      rintro ⟨name', cs', c, c', heq, hc', -⟩
      cases heq
      rw [hc] at hc'
      cases hc'
    | some c =>
      constructor
      · intro h
        obtain ⟨c', hc', rfl⟩ := Option.map_eq_some_iff.mp h
        exact ⟨name, cs, c, c', rfl, hc, hc', rfl⟩
      · rintro ⟨name', cs', d, c', heq, hd, hc', rfl⟩
        cases heq
        rw [hc] at hd
        cases hd
        exact Option.map_eq_some_iff.mpr ⟨c', hc', rfl⟩
  | text cdata data =>
    refine iff_of_false (by simp [update]) ?_
    rintro ⟨name, cs, c, c', heq, -⟩
    cases heq
  | comment data =>
    refine iff_of_false (by simp [update]) ?_
    rintro ⟨name, cs, c, c', heq, -⟩
    cases heq

/-- A change succeeds where it does at its node. -/
theorem exists_update {f : DomNode → Option DomNode} {n m m' : DomNode} {p : List ℕ}
    (h : n.at? p = some m) (hf : f m = some m') : ∃ n', n.update f p = some n' := by
  induction p generalizing n with
  | nil =>
    cases h
    exact ⟨m', hf⟩
  | cons i p ih =>
    obtain ⟨c, hc, hm⟩ := at?_cons.mp h
    obtain ⟨c', hc'⟩ := ih hm
    cases n with
    | element name cs => exact ⟨_, update_cons.mpr ⟨name, cs, c, c', rfl, hc, hc', rfl⟩⟩
    | text cdata data => cases hc
    | comment data => cases hc

theorem update_congr {f g : DomNode → Option DomNode} {n m : DomNode} {p : List ℕ}
    (h : n.at? p = some m) (hfg : f m = g m) : n.update f p = n.update g p := by
  induction p generalizing n with
  | nil =>
    cases h
    exact hfg
  | cons i p ih =>
    obtain ⟨c, hc, hm⟩ := at?_cons.mp h
    cases n with
    | element name cs =>
      have hcs : cs[i]? = some c := hc
      rw [update, update, hcs]
      dsimp only
      rw [ih hm]
    | text cdata data => cases hc
    | comment data => cases hc

theorem update_at? {f : DomNode → Option DomNode} {n n' : DomNode} {p : List ℕ}
    (h : n.update f p = some n') : ∃ m m', n.at? p = some m ∧ f m = some m' := by
  induction p generalizing n n' with
  | nil => exact ⟨n, n', rfl, h⟩
  | cons i p ih =>
    obtain ⟨name, cs, c, c', rfl, hc, hc', rfl⟩ := update_cons.mp h
    obtain ⟨m, m', hm, hm'⟩ := ih hc'
    exact ⟨m, m', at?_cons.mpr ⟨c, hc, hm⟩, hm'⟩

/-- The node at the end of the path is the changed one. -/
theorem at?_update {f : DomNode → Option DomNode} {n n' m m' : DomNode} {p : List ℕ}
    (h : n.update f p = some n') (hm : n.at? p = some m) (hf : f m = some m') :
    n'.at? p = some m' := by
  induction p generalizing n n' with
  | nil =>
    cases hm
    exact h.symm.trans hf
  | cons i p ih =>
    obtain ⟨name, cs, c, c', rfl, hc, hc', rfl⟩ := update_cons.mp h
    obtain ⟨d, hd, hm⟩ := at?_cons.mp hm
    obtain rfl : c = d := Option.some.inj (hc.symm.trans hd)
    have hchild : (cs.set i c')[i]? = some c' :=
      List.getElem?_set_self (List.getElem?_eq_some_iff.mp hc).1
    exact at?_cons.mpr ⟨c', hchild, ih hc' hm⟩

theorem set_split {cs : List DomNode} {i : ℕ} {c : DomNode} (h : cs[i]? = some c)
    (c' : DomNode) : cs.set i c' = cs.take i ++ c' :: cs.drop (i + 1) :=
  List.set_eq_take_append_cons_drop.trans (if_pos (List.getElem?_eq_some_iff.mp h).1)

/-- A mark comes between the text before its boundary and the text behind it. -/
theorem allText_put {mark : List Char} {n n' : DomNode} {p : List ℕ} {o : ℕ}
    (h : n.update (put mark o) p = some n') : n'.allText = n.before p o ++ mark ++ n.after p o := by
  induction p generalizing n n' with
  | nil =>
    change n.put mark o = some n' at h
    cases n with
    | element name cs =>
      cases h
      simp [allText, before, after, textTo, textFrom]
    | text cdata data =>
      rw [put, insertData] at h
      split_ifs at h
      cases h
      rfl
    | comment data => cases h
  | cons i p ih =>
    obtain ⟨name, cs, c, c', rfl, hc, hc', rfl⟩ := update_cons.mp h
    have hat : (element name cs).childNodes[i]? = some c := hc
    rw [allText, set_split hc, texts_append, texts_cons, ih hc', before, after, hat]
    simp [childNodes]

/-! ### Taking marks out -/

/-- A mark is taken out of a text, and the text with it if nothing else is in it. -/
inductive Unmark (mark : List Char) : DomNode → DomNode → Prop
  | data (cdata : Bool) (d d' : List Char) :
    Unmark mark (text cdata (d ++ mark ++ d')) (text cdata (d ++ d'))
  | node (name : String) (cs cs' : List DomNode) (cdata : Bool) :
    Unmark mark (element name (cs ++ text cdata mark :: cs')) (element name (cs ++ cs'))
  | inside (name : String) (cs cs' : List DomNode) {n n' : DomNode} (h : Unmark mark n n') :
    Unmark mark (element name (cs ++ n :: cs')) (element name (cs ++ n' :: cs'))

theorem unmark_put {mark : List Char} {n n' : DomNode} {p : List ℕ} {o : ℕ}
    (h : n.update (put mark o) p = some n') : Unmark mark n' n := by
  induction p generalizing n n' with
  | nil =>
    change n.put mark o = some n' at h
    cases n with
    | element name cs =>
      cases h
      have htaken := @Unmark.node mark name (cs.take o) (cs.drop o) false
      rwa [List.take_append_drop] at htaken
    | text cdata data =>
      rw [put, insertData] at h
      split_ifs at h
      cases h
      have htaken := @Unmark.data mark cdata (data.take o) (data.drop o)
      rwa [List.take_append_drop] at htaken
    | comment data => cases h
  | cons i p ih =>
    obtain ⟨name, cs, c, c', rfl, hc, hc', rfl⟩ := update_cons.mp h
    have htaken := Unmark.inside name (cs.take i) (cs.drop (i + 1)) (ih hc')
    have hsplit : cs = cs.take i ++ c :: cs.drop (i + 1) :=
      @childNodes_split (element name cs) c i hc
    rwa [← set_split hc, ← hsplit] at htaken

/-! ### Boundaries before a mark -/

/-- The order of boundaries, in which none is before itself. -/
def IsBefore : List ℕ → ℕ → List ℕ → ℕ → Prop
  | [], o, [], o' => o < o'
  | [], o, j :: _, _ => o ≤ j
  | i :: _, _, [], o' => i < o'
  | i :: p, o, j :: q, o' => i < j ∨ i = j ∧ IsBefore p o q o'

/-- The order of boundaries. -/
def NotAfter : List ℕ → ℕ → List ℕ → ℕ → Prop
  | [], o, [], o' => o ≤ o'
  | [], o, j :: _, _ => o ≤ j
  | i :: _, _, [], o' => i < o'
  | i :: p, o, j :: q, o' => i < j ∨ i = j ∧ NotAfter p o q o'

theorem IsBefore.notAfter {p q : List ℕ} {o o' : ℕ} (h : IsBefore p o q o') :
    NotAfter p o q o' := by
  induction p generalizing q with
  | nil =>
    cases q with
    | nil => exact Nat.le_of_lt h
    | cons j q => exact h
  | cons i p ih =>
    cases q with
    | nil => exact h
    | cons j q => exact h.imp id fun h => ⟨h.1, ih h.2⟩

theorem notAfter_refl (p : List ℕ) (o : ℕ) : NotAfter p o p o := by
  induction p with
  | nil => exact le_refl o
  | cons i p ih => exact .inr ⟨rfl, ih⟩

/-- A node is not after what is in it. -/
theorem NotAfter.front {g r q : List ℕ} {i o o' : ℕ} (h : NotAfter (g ++ i :: r) o q o') :
    NotAfter g i q o' := by
  induction g generalizing q with
  | nil =>
    cases q with
    | nil => exact Nat.le_of_lt h
    | cons j q => exact h.elim Nat.le_of_lt fun h => h.1.le
  | cons x g ih =>
    cases q with
    | nil => exact h
    | cons j q => exact h.imp id fun h => ⟨h.1, ih h.2⟩

/-- What is in a node is not after its end. -/
theorem NotAfter.behind {p g r : List ℕ} {o k o' : ℕ} (h : NotAfter p o (g ++ k :: r) o') :
    NotAfter p o g (k + 1) := by
  induction g generalizing p with
  | nil =>
    cases p with
    | nil => exact Nat.le_succ_of_le h
    | cons i p => exact h.elim Nat.lt_succ_of_lt fun h => Nat.lt_succ_of_le h.1.le
  | cons x g ih =>
    cases p with
    | nil => exact h
    | cons i p => exact h.imp id fun h => ⟨h.1, ih h.2⟩

/-- What is not after a boundary in a node is not after the node, or in it. -/
theorem NotAfter.before_node {p g r : List ℕ} {o k o' : ℕ} (h : NotAfter p o (g ++ k :: r) o')
    (hp : ¬ g ++ [k] <+: p) : NotAfter p o g k := by
  induction g generalizing p with
  | nil =>
    cases p with
    | nil => exact h
    | cons i p =>
      refine h.elim id fun h => absurd ?_ hp
      rw [h.1]
      exact ⟨p, rfl⟩
  | cons x g ih =>
    cases p with
    | nil => exact h
    | cons i p =>
      refine h.imp id fun h => ⟨h.1, ih h.2 fun hprefix => hp ?_⟩
      rw [h.1]
      exact List.cons_prefix_cons.mpr ⟨rfl, hprefix⟩

theorem isBefore_append (g : List ℕ) {p q : List ℕ} {o o' : ℕ} :
    IsBefore (g ++ p) o (g ++ q) o' ↔ IsBefore p o q o' := by
  induction g with
  | nil => exact Iff.rfl
  | cons x g ih =>
    rw [← ih]
    exact ⟨fun h => (h.resolve_left (Nat.lt_irrefl x)).2, fun h => .inr ⟨rfl, h⟩⟩

theorem texts_take_prefix (cs : List DomNode) {i j : ℕ} (h : i ≤ j) :
    texts (cs.take i) <+: texts (cs.take j) := by
  obtain ⟨rest, hrest⟩ := List.take_prefix_take_left (l := cs) h
  rw [← hrest, texts_append]
  exact List.prefix_append _ _

theorem before_child_prefix {cs : List DomNode} {c m : DomNode} {i k : ℕ} {p : List ℕ}
    (hc : cs[i]? = some c) (hm : c.at? p = some m) (o : ℕ) (h : i < k) :
    texts (cs.take i) ++ c.before p o <+: texts (cs.take k) := by
  refine List.IsPrefix.trans ?_ ( texts_take_prefix cs h)
  rw [List.take_add_one, hc, texts_append, Option.toList_some, texts_cons, texts_nil,
    List.append_nil, List.prefix_append_right_inj, ← before_append_after hm o]
  exact List.prefix_append _ _

/-- Behind a boundary goes on what is before another one that is not before it. -/
theorem NotAfter.before_prefix {n m m' : DomNode} {p q : List ℕ} {o o' : ℕ}
    (h : NotAfter p o q o') (hm : n.at? p = some m) (hm' : n.at? q = some m') :
    n.before p o <+: n.before q o' := by
  induction p generalizing n q with
  | nil =>
    cases q with
    | nil =>
      cases n with
      | element name cs => exact texts_take_prefix cs h
      | text cdata data => exact List.take_prefix_take_left h
      | comment data => exact List.prefix_refl _
    | cons j q =>
      obtain ⟨c, hc, -⟩ := at?_cons.mp hm'
      cases n with
      | element name cs => exact ( texts_take_prefix cs h).trans (List.prefix_append _ _)
      | text cdata data => cases hc
      | comment data => cases hc
  | cons i p ih =>
    obtain ⟨c, hc, hcm⟩ := at?_cons.mp hm
    rw [before, hc]
    dsimp only
    cases q with
    | nil =>
      cases n with
      | element name cs => exact before_child_prefix hc hcm o h
      | text cdata data => cases hc
      | comment data => cases hc
    | cons j q =>
      obtain ⟨d, hd, hdm⟩ := at?_cons.mp hm'
      rcases h with hlt | ⟨rfl, h⟩
      · exact ( before_child_prefix hc hcm o hlt).trans (List.prefix_append _ _)
      · obtain rfl : c = d := Option.some.inj (hc.symm.trans hd)
        rw [before, hc, List.prefix_append_right_inj]
        exact ih h hcm hdm

/-- What becomes of a node when something is put in not before it: it has as many children more,
and its text is not shorter. -/
inductive Grown (extra : ℕ) : DomNode → DomNode → Prop
  | element (name : String) {cs cs' : List DomNode} (h : cs'.length = cs.length + extra) :
    Grown extra (element name cs) (element name cs')
  | text (cdata : Bool) {d d' : List Char} (h : d.length ≤ d'.length) :
    Grown extra (text cdata d) (text cdata d')
  | comment (d : List Char) : Grown extra (comment d) (comment d)

theorem Grown.refl (n : DomNode) : Grown 0 n n := by
  cases n with
  | element name cs => exact .element name rfl
  | text cdata d => exact .text cdata (le_refl _)
  | comment d => exact .comment d

theorem Grown.text_iff {e : ℕ} {m m' : DomNode} (h : Grown e m m') :
    (∃ cdata data, m' = DomNode.text cdata data) ↔ ∃ cdata data, m = DomNode.text cdata data := by
  cases h with
  | element name h => simp
  | text cdata h => simp
  | comment d => simp

theorem Grown.length_le {e : ℕ} {m m' : DomNode} (h : Grown e m m') : m.length ≤ m'.length := by
  cases h with
  | element name h => exact (Nat.le_add_right _ _).trans_eq h.symm
  | text cdata h => exact h
  | comment d => exact le_refl _

theorem Grown.isComment {e : ℕ} {m m' : DomNode} (h : Grown e m m') :
    m'.isComment = m.isComment := by
  cases h with
  | element name h => rfl
  | text cdata h => rfl
  | comment d => rfl

/-- A mark can be put at every offset of a node that is no comment. -/
theorem exists_put (mark : List Char) {n : DomNode} {o : ℕ} (hkind : n.isComment = false)
    (ho : o ≤ n.length) : ∃ n', n.put mark o = some n' := by
  cases n with
  | element name cs => exact ⟨_, rfl⟩
  | text cdata data => exact ⟨_, put_text ho mark⟩
  | comment d => cases hkind

/-- Nothing is moved before a mark. -/
theorem put_notAfter {mark : List Char} {n n' m : DomNode} {p q : List ℕ} {o o' : ℕ}
    (h : n.update (put mark o') q = some n') (hle : NotAfter p o q o') (hm : n.at? p = some m)
    (ho : o ≤ m.length) :
    n'.before p o = n.before p o ∧
      ∃ m', n'.at? p = some m' ∧ Grown (if p = q then 1 else 0) m m' := by
  induction p generalizing n n' q with
  | nil =>
    cases hm
    cases q with
    | nil =>
      change m.put mark o' = some n' at h
      rw [if_pos rfl]
      cases m with
      | element name cs =>
        cases h
        have hlen : o ≤ (cs.take o').length := by
          rw [List.length_take]
          exact le_min hle ho
        refine ⟨?_, _, rfl, .element name (by simp; omega)⟩
        rw [before, before, textTo, textTo, List.take_append_of_le_length hlen, List.take_take,
          min_eq_left hle]
      | text cdata data =>
        rw [put, insertData] at h
        split_ifs at h with hoffset
        cases h
        have hlen : o ≤ (data.take o').length := by
          rw [List.length_take]
          exact le_min hle ho
        refine ⟨?_, _, rfl, .text cdata (by simp; omega)⟩
        rw [before, before, textTo, textTo, List.append_assoc,
          List.take_append_of_le_length hlen, List.take_take, min_eq_left hle]
      | comment data => cases h
    | cons j q =>
      obtain ⟨name, cs, c, c', rfl, hc, hc', rfl⟩ := update_cons.mp h
      refine ⟨?_, _, rfl, .element name (by simp)⟩
      rw [before, before, textTo, textTo, List.take_set_of_le hle]
  | cons i p ih =>
    obtain ⟨c, hc, hcm⟩ := at?_cons.mp hm
    cases q with
    | nil =>
      change n.put mark o' = some n' at h
      rw [if_neg (by simp)]
      cases n with
      | element name cs =>
        cases h
        have hi : i < cs.length := (List.getElem?_eq_some_iff.mp hc).1
        have hlen : i < (cs.take o').length := by
          rw [List.length_take]
          exact lt_min hle hi
        have hchild : (cs.take o' ++ text false mark :: cs.drop o')[i]? = some c := by
          rw [List.getElem?_append_left hlen, List.getElem?_take_of_lt hle]
          exact hc
        refine ⟨?_, m, at?_cons.mpr ⟨c, hchild, hcm⟩, .refl m⟩
        have hbefore : (cs.take o' ++ text false mark :: cs.drop o').take i = cs.take i := by
          rw [List.take_append_of_le_length hlen.le, List.take_take, min_eq_left (Nat.le_of_lt hle)]
        rw [before, before, childNodes, childNodes, hchild, hbefore]
        rw [childNodes] at hc
        rw [hc]
      | text cdata data => cases hc
      | comment data => cases hc
    | cons j q =>
      obtain ⟨name, cs, d, d', rfl, hd, hd', rfl⟩ := update_cons.mp h
      have hcs : cs[i]? = some c := hc
      rw [before, before, childNodes, childNodes]
      rcases hle with hlt | ⟨rfl, hle⟩
      · have hchild : (cs.set j d')[i]? = some c := by
          rw [List.getElem?_set_ne (by omega), hcs]
        rw [if_neg (by simp; omega), hchild, hcs, List.take_set_of_le hlt.le]
        exact ⟨rfl, m, at?_cons.mpr ⟨c, hchild, hcm⟩, .refl m⟩
      · obtain rfl : c = d := Option.some.inj (hcs.symm.trans hd)
        have hchild : (cs.set i d')[i]? = some d' :=
          List.getElem?_set_self (List.getElem?_eq_some_iff.mp hcs).1
        obtain ⟨hsame, m', hm', hgrown⟩ := ih hd' hle hcm
        rw [hchild, hcs, List.take_set_of_le (le_refl _)]
        dsimp only
        refine ⟨by rw [hsame], m', at?_cons.mpr ⟨d', hchild, hm'⟩, ?_⟩
        simpa using hgrown

end DomNode

end Kompozer.Composer

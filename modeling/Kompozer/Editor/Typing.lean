import Kompozer.Editor.Txns

/-! Typing: the transactions of plain input (`InsertTextTxn.cpp`) and of input methods
(`IMETextTxn.cpp`), what they merge into, and what a chain of merged ones undoes and redoes.
Ranges of the composition and the caret are not part of it. -/

namespace Kompozer.Editor

open Dom Document NsResult

/-! ### Merging -/

namespace InsertTextTxn

/-- `IsSequentialInsert`. The offsets are `PRUint32`. -/
def isSequentialInsert (t aOtherTxn : InsertTextTxn) : Bool :=
  aOtherTxn.mElement = t.mElement ∧
    aOtherTxn.mOffset = (t.mOffset + t.mStringToInsert.length) % 2 ^ 32

def absorb (t otherInsTxn : InsertTextTxn) : InsertTextTxn × Bool :=
  if t.isSequentialInsert otherInsTxn then
    ({ t with mStringToInsert := t.mStringToInsert ++ otherInsTxn.mStringToInsert }, true)
  else (t, false)

/-- What `QueryInterface` says about another class. -/
def NS_NOINTERFACE : NsResult := .error 0x80004002

/-- `Merge`. The name of an aggregate tells whether it is one of typing. -/
def merge (t : InsertTextTxn) (aTransaction : EditTxn) (isInsertTextTxnName : Bool) :
    NsResult × InsertTextTxn × Bool :=
  match aTransaction with
  | .insertText otherInsTxn => (.ok, t.absorb otherInsTxn)
  | .aggregate mChildren =>
    if isInsertTextTxnName then
      match mChildren.head? with
      | none => (.ok, t, false)
      | some (.insertText otherInsertTxn) => (.ok, t.absorb otherInsertTxn)
      | some _ => (NS_NOINTERFACE, t, false)
    else (.ok, t, false)
  | _ => (.ok, t, false)

end InsertTextTxn

/-- `IMETextTxn`. The selection controller is a weak reference that may be gone. -/
structure IMETextTxn where
  mElement : NodeId
  mOffset : ℕ
  mReplaceLength : ℕ
  mStringToInsert : List PRUnichar
  mSelConWeak : Bool
  mFixed : Bool
  deriving DecidableEq

namespace IMETextTxn

def doTransaction (t : IMETextTxn) (d : Document) : NsResult × Document :=
  if !t.mSelConWeak then (NS_ERROR_NOT_INITIALIZED, d)
  else if t.mReplaceLength = 0 then d.insertData t.mElement t.mOffset t.mStringToInsert
  else d.replaceData t.mElement t.mOffset t.mReplaceLength t.mStringToInsert

def undoTransaction (t : IMETextTxn) (d : Document) : NsResult × Document :=
  if !t.mSelConWeak then (NS_ERROR_NOT_INITIALIZED, d)
  else d.deleteData t.mElement t.mOffset t.mStringToInsert.length

/-- `EditTxn::RedoTransaction`. -/
def redoTransaction (t : IMETextTxn) (d : Document) : NsResult × Document := t.doTransaction d

/-- `Merge`, with another transaction of this class if it is one. -/
def merge (t : IMETextTxn) (otherTxn : Option IMETextTxn) : IMETextTxn × Bool :=
  -- check to make sure we aren't fixed, if we are then nothing get's absorbed
  if t.mFixed then (t, false)
  else match otherTxn with
    | none => (t, false)
    | some otherTxn => ({ t with mStringToInsert := otherTxn.mStringToInsert }, true)

def markFixed (t : IMETextTxn) : IMETextTxn := { t with mFixed := true }

end IMETextTxn

/-! ### Chains -/

section Chains
variable {T : Type}

/-- The transactions are done in order, until one fails. -/
def doAll (doTransaction : T → Document → NsResult × Document) :
    List T → Document → NsResult × Document
  | [], d => (.ok, d)
  | t :: ts, d =>
    match doTransaction t d with
    | (.ok, d) => doAll doTransaction ts d
    | r => r

/-- They are undone in reverse order. -/
def undoAll (undoTransaction : T → Document → NsResult × Document) :
    List T → Document → NsResult × Document
  | [], d => (.ok, d)
  | t :: ts, d =>
    match undoAll undoTransaction ts d with
    | (.ok, d) => undoTransaction t d
    | r => r

/-- The first transaction with the others merged into it, if it takes all of them. -/
def mergeAll (merge : T → T → T × Bool) : T → List T → Option T
  | m, [] => some m
  | m, t :: ts => if (merge m t).2 then mergeAll merge (merge m t).1 ts else none

variable {doT undoT : T → Document → NsResult × Document} {merge : T → T → T × Bool}
  {t m m' : T} {ts : List T} {d d' : Document}

theorem doAll_cons (h : doAll doT (t :: ts) d = (.ok, d')) :
    ∃ d₁, doT t d = (.ok, d₁) ∧ doAll doT ts d₁ = (.ok, d') := by
  rw [doAll] at h
  split at h
  · exact ⟨_, ‹_›, h⟩
  · rename_i hne
    exact absurd h (hne d')

theorem doAll_cons_of {d₁ : Document} (h : doT t d = (.ok, d₁)) :
    doAll doT (t :: ts) d = doAll doT ts d₁ := by
  rw [doAll, h]

theorem undoAll_cons_of {d₁ : Document} (h : undoAll undoT ts d = (.ok, d₁)) :
    undoAll undoT (t :: ts) d = undoT t d₁ := by
  rw [undoAll, h]

theorem mergeAll_cons (h : mergeAll merge m (t :: ts) = some m') :
    (merge m t).2 = true ∧ mergeAll merge (merge m t).1 ts = some m' := by
  rw [mergeAll] at h
  split_ifs at h with hm
  exact ⟨hm, h⟩

end Chains

/-! ### The text of one node -/

variable {d d' : Document} {n : NodeId} {u A S B s : List PRUnichar} {o k : ℕ}

theorem replaceData_inside (ht : d.isText n = true) (ho : o < u.length) :
    (d.setText n u).replaceData n o k s =
      (.ok, d.setText n (u.take o ++ s ++ u.drop (min ((o + k) % 2 ^ 32) u.length))) := by
  have hmin : (if (o + k) % 2 ^ 32 > u.length then u.length else (o + k) % 2 ^ 32) =
      min ((o + k) % 2 ^ 32) u.length := by
    split_ifs <;> omega
  rw [replaceData, data_setText ht]
  simp only [if_neg (Nat.lt_asymm ho), if_neg (Nat.ne_of_lt ho), hmin, setText_setText]

theorem replaceData_text (ht : d.isText n = true) (ho : o ≤ u.length)
    (hfit : o < u.length → o + k < 2 ^ 32) :
    (d.setText n u).replaceData n o k s =
      (.ok, d.setText n (u.take o ++ s ++ u.drop (min (o + k) u.length))) := by
  rcases Nat.lt_or_eq_of_le ho with ho | rfl
  · rw [replaceData_inside ht ho, Nat.mod_eq_of_lt (hfit ho)]
  · rw [replaceData, data_setText ht]
    simp only [Nat.lt_irrefl, if_false, if_true, appendData, data_setText ht, setText_setText,
      List.take_length, Nat.min_eq_right (Nat.le_add_right _ _), List.drop_length,
      List.append_nil, gt_iff_lt]

theorem insertData_text (ht : d.isText n = true) (ho : o ≤ u.length) (hfit : o < 2 ^ 32) :
    (d.setText n u).insertData n o s = (.ok, d.setText n (u.take o ++ s ++ u.drop o)) := by
  have hdata : (d.setText n u).data n = u.take o ++ u.drop o := by
    rw [data_setText ht, List.take_append_drop]
  rw [insertData_eq hdata (by rw [List.length_take, Nat.min_eq_left ho]) hfit, setText_setText]

/-- A string is put in behind what is typed. -/
theorem insertData_typed (ht : d.isText n = true) (ho : o = A.length + S.length)
    (hfit : o < 2 ^ 32) : (d.setText n (A ++ S ++ B)).insertData n o s =
      (.ok, d.setText n (A ++ (S ++ s) ++ B)) := by
  have hdata : (d.setText n (A ++ S ++ B)).data n = (A ++ S) ++ B := data_setText ht _
  rw [insertData_eq hdata (by rw [List.length_append, ho]) hfit, setText_setText,
    List.append_assoc A S s]

/-- It is taken out again. -/
theorem deleteData_typed (ht : d.isText n = true) (ho : o = A.length + S.length)
    (hfit : o + s.length < 2 ^ 32) : (d.setText n (A ++ (S ++ s) ++ B)).deleteData n o s.length =
      (.ok, d.setText n (A ++ S ++ B)) := by
  have hdata : (d.setText n (A ++ (S ++ s) ++ B)).data n = (A ++ S) ++ s ++ B := by
    rw [data_setText ht, List.append_assoc A S s]
  rw [deleteData_eq hdata (by rw [List.length_append, ho]) rfl hfit, setText_setText]

theorem le_of_replaceData_ok (h : (d.replaceData n o k s).1 = .ok) : o ≤ (d.data n).length := by
  by_contra ho
  rw [replaceData, if_pos (by omega)] at h
  exact absurd h (by simp [NS_ERROR_DOM_INDEX_SIZE_ERR])

/-! ### Plain input -/

namespace InsertTextTxn

variable {t m m' : InsertTextTxn} {ts : List InsertTextTxn}

/-- `Merge` with another transaction of this class. -/
def mergeNext (t next : InsertTextTxn) : InsertTextTxn × Bool :=
  (t.merge (.insertText next) false).2

theorem mergeNext_true (h : (m.mergeNext t).2 = true) :
    t.mElement = m.mElement ∧
      t.mOffset = (m.mOffset + m.mStringToInsert.length) % 2 ^ 32 ∧
      (m.mergeNext t).1 =
        { m with mStringToInsert := m.mStringToInsert ++ t.mStringToInsert } := by
  simp only [mergeNext, merge, absorb] at h ⊢
  split_ifs at h ⊢ with hseq
  simp only [isSequentialInsert, decide_eq_true_eq] at hseq
  exact ⟨hseq.1, hseq.2, rfl⟩

/-- Typing makes the text longer. -/
theorem length_le_doAll (ht : d.isText n = true) (hn : m.mElement = n)
    (hm : mergeAll mergeNext m ts = some m')
    (hdo : doAll doTransaction ts (d.setText n u) = (.ok, d')) :
    u.length ≤ (d'.data n).length := by
  induction ts generalizing m u with
  | nil =>
    obtain rfl : d.setText n u = d' := congrArg Prod.snd hdo
    exact Nat.le_of_eq (congrArg List.length (data_setText ht u).symm)
  | cons t ts ih =>
    obtain ⟨hacc, hrest⟩ := mergeAll_cons hm
    obtain ⟨helem, hoff, heq⟩ := mergeNext_true hacc
    obtain ⟨d₁, ht₁, hdo⟩ := doAll_cons hdo
    rw [doTransaction, helem, hn] at ht₁
    have hle : t.mOffset ≤ u.length := by
      have := le_of_replaceData_ok (congrArg Prod.fst ht₁)
      rwa [data_setText ht] at this
    rw [insertData_text ht hle (hoff ▸ Nat.mod_lt _ (by decide)), Prod.mk.injEq] at ht₁
    rw [← ht₁.2] at hdo
    rw [heq] at hrest
    refine Nat.le_trans ?_ (ih (m := { m with
      mStringToInsert := m.mStringToInsert ++ t.mStringToInsert }) hn hrest hdo)
    simp only [List.length_append, List.length_take, List.length_drop]
    omega

/-- A chain behind what is typed already: what it makes of the text, and back. -/
theorem doAll_typed (ht : d.isText n = true) (hn : m.mElement = n) (ho : m.mOffset = A.length)
    (hm : mergeAll mergeNext m ts = some m') (hd' : d'.Fits)
    (hdo : doAll doTransaction ts (d.setText n (A ++ m.mStringToInsert ++ B)) = (.ok, d')) :
    d' = d.setText n (A ++ m'.mStringToInsert ++ B) ∧ m'.mElement = n ∧ m'.mOffset = A.length ∧
      undoAll undoTransaction ts d' = (.ok, d.setText n (A ++ m.mStringToInsert ++ B)) := by
  induction ts generalizing m with
  | nil =>
    obtain rfl : m = m' := Option.some.inj hm
    obtain rfl : d.setText n (A ++ m.mStringToInsert ++ B) = d' := congrArg Prod.snd hdo
    exact ⟨rfl, hn, ho, rfl⟩
  | cons t ts ih =>
    have hlen := length_le_doAll ht hn hm hdo
    have hshort := hd' n
    simp only [List.length_append] at hlen
    obtain ⟨hacc, hrest⟩ := mergeAll_cons hm
    obtain ⟨helem, hoff, heq⟩ := mergeNext_true hacc
    obtain ⟨d₁, ht₁, hdo⟩ := doAll_cons hdo
    rw [ho, Nat.mod_eq_of_lt (by omega)] at hoff
    rw [doTransaction, helem, hn, insertData_typed ht hoff (by omega), Prod.mk.injEq] at ht₁
    rw [← ht₁.2] at hdo
    rw [heq] at hrest
    have hlen' := length_le_doAll (m := { m with
      mStringToInsert := m.mStringToInsert ++ t.mStringToInsert }) ht hn hrest hdo
    simp only [List.length_append] at hlen'
    obtain ⟨hd, hn', ho', hundo⟩ := ih (m := { m with
      mStringToInsert := m.mStringToInsert ++ t.mStringToInsert }) hn ho hrest hdo
    refine ⟨hd, hn', ho', ?_⟩
    rw [undoAll_cons_of hundo, undoTransaction, helem, hn]
    exact deleteData_typed ht hoff (by omega)

/-- The text before a chain comes back, from the merged transaction as from the chain, and the
merged transaction makes the text of the chain. -/
theorem doAll_merged (ht : d.isText t.mElement = true) (hd : d.Fits) (hd' : d'.Fits)
    (hm : mergeAll mergeNext t ts = some m)
    (hdo : doAll doTransaction (t :: ts) d = (.ok, d')) :
    m.undoTransaction d' = (.ok, d) ∧ undoAll undoTransaction (t :: ts) d' = (.ok, d) ∧
      m.doTransaction d = (.ok, d') := by
  have hshort := hd t.mElement
  have hself : d.setText t.mElement (d.data t.mElement) = d := setText_eq_self rfl
  obtain ⟨d₁, ht₁, hrest⟩ := doAll_cons hdo
  have hle : t.mOffset ≤ (d.data t.mElement).length :=
    le_of_replaceData_ok (congrArg Prod.fst ht₁)
  generalize hA : (d.data t.mElement).take t.mOffset = A
  generalize hB : (d.data t.mElement).drop t.mOffset = B
  have hAB : d = d.setText t.mElement (A ++ [] ++ B) := by
    rw [List.append_nil, ← hA, ← hB, List.take_append_drop, hself]
  have ho : t.mOffset = A.length := by
    rw [← hA, List.length_take, Nat.min_eq_left hle]
  have hins : ∀ s, d.insertData t.mElement t.mOffset s =
      (.ok, d.setText t.mElement (A ++ s ++ B)) := by
    intro s
    have h := insertData_typed (B := B) (s := s) (S := []) ht ho (by omega)
    rwa [← hAB] at h
  have hdel : ∀ s : List PRUnichar, (A ++ s ++ B).length < 2 ^ 29 →
      (d.setText t.mElement (A ++ s ++ B)).deleteData t.mElement t.mOffset s.length = (.ok, d) := by
    intro s hs
    simp only [List.length_append] at hs
    have h := deleteData_typed (B := B) (s := s) (S := []) ht ho (by omega)
    rwa [← hAB] at h
  rw [doTransaction, hins, Prod.mk.injEq] at ht₁
  rw [← ht₁.2] at hrest
  obtain ⟨hd'eq, hn', ho', hundo⟩ := doAll_typed ht rfl ho hm hd' hrest
  have hm' : (A ++ m.mStringToInsert ++ B).length < 2 ^ 29 := by
    have := hd' t.mElement
    rwa [hd'eq, data_setText ht] at this
  have ht' : (A ++ t.mStringToInsert ++ B).length < 2 ^ 29 := by
    have := length_le_doAll ht rfl hm hrest
    have := hd' t.mElement
    omega
  refine ⟨?_, ?_, ?_⟩
  · rw [undoTransaction, hn', ho', ← ho, hd'eq]
    exact hdel _ hm'
  · rw [undoAll_cons_of hundo, undoTransaction]
    exact hdel _ ht'
  · rw [doTransaction, hn', ho', ← ho, hd'eq]
    exact hins _

end InsertTextTxn

/-! ### Input methods -/

namespace IMETextTxn

variable {t m m' p : IMETextTxn} {ts : List IMETextTxn}

def mergeNext (t next : IMETextTxn) : IMETextTxn × Bool := t.merge (some next)

theorem mergeNext_true (h : (m.mergeNext t).2 = true) :
    (m.mergeNext t).1 = { m with mStringToInsert := t.mStringToInsert } := by
  simp only [mergeNext, merge] at h ⊢
  split_ifs at h ⊢
  rfl

/-- The number of characters that a replacement takes out of a text of a length. -/
def replacedLength (t : IMETextTxn) (length : ℕ) : ℕ :=
  if t.mOffset < length then min (t.mOffset + t.mReplaceLength) length - t.mOffset else 0

/-- The next transaction of a composition replaces the string of the one before. The length is
that of the text without the composition. -/
structure Composes (length : ℕ) (m t : IMETextTxn) : Prop where
  element : t.mElement = m.mElement
  offset : t.mOffset = m.mOffset
  fits : t.mOffset < length + m.mStringToInsert.length →
    t.mOffset + t.mReplaceLength < 2 ^ 32
  replaces : t.replacedLength (length + m.mStringToInsert.length) = m.mStringToInsert.length

def ComposesAll (length : ℕ) : IMETextTxn → List IMETextTxn → Prop
  | _, [] => True
  | m, t :: ts => Composes length m t ∧ ComposesAll length (m.mergeNext t).1 ts

theorem doTransaction_eq (h : t.mSelConWeak = true) (d : Document) :
    t.doTransaction d = d.replaceData t.mElement t.mOffset t.mReplaceLength t.mStringToInsert := by
  rw [doTransaction, if_neg (by simp [h])]
  split_ifs with hz
  · rw [insertData, hz]
  · rfl

theorem undoTransaction_eq (h : t.mSelConWeak = true) (d : Document) :
    t.undoTransaction d = d.deleteData t.mElement t.mOffset t.mStringToInsert.length :=
  if_neg (by simp [h])

theorem alive_of_ok (h : (t.doTransaction d).1 = .ok) : t.mSelConWeak = true := by
  by_contra hn
  rw [doTransaction, if_pos (by simpa using hn)] at h
  exact absurd h (by simp [NS_ERROR_NOT_INITIALIZED])

/-- A composition string takes the place of another. -/
theorem doTransaction_typed (ht : d.isText n = true) (hn : t.mElement = n)
    (ho : t.mOffset = A.length) (halive : t.mSelConWeak = true)
    (hfit : t.mOffset < (A ++ S ++ B).length → t.mOffset + t.mReplaceLength < 2 ^ 32)
    (hrep : t.replacedLength (A ++ S ++ B).length = S.length) :
    t.doTransaction (d.setText n (A ++ S ++ B)) =
      (.ok, d.setText n (A ++ t.mStringToInsert ++ B)) := by
  have hlen : (A ++ S ++ B).length = A.length + S.length + B.length := by
    simp only [List.length_append]
  have hend : min (t.mOffset + t.mReplaceLength) (A ++ S ++ B).length = (A ++ S).length := by
    rw [replacedLength, hlen] at hrep
    rw [hlen, List.length_append]
    split_ifs at hrep <;> omega
  have htake : (A ++ S ++ B).take t.mOffset = A := by
    rw [ho, List.append_assoc, List.take_left]
  rw [doTransaction_eq halive, hn, replaceData_text ht (by omega) hfit, hend, htake,
    List.drop_left]

/-- A chain of a composition: the string of the last transaction stands in place of the first. -/
theorem doAll_typed (ht : d.isText n = true) (hn : m.mElement = n) (ho : m.mOffset = A.length)
    (hm : mergeAll mergeNext m ts = some m') (hc : ComposesAll (A ++ B).length m ts)
    (hdo : doAll doTransaction ts (d.setText n (A ++ m.mStringToInsert ++ B)) = (.ok, d')) :
    d' = d.setText n (A ++ m'.mStringToInsert ++ B) ∧
      m' = { m with mStringToInsert := m'.mStringToInsert } := by
  induction ts generalizing m with
  | nil =>
    obtain rfl : m = m' := Option.some.inj hm
    exact ⟨(congrArg Prod.snd hdo).symm, rfl⟩
  | cons t ts ih =>
    obtain ⟨hacc, hrest⟩ := mergeAll_cons hm
    obtain ⟨hstep, hsteps⟩ := hc
    obtain ⟨d₁, ht₁, hdo⟩ := doAll_cons hdo
    have hlen : (A ++ m.mStringToInsert ++ B).length =
        (A ++ B).length + m.mStringToInsert.length := by
      simp only [List.length_append]
      omega
    rw [doTransaction_typed ht (hstep.element.trans hn) (hstep.offset.trans ho)
      (alive_of_ok (congrArg Prod.fst ht₁)) (hlen ▸ hstep.fits) (hlen ▸ hstep.replaces),
      Prod.mk.injEq] at ht₁
    rw [← ht₁.2] at hdo
    rw [mergeNext_true hacc] at hrest hsteps
    obtain ⟨h₁, h₂⟩ := ih (m := { m with mStringToInsert := t.mStringToInsert }) hn ho hrest hsteps
      hdo
    exact ⟨h₁, h₂⟩

/-- A composition that replaced nothing and whose transactions replace one another: the merged
transaction undoes and redoes all of it. -/
theorem doAll_merged (ht : d.isText t.mElement = true) (hd : d.Fits) (hd' : d'.Fits)
    (hm : mergeAll mergeNext t ts = some m)
    (hfirst : t.mOffset < (d.data t.mElement).length → t.mReplaceLength = 0)
    (hc : ComposesAll (d.data t.mElement).length t ts)
    (hdo : doAll doTransaction (t :: ts) d = (.ok, d')) :
    m.undoTransaction d' = (.ok, d) ∧ m.redoTransaction d = (.ok, d') := by
  have hshort := hd t.mElement
  have hself : d.setText t.mElement (d.data t.mElement) = d := setText_eq_self rfl
  obtain ⟨d₁, ht₁, hrest⟩ := doAll_cons hdo
  have halive := alive_of_ok (congrArg Prod.fst ht₁)
  have hle : t.mOffset ≤ (d.data t.mElement).length := by
    rw [doTransaction_eq halive] at ht₁
    exact le_of_replaceData_ok (congrArg Prod.fst ht₁)
  obtain ⟨A, B, hcut, hA⟩ := exists_cut hle
  have hAB : d = d.setText t.mElement (A ++ [] ++ B) := by
    rw [List.append_nil, ← hcut, hself]
  have hins : ∀ s, { t with mStringToInsert := s }.doTransaction d =
      (.ok, d.setText t.mElement (A ++ s ++ B)) := by
    intro s
    have h := doTransaction_typed (t := { t with mStringToInsert := s }) (S := []) (B := B)
      ht rfl hA.symm halive (by
        intro h
        rw [List.append_nil, ← hcut] at h
        have := hfirst h
        simp only at h ⊢
        omega) (by
        rw [List.append_nil, ← hcut, replacedLength]
        split_ifs with h
        · simp only at h ⊢
          rw [hfirst h, Nat.add_zero, Nat.min_eq_left (Nat.le_of_lt h), Nat.sub_self]
          rfl
        · rfl)
    rwa [← hAB] at h
  rw [show t = { t with mStringToInsert := t.mStringToInsert } from rfl, hins,
    Prod.mk.injEq] at ht₁
  rw [← ht₁.2] at hrest
  obtain ⟨hd'eq, hmeq⟩ := doAll_typed ht rfl hA.symm hm (hcut ▸ hc) hrest
  have hm' := hd' t.mElement
  rw [hd'eq, data_setText ht, List.length_append, List.length_append, hA] at hm'
  constructor
  · rw [hmeq, undoTransaction_eq (t := { t with mStringToInsert := m.mStringToInsert }) halive,
      hd'eq]
    have h := deleteData_typed (B := B) (s := m.mStringToInsert) (S := []) ht hA.symm
      (by omega)
    rwa [← hAB] at h
  · rw [hmeq, redoTransaction, hd'eq]
    exact hins _

end IMETextTxn

/-! ### Merged chains -/

/-- A chain of plain input is undone and redone by the transaction it merged into. So is a
composition that replaced nothing at first, when each further transaction is for the same place
and replaces the string of the one before. -/
theorem merged_chains (hd : d.Fits) (hd' : d'.Fits) :
    (∀ t ts m, d.isText t.mElement = true → mergeAll InsertTextTxn.mergeNext t ts = some m →
      doAll InsertTextTxn.doTransaction (t :: ts) d = (.ok, d') →
      m.undoTransaction d' = undoAll InsertTextTxn.undoTransaction (t :: ts) d' ∧
        m.doTransaction (m.undoTransaction d').2 =
          doAll InsertTextTxn.doTransaction (t :: ts) (m.undoTransaction d').2) ∧
    ∀ t ts m, d.isText t.mElement = true → mergeAll IMETextTxn.mergeNext t ts = some m →
      doAll IMETextTxn.doTransaction (t :: ts) d = (.ok, d') →
      (t.mOffset < (d.data t.mElement).length → t.mReplaceLength = 0) →
      IMETextTxn.ComposesAll (d.data t.mElement).length t ts →
      m.undoTransaction d' = (.ok, d) ∧ m.redoTransaction d = (.ok, d') := by
  constructor
  · intro t ts m ht hm hdo
    obtain ⟨hundo, hchain, hredo⟩ := InsertTextTxn.doAll_merged ht hd hd' hm hdo
    rw [hchain, hundo]
    exact ⟨rfl, hredo.trans hdo.symm⟩
  · intro t ts m ht hm hdo hfirst hc
    exact IMETextTxn.doAll_merged ht hd hd' hm hfirst hc hdo

/-- A body with a text of three characters. -/
def threeLetters : Document where
  mParent n := if n = 1 then some 0 else none
  body n := if n = 0 then .element "body" [1] else .text (if n = 1 then [97, 98, 99] else [])
  fresh := 2

theorem threeLetters_fits : threeLetters.Fits := by
  intro n
  simp only [data, threeLetters]
  split_ifs <;> simp [Body.data]

theorem setText_fits {n : NodeId} (hd : d.Fits) (hu : u.length < 2 ^ 29) :
    (d.setText n u).Fits := by
  intro m
  by_cases hm : m = n
  · subst hm
    cases ht : d.isText m with
    | true => rwa [data_setText ht]
    | false => rw [setText_of_not_isText ht]; exact hd m
  · rw [data, body_setText, if_neg hm]
    exact hd m

/-- Two letters typed after the first one, and a composition of two strings there. -/
theorem merged_chains_sample :
    (InsertTextTxn.undoTransaction ⟨1, 1, [120, 121]⟩
        (threeLetters.setText 1 [97, 120, 121, 98, 99])).2 =
      (undoAll InsertTextTxn.undoTransaction [⟨1, 1, [120]⟩, ⟨1, 2, [121]⟩]
        (threeLetters.setText 1 [97, 120, 121, 98, 99])).2 ∧
    IMETextTxn.undoTransaction ⟨1, 1, 0, [122], true, false⟩
        (threeLetters.setText 1 [97, 122, 98, 99]) = (.ok, threeLetters) := by
  have hins : doAll InsertTextTxn.doTransaction [⟨1, 1, [120]⟩, ⟨1, 2, [121]⟩] threeLetters =
      (.ok, threeLetters.setText 1 [97, 120, 121, 98, 99]) := by
    have hfst : InsertTextTxn.doTransaction ⟨1, 1, [120]⟩ threeLetters =
      (.ok, threeLetters.setText 1 [97, 120, 98, 99]) := rfl
    have hsnd : InsertTextTxn.doTransaction ⟨1, 2, [121]⟩
        (threeLetters.setText 1 [97, 120, 98, 99]) =
      (.ok, (threeLetters.setText 1 [97, 120, 98, 99]).setText 1 [97, 120, 121, 98, 99]) := rfl
    rw [doAll_cons_of hfst, doAll_cons_of hsnd, setText_setText, doAll]
  have hime : doAll IMETextTxn.doTransaction
      [⟨1, 1, 0, [120, 121], true, false⟩, ⟨1, 1, 2, [122], true, false⟩] threeLetters =
      (.ok, threeLetters.setText 1 [97, 122, 98, 99]) := by
    have hfst : IMETextTxn.doTransaction ⟨1, 1, 0, [120, 121], true, false⟩ threeLetters =
      (.ok, threeLetters.setText 1 [97, 120, 121, 98, 99]) := rfl
    have hsnd : IMETextTxn.doTransaction ⟨1, 1, 2, [122], true, false⟩
        (threeLetters.setText 1 [97, 120, 121, 98, 99]) =
      (.ok, (threeLetters.setText 1 [97, 120, 121, 98, 99]).setText 1 [97, 122, 98, 99]) := rfl
    rw [doAll_cons_of hfst, doAll_cons_of hsnd, setText_setText, doAll]
  constructor
  · exact congrArg Prod.snd ((merged_chains threeLetters_fits
      (setText_fits threeLetters_fits (by decide))).1 ⟨1, 1, [120]⟩ [⟨1, 2, [121]⟩]
        ⟨1, 1, [120, 121]⟩ rfl (by decide) hins).1
  · exact ((merged_chains threeLetters_fits
      (setText_fits threeLetters_fits (by decide))).2 ⟨1, 1, 0, [120, 121], true, false⟩
        [⟨1, 1, 2, [122], true, false⟩] ⟨1, 1, 0, [122], true, false⟩ rfl (by decide) hime
        (fun _ => rfl) ⟨⟨rfl, rfl, fun _ => by decide, by decide⟩, trivial⟩).1

/-- A transaction at another place is taken too, and then its string is deleted at the place of
the first. -/
theorem composition_elsewhere :
    mergeAll IMETextTxn.mergeNext ⟨1, 0, 0, [120], true, false⟩
        [⟨1, 4, 0, [121], true, false⟩] = some ⟨1, 0, 0, [121], true, false⟩ ∧
      (doAll IMETextTxn.doTransaction [⟨1, 0, 0, [120], true, false⟩,
        ⟨1, 4, 0, [121], true, false⟩] threeLetters).1 = .ok ∧
      ((IMETextTxn.undoTransaction ⟨1, 0, 0, [121], true, false⟩
        (doAll IMETextTxn.doTransaction [⟨1, 0, 0, [120], true, false⟩,
          ⟨1, 4, 0, [121], true, false⟩] threeLetters).2).2).data 1 = [97, 98, 99, 121] ∧
      threeLetters.data 1 = [97, 98, 99] := by
  decide

/-! ### One transaction of an input method -/

namespace IMETextTxn

variable {t : IMETextTxn}

/-- Undoing after doing gives the text back, and redoing what doing made of it. -/
def Inverts (t : IMETextTxn) (d : Document) : Prop :=
  (t.undoTransaction (t.doTransaction d).2).2.data t.mElement = d.data t.mElement ∧
    (t.redoTransaction (t.undoTransaction (t.doTransaction d).2).2).2.data t.mElement =
      (t.doTransaction d).2.data t.mElement

/-- It is not done at all, or it is only an insertion. -/
def ReplacesNothing (t : IMETextTxn) (d : Document) : Prop :=
  t.mSelConWeak = true → t.mOffset < (d.data t.mElement).length → t.mReplaceLength = 0

/-- Without a selection controller nothing is done. -/
theorem inverts_of_dead (h : t.mSelConWeak = false) (d : Document) : t.Inverts d := by
  have hdo : ∀ d, t.doTransaction d = (NS_ERROR_NOT_INITIALIZED, d) := by
    intro d
    rw [doTransaction, if_pos (by simp [h])]
  have hundo : ∀ d, t.undoTransaction d = (NS_ERROR_NOT_INITIALIZED, d) := by
    intro d
    rw [undoTransaction, if_pos (by simp [h])]
  constructor <;> simp only [redoTransaction, hdo, hundo]

/-- Beyond the text both fail. -/
theorem inverts_of_beyond (h : t.mSelConWeak = true)
    (ho : (d.data t.mElement).length < t.mOffset) : t.Inverts d := by
  have hdo : t.doTransaction d = (NS_ERROR_DOM_INDEX_SIZE_ERR, d) := by
    rw [doTransaction_eq h, replaceData]
    exact if_pos ho
  have hundo : t.undoTransaction d = (NS_ERROR_DOM_INDEX_SIZE_ERR, d) := by
    rw [undoTransaction_eq h, deleteData, replaceData]
    exact if_pos ho
  constructor <;> simp only [redoTransaction, hdo, hundo]

/-- Inside the text, what was replaced is gone after undoing. -/
theorem undo_do_inside (h : t.mSelConWeak = true) (ht : d.isText t.mElement = true)
    (ho : t.mOffset < (d.data t.mElement).length) (hd' : (t.doTransaction d).2.Fits) :
    (t.undoTransaction (t.doTransaction d).2).2 =
      d.setText t.mElement ((d.data t.mElement).take t.mOffset ++ (d.data t.mElement).drop
        (min ((t.mOffset + t.mReplaceLength) % 2 ^ 32) (d.data t.mElement).length)) := by
  have hself : d.setText t.mElement (d.data t.mElement) = d := setText_eq_self rfl
  have hdo := replaceData_inside (k := t.mReplaceLength) (s := t.mStringToInsert) ht ho
  rw [hself, ← doTransaction_eq h] at hdo
  have hlen := hd' t.mElement
  rw [hdo] at hlen ⊢
  rw [data_setText ht, List.length_append, List.length_append, List.length_take,
    Nat.min_eq_left (Nat.le_of_lt ho)] at hlen
  have hdel := deleteData_typed (d := d) (n := t.mElement) (o := t.mOffset) (S := [])
    (A := (d.data t.mElement).take t.mOffset) (s := t.mStringToInsert)
    (B := (d.data t.mElement).drop
      (min ((t.mOffset + t.mReplaceLength) % 2 ^ 32) (d.data t.mElement).length)) ht
    (by rw [List.length_take, Nat.min_eq_left (Nat.le_of_lt ho)]; rfl) (by omega)
  rw [List.nil_append, List.append_nil] at hdel
  rw [undoTransaction_eq h, hdel]

/-- At the end of the text nothing can be replaced. -/
theorem inverts_of_end (h : t.mSelConWeak = true) (ht : d.isText t.mElement = true)
    (ho : t.mOffset = (d.data t.mElement).length) (hd : d.Fits)
    (hd' : (t.doTransaction d).2.Fits) : t.Inverts d := by
  have hself : d.setText t.mElement (d.data t.mElement ++ [] ++ []) = d := by
    rw [List.append_nil, List.append_nil, setText_eq_self rfl]
  have hshort := hd t.mElement
  have hdo : t.doTransaction d =
      (.ok, d.setText t.mElement (d.data t.mElement ++ t.mStringToInsert ++ [])) := by
    have := doTransaction_typed (t := t) (d := d) (S := []) (B := []) ht rfl ho h
      (by simp only [List.append_nil]; omega)
      (by simp only [List.append_nil, replacedLength, ho, Nat.lt_irrefl, if_false]; rfl)
    rwa [hself] at this
  have hlen := hd' t.mElement
  rw [hdo, data_setText ht, List.append_nil, List.length_append] at hlen
  have hundo := deleteData_typed (d := d) (s := t.mStringToInsert) (S := []) (B := []) ht ho
    (by omega)
  rw [hself, List.nil_append, ← undoTransaction_eq h] at hundo
  constructor <;> simp only [redoTransaction, hdo, hundo]

theorem inverts_iff (ht : d.isText t.mElement = true) (hd : d.Fits)
    (hd' : (t.doTransaction d).2.Fits) (hlen : t.mReplaceLength < 2 ^ 32) :
    t.Inverts d ↔ t.ReplacesNothing d := by
  have hshort := hd t.mElement
  cases halive : t.mSelConWeak with
  | false => exact iff_of_true (inverts_of_dead halive d) (by simp [ReplacesNothing, halive])
  | true =>
    rcases Nat.lt_trichotomy t.mOffset (d.data t.mElement).length with ho | ho | ho
    · have hundo := undo_do_inside halive ht ho hd'
      constructor
      · rintro ⟨hback, -⟩ - -
        -- the length of what was not put back
        have := congrArg List.length hback
        rw [hundo, data_setText ht, List.length_append, List.length_take, List.length_drop] at this
        omega
      · intro hnothing
        have hzero := hnothing halive ho
        rw [hzero, Nat.add_zero, Nat.mod_eq_of_lt (by omega), Nat.min_eq_left (Nat.le_of_lt ho),
          List.take_append_drop, setText_eq_self rfl] at hundo
        constructor <;> simp only [redoTransaction, hundo]
    · exact iff_of_true (inverts_of_end halive ht ho hd hd')
        (fun _ hlt => absurd ho (Nat.ne_of_lt hlt))
    · exact iff_of_true (inverts_of_beyond halive ho)
        (fun _ hlt => absurd hlt (Nat.lt_asymm ho))

end IMETextTxn

/-- A transaction of an input method is undone and redone exactly if it replaced nothing, and
one that has absorbed the string of another exactly if it replaced nothing itself. -/
theorem imeTransaction_inverts_iff {t : IMETextTxn} (ht : d.isText t.mElement = true)
    (hd : d.Fits) (hlen : t.mReplaceLength < 2 ^ 32) :
    ((t.doTransaction d).2.Fits → (t.Inverts d ↔ t.ReplacesNothing d)) ∧
      ∀ next, (t.mergeNext next).2 = true → ((t.mergeNext next).1.doTransaction d).2.Fits →
        ((t.mergeNext next).1.Inverts d ↔ t.ReplacesNothing d) := by
  refine ⟨fun hd' => IMETextTxn.inverts_iff ht hd hd' hlen, fun next hm hd' => ?_⟩
  rw [IMETextTxn.mergeNext_true hm] at hd' ⊢
  exact IMETextTxn.inverts_iff (t := { t with mStringToInsert := next.mStringToInsert })
    ht hd hd' hlen

/-- A composition in front of the second letter, and one that absorbed another. -/
theorem imeTransaction_inverts_sample :
    IMETextTxn.Inverts ⟨1, 1, 0, [120], true, false⟩ threeLetters ∧
      IMETextTxn.Inverts ⟨1, 1, 0, [121, 122], true, false⟩ threeLetters := by
  have h := imeTransaction_inverts_iff (t := ⟨1, 1, 0, [120], true, false⟩) (d := threeLetters) rfl
    threeLetters_fits (by decide)
  exact ⟨(h.1 (setText_fits threeLetters_fits (by decide))).mpr fun _ _ => rfl,
    (h.2 ⟨1, 1, 1, [121, 122], true, false⟩ rfl
      (setText_fits threeLetters_fits (by decide))).mpr fun _ _ => rfl⟩

/-- The letter that a composition replaced does not come back. -/
theorem composition_replaces :
    (IMETextTxn.undoTransaction ⟨1, 1, 1, [120], true, false⟩
        (IMETextTxn.doTransaction ⟨1, 1, 1, [120], true, false⟩ threeLetters).2).2.data 1 =
      [97, 99] ∧
    ¬ IMETextTxn.Inverts ⟨1, 1, 1, [120], true, false⟩ threeLetters := by
  refine ⟨by decide, fun h => absurd h.1 (by decide)⟩

end Kompozer.Editor

import Kompozer.Citer.CiteString

/-! Rewrapping of quoted text (`Rewrap` in `nsInternetCiter.cpp`). Positions and columns are
`PRUint32`s, `nextNewline` and `eol` are `PRInt32`s. Both loops take `fuel`, the number of rounds
that are looked at. -/

namespace Kompozer.Citer

/-- A result as a `PRUint32`, and as a `PRInt32`. -/
def PRUint32 (n : ℤ) : ℕ := (n % 2 ^ 32).toNat

def PRInt32 (n : ℤ) : ℤ := Int.bmod n (2 ^ 32)

/-- `nsCRT::IsAsciiSpace`. -/
def IsAsciiSpace (c : PRUnichar) : Bool := c = space || c = cr || c = nl || c = 9

def IsSpace (c : PRUnichar) : Bool := IsAsciiSpace c || c = nl || c = cr || c = nbsp

/-- `nsILineBreaker`: `Prev` and `Next` for a text and a position in it, or nothing when they fail
or ask for more text. -/
structure LineBreaker where
  Prev : List PRUnichar → ℕ → Option ℕ
  Next : List PRUnichar → ℕ → Option ℕ

def AddCite (aOutString : List PRUnichar) (citeLevel : ℕ) : List PRUnichar :=
  aOutString ++ List.replicate citeLevel gt ++ if citeLevel > 0 then [space] else []

/-- The variables of the loops. -/
structure RewrapState where
  aOutString : List PRUnichar
  posInString : ℕ
  outStringCol : ℕ
  citeLevel : ℕ
  deriving DecidableEq, Repr

/-- `BreakLine`. -/
def BreakLine (st : RewrapState) (citeLevel : ℕ) : RewrapState :=
  if citeLevel > 0 then
    { st with
      aOutString := AddCite (st.aOutString ++ [nl]) citeLevel
      outStringCol := citeLevel + 1 }
  else { st with aOutString := st.aOutString ++ [nl], outStringCol := 0 }

/-- The cite level at the beginning of a line and how many characters say it: marks, and behind a
mark spaces. -/
def readCites (seen : Bool) : List PRUnichar → ℕ × ℕ
  | [] => (0, 0)
  | c :: rest =>
    if c = gt then ((readCites true rest).1 + 1, (readCites true rest).2 + 1)
    else if seen && c = space then ((readCites true rest).1, (readCites true rest).2 + 1)
    else (0, 0)

def SLOP : ℕ := 6

section
variable (tString : List PRUnichar) (aWrapCol : ℕ) (lineBreaker : Option LineBreaker)

/-- The cite level at a position, where a line begins. -/
def citesAt (pos : ℕ) : ℕ × ℕ := readCites false (tString.drop pos)

/-- The next newline from a position on, or the end of the string. -/
def nextNewlineFrom (pos : ℕ) : ℕ := pos + ((tString.drop pos).takeWhile (· ≠ nl)).length

/-- `Substring`. -/
def Substring (start count : ℕ) : List PRUnichar := (tString.drop start).take count

/-- Behind the initial spaces of what is left of a line. -/
def skipSpaces (nextNewline : ℕ) (st : RewrapState) : RewrapState :=
  { st with
    posInString := st.posInString +
      ((Substring tString st.posInString (nextNewline - st.posInString)).takeWhile
        IsAsciiSpace).length }

/-- This is a short line. -/
def isShort (nextNewline : ℕ) (st : RewrapState) : Bool :=
  PRUint32 (st.outStringCol + nextNewline - st.posInString) ≤ PRUint32 (aWrapCol - st.citeLevel - 1)

/-- The prospective end of line. -/
def eolOf (st : RewrapState) : ℤ :=
  PRInt32 (st.posInString + aWrapCol - st.citeLevel - st.outStringCol)

/-- What the line breaker says: a place to break, or that the line is to end here. Without a place
the line is broken hard, at `eol`. -/
def findBreak (eol : ℤ) (st : RewrapState) : Option ℕ :=
  match lineBreaker with
  | none => some (PRUint32 eol)
  | some lb =>
    match lb.Prev (tString.drop st.posInString) (PRUint32 (eol + 1 - st.posInString)) with
    | some breakPt => some breakPt
    | none =>
      if st.outStringCol > st.citeLevel + 1 then none
      else
        match lb.Next (tString.drop st.posInString) (PRUint32 (eol - st.posInString)) with
        | some breakPt => some breakPt
        | none => some (PRUint32 eol)

/-- What goes up to a place to break is copied without the spaces at its end, and the spaces behind
it are skipped. -/
def copyTo (breakPt : ℕ) (st : RewrapState) : RewrapState :=
  let sub := (Substring tString st.posInString breakPt).rdropWhile IsSpace
  let pos := PRUint32 (st.posInString + breakPt)
  let pos := pos + ((tString.drop pos).takeWhile IsSpace).length
  let st := { st with
    aOutString := st.aOutString ++ sub
    outStringCol := PRUint32 (st.outStringCol + sub.length)
    posInString := pos }
  if pos < tString.length then BreakLine st st.citeLevel else st

/-- A short line is copied without the spaces at its end. -/
def copyShort (nextNewline : ℕ) (st : RewrapState) : RewrapState :=
  let nextNewline :=
    if nextNewline + 1 = tString.length ∧ tString[nextNewline - 1]? = some nl then nextNewline + 1
    else nextNewline
  let line := (Substring tString st.posInString (nextNewline - st.posInString)).rdropWhile
    IsAsciiSpace
  { st with
    aOutString := st.aOutString ++ line
    outStringCol := PRUint32 (st.outStringCol + line.length)
    posInString := nextNewline + 1 }

/-- A line ends where there is no place to break, or where the first one makes it too long. -/
def copyLong (st : RewrapState) : Option ℕ → RewrapState
  | none => BreakLine st st.citeLevel
  | some breakPt =>
    if PRUint32 (st.outStringCol + breakPt) > PRUint32 (aWrapCol + SLOP) ∧
        st.outStringCol > st.citeLevel + 1 then BreakLine st st.citeLevel
    else copyTo tString breakPt st

/-- One round of the inner loop. -/
def innerStep (nextNewline : ℕ) (st : RewrapState) : RewrapState :=
  let st := skipSpaces tString nextNewline st
  if isShort aWrapCol nextNewline st then copyShort tString nextNewline st
  else
    let eol := eolOf aWrapCol st
    if eol ≤ st.posInString then BreakLine st st.citeLevel
    else copyLong tString aWrapCol st (findBreak tString lineBreaker eol st)

/-- The inner loop, over what is left of a line. -/
def innerLoop (nextNewline : ℕ) : ℕ → RewrapState → Option RewrapState
  | 0, _ => none
  | n + 1, st =>
    if PRInt32 st.posInString < nextNewline then
      innerLoop nextNewline n (innerStep tString aWrapCol lineBreaker nextNewline st)
    else some st

/-- A new cite level begins a new line; a line begins with its marks, and other text is separated
from the text before it. -/
def beginText (newCiteLevel pos : ℕ) (st : RewrapState) : RewrapState :=
  let st := if newCiteLevel ≠ st.citeLevel ∧ pos > newCiteLevel + 1 ∧ st.outStringCol ≠ 0 then
    BreakLine st 0 else st
  let st := { st with posInString := pos, citeLevel := newCiteLevel }
  if st.outStringCol = 0 then
    { st with
      aOutString := AddCite st.aOutString newCiteLevel
      outStringCol := newCiteLevel + if newCiteLevel ≠ 0 then 1 else 0 }
  else if st.outStringCol > newCiteLevel then
    { st with aOutString := st.aOutString ++ [space], outStringCol := st.outStringCol + 1 }
  else st

/-- A line that is not quoted is copied. -/
def copyLine (nextNewline : ℕ) (st : RewrapState) : RewrapState :=
  let out := st.aOutString ++ Substring tString st.posInString (nextNewline - st.posInString)
  if nextNewline ≠ tString.length then
    { st with aOutString := out ++ [nl], outStringCol := 0, posInString := nextNewline + 1 }
  else
    { st with
      aOutString := out
      outStringCol := st.outStringCol + (nextNewline - st.posInString)
      posInString := nextNewline + 1 }

/-- One round of the outer loop. Where the string ends behind the marks the loop is left. -/
def lineStep (fuel : ℕ) (st : RewrapState) : Option RewrapState :=
  let cites := citesAt tString st.posInString
  let pos := st.posInString + cites.2
  if tString.length ≤ pos then some { st with posInString := pos }
  else if tString[pos]? = some nl ∧ st.aOutString ≠ [] then
    let out := if st.aOutString.getLast? ≠ some nl then st.aOutString ++ [nl] else st.aOutString
    some { st with
      aOutString := AddCite out cites.1 ++ [nl]
      posInString := pos + 1
      outStringCol := 0 }
  else
    let st := beginText cites.1 pos st
    let nextNewline := nextNewlineFrom tString pos
    if cites.1 = 0 then some (copyLine tString nextNewline st)
    else innerLoop tString aWrapCol lineBreaker nextNewline fuel st

/-- The outer loop. -/
def outerLoop (fuel : ℕ) : ℕ → RewrapState → Option RewrapState
  | 0, _ => none
  | n + 1, st =>
    if st.posInString < tString.length then do
      let st ← lineStep tString aWrapCol lineBreaker fuel st
      outerLoop fuel n st
    else some st

/-- `Rewrap`. Neither the offset of the first line nor `aRespectNewlines` is used. -/
def Rewrap (fuel : ℕ) (_aFirstLineOffset : ℕ) (_aRespectNewlines : Bool) :
    Option (List PRUnichar) :=
  (outerLoop tString aWrapCol lineBreaker fuel fuel ⟨[], 0, 0, 0⟩).map RewrapState.aOutString

end

end Kompozer.Citer

import Kompozer.Publish.PrefBranch

/-! The tree of the site manager (`sitemanager.js`). The rows are objects that two arrays share: one
of all rows, one of the rows that the filter shows. An error of the script leaves everything as it is
at that point. -/

namespace Kompozer.SiteManager

open Publish (JSString js units unitsLe)

abbrev Ref := ℕ

/-- A row. Its size and its date are only shown. -/
structure Item where
  name : JSString
  url : JSString
  isContainer : Bool
  isContainerOpen : Bool
  isContainerEmpty : Bool
  isSymLink : Bool
  level : ℕ
  realIndex : ℕ

/-- What the site manager asks of others. -/
structure Env where
  /-- The regular expressions of `SetupTreeFilters`. -/
  gFilterRE : JSString → Option (JSString → Bool)
  toLowerCase : JSString → JSString

structure Manager where
  item : Ref → Item
  fresh : Ref
  gItemsArray : List Ref
  gFilteredItemsArray : List Ref
  gNewItemsArray : Option (List Ref)
  /-- No row is `-1` in the source. -/
  gLastDirOpenOrClose : Option ℕ
  gSiteManagerCurrentFilter : JSString

/-- `a < b` of strings. -/
def strLt (a b : JSString) : Bool := !unitsLe (b.flatMap units) (a.flatMap units)

def IsFileUrl (url : JSString) : Bool := url.take 4 == js "file"

/-! ### The filter -/

variable (env : Env)

def IsSelectedByFilter (filter fileName : JSString) : Bool :=
  if filter = js "all" then true
  else match env.gFilterRE filter with
    | some re => re fileName
    | none => false

def IsHiddenByFilter (filter fileName : JSString) : Bool :=
  if fileName.head? = some '~' then true else !IsSelectedByFilter env filter fileName

namespace Manager

variable (m : Manager)

/-- Containers are always shown. -/
def shown (x : Ref) : Bool :=
  (m.item x).isContainer || !IsHiddenByFilter env m.gSiteManagerCurrentFilter (m.item x).name

def FilterAllItems : Manager := { m with gFilteredItemsArray := m.gItemsArray.filter (m.shown env) }

/-! ### Rows -/

/-- An object is changed. -/
def change (x : Ref) (f : Item → Item) : Manager :=
  { m with item := Function.update m.item x (f (m.item x)) }

/-- `splice` with rows to put in, one behind the other. -/
def spliceIn (rows : List Ref) (row : ℕ) (new : List Ref) : List Ref :=
  rows.take row ++ new ++ rows.drop row

/-- `splice` with a number of rows to take away. -/
def spliceOut (rows : List Ref) (row count : ℕ) : List Ref :=
  rows.take row ++ rows.drop (row + count)

/-- The number of rows right behind a row that are on lower levels. -/
def countBelow (rows : List Ref) (row level : ℕ) : ℕ :=
  ((rows.drop (row + 1)).takeWhile fun x => level < (m.item x).level).length

def UpdateItemsArrayRealIndexes (aStartIndex : ℕ) : Manager :=
  (m.gItemsArray.zipIdx.drop aStartIndex).foldl
    (fun m x => m.change x.1 fun y => { y with realIndex := x.2 }) m

/-- The loop of `getParentIndex`. Above the first row it is an error. -/
def scanUp (level : ℕ) : ℕ → Option ℕ
  | 0 => do
    let x ← m.gFilteredItemsArray[0]?
    if (m.item x).level = level then some 0 else none
  | row + 1 => do
    let x ← m.gFilteredItemsArray[row + 1]?
    if (m.item x).level = level then some (row + 1) else scanUp level row

/-- The outer value is missing on an error, the inner one when the source answers `-1`. -/
def getParentIndex (row : ℕ) : Option (Option ℕ) := do
  let x ← m.gFilteredItemsArray[row]?
  if (m.item x).level = 0 then some none
  else (m.scanUp ((m.item x).level - 1) row).map some

/-! ### Listings -/

/-- What is captured when a listing is asked for. -/
structure RqData where
  row : ℕ
  parentRow : ℕ
  realRow : ℕ
  level : ℕ
  refreshCount : ℕ := 0
  refreshRealCount : ℕ := 0

/-- An entry of a listing. -/
structure Entry where
  location : JSString
  isDirectory : Bool
  isSymLink : Bool

def addRow (name url : JSString) (isContainer isSymLink : Bool) (level : ℕ) : Manager :=
  { m with
    item := Function.update m.item m.fresh
      { name, url, isContainer, isContainerOpen := false, isContainerEmpty := false, isSymLink,
        level, realIndex := 0 }
    fresh := m.fresh + 1
    gNewItemsArray := some (m.gNewItemsArray.getD [] ++ [m.fresh]) }

def AddFTPDirSubdirs (url : JSString) (dirEntry : Entry) (aRQdata : RqData) : Manager :=
  m.addRow dirEntry.location
    (url ++ (if url.getLast? = some '/' then [] else js "/") ++ dirEntry.location)
    dirEntry.isDirectory dirEntry.isSymLink aRQdata.level

/-- `parseData`: every entry is handed over. -/
def parseData (url : JSString) (entries : List Entry) (aRQdata : RqData) : Manager :=
  entries.foldl (fun m dirEntry => m.AddFTPDirSubdirs url dirEntry aRQdata) m

/-- Directories come first, then the names are in order whatever their case. -/
def entryLe (a b : Item) : Bool :=
  if a.isContainer && !b.isContainer then true
  else if !a.isContainer && b.isContainer then false
  else unitsLe ((env.toLowerCase a.name).flatMap units) ((env.toLowerCase b.name).flatMap units)

/-- `gNewItemsArray.sort (compareEntries)`. -/
def sortNew (new : List Ref) : List Ref :=
  new.insertionSort fun a b => entryLe env (m.item a) (m.item b) = true

/-- The early way out when no entry was handed over. -/
def endEmpty (parentRow : ℕ) : Manager :=
  match m.gFilteredItemsArray[parentRow]? with
  | none => m
  | some d => m.change d fun x => { x with isContainerEmpty := true }

/-- `EndFtpRequest`. When the row of the directory is missing the new rows are not forgotten. -/
def EndFtpRequest (aRQdata : RqData) : Manager :=
  match m.gNewItemsArray with
  | none => m.endEmpty aRQdata.parentRow
  | some new =>
    let new := m.sortNew env new
    let m := { m with
      gItemsArray := spliceIn m.gItemsArray aRQdata.realRow new
      gNewItemsArray := some new }
    let m := m.UpdateItemsArrayRealIndexes aRQdata.realRow
    let m := { m with
      gFilteredItemsArray := spliceIn m.gFilteredItemsArray aRQdata.row (new.filter (m.shown env)) }
    match m.gFilteredItemsArray[aRQdata.parentRow]? with
    | none => m
    | some d =>
      { m.change d fun x => { x with isContainerEmpty := new.isEmpty } with gNewItemsArray := none }

/-- `ErrorFtpRequest`, which names the first row. -/
def ErrorFtpRequest : Manager :=
  m.EndFtpRequest env { row := 0, parentRow := 0, realRow := 0, level := 0 }

/-- The order in which the files of a directory are added. -/
def sortLocal (entries : List Entry) : List Entry :=
  let sort := List.insertionSort fun a b : Entry =>
    unitsLe (a.location.flatMap units) (b.location.flatMap units) = true
  sort (entries.filter Entry.isDirectory) ++ sort (entries.filter fun e => !e.isDirectory)

/-- `OpenLocalDirectory`, given what is in the directory. -/
def OpenLocalDirectory (aUrl : JSString) (entries : List Entry) (aRQdata : RqData) : Manager :=
  ((sortLocal entries).foldl (fun m e =>
    m.addRow e.location (aUrl ++ js "/" ++ e.location) e.isDirectory e.isSymLink aRQdata.level)
      m).EndFtpRequest env aRQdata

/-! ### Opening and closing -/

/-- What is captured when a row is opened. -/
def openData (row : ℕ) (d : Ref) : RqData where
  row := row + 1
  parentRow := row
  realRow := (m.item d).realIndex + 1
  level := (m.item d).level + 1

/-- `toggleOpenState` of an open row. -/
def closeRow (row : ℕ) (d : Ref) : Manager :=
  let level := (m.item d).level
  let count := m.countBelow m.gFilteredItemsArray row level
  let realRow := (m.item d).realIndex
  let realCount := m.countBelow m.gItemsArray realRow level
  let m := { m with
    gFilteredItemsArray := spliceOut m.gFilteredItemsArray (row + 1) count
    gItemsArray := spliceOut m.gItemsArray (realRow + 1) realCount }
  let m := m.UpdateItemsArrayRealIndexes realRow
  let m := m.change d fun x => { x with isContainerOpen := false }
  match m.getParentIndex row with
  | none => m
  | some parentIndex => { m with gLastDirOpenOrClose := some (parentIndex.getD 0) }

/-- `toggleOpenState` of a closed row of this machine, given what is in the directory. -/
def openLocal (row : ℕ) (d : Ref) (listing : Option (List Entry)) : Manager :=
  let m := { m with gLastDirOpenOrClose := some row }
  match listing with
  | none => m
  | some entries =>
    (m.OpenLocalDirectory env (m.item d).url entries (m.openData row d)).change d fun x =>
      { x with isContainerOpen := true }

/-- `toggleOpenState` of a closed row of a server. The listing comes later. -/
def openRemote (row : ℕ) (d : Ref) : Manager :=
  { m with gLastDirOpenOrClose := some row }.change d fun x => { x with isContainerOpen := true }

/-- `onComplete` of the request for a listing. -/
def complete (url : JSString) (entries : List Entry) (aRQdata : RqData) : Manager :=
  (m.parseData url entries aRQdata).EndFtpRequest env aRQdata

/-- `FillSiteList`, given the names and the addresses of the sites. -/
def FillSiteList (sites : List (JSString × JSString)) : Manager :=
  if sites = [] then m
  else
    let m := { m with gItemsArray := [], gFilteredItemsArray := [] }
    let m := sites.foldl (fun m site => m.addRow site.1 site.2 true false 0) m
    let new := m.gNewItemsArray.getD []
    let m := new.zipIdx.foldl (fun m x => m.change x.1 fun y => { y with realIndex := x.2 }) m
    { m with gItemsArray := new, gNewItemsArray := none }.FilterAllItems env

end Manager

end Kompozer.SiteManager

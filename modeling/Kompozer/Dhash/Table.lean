import Mathlib

/-! The double hash table of the JavaScript engine (`jsdhash.c`). Numbers are `uint32`s. What
callers and callbacks put into an entry is its key and a value; an entry that is not live may hold
none. A search that meets no free entry does not end; `fuel` bounds the probes that are looked
at. -/

namespace Kompozer.Dhash

variable {κ β : Type}

/-- `JSDHashTableOps`, as far as results depend on it: `hashKey`, and `matchEntry` applied to the
key of an entry. -/
structure TableOps (κ : Type) where
  hashKey : κ → ℕ
  matchEntry : κ → κ → Bool

/-- `JSDHashEntryHdr` and what follows it. -/
structure Entry (κ β : Type) where
  keyHash : ℕ
  item : Option (κ × β)
  deriving DecidableEq, Repr

/-- `JSDHashTable`. -/
structure Table (κ β : Type) where
  hashShift : ℕ
  maxAlphaFrac : ℕ
  minAlphaFrac : ℕ
  entryCount : ℕ
  removedCount : ℕ
  entryStore : List (Entry κ β)
  deriving DecidableEq, Repr

def JS_DHASH_SIZE_LIMIT : ℕ := 2 ^ 24
def JS_DHASH_MIN_SIZE : ℕ := 16
def JS_DHASH_BITS : ℕ := 32
def JS_DHASH_GOLDEN_RATIO : ℕ := 0x9E3779B9

def uint32 (n : ℕ) : ℕ := n % 2 ^ 32

/-- `JS_CEILING_LOG2`. -/
def JS_CEILING_LOG2 (n : ℕ) : ℕ := if n ≤ 1 then 0 else Nat.log2 (n - 1) + 1

/-- `hash & ~COLLISION_FLAG`. -/
def clearFlag (h : ℕ) : ℕ := h / 2 * 2

/-- `hash | COLLISION_FLAG`. -/
def setFlag (h : ℕ) : ℕ := h / 2 * 2 + 1

/-- The first lines of `JS_DHashTableOperate`: the hash that goes into an entry. -/
def TableOps.keyHash (ops : TableOps κ) (key : κ) : ℕ :=
  let keyHash := uint32 (ops.hashKey key * JS_DHASH_GOLDEN_RATIO)
  clearFlag (if keyHash < 2 then uint32 (keyHash + 2 ^ 32 - 2) else keyHash)

namespace Entry

def free : Entry κ β := ⟨0, none⟩

/-- `JS_DHASH_ENTRY_IS_FREE`. -/
def isFree (e : Entry κ β) : Bool := e.keyHash = 0

/-- `ENTRY_IS_REMOVED`. -/
def isRemoved (e : Entry κ β) : Bool := e.keyHash = 1

/-- `JS_DHASH_ENTRY_IS_LIVE`. -/
def isLive (e : Entry κ β) : Bool := 2 ≤ e.keyHash

/-- What a live entry holds. -/
def content (e : Entry κ β) : Option (κ × β) := if e.isLive then e.item else none

/-- `MATCH_ENTRY_KEYHASH(entry, keyHash) && matchEntry(table, entry, key)`. -/
def hits (ops : TableOps κ) (key : κ) (keyHash : ℕ) (e : Entry κ β) : Bool :=
  clearFlag e.keyHash = keyHash && e.item.any fun kv => ops.matchEntry kv.1 key

/-- `entry->keyHash |= COLLISION_FLAG`. -/
def mark (e : Entry κ β) : Entry κ β := { e with keyHash := setFlag e.keyHash }

end Entry

/-- `ADDRESS_ENTRY`. -/
def entryAt (store : List (Entry κ β)) (i : ℕ) : Entry κ β := store.getD i .free

/-- `HASH1`. -/
def HASH1 (hash0 shift : ℕ) : ℕ := hash0 / 2 ^ shift

/-- `HASH2`. -/
def HASH2 (hash0 log2 shift : ℕ) : ℕ := setFlag (uint32 (hash0 * 2 ^ log2) / 2 ^ shift)

section
variable (fuel : ℕ) (ops : TableOps κ)

/-- The loop of `SearchTable`. -/
def searchLoop (key : κ) (keyHash : ℕ) (add : Bool) (hash2 size : ℕ) :
    ℕ → ℕ → Option ℕ → List (Entry κ β) → Option (ℕ × List (Entry κ β))
  | 0, _, _, _ => none
  | n + 1, hash1, firstRemoved, store =>
    let hash1 := uint32 (hash1 + 2 ^ 32 - hash2) % size
    let entry := entryAt store hash1
    if entry.isFree then some (if add then firstRemoved.getD hash1 else hash1, store)
    else if entry.hits ops key keyHash then some (hash1, store)
    else if entry.isRemoved then
      searchLoop key keyHash add hash2 size n hash1 (some (firstRemoved.getD hash1)) store
    else
      searchLoop key keyHash add hash2 size n hash1 firstRemoved
        (if add then store.set hash1 entry.mark else store)

/-- `SearchTable`: the place of an entry, and the store with the collision flags that were set. -/
def SearchTable (hashShift : ℕ) (store : List (Entry κ β)) (key : κ) (keyHash : ℕ) (add : Bool) :
    Option (ℕ × List (Entry κ β)) :=
  let hash1 := HASH1 keyHash hashShift
  let entry := entryAt store hash1
  if entry.isFree then some (hash1, store)
  else if entry.hits ops key keyHash then some (hash1, store)
  else
    let sizeLog2 := JS_DHASH_BITS - hashShift
    let hash2 := HASH2 keyHash sizeLog2 hashShift
    if entry.isRemoved then
      searchLoop ops key keyHash add hash2 (2 ^ sizeLog2) fuel hash1 (some hash1) store
    else
      searchLoop ops key keyHash add hash2 (2 ^ sizeLog2) fuel hash1 none
        (if add then store.set hash1 entry.mark else store)

/-- The loop of `ChangeTable` over the old entries. -/
def moveEntries (hashShift : ℕ) : List (Entry κ β) → List (Entry κ β) → Option (List (Entry κ β))
  | [], store => some store
  | old :: olds, store =>
    match old.content with
    | none => moveEntries hashShift olds store
    | some kv =>
      match SearchTable fuel ops hashShift store kv.1 (clearFlag old.keyHash) true with
      | none => none
      | some (i, store) =>
        moveEntries hashShift olds (store.set i ⟨clearFlag old.keyHash, some kv⟩)

/-- `JS_DHASH_TABLE_SIZE`. -/
def Table.size (t : Table κ β) : ℕ := 2 ^ (JS_DHASH_BITS - t.hashShift)

/-- `ChangeTable`; `alloc` says whether `allocTable` has memory. -/
def ChangeTable (t : Table κ β) (deltaLog2 : ℤ) (alloc : Bool) : Option (Table κ β × Bool) :=
  let newLog2 := ((JS_DHASH_BITS - t.hashShift : ℕ) + deltaLog2).toNat
  let newCapacity := 2 ^ newLog2
  if JS_DHASH_SIZE_LIMIT ≤ newCapacity then some (t, false)
  else if alloc = false then some (t, false)
  else
    let hashShift := JS_DHASH_BITS - newLog2
    match moveEntries fuel ops hashShift t.entryStore (List.replicate newCapacity .free) with
    | none => none
    | some store =>
      some ({ t with hashShift := hashShift, removedCount := 0, entryStore := store }, true)

end

/-- `MAX_LOAD` and `MIN_LOAD`. -/
def Table.MAX_LOAD (t : Table κ β) : ℕ := uint32 (t.maxAlphaFrac * t.size) / 2 ^ 8
def Table.MIN_LOAD (t : Table κ β) : ℕ := uint32 (t.minAlphaFrac * t.size) / 2 ^ 8

/-- `JS_DHashTableInit`, when memory is there. -/
def JS_DHashTableInit (capacity : ℕ) : Option (Table κ β) :=
  let log2 := JS_CEILING_LOG2 (max capacity JS_DHASH_MIN_SIZE)
  if JS_DHASH_SIZE_LIMIT ≤ 2 ^ log2 then none
  else some ⟨JS_DHASH_BITS - log2, 0xC0, 0x40, 0, 0, List.replicate (2 ^ log2) .free⟩

/-- `JS_DHashTableRawRemove`. -/
def JS_DHashTableRawRemove (t : Table κ β) (i : ℕ) : Table κ β :=
  if (entryAt t.entryStore i).keyHash % 2 = 1 then
    { t with
      entryStore := t.entryStore.set i ⟨1, none⟩
      removedCount := uint32 (t.removedCount + 1)
      entryCount := uint32 (t.entryCount + 2 ^ 32 - 1) }
  else
    { t with
      entryStore := t.entryStore.set i ⟨0, none⟩
      entryCount := uint32 (t.entryCount + 2 ^ 32 - 1) }

/-! ### Operations -/

/-- What an enumerator answers: `JS_DHASH_STOP` and `JS_DHASH_REMOVE`. -/
structure EnumResult where
  stop : Bool
  remove : Bool
  deriving DecidableEq, Repr

/-- The calls; the callbacks `allocTable` and `initEntry` of a call have memory or have none. -/
inductive Op (κ β : Type)
  | lookup (key : κ)
  | add (key : κ) (value : β) (alloc init : Bool)
  | remove (key : κ) (alloc : Bool)
  | rawRemove (i : ℕ)
  | enumerate (etor : ℕ → κ × β → EnumResult) (alloc : Bool)

/-- What a call answers: an entry or null, or the entries that were enumerated. -/
inductive Answer (κ β : Type)
  | entry (e : Option (κ × β))
  | visited (l : List (κ × β))
  deriving DecidableEq, Repr

section
variable (fuel : ℕ) (ops : TableOps κ)

/-- `JS_DHASH_LOOKUP`. -/
def lookup (t : Table κ β) (key : κ) : Option (Table κ β × Answer κ β) :=
  match SearchTable fuel ops t.hashShift t.entryStore key (ops.keyHash key) false with
  | none => none
  | some (i, store) => some ({ t with entryStore := store }, .entry (entryAt store i).content)

/-- `JS_DHASH_ADD` up to the search: the table that has room, or null. -/
def makeRoom (t : Table κ β) (alloc : Bool) : Option (Table κ β × Bool) :=
  if t.MAX_LOAD ≤ uint32 (t.entryCount + t.removedCount) then
    match ChangeTable fuel ops t (if t.size / 4 ≤ t.removedCount then 0 else 1) alloc with
    | none => none
    | some (t', changed) =>
      some (t', changed || uint32 (t'.entryCount + t'.removedCount) ≠ t.size - 1)
  else some (t, true)

/-- `JS_DHASH_ADD` behind the search that found the place `i`. -/
def claim (t : Table κ β) (i : ℕ) (key : κ) (value : β) (init : Bool) :
    Table κ β × Answer κ β :=
  let entry := entryAt t.entryStore i
  if entry.isLive then (t, .entry entry.content)
  else
    let keyHash := if entry.isRemoved then setFlag (ops.keyHash key) else ops.keyHash key
    let t := { t with removedCount :=
      if entry.isRemoved then uint32 (t.removedCount + 2 ^ 32 - 1) else t.removedCount }
    if init = false then
      ({ t with entryStore := t.entryStore.set i { entry with item := none } }, .entry none)
    else
      ({ t with
        entryStore := t.entryStore.set i ⟨keyHash, some (key, value)⟩
        entryCount := uint32 (t.entryCount + 1) }, .entry (some (key, value)))

/-- `JS_DHASH_ADD`. -/
def add (t : Table κ β) (key : κ) (value : β) (alloc init : Bool) :
    Option (Table κ β × Answer κ β) :=
  match makeRoom fuel ops t alloc with
  | none => none
  | some (t, false) => some (t, .entry none)
  | some (t, true) =>
    match SearchTable fuel ops t.hashShift t.entryStore key (ops.keyHash key) true with
    | none => none
    | some (i, store) => some (claim ops { t with entryStore := store } i key value init)

/-- `JS_DHASH_REMOVE`. -/
def remove (t : Table κ β) (key : κ) (alloc : Bool) : Option (Table κ β × Answer κ β) :=
  match SearchTable fuel ops t.hashShift t.entryStore key (ops.keyHash key) false with
  | none => none
  | some (i, store) =>
    let t := { t with entryStore := store }
    if (entryAt store i).isLive then
      let t := JS_DHashTableRawRemove t i
      if JS_DHASH_MIN_SIZE < t.size ∧ t.entryCount ≤ t.MIN_LOAD then
        match ChangeTable fuel ops t (-1) alloc with
        | none => none
        | some (t, _) => some (t, .entry none)
      else some (t, .entry none)
    else some (t, .entry none)

/-- The loop of `JS_DHashTableEnumerate` over the places from `i` on, with what was visited and
whether an entry was removed. -/
def enumerateLoop (etor : ℕ → κ × β → EnumResult) :
    ℕ → ℕ → Table κ β → List (κ × β) → Bool → Table κ β × List (κ × β) × Bool
  | 0, _, t, visited, didRemove => (t, visited, didRemove)
  | n + 1, i, t, visited, didRemove =>
    match (entryAt t.entryStore i).content with
    | none => enumerateLoop etor n (i + 1) t visited didRemove
    | some kv =>
      let op := etor visited.length kv
      let t := if op.remove then JS_DHashTableRawRemove t i else t
      if op.stop then (t, visited ++ [kv], didRemove || op.remove)
      else enumerateLoop etor n (i + 1) t (visited ++ [kv]) (didRemove || op.remove)

/-- `JS_DHashTableEnumerate`. -/
def enumerate (t : Table κ β) (etor : ℕ → κ × β → EnumResult) (alloc : Bool) :
    Option (Table κ β × Answer κ β) :=
  let (t', visited, didRemove) := enumerateLoop etor t.size 0 t [] false
  if didRemove ∧ (t.size / 4 ≤ t'.removedCount ∨
      JS_DHASH_MIN_SIZE < t.size ∧ t'.entryCount ≤ t'.MIN_LOAD) then
    let capacity := max (uint32 (t'.entryCount + t'.entryCount / 2)) JS_DHASH_MIN_SIZE
    let ceiling := JS_CEILING_LOG2 capacity - ((JS_DHASH_BITS - t'.hashShift : ℕ) : ℤ)
    match ChangeTable fuel ops t' ceiling alloc with
    | none => none
    | some (t', _) => some (t', .visited visited)
  else some (t', .visited visited)

/-- A call. A caller has places of live entries only. -/
def step (t : Table κ β) : Op κ β → Option (Table κ β × Answer κ β)
  | .lookup key => lookup fuel ops t key
  | .add key value alloc init => add fuel ops t key value alloc init
  | .remove key alloc => remove fuel ops t key alloc
  | .rawRemove i =>
    let entry := entryAt t.entryStore i
    if entry.isLive then some (JS_DHashTableRawRemove t i, .entry entry.content)
    else some (t, .entry none)
  | .enumerate etor alloc => enumerate fuel ops t etor alloc

def run (t : Table κ β) : List (Op κ β) → Option (Table κ β × List (Answer κ β))
  | [] => some (t, [])
  | op :: calls =>
    match step fuel ops t op with
    | none => none
    | some (t, answer) =>
      match run t calls with
      | none => none
      | some (t, answers) => some (t, answer :: answers)

end

end Kompozer.Dhash

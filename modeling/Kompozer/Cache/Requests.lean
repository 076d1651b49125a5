import Mathlib.Logic.Function.Basic
import Mathlib.Tactic.Common

/-! The requests for one cache key (`nsCacheService.cpp`, `nsCacheEntry.cpp`): who gets a descriptor
of an entry, who waits for the entry to be validated, and what becomes of the waiting requests when
it is validated, doomed or closed. Blocking requests are left out. -/

namespace Kompozer.Cache.Requests

structure nsCacheAccessMode where
  read : Bool
  write : Bool
deriving DecidableEq

def ACCESS_READ : nsCacheAccessMode := ⟨true, false⟩
def ACCESS_WRITE : nsCacheAccessMode := ⟨false, true⟩
def ACCESS_READ_WRITE : nsCacheAccessMode := ⟨true, true⟩

inductive nsCacheStoragePolicy
  | STORE_ANYWHERE | STORE_IN_MEMORY | STORE_ON_DISK | STORE_ON_DISK_AS_FILE
deriving DecidableEq

inductive nsresult
  | NS_OK
  | NS_ERROR_FAILURE
  | NS_ERROR_CACHE_IN_USE
  | NS_ERROR_CACHE_KEY_NOT_FOUND
  | NS_ERROR_CACHE_DATA_IS_STREAM
  | NS_ERROR_CACHE_DATA_IS_NOT_STREAM
  | NS_ERROR_CACHE_WAIT_FOR_VALIDATION
  | NS_ERROR_CACHE_ENTRY_DOOMED
deriving DecidableEq

open nsresult

def NO_EXPIRATION_TIME : UInt32 := 0xFFFFFFFF

/-- A request. The number tells requests apart. -/
structure nsCacheRequest where
  id : ℕ
  mAccessRequested : nsCacheAccessMode
  /-- There is a listener, and the request is asynchronous. -/
  mListener : Bool
  streamBased : Bool
  storagePolicy : nsCacheStoragePolicy
  willDoomEntriesIfExpired : Bool
deriving DecidableEq

/-- A descriptor, with the number of the request it was made for. -/
structure nsCacheEntryDescriptor where
  id : ℕ
  mAccessGranted : nsCacheAccessMode
deriving DecidableEq

structure nsCacheEntry where
  mRequestQ : List nsCacheRequest := []
  mDescriptorQ : List nsCacheEntryDescriptor := []
  mExpirationTime : UInt32 := NO_EXPIRATION_TIME
  doomed : Bool := false
  streamData : Bool := false
  active : Bool := false
  initialized : Bool := false
  valid : Bool := false
deriving DecidableEq

/-- What the devices have under the key. -/
inductive Search
  | none
  | collision
  | found (streamData : Bool) (mExpirationTime : UInt32)

/-- The service, for one key. Entries are numbered as they are made, and the devices give some
answer to each search. -/
structure nsCacheService where
  entries : ℕ → nsCacheEntry
  newEntry : ℕ
  mActiveEntries : Option ℕ
  mEnableMemoryDevice : Bool
  mEnableDiskDevice : Bool
  now : UInt32
  devices : ℕ → Search
  searches : ℕ
  /-- The assertion in `nsCacheEntryHashTable::AddEntry` has failed. -/
  entryAlreadyUsed : Bool
  /-- The listeners that were called, with what they were told. -/
  notified : List (ℕ × Option nsCacheEntryDescriptor × nsresult)

namespace nsCacheService

def setEntry (w : nsCacheService) (e : ℕ) (f : nsCacheEntry → nsCacheEntry) : nsCacheService :=
  { w with entries := Function.update w.entries e (f (w.entries e)) }

/-- A new entry. -/
def alloc (w : nsCacheService) (entry : nsCacheEntry) : nsCacheService :=
  { w with entries := Function.update w.entries w.newEntry entry, newEntry := w.newEntry + 1 }

def IsStorageEnabledForPolicy_Locked (w : nsCacheService) (policy : nsCacheStoragePolicy) : Bool :=
  w.mEnableMemoryDevice && (policy = .STORE_ANYWHERE || policy = .STORE_IN_MEMORY) ||
    w.mEnableDiskDevice && (policy = .STORE_ANYWHERE || policy = .STORE_ON_DISK ||
      policy = .STORE_ON_DISK_AS_FILE)

def SearchCacheDevices (w : nsCacheService) : Search × nsCacheService :=
  (w.devices w.searches, { w with searches := w.searches + 1 })

/-- `nsCacheEntryHashTable::AddEntry` on the active entries. -/
def AddEntry (w : nsCacheService) (e : ℕ) : nsCacheService :=
  { w with mActiveEntries := some e,
           entryAlreadyUsed := w.entryAlreadyUsed || w.mActiveEntries.isSome }

def NotifyListener (w : nsCacheService) (request : nsCacheRequest)
    (descriptor : Option nsCacheEntryDescriptor) (error : nsresult) : nsCacheService :=
  { w with notified := w.notified ++ [(request.id, descriptor, error)] }

/-! ### Entries (`nsCacheEntry.cpp`) -/

/-- A request leaves the queue it is on. -/
def dequeue (w : nsCacheService) (e : ℕ) (request : nsCacheRequest) : nsCacheService :=
  w.setEntry e fun entry => { entry with mRequestQ := entry.mRequestQ.erase request }

def enqueue (w : nsCacheService) (e : ℕ) (request : nsCacheRequest) : nsCacheService :=
  w.setEntry e fun entry => { entry with mRequestQ := entry.mRequestQ ++ [request] }

def RequestAccess (w : nsCacheService) (e : ℕ) (request : nsCacheRequest) :
    nsCacheService × nsresult × nsCacheAccessMode :=
  let entry := w.entries e
  let accessRequested := request.mAccessRequested
  if !entry.initialized then
    -- a new entry
    ((w.setEntry e fun entry => { entry with
        streamData := entry.streamData || request.streamBased, initialized := true }).enqueue e request,
      NS_OK, ⟨false, accessRequested.write⟩)
  else if entry.doomed then (w, NS_ERROR_CACHE_ENTRY_DOOMED, ⟨false, false⟩)
  else if entry.streamData != request.streamBased then
    (w, if request.streamBased then NS_ERROR_CACHE_DATA_IS_NOT_STREAM
      else NS_ERROR_CACHE_DATA_IS_STREAM, ⟨false, false⟩)
  else if entry.mDescriptorQ = [] then
    -- the first descriptor of an entry that is there
    ((w.setEntry e fun entry => { entry with valid := !accessRequested.write }).enqueue e request,
      NS_OK, accessRequested)
  else
    (w.enqueue e request, if entry.valid then NS_OK else NS_ERROR_CACHE_WAIT_FOR_VALIDATION,
      ⟨accessRequested.read, false⟩)

def CreateDescriptor (w : nsCacheService) (e : ℕ) (request : nsCacheRequest)
    (accessGranted : nsCacheAccessMode) : nsCacheService :=
  (w.dequeue e request).setEntry e fun entry => { entry with
    mDescriptorQ := entry.mDescriptorQ ++ [⟨request.id, accessGranted⟩] }

/-! ### The service

The functions call each other in a circle: an entry is doomed, its requests are processed again, and
such a request may doom the entry that it finds. What is called last here is handed to what it is
called by. -/

section Circle
variable (process : nsCacheService → nsCacheRequest → Option nsCacheService)

/-- A request that was waiting for an entry that is now valid or has lost its writer. -/
def grantPending (w : nsCacheService) (e : ℕ) (request : nsCacheRequest) : nsCacheService :=
  let access := (w.dequeue e request).RequestAccess e request
  (access.1.CreateDescriptor e request access.2.2).NotifyListener request
    (some ⟨request.id, access.2.2⟩) NS_OK

/-- The loop over the requests of an entry. -/
def pendingLoop (e : ℕ) (newWriter : Bool) : nsCacheService → List nsCacheRequest →
    Option nsCacheService
  | w, [] => some w
  | w, request :: requests =>
    if request.mListener then
      if (w.entries e).doomed then
        (process (w.dequeue e request) request).bind fun w =>
          if newWriter then some w else pendingLoop e newWriter w requests
      else if (w.entries e).valid || newWriter then
        let w := w.grantPending e request
        if newWriter then some w else pendingLoop e newWriter w requests
      else
        -- the request is dropped
        let w := w.dequeue e request
        if newWriter then some w else pendingLoop e newWriter w requests
    else if newWriter then some w else pendingLoop e newWriter w requests

def ProcessPendingRequests (w : nsCacheService) (e : ℕ) : Option nsCacheService :=
  let entry := w.entries e
  if entry.mRequestQ = [] then some w
  else if !entry.doomed && !entry.valid then
    -- the writer is gone, and the first request that asked for it writes
    match entry.mRequestQ.find? (·.mAccessRequested = ACCESS_READ_WRITE) with
    | some request => pendingLoop process e true w [request]
    | none => pendingLoop process e false w entry.mRequestQ
  else pendingLoop process e false w entry.mRequestQ

/-- An entry that is not in use leaves the active ones. What the devices do then is not modelled. -/
def DeactivateEntry (w : nsCacheService) (e : ℕ) : nsCacheService :=
  if (w.entries e).doomed then w
  else if (w.entries e).active then
    { w.setEntry e fun entry => { entry with active := false } with mActiveEntries := none }
  else w

def IsNotInUse (w : nsCacheService) (e : ℕ) : Bool :=
  (w.entries e).mRequestQ = [] && (w.entries e).mDescriptorQ = []

/-- What dooming does before the requests are told. -/
def markDoomed (w : nsCacheService) (e : ℕ) : nsCacheService :=
  let marked := w.setEntry e fun entry => { entry with doomed := true, active := false }
  if (w.entries e).active then { marked with mActiveEntries := none } else marked

def DoomEntry_Internal (w : nsCacheService) (e : ℕ) : Option nsCacheService :=
  if (w.entries e).doomed then some w
  else (ProcessPendingRequests process (w.markDoomed e) e).map fun w =>
    if w.IsNotInUse e then w.DeactivateEntry e else w

/-- The entry under the key, active or in a device. -/
def findEntry (w : nsCacheService) : nsCacheService × Except nsresult (Option ℕ) :=
  match w.mActiveEntries with
  | some e => (w, .ok (some e))
  | none => match w.SearchCacheDevices with
    | (.collision, w) => (w, .error NS_ERROR_CACHE_IN_USE)
    | (.none, w) => (w, .ok none)
    | (.found streamData mExpirationTime, w) =>
      (w.alloc { streamData, mExpirationTime, initialized := true }, .ok (some w.newEntry))

/-- A request to force a write, or an entry that has expired. -/
def mustDoom (w : nsCacheService) (e : ℕ) (request : nsCacheRequest) : Bool :=
  request.mAccessRequested = ACCESS_WRITE ||
    (w.entries e).mExpirationTime ≤ w.now && request.willDoomEntriesIfExpired

/-- The entry becomes active, if it is not. -/
def activate (w : nsCacheService) (e : ℕ) : nsCacheService :=
  if (w.entries e).active then w
  else (w.AddEntry e).setEntry e fun entry => { entry with active := true }

/-- A request without an entry makes one, unless it only reads. -/
def createEntry (w : nsCacheService) (request : nsCacheRequest) :
    nsCacheService × Except nsresult ℕ :=
  if !request.mAccessRequested.write then (w, .error NS_ERROR_CACHE_KEY_NOT_FOUND)
  else ((w.alloc { streamData := request.streamBased }).activate w.newEntry, .ok w.newEntry)

def ActivateEntry (w : nsCacheService) (request : nsCacheRequest) :
    Option (nsCacheService × Except nsresult ℕ) :=
  if !w.mEnableMemoryDevice && !request.streamBased then some (w, .error NS_ERROR_FAILURE)
  else if !w.IsStorageEnabledForPolicy_Locked request.storagePolicy then
    some (w, .error NS_ERROR_FAILURE)
  else match w.findEntry with
    | (w, .error rv) => some (w, .error rv)
    | (w, .ok none) => some (w.createEntry request)
    | (w, .ok (some e)) =>
      if w.mustDoom e request then
        (DoomEntry_Internal process w e).map fun w => w.createEntry request
      else some (w.activate e, .ok e)

/-- What a request gives that has its entry. An entry that was just activated is not doomed, so the
loop to another entry is left out. -/
def serveRequest (w : nsCacheService) (e : ℕ) (request : nsCacheRequest) : nsCacheService × nsresult :=
  match w.RequestAccess e request with
  | (w, NS_OK, accessGranted) =>
    let w := w.CreateDescriptor e request accessGranted
    if request.mListener then
      (w.NotifyListener request (some ⟨request.id, accessGranted⟩) NS_OK, NS_OK)
    else (w, NS_OK)
  | (w, NS_ERROR_CACHE_WAIT_FOR_VALIDATION, _) =>
    if request.mListener then (w, NS_ERROR_CACHE_WAIT_FOR_VALIDATION)
    else (w.dequeue e request, NS_ERROR_CACHE_WAIT_FOR_VALIDATION)
  | (w, rv, _) => (w, rv)

/-- The listener is told of an error, unless the caller is. -/
def reportError (w : nsCacheService) (request : nsCacheRequest) (calledFromOpenCacheEntry : Bool)
    (rv : nsresult) : nsCacheService :=
  if request.mListener && !calledFromOpenCacheEntry && rv != NS_OK &&
    rv != NS_ERROR_CACHE_WAIT_FOR_VALIDATION then w.NotifyListener request none rv else w

def ValidateEntry (w : nsCacheService) (e : ℕ) (hasDevice : Bool) : Option nsCacheService :=
  if hasDevice then
    ProcessPendingRequests process (w.setEntry e fun entry => { entry with valid := true }) e
  else some w

def RemoveDescriptor (w : nsCacheService) (e d : ℕ) : nsCacheService × Bool :=
  let w := w.setEntry e fun entry => { entry with
    mDescriptorQ := entry.mDescriptorQ.eraseP (·.id = d) }
  (w, !w.IsNotInUse e)

def CloseDescriptor (w : nsCacheService) (e d : ℕ) : Option nsCacheService :=
  let (w, stillActive) := w.RemoveDescriptor e d
  (if (w.entries e).valid then some w else ProcessPendingRequests process w e).map fun w =>
    if stillActive then w else w.DeactivateEntry e

/-- What a request goes on to that got its entry, or none. -/
def proceed (request : nsCacheRequest) (calledFromOpenCacheEntry : Bool) :
    nsCacheService × Except nsresult ℕ → nsCacheService × nsresult
  | (w, .error rv) => (w.reportError request calledFromOpenCacheEntry rv, rv)
  | (w, .ok e) =>
    let served := w.serveRequest e request
    (served.1.reportError request calledFromOpenCacheEntry served.2, served.2)

def ProcessRequestWith (w : nsCacheService) (request : nsCacheRequest)
    (calledFromOpenCacheEntry : Bool) : Option (nsCacheService × nsresult) :=
  (ActivateEntry process w request).map (proceed request calledFromOpenCacheEntry)

end Circle

/-- The number bounds how deep a request is processed within the processing of others. -/
def ProcessRequest : ℕ → nsCacheService → nsCacheRequest → Bool → Option (nsCacheService × nsresult)
  | 0 => fun _ _ _ => none
  | n + 1 => ProcessRequestWith fun w request => (ProcessRequest n w request false).map (·.1)

/-- A pending request is processed. -/
def processPending (n : ℕ) (w : nsCacheService) (request : nsCacheRequest) : Option nsCacheService :=
  (ProcessRequest n w request false).map (·.1)

/-- The descriptor is open, on the entry. -/
def HasDescriptor (w : nsCacheService) (e d : ℕ) : Prop :=
  ∃ descriptor ∈ (w.entries e).mDescriptorQ, descriptor.id = d

instance (w : nsCacheService) (e d : ℕ) : Decidable (w.HasDescriptor e d) :=
  inferInstanceAs (Decidable (∃ descriptor ∈ (w.entries e).mDescriptorQ, descriptor.id = d))

end nsCacheService

/-! ### Runs -/

/-- What the clients call, and what changes around them. -/
inductive Call
  | OpenCacheEntry (accessRequested : nsCacheAccessMode) (listener streamBased : Bool)
      (storagePolicy : nsCacheStoragePolicy) (willDoomEntriesIfExpired : Bool)
  | MarkValid (e d : ℕ) (hasDevice : Bool)
  | Doom (e d : ℕ)
  | Close (e d : ℕ)
  | SetExpirationTime (e d : ℕ) (expirationTime : UInt32)
  | passTime (now : UInt32)
  | enable (memoryDevice diskDevice : Bool)

/-- The service, and the requests so far with what `OpenCacheEntry` returned for them. -/
structure State where
  service : nsCacheService
  issued : List (nsCacheRequest × nsresult) := []

namespace State

def start (devices : ℕ → Search) (now : UInt32) : State where
  service :=
    { entries := fun _ => {}, newEntry := 0, mActiveEntries := none, mEnableMemoryDevice := true,
      mEnableDiskDevice := true, now, devices, searches := 0, entryAlreadyUsed := false,
      notified := [] }

/-- A call to a descriptor does nothing when it is closed. -/
def step (n : ℕ) (s : State) : Call → Option State
  | .OpenCacheEntry accessRequested listener streamBased storagePolicy willDoomEntriesIfExpired =>
    let request : nsCacheRequest := ⟨s.issued.length, accessRequested, listener, streamBased,
      storagePolicy, willDoomEntriesIfExpired⟩
    (s.service.ProcessRequest n request true).map fun result =>
      ⟨result.1, s.issued ++ [(request, result.2)]⟩
  | .MarkValid e d hasDevice =>
    if s.service.HasDescriptor e d then
      (s.service.ValidateEntry (nsCacheService.processPending n) e hasDevice).map (⟨·, s.issued⟩)
    else some s
  | .Doom e d =>
    if s.service.HasDescriptor e d then
      (s.service.DoomEntry_Internal (nsCacheService.processPending n) e).map (⟨·, s.issued⟩)
    else some s
  | .Close e d =>
    if s.service.HasDescriptor e d then
      (s.service.CloseDescriptor (nsCacheService.processPending n) e d).map (⟨·, s.issued⟩)
    else some s
  | .SetExpirationTime e d mExpirationTime =>
    if s.service.HasDescriptor e d then
      some { s with service := s.service.setEntry e fun entry => { entry with mExpirationTime } }
    else some s
  | .passTime now => some { s with service := { s.service with now } }
  | .enable mEnableMemoryDevice mEnableDiskDevice =>
    some { s with service := { s.service with mEnableMemoryDevice, mEnableDiskDevice } }

def run (n : ℕ) (s : State) : List Call → Option State
  | [] => some s
  | call :: calls => (s.step n call).bind fun s => s.run n calls

end State

end Kompozer.Cache.Requests

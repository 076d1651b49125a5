import Kompozer.Cache.Requests
import Mathlib.Algebra.BigOperators.Group.Finset.Piecewise
import Mathlib.Algebra.BigOperators.Intervals
import Mathlib.Data.Finset.Range

/-! What every function of the request protocol keeps, whatever state it is called in: doomed entries
stay as they are, and no request is lost or made twice. -/

namespace Kompozer.Cache.Requests

namespace nsCacheService

/-! ### One entry changes -/

section Fields
variable (w : nsCacheService) (e : ℕ) (f : nsCacheEntry → nsCacheEntry)

@[simp] theorem newEntry_setEntry : (w.setEntry e f).newEntry = w.newEntry := rfl
@[simp] theorem mActiveEntries_setEntry : (w.setEntry e f).mActiveEntries = w.mActiveEntries := rfl
@[simp] theorem notified_setEntry : (w.setEntry e f).notified = w.notified := rfl

@[simp] theorem entries_setEntry_self : (w.setEntry e f).entries e = f (w.entries e) :=
  Function.update_self _ _ _

variable {e} in
theorem entries_setEntry_of_ne {e' : ℕ} (h : e' ≠ e) :
    (w.setEntry e f).entries e' = w.entries e' :=
  Function.update_of_ne h _ _

theorem setEntry_setEntry (g : nsCacheEntry → nsCacheEntry) :
    (w.setEntry e f).setEntry e g = w.setEntry e fun entry => g (f entry) := by
  simp [setEntry]

@[simp] theorem entries_alloc_new (entry : nsCacheEntry) :
    (w.alloc entry).entries w.newEntry = entry :=
  Function.update_self _ _ _

variable {e} in
theorem entries_alloc_of_ne {entry : nsCacheEntry} (h : e ≠ w.newEntry) :
    (w.alloc entry).entries e = w.entries e :=
  Function.update_of_ne h _ _

end Fields

/-! ### Sums over the entries -/

/-- A number of each entry, summed. -/
def total (w : nsCacheService) (m : nsCacheEntry → ℕ) : ℕ :=
  ∑ e ∈ Finset.range w.newEntry, m (w.entries e)

theorem total_setEntry {w : nsCacheService} {e : ℕ} (he : e < w.newEntry)
    (f : nsCacheEntry → nsCacheEntry) (m : nsCacheEntry → ℕ) :
    (w.setEntry e f).total m + m (w.entries e) = w.total m + m (f (w.entries e)) := by
  have hmem := Finset.mem_range.mpr he
  have hrest : ∑ e' ∈ (Finset.range w.newEntry).erase e, m ((w.setEntry e f).entries e') =
      ∑ e' ∈ (Finset.range w.newEntry).erase e, m (w.entries e') := by
    apply Finset.sum_congr rfl
    intro e' he'
    rw [entries_setEntry_of_ne w f (Finset.ne_of_mem_erase he')]
  rw [total, total, newEntry_setEntry, ← Finset.add_sum_erase _ _ hmem,
    ← Finset.add_sum_erase _ (fun e' => m (w.entries e')) hmem, hrest, entries_setEntry_self]
  omega

theorem total_alloc (w : nsCacheService) (entry : nsCacheEntry) (m : nsCacheEntry → ℕ) :
    (w.alloc entry).total m = w.total m + m entry := by
  rw [total, total]
  show ∑ e ∈ Finset.range (w.newEntry + 1), _ = _
  rw [Finset.sum_range_succ, entries_alloc_new]
  congr 1
  apply Finset.sum_congr rfl
  intro e he
  rw [entries_alloc_of_ne w (Nat.ne_of_lt (Finset.mem_range.mp he))]

/-- The requests that wait. -/
def pending (w : nsCacheService) : ℕ := w.total (·.mRequestQ.length)

/-- How often a request waits or its listener was called. -/
def tally (w : nsCacheService) (id : ℕ) : ℕ :=
  w.total (·.mRequestQ.countP (·.id = id)) + w.notified.countP (·.1 = id)

/-! ### States that can be reached -/

/-- The active entry is there and not doomed, and only asynchronous requests wait. -/
structure Weak (w : nsCacheService) : Prop where
  active : ∀ e, w.mActiveEntries = some e →
    e < w.newEntry ∧ (w.entries e).active = true ∧ (w.entries e).doomed = false
  fresh : ∀ e, w.newEntry ≤ e → w.entries e = {}
  queued : ∀ e, ∀ r ∈ (w.entries e).mRequestQ, r.mListener = true

theorem Weak.lt_of_request {w : nsCacheService} (h : w.Weak) {e : ℕ} {r : nsCacheRequest}
    (hr : r ∈ (w.entries e).mRequestQ) : e < w.newEntry := by
  by_contra hge
  rw [h.fresh e (Nat.le_of_not_lt hge)] at hr
  exact List.not_mem_nil hr

theorem Weak.setEntry {w : nsCacheService} (h : w.Weak) {e : ℕ} {f : nsCacheEntry → nsCacheEntry}
    (he : e < w.newEntry) (hactive : (f (w.entries e)).active = (w.entries e).active)
    (hdoomed : (f (w.entries e)).doomed = (w.entries e).doomed)
    (hqueue : ∀ r ∈ (f (w.entries e)).mRequestQ, r.mListener = true) : (w.setEntry e f).Weak := by
  constructor
  · intro e' he'
    obtain ⟨hlt, hact, hdoom⟩ := h.active e' he'
    refine ⟨hlt, ?_⟩
    by_cases heq : e' = e
    · subst heq
      rw [entries_setEntry_self, hactive, hdoomed]
      exact ⟨hact, hdoom⟩
    · rw [entries_setEntry_of_ne w f heq]
      exact ⟨hact, hdoom⟩
  · intro e' he'
    have hne : e' ≠ e := fun heq => Nat.not_lt.mpr he' (heq ▸ he)
    rw [entries_setEntry_of_ne w f hne]
    exact h.fresh e' he'
  · intro e' r hr
    by_cases heq : e' = e
    · subst heq
      rw [entries_setEntry_self] at hr
      exact hqueue r hr
    · rw [entries_setEntry_of_ne w f heq] at hr
      exact h.queued e' r hr

/-! ### Outcomes -/

/-- From one state to another some request is added so many times to those that wait or were
answered. Doomed entries stay, up to one whose requests are being processed. -/
structure Outcome (x : Option ℕ) (w w' : nsCacheService) (id : ℕ) (c : Int) : Prop where
  weak : w'.Weak
  newEntry : w.newEntry ≤ w'.newEntry
  pending : (w'.pending : Int) ≤ w.pending + c
  tally : ∀ i, (w'.tally i : Int) = w.tally i + if i = id then c else 0
  used : w.entryAlreadyUsed = true → w'.entryAlreadyUsed = true
  exempt : ∀ e, x = some e → (w.entries e).doomed = true ∧ (w'.entries e).doomed = true
  doomed : ∀ e, (w.entries e).doomed = true → x ≠ some e → w'.entries e = w.entries e
  retired : ∀ e, (w'.entries e).doomed = true →
    (w.entries e).doomed = true ∨ (w'.entries e).mRequestQ = []

theorem Outcome.refl {w : nsCacheService} (h : w.Weak) (id : ℕ) : Outcome none w w id 0 where
  weak := h
  newEntry := Nat.le_refl _
  pending := by omega
  tally := fun i => by split <;> omega
  used := fun h => h
  exempt := fun e he => nomatch he
  doomed := fun _ _ _ => rfl
  retired := fun _ he => Or.inl he

section Outcome
variable {x : Option ℕ} {w w' w'' : nsCacheService} {id : ℕ} {a b : Int}

theorem Outcome.trans (h : Outcome x w w' id a) (h' : Outcome x w' w'' id b) :
    Outcome x w w'' id (a + b) where
  weak := h'.weak
  newEntry := h.newEntry.trans h'.newEntry
  pending := by
    have h1 := h.pending
    have h2 := h'.pending
    omega
  tally := fun i => by
    have h1 := h.tally i
    have h2 := h'.tally i
    split_ifs at h1 h2 ⊢ <;> omega
  used := fun hu => h'.used (h.used hu)
  exempt := fun e he => ⟨(h.exempt e he).1, (h'.exempt e he).2⟩
  doomed := fun e he hx => by
    have hmid := h.doomed e he hx
    rw [h'.doomed e (by rw [hmid]; exact he) hx, hmid]
  retired := fun e he => by
    by_cases hx : x = some e
    · exact Or.inl (h.exempt e hx).1
    · rcases h'.retired e he with hmid | hqueue
      · rcases h.retired e hmid with hd | hqueue
        · exact Or.inl hd
        · rw [h'.doomed e hmid hx]
          exact Or.inr hqueue
      · exact Or.inr hqueue

/-- Where nothing is added it does not matter which request it is about. -/
theorem Outcome.retag (h : Outcome x w w' id 0) (id' : ℕ) : Outcome x w w' id' 0 :=
  { h with
    tally := fun i => by
      have hi := h.tally i
      split_ifs at hi ⊢ <;> omega }

theorem Outcome.exempting (h : Outcome none w w' id a) {e : ℕ}
    (he : (w.entries e).doomed = true) : Outcome (some e) w w' id a :=
  { h with
    exempt := fun e' he' => by
      obtain rfl := Option.some.inj he'
      refine ⟨he, ?_⟩
      rw [h.doomed _ he (by simp)]
      exact he
    doomed := fun e' he' _ => h.doomed e' he' (by simp) }

theorem Outcome.setEntry (hw : w.Weak) {e : ℕ} {f : nsCacheEntry → nsCacheEntry}
    (he : e < w.newEntry) (hactive : (f (w.entries e)).active = (w.entries e).active)
    (hdoomed : (f (w.entries e)).doomed = (w.entries e).doomed)
    (hqueue : ∀ r ∈ (f (w.entries e)).mRequestQ, r.mListener = true)
    (hx : x = if (w.entries e).doomed then some e else none)
    (hlen : ((f (w.entries e)).mRequestQ.length : Int) = (w.entries e).mRequestQ.length + a)
    (hcount : ∀ i, ((f (w.entries e)).mRequestQ.countP (·.id = i) : Int) =
      (w.entries e).mRequestQ.countP (·.id = i) + if i = id then a else 0) :
    Outcome x w (w.setEntry e f) id a where
  weak := hw.setEntry he hactive hdoomed hqueue
  newEntry := Nat.le_refl _
  pending := by
    have htotal := total_setEntry he f (·.mRequestQ.length)
    rw [nsCacheService.pending, nsCacheService.pending]
    omega
  tally := fun i => by
    have htotal := total_setEntry he f (·.mRequestQ.countP (·.id = i))
    have hi := hcount i
    rw [nsCacheService.tally, nsCacheService.tally, notified_setEntry]
    split_ifs at hi ⊢ <;> omega
  used := fun hu => hu
  exempt := fun e' he' => by
    rw [hx] at he'
    split_ifs at he' with hd
    obtain rfl := Option.some.inj he'
    rw [entries_setEntry_self, hdoomed]
    exact ⟨hd, hd⟩
  doomed := fun e' he' hne => by
    have heq : e' ≠ e := by
      rintro rfl
      rw [hx, if_pos he'] at hne
      exact hne rfl
    exact entries_setEntry_of_ne w f heq
  retired := fun e' he' => by
    by_cases heq : e' = e
    · subst heq
      rw [entries_setEntry_self, hdoomed] at he'
      exact Or.inl he'
    · rw [entries_setEntry_of_ne w f heq] at he'
      exact Or.inl he'

theorem Outcome.notify (hw : w.Weak) (request : nsCacheRequest)
    (descriptor : Option nsCacheEntryDescriptor) (error : nsresult) :
    Outcome none w (w.NotifyListener request descriptor error) request.id 1 where
  weak := ⟨hw.active, hw.fresh, hw.queued⟩
  newEntry := Nat.le_refl _
  pending := by
    show (w.pending : Int) ≤ w.pending + 1
    omega
  tally := fun i => by
    have htotal : ∀ m, (w.NotifyListener request descriptor error).total m = w.total m :=
      fun _ => rfl
    have hcount : (w.NotifyListener request descriptor error).notified.countP (·.1 = i) =
        w.notified.countP (·.1 = i) + if i = request.id then 1 else 0 := by
      rw [NotifyListener, List.countP_append, List.countP_singleton]
      by_cases hi : i = request.id
      · simp [hi]
      · have hne : ¬request.id = i := fun h => hi h.symm
        simp [hi, hne]
    rw [nsCacheService.tally, nsCacheService.tally, htotal, hcount]
    split_ifs <;> omega
  used := fun hu => hu
  exempt := fun e he => nomatch he
  doomed := fun _ _ _ => rfl
  retired := fun _ he => Or.inl he

/-- A waiting request leaves its queue. -/
theorem Outcome.dequeue (hw : w.Weak) {e : ℕ} {request : nsCacheRequest}
    (hmem : request ∈ (w.entries e).mRequestQ) :
    Outcome (if (w.entries e).doomed then some e else none) w (w.dequeue e request) request.id
      (-1) := by
  have hperm := List.perm_cons_erase hmem
  refine Outcome.setEntry hw (hw.lt_of_request hmem) rfl rfl ?_ rfl ?_ ?_
  · intro r hr
    exact hw.queued e r (List.mem_of_mem_erase hr)
  · have hlen := hperm.length_eq
    rw [List.length_cons] at hlen
    dsimp only
    omega
  · intro i
    have hcount := hperm.countP_eq (fun r : nsCacheRequest => decide (r.id = i))
    rw [List.countP_cons] at hcount
    dsimp only
    by_cases hi : i = request.id
    · simp only [hi, decide_true, if_true] at hcount ⊢
      omega
    · have hne : ¬request.id = i := fun h => hi h.symm
      simp only [hi, hne, decide_false, Bool.false_eq_true, if_false] at hcount ⊢
      omega

/-- A request waits for an entry that is not doomed. -/
theorem Outcome.enqueue (hw : w.Weak) {e : ℕ} {request : nsCacheRequest} (he : e < w.newEntry)
    (hdoomed : (w.entries e).doomed = false) (hlistener : request.mListener = true) :
    Outcome none w (w.enqueue e request) request.id 1 := by
  refine Outcome.setEntry hw he rfl rfl ?_ (by rw [hdoomed]; rfl) ?_ ?_
  · intro r hr
    rcases List.mem_append.mp hr with hr | hr
    · exact hw.queued e r hr
    · rw [List.mem_singleton.mp hr]
      exact hlistener
  · simp
  · intro i
    rw [List.countP_append, List.countP_singleton]
    by_cases hi : i = request.id
    · simp only [hi, decide_true, if_true]
      omega
    · have hne : ¬request.id = i := fun h => hi h.symm
      simp only [hi, hne, decide_false, Bool.false_eq_true, if_false]
      omega

end Outcome

/-! ### Access to an entry -/

section Access
variable {w : nsCacheService} {e : ℕ} {request : nsCacheRequest}

theorem access_new (hinit : (w.entries e).initialized = false) : w.RequestAccess e request =
    ((w.setEntry e fun entry => { entry with
      streamData := entry.streamData || request.streamBased, initialized := true }).enqueue e request,
      .NS_OK, ⟨false, request.mAccessRequested.write⟩) := by
  rw [RequestAccess]
  simp only [hinit, Bool.not_false, if_true]

theorem access_mismatch (hinit : (w.entries e).initialized = true)
    (hdoomed : (w.entries e).doomed = false)
    (hstream : (w.entries e).streamData ≠ request.streamBased) : w.RequestAccess e request =
    (w, if request.streamBased then .NS_ERROR_CACHE_DATA_IS_NOT_STREAM
      else .NS_ERROR_CACHE_DATA_IS_STREAM, ⟨false, false⟩) := by
  rw [RequestAccess]
  simp only [hinit, hdoomed, Bool.not_true, Bool.false_eq_true, if_false, bne_iff_ne, ne_eq,
    hstream, not_false_eq_true, if_true]

theorem access_first (hinit : (w.entries e).initialized = true)
    (hdoomed : (w.entries e).doomed = false)
    (hstream : (w.entries e).streamData = request.streamBased)
    (hnone : (w.entries e).mDescriptorQ = []) : w.RequestAccess e request =
    ((w.setEntry e fun entry => { entry with
      valid := !request.mAccessRequested.write }).enqueue e request, .NS_OK,
      request.mAccessRequested) := by
  rw [RequestAccess]
  simp only [hinit, hdoomed, hstream, hnone, Bool.not_true, Bool.false_eq_true, if_false,
    bne_self_eq_false, if_true]

theorem access_ready (hinit : (w.entries e).initialized = true)
    (hdoomed : (w.entries e).doomed = false)
    (hstream : (w.entries e).streamData = request.streamBased)
    (hsome : (w.entries e).mDescriptorQ ≠ []) (hvalid : (w.entries e).valid = true) :
    w.RequestAccess e request = ((w.setEntry e fun entry => entry).enqueue e request, .NS_OK,
      ⟨request.mAccessRequested.read, false⟩) := by
  have hsame : w.setEntry e (fun entry => entry) = w := by
    rw [nsCacheService.setEntry, Function.update_eq_self]
  rw [hsame, RequestAccess]
  simp only [hinit, hdoomed, hstream, hsome, hvalid, Bool.not_true, Bool.false_eq_true, if_false,
    bne_self_eq_false, if_true]

theorem access_wait (hinit : (w.entries e).initialized = true)
    (hdoomed : (w.entries e).doomed = false)
    (hstream : (w.entries e).streamData = request.streamBased)
    (hsome : (w.entries e).mDescriptorQ ≠ []) (hvalid : (w.entries e).valid = false) :
    w.RequestAccess e request = (w.enqueue e request, .NS_ERROR_CACHE_WAIT_FOR_VALIDATION,
      ⟨request.mAccessRequested.read, false⟩) := by
  rw [RequestAccess]
  simp only [hinit, hdoomed, hstream, hsome, hvalid, Bool.not_true, Bool.false_eq_true, if_false,
    bne_self_eq_false]

/-- An entry after a request has its descriptor. -/
def granted (request : nsCacheRequest) (access : nsCacheAccessMode) (entry : nsCacheEntry) :
    nsCacheEntry :=
  { entry with
    mRequestQ := (entry.mRequestQ ++ [request]).erase request
    mDescriptorQ := entry.mDescriptorQ ++ [⟨request.id, access⟩] }

theorem createDescriptor_enqueue (g : nsCacheEntry → nsCacheEntry) (access : nsCacheAccessMode) :
    ((w.setEntry e g).enqueue e request).CreateDescriptor e request access =
      w.setEntry e fun entry => granted request access (g entry) := by
  rw [CreateDescriptor, nsCacheService.dequeue, nsCacheService.enqueue, setEntry_setEntry,
    setEntry_setEntry, setEntry_setEntry]
  rfl

theorem perm_erase_append (r : nsCacheRequest) (q : List nsCacheRequest) :
    ((q ++ [r]).erase r).Perm q := by
  have hswap : (q ++ [r]).Perm (r :: q) := List.perm_append_singleton _ _
  have herase := hswap.erase r
  rwa [List.erase_cons_head] at herase

/-- A queue keeps its requests. -/
theorem Outcome.permute (hw : w.Weak) (he : e < w.newEntry) (hdoomed : (w.entries e).doomed = false)
    {f : nsCacheEntry → nsCacheEntry} (hactive : (f (w.entries e)).active = (w.entries e).active)
    (hsame : (f (w.entries e)).doomed = (w.entries e).doomed)
    (hperm : (f (w.entries e)).mRequestQ.Perm (w.entries e).mRequestQ) (id : ℕ) :
    Outcome none w (w.setEntry e f) id 0 := by
  refine Outcome.setEntry hw he hactive hsame ?_ (by rw [hdoomed]; rfl) ?_ ?_
  · intro r hr
    exact hw.queued e r (hperm.mem_iff.mp hr)
  · rw [hperm.length_eq, Int.add_zero]
  · intro i
    rw [hperm.countP_eq]
    split <;> omega

end Access

/-! ### Serving a request -/

/-- Once for an asynchronous request that was granted or waits. -/
def answered (request : nsCacheRequest) (rv : nsresult) : Int :=
  if request.mListener = true ∧ (rv = .NS_OK ∨ rv = .NS_ERROR_CACHE_WAIT_FOR_VALIDATION) then 1
  else 0

theorem answered_error {request : nsCacheRequest} {rv : nsresult} (hok : rv ≠ .NS_OK)
    (hwait : rv ≠ .NS_ERROR_CACHE_WAIT_FOR_VALIDATION) : answered request rv = 0 :=
  if_neg fun h => h.2.elim hok hwait

section Serve
variable {w : nsCacheService} {e : ℕ} {request : nsCacheRequest}

theorem serve_granted {g : nsCacheEntry → nsCacheEntry} {access : nsCacheAccessMode}
    (h : w.RequestAccess e request = ((w.setEntry e g).enqueue e request, .NS_OK, access)) :
    w.serveRequest e request =
      (if request.mListener then (w.setEntry e fun entry => granted request access (g entry)
        ).NotifyListener request (some ⟨request.id, access⟩) .NS_OK
      else w.setEntry e fun entry => granted request access (g entry), .NS_OK) := by
  rw [serveRequest, h]
  simp only [createDescriptor_enqueue]
  split <;> rfl

theorem Outcome.serve_granted (hw : w.Weak) (he : e < w.newEntry)
    (hdoomed : (w.entries e).doomed = false) {g : nsCacheEntry → nsCacheEntry}
    (hactive : (g (w.entries e)).active = (w.entries e).active)
    (hsame : (g (w.entries e)).doomed = (w.entries e).doomed)
    (hqueue : (g (w.entries e)).mRequestQ = (w.entries e).mRequestQ) {access : nsCacheAccessMode}
    (h : w.RequestAccess e request = ((w.setEntry e g).enqueue e request, .NS_OK, access)) :
    Outcome none w (w.serveRequest e request).1 request.id
      (answered request (w.serveRequest e request).2) := by
  have hgrant : Outcome none w (w.setEntry e fun entry => granted request access (g entry))
      request.id 0 := by
    refine Outcome.permute (f := fun entry => granted request access (g entry)) hw he hdoomed
      hactive hsame ?_ request.id
    rw [granted, hqueue]
    exact perm_erase_append request _
  rw [nsCacheService.serve_granted h, answered]
  by_cases hlistener : request.mListener = true
  · simp only [hlistener, if_true, true_and, true_or]
    have hnotify := hgrant.trans (Outcome.notify hgrant.weak request (some ⟨request.id, access⟩) .NS_OK)
    exact hnotify
  · simp only [hlistener, Bool.false_eq_true, if_false, false_and]
    exact hgrant

theorem serve_wait (h : w.RequestAccess e request =
    (w.enqueue e request, .NS_ERROR_CACHE_WAIT_FOR_VALIDATION, access)) :
    w.serveRequest e request =
      (if request.mListener then w.enqueue e request
        else w.setEntry e fun entry =>
          { entry with mRequestQ := (entry.mRequestQ ++ [request]).erase request },
        .NS_ERROR_CACHE_WAIT_FOR_VALIDATION) := by
  rw [serveRequest, h]
  dsimp only
  split
  · rfl
  · rw [nsCacheService.enqueue, nsCacheService.dequeue, setEntry_setEntry]

theorem serve_mismatch (hinit : (w.entries e).initialized = true)
    (hdoomed : (w.entries e).doomed = false)
    (hstream : (w.entries e).streamData ≠ request.streamBased) :
    w.serveRequest e request = (w, if request.streamBased then .NS_ERROR_CACHE_DATA_IS_NOT_STREAM
      else .NS_ERROR_CACHE_DATA_IS_STREAM) := by
  rw [serveRequest, access_mismatch hinit hdoomed hstream]
  cases request.streamBased <;> rfl

variable (request) in
theorem Outcome.serveRequest (hw : w.Weak) (he : w.mActiveEntries = some e) :
    Outcome none w (w.serveRequest e request).1 request.id
      (answered request (w.serveRequest e request).2) := by
  obtain ⟨hlt, -, hdoomed⟩ := hw.active e he
  by_cases hinit : (w.entries e).initialized = true
  · by_cases hstream : (w.entries e).streamData = request.streamBased
    · by_cases hnone : (w.entries e).mDescriptorQ = []
      · exact Outcome.serve_granted hw hlt hdoomed rfl rfl rfl
          (access_first hinit hdoomed hstream hnone)
      · by_cases hvalid : (w.entries e).valid = true
        · exact Outcome.serve_granted hw hlt hdoomed rfl rfl rfl
            (access_ready hinit hdoomed hstream hnone hvalid)
        · rw [serve_wait (access_wait hinit hdoomed hstream hnone (by simpa using hvalid)), answered]
          by_cases hlistener : request.mListener = true
          · simp only [hlistener, if_true, or_true, and_true]
            exact Outcome.enqueue hw hlt hdoomed hlistener
          · simp only [hlistener, Bool.false_eq_true, if_false, false_and]
            exact Outcome.permute hw hlt hdoomed rfl rfl (perm_erase_append request _) request.id
    · rw [serve_mismatch hinit hdoomed hstream]
      cases request.streamBased
      · rw [if_neg Bool.false_ne_true, answered_error (by simp) (by simp)]
        exact Outcome.refl hw request.id
      · rw [if_pos rfl, answered_error (by simp) (by simp)]
        exact Outcome.refl hw request.id
  · exact Outcome.serve_granted hw hlt hdoomed rfl rfl rfl (access_new (by simpa using hinit))

end Serve

end nsCacheService

end Kompozer.Cache.Requests

import Kompozer.Cache.Processing

/-! Who has a descriptor of which entry: as long as no entry is put in the place of another, the
entries keep their writers and readers apart. -/

namespace Kompozer.Cache.Requests

/-! ### Entries -/

/-- What holds of an entry while its requests are processed. -/
structure nsCacheEntry.Open (entry : nsCacheEntry) : Prop where
  waiting : entry.mRequestQ ≠ [] → entry.mDescriptorQ ≠ []
  single : entry.valid = false → entry.mDescriptorQ.length ≤ 1
  readers : ∀ d ∈ entry.mDescriptorQ, d.mAccessGranted.write = false → entry.valid = true
  used : entry.mDescriptorQ ≠ [] → entry.doomed = false → entry.active = true
  ready : entry.active = true → entry.initialized = true
  matching : ∀ r ∈ entry.mRequestQ, r.streamBased = entry.streamData

/-- For a valid entry nothing waits. -/
structure nsCacheEntry.Sound (entry : nsCacheEntry) : Prop extends entry.Open where
  quiet : entry.valid = true → entry.mRequestQ = []

theorem nsCacheEntry.Sound.stored (streamData : Bool) (mExpirationTime : UInt32) (b : Bool) :
    nsCacheEntry.Sound { streamData, mExpirationTime, initialized := b } where
  waiting := fun h => absurd rfl h
  single := fun _ => Nat.zero_le _
  readers := fun _ hd => absurd hd List.not_mem_nil
  used := fun h => absurd rfl h
  ready := fun h => nomatch h
  matching := fun _ hr => absurd hr List.not_mem_nil
  quiet := fun _ => rfl

namespace nsCacheService

variable {process : nsCacheService → nsCacheRequest → Option nsCacheService}

structure Sound (w : nsCacheService) : Prop where
  entries : ∀ e, (w.entries e).Sound
  active : ∀ e, (w.entries e).active = true → w.mActiveEntries = some e

theorem Sound.setEntry {w : nsCacheService} (h : w.Sound) {e : ℕ} {f : nsCacheEntry → nsCacheEntry}
    (hf : (f (w.entries e)).Sound)
    (hactive : (f (w.entries e)).active = true → (w.entries e).active = true) :
    (w.setEntry e f).Sound := by
  constructor
  · intro e'
    by_cases heq : e' = e
    · subst heq
      rw [entries_setEntry_self]
      exact hf
    · rw [entries_setEntry_of_ne w f heq]
      exact h.entries e'
  · intro e' he'
    by_cases heq : e' = e
    · subst heq
      rw [entries_setEntry_self] at he'
      exact h.active e' (hactive he')
    · rw [entries_setEntry_of_ne w f heq] at he'
      exact h.active e' he'

theorem Sound.dequeue {w : nsCacheService} (h : w.Sound) (e : ℕ) (r : nsCacheRequest) :
    (w.dequeue e r).Sound := by
  have he := h.entries e
  refine h.setEntry ?_ (fun hact => hact)
  have hne : (w.entries e).mRequestQ.erase r ≠ [] → (w.entries e).mRequestQ ≠ [] := by
    intro hne hnil
    rw [hnil] at hne
    exact hne rfl
  exact
    { waiting := fun hq => he.waiting (hne hq)
      single := he.single
      readers := he.readers
      used := he.used
      ready := he.ready
      matching := fun r' hr' => he.matching r' (List.mem_of_mem_erase hr')
      quiet := fun hv => by
        show (w.entries e).mRequestQ.erase r = []
        rw [he.quiet hv]
        rfl }

theorem Sound.markDoomed {w : nsCacheService} (h : w.Sound) (e : ℕ) : (w.markDoomed e).Sound := by
  constructor
  · intro e'
    by_cases heq : e' = e
    · subst heq
      have he := h.entries e'
      rw [entries_markDoomed_self]
      exact
        { waiting := he.waiting
          single := he.single
          readers := he.readers
          used := fun _ hd => nomatch hd
          ready := fun hact => nomatch hact
          matching := he.matching
          quiet := he.quiet }
    · rw [entries_markDoomed_of_ne w heq]
      exact h.entries e'
  · intro e' he'
    by_cases heq : e' = e
    · subst heq
      rw [entries_markDoomed_self] at he'
      cases he'
    · rw [entries_markDoomed_of_ne w heq] at he'
      have hact := h.active e' he'
      rw [mActiveEntries_markDoomed, if_neg, hact]
      intro hother
      exact heq (Option.some.inj (hact.symm.trans (h.active e hother)))

/-! ### Processing -/

/-- A pending request that is processed keeps readers and writers apart, unless an entry was put in
the place of another. -/
def Safe (process : nsCacheService → nsCacheRequest → Option nsCacheService) : Prop :=
  ∀ w r w', w.Weak → r.mListener = true → process w r = some w' →
    w'.entryAlreadyUsed = false → w.Sound → w'.Sound

theorem Outcome.unused {x : Option ℕ} {w w' : nsCacheService} {id : ℕ} {c : Int}
    (h : Outcome x w w' id c) (hu : w'.entryAlreadyUsed = false) : w.entryAlreadyUsed = false := by
  by_contra hne
  rw [h.used (by simpa using hne)] at hu
  cases hu

theorem Safe.pendingLoop (hs : Safe process) (hp : Keeps process) {requests : List nsCacheRequest}
    {w w' : nsCacheService} {e : ℕ} (hw : w.Weak) (hsound : w.Sound)
    (hdoomed : (w.entries e).doomed = true) (hqueue : (w.entries e).mRequestQ = requests)
    (h : w.pendingLoop process e false requests = some w') (hu : w'.entryAlreadyUsed = false) :
    w'.Sound := by
  induction requests generalizing w with
  | nil =>
    obtain rfl := Option.some.inj h
    exact hsound
  | cons r rest ih =>
    have hmem : r ∈ (w.entries e).mRequestQ := by
      rw [hqueue]
      exact List.mem_cons_self
    have hlistener := hw.queued e r hmem
    have hout := Outcome.dequeue hw hmem
    have hhead := dequeue_head hqueue
    have hstill : ((w.dequeue e r).entries e).doomed = true := by
      rw [hhead]
      exact hdoomed
    rw [nsCacheService.pendingLoop, if_pos hlistener, if_pos hdoomed] at h
    obtain ⟨w₁, hw₁, hrest⟩ := Option.bind_eq_some_iff.mp h
    have hone := hp _ _ _ hout.weak hlistener hw₁
    have hkept : w₁.entries e = { w.entries e with mRequestQ := rest } := by
      rw [hone.doomed e hstill (by simp), hhead]
    have hdoomed₁ : (w₁.entries e).doomed = true := by
      rw [hkept]
      exact hdoomed
    have hqueue₁ : (w₁.entries e).mRequestQ = rest := by rw [hkept]
    have hu₁ := (Outcome.pendingLoop hp hone.weak hdoomed₁ hqueue₁ hrest).1.unused hu
    exact ih hone.weak (hs _ _ _ hout.weak hlistener hw₁ hu₁ (hsound.dequeue e r)) hdoomed₁ hqueue₁
      hrest

theorem Safe.doomEntry (hs : Safe process) (hp : Keeps process) {w w' : nsCacheService}
    (hw : w.Weak) (hsound : w.Sound) {e : ℕ} (he : e < w.newEntry)
    (h : w.DoomEntry_Internal process e = some w') (hu : w'.entryAlreadyUsed = false) :
    w'.Sound := by
  by_cases hdoomed : (w.entries e).doomed = true
  · rw [DoomEntry_Internal, if_pos hdoomed] at h
    obtain rfl := Option.some.inj h
    exact hsound
  · obtain ⟨hloop, -, -⟩ := doomEntry_eq hp hw he (by simpa using hdoomed) h
    have hself := entries_markDoomed_self w e
    exact hs.pendingLoop hp (hw.markDoomed he) (hsound.markDoomed e) (by rw [hself])
      (by rw [hself]) hloop hu

theorem Sound.alloc {w : nsCacheService} (h : w.Sound) {entry : nsCacheEntry}
    (hentry : entry.Sound) (hactive : entry.active = false) : (w.alloc entry).Sound := by
  constructor
  · intro e
    by_cases heq : e = w.newEntry
    · rw [heq, entries_alloc_new]
      exact hentry
    · rw [entries_alloc_of_ne w heq]
      exact h.entries e
  · intro e he
    by_cases heq : e = w.newEntry
    · rw [heq, entries_alloc_new, hactive] at he
      cases he
    · rw [entries_alloc_of_ne w heq] at he
      exact h.active e he

theorem Sound.findEntry {w : nsCacheService} (hw : w.Weak) (h : w.Sound) :
    w.findEntry.1.Sound ∧ ∀ e, w.findEntry.2 = .ok (some e) →
      (w.findEntry.1.entries e).initialized = true ∧ (w.findEntry.1.mActiveEntries = some e ∨
        w.findEntry.1.mActiveEntries = none) := by
  have hsearch : w.SearchCacheDevices.2.Sound := ⟨h.entries, h.active⟩
  unfold nsCacheService.findEntry
  split
  · rename_i e he
    refine ⟨h, fun e' he' => ?_⟩
    obtain rfl := Option.some.inj (Except.ok.inj he')
    exact ⟨(h.entries e).ready (hw.active e he).2.1, Or.inl he⟩
  · rename_i hnone
    split
    · rename_i w₁ heq
      obtain rfl : w.SearchCacheDevices.2 = w₁ := congrArg Prod.snd heq
      exact ⟨hsearch, fun e he => nomatch he⟩
    · rename_i w₁ heq
      obtain rfl : w.SearchCacheDevices.2 = w₁ := congrArg Prod.snd heq
      exact ⟨hsearch, fun e he => nomatch he⟩
    · rename_i streamData mExpirationTime w₁ heq
      obtain rfl : w.SearchCacheDevices.2 = w₁ := congrArg Prod.snd heq
      have hentry := nsCacheEntry.Sound.stored streamData mExpirationTime true
      refine ⟨hsearch.alloc hentry rfl, fun e he => ?_⟩
      obtain rfl := Option.some.inj (Except.ok.inj he)
      exact ⟨by rw [entries_alloc_new], Or.inr hnone⟩

theorem Sound.activate {w : nsCacheService} (h : w.Sound) {e : ℕ}
    (hinit : (w.entries e).initialized = true)
    (hactive : w.mActiveEntries = some e ∨ w.mActiveEntries = none) : (w.activate e).Sound := by
  by_cases hact : (w.entries e).active = true
  · rw [nsCacheService.activate, if_pos hact]
    exact h
  · rw [activate_eq (by simpa using hact)]
    have he := h.entries e
    constructor
    · intro e'
      by_cases heq : e' = e
      · subst heq
        rw [entries_setEntry_self]
        exact { he with used := fun _ _ => rfl, ready := fun _ => hinit }
      · rw [entries_setEntry_of_ne _ _ heq]
        exact h.entries e'
    · intro e' he'
      by_cases heq : e' = e
      · rw [heq]
        rfl
      · rw [entries_setEntry_of_ne _ _ heq] at he'
        have hother := h.active e' he'
        rcases hactive with hact' | hact'
        · exact absurd (Option.some.inj (hother.symm.trans hact')) heq
        · rw [hact'] at hother
          cases hother

theorem Sound.notify {w : nsCacheService} (h : w.Sound) (r : nsCacheRequest)
    (descriptor : Option nsCacheEntryDescriptor) (rv : nsresult) :
    (w.NotifyListener r descriptor rv).Sound := ⟨h.entries, h.active⟩

theorem Sound.reportError {w : nsCacheService} (h : w.Sound) (r : nsCacheRequest) (called : Bool)
    (rv : nsresult) : (w.reportError r called rv).Sound := by
  unfold nsCacheService.reportError
  split
  · exact h.notify r none rv
  · exact h

section Serve
variable {w : nsCacheService} {e : ℕ} {request : nsCacheRequest}

theorem Sound.serve_granted {g : nsCacheEntry → nsCacheEntry} {access : nsCacheAccessMode}
    (h : w.RequestAccess e request = ((w.setEntry e g).enqueue e request, .NS_OK, access))
    (hgranted : (w.setEntry e fun entry => granted request access (g entry)).Sound) :
    (w.serveRequest e request).1.Sound := by
  rw [nsCacheService.serve_granted h]
  dsimp only
  split
  · exact hgranted.notify request _ _
  · exact hgranted

theorem erase_append_nil (r : nsCacheRequest) {q : List nsCacheRequest} (h : q = []) :
    (q ++ [r]).erase r = [] := by
  rw [h]
  exact List.erase_cons_head _ _

/-- The first descriptor of an entry. -/
theorem Open.first {entry : nsCacheEntry} (h : entry.Sound) (hnone : entry.mDescriptorQ = [])
    (hactive : entry.active = true) : nsCacheEntry.Sound (granted request
      request.mAccessRequested { entry with valid := !request.mAccessRequested.write }) := by
  have hqueue : entry.mRequestQ = [] := by
    by_contra hne
    exact h.waiting hne hnone
  have hnew := erase_append_nil request hqueue
  constructor
  · constructor
    · intro hne
      exact absurd hnew hne
    · intro _
      rw [granted, hnone]
      exact Nat.le_refl 1
    · intro d hd hread
      rw [granted, hnone] at hd
      rw [List.mem_singleton.mp hd] at hread
      rw [granted, hread]
      rfl
    · exact fun _ _ => hactive
    · exact h.ready
    · intro r hr
      rw [granted, hnew] at hr
      exact absurd hr List.not_mem_nil
  · exact fun _ => hnew

/-- One more reader of a valid entry. -/
theorem Open.reader {entry : nsCacheEntry} (h : entry.Sound) (hvalid : entry.valid = true)
    (hactive : entry.active = true) (read : Bool) :
    nsCacheEntry.Sound (granted request ⟨read, false⟩ entry) := by
  have hnew := erase_append_nil request (h.quiet hvalid)
  constructor
  · constructor
    · intro hne
      exact absurd hnew hne
    · intro hinvalid
      rw [granted, hvalid] at hinvalid
      cases hinvalid
    · exact fun _ _ _ => hvalid
    · exact fun _ _ => hactive
    · exact h.ready
    · intro r hr
      rw [granted, hnew] at hr
      exact absurd hr List.not_mem_nil
  · exact fun _ => hnew

variable (request) in
theorem Sound.serveRequest (hw : w.Weak) (h : w.Sound) (he : w.mActiveEntries = some e) :
    (w.serveRequest e request).1.Sound := by
  obtain ⟨hlt, hactive, hdoomed⟩ := hw.active e he
  have hentry := h.entries e
  have hinit := hentry.ready hactive
  by_cases hstream : (w.entries e).streamData = request.streamBased
  · by_cases hnone : (w.entries e).mDescriptorQ = []
    · exact Sound.serve_granted (access_first hinit hdoomed hstream hnone)
        (h.setEntry (Open.first hentry hnone hactive) fun hact => hact)
    · by_cases hvalid : (w.entries e).valid = true
      · exact Sound.serve_granted (access_ready hinit hdoomed hstream hnone hvalid)
          (h.setEntry (Open.reader hentry hvalid hactive _) fun hact => hact)
      · have hinvalid : (w.entries e).valid = false := by simpa using hvalid
        rw [serve_wait (access_wait hinit hdoomed hstream hnone hinvalid)]
        have hmore : ∀ q : List nsCacheRequest, (∀ r ∈ q, r ∈ (w.entries e).mRequestQ ∨
            r = request) → nsCacheEntry.Sound { w.entries e with mRequestQ := q } := by
          intro q hq
          exact
            { waiting := fun _ => hnone
              single := hentry.single
              readers := hentry.readers
              used := hentry.used
              ready := hentry.ready
              matching := fun r hr => by
                rcases hq r hr with hr | rfl
                · exact hentry.matching r hr
                · exact hstream.symm
              quiet := fun hv => absurd hv hvalid }
        dsimp only
        split
        · refine h.setEntry (hmore _ ?_) fun hact => hact
          intro r hr
          simpa using hr
        · refine h.setEntry (hmore _ ?_) fun hact => hact
          intro r hr
          exact Or.inl ((perm_erase_append request _).mem_iff.mp hr)
  · rw [serve_mismatch hinit hdoomed hstream]
    exact h

/-- A new entry is written by the request that made it. -/
theorem Sound.serve_created (h : w.Sound) {w' : nsCacheService}
    (hcreate : w.createEntry request = (w', .ok e)) (hu : w'.entryAlreadyUsed = false) :
    (w'.serveRequest e request).1.Sound := by
  unfold createEntry at hcreate
  by_cases hread : (!request.mAccessRequested.write) = true
  · rw [if_pos hread] at hcreate
    cases (Prod.mk.inj hcreate).2
  rw [if_neg hread] at hcreate
  obtain ⟨rfl, he⟩ := Prod.mk.inj hcreate
  obtain rfl := Except.ok.inj he
  have hwrite : request.mAccessRequested.write = true := by simpa using hread
  have hnew := entries_alloc_new w { streamData := request.streamBased }
  have hidle : ((w.alloc { streamData := request.streamBased }).entries w.newEntry).active = false := by
    rw [hnew]
  rw [activate_eq hidle] at hu ⊢
  have hnone : w.mActiveEntries = none := by
    have hor : (w.entryAlreadyUsed || w.mActiveEntries.isSome) = false := hu
    simpa using (Bool.or_eq_false_iff.mp hor).2
  obtain ⟨w₁, hw₁⟩ : ∃ v, v = ((w.alloc { streamData := request.streamBased }).AddEntry
    w.newEntry).setEntry w.newEntry fun entry => { entry with active := true } := ⟨_, rfl⟩
  have hself : w₁.entries w.newEntry = { streamData := request.streamBased, active := true } := by
    rw [hw₁, entries_setEntry_self]
    show { (w.alloc { streamData := request.streamBased }).entries w.newEntry with active := true } = _
    rw [hnew]
  have hother : ∀ e, e ≠ w.newEntry → w₁.entries e = w.entries e := by
    intro e hne
    rw [hw₁, entries_setEntry_of_ne _ _ hne]
    exact entries_alloc_of_ne w hne
  rw [← hw₁]
  refine Sound.serve_granted (access_new (by rw [hself])) ?_
  constructor
  · intro e
    by_cases heq : e = w.newEntry
    · rw [heq, entries_setEntry_self, hself]
      have hqueue := erase_append_nil request (q := []) rfl
      constructor
      · constructor
        · exact fun hne => absurd hqueue hne
        · exact fun _ => Nat.le_refl 1
        · intro d hd hreader
          rw [List.mem_singleton.mp hd, hwrite] at hreader
          cases hreader
        · exact fun _ _ => rfl
        · exact fun _ => rfl
        · intro r hr
          rw [granted, hqueue] at hr
          exact absurd hr List.not_mem_nil
      · exact fun _ => hqueue
    · rw [entries_setEntry_of_ne _ _ heq, hother e heq]
      exact h.entries e
  · intro e he
    by_cases heq : e = w.newEntry
    · rw [heq, hw₁]
      rfl
    · rw [entries_setEntry_of_ne _ _ heq, hother e heq] at he
      have hact := h.active e he
      rw [hnone] at hact
      cases hact

end Serve

theorem Sound.createEntry_error {w w' : nsCacheService} {request : nsCacheRequest} {rv : nsresult}
    (h : w.Sound) (hcreate : w.createEntry request = (w', .error rv)) : w'.Sound := by
  unfold createEntry at hcreate
  split_ifs at hcreate
  · obtain ⟨rfl, -⟩ := Prod.mk.inj hcreate
    exact h
  · cases (Prod.mk.inj hcreate).2

theorem Sound.proceed_created {w : nsCacheService} (hw : w.Weak) (h : w.Sound)
    {request : nsCacheRequest} {called : Bool}
    (hu : ((proceed request called (w.createEntry request)).1).entryAlreadyUsed = false) :
    (proceed request called (w.createEntry request)).1.Sound := by
  obtain ⟨hcreate, hactive⟩ := Outcome.createEntry hw request 0
  obtain ⟨⟨w', found⟩, hres⟩ : ∃ result, w.createEntry request = result := ⟨_, rfl⟩
  rw [hres] at hcreate hactive hu ⊢
  cases found with
  | error rv => exact (h.createEntry_error hres).reportError request called rv
  | ok e =>
    have hserve := Outcome.serveRequest request hcreate.weak (hactive e rfl)
    have hreport := Outcome.reportError hserve.weak request called (w'.serveRequest e request).2
    exact (h.serve_created hres (hserve.unused (hreport.unused hu))).reportError request called _

theorem Safe.processRequestWith (hs : Safe process) (hp : Keeps process) {w w' : nsCacheService}
    (hw : w.Weak) (h : w.Sound) {request : nsCacheRequest} {called : Bool} {rv : nsresult}
    (hres : w.ProcessRequestWith process request called = some (w', rv))
    (hu : w'.entryAlreadyUsed = false) : w'.Sound := by
  obtain ⟨found, hact, hnext⟩ := Option.map_eq_some_iff.mp hres
  have hw' : (proceed request called found).1 = w' := congrArg Prod.fst hnext
  rw [← hw'] at hu ⊢
  clear hw' hnext hres
  obtain ⟨hfind, hfound⟩ := Outcome.findEntry hw 0
  obtain ⟨hsound, hready⟩ := h.findEntry hw
  unfold ActivateEntry at hact
  split_ifs at hact with hdevice hpolicy
  · obtain rfl := Option.some.inj hact
    exact h.reportError request called _
  · obtain rfl := Option.some.inj hact
    exact h.reportError request called _
  · split at hact
    · rename_i w₁ rv' heq
      rw [heq] at hsound
      obtain rfl := Option.some.inj hact
      exact hsound.reportError request called _
    · rename_i w₁ heq
      rw [heq] at hfind hsound
      obtain rfl := Option.some.inj hact
      exact hsound.proceed_created hfind.weak hu
    · rename_i w₁ e heq
      rw [heq] at hfind hfound hsound hready
      obtain ⟨hlt, hdoomed, hactive⟩ := hfound e rfl
      obtain ⟨hinit, hnone⟩ := hready e rfl
      split_ifs at hact with hdoom
      · obtain ⟨w₂, hw₂, rfl⟩ := Option.map_eq_some_iff.mp hact
        have hdone := Outcome.doomEntry hp hfind.weak hlt hw₂ 0
        have hcreate := (Outcome.createEntry hdone.weak request 0)
        have hproceed := Outcome.proceed hcreate.1.weak request called hcreate.2
          (fun rv' hrv => createEntry_error (Prod.ext rfl hrv))
        have hu₂ := hcreate.1.unused (hproceed.unused hu)
        exact (hs.doomEntry hp hfind.weak hsound hlt hw₂ hu₂).proceed_created hdone.weak hu
      · obtain rfl := Option.some.inj hact
        have hact' := Outcome.activate hfind.weak hlt hdoomed 0
        have hserve := Sound.serveRequest request hact'.weak
          (hsound.activate hinit hnone) (mActiveEntries_activate hactive)
        exact hserve.reportError request called _

theorem processPending_safe (n : ℕ) : Safe (processPending n) := by
  induction n with
  | zero =>
    intro w r w' _ _ h
    cases h
  | succ n ih =>
    intro w r w' hw _ h hu hsound
    obtain ⟨⟨w₁, rv⟩, hres, rfl⟩ := Option.map_eq_some_iff.mp h
    exact ih.processRequestWith (processPending_keeps n) hw hsound hres hu

end nsCacheService

end Kompozer.Cache.Requests

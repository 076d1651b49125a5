import Kompozer.Cache.Outcome

/-! Requests that are processed within the processing of others: in every state a request that is
processed is answered or waits, once, and the processing comes to an end. -/

namespace Kompozer.Cache.Requests

namespace nsCacheService

variable {process : nsCacheService → nsCacheRequest → Option nsCacheService}

/-- A pending request that is processed is answered or waits. -/
def Keeps (process : nsCacheService → nsCacheRequest → Option nsCacheService) : Prop :=
  ∀ w r w', w.Weak → r.mListener = true → process w r = some w' → Outcome none w w' r.id 1

/-! ### Dooming -/

theorem dequeue_head {w : nsCacheService} {e : ℕ} {r : nsCacheRequest} {rest : List nsCacheRequest}
    (h : (w.entries e).mRequestQ = r :: rest) :
    (w.dequeue e r).entries e = { w.entries e with mRequestQ := rest } := by
  rw [dequeue, entries_setEntry_self, h, List.erase_cons_head]

/-- All requests of a doomed entry are processed. -/
theorem Outcome.pendingLoop (hp : Keeps process) {requests : List nsCacheRequest}
    {w w' : nsCacheService} {e : ℕ} (hw : w.Weak) (hdoomed : (w.entries e).doomed = true)
    (hqueue : (w.entries e).mRequestQ = requests)
    (h : w.pendingLoop process e false requests = some w') :
    Outcome (some e) w w' 0 0 ∧ w'.entries e = { w.entries e with mRequestQ := [] } := by
  induction requests generalizing w with
  | nil =>
    obtain rfl := Option.some.inj h
    refine ⟨(Outcome.refl hw 0).exempting hdoomed, ?_⟩
    rw [← hqueue]
  | cons r rest ih =>
    have hmem : r ∈ (w.entries e).mRequestQ := by
      rw [hqueue]
      exact List.mem_cons_self
    have hlistener := hw.queued e r hmem
    have hout := Outcome.dequeue hw hmem
    rw [if_pos hdoomed] at hout
    have hhead := dequeue_head hqueue
    have hstill : ((w.dequeue e r).entries e).doomed = true := by
      rw [hhead]
      exact hdoomed
    rw [nsCacheService.pendingLoop, if_pos hlistener, if_pos hdoomed] at h
    obtain ⟨w₁, hw₁, hrest⟩ := Option.bind_eq_some_iff.mp h
    have hone := hp _ _ _ hout.weak hlistener hw₁
    have hkept : w₁.entries e = { w.entries e with mRequestQ := rest } := by
      rw [hone.doomed e hstill (by simp), hhead]
    have hdoomed₁ : (w₁.entries e).doomed = true := by
      rw [hkept]
      exact hdoomed
    obtain ⟨hloop, hend⟩ := ih hone.weak hdoomed₁ (by rw [hkept]) hrest
    have hstep := (hout.trans (hone.exempting hstill)).retag 0
    refine ⟨hstep.trans hloop, ?_⟩
    rw [hend, hkept]

section MarkDoomed
variable (w : nsCacheService) (e : ℕ)

theorem entries_markDoomed : (w.markDoomed e).entries =
    (w.setEntry e fun entry => { entry with doomed := true, active := false }).entries := by
  unfold markDoomed
  dsimp only
  split <;> rfl

theorem newEntry_markDoomed : (w.markDoomed e).newEntry = w.newEntry := by
  unfold markDoomed
  dsimp only
  split <;> rfl

theorem notified_markDoomed : (w.markDoomed e).notified = w.notified := by
  unfold markDoomed
  dsimp only
  split <;> rfl

theorem entryAlreadyUsed_markDoomed :
    (w.markDoomed e).entryAlreadyUsed = w.entryAlreadyUsed := by
  unfold markDoomed
  dsimp only
  split <;> rfl

theorem mActiveEntries_markDoomed : (w.markDoomed e).mActiveEntries =
    if (w.entries e).active then none else w.mActiveEntries := by
  unfold markDoomed
  dsimp only
  split <;> rfl

theorem entries_markDoomed_self : (w.markDoomed e).entries e =
    { w.entries e with doomed := true, active := false } := by
  rw [entries_markDoomed, entries_setEntry_self]

variable {e} in
theorem entries_markDoomed_of_ne {e' : ℕ} (h : e' ≠ e) :
    (w.markDoomed e).entries e' = w.entries e' := by
  rw [entries_markDoomed, entries_setEntry_of_ne w _ h]

end MarkDoomed

theorem total_markDoomed {w : nsCacheService} {e : ℕ} (he : e < w.newEntry)
    {m : nsCacheEntry → ℕ} (hm : m { w.entries e with doomed := true, active := false } =
      m (w.entries e)) : (w.markDoomed e).total m = w.total m := by
  have htotal := total_setEntry he (fun entry => { entry with doomed := true, active := false }) m
  rw [hm] at htotal
  rw [total, entries_markDoomed, newEntry_markDoomed]
  exact Nat.add_right_cancel htotal

theorem pending_markDoomed {w : nsCacheService} {e : ℕ} (he : e < w.newEntry) :
    (w.markDoomed e).pending = w.pending := by
  rw [pending, pending, total_markDoomed he rfl]

theorem tally_markDoomed {w : nsCacheService} {e : ℕ} (he : e < w.newEntry) (i : ℕ) :
    (w.markDoomed e).tally i = w.tally i := by
  rw [tally, tally, total_markDoomed he rfl, notified_markDoomed]

theorem Weak.markDoomed {w : nsCacheService} (hw : w.Weak) {e : ℕ} (he : e < w.newEntry) :
    (w.markDoomed e).Weak := by
  constructor
  · intro e' he'
    rw [mActiveEntries_markDoomed] at he'
    split_ifs at he' with hact
    obtain ⟨hlt, hact', hdoomed⟩ := hw.active e' he'
    have hne : e' ≠ e := by
      rintro rfl
      exact hact hact'
    rw [newEntry_markDoomed, entries_markDoomed_of_ne w hne]
    exact ⟨hlt, hact', hdoomed⟩
  · intro e' he'
    rw [newEntry_markDoomed] at he'
    have hne : e' ≠ e := fun heq => Nat.not_lt.mpr he' (heq ▸ he)
    rw [entries_markDoomed_of_ne w hne]
    exact hw.fresh e' he'
  · intro e' r hr
    by_cases heq : e' = e
    · subst heq
      rw [entries_markDoomed_self] at hr
      exact hw.queued e' r hr
    · rw [entries_markDoomed_of_ne w heq] at hr
      exact hw.queued e' r hr

/-- The requests of a doomed entry are its queue. -/
theorem processPending_doomed {w : nsCacheService} {e : ℕ} (hdoomed : (w.entries e).doomed = true) :
    ProcessPendingRequests process w e =
      w.pendingLoop process e false (w.entries e).mRequestQ := by
  unfold ProcessPendingRequests
  dsimp only
  split_ifs with hnil hinvalid
  · rw [hnil, pendingLoop]
  · simp [hdoomed] at hinvalid
  · rfl

/-- Dooming an entry is processing its requests. -/
theorem doomEntry_eq {w w' : nsCacheService} (hp : Keeps process) (hw : w.Weak) {e : ℕ}
    (he : e < w.newEntry) (hdoomed : (w.entries e).doomed = false)
    (h : w.DoomEntry_Internal process e = some w') :
    (w.markDoomed e).pendingLoop process e false (w.entries e).mRequestQ = some w' ∧
      Outcome (some e) (w.markDoomed e) w' 0 0 ∧ (w'.entries e).mRequestQ = [] := by
  have hself := entries_markDoomed_self w e
  have hmark : ((w.markDoomed e).entries e).doomed = true := by rw [hself]
  have hqueue : ((w.markDoomed e).entries e).mRequestQ = (w.entries e).mRequestQ := by rw [hself]
  rw [DoomEntry_Internal, if_neg (by simp [hdoomed]), processPending_doomed hmark, hqueue] at h
  obtain ⟨w₁, hloop, rfl⟩ := Option.map_eq_some_iff.mp h
  obtain ⟨hout, hend⟩ := Outcome.pendingLoop hp (hw.markDoomed he) hmark hqueue hloop
  have hdead : w₁.DeactivateEntry e = w₁ := by
    rw [DeactivateEntry, if_pos (hout.exempt e rfl).2]
  rw [hdead, ite_self]
  exact ⟨hloop, hout, by rw [hend]⟩

theorem Outcome.doomEntry (hp : Keeps process) {w w' : nsCacheService} (hw : w.Weak) {e : ℕ}
    (he : e < w.newEntry) (h : w.DoomEntry_Internal process e = some w') (id : ℕ) :
    Outcome none w w' id 0 := by
  by_cases hdoomed : (w.entries e).doomed = true
  · rw [DoomEntry_Internal, if_pos hdoomed] at h
    obtain rfl := Option.some.inj h
    exact Outcome.refl hw id
  · obtain ⟨-, hout, hend⟩ := doomEntry_eq hp hw he (by simpa using hdoomed) h
    have hother : ∀ e', (w.entries e').doomed = true → (w.markDoomed e).entries e' = w.entries e' ∧
        some e ≠ some e' := by
      intro e' he'
      have hne : e' ≠ e := by
        rintro rfl
        exact hdoomed he'
      exact ⟨entries_markDoomed_of_ne w hne, fun heq => hne (Option.some.inj heq).symm⟩
    constructor
    · exact hout.weak
    · have hlt := hout.newEntry
      rwa [newEntry_markDoomed] at hlt
    · have hpend := hout.pending
      rw [pending_markDoomed he] at hpend
      exact hpend
    · intro i
      have htally := hout.tally i
      rw [tally_markDoomed he] at htally
      split_ifs at htally ⊢ <;> omega
    · intro hu
      apply hout.used
      rwa [entryAlreadyUsed_markDoomed]
    · intro e' he'
      cases he'
    · intro e' he' _
      obtain ⟨hsame, hne⟩ := hother e' he'
      rw [hout.doomed e' (by rw [hsame]; exact he') hne, hsame]
    · intro e' he'
      by_cases heq : e' = e
      · subst heq
        exact Or.inr hend
      · rcases hout.retired e' he' with hd | hq
        · rw [entries_markDoomed_of_ne w heq] at hd
          exact Or.inl hd
        · exact Or.inr hq

/-! ### Activation -/

theorem Outcome.alloc {w : nsCacheService} (hw : w.Weak) {entry : nsCacheEntry}
    (hqueue : entry.mRequestQ = []) (hdoomed : entry.doomed = false) (id : ℕ) :
    Outcome none w (w.alloc entry) id 0 where
  weak := by
    constructor
    · intro e he
      obtain ⟨hlt, hact⟩ := hw.active e he
      rw [entries_alloc_of_ne w (Nat.ne_of_lt hlt)]
      exact ⟨Nat.lt_succ_of_lt hlt, hact⟩
    · intro e he
      have hlt : w.newEntry < e := he
      rw [entries_alloc_of_ne w (Nat.ne_of_gt hlt)]
      exact hw.fresh e (Nat.le_of_lt hlt)
    · intro e r hr
      by_cases heq : e = w.newEntry
      · rw [heq, entries_alloc_new, hqueue] at hr
        exact absurd hr List.not_mem_nil
      · rw [entries_alloc_of_ne w heq] at hr
        exact hw.queued e r hr
  newEntry := Nat.le_succ _
  pending := by
    rw [nsCacheService.pending, total_alloc, hqueue, nsCacheService.pending]
    simp
  tally := fun i => by
    rw [nsCacheService.tally, total_alloc, hqueue, nsCacheService.tally]
    show ((_ + List.countP _ [] + w.notified.countP _ : ℕ) : Int) = _
    rw [List.countP_nil]
    split <;> omega
  used := fun hu => hu
  exempt := fun e he => nomatch he
  doomed := fun e he _ => by
    apply entries_alloc_of_ne
    rintro rfl
    rw [hw.fresh _ (Nat.le_refl _)] at he
    cases he
  retired := fun e he => by
    by_cases heq : e = w.newEntry
    · rw [heq, entries_alloc_new, hdoomed] at he
      cases he
    · rw [entries_alloc_of_ne w heq] at he
      exact Or.inl he

theorem activate_eq {w : nsCacheService} {e : ℕ} (h : (w.entries e).active = false) :
    w.activate e = (w.AddEntry e).setEntry e fun entry => { entry with active := true } := by
  rw [activate, if_neg (by simp [h])]

theorem Outcome.activate {w : nsCacheService} (hw : w.Weak) {e : ℕ} (he : e < w.newEntry)
    (hdoomed : (w.entries e).doomed = false) (id : ℕ) : Outcome none w (w.activate e) id 0 := by
  by_cases hact : (w.entries e).active = true
  · rw [nsCacheService.activate, if_pos hact]
    exact Outcome.refl hw id
  · rw [activate_eq (by simpa using hact)]
    have hlt : e < (w.AddEntry e).newEntry := he
    have htotal : ∀ m : nsCacheEntry → ℕ, m { w.entries e with active := true } = m (w.entries e) →
        ((w.AddEntry e).setEntry e fun entry => { entry with active := true }).total m =
          w.total m := by
      intro m hm
      have hsum := total_setEntry hlt (fun entry => { entry with active := true }) m
      have hold : m ((w.AddEntry e).entries e) = m { (w.AddEntry e).entries e with active := true } :=
        hm.symm
      rw [hold] at hsum
      exact Nat.add_right_cancel hsum
    have hother : ∀ e', e' ≠ e → ((w.AddEntry e).setEntry e fun entry =>
        { entry with active := true }).entries e' = w.entries e' := by
      intro e' hne
      exact entries_setEntry_of_ne _ _ hne
    have hself : ((w.AddEntry e).setEntry e fun entry => { entry with active := true }).entries e =
        { w.entries e with active := true } := entries_setEntry_self _ _ _
    constructor
    · constructor
      · intro e' he'
        obtain rfl : e = e' := Option.some.inj he'
        rw [hself]
        exact ⟨he, rfl, hdoomed⟩
      · intro e' he'
        have hlt' : w.newEntry ≤ e' := he'
        rw [hother e' (by omega)]
        exact hw.fresh e' hlt'
      · intro e' r hr
        by_cases heq : e' = e
        · subst heq
          rw [hself] at hr
          exact hw.queued e' r hr
        · rw [hother e' heq] at hr
          exact hw.queued e' r hr
    · exact Nat.le_refl _
    · rw [nsCacheService.pending, htotal _ rfl, nsCacheService.pending]
      omega
    · intro i
      rw [nsCacheService.tally, htotal _ rfl, nsCacheService.tally]
      show ((_ + w.notified.countP _ : ℕ) : Int) = _
      split <;> omega
    · intro hu
      show (w.entryAlreadyUsed || w.mActiveEntries.isSome) = true
      rw [hu, Bool.true_or]
    · intro e' he'
      cases he'
    · intro e' he' _
      apply hother
      rintro rfl
      rw [hdoomed] at he'
      cases he'
    · intro e' he'
      by_cases heq : e' = e
      · subst heq
        rw [hself, hdoomed] at he'
        cases he'
      · rw [hother e' heq] at he'
        exact Or.inl he'

theorem mActiveEntries_activate {w : nsCacheService} {e : ℕ}
    (h : w.mActiveEntries = some e ∨ (w.entries e).active = false) :
    (w.activate e).mActiveEntries = some e := by
  rcases h with h | h
  · unfold activate
    split
    · exact h
    · rfl
  · rw [activate_eq h]
    rfl

theorem Outcome.createEntry {w : nsCacheService} (hw : w.Weak) (request : nsCacheRequest) (id : ℕ) :
    Outcome none w (w.createEntry request).1 id 0 ∧ ∀ e, (w.createEntry request).2 = .ok e →
      (w.createEntry request).1.mActiveEntries = some e := by
  unfold nsCacheService.createEntry
  split_ifs with hread
  · exact ⟨Outcome.refl hw id, fun e he => nomatch he⟩
  · have halloc := @Outcome.alloc w hw { streamData := request.streamBased } rfl rfl id
    have hnew := entries_alloc_new w { streamData := request.streamBased }
    have hactive := Outcome.activate halloc.weak (Nat.lt_succ_self _) (by rw [hnew]) id
    refine ⟨halloc.trans hactive, fun e he => ?_⟩
    obtain rfl := Except.ok.inj he
    exact mActiveEntries_activate (Or.inr (by rw [hnew]))

theorem Outcome.search {w : nsCacheService} (hw : w.Weak) (id : ℕ) :
    Outcome none w w.SearchCacheDevices.2 id 0 :=
  { Outcome.refl hw id with weak := ⟨hw.active, hw.fresh, hw.queued⟩ }

/-- What is found is active or in a device. -/
theorem Outcome.findEntry {w : nsCacheService} (hw : w.Weak) (id : ℕ) :
    Outcome none w w.findEntry.1 id 0 ∧ ∀ e, w.findEntry.2 = .ok (some e) →
      e < w.findEntry.1.newEntry ∧ (w.findEntry.1.entries e).doomed = false ∧
      (w.findEntry.1.mActiveEntries = some e ∨ (w.findEntry.1.entries e).active = false) := by
  have hsearch := Outcome.search hw id
  unfold nsCacheService.findEntry
  split
  · rename_i e he
    obtain ⟨hlt, -, hdoomed⟩ := hw.active e he
    refine ⟨Outcome.refl hw id, fun e' he' => ?_⟩
    obtain rfl := Option.some.inj (Except.ok.inj he')
    exact ⟨hlt, hdoomed, Or.inl he⟩
  · split
    · rename_i w₁ h
      obtain rfl : w.SearchCacheDevices.2 = w₁ := congrArg Prod.snd h
      exact ⟨hsearch, fun e he => nomatch he⟩
    · rename_i w₁ h
      obtain rfl : w.SearchCacheDevices.2 = w₁ := congrArg Prod.snd h
      exact ⟨hsearch, fun e he => nomatch he⟩
    · rename_i streamData mExpirationTime w₁ h
      obtain rfl : w.SearchCacheDevices.2 = w₁ := congrArg Prod.snd h
      have halloc := @Outcome.alloc _ hsearch.weak
        { streamData, mExpirationTime, initialized := true } rfl rfl id
      refine ⟨hsearch.trans halloc, fun e he => ?_⟩
      obtain rfl := Option.some.inj (Except.ok.inj he)
      have hnew := entries_alloc_new w.SearchCacheDevices.2
        { streamData, mExpirationTime, initialized := true }
      exact ⟨Nat.lt_succ_self _, by rw [hnew], Or.inr (by rw [hnew])⟩

theorem Outcome.activateEntry (hp : Keeps process) {w w' : nsCacheService} (hw : w.Weak)
    {request : nsCacheRequest} {found : Except nsresult ℕ}
    (h : w.ActivateEntry process request = some (w', found)) (id : ℕ) :
    Outcome none w w' id 0 ∧ ∀ e, found = .ok e → w'.mActiveEntries = some e := by
  unfold ActivateEntry at h
  split_ifs at h with hdevice hpolicy
  · obtain ⟨rfl, rfl⟩ := Prod.mk.inj (Option.some.inj h)
    exact ⟨Outcome.refl hw id, fun e he => nomatch he⟩
  · obtain ⟨rfl, rfl⟩ := Prod.mk.inj (Option.some.inj h)
    exact ⟨Outcome.refl hw id, fun e he => nomatch he⟩
  · obtain ⟨hfind, hfound⟩ := Outcome.findEntry hw id
    split at h
    · rename_i w₁ rv heq
      rw [heq] at hfind
      obtain ⟨rfl, rfl⟩ := Prod.mk.inj (Option.some.inj h)
      exact ⟨hfind, fun e he => nomatch he⟩
    · rename_i w₁ heq
      rw [heq] at hfind
      obtain ⟨hcreate, hactive⟩ := Outcome.createEntry hfind.weak request id
      rw [Option.some.inj h] at hcreate hactive
      exact ⟨hfind.trans hcreate, hactive⟩
    · rename_i w₁ e heq
      rw [heq] at hfind hfound
      obtain ⟨hlt, hdoomed, hready⟩ := hfound e rfl
      split_ifs at h with hdoom
      · obtain ⟨w₂, hw₂, hres⟩ := Option.map_eq_some_iff.mp h
        have hdone := Outcome.doomEntry hp hfind.weak hlt hw₂ id
        obtain ⟨hcreate, hactive⟩ := Outcome.createEntry hdone.weak request id
        rw [hres] at hcreate hactive
        exact ⟨(hfind.trans hdone).trans hcreate, hactive⟩
      · obtain ⟨rfl, rfl⟩ := Prod.mk.inj (Option.some.inj h)
        refine ⟨hfind.trans (Outcome.activate hfind.weak hlt hdoomed id), fun e' he' => ?_⟩
        obtain rfl := Except.ok.inj he'
        exact mActiveEntries_activate hready

/-! ### Requests -/

/-- Once for an asynchronous request that was granted, waits, or whose listener is told of an
error. -/
def settled (request : nsCacheRequest) (calledFromOpenCacheEntry : Bool) (rv : nsresult) : Int :=
  if request.mListener = true ∧ (calledFromOpenCacheEntry = false ∨ rv = .NS_OK ∨
    rv = .NS_ERROR_CACHE_WAIT_FOR_VALIDATION) then 1 else 0

theorem Outcome.reportError {w : nsCacheService} (hw : w.Weak) (request : nsCacheRequest)
    (called : Bool) (rv : nsresult) : Outcome none w (w.reportError request called rv) request.id
      (settled request called rv - answered request rv) := by
  rw [nsCacheService.reportError]
  by_cases hlistener : request.mListener = true
  · by_cases hok : rv = .NS_OK ∨ rv = .NS_ERROR_CACHE_WAIT_FOR_VALIDATION
    · have hnot : ¬(request.mListener && !called && rv != .NS_OK &&
          rv != .NS_ERROR_CACHE_WAIT_FOR_VALIDATION) = true := by
        rcases hok with rfl | rfl <;> simp
      rw [if_neg hnot, settled, answered, if_pos ⟨hlistener, Or.inr hok⟩, if_pos ⟨hlistener, hok⟩]
      exact Outcome.refl hw request.id
    · obtain ⟨hok', hwait⟩ := not_or.mp hok
      rw [answered_error hok' hwait, settled]
      cases called
      · rw [if_pos (by simp [hlistener, hok', hwait]), if_pos ⟨hlistener, Or.inl rfl⟩]
        exact Outcome.notify hw request none rv
      · rw [if_neg (by simp), if_neg (by simp [hok', hwait])]
        exact Outcome.refl hw request.id
  · rw [if_neg (by simp [hlistener]), settled, answered, if_neg (fun h => hlistener h.1),
      if_neg (fun h => hlistener h.1)]
    exact Outcome.refl hw request.id

theorem createEntry_error {w w' : nsCacheService} {request : nsCacheRequest} {rv : nsresult}
    (h : w.createEntry request = (w', .error rv)) :
    rv ≠ .NS_OK ∧ rv ≠ .NS_ERROR_CACHE_WAIT_FOR_VALIDATION := by
  unfold createEntry at h
  split_ifs at h
  · obtain ⟨-, hrv⟩ := Prod.mk.inj h
    obtain rfl := Except.error.inj hrv
    exact ⟨by simp, by simp⟩
  · cases (Prod.mk.inj h).2

/-- A request that gets no entry neither succeeds nor waits. -/
theorem activateEntry_error {w w' : nsCacheService} {request : nsCacheRequest} {rv : nsresult}
    (h : w.ActivateEntry process request = some (w', .error rv)) :
    rv ≠ .NS_OK ∧ rv ≠ .NS_ERROR_CACHE_WAIT_FOR_VALIDATION := by
  unfold ActivateEntry at h
  split_ifs at h with hdevice hpolicy
  · obtain ⟨-, hrv⟩ := Prod.mk.inj (Option.some.inj h)
    obtain rfl := Except.error.inj hrv
    exact ⟨by simp, by simp⟩
  · obtain ⟨-, hrv⟩ := Prod.mk.inj (Option.some.inj h)
    obtain rfl := Except.error.inj hrv
    exact ⟨by simp, by simp⟩
  · split at h
    · rename_i w₁ rv' heq
      obtain ⟨-, hrv⟩ := Prod.mk.inj (Option.some.inj h)
      obtain rfl := Except.error.inj hrv
      unfold findEntry at heq
      split at heq
      · cases heq
      · split at heq <;> cases heq
        exact ⟨by simp, by simp⟩
    · exact createEntry_error (Option.some.inj h)
    · split_ifs at h
      · obtain ⟨w₂, -, hres⟩ := Option.map_eq_some_iff.mp h
        exact createEntry_error hres
      · cases h

theorem Outcome.proceed {w : nsCacheService} (hw : w.Weak) (request : nsCacheRequest)
    (called : Bool) {found : Except nsresult ℕ}
    (hfound : ∀ e, found = .ok e → w.mActiveEntries = some e)
    (herror : ∀ rv, found = .error rv → rv ≠ .NS_OK ∧ rv ≠ .NS_ERROR_CACHE_WAIT_FOR_VALIDATION) :
    Outcome none w (proceed request called (w, found)).1 request.id
      (settled request called (proceed request called (w, found)).2) := by
  cases found with
  | error rv =>
    obtain ⟨hok, hwait⟩ := herror rv rfl
    have hreport := Outcome.reportError hw request called rv
    rw [answered_error hok hwait, Int.sub_zero] at hreport
    exact hreport
  | ok e =>
    have hserve := Outcome.serveRequest request hw (hfound e rfl)
    have hreport := Outcome.reportError hserve.weak request called (w.serveRequest e request).2
    have hall := hserve.trans hreport
    rwa [show answered request (w.serveRequest e request).2 +
      (settled request called (w.serveRequest e request).2 -
        answered request (w.serveRequest e request).2) =
      settled request called (w.serveRequest e request).2 by omega] at hall

theorem Outcome.processRequestWith (hp : Keeps process) {w w' : nsCacheService} (hw : w.Weak)
    {request : nsCacheRequest} {called : Bool} {rv : nsresult}
    (h : w.ProcessRequestWith process request called = some (w', rv)) :
    Outcome none w w' request.id (settled request called rv) := by
  obtain ⟨⟨w₁, found⟩, hact, hres⟩ := Option.map_eq_some_iff.mp h
  obtain ⟨hactive, hfound⟩ := Outcome.activateEntry hp hw hact request.id
  have hproceed := Outcome.proceed hactive.weak request called hfound
    (fun rv' hrv => activateEntry_error (hrv ▸ hact))
  rw [hres] at hproceed
  have hall := hactive.trans hproceed
  rwa [Int.zero_add] at hall

theorem processPending_keeps (n : ℕ) : Keeps (processPending n) := by
  induction n with
  | zero =>
    intro w r w' _ _ h
    cases h
  | succ n ih =>
    intro w r w' hw hlistener h
    obtain ⟨⟨w₁, rv⟩, hres, rfl⟩ := Option.map_eq_some_iff.mp h
    have hout := Outcome.processRequestWith ih hw hres
    rwa [settled, if_pos ⟨hlistener, Or.inl rfl⟩] at hout

/-! ### The end of processing -/

/-- A pending request is processed when fewer than so many wait. -/
def Ends (n : ℕ) (process : nsCacheService → nsCacheRequest → Option nsCacheService) : Prop :=
  ∀ w r, w.Weak → r.mListener = true → w.pending < n → ∃ w', process w r = some w'

theorem Ends.pendingLoop {n : ℕ} (hends : Ends n process) (hp : Keeps process)
    {requests : List nsCacheRequest} {w : nsCacheService} {e : ℕ} (hw : w.Weak)
    (hdoomed : (w.entries e).doomed = true) (hqueue : (w.entries e).mRequestQ = requests)
    (hn : w.pending ≤ n) : ∃ w', w.pendingLoop process e false requests = some w' := by
  induction requests generalizing w with
  | nil => exact ⟨w, rfl⟩
  | cons r rest ih =>
    have hmem : r ∈ (w.entries e).mRequestQ := by
      rw [hqueue]
      exact List.mem_cons_self
    have hlistener := hw.queued e r hmem
    have hout := Outcome.dequeue hw hmem
    rw [if_pos hdoomed] at hout
    have hhead := dequeue_head hqueue
    have hstill : ((w.dequeue e r).entries e).doomed = true := by
      rw [hhead]
      exact hdoomed
    have hless := hout.pending
    obtain ⟨w₁, hw₁⟩ := hends _ r hout.weak hlistener (by omega)
    have hone := hp _ _ _ hout.weak hlistener hw₁
    have hmore := hone.pending
    have hkept : w₁.entries e = { w.entries e with mRequestQ := rest } := by
      rw [hone.doomed e hstill (by simp), hhead]
    obtain ⟨w', hw'⟩ := ih hone.weak (by rw [hkept]; exact hdoomed) (by rw [hkept]) (by omega)
    refine ⟨w', ?_⟩
    rw [nsCacheService.pendingLoop, if_pos hlistener, if_pos hdoomed, hw₁]
    exact hw'

theorem Ends.doomEntry {n : ℕ} (hends : Ends n process) (hp : Keeps process) {w : nsCacheService}
    (hw : w.Weak) {e : ℕ} (he : e < w.newEntry) (hn : w.pending ≤ n) :
    ∃ w', w.DoomEntry_Internal process e = some w' := by
  rw [DoomEntry_Internal]
  split_ifs with hdoomed
  · exact ⟨w, rfl⟩
  · have hself := entries_markDoomed_self w e
    have hmark : ((w.markDoomed e).entries e).doomed = true := by rw [hself]
    have hpend : (w.markDoomed e).pending ≤ n := by rwa [pending_markDoomed he]
    obtain ⟨w', hw'⟩ := hends.pendingLoop hp (hw.markDoomed he) hmark rfl hpend
    rw [processPending_doomed hmark, hw']
    exact ⟨_, rfl⟩

theorem Ends.processRequestWith {n : ℕ} (hends : Ends n process) (hp : Keeps process)
    {w : nsCacheService} (hw : w.Weak) (request : nsCacheRequest) (called : Bool)
    (hn : w.pending ≤ n) : ∃ result, w.ProcessRequestWith process request called = some result := by
  suffices hact : ∃ found, w.ActivateEntry process request = some found by
    obtain ⟨found, hfound⟩ := hact
    rw [ProcessRequestWith, hfound]
    exact ⟨_, rfl⟩
  unfold ActivateEntry
  split_ifs with hdevice hpolicy
  · exact ⟨_, rfl⟩
  · exact ⟨_, rfl⟩
  · obtain ⟨hfind, hfound⟩ := Outcome.findEntry hw 0
    split
    · exact ⟨_, rfl⟩
    · exact ⟨_, rfl⟩
    · rename_i w₁ e heq
      rw [heq] at hfind hfound
      obtain ⟨hlt, -, -⟩ := hfound e rfl
      split_ifs with hdoom
      · have hpend := hfind.pending
        obtain ⟨w₂, hw₂⟩ := hends.doomEntry hp hfind.weak hlt (by omega)
        rw [hw₂]
        exact ⟨_, rfl⟩
      · exact ⟨_, rfl⟩

/-- A request is processed within as many others as wait. -/
theorem processPending_ends (n : ℕ) : Ends n (processPending n) := by
  induction n with
  | zero =>
    intro w r _ _ hn
    omega
  | succ n ih =>
    intro w r hw _ hn
    obtain ⟨result, hres⟩ := ih.processRequestWith (processPending_keeps n) hw r false (by omega)
    refine ⟨result.1, ?_⟩
    show (w.ProcessRequestWith (processPending n) r false).map _ = _
    rw [hres]
    rfl

end nsCacheService

end Kompozer.Cache.Requests

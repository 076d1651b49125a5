import Kompozer.Cache.Access
import Mathlib.Algebra.Order.BigOperators.Group.Finset

/-! The request protocol over every run of calls: one writer of an entry that is not yet valid,
readers of valid entries only, and an answer for every request. -/

namespace Kompozer.Cache.Requests

open nsCacheService

namespace nsCacheService

/-! ### Pending requests that are granted -/

section Grant
variable {w : nsCacheService} {e : ℕ} {request : nsCacheRequest}

theorem entries_notify (descriptor : Option nsCacheEntryDescriptor) (rv : nsresult) :
    (w.NotifyListener request descriptor rv).entries = w.entries := rfl

theorem grantPending_eq {g : nsCacheEntry → nsCacheEntry} {access : nsCacheAccessMode}
    (h : (w.dequeue e request).RequestAccess e request =
      (((w.dequeue e request).setEntry e g).enqueue e request, .NS_OK, access)) :
    w.grantPending e request = ((w.dequeue e request).setEntry e fun entry =>
      granted request access (g entry)).NotifyListener request (some ⟨request.id, access⟩) .NS_OK := by
  rw [grantPending, h]
  simp only [createDescriptor_enqueue]

theorem Outcome.grantPending (hw : w.Weak) (hmem : request ∈ (w.entries e).mRequestQ)
    (hdoomed : (w.entries e).doomed = false) {g : nsCacheEntry → nsCacheEntry}
    {access : nsCacheAccessMode}
    (hkeep : ∀ entry, (g entry).active = entry.active ∧ (g entry).doomed = entry.doomed ∧
      (g entry).mRequestQ = entry.mRequestQ)
    (h : (w.dequeue e request).RequestAccess e request =
      (((w.dequeue e request).setEntry e g).enqueue e request, .NS_OK, access)) :
    Outcome none w (w.grantPending e request) request.id 0 := by
  have hout := Outcome.dequeue hw hmem
  have hsame : ((w.dequeue e request).entries e).doomed = false := by
    rw [nsCacheService.dequeue, entries_setEntry_self]
    exact hdoomed
  rw [if_neg (by simp [hdoomed])] at hout
  obtain ⟨hactive, hd, hqueue⟩ := hkeep ((w.dequeue e request).entries e)
  have hgrant : Outcome none (w.dequeue e request) ((w.dequeue e request).setEntry e fun entry =>
      granted request access (g entry)) request.id 0 := by
    refine Outcome.permute (f := fun entry => granted request access (g entry)) hout.weak
      (hw.lt_of_request hmem) hsame hactive hd ?_ request.id
    rw [granted, hqueue]
    exact perm_erase_append request _
  rw [grantPending_eq h]
  exact (hout.trans hgrant).trans (Outcome.notify hgrant.weak request _ _)

theorem entries_grantPending {g : nsCacheEntry → nsCacheEntry} {access : nsCacheAccessMode}
    (h : (w.dequeue e request).RequestAccess e request =
      (((w.dequeue e request).setEntry e g).enqueue e request, .NS_OK, access)) :
    (w.grantPending e request).entries e = granted request access
      (g { w.entries e with mRequestQ := (w.entries e).mRequestQ.erase request }) := by
  rw [grantPending_eq h]
  rw [entries_notify, entries_setEntry_self, nsCacheService.dequeue, entries_setEntry_self]

theorem entries_grantPending_of_ne {g : nsCacheEntry → nsCacheEntry} {access : nsCacheAccessMode}
    (h : (w.dequeue e request).RequestAccess e request =
      (((w.dequeue e request).setEntry e g).enqueue e request, .NS_OK, access)) {e' : ℕ}
    (hne : e' ≠ e) : (w.grantPending e request).entries e' = w.entries e' := by
  rw [grantPending_eq h]
  rw [entries_notify, entries_setEntry_of_ne _ _ hne, nsCacheService.dequeue, entries_setEntry_of_ne _ _ hne]

end Grant

/-- All entries are sound, but one whose requests are being granted. -/
structure SoundBut (w : nsCacheService) (e : ℕ) : Prop where
  entries : ∀ e', e' ≠ e → (w.entries e').Sound
  granting : (w.entries e).Open
  active : ∀ e', (w.entries e').active = true → w.mActiveEntries = some e'

/-- The requests for an entry that became valid are granted. -/
theorem SoundBut.pendingLoop (process : nsCacheService → nsCacheRequest → Option nsCacheService)
    {requests : List nsCacheRequest} {w : nsCacheService} {e : ℕ} (hw : w.Weak)
    (h : w.SoundBut e) (hnodup : requests.Nodup) (hdoomed : (w.entries e).doomed = false)
    (hvalid : (w.entries e).valid = true) (hsome : (w.entries e).mDescriptorQ ≠ [])
    (hqueue : (w.entries e).mRequestQ = requests) :
    ∃ w', w.pendingLoop process e false requests = some w' ∧ Outcome none w w' 0 0 ∧ w'.Sound ∧
      w'.entryAlreadyUsed = w.entryAlreadyUsed := by
  induction requests generalizing w with
  | nil =>
    refine ⟨w, rfl, Outcome.refl hw 0, ⟨fun e' => ?_, h.active⟩, rfl⟩
    by_cases heq : e' = e
    · subst heq
      exact { h.granting with quiet := fun _ => hqueue }
    · exact h.entries e' heq
  | cons r rest ih =>
    have hmem : r ∈ (w.entries e).mRequestQ := by
      rw [hqueue]
      exact List.mem_cons_self
    have hlistener := hw.queued e r hmem
    have hhead := dequeue_head hqueue
    have hactive := h.granting.used hsome hdoomed
    have hready : (w.dequeue e r).RequestAccess e r =
        (((w.dequeue e r).setEntry e fun entry => entry).enqueue e r, .NS_OK,
          ⟨r.mAccessRequested.read, false⟩) :=
      access_ready (by rw [hhead]; exact h.granting.ready hactive) (by rw [hhead]; exact hdoomed)
        (by rw [hhead]; exact (h.granting.matching r hmem).symm) (by rw [hhead]; exact hsome)
        (by rw [hhead]; exact hvalid)
    have hout := Outcome.grantPending hw hmem hdoomed (fun _ => ⟨rfl, rfl, rfl⟩) hready
    obtain ⟨hfresh, hrest⟩ := List.nodup_cons.mp hnodup
    have herase : (rest ++ [r]).erase r = rest := by
      rw [List.erase_append_right _ hfresh, List.erase_cons_head, List.append_nil]
    have hnew : (w.grantPending e r).entries e = { w.entries e with
        mRequestQ := rest
        mDescriptorQ := (w.entries e).mDescriptorQ ++
          [⟨r.id, ⟨r.mAccessRequested.read, false⟩⟩] } := by
      rw [entries_grantPending hready, granted, hqueue, List.erase_cons_head, herase]
    have hopen : (w.grantPending e r).SoundBut e := by
      constructor
      · intro e' hne
        rw [entries_grantPending_of_ne hready hne]
        exact h.entries e' hne
      · rw [hnew]
        exact
          { waiting := fun _ => by simp
            single := fun hv => by
              rw [hvalid] at hv
              cases hv
            readers := fun _ _ _ => hvalid
            used := fun _ _ => hactive
            ready := h.granting.ready
            matching := fun r' hr' => h.granting.matching r' (by
              rw [hqueue]
              exact List.mem_cons_of_mem r hr') }
      · intro e' he'
        have hsame : (w.grantPending e r).mActiveEntries = w.mActiveEntries := by
          rw [grantPending_eq hready]
          rfl
        rw [hsame]
        by_cases heq : e' = e
        · rw [heq]
          exact h.active e hactive
        · rw [entries_grantPending_of_ne hready heq] at he'
          exact h.active e' he'
    obtain ⟨w', hw', hloop, hsound, hused⟩ := ih hout.weak hopen hrest (by rw [hnew]; exact hdoomed)
      (by rw [hnew]; exact hvalid) (by rw [hnew]; simp) (by rw [hnew])
    refine ⟨w', ?_, (hout.retag 0).trans hloop, hsound, ?_⟩
    · rw [nsCacheService.pendingLoop, if_pos hlistener, if_neg (by simp [hdoomed]), hvalid]
      exact hw'
    · rw [hused, grantPending_eq hready]
      rfl

end nsCacheService

namespace State

/-! ### What a run keeps -/

structure Good (s : State) : Prop where
  weak : s.service.Weak
  sound : s.service.Sound
  retired : ∀ e, (s.service.entries e).doomed = true → (s.service.entries e).mRequestQ = []
  ids : ∀ (i : ℕ) (r : nsCacheRequest) (rv : nsresult), s.issued[i]? = some (r, rv) → r.id = i
  tally : ∀ i, (s.service.tally i : Int) =
    ((s.issued[i]?).map fun issue => answered issue.1 issue.2).getD 0
  pending : s.service.pending ≤ s.issued.length

theorem Good.lt_newEntry {s : State} (h : s.Good) {e d : ℕ} (hd : s.service.HasDescriptor e d) :
    e < s.service.newEntry := by
  by_contra hge
  obtain ⟨descriptor, hmem, -⟩ := hd
  rw [h.weak.fresh e (Nat.le_of_not_lt hge)] at hmem
  exact List.not_mem_nil hmem

theorem Good.tally_le_one {s : State} (h : s.Good) (i : ℕ) : s.service.tally i ≤ 1 := by
  have htally := h.tally i
  cases hi : s.issued[i]? with
  | none =>
    rw [hi] at htally
    simp only [Option.map_none, Option.getD_none] at htally
    omega
  | some issue =>
    rw [hi] at htally
    simp only [Option.map_some, Option.getD_some, answered] at htally
    split_ifs at htally <;> omega

/-- No request waits twice. -/
theorem Good.nodup {s : State} (h : s.Good) {e : ℕ} (he : e < s.service.newEntry) :
    (s.service.entries e).mRequestQ.Nodup := by
  rw [List.nodup_iff_count_le_one]
  intro r
  have hsingle : (s.service.entries e).mRequestQ.countP (·.id = r.id) ≤
      ∑ e' ∈ Finset.range s.service.newEntry,
        (s.service.entries e').mRequestQ.countP (·.id = r.id) :=
    Finset.single_le_sum (f := fun e' => (s.service.entries e').mRequestQ.countP (·.id = r.id))
      (fun _ _ => Nat.zero_le _) (Finset.mem_range.mpr he)
  have hcount : (s.service.entries e).mRequestQ.count r ≤
      (s.service.entries e).mRequestQ.countP (·.id = r.id) := by
    apply List.countP_mono_left
    intro r' _ heq
    have : r' = r := by simpa using heq
    simp [this]
  have htally : (∑ e' ∈ Finset.range s.service.newEntry,
      (s.service.entries e').mRequestQ.countP (·.id = r.id)) +
        s.service.notified.countP (·.1 = r.id) ≤ 1 := h.tally_le_one r.id
  omega

/-- A step that adds no request. -/
theorem Good.of_outcome {s : State} (h : s.Good) {w : nsCacheService}
    (hout : Outcome none s.service w 0 0) (hsound : w.Sound) : Good ⟨w, s.issued⟩ where
  weak := hout.weak
  sound := hsound
  retired := fun e he => by
    rcases hout.retired e he with hd | hq
    · rw [hout.doomed e hd (by simp)]
      exact h.retired e hd
    · exact hq
  ids := h.ids
  tally := fun i => by
    have hi := hout.tally i
    have hs := h.tally i
    split_ifs at hi <;> simp_all
  pending := by
    have hp := hout.pending
    have hs := h.pending
    show w.pending ≤ s.issued.length
    omega

/-- A step that changes no queue. -/
theorem Good.setEntry {s : State} (h : s.Good) {e : ℕ} {f : nsCacheEntry → nsCacheEntry}
    (he : e < s.service.newEntry) (hqueue : (f (s.service.entries e)).mRequestQ =
      (s.service.entries e).mRequestQ)
    (hactive : (f (s.service.entries e)).active = (s.service.entries e).active)
    (hdoomed : (f (s.service.entries e)).doomed = (s.service.entries e).doomed)
    (hf : (f (s.service.entries e)).Sound) : Good ⟨s.service.setEntry e f, s.issued⟩ where
  weak := h.weak.setEntry he hactive hdoomed (by rw [hqueue]; exact h.weak.queued e)
  sound := h.sound.setEntry hf (by rw [hactive]; exact id)
  retired := fun e' he' => by
    show ((s.service.setEntry e f).entries e').mRequestQ = []
    by_cases heq : e' = e
    · subst heq
      have hd : ((s.service.setEntry e' f).entries e').doomed = true := he'
      rw [entries_setEntry_self, hdoomed] at hd
      rw [entries_setEntry_self, hqueue]
      exact h.retired e' hd
    · have hd : ((s.service.setEntry e f).entries e').doomed = true := he'
      rw [entries_setEntry_of_ne _ f heq] at hd ⊢
      exact h.retired e' hd
  ids := h.ids
  tally := fun i => by
    have htotal := total_setEntry he f (·.mRequestQ.countP (·.id = i))
    have hs := h.tally i
    rw [nsCacheService.tally] at hs
    show ((s.service.setEntry e f).tally i : Int) = _
    rw [nsCacheService.tally, notified_setEntry]
    rw [hqueue] at htotal
    rw [Nat.add_right_cancel htotal]
    exact hs
  pending := by
    have htotal := total_setEntry he f (·.mRequestQ.length)
    rw [hqueue] at htotal
    show (s.service.setEntry e f).pending ≤ s.issued.length
    rw [nsCacheService.pending, Nat.add_right_cancel htotal]
    exact h.pending

/-! ### One call -/

/-- A writer does not close an entry that only readers wait for. -/
def Careful (s : State) : Call → Prop
  | .Close e _ => (s.service.entries e).mRequestQ = [] ∨
      ∃ r ∈ (s.service.entries e).mRequestQ, r.mAccessRequested = ACCESS_READ_WRITE
  | _ => True

instance (s : State) (call : Call) : Decidable (s.Careful call) := by
  cases call <;> unfold Careful <;> infer_instance

theorem Good.openCacheEntry {s : State} (h : s.Good) {n : ℕ} (hn : s.issued.length < n)
    {request : nsCacheRequest} (hid : request.id = s.issued.length) :
    ∃ w rv, s.service.ProcessRequest n request true = some (w, rv) ∧
      (w.entryAlreadyUsed = false → Good ⟨w, s.issued ++ [(request, rv)]⟩) := by
  obtain ⟨m, rfl⟩ : ∃ m, n = m + 1 := ⟨n - 1, by omega⟩
  have hpend := h.pending
  obtain ⟨⟨w, rv⟩, hres⟩ := (processPending_ends m).processRequestWith (processPending_keeps m)
    h.weak request true (by omega)
  refine ⟨w, rv, hres, fun hu => ?_⟩
  have hout := Outcome.processRequestWith (processPending_keeps m) h.weak hres
  have hsettled : settled request true rv = answered request rv := by
    simp [settled, answered]
  rw [hsettled] at hout
  constructor
  · exact hout.weak
  · exact (processPending_safe m).processRequestWith (processPending_keeps m) h.weak h.sound hres hu
  · intro e he
    rcases hout.retired e he with hd | hq
    · show (w.entries e).mRequestQ = []
      rw [hout.doomed e hd (by simp)]
      exact h.retired e hd
    · exact hq
  · intro i r rv' hi
    have hi' : (s.issued ++ [(request, rv)])[i]? = some (r, rv') := hi
    rw [List.getElem?_append] at hi'
    split_ifs at hi' with hlt
    · exact h.ids i r rv' hi'
    · obtain ⟨hzero, heq⟩ := List.getElem?_eq_some_iff.mp hi'
      rw [List.length_singleton] at hzero
      simp only [List.getElem_singleton, Prod.mk.injEq] at heq
      rw [← heq.1, hid]
      omega
  · intro i
    show (w.tally i : Int) = (((s.issued ++ [(request, rv)])[i]?).map _).getD 0
    have hi := hout.tally i
    have hs := h.tally i
    rw [hid] at hi
    rw [List.getElem?_append]
    by_cases hlt : i < s.issued.length
    · rw [if_pos hlt, ← hs, hi, if_neg (Nat.ne_of_lt hlt), Int.add_zero]
    · rw [List.getElem?_eq_none (Nat.le_of_not_lt hlt)] at hs
      rw [if_neg hlt]
      by_cases heq : i = s.issued.length
      · subst heq
        rw [if_pos rfl] at hi
        simp only [Option.map_none, Option.getD_none] at hs
        simp only [Nat.sub_self, List.getElem?_cons_zero, Option.map_some, Option.getD_some]
        omega
      · rw [if_neg heq] at hi
        rw [List.getElem?_eq_none (by rw [List.length_singleton]; omega)]
        simp only [Option.map_none, Option.getD_none] at hs ⊢
        omega
  · have hp := hout.pending
    have hle : answered request rv ≤ 1 := by
      unfold answered
      split <;> omega
    show w.pending ≤ (s.issued ++ [(request, rv)]).length
    rw [List.length_append, List.length_singleton]
    omega

theorem Good.doom {s : State} (h : s.Good) {n : ℕ} (hn : s.issued.length < n) {e : ℕ}
    (he : e < s.service.newEntry) :
    ∃ w, s.service.DoomEntry_Internal (processPending n) e = some w ∧
      (w.entryAlreadyUsed = false → Good ⟨w, s.issued⟩) := by
  have hpend := h.pending
  obtain ⟨w, hw⟩ := (processPending_ends n).doomEntry (processPending_keeps n) h.weak he (by omega)
  have hout := Outcome.doomEntry (processPending_keeps n) h.weak he hw 0
  exact ⟨w, hw, fun hu => h.of_outcome hout
    ((processPending_safe n).doomEntry (processPending_keeps n) h.weak h.sound he hw hu)⟩

theorem pendingRequests_nil {process : nsCacheService → nsCacheRequest → Option nsCacheService}
    {w : nsCacheService} {e : ℕ} (h : (w.entries e).mRequestQ = []) :
    w.ProcessPendingRequests process e = some w := by
  rw [ProcessPendingRequests]
  exact if_pos h

theorem Good.markValid {s : State} (h : s.Good) {n e d : ℕ} (hd : s.service.HasDescriptor e d)
    (hasDevice : Bool) : ∃ w, s.service.ValidateEntry (processPending n) e hasDevice = some w ∧
      Good ⟨w, s.issued⟩ := by
  have he := h.lt_newEntry hd
  have hentry := h.sound.entries e
  have hsome : (s.service.entries e).mDescriptorQ ≠ [] := by
    obtain ⟨descriptor, hmem, -⟩ := hd
    exact List.ne_nil_of_mem hmem
  unfold ValidateEntry
  split_ifs
  · obtain ⟨w, hw⟩ : ∃ w, w = s.service.setEntry e fun entry => { entry with valid := true } :=
      ⟨_, rfl⟩
    have hself : w.entries e = { s.service.entries e with valid := true } := by
      rw [hw, entries_setEntry_self]
    rw [← hw]
    by_cases hqueue : (s.service.entries e).mRequestQ = []
    · refine ⟨w, pendingRequests_nil (by rw [hself]; exact hqueue), ?_⟩
      rw [hw]
      exact h.setEntry he rfl rfl rfl
        { hentry with
          single := fun hv => nomatch hv
          readers := fun _ _ _ => rfl
          quiet := fun _ => hqueue }
    · have hdoomed : (s.service.entries e).doomed = false := by
        by_contra hd'
        exact hqueue (h.retired e (by simpa using hd'))
      have hperm := Outcome.permute (f := fun entry => { entry with valid := true }) h.weak he hdoomed
        rfl rfl (List.Perm.refl _) 0
      rw [← hw] at hperm
      have hbut : w.SoundBut e := by
        constructor
        · intro e' hne
          rw [hw, entries_setEntry_of_ne _ _ hne]
          exact h.sound.entries e'
        · rw [hself]
          exact
            { waiting := hentry.waiting
              single := fun hv => nomatch hv
              readers := fun _ _ _ => rfl
              used := hentry.used
              ready := hentry.ready
              matching := hentry.matching }
        · intro e' he'
          rw [hw, mActiveEntries_setEntry]
          by_cases heq : e' = e
          · rw [heq]
            exact h.sound.active e (hentry.used hsome hdoomed)
          · rw [hw, entries_setEntry_of_ne _ _ heq] at he'
            exact h.sound.active e' he'
      obtain ⟨w', hloop, hout, hsound, -⟩ := hbut.pendingLoop (processPending n) hperm.weak
        (by rw [hself]; exact h.nodup he) (by rw [hself]; exact hdoomed) (by rw [hself])
        (by rw [hself]; exact hsome) rfl
      refine ⟨w', ?_, h.of_outcome (hperm.trans hout) hsound⟩
      rw [ProcessPendingRequests]
      have hne : ¬(w.entries e).mRequestQ = [] := by
        rw [hself]
        exact hqueue
      have hvalid : (w.entries e).valid = true := by rw [hself]
      simp only [hne, if_false, hvalid, Bool.not_true, Bool.and_false, Bool.false_eq_true]
      exact hloop
  · exact ⟨s.service, rfl, h⟩

theorem Good.deactivate {s : State} (h : s.Good) {e : ℕ} (he : e < s.service.newEntry)
    (hidle : s.service.IsNotInUse e = true) : Good ⟨s.service.DeactivateEntry e, s.issued⟩ := by
  obtain ⟨hqueue, hdesc⟩ : (s.service.entries e).mRequestQ = [] ∧
      (s.service.entries e).mDescriptorQ = [] := by simpa [IsNotInUse] using hidle
  unfold DeactivateEntry
  split_ifs with hdoomed hactive
  · exact h
  · have hentry := h.sound.entries e
    obtain ⟨w, hw⟩ : ∃ w, w = s.service.setEntry e fun entry => { entry with active := false } :=
      ⟨_, rfl⟩
    have hself : w.entries e = { s.service.entries e with active := false } := by
      rw [hw, entries_setEntry_self]
    have hother : ∀ e', e' ≠ e → w.entries e' = s.service.entries e' := by
      intro e' hne
      rw [hw, entries_setEntry_of_ne _ _ hne]
    have hqueues : ∀ e', (w.entries e').mRequestQ = (s.service.entries e').mRequestQ ∧
        (w.entries e').doomed = (s.service.entries e').doomed := by
      intro e'
      by_cases heq : e' = e
      · rw [heq, hself]
        exact ⟨rfl, rfl⟩
      · rw [hother e' heq]
        exact ⟨rfl, rfl⟩
    have hnew : w.newEntry = s.service.newEntry := by rw [hw, newEntry_setEntry]
    have hnotified : w.notified = s.service.notified := by rw [hw, notified_setEntry]
    have htotal : ∀ m : nsCacheEntry → ℕ, m { s.service.entries e with active := false } =
        m (s.service.entries e) → w.total m = s.service.total m := by
      intro m hm
      have hsum := total_setEntry he (fun entry => { entry with active := false }) m
      rw [hm, ← hw] at hsum
      exact Nat.add_right_cancel hsum
    rw [← hw]
    constructor
    · constructor
      · intro e' he'
        cases he'
      · intro e' he'
        have hge : s.service.newEntry ≤ e' := by
          rw [← hnew]
          exact he'
        show w.entries e' = {}
        rw [hother e' (by omega)]
        exact h.weak.fresh e' hge
      · intro e' r hr
        have hr' : r ∈ (w.entries e').mRequestQ := hr
        rw [(hqueues e').1] at hr'
        exact h.weak.queued e' r hr'
    · constructor
      · intro e'
        show (w.entries e').Sound
        by_cases heq : e' = e
        · rw [heq, hself]
          exact { hentry with
            used := fun hne => absurd hdesc hne
            ready := fun hact => nomatch hact }
        · rw [hother e' heq]
          exact h.sound.entries e'
      · intro e' he'
        have hact : (w.entries e').active = true := he'
        by_cases heq : e' = e
        · rw [heq, hself] at hact
          cases hact
        · rw [hother e' heq] at hact
          have hsame := (h.sound.active e' hact).symm.trans (h.sound.active e hactive)
          exact absurd (Option.some.inj hsame) heq
    · intro e' he'
      have hd : (w.entries e').doomed = true := he'
      rw [(hqueues e').2] at hd
      show (w.entries e').mRequestQ = []
      rw [(hqueues e').1]
      exact h.retired e' hd
    · exact h.ids
    · intro i
      have hs := h.tally i
      rw [nsCacheService.tally, ← htotal (·.mRequestQ.countP (·.id = i)) rfl, ← hnotified] at hs
      exact hs
    · have hp := h.pending
      rw [nsCacheService.pending, ← htotal (·.mRequestQ.length) rfl] at hp
      exact hp
  · exact h

theorem Good.close {s : State} (h : s.Good) {n e d : ℕ} (hd : s.service.HasDescriptor e d)
    (hc : s.Careful (.Close e d)) :
    ∃ w, s.service.CloseDescriptor (processPending n) e d = some w ∧ Good ⟨w, s.issued⟩ := by
  have he := h.lt_newEntry hd
  have hentry := h.sound.entries e
  obtain ⟨w, hw⟩ : ∃ w, w = s.service.setEntry e fun entry => { entry with
    mDescriptorQ := entry.mDescriptorQ.eraseP (·.id = d) } := ⟨_, rfl⟩
  have hself : w.entries e = { s.service.entries e with
      mDescriptorQ := (s.service.entries e).mDescriptorQ.eraseP (·.id = d) } := by
    rw [hw, entries_setEntry_self]
  have hclose : s.service.CloseDescriptor (processPending n) e d =
      (if (w.entries e).valid then some w else w.ProcessPendingRequests (processPending n) e).map
        fun w' => if w.IsNotInUse e then w'.DeactivateEntry e else w' := by
    rw [CloseDescriptor, RemoveDescriptor, ← hw]
    dsimp only
    congr 1
    funext w'
    cases w.IsNotInUse e <;> rfl
  rw [hclose]
  by_cases hqueue : (s.service.entries e).mRequestQ = []
  · have hgood : Good ⟨w, s.issued⟩ := by
      rw [hw]
      exact h.setEntry he rfl rfl rfl
        { hentry with
          waiting := fun hne => absurd hqueue hne
          single := fun hv => Nat.le_trans List.length_eraseP_le (hentry.single hv)
          readers := fun d' hd' => hentry.readers d' (List.mem_of_mem_eraseP hd')
          used := fun hne => hentry.used fun hnil => hne (by
            show (s.service.entries e).mDescriptorQ.eraseP _ = []
            rw [hnil]
            rfl) }
    have hnil : (w.entries e).mRequestQ = [] := by
      rw [hself]
      exact hqueue
    rw [pendingRequests_nil hnil, ite_self]
    refine ⟨_, rfl, ?_⟩
    have hlt : e < w.newEntry := by rwa [hw]
    split_ifs with hidle
    · exact hgood.deactivate hlt hidle
    · exact hgood
  · -- the entry is not valid, and its only descriptor is the one that is closed
    have hinvalid : (s.service.entries e).valid = false := by
      by_contra hv
      exact hqueue (hentry.quiet (by simpa using hv))
    have hdoomed : (s.service.entries e).doomed = false := by
      by_contra hd'
      exact hqueue (h.retired e (by simpa using hd'))
    have hactive := hentry.used (hentry.waiting hqueue) hdoomed
    have hnone : (s.service.entries e).mDescriptorQ.eraseP (·.id = d) = [] := by
      obtain ⟨descriptor, hmem, rfl⟩ := hd
      obtain ⟨only, honly⟩ := List.length_eq_one_iff.mp
        (Nat.le_antisymm (hentry.single hinvalid) (List.length_pos_of_mem hmem))
      rw [honly] at hmem ⊢
      rw [List.mem_singleton.mp hmem]
      simp
    rw [hnone] at hself
    obtain ⟨r₀, hr₀, hrw⟩ := hc.resolve_left hqueue
    obtain ⟨r, hr⟩ : ∃ r, (s.service.entries e).mRequestQ.find?
        (·.mAccessRequested = ACCESS_READ_WRITE) = some r := by
      rw [← Option.isSome_iff_exists, List.find?_isSome]
      exact ⟨r₀, hr₀, by simpa using hrw⟩
    have hmem := List.mem_of_find?_eq_some hr
    have hwrites : r.mAccessRequested = ACCESS_READ_WRITE := by simpa using List.find?_some hr
    have hperm := Outcome.permute (f := fun entry => { entry with
        mDescriptorQ := entry.mDescriptorQ.eraseP (·.id = d) }) h.weak he hdoomed rfl rfl
      (List.Perm.refl _) 0
    rw [← hw] at hperm
    have hmem' : r ∈ (w.entries e).mRequestQ := by
      rw [hself]
      exact hmem
    have hqueue' : (w.dequeue e r).entries e = { s.service.entries e with
        mRequestQ := (s.service.entries e).mRequestQ.erase r, mDescriptorQ := [] } := by
      rw [nsCacheService.dequeue, entries_setEntry_self, hself]
    have hfirst : (w.dequeue e r).RequestAccess e r =
        (((w.dequeue e r).setEntry e fun entry => { entry with
          valid := !r.mAccessRequested.write }).enqueue e r, .NS_OK, r.mAccessRequested) :=
      access_first (by rw [hqueue']; exact hentry.ready hactive) (by rw [hqueue']; exact hdoomed)
        (by rw [hqueue']; exact (hentry.matching r hmem).symm) (by rw [hqueue'])
    have hout := Outcome.grantPending (g := fun entry => { entry with
        valid := !r.mAccessRequested.write }) hperm.weak hmem' (by rw [hself]; exact hdoomed)
      (fun _ => ⟨rfl, rfl, rfl⟩) hfirst
    have hnew := entries_grantPending hfirst
    rw [hself] at hnew
    have hsound : (w.grantPending e r).Sound := by
      constructor
      · intro e'
        by_cases heq : e' = e
        · rw [heq, hnew, granted]
          constructor
          · constructor
            · exact fun _ => by simp
            · exact fun _ => Nat.le_refl 1
            · intro d' hd' hread
              rw [List.mem_singleton.mp hd', hwrites] at hread
              cases hread
            · exact fun _ _ => hactive
            · exact hentry.ready
            · intro r' hr'
              have hr'' := (perm_erase_append r _).mem_iff.mp hr'
              exact hentry.matching r' (List.mem_of_mem_erase hr'')
          · intro hv
            rw [hwrites] at hv
            cases hv
        · rw [entries_grantPending_of_ne hfirst heq, hw, entries_setEntry_of_ne _ _ heq]
          exact h.sound.entries e'
      · intro e' he'
        have hsame : (w.grantPending e r).mActiveEntries = s.service.mActiveEntries := by
          rw [grantPending_eq hfirst, hw]
          rfl
        rw [hsame]
        by_cases heq : e' = e
        · rw [heq]
          exact h.sound.active e hactive
        · rw [entries_grantPending_of_ne hfirst heq, hw, entries_setEntry_of_ne _ _ heq] at he'
          exact h.sound.active e' he'
    have hlistener := h.weak.queued e r hmem
    have hpending : w.ProcessPendingRequests (processPending n) e = some (w.grantPending e r) := by
      rw [ProcessPendingRequests, hself]
      simp only [hqueue, if_false, hdoomed, hinvalid, Bool.not_false, Bool.and_true, if_true, hr,
        nsCacheService.pendingLoop, hlistener, hself, Bool.or_true, Bool.false_eq_true]
    have hbusy : w.IsNotInUse e = false := by
      rw [IsNotInUse, hself]
      simp [hqueue]
    rw [hself]
    simp only [hinvalid, Bool.false_eq_true, if_false, hpending, hbusy, Option.map_some]
    exact ⟨_, rfl, h.of_outcome (hperm.trans (hout.retag 0)) hsound⟩

theorem Good.setExpirationTime {s : State} (h : s.Good) {e d : ℕ}
    (hd : s.service.HasDescriptor e d) (mExpirationTime : UInt32) :
    Good ⟨s.service.setEntry e fun entry => { entry with mExpirationTime }, s.issued⟩ := by
  have hentry := h.sound.entries e
  exact h.setEntry (h.lt_newEntry hd) rfl rfl rfl ⟨⟨hentry.waiting, hentry.single, hentry.readers,
    hentry.used, hentry.ready, hentry.matching⟩, hentry.quiet⟩

/-- Every call returns, and keeps what holds in a run. -/
theorem Good.step {s : State} (h : s.Good) {n : ℕ} (hn : s.issued.length < n) {call : Call}
    (hc : s.Careful call) : ∃ s', s.step n call = some s' ∧
      s'.issued.length ≤ s.issued.length + 1 ∧
      (s'.service.entryAlreadyUsed = false → s'.Good) := by
  have hstay : s.issued.length ≤ s.issued.length + 1 := Nat.le_succ _
  cases call with
  | OpenCacheEntry accessRequested listener streamBased storagePolicy willDoomEntriesIfExpired =>
    obtain ⟨w, rv, hres, hgood⟩ := @Good.openCacheEntry s h n hn ⟨s.issued.length, accessRequested,
      listener, streamBased, storagePolicy, willDoomEntriesIfExpired⟩ rfl
    refine ⟨_, by rw [State.step, hres]; rfl, ?_, hgood⟩
    rw [List.length_append, List.length_singleton]
  | MarkValid e d hasDevice =>
    rw [State.step]
    split_ifs with hd
    · obtain ⟨w, hw, hgood⟩ := h.markValid hd hasDevice
      exact ⟨⟨w, s.issued⟩, by rw [hw]; rfl, hstay, fun _ => hgood⟩
    · exact ⟨s, rfl, hstay, fun _ => h⟩
  | Doom e d =>
    rw [State.step]
    split_ifs with hd
    · obtain ⟨w, hw, hgood⟩ := h.doom hn (h.lt_newEntry hd)
      exact ⟨⟨w, s.issued⟩, by rw [hw]; rfl, hstay, hgood⟩
    · exact ⟨s, rfl, hstay, fun _ => h⟩
  | Close e d =>
    rw [State.step]
    split_ifs with hd
    · obtain ⟨w, hw, hgood⟩ := h.close hd hc
      exact ⟨⟨w, s.issued⟩, by rw [hw]; rfl, hstay, fun _ => hgood⟩
    · exact ⟨s, rfl, hstay, fun _ => h⟩
  | SetExpirationTime e d expirationTime =>
    rw [State.step]
    split_ifs with hd
    · exact ⟨_, rfl, hstay, fun _ => h.setExpirationTime hd expirationTime⟩
    · exact ⟨s, rfl, hstay, fun _ => h⟩
  | passTime now =>
    exact ⟨_, rfl, hstay, fun _ => ⟨⟨h.weak.active, h.weak.fresh, h.weak.queued⟩,
      ⟨h.sound.entries, h.sound.active⟩, h.retired, h.ids, h.tally, h.pending⟩⟩
  | enable memoryDevice diskDevice =>
    exact ⟨_, rfl, hstay, fun _ => ⟨⟨h.weak.active, h.weak.fresh, h.weak.queued⟩,
      ⟨h.sound.entries, h.sound.active⟩, h.retired, h.ids, h.tally, h.pending⟩⟩

theorem good_start (devices : ℕ → Search) (now : UInt32) : (start devices now).Good where
  weak :=
    { active := fun e he => nomatch he
      fresh := fun _ _ => rfl
      queued := fun e r hr => absurd hr List.not_mem_nil }
  sound :=
    { entries := fun _ => nsCacheEntry.Sound.stored false NO_EXPIRATION_TIME false
      active := fun e he => nomatch he }
  retired := fun _ _ => rfl
  ids := fun i r rv hi => by simp [start] at hi
  tally := fun i => rfl
  pending := Nat.le_refl 0

/-! ### Runs -/

/-- The closes of a run are careful, and no entry is put in the place of another. -/
def Admissible (n : ℕ) : State → List Call → Prop
  | _, [] => True
  | s, call :: calls => s.Careful call ∧ ∀ s' ∈ s.step n call,
    s'.service.entryAlreadyUsed = false ∧ s'.Admissible n calls

instance Admissible.decidable (n : ℕ) :
    (s : State) → (calls : List Call) → Decidable (s.Admissible n calls)
  | _, [] => inferInstanceAs (Decidable True)
  | s, call :: calls =>
    have : ∀ s' : State, Decidable (s'.Admissible n calls) := fun s' => decidable n s' calls
    inferInstanceAs (Decidable (s.Careful call ∧ ∀ s' ∈ s.step n call,
      s'.service.entryAlreadyUsed = false ∧ s'.Admissible n calls))

theorem Good.run {s : State} (h : s.Good) {n : ℕ} {calls : List Call}
    (hn : s.issued.length + calls.length ≤ n) (hadm : s.Admissible n calls) :
    ∃ s', s.run n calls = some s' ∧ s'.Good := by
  induction calls generalizing s with
  | nil => exact ⟨s, rfl, h⟩
  | cons call calls ih =>
    rw [List.length_cons] at hn
    obtain ⟨hc, hnext⟩ := hadm
    obtain ⟨s', hs', hlen, hgood⟩ := h.step (n := n) (by omega) hc
    obtain ⟨hu, hrest⟩ := hnext s' hs'
    obtain ⟨s'', hrun, hgood'⟩ := ih (hgood hu) (by omega) hrest
    refine ⟨s'', ?_, hgood'⟩
    rw [State.run, hs']
    exact hrun

/-- A request waits on an entry with an open descriptor. -/
def Waits (s : State) (id : ℕ) : Prop :=
  ∃ e, (∃ r ∈ (s.service.entries e).mRequestQ, r.id = id) ∧ (s.service.entries e).mDescriptorQ ≠ []

/-- How often the listener of a request was called. -/
def notices (s : State) (id : ℕ) : ℕ := s.service.notified.countP (·.1 = id)

/-- The protocol: one writer of entries that are not yet valid, readers of valid entries, and every
asynchronous request is refused at once, waits or was answered. -/
structure Kept (s : State) : Prop where
  writers : ∀ e e' d d', d ∈ (s.service.entries e).mDescriptorQ →
    d' ∈ (s.service.entries e').mDescriptorQ →
    d.mAccessGranted.write = true → d'.mAccessGranted.write = true →
    (s.service.entries e).doomed = false → (s.service.entries e').doomed = false →
    (s.service.entries e).valid = false → (s.service.entries e').valid = false → e = e' ∧ d = d'
  readers : ∀ e, ∀ d ∈ (s.service.entries e).mDescriptorQ, d.mAccessGranted.write = false →
    (s.service.entries e).valid = true
  requests : ∀ (r : nsCacheRequest) (rv : nsresult), (r, rv) ∈ s.issued → r.mListener = true →
    rv ≠ .NS_OK ∧ rv ≠ .NS_ERROR_CACHE_WAIT_FOR_VALIDATION ∨
    s.Waits r.id ∧ s.notices r.id = 0 ∨ ¬s.Waits r.id ∧ s.notices r.id = 1

theorem Good.kept {s : State} (h : s.Good) : s.Kept where
  writers := fun e e' d d' hd hd' _ _ hdoomed hdoomed' hvalid _ => by
    have hactive := (h.sound.entries e).used (List.ne_nil_of_mem hd) hdoomed
    have hactive' := (h.sound.entries e').used (List.ne_nil_of_mem hd') hdoomed'
    obtain rfl := Option.some.inj ((h.sound.active e hactive).symm.trans (h.sound.active e' hactive'))
    obtain ⟨only, honly⟩ := List.length_eq_one_iff.mp
      (Nat.le_antisymm ((h.sound.entries e).single hvalid) (List.length_pos_of_mem hd))
    rw [honly] at hd hd'
    exact ⟨rfl, (List.mem_singleton.mp hd).trans (List.mem_singleton.mp hd').symm⟩
  readers := fun e => (h.sound.entries e).readers
  requests := fun r rv hmem hlistener => by
    obtain ⟨i, hi⟩ := List.mem_iff_getElem?.mp hmem
    have htally := h.tally i
    rw [hi, ← h.ids i r rv hi] at htally
    simp only [Option.map_some, Option.getD_some] at htally
    by_cases hrv : rv = .NS_OK ∨ rv = .NS_ERROR_CACHE_WAIT_FOR_VALIDATION
    · rw [answered, if_pos ⟨hlistener, hrv⟩] at htally
      have hone : s.service.total (·.mRequestQ.countP (·.id = r.id)) + s.notices r.id = 1 := by
        exact_mod_cast htally
      refine Or.inr ?_
      by_cases hnotice : s.notices r.id = 0
      · refine Or.inl ⟨?_, hnotice⟩
        have hne : s.service.total (·.mRequestQ.countP (·.id = r.id)) ≠ 0 := by omega
        obtain ⟨e, -, he⟩ := Finset.exists_ne_zero_of_sum_ne_zero hne
        obtain ⟨r', hr', hid⟩ := List.countP_pos_iff.mp (Nat.pos_of_ne_zero he)
        exact ⟨e, ⟨r', hr', by simpa using hid⟩,
          (h.sound.entries e).waiting (List.ne_nil_of_mem hr')⟩
      · refine Or.inr ⟨?_, by omega⟩
        rintro ⟨e, ⟨r', hr', hid⟩, -⟩
        have hzero : s.service.total (·.mRequestQ.countP (·.id = r.id)) = 0 := by omega
        have hlt := h.weak.lt_of_request hr'
        have he : (s.service.entries e).mRequestQ.countP (·.id = r.id) = 0 :=
          Finset.sum_eq_zero_iff.mp hzero e (Finset.mem_range.mpr hlt)
        have hpos : 0 < (s.service.entries e).mRequestQ.countP (·.id = r.id) :=
          List.countP_pos_iff.mpr ⟨r', hr', by simpa using hid⟩
        omega
    · exact Or.inl (not_or.mp hrv)

end State

end Kompozer.Cache.Requests

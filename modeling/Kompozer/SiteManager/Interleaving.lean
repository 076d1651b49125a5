import Kompozer.Lib.Splice
import Kompozer.SiteManager.Toggling

/-! Directories are opened and closed while listings are on their way. A request keeps the row
numbers of the moment when its directory was opened. -/

namespace Kompozer.SiteManager

open Publish (JSString js)
open Manager (RqData Entry Put Taken opening_of_ne row_opening)

/-- A listing that has been asked for. Which directory that was, and whether it has not been closed
since, is not known to the program. -/
structure Request where
  aRQdata : RqData
  url : JSString
  dir : Ref
  live : Bool

structure Session where
  manager : Manager
  pending : List Request

/-- A click on a row, with what is in the directory when it is one of this machine, or the
completion of the request at a place among those that are on their way. -/
inductive Event
  | toggle (row : ℕ) (listing : Option (List Entry))
  | complete (k : ℕ) (entries : List Entry)

/-- The requests after the rows of a directory are taken away. -/
def closeRequests (m' : Manager) (d : Ref) (pending : List Request) : List Request :=
  pending.map fun r =>
    { r with live := r.live && decide (r.dir ≠ d) && decide (r.dir ∈ m'.gItemsArray) }

variable (env : Env)

/-- Only containers can be toggled. -/
def Session.step (s : Session) : Event → Session
  | .toggle row listing =>
    match s.manager.gFilteredItemsArray[row]? with
    | none => s
    | some d =>
      let m := s.manager
      if (m.item d).isContainer = false then s
      else if (m.item d).isContainerOpen = true then
        ⟨m.closeRow row d, closeRequests (m.closeRow row d) d s.pending⟩
      else if IsFileUrl (m.item d).url = true then ⟨m.openLocal env row d listing, s.pending⟩
      else ⟨m.openRemote row d,
        s.pending ++ [{ aRQdata := m.openData row d, url := (m.item d).url, dir := d, live := true }]⟩
  | .complete k entries =>
    match s.pending[k]? with
    | none => s
    | some r => ⟨s.manager.complete env r.url entries r.aRQdata, s.pending.eraseIdx k⟩

/-- The arrays hold the same rows as before. -/
def SameRows (m m' : Manager) : Prop :=
  m'.gItemsArray = m.gItemsArray ∧ m'.gFilteredItemsArray = m.gFilteredItemsArray

/-- Opening a directory puts its rows directly below it as soon as they are there, and closing one
takes away the rows below it. A listing that comes too late puts no row anywhere. -/
def Session.Lands (s : Session) (e : Event) : Prop :=
  match e with
  | .toggle row listing => ∀ d, s.manager.gFilteredItemsArray[row]? = some d →
    if (s.manager.item d).isContainer = false then SameRows s.manager (s.step env e).manager
    else if (s.manager.item d).isContainerOpen = true then
      Taken env s.manager (s.step env e).manager d
    else if IsFileUrl (s.manager.item d).url = true then
      match listing with
      | some entries =>
        Put env s.manager (s.step env e).manager d (s.manager.localRows d entries)
      | none => SameRows s.manager (s.step env e).manager
    else SameRows s.manager (s.step env e).manager
  | .complete k entries => ∀ r, s.pending[k]? = some r →
    if r.live = true then
      Put env s.manager (s.step env e).manager r.dir (s.manager.remoteRows r.dir entries)
    else SameRows s.manager (s.step env e).manager

/-- A listing with entries comes when its directory has not been closed and is in both arrays where
it was when it was opened. -/
def Session.Located (s : Session) : Event → Prop
  | .toggle _ _ => True
  | .complete k entries => ∀ r, s.pending[k]? = some r → entries = [] ∨ r.live = true ∧
    s.manager.gFilteredItemsArray[r.aRQdata.parentRow]? = some r.dir ∧
    (s.manager.item r.dir).realIndex + 1 = r.aRQdata.realRow

/-- Every event of a run meets a condition where it happens. -/
def Session.Every (P : Session → Event → Prop) : Session → List Event → Prop
  | _, [] => True
  | s, e :: es => P s e ∧ Session.Every P (s.step env e) es

variable {env} {m m' : Manager} {d d' x : Ref} {s : Session}

/-! ### Rows that stay -/

theorem Manager.Kept.same (h : m.Kept m' d) (hx : x ∈ m.gItemsArray) :
    ∃ b, m'.view x = { m.view x with isContainerOpen := b } := by
  by_cases hxd : x = d
  · exact hxd ▸ h.2
  · exact ⟨(m.view x).isContainerOpen, h.1 x hx hxd⟩

theorem Manager.Kept.level (h : m.Kept m' d) (hx : x ∈ m.gItemsArray) :
    (m'.item x).level = (m.item x).level := by
  obtain ⟨b, hb⟩ := h.same hx
  exact congrArg Row.level hb

/-- A row keeps its next row, or it gets one on a level that is no lower. -/
theorem Manager.Leaf.of_next (hleaf : m.Leaf x) (hkept : m.Kept m' d) (hx : x ∈ m.gItemsArray)
    (hnext : ∀ A rest, m'.gItemsArray = A ++ x :: rest → ∃ A' rest', m.gItemsArray = A' ++ x :: rest' ∧
      rest'.head? = rest.head?) : m'.Leaf x := by
  intro A rest hitems y hy
  obtain ⟨A', rest', hitems', hhead⟩ := hnext A rest hitems
  have hy' : y ∈ m.gItemsArray := by
    rw [hitems']
    exact List.mem_append_right _ (List.mem_cons_of_mem _ (List.mem_of_mem_head? (hhead ▸ hy)))
  rw [hkept.level hx, hkept.level hy']
  exact hleaf A' rest' hitems' y (hhead ▸ hy)

theorem Manager.Put.leaf {rows : List Row} (h : Put env m m' d rows) (hx : x ∈ m.gItemsArray)
    (hxd : x ≠ d) (hleaf : m.Leaf x) : m'.Leaf x := by
  obtain ⟨A, rest, new, hitems, hitems', -, -, -, hnew, hkept⟩ := h
  apply hleaf.of_next hkept hx
  intro A' rest' heq
  rw [hitems'] at heq
  rcases List.append_eq_append_iff.mp heq with ⟨a, rfl, ha⟩ | ⟨a, rfl, ha⟩
  · cases a with
    | nil => exact absurd (List.cons.inj ha).1.symm hxd
    | cons y a =>
      obtain ⟨rfl, htail⟩ := List.cons.inj ha
      rcases List.append_eq_append_iff.mp htail with ⟨b, rfl, hb⟩ | ⟨b, rfl, hb⟩
      · exact ⟨A ++ d :: b, rest', by rw [hitems, hb]; simp, rfl⟩
      · cases b with
        | nil => exact ⟨A ++ [d], rest', by rw [hitems]; simpa using hb.symm, rfl⟩
        | cons y b =>
          obtain ⟨rfl, -⟩ := List.cons.inj hb
          exact absurd hx (hnew x (by simp))
  · cases a with
    | nil => exact absurd (List.cons.inj ha).1 hxd
    | cons y a =>
      obtain ⟨rfl, rfl⟩ := List.cons.inj ha
      refine ⟨A', a ++ d :: rest, by rw [hitems]; simp, ?_⟩
      cases a <;> rfl

theorem Manager.Taken.leaf (h : Taken env m m' d) (hx : x ∈ m.gItemsArray) (hxd : x ≠ d)
    (hleaf : m.Leaf x) : m'.Leaf x := by
  obtain ⟨A, S, rest, hitems, hitems', -, -, -, -, hkept⟩ := h
  apply hleaf.of_next hkept hx
  intro A' rest' heq
  rw [hitems'] at heq
  rcases List.append_eq_append_iff.mp heq with ⟨a, rfl, ha⟩ | ⟨a, rfl, ha⟩
  · cases a with
    | nil => exact absurd (List.cons.inj ha).1.symm hxd
    | cons y a =>
      obtain ⟨rfl, rfl⟩ := List.cons.inj ha
      exact ⟨A ++ d :: (S ++ a), rest', by rw [hitems]; simp, rfl⟩
  · cases a with
    | nil => exact absurd (List.cons.inj ha).1 hxd
    | cons y a =>
      obtain ⟨rfl, rfl⟩ := List.cons.inj ha
      refine ⟨A', a ++ d :: (S ++ rest), by rw [hitems]; simp, ?_⟩
      cases a <;> rfl

/-! ### The invariant -/

/-- A directory that waits for its listing is open and has no rows below it. -/
structure Request.Waits (m : Manager) (r : Request) : Prop where
  mem : r.dir ∈ m.gItemsArray
  opens : (m.view r.dir).opens
  leaf : m.Leaf r.dir
  url : r.url = (m.item r.dir).url
  level : r.aRQdata.level = (m.item r.dir).level + 1

structure Session.Good (env : Env) (s : Session) : Prop where
  sound : s.manager.Sound env
  captured : ∀ r ∈ s.pending, r.aRQdata.row = r.aRQdata.parentRow + 1
  waits : ∀ r ∈ s.pending, r.live = true → r.Waits s.manager
  distinct : ((s.pending.filter Request.live).map Request.dir).Nodup

theorem Request.Waits.congr {r : Request} (h : r.Waits m) (hview : m'.view r.dir = m.view r.dir)
    (hmem : r.dir ∈ m'.gItemsArray) (hleaf : m'.Leaf r.dir) : r.Waits m' where
  mem := hmem
  opens := hview ▸ h.opens
  leaf := hleaf
  url := h.url.trans (congrArg Row.url hview).symm
  level := h.level.trans (congrArg (·.level + 1) hview).symm

/-! ### A listing without entries -/

theorem endEmpty_rows (m : Manager) (row : ℕ) : SameRows m (m.endEmpty row) := by
  unfold Manager.endEmpty
  split <;> exact ⟨rfl, rfl⟩

theorem item_endEmpty (m : Manager) (row : ℕ) (x : Ref) :
    ∃ b, (m.endEmpty row).item x = { m.item x with isContainerEmpty := b } := by
  unfold Manager.endEmpty
  split
  · exact ⟨(m.item x).isContainerEmpty, rfl⟩
  · rename_i d _
    by_cases hx : x = d
    · subst hx
      exact ⟨true, Function.update_self ..⟩
    · exact ⟨(m.item x).isContainerEmpty, Function.update_of_ne hx ..⟩

theorem view_endEmpty (m : Manager) (row : ℕ) (x : Ref) : (m.endEmpty row).view x = m.view x := by
  obtain ⟨b, hb⟩ := item_endEmpty m row x
  rw [Manager.view, hb]
  rfl

theorem Manager.Sound.endEmpty (h : m.Sound env) {row : ℕ} : (m.endEmpty row).Sound env := by
  refine h.congr (endEmpty_rows m row).1 (endEmpty_rows m row).2 ?_ ?_ ?_
    (fun x _ => view_endEmpty m row x) ?_
  · unfold Manager.endEmpty
    split <;> exact Nat.le_refl _
  · unfold Manager.endEmpty
    split <;> rfl
  · unfold Manager.endEmpty
    split <;> exact h.clean
  · intro x _
    obtain ⟨b, hb⟩ := item_endEmpty m row x
    rw [hb]

theorem Manager.Sound.complete_nil (h : m.Sound env) (url : JSString) (aRQdata : RqData) :
    m.complete env url [] aRQdata = m.endEmpty aRQdata.parentRow := by
  rw [Manager.complete, Manager.parseData, List.foldl_nil, Manager.EndFtpRequest, h.clean]

/-- No rows at all are directly below a directory. -/
theorem Manager.Sound.put_nil (h : m.Sound env) (hrows : SameRows m m')
    (hview : ∀ x, m'.view x = m.view x) (hmem : d ∈ m.gItemsArray)
    (hcont : (m.view d).isContainer = true) : Put env m m' d (m.remoteRows d []) := by
  obtain ⟨A, rest, hitems⟩ := List.append_of_mem hmem
  have hshown : m.shown env d = true := by
    rw [Manager.shown_eq, Row.shown, hcont, Bool.true_or]
  have hfilter : m.gFilteredItemsArray =
      A.filter (m.shown env) ++ d :: rest.filter (m.shown env) := by
    rw [h.filtered, hitems, List.filter_append, List.filter_cons_of_pos hshown]
  exact ⟨A, rest, [], hitems, hrows.1.trans hitems, hfilter, hrows.2.trans hfilter, .nil, by simp,
    fun x _ _ => hview x, _, hview d⟩

namespace Session.Good

variable {row : ℕ}

/-- A directory that is closed does not wait. -/
theorem dir_ne (h : s.Good env) (hclosed : (s.manager.item d).isContainerOpen = false) {r : Request}
    (hr : r ∈ s.pending) (hlive : r.live = true) : r.dir ≠ d := by
  rintro rfl
  have hopen : (s.manager.item r.dir).isContainerOpen = true := (h.waits r hr hlive).opens.2
  rw [hclosed] at hopen
  exact absurd hopen (by simp)

theorem close (h : s.Good env) (hd : s.manager.gFilteredItemsArray[row]? = some d)
    (hcont : (s.manager.item d).isContainer = true) :
    (Session.mk (s.manager.closeRow row d)
      (closeRequests (s.manager.closeRow row d) d s.pending)).Good env := by
  obtain ⟨hsound, htaken⟩ := h.sound.closeRow hd hcont
  have hkept : s.manager.Kept (s.manager.closeRow row d) d := by
    obtain ⟨-, -, -, -, -, -, -, -, -, hkept⟩ := htaken
    exact hkept
  refine ⟨hsound, ?_, ?_, ?_⟩
  · intro r' hr'
    obtain ⟨r, hr, rfl⟩ := List.mem_map.mp hr'
    exact h.captured r hr
  · intro r' hr' hlive
    obtain ⟨r, hr, rfl⟩ := List.mem_map.mp hr'
    simp only [Bool.and_eq_true, decide_eq_true_eq] at hlive
    obtain ⟨⟨hlive, hne⟩, hmem⟩ := hlive
    have hwaits := h.waits r hr hlive
    have hstill : r.Waits (s.manager.closeRow row d) :=
      hwaits.congr (hkept.1 r.dir hwaits.mem hne) hmem (htaken.leaf hwaits.mem hne hwaits.leaf)
    exact ⟨hstill.mem, hstill.opens, hstill.leaf, hstill.url, hstill.level⟩
  · have hsub : (((closeRequests (s.manager.closeRow row d) d s.pending).filter
        Request.live).map Request.dir).Sublist ((s.pending.filter Request.live).map Request.dir) := by
      rw [closeRequests, List.filter_map, List.map_map]
      apply List.Sublist.map
      apply List.monotone_filter_right
      intro r hr
      simp only [Function.comp_apply, Bool.and_eq_true] at hr
      exact hr.1.1
    exact h.distinct.sublist hsub

/-- Rows are put below a directory for which nothing is on its way. -/
theorem put (h : s.Good env) {rows : List Row} (hsound : m'.Sound env)
    (hput : Put env s.manager m' d rows) {pending : List Request}
    (hsub : pending.Sublist s.pending) (hne : ∀ r ∈ pending, r.live = true → r.dir ≠ d) :
    (Session.mk m' pending).Good env := by
  refine ⟨hsound, fun r hr => h.captured r (hsub.subset hr), ?_, ?_⟩
  · intro r hr hlive
    have hwaits := h.waits r (hsub.subset hr) hlive
    have hleaf := hput.leaf hwaits.mem (hne r hr hlive) hwaits.leaf
    obtain ⟨A, rest, new, hitems, hitems', -, -, -, -, hkept⟩ := hput
    refine hwaits.congr (hkept.1 r.dir hwaits.mem (hne r hr hlive)) ?_ hleaf
    have hmem := hwaits.mem
    rw [hitems] at hmem
    rw [hitems']
    simp only [List.mem_append, List.mem_cons] at hmem ⊢
    tauto
  · exact h.distinct.sublist ((hsub.filter _).map _)

/-- The rows have not changed. -/
theorem same (h : s.Good env) (hsound : m'.Sound env) (hrows : SameRows s.manager m')
    (hview : ∀ x, m'.view x = s.manager.view x) {pending : List Request}
    (hsub : pending.Sublist s.pending) : (Session.mk m' pending).Good env := by
  refine ⟨hsound, fun r hr => h.captured r (hsub.subset hr), ?_, ?_⟩
  · intro r hr hlive
    have hwaits := h.waits r (hsub.subset hr) hlive
    refine hwaits.congr (hview _) (hrows.1 ▸ hwaits.mem) ?_
    apply hwaits.leaf.of_next (d := r.dir) ⟨fun x _ _ => hview x, _, hview _⟩ hwaits.mem
    intro A rest hitems
    exact ⟨A, rest, hrows.1 ▸ hitems, rfl⟩
  · exact h.distinct.sublist ((hsub.filter _).map _)

/-- A remote directory is opened and its listing is asked for. -/
theorem request (h : s.Good env) (hd : s.manager.gFilteredItemsArray[row]? = some d)
    (hcont : (s.manager.item d).isContainer = true)
    (hclosed : (s.manager.item d).isContainerOpen = false) :
    (Session.mk (s.manager.openRemote row d) (s.pending ++
      [{ aRQdata := s.manager.openData row d, url := (s.manager.item d).url, dir := d,
         live := true }])).Good env := by
  have hmem : d ∈ s.manager.gItemsArray :=
    (List.mem_filter.mp (h.sound.filtered ▸ List.mem_of_getElem? hd)).1
  have hkept : s.manager.Kept (s.manager.openRemote row d) d :=
    ⟨fun x _ hx => congrArg Item.row (opening_of_ne hx), true, row_opening ..⟩
  have hleaf : ∀ x ∈ s.manager.gItemsArray, s.manager.Leaf x → (s.manager.openRemote row d).Leaf x :=
    fun x hx hleaf => hleaf.of_next hkept hx fun A rest hitems => ⟨A, rest, hitems, rfl⟩
  have hviewd : (s.manager.openRemote row d).view d =
      { s.manager.view d with isContainerOpen := true } := row_opening ..
  refine ⟨h.sound.openRemote hmem hclosed, ?_, ?_, ?_⟩
  · intro r hr
    rcases List.mem_append.mp hr with hr | hr
    · exact h.captured r hr
    · rw [List.mem_singleton.mp hr]
      rfl
  · intro r hr hlive
    rcases List.mem_append.mp hr with hr | hr
    · have hwaits := h.waits r hr hlive
      have hne := h.dir_ne hclosed hr hlive
      exact hwaits.congr (hkept.1 r.dir hwaits.mem hne) hwaits.mem (hleaf _ hwaits.mem hwaits.leaf)
    · rw [List.mem_singleton.mp hr]
      exact {
        mem := hmem
        opens := by
          rw [hviewd]
          exact ⟨hcont, rfl⟩
        leaf := hleaf d hmem (h.sound.leaf_of_isContainerOpen hclosed)
        url := (congrArg Row.url hviewd).symm
        level := (congrArg (·.level + 1) hviewd).symm }
  · rw [List.filter_append, List.map_append]
    refine List.nodup_append.mpr ⟨h.distinct, by simp, ?_⟩
    intro x hx y hy hxy
    obtain ⟨r, hr, rfl⟩ := List.mem_map.mp hx
    obtain ⟨hr, hlive⟩ := List.mem_filter.mp hr
    simp only [List.filter_cons_of_pos, List.filter_nil, List.map_cons, List.map_nil,
      List.mem_singleton] at hy
    exact h.dir_ne hclosed hr hlive (hxy.trans hy)

/-- A request that waits is the only one for its directory. -/
theorem other_dir (h : s.Good env) {k : ℕ} {r r' : Request} (hr : s.pending[k]? = some r)
    (hlive : r.live = true) (hr' : r' ∈ s.pending.eraseIdx k) (hlive' : r'.live = true) :
    r'.dir ≠ r.dir := by
  obtain ⟨A, B, heq, rfl⟩ := exists_cut_of_getElem? hr
  have hdistinct := h.distinct
  rw [heq, List.filter_append, List.filter_cons_of_pos hlive, List.map_append,
    List.map_cons] at hdistinct
  rw [heq, eraseIdx_append_length] at hr'
  obtain ⟨hA, hB⟩ := not_mem_of_nodup_cut hdistinct
  intro hdir
  rcases List.mem_append.mp hr' with hr' | hr'
  · exact hA (hdir ▸ List.mem_map_of_mem (List.mem_filter.mpr ⟨hr', hlive'⟩))
  · exact hB (hdir ▸ List.mem_map_of_mem (List.mem_filter.mpr ⟨hr', hlive'⟩))

/-- What one event does. -/
theorem step (h : s.Good env) {e : Event} (hlocated : s.Located e) :
    (s.step env e).Good env ∧ s.Lands env e := by
  cases e with
  | toggle row listing =>
    rw [Session.Lands, Session.step]
    cases hd : s.manager.gFilteredItemsArray[row]? with
    | none => exact ⟨h, by simp⟩
    | some d =>
      simp only [Option.some.injEq, forall_eq']
      split_ifs with hcont hopen hfile
      · exact ⟨h, rfl, rfl⟩
      · have hcont' : (s.manager.item d).isContainer = true := by simpa using hcont
        exact ⟨h.close hd hcont', (h.sound.closeRow hd hcont').2⟩
      · have hcont' : (s.manager.item d).isContainer = true := by simpa using hcont
        have hclosed : (s.manager.item d).isContainerOpen = false := by simpa using hopen
        cases listing with
        | none => exact ⟨h.same (h.sound.with_last (some row)) ⟨rfl, rfl⟩ (fun _ => rfl) (.refl _), rfl, rfl⟩
        | some entries =>
          obtain ⟨hsound, hput⟩ := h.sound.openLocal hd hcont' hclosed entries
          exact ⟨h.put hsound hput (.refl _) fun r hr hlive => h.dir_ne hclosed hr hlive, hput⟩
      · have hcont' : (s.manager.item d).isContainer = true := by simpa using hcont
        have hclosed : (s.manager.item d).isContainerOpen = false := by simpa using hopen
        exact ⟨h.request hd hcont' hclosed, rfl, rfl⟩
  | complete k entries =>
    rw [Session.Lands, Session.step]
    cases hr : s.pending[k]? with
    | none => exact ⟨h, by simp⟩
    | some r =>
      simp only [Option.some.injEq, forall_eq']
      have hmem : r ∈ s.pending := List.mem_of_getElem? hr
      rcases hlocated r hr with rfl | ⟨hlive, hd, hreal⟩
      · rw [h.sound.complete_nil]
        have hview := view_endEmpty s.manager r.aRQdata.parentRow
        have hrows := endEmpty_rows s.manager r.aRQdata.parentRow
        refine ⟨h.same h.sound.endEmpty hrows hview (List.eraseIdx_sublist ..), ?_⟩
        split_ifs with hlive
        · exact h.sound.put_nil hrows hview (h.waits r hmem hlive).mem
            (h.waits r hmem hlive).opens.1
        · exact hrows
      · have hwaits := h.waits r hmem hlive
        obtain ⟨hsound, hput⟩ := h.sound.complete hd (h.captured r hmem) rfl hreal.symm hwaits.level
          hwaits.opens hwaits.leaf entries
        rw [if_pos hlive, hwaits.url]
        exact ⟨h.put hsound hput (List.eraseIdx_sublist ..)
          fun r' hr' hlive' => h.other_dir hr hlive hr' hlive', hput⟩

end Session.Good

/-! ### Any interleaving -/

theorem Session.Good.run (h : s.Good env) {es : List Event}
    (hes : Session.Every env Session.Located s es) :
    Session.Every env (fun s e => s.Lands env e ∧ (s.step env e).manager.Consistent env) s es := by
  induction es generalizing s with
  | nil => trivial
  | cons e es ih =>
    obtain ⟨hgood, hlands⟩ := h.step hes.1
    exact ⟨⟨hlands, hgood.sound.consistent⟩, ih hgood hes.2⟩

/-- Directories are opened and closed and listings come in any order. If each listing with entries
finds its directory open and where it was, every listing is put below its own directory. -/
theorem listings_land (h : m.Sound env) (es : List Event)
    (hes : Session.Every env Session.Located ⟨m, []⟩ es) :
    Session.Every env (fun s e => s.Lands env e ∧ (s.step env e).manager.Consistent env)
      ⟨m, []⟩ es :=
  Session.Good.run ⟨h, by simp, by simp, by simp⟩ hes

/-- What `SetupTreeView` leaves. -/
def Manager.start : Manager where
  item := fun _ => ⟨[], [], false, false, false, false, 0, 0⟩
  fresh := 0
  gItemsArray := []
  gFilteredItemsArray := []
  gNewItemsArray := none
  gLastDirOpenOrClose := none
  gSiteManagerCurrentFilter := js "all"

theorem Manager.start_sound : Manager.start.Sound env :=
  ⟨.nil, by simp [start], by simp [start], rfl, trivial, rfl⟩

def plainEnv : Env := ⟨fun _ => none, id⟩

def twoSites : Manager :=
  Manager.start.FillSiteList plainEnv [(js "A", js "ftp://a"), (js "B", js "ftp://b")]

theorem twoSites_sound : twoSites.Sound plainEnv := Manager.start_sound.FillSiteList _

/-- A file of a listing. -/
def oneFile : Entry := ⟨js "x", false, false⟩

/-- The second site is opened and its listing comes, then the first site. -/
theorem listings_land_below : Session.Every plainEnv
    (fun s e => s.Lands plainEnv e ∧ (s.step plainEnv e).manager.Consistent plainEnv) ⟨twoSites, []⟩
    [.toggle 1 none, .complete 0 [oneFile], .toggle 0 none, .complete 0 [oneFile]] := by
  apply listings_land twoSites_sound
  refine ⟨trivial, ?_, trivial, ?_, trivial⟩
  · intro r hr
    obtain rfl := Option.some.inj hr
    exact .inr ⟨by decide +kernel, by decide +kernel, by decide +kernel⟩
  · intro r hr
    obtain rfl := Option.some.inj hr
    exact .inr ⟨by decide +kernel, by decide +kernel, by decide +kernel⟩

/-- The second site is opened, then the first, and the listings come. What is in the second site is
put below a file of the first. -/
theorem listing_misplaced : ¬∀ (env : Env) (m : Manager) (es : List Event), m.Sound env →
    Session.Every env (Session.Lands env) ⟨m, []⟩ es := by
  intro h
  obtain ⟨-, -, -, hlands, -⟩ := h plainEnv twoSites
    [.toggle 1 none, .toggle 0 none, .complete 1 [oneFile], .complete 0 [oneFile]] twoSites_sound
  obtain ⟨A, rest, new, hitems, hitems', -⟩ := hlands _ rfl
  have hbefore : [0, 2, 1] = A ++ 1 :: rest := Eq.trans (by decide +kernel) hitems
  have hafter : [0, 2, 3, 1] = A ++ 1 :: (new ++ rest) := Eq.trans (by decide +kernel) hitems'
  rcases A with _ | ⟨a, _ | ⟨b, _ | ⟨c, A⟩⟩⟩
  all_goals simp_all

end Kompozer.SiteManager

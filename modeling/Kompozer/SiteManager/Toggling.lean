import Kompozer.SiteManager.Listings

/-! Opening and closing directories keeps the arrays together. -/

namespace Kompozer.SiteManager.Manager

open Publish (JSString js)

variable {env : Env} {m m' : Manager} {d x : Ref} {A S rest X Y new : List Ref} {row : ℕ}

/-! ### Closing -/

/-- The rows below a row are gone. -/
def Taken (env : Env) (m m' : Manager) (d : Ref) : Prop :=
  ∃ A S rest, m.gItemsArray = A ++ d :: (S ++ rest) ∧ m'.gItemsArray = A ++ d :: rest ∧
    m.gFilteredItemsArray =
      A.filter (m.shown env) ++ d :: (S.filter (m.shown env) ++ rest.filter (m.shown env)) ∧
    m'.gFilteredItemsArray = A.filter (m.shown env) ++ d :: rest.filter (m.shown env) ∧
    (∀ z ∈ S, (m.item d).level < (m.item z).level) ∧
    (∀ x ∈ rest.head?, (m.item x).level ≤ (m.item d).level) ∧ Kept m m' d

/-- The rows below a row are the same in both arrays. -/
theorem Sound.below (h : m.Sound env) (hd : m.gFilteredItemsArray[row]? = some d) :
    ∃ A S rest, m.gItemsArray = A ++ d :: (S ++ rest) ∧ A.length = (m.item d).realIndex ∧
      m.gFilteredItemsArray =
        A.filter (m.shown env) ++ d :: (S.filter (m.shown env) ++ rest.filter (m.shown env)) ∧
      (A.filter (m.shown env)).length = row ∧
      (∀ z ∈ S, (m.item d).level < (m.item z).level) ∧
      (∀ x ∈ rest.head?, (m.item x).level ≤ (m.item d).level) ∧
      ∀ x ∈ (rest.filter (m.shown env)).head?, (m.item x).level ≤ (m.item d).level := by
  obtain ⟨A, rows, hitems, hlen, hrows, hlenF⟩ := h.split hd
  obtain ⟨S, rest, rfl, hS, hrest⟩ := m.exists_below (m.item d).level rows
  rw [List.filter_append] at hrows
  refine ⟨A, S, rest, hitems, hlen, hrows, hlenF, hS, hrest, ?_⟩
  have hhang := hangs_map_nil.mp h.hangs
  rw [hitems, List.append_cons, ← List.append_assoc] at hhang
  refine (hangs_append.mp hhang).2.head_filter (p := m.shown env) ?_ hrest
  intro x _ hx
  rw [shown_eq] at hx
  exact Row.not_opens_of_hidden hx

theorem Sound.closeRow (h : m.Sound env) (hd : m.gFilteredItemsArray[row]? = some d)
    (hcont : (m.item d).isContainer = true) :
    (m.closeRow row d).Sound env ∧ Taken env m (m.closeRow row d) d := by
  obtain ⟨A, S, rest, hitems, hlen, hrows, hlenF, hS, hrest, hrestF⟩ := h.below hd
  have hcountF : m.countBelow m.gFilteredItemsArray row (m.item d).level =
      (S.filter (m.shown env)).length := by
    rw [hrows]
    exact countBelow_eq (fun z hz => hS z (List.mem_of_mem_filter hz)) hrestF hlenF
  have hcount : m.countBelow m.gItemsArray (m.item d).realIndex (m.item d).level = S.length := by
    rw [hitems]
    exact countBelow_eq hS hrest hlen
  have hcutF : spliceOut m.gFilteredItemsArray (row + 1) (S.filter (m.shown env)).length =
      A.filter (m.shown env) ++ d :: rest.filter (m.shown env) := by
    rw [hrows]
    exact spliceOut_eq hlenF
  have hcut : spliceOut m.gItemsArray ((m.item d).realIndex + 1) S.length = A ++ d :: rest := by
    rw [hitems]
    exact spliceOut_eq hlen
  have hsub : (A ++ d :: rest).Sublist m.gItemsArray := by
    rw [hitems]
    exact (List.Sublist.refl A).append ((List.sublist_append_right S rest).cons_cons d)
  generalize hm₁ : ({ m with
      gFilteredItemsArray := A.filter (m.shown env) ++ d :: rest.filter (m.shown env)
      gItemsArray := A ++ d :: rest } : Manager) = m₁
  have hitems₁ : m₁.gItemsArray = A ++ d :: rest := by rw [← hm₁]
  have hitem₁ : m₁.item = m.item := by rw [← hm₁]
  obtain ⟨f, hupdate, hrow, -, hnumber⟩ := exists_Update (m := m₁)
    (hitems₁ ▸ h.nodup.sublist hsub) (m.item d).realIndex (by
      intro i x hi hx
      rw [← hlen] at hi
      rw [hitems₁, List.getElem?_append_left hi] at hx
      rw [hitem₁, h.realIndex i x]
      rw [hitems, List.getElem?_append_left hi, hx])
  have hclose : ∃ last, m.closeRow row d =
      { m₁ with item := opening f d false, gLastDirOpenOrClose := last } := by
    rw [Manager.closeRow]
    simp only [hcountF, hcount, hcutF, hcut, hm₁, hupdate]
    split
    · exact ⟨m₁.gLastDirOpenOrClose, rfl⟩
    · exact ⟨_, rfl⟩
  obtain ⟨last, hclose⟩ := hclose
  have hrowm : ∀ x, (f x).row = m.view x := fun x => (hrow x).trans (by rw [hitem₁]; rfl)
  have hview : ∀ x, x ≠ d → (opening f d false x).row = m.view x := by
    intro x hx
    rw [opening_of_ne hx, hrowm]
  have hviewd : (opening f d false d).row = { m.view d with isContainerOpen := false } := by
    rw [row_opening, hrowm]
  have hshown : ∀ x, (opening f d false x).row.shown env m.gSiteManagerCurrentFilter =
      m.shown env x := by
    intro x
    rw [shown_opening, hrowm, shown_eq]
  have hoff := List.nodup_append.mp (hitems ▸ h.nodup)
  have hA : ∀ x ∈ A, x ≠ d := fun x hx => hoff.2.2 x hx d List.mem_cons_self
  have hrestd : ∀ x ∈ rest, x ≠ d := by
    rintro x hx rfl
    exact (List.nodup_cons.mp hoff.2.1).1 (List.mem_append_right S hx)
  rw [hclose, ← hm₁]
  constructor
  · exact {
      nodup := h.nodup.sublist hsub
      old := fun x hx => h.old x (hsub.subset hx)
      realIndex := by
        intro i x hx
        show (opening f d false x).realIndex = i
        rw [realIndex_opening]
        exact hnumber i x (hitems₁ ▸ hx)
      filtered := by
        show _ = (A ++ d :: rest).filter fun x =>
          (opening f d false x).row.shown env m.gSiteManagerCurrentFilter
        have hd' : m.shown env d = true := by rw [shown, hcont, Bool.true_or]
        simp only [hshown, List.filter_append, List.filter_cons_of_pos hd']
      hangs := by
        show Hangs Row.level Row.opens Row.owns []
          ((A ++ d :: rest).map fun x => (opening f d false x).row)
        have hhang := h.hangs
        rw [hitems, List.map_append, List.map_cons, List.map_append] at hhang
        rw [List.map_append, List.map_cons, List.map_congr_left fun x hx => hview x (hA x hx),
          List.map_congr_left fun x hx => hview x (hrestd x hx)]
        apply hhang.cut
        · intro r hr
          obtain ⟨z, hz, rfl⟩ := List.mem_map.mp hr
          exact hS z hz
        · intro r hr
          rw [List.head?_map, Option.mem_def, Option.map_eq_some_iff] at hr
          obtain ⟨y, hy, rfl⟩ := hr
          exact hrest y hy
        · rw [hviewd]
        · intro p _ hp
          rw [hviewd]
          exact hp
      clean := h.clean }
  · exact ⟨A, S, rest, hitems, rfl, hrows, rfl, hS, hrest, fun x _ hx => hview x hx, false, hviewd⟩

/-! ### Opening -/

theorem remote_owned (url : JSString) (level : ℕ) (entries : List Entry) :
    ∀ x ∈ entries.map (remoteItem url level),
      x.level = level ∧ x.isContainerOpen = false ∧ url <+: x.url := by
  intro x hx
  obtain ⟨e, -, rfl⟩ := List.mem_map.mp hx
  exact ⟨rfl, rfl, _, (List.append_assoc ..).symm⟩

theorem local_owned (url : JSString) (level : ℕ) (entries : List Entry) :
    ∀ x ∈ entries.map (localItem url level),
      x.level = level ∧ x.isContainerOpen = false ∧ url <+: x.url := by
  intro x hx
  obtain ⟨e, -, rfl⟩ := List.mem_map.mp hx
  exact ⟨rfl, rfl, _, (List.append_assoc ..).symm⟩

theorem Sound.with_last (h : m.Sound env) (last : Option ℕ) :
    ({ m with gLastDirOpenOrClose := last } : Manager).Sound env :=
  h.congr rfl rfl (Nat.le_refl _) rfl h.clean (fun _ _ => rfl) fun _ _ => rfl

/-- The rows of a directory of this machine. -/
def localRows (m : Manager) (d : Ref) (entries : List Entry) : List Row :=
  entries.map fun e => (localItem (m.item d).url ((m.item d).level + 1) e).row

def remoteRows (m : Manager) (d : Ref) (entries : List Entry) : List Row :=
  entries.map fun e => (remoteItem (m.item d).url ((m.item d).level + 1) e).row

/-- A row that has no rows below it is opened or closed. -/
theorem Sound.opened (h : m.Sound env) (hmem : d ∈ m.gItemsArray) (hleaf : m.Leaf d) (b : Bool) :
    ({ m with item := opening m.item d b } : Manager).Sound env where
  nodup := h.nodup
  old := h.old
  realIndex := by
    intro i x hx
    rw [realIndex_opening]
    exact h.realIndex i x hx
  filtered := by
    rw [h.filtered]
    apply List.filter_congr
    intro x _
    exact (shown_opening ..).symm
  hangs := by
    obtain ⟨A, rest, hitems⟩ := List.append_of_mem hmem
    have hoff := List.nodup_append.mp (hitems ▸ h.nodup)
    have hview : ∀ x, x ≠ d → (opening m.item d b x).row = m.view x := by
      intro x hx
      rw [opening_of_ne hx]
      rfl
    have hhang := h.hangs
    rw [hitems, List.map_append, List.map_cons] at hhang
    show Hangs Row.level Row.opens Row.owns []
      (m.gItemsArray.map fun x => (opening m.item d b x).row)
    rw [hitems, List.map_append, List.map_cons,
      List.map_congr_left fun x hx => hview x (hoff.2.2 x hx d List.mem_cons_self),
      List.map_congr_left (l := rest) fun x hx => hview x fun hxd =>
        (List.nodup_cons.mp hoff.2.1).1 (hxd ▸ hx)]
    refine hhang.cut (S := []) (by simp) ?_ (by rw [row_opening]; rfl) ?_
    · intro r hr
      rw [List.head?_map, Option.mem_def, Option.map_eq_some_iff] at hr
      obtain ⟨y, hy, rfl⟩ := hr
      exact hleaf A rest hitems y hy
    · intro p _ hp
      rw [row_opening]
      exact hp
  clean := h.clean

theorem Sound.leaf_of_isContainerOpen (h : m.Sound env)
    (hclosed : (m.item d).isContainerOpen = false) : m.Leaf d := by
  apply h.leaf_of_closed
  intro hopen
  have hopen' : (m.item d).isContainerOpen = true := hopen.2
  rw [hclosed] at hopen'
  exact absurd hopen' (by simp)

theorem Sound.openLocal (h : m.Sound env) (hd : m.gFilteredItemsArray[row]? = some d)
    (hcont : (m.item d).isContainer = true) (hclosed : (m.item d).isContainerOpen = false)
    (entries : List Entry) : (m.openLocal env row d (some entries)).Sound env ∧
      Put env m (m.openLocal env row d (some entries)) d (m.localRows d entries) := by
  obtain ⟨hsound, A, rest, new, hput⟩ := (h.with_last (some row)).listing
    ((sortLocal entries).map (localItem (m.item d).url ((m.item d).level + 1))) hd
    (m.openData row d) rfl rfl rfl hcont (h.leaf_of_isContainerOpen hclosed) (local_owned _ _ _)
    (show m.openLocal env row d (some entries) = _ by
      rw [Manager.openLocal]
      simp only [OpenLocalDirectory_eq]
      rfl)
  obtain ⟨h₁, h₂, h₃, h₄, hperm, h₆, h₇⟩ := hput
  refine ⟨hsound, A, rest, new, h₁, h₂, h₃, h₄, hperm.trans ?_, h₆, h₇⟩
  rw [List.map_map, localRows]
  exact (sortLocal_perm entries).map _

/-- Nothing is shown below a remote directory before its listing comes. -/
theorem Sound.openRemote (h : m.Sound env) (hd : d ∈ m.gItemsArray)
    (hclosed : (m.item d).isContainerOpen = false) : (m.openRemote row d).Sound env :=
  (h.opened hd (h.leaf_of_isContainerOpen hclosed) true).with_last (some row)

/-- A listing that comes while its directory is where it was. -/
theorem Sound.complete (h : m.Sound env) (hd : m.gFilteredItemsArray[row]? = some d)
    {aRQdata : RqData} (hrow : aRQdata.row = row + 1) (hparent : aRQdata.parentRow = row)
    (hreal : aRQdata.realRow = (m.item d).realIndex + 1)
    (hlevel : aRQdata.level = (m.item d).level + 1) (hopen : (m.view d).opens) (hleaf : m.Leaf d)
    (entries : List Entry) :
    (m.complete env (m.item d).url entries aRQdata).Sound env ∧
      Put env m (m.complete env (m.item d).url entries aRQdata) d (m.remoteRows d entries) := by
  have hsame : ((m.complete env (m.item d).url entries aRQdata).change d fun x =>
      { x with isContainerOpen := true }) = m.complete env (m.item d).url entries aRQdata := by
    obtain ⟨A, rest, new, f, harr, -, heq, -, -, -, hold, -⟩ :=
      h.endRequest (entries.map (remoteItem (m.item d).url aRQdata.level)) hd hrow hparent hreal
    rw [Manager.complete, parseData_eq, heq, change]
    have hfd : (f d).isContainerOpen = true := by
      have hopen' := hopen.2
      rw [← hold d (h.old d (by simp [harr]))] at hopen'
      exact hopen'
    have hfix : ({ f d with isContainerOpen := true } : Item) = f d := by rw [← hfd]
    simp only [hfix, Function.update_eq_self]
  have hlist := h.listing (entries.map (remoteItem (m.item d).url aRQdata.level)) hd aRQdata hrow
    hparent hreal hopen.1 hleaf (hlevel ▸ remote_owned _ _ _) rfl
  rw [← parseData_eq, ← Manager.complete, hsame, List.map_map, hlevel] at hlist
  exact hlist

/-! ### The list of the sites -/

def siteItem (site : JSString × JSString) : Item := newItem site.1 site.2 true false 0

theorem Sound.FillSiteList (h : m.Sound env) (sites : List (JSString × JSString)) :
    (m.FillSiteList env sites).Sound env := by
  rw [Manager.FillSiteList]
  split_ifs with hsites
  · exact h
  · obtain ⟨f, hpush, -, hmap⟩ := foldl_push (sites.map siteItem)
      { m with gItemsArray := [], gFilteredItemsArray := [] }
    have hadd : sites.foldl (fun m site => m.addRow site.1 site.2 true false 0)
        { m with gItemsArray := [], gFilteredItemsArray := [] } =
        (sites.map siteItem).foldl push { m with gItemsArray := [], gFilteredItemsArray := [] } := by
      rw [List.foldl_map]
      rfl
    have hne : sites.map siteItem ≠ [] := by simpa using hsites
    simp only [hadd.trans hpush]
    simp only [h.clean, if_neg hne, Option.getD_none, Option.getD_some, List.nil_append,
      List.length_map]
    rw [List.length_map] at hmap
    generalize hnew : List.range' m.fresh sites.length = new at *
    obtain ⟨g, hnumber, hrow, -, hreal⟩ := foldl_number new.zipIdx { m with
      item := f, fresh := m.fresh + sites.length, gItemsArray := [], gFilteredItemsArray := []
      gNewItemsArray := some new }
    have hnodup : new.Nodup := hnew ▸ List.nodup_range'
    rw [List.zipIdx_map_fst] at hreal
    rw [hnumber]
    refine ⟨hnodup, ?_, ?_, rfl, ?_, rfl⟩
    · intro x hx
      have hx' : x ∈ List.range' m.fresh sites.length := hnew ▸ hx
      exact (List.mem_range'_1.mp hx').2
    · intro i x hx
      apply hreal hnodup x i
      rw [List.mem_zipIdx_iff_getElem?]
      exact hx
    · apply hangs_flat
      intro r hr
      obtain ⟨x, hx, rfl⟩ := List.mem_map.mp hr
      obtain ⟨site, -, hsite⟩ := List.mem_map.mp (hmap ▸ List.mem_map_of_mem hx)
      have hview : (g x).row = (siteItem site).row := (hrow x).trans (by rw [hsite])
      show (g x).row.level = 0 ∧ ¬(g x).row.opens
      rw [hview]
      exact ⟨rfl, fun hopen => absurd hopen.2 (by simp [Item.row, siteItem, newItem])⟩

end Kompozer.SiteManager.Manager

import Kompozer.SiteManager.Sound

/-! A listing that is put below its directory. -/

namespace Kompozer.SiteManager

open Publish (JSString js)

namespace Manager

variable {env : Env} {m m' : Manager} {d x : Ref} {A S rest X Y new : List Ref} {row : ℕ}

/-! ### New rows -/

def push (m : Manager) (x : Item) : Manager :=
  { m with
    item := Function.update m.item m.fresh x
    fresh := m.fresh + 1
    gNewItemsArray := some (m.gNewItemsArray.getD [] ++ [m.fresh]) }

/-- The row of an entry. -/
def newItem (name url : JSString) (isContainer isSymLink : Bool) (level : ℕ) : Item where
  name := name
  url := url
  isContainer := isContainer
  isContainerOpen := false
  isContainerEmpty := false
  isSymLink := isSymLink
  level := level
  realIndex := 0

/-- The rows of a remote listing. -/
def remoteItem (url : JSString) (level : ℕ) (e : Entry) : Item :=
  newItem e.location (url ++ (if url.getLast? = some '/' then [] else js "/") ++ e.location)
    e.isDirectory e.isSymLink level

def localItem (url : JSString) (level : ℕ) (e : Entry) : Item :=
  newItem e.location (url ++ js "/" ++ e.location) e.isDirectory e.isSymLink level

theorem parseData_eq (m : Manager) (url : JSString) (entries : List Entry) (aRQdata : RqData) :
    m.parseData url entries aRQdata =
      (entries.map (remoteItem url aRQdata.level)).foldl push m := by
  rw [parseData, List.foldl_map]
  rfl

theorem OpenLocalDirectory_eq (m : Manager) (url : JSString) (entries : List Entry)
    (aRQdata : RqData) : m.OpenLocalDirectory env url entries aRQdata =
      (((sortLocal entries).map (localItem url aRQdata.level)).foldl push m).EndFtpRequest env
        aRQdata := by
  rw [OpenLocalDirectory, List.foldl_map]
  rfl

theorem sortLocal_perm (entries : List Entry) : (sortLocal entries).Perm entries := by
  have hparts := List.filter_append_perm Entry.isDirectory entries
  exact ((List.perm_insertionSort ..).append (List.perm_insertionSort ..)).trans hparts

/-- What the new rows of several entries are. -/
theorem foldl_push (items : List Item) (m : Manager) : ∃ f,
    items.foldl push m = { m with
      item := f
      fresh := m.fresh + items.length
      gNewItemsArray := if items = [] then m.gNewItemsArray
        else some (m.gNewItemsArray.getD [] ++ List.range' m.fresh items.length) } ∧
    (∀ x < m.fresh, f x = m.item x) ∧ (List.range' m.fresh items.length).map f = items := by
  induction items generalizing m with
  | nil => exact ⟨m.item, rfl, fun _ _ => rfl, rfl⟩
  | cons x items ih =>
    obtain ⟨f, heq, hold, hmap⟩ := ih (m.push x)
    refine ⟨f, ?_, ?_, ?_⟩
    · rw [List.foldl_cons, heq, if_neg (List.cons_ne_nil x items)]
      by_cases hitems : items = []
      · subst hitems
        rfl
      · simp only [if_neg hitems, push, List.length_cons, Option.getD_some, List.append_assoc]
        rw [Nat.add_right_comm, Nat.add_assoc]
        rfl
    · intro y hy
      rw [hold y (Nat.lt_succ_of_lt hy)]
      exact Function.update_of_ne (Nat.ne_of_lt hy) _ _
    · rw [List.length_cons, List.range'_succ, List.map_cons, hold _ (Nat.lt_succ_self _)]
      congr 1
      exact Function.update_self ..

/-! ### Rows below a directory -/

/-- New rows are spliced in and numbered together with what is behind them. -/
theorem Sound.numbered (h : m.Sound env) (hitems : m.gItemsArray = X ++ Y) {m₁ : Manager}
    (hnew : new.Nodup) (hfresh : ∀ x ∈ new, m.fresh ≤ x) (hm₁ : m₁.gItemsArray = X ++ new ++ Y)
    (hold : ∀ x < m.fresh, m₁.item x = m.item x) : m₁.gItemsArray.Nodup ∧ ∃ f,
    m₁.UpdateItemsArrayRealIndexes X.length = { m₁ with item := f } ∧
      (∀ x, (f x).row = m₁.view x) ∧ ∀ i x, m₁.gItemsArray[i]? = some x → (f x).realIndex = i := by
  have hnodup : m₁.gItemsArray.Nodup := by
    have hmid : (X ++ new ++ Y).Perm (new ++ m.gItemsArray) := by
      rw [hitems, ← List.append_assoc]
      exact List.perm_append_comm.append_right Y
    rw [hm₁]
    refine hmid.nodup_iff.mpr (List.nodup_append.mpr ⟨hnew, h.nodup, ?_⟩)
    intro x hx y hy hxy
    exact absurd (h.old y hy) (Nat.not_lt.mpr (hxy ▸ hfresh x hx))
  obtain ⟨f, heq, hrow, -, hreal⟩ := exists_Update hnodup X.length (by
    intro i x hi hx
    rw [hm₁, List.append_assoc, List.getElem?_append_left hi] at hx
    have hmem : m.gItemsArray[i]? = some x := by rw [hitems, List.getElem?_append_left hi, hx]
    rw [hold x (h.old x (List.mem_of_getElem? hmem)), h.realIndex i x hmem])
  exact ⟨hnodup, f, heq, hrow, hreal⟩

/-- No other row has changed, and a row may have been opened or closed. -/
def Kept (m m' : Manager) (d : Ref) : Prop :=
  (∀ x ∈ m.gItemsArray, x ≠ d → m'.view x = m.view x) ∧
    ∃ b, m'.view d = { m.view d with isContainerOpen := b }

/-- New rows are directly below a row. -/
def Put (env : Env) (m m' : Manager) (d : Ref) (rows : List Row) : Prop :=
  ∃ A rest new, m.gItemsArray = A ++ d :: rest ∧ m'.gItemsArray = A ++ d :: (new ++ rest) ∧
    m.gFilteredItemsArray = A.filter (m.shown env) ++ d :: rest.filter (m.shown env) ∧
    m'.gFilteredItemsArray =
      A.filter (m.shown env) ++ d :: (new.filter (m'.shown env) ++ rest.filter (m.shown env)) ∧
    (new.map m'.view).Perm rows ∧ (∀ x ∈ new, x ∉ m.gItemsArray) ∧ Kept m m' d

theorem Sound.endRequest (h : m.Sound env) (items : List Item)
    (hd : m.gFilteredItemsArray[row]? = some d) {aRQdata : RqData} (hrow : aRQdata.row = row + 1)
    (hparent : aRQdata.parentRow = row) (hreal : aRQdata.realRow = (m.item d).realIndex + 1) :
    ∃ A rest new f, m.gItemsArray = A ++ d :: rest ∧
      m.gFilteredItemsArray = A.filter (m.shown env) ++ d :: rest.filter (m.shown env) ∧
      (items.foldl push m).EndFtpRequest env aRQdata = { m with
        item := f
        fresh := m.fresh + items.length
        gItemsArray := A ++ d :: (new ++ rest)
        gFilteredItemsArray := A.filter (m.shown env) ++ d ::
          (new.filter (fun x => (f x).row.shown env m.gSiteManagerCurrentFilter) ++
            rest.filter (m.shown env)) } ∧
      (new.map fun x => (f x).row).Perm (items.map Item.row) ∧
      (∀ x ∈ new, m.fresh ≤ x ∧ x < m.fresh + items.length) ∧
      (A ++ d :: (new ++ rest)).Nodup ∧ (∀ x < m.fresh, (f x).row = m.view x) ∧
      ∀ i x, (A ++ d :: (new ++ rest))[i]? = some x → (f x).realIndex = i := by
  obtain ⟨A, rest, hitems, hlen, hrows, hlenF⟩ := h.split hd
  obtain ⟨f, hpush, hold, hmap⟩ := foldl_push items m
  rw [hpush, h.clean]
  have hget : ∀ rest', (A.filter (m.shown env) ++ d :: rest')[row]? = some d := by
    intro rest'
    rw [← hlenF, List.getElem?_append_right (Nat.le_refl _), Nat.sub_self]
    rfl
  have hd_old : d < m.fresh := h.old d (by simp [hitems])
  have hflag : ∀ (f : Ref → Item) (b : Bool) x,
      (Function.update f d { f d with isContainerEmpty := b } x).row = (f x).row := by
    intro f b x
    by_cases hx : x = d
    · subst hx
      rw [Function.update_self]
      rfl
    · rw [Function.update_of_ne hx]
  have hnumber : ∀ (f : Ref → Item) (b : Bool) x,
      (Function.update f d { f d with isContainerEmpty := b } x).realIndex = (f x).realIndex := by
    intro f b x
    by_cases hx : x = d
    · subst hx
      rw [Function.update_self]
    · rw [Function.update_of_ne hx]
  by_cases hempty : items = []
  · subst hempty
    refine ⟨A, rest, [], Function.update f d { f d with isContainerEmpty := true }, hitems, hrows,
      ?_, ?_⟩
    · rw [EndFtpRequest]
      simp only [if_pos, endEmpty, hparent, hd, change, List.nil_append, List.filter_nil]
      rw [← hitems, ← hrows]
    · refine ⟨.nil, by simp, by simpa [← hitems] using h.nodup, ?_, ?_⟩
      · intro x hx
        rw [hflag]
        exact congrArg Item.row (hold x hx)
      · rw [List.nil_append, ← hitems]
        intro i x hx
        rw [hnumber, hold x (h.old x (List.mem_of_getElem? hx)), h.realIndex i x hx]
  · obtain ⟨new, hnew⟩ : ∃ new, new = ({ m with
        item := f
        fresh := m.fresh + items.length
        gNewItemsArray := some (List.range' m.fresh items.length) } : Manager).sortNew env
          (List.range' m.fresh items.length) := ⟨_, rfl⟩
    have hperm : new.Perm (List.range' m.fresh items.length) := hnew ▸ List.perm_insertionSort ..
    have hfresh : ∀ x ∈ new, m.fresh ≤ x ∧ x < m.fresh + items.length := by
      intro x hx
      simpa using List.mem_range'_1.mp (hperm.mem_iff.mp hx)
    have hX : (A ++ [d]).length = aRQdata.realRow := by simp [hlen, hreal]
    generalize hm₁ : ({ m with
        item := f
        fresh := m.fresh + items.length
        gItemsArray := spliceIn m.gItemsArray aRQdata.realRow new
        gNewItemsArray := some new } : Manager) = m₁
    have hsplice : m₁.gItemsArray = (A ++ [d]) ++ new ++ rest := by
      rw [← hm₁]
      show spliceIn m.gItemsArray aRQdata.realRow new = _
      rw [hitems, List.append_cons]
      exact spliceIn_eq hX
    obtain ⟨hnodup, g, hupdate, hrow', hnumbered⟩ := h.numbered (X := A ++ [d]) (Y := rest)
      (by simp [hitems]) (hperm.nodup_iff.mpr List.nodup_range') (fun x hx => (hfresh x hx).1)
      hsplice (by simpa [← hm₁] using hold)
    have hview : ∀ x, (g x).row = (f x).row := fun x => (hrow' x).trans (by rw [← hm₁]; rfl)
    have hcat : (A ++ [d]) ++ new ++ rest = A ++ d :: (new ++ rest) := by simp
    rw [hsplice, hcat] at hnodup hnumbered
    refine ⟨A, rest, new, Function.update g d { g d with isContainerEmpty := new.isEmpty }, hitems,
      hrows, ?_, ?_, hfresh, hnodup, ?_, ?_⟩
    · rw [EndFtpRequest]
      simp only [if_neg hempty, Option.getD_none, List.nil_append, ← hnew, hm₁]
      rw [← hX, hupdate]
      have hspliceF : spliceIn m₁.gFilteredItemsArray aRQdata.row
          (new.filter (Manager.shown env { m₁ with item := g })) = A.filter (m.shown env) ++ d ::
            (new.filter (fun x => (g x).row.shown env m.gSiteManagerCurrentFilter) ++
              rest.filter (m.shown env)) := by
        rw [← hm₁]
        show spliceIn m.gFilteredItemsArray _ _ = _
        rw [hrows, List.append_cons, spliceIn_eq (by simp [hlenF, hrow])]
        simp only [List.append_assoc, List.singleton_append]
        rfl
      simp only [hspliceF, hparent, hget, change, hflag]
      rw [hsplice, hcat, ← hm₁, ← h.clean]
    · simp only [hflag, hview]
      refine (hperm.map _).trans (.of_eq ?_)
      rw [← hmap, List.map_map, hmap]
      rfl
    · intro x hx
      rw [hflag, hview, hold x hx]
      rfl
    · intro i x hx
      rw [hnumber, hnumbered i x hx]

/-- No row is below a row. -/
def Leaf (m : Manager) (d : Ref) : Prop :=
  ∀ A rest, m.gItemsArray = A ++ d :: rest → ∀ x ∈ rest.head?, (m.item x).level ≤ (m.item d).level

theorem Sound.leaf_of_closed (h : m.Sound env) (hclosed : ¬(m.view d).opens) : m.Leaf d := by
  intro A rest hitems x hx
  have hhang := h.hangs
  rw [hitems, List.map_append, List.map_cons] at hhang
  obtain ⟨-, hd, -, hrest⟩ := hangs_append.mp hhang
  have hlen := length_enter Row.opens hd
  rw [if_neg hclosed] at hlen
  cases rest with
  | nil => simp at hx
  | cons y rest =>
    obtain rfl : y = x := Option.some.inj hx
    have hy := hrest.1
    rw [hlen] at hy
    exact hy

/-- A directory is opened, and its listing is put below it. -/
theorem Sound.listing (h : m.Sound env) (items : List Item)
    (hd : m.gFilteredItemsArray[row]? = some d) (aRQdata : RqData) (hrow : aRQdata.row = row + 1)
    (hparent : aRQdata.parentRow = row) (hreal : aRQdata.realRow = (m.item d).realIndex + 1)
    (hcont : (m.item d).isContainer = true) (hleaf : m.Leaf d)
    (hitems : ∀ x ∈ items, x.level = (m.item d).level + 1 ∧ x.isContainerOpen = false ∧
      (m.item d).url <+: x.url) {m' : Manager}
    (hm' : m' = ((items.foldl push m).EndFtpRequest env aRQdata).change d fun x =>
      { x with isContainerOpen := true }) :
    m'.Sound env ∧ Put env m m' d (items.map Item.row) := by
  obtain ⟨A, rest, new, f, harr, hrows, heq, hperm, hfresh, hnodup, hold, hnumber⟩ :=
    h.endRequest items hd hrow hparent hreal
  have hmem : d ∈ m.gItemsArray := by simp [harr]
  have hdnew : d ∉ new := fun hin => absurd (h.old d hmem) (Nat.not_lt.mpr (hfresh d hin).1)
  obtain ⟨g, hg⟩ : ∃ g, g = opening f d true := ⟨_, rfl⟩
  have hgf : ∀ x, x ≠ d → g x = f x := fun x hx => hg ▸ opening_of_ne hx
  rw [heq, change, ← opening, ← hg] at hm'
  subst hm'
  have hshown : ∀ x, (g x).row.shown env m.gSiteManagerCurrentFilter =
      (f x).row.shown env m.gSiteManagerCurrentFilter := fun x => hg ▸ shown_opening ..
  have hreal' : ∀ x, (g x).realIndex = (f x).realIndex := fun x => hg ▸ realIndex_opening ..
  have hview : ∀ x ∈ m.gItemsArray, x ≠ d → (g x).row = m.view x := by
    intro x hx hxd
    rw [hgf x hxd, hold x (h.old x hx)]
  have hviewd : (g d).row = { m.view d with isContainerOpen := true } := by
    rw [hg, row_opening, hold d (h.old d hmem)]
  have hkept : ∀ x ∈ m.gItemsArray, (g x).row.shown env m.gSiteManagerCurrentFilter =
      m.shown env x := by
    intro x hx
    rw [hshown, hold x (h.old x hx), shown_eq]
  have hshownd : m.shown env d = true := by rw [shown, hcont, Bool.true_or]
  have hoff := List.nodup_append.mp (harr ▸ h.nodup)
  have hA : ∀ x ∈ A, x ∈ m.gItemsArray ∧ x ≠ d := by
    intro x hx
    exact ⟨by simp [harr, hx], hoff.2.2 x hx d List.mem_cons_self⟩
  have hrest : ∀ x ∈ rest, x ∈ m.gItemsArray ∧ x ≠ d := by
    intro x hx
    exact ⟨by simp [harr, hx], fun hxd => (List.nodup_cons.mp hoff.2.1).1 (hxd ▸ hx)⟩
  have hnewrow : ∀ x ∈ new, ∃ y ∈ items, (g x).row = y.row := by
    intro x hx
    have hin := hperm.mem_iff.mp (List.mem_map_of_mem hx)
    obtain ⟨y, hy, hyx⟩ := List.mem_map.mp hin
    rw [hgf x fun hxd => hdnew (hxd ▸ hx)]
    exact ⟨y, hy, hyx.symm⟩
  constructor
  · exact {
      nodup := hnodup
      old := by
        intro x hx
        show x < m.fresh + items.length
        rcases List.mem_append.mp hx with hx | hx
        · exact Nat.lt_add_right _ (h.old x (hA x hx).1)
        · rcases List.mem_cons.mp hx with rfl | hx
          · exact Nat.lt_add_right _ (h.old x hmem)
          · rcases List.mem_append.mp hx with hx | hx
            · exact (hfresh x hx).2
            · exact Nat.lt_add_right _ (h.old x (hrest x hx).1)
      realIndex := fun i x hx => (hreal' x).trans (hnumber i x hx)
      filtered := by
        show _ = (A ++ d :: (new ++ rest)).filter fun x =>
          (g x).row.shown env m.gSiteManagerCurrentFilter
        rw [List.filter_append, List.filter_cons_of_pos (by rw [hkept d hmem, hshownd]),
          List.filter_append, List.filter_congr fun x hx => hkept x (hA x hx).1,
          List.filter_congr (l := rest) fun x hx => hkept x (hrest x hx).1]
        simp only [hshown]
      hangs := by
        show Hangs Row.level Row.opens Row.owns [] ((A ++ d :: (new ++ rest)).map fun x => (g x).row)
        rw [List.map_append, List.map_cons, List.map_append,
          List.map_congr_left fun x hx => hview x (hA x hx).1 (hA x hx).2,
          List.map_congr_left (l := rest) fun x hx => hview x (hrest x hx).1 (hrest x hx).2]
        have hhang := h.hangs
        rw [harr, List.map_append, List.map_cons] at hhang
        have hbelow : ∀ x ∈ (rest.map m.view).head?, x.level ≤ (m.view d).level := by
          intro x hx
          rw [List.head?_map, Option.mem_def, Option.map_eq_some_iff] at hx
          obtain ⟨y, hy, rfl⟩ := hx
          exact hleaf A rest harr y hy
        have hlevel : (g d).row.level = (m.view d).level := by rw [hviewd]
        have hopened := hhang.cut (S := []) (by simp) hbelow hlevel
          (fun p _ hp => by rw [hviewd]; exact hp)
        refine hopened.insert (S := []) ?_ (by simp) ?_ ?_
        · rw [hviewd]
          exact ⟨hcont, rfl⟩
        · rw [hviewd]
          exact fun x hx => Nat.le_succ_of_le (hbelow x hx)
        · intro r hr
          obtain ⟨x, hx, rfl⟩ := List.mem_map.mp hr
          obtain ⟨y, hy, heqy⟩ := hnewrow x hx
          obtain ⟨hlevel, hclosed, hurl⟩ := hitems y hy
          rw [heqy, hviewd]
          refine ⟨hlevel, fun hopen => ?_, hurl⟩
          rw [Row.opens, Item.row, hclosed] at hopen
          exact absurd hopen.2 (by simp)
      clean := h.clean }
  · refine ⟨A, rest, new, harr, rfl, hrows, ?_, ?_, ?_, hview, true, hviewd⟩
    · show A.filter _ ++ d :: (new.filter _ ++ _) = A.filter _ ++ d ::
        (new.filter (fun x => (g x).row.shown env m.gSiteManagerCurrentFilter) ++ _)
      simp only [hshown]
    · show (new.map fun x => (g x).row).Perm _
      rw [List.map_congr_left fun x hx => by rw [hgf x fun hxd => hdnew (hxd ▸ hx)]]
      exact hperm
    · intro x hx hin
      exact absurd (h.old x hin) (Nat.not_lt.mpr (hfresh x hx).1)

end Manager

end Kompozer.SiteManager

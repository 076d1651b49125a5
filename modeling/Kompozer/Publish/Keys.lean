import Kompozer.Publish.Stored

/-! The names of the preferences of a site, and what is stored under them. Two sites whose names
differ in eight bits a character have no preference in common. -/

namespace Kompozer.Publish

open Prefs NsResult

/-! ### Numbers -/

theorem inflate_deflate {s : JSString} (h : ∀ c ∈ s, c.toNat < 256) : inflate (deflate s) = s := by
  induction s with
  | nil => rfl
  | cons c s ih =>
    obtain ⟨hc, hs⟩ := List.forall_mem_cons.mp h
    have hunits : units c = [UInt16.ofNat c.toNat] := if_pos (by omega)
    have hbyte : (UInt16.ofNat c.toNat).toUInt8.toNat = c.toNat := by
      rw [UInt16.toNat_toUInt8, UInt16.toNat_ofNat_of_lt' (Nat.lt_trans hc (by decide)),
        Nat.mod_eq_of_lt hc]
    show inflate (deflate ([c] ++ s)) = c :: s
    rw [deflate_append, inflate_append, ih hs, deflate, List.flatMap_singleton, hunits]
    show Char.ofNat (UInt16.ofNat c.toNat).toUInt8.toNat :: s = c :: s
    rw [hbyte, Char.ofNat_toNat]

theorem num_digit {k : ℕ} {c : Char} (hc : c ∈ num k) : 48 ≤ c.toNat ∧ c.toNat ≤ 57 := by
  have h := Nat.isDigit_of_mem_toDigits (by decide) (by decide) hc
  rw [Char.isDigit, Bool.and_eq_true, decide_eq_true_eq, decide_eq_true_eq] at h
  exact ⟨UInt32.le_iff_toNat_le.mp h.1, UInt32.le_iff_toNat_le.mp h.2⟩

theorem inflate_deflate_num (k : ℕ) : inflate (deflate (num k)) = num k := by
  apply inflate_deflate
  intro c hc
  have := num_digit hc
  omega

theorem deflate_num_injective : Function.Injective fun k => deflate (num k) := by
  intro k l h
  have hkl : num k = num l := by
    rw [← inflate_deflate_num k, ← inflate_deflate_num l]
    exact congrArg inflate h
  rw [← Nat.ofDigitChars_ten_toDigits (n := k), ← Nat.ofDigitChars_ten_toDigits (n := l)]
  exact congrArg (Nat.ofDigitChars 10 · 0) hkl

theorem deflate_num_digit {k : ℕ} {b : UInt8} (hb : b ∈ deflate (num k)) :
    48 ≤ b.toNat ∧ b.toNat ≤ 57 := by
  simp only [deflate, List.mem_map, List.mem_flatMap] at hb
  obtain ⟨u, ⟨c, hc, hu⟩, rfl⟩ := hb
  have hd := num_digit hc
  rw [units, if_pos (by omega), List.mem_singleton] at hu
  subst hu
  rw [UInt16.toNat_toUInt8, UInt16.toNat_ofNat_of_lt' (Nat.lt_of_le_of_lt hd.2 (by decide)),
    Nat.mod_eq_of_lt (Nat.lt_of_le_of_lt hd.2 (by decide))]
  exact hd

/-! ### Names behind the name of a site -/

/-- The names of single preferences of a site. -/
def fixedLeaves : List JSString :=
  [js "url", js "local_path", js "browse_url", js "browse_prefix", js "username", js "ftpPort",
    js "save_password", js "publish_other_files", js "ipv6", js "passive_mode", js "tree_sync",
    js "security", js "doc_dir", js "other_dir"]

/-- The name of a directory. -/
def dirLeaf (k : ℕ) : JSString := js "dir." ++ num k

def Leaf (leaf : JSString) : Prop := leaf ∈ fixedLeaves ∨ ∃ k, leaf = dirLeaf k

theorem fixed_no_dot : ∀ leaf ∈ fixedLeaves, 46 ∉ deflate leaf ∧ 0 ∉ deflate leaf ∧
    ∃ b ∈ deflate leaf, 57 < b.toNat := by decide

theorem deflate_dirLeaf (k : ℕ) :
    deflate (dirLeaf k) = deflate (js "dir") ++ 46 :: deflate (num k) := by
  rw [dirLeaf, deflate_append, show deflate (js "dir.") = deflate (js "dir") ++ [46] by decide,
    List.append_assoc]
  rfl

theorem num_no_dot (k : ℕ) : 46 ∉ deflate (num k) := by
  intro h
  have := deflate_num_digit h
  revert this
  decide

theorem num_no_zero (k : ℕ) : 0 ∉ deflate (num k) := by
  intro h
  have := deflate_num_digit h
  revert this
  decide

theorem Leaf.no_zero {leaf : JSString} (h : Leaf leaf) : 0 ∉ deflate leaf := by
  rcases h with h | ⟨k, rfl⟩
  · exact (fixed_no_dot leaf h).2.1
  · rw [deflate_dirLeaf, List.mem_append, List.mem_cons]
    rintro (h | h | h)
    · revert h
      decide
    · revert h
      decide
    · exact num_no_zero k h

/-- A string is cut at its first dot in one way. -/
theorem cut_first {x y a b : CString} (hx : 46 ∉ x) (hy : 46 ∉ y)
    (h : x ++ 46 :: a = y ++ 46 :: b) : x = y ∧ a = b := by
  induction x generalizing y with
  | nil =>
    cases y with
    | nil => exact ⟨rfl, List.tail_eq_of_cons_eq h⟩
    | cons c y =>
      rw [List.nil_append, List.cons_append, List.cons.injEq] at h
      exact absurd (h.1 ▸ List.mem_cons_self) hy
  | cons c x ih =>
    cases y with
    | nil =>
      rw [List.nil_append, List.cons_append, List.cons.injEq] at h
      exact absurd (h.1 ▸ List.mem_cons_self) hx
    | cons d y =>
      rw [List.cons_append, List.cons_append, List.cons.injEq] at h
      rw [List.mem_cons, not_or] at hx hy
      obtain ⟨rfl, hab⟩ := ih hx.2 hy.2 h.2
      exact ⟨by rw [h.1], hab⟩

/-- A string is cut at its last dot in one way. -/
theorem cut_last {a b x y : CString} (hx : 46 ∉ x) (hy : 46 ∉ y)
    (h : a ++ 46 :: x = b ++ 46 :: y) : a = b ∧ x = y := by
  have hrev := congrArg List.reverse h
  simp only [List.reverse_append, List.reverse_cons, List.append_assoc, List.cons_append,
    List.nil_append] at hrev
  obtain ⟨hxy, hab⟩ := cut_first (by simpa using hx) (by simpa using hy) hrev
  exact ⟨List.reverse_injective hab, List.reverse_injective hxy⟩

/-- A name of a site and a name behind it can be told from both together. -/
theorem leaf_inj {a b : CString} {l m : JSString} (hl : Leaf l) (hm : Leaf m)
    (h : a ++ 46 :: deflate l = b ++ 46 :: deflate m) : a = b ∧ deflate l = deflate m := by
  rcases hl with hl | ⟨k, rfl⟩ <;> rcases hm with hm | ⟨j, rfl⟩
  · exact cut_last (fixed_no_dot l hl).1 (fixed_no_dot m hm).1 h
  · exfalso
    rw [deflate_dirLeaf, ← List.cons_append, ← List.append_assoc] at h
    obtain ⟨-, heq⟩ := cut_last (fixed_no_dot l hl).1 (num_no_dot j) h
    obtain ⟨-, -, x, hx, hlt⟩ := fixed_no_dot l hl
    rw [heq] at hx
    exact Nat.not_lt_of_le (deflate_num_digit hx).2 hlt
  · exfalso
    rw [deflate_dirLeaf, ← List.cons_append, ← List.append_assoc] at h
    obtain ⟨-, heq⟩ := cut_last (num_no_dot k) (fixed_no_dot m hm).1 h
    obtain ⟨-, -, x, hx, hlt⟩ := fixed_no_dot m hm
    rw [← heq] at hx
    exact Nat.not_lt_of_le (deflate_num_digit hx).2 hlt
  · rw [deflate_dirLeaf, deflate_dirLeaf, ← List.cons_append, ← List.append_assoc,
      ← List.cons_append, ← List.append_assoc] at h
    obtain ⟨hab, hkj⟩ := cut_last (num_no_dot k) (num_no_dot j) h
    rw [deflate_dirLeaf, deflate_dirLeaf, hkj]
    exact ⟨List.append_cancel_right hab, rfl⟩

/-! ### Names of preferences -/

/-- What is in front of the names of the sites, where their data are. -/
def dataRoot : CString := mPrefRoot ++ deflate (js "site_data.")

/-- What is in front of the numbers of the sites, where their names are. -/
def nameRoot : CString := mPrefRoot ++ deflate (js "site_name.")

def siteKey (siteName leaf : JSString) : CString :=
  dataRoot ++ (deflate siteName ++ 46 :: deflate leaf)

def nameKey (i : ℕ) : CString := nameRoot ++ deflate (num i)

/-- A name without a zero byte when it is cut to bytes. -/
def Name (siteName : JSString) : Prop := siteName ≠ [] ∧ 0 ∉ deflate siteName

theorem getPrefName_eq {name : JSString} (h : 0 ∉ deflate name) :
    getPrefName name = mPrefRoot ++ deflate name := by
  rw [getPrefName, terminated_eq h]

theorem prefix_no_zero {siteName : JSString} (h : Name siteName) :
    0 ∉ deflate (js "site_data." ++ siteName ++ js ".") := by
  rw [deflate_append, deflate_append, List.mem_append, List.mem_append]
  rintro ((h' | h') | h')
  · revert h'
    decide
  · exact h.2 h'
  · revert h'
    decide

theorem getPrefName_eq_append {siteName x : JSString} (h : Name siteName) (hx : 0 ∉ deflate x) :
    getPrefName (js "site_data." ++ siteName ++ js "." ++ x) = siteKey siteName x := by
  rw [getPrefName_eq]
  · simp only [deflate_append, List.append_assoc, siteKey, dataRoot]
    rfl
  · rw [deflate_append, List.mem_append]
    exact fun h' => h'.elim (prefix_no_zero h) hx

theorem getPrefName_leaf {siteName leaf : JSString} (h : Name siteName) (hleaf : Leaf leaf) :
    getPrefName (js "site_data." ++ siteName ++ js "." ++ leaf) = siteKey siteName leaf :=
  getPrefName_eq_append h hleaf.no_zero

theorem getPrefName_num (i : ℕ) : getPrefName (js "site_name." ++ num i) = nameKey i := by
  rw [getPrefName_eq]
  · rw [deflate_append, nameKey, nameRoot, List.append_assoc]
  · rw [deflate_append, List.mem_append]
    rintro (h | h)
    · revert h
      decide
    · exact num_no_zero i h

theorem nameKey_injective : Function.Injective nameKey := fun _ _ h =>
  deflate_num_injective (List.append_cancel_left h)

/-- Names of sites and names of data are apart. -/
theorem roots_apart (x y : CString) : nameRoot ++ x ≠ dataRoot ++ y := by
  intro h
  have hroot := List.append_inj_left h (by decide)
  revert hroot
  decide

theorem siteKey_inj {s s' l l' : JSString} (hl : Leaf l) (hl' : Leaf l')
    (h : siteKey s l = siteKey s' l') : deflate s = deflate s' ∧ deflate l = deflate l' :=
  leaf_inj hl hl' (List.append_cancel_left h)

end Kompozer.Publish

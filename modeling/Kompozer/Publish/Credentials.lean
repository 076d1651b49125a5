import Kompozer.Lib.Cuts
import Kompozer.Publish.PublishPrefs

/-! Taking the user and the password out of an address (`editorUtilities.js`). The user name and
the characters around it are looked for in the whole text, so that they may be found in another
place. -/

namespace Kompozer.Publish

open Lib (cut)

/-- A URI with its text, and with the user and the password in one. -/
structure NsIURI extends URI where
  spec : JSString
  userPass : JSString

/-- The last index up to `start` where a text occurs. -/
def lastIndexOf (s t : JSString) (start : ℕ) : Option ℕ :=
  (List.range (start + 1)).reverse.find? fun i => t.isPrefixOf (s.drop i)

variable (io : IOService)

/-- The address without the password, and the password. -/
def StripPassword (urlspec : JSString) : JSString × JSString :=
  let urlspec := TrimString urlspec
  if urlspec = [] ∨ IsUrlAboutBlank urlspec then (urlspec, [])
  else match indexOf urlspec (js "@") with
    | none => (urlspec, [])
    | some atIndex =>
      if atIndex = 0 then (urlspec, [])
      else match io.newURI urlspec with
        | none => (urlspec, [])
        | some uri =>
          if uri.password = [] then (urlspec, uri.password)
          else match lastIndexOf urlspec (js ":") atIndex with
            | none => (urlspec, uri.password)
            | some colon => (urlspec.take colon ++ urlspec.drop atIndex, uri.password)

/-- Nothing of the user is left in the text of a URI. -/
def StripUsernamePasswordFromURI (uri : Option NsIURI) : JSString :=
  match uri with
  | none => []
  | some uri =>
    if uri.userPass = [] then uri.spec
    else match indexOf uri.spec uri.userPass with
      | none => uri.spec.dropLast ++ uri.spec.drop uri.userPass.length
      | some start => uri.spec.take start ++ uri.spec.drop (start + uri.userPass.length + 1)

/-! ### Addresses -/

/-- An address with a user. -/
structure Address where
  scheme : JSString
  user : JSString
  password : Option JSString
  rest : JSString

/-- The text in front of the user. -/
def Address.front (a : Address) : JSString := a.scheme ++ js "://"

def Address.userInfo (a : Address) : JSString := a.user ++ a.password.elim [] (':' :: ·)

def Address.spec (a : Address) : JSString := a.front ++ a.userInfo ++ '@' :: a.rest

/-- There is a scheme, and no white space around the address. -/
structure Address.Valid (a : Address) : Prop where
  scheme : a.scheme ≠ [] ∧ '@' ∉ a.scheme
  trimmed : TrimString a.spec = a.spec

/-! ### Searches -/

theorem indexOf_eq_some_iff {s t : JSString} {i : ℕ} :
    indexOf s t = some i ↔ t <+: s.drop i ∧ i ≤ s.length ∧ ∀ j < i, ¬ t <+: s.drop j := by
  rw [indexOf, List.find?_range_eq_some]
  simp [← List.isPrefixOf_iff_prefix]

/-- What occurs is found, there or before. -/
theorem exists_indexOf {s t : JSString} {k : ℕ} (h : t <+: s.drop k) (hk : k ≤ s.length) :
    ∃ i ≤ k, indexOf s t = some i := by
  classical
  have hex : ∃ i, t <+: s.drop i := ⟨k, h⟩
  have hle := Nat.find_min' hex h
  exact ⟨Nat.find hex, hle,
    indexOf_eq_some_iff.mpr ⟨Nat.find_spec hex, hle.trans hk, fun j hj => Nat.find_min hex hj⟩⟩

theorem singleton_prefix_drop {s : JSString} {c : Char} {i : ℕ} :
    [c] <+: s.drop i ↔ s[i]? = some c := by
  rw [← List.head?_drop]
  cases s.drop i with
  | nil => simp
  | cons d t => simp [eq_comm]

theorem find?_reverse_range_eq_some {p : ℕ → Bool} {n i : ℕ} :
    (List.range n).reverse.find? p = some i ↔
      i < n ∧ p i = true ∧ ∀ j < n, i < j → p j = false := by
  induction n with
  | zero => simp
  | succ n ih =>
    rw [List.range_succ, List.reverse_append, List.reverse_singleton, List.singleton_append]
    by_cases hn : p n = true
    · rw [List.find?_cons_of_pos hn, Option.some_inj]
      constructor
      · rintro rfl
        exact ⟨by omega, hn, fun j hj hlt => by omega⟩
      · rintro ⟨hi, -, hlast⟩
        by_contra hne
        rw [hlast n (by omega) (by omega)] at hn
        cases hn
    · rw [List.find?_cons_of_neg hn, ih]
      constructor
      · rintro ⟨hi, hp, hlast⟩
        refine ⟨by omega, hp, fun j hj hlt => ?_⟩
        rcases Nat.lt_succ_iff_lt_or_eq.mp hj with hj | rfl
        · exact hlast j hj hlt
        · simpa using hn
      · rintro ⟨hi, hp, hlast⟩
        refine ⟨?_, hp, fun j hj hlt => hlast j (by omega) hlt⟩
        rcases Nat.lt_succ_iff_lt_or_eq.mp hi with hi | rfl
        · exact hi
        · exact absurd hp hn

theorem lastIndexOf_eq_some_iff {s : JSString} {c : Char} {start i : ℕ} :
    lastIndexOf s [c] start = some i ↔
      i ≤ start ∧ s[i]? = some c ∧ ∀ j ≤ start, i < j → s[j]? ≠ some c := by
  rw [lastIndexOf, find?_reverse_range_eq_some]
  simp [← singleton_prefix_drop, ← List.isPrefixOf_iff_prefix]

/-- A character that occurs is found, there or behind it. -/
theorem exists_lastIndexOf {s : JSString} {c : Char} {start k : ℕ} (h : s[k]? = some c)
    (hk : k ≤ start) : ∃ i, k ≤ i ∧ lastIndexOf s [c] start = some i := by
  cases hi : lastIndexOf s [c] start with
  | none =>
    have hall := List.find?_eq_none.mp hi k (by simp; omega)
    rw [List.isPrefixOf_iff_prefix, singleton_prefix_drop] at hall
    exact absurd h hall
  | some i =>
    refine ⟨i, ?_, rfl⟩
    obtain ⟨-, -, hlast⟩ := lastIndexOf_eq_some_iff.mp hi
    by_contra hlt
    exact hlast k hk (by omega) h

namespace Address

variable (a : Address)

/-- The place of the `@`. -/
def atPlace : ℕ := a.front.length + a.userInfo.length

theorem spec_atPlace : a.spec[a.atPlace]? = some '@' := by
  rw [spec, atPlace, ← List.length_append, List.getElem?_append_right (le_refl _), Nat.sub_self]
  rfl

theorem atPlace_lt : a.atPlace < a.spec.length := by
  rw [spec, atPlace, List.length_append, List.length_append, List.length_cons]
  omega

theorem spec_front {i : ℕ} (hi : i < a.atPlace) : a.spec[i]? = (a.front ++ a.userInfo)[i]? := by
  rw [spec, List.getElem?_append_left]
  rwa [List.length_append]

theorem front_length : a.front.length = a.scheme.length + 3 := by
  rw [front, List.length_append]
  rfl

/-- The last character before the user. -/
theorem spec_slash : a.spec[a.front.length - 1]? = some '/' := by
  rw [a.spec_front (by rw [atPlace, a.front_length]; omega), front_length, front,
    List.append_assoc, List.getElem?_append_right (by omega),
    show a.scheme.length + 3 - 1 - a.scheme.length = 2 by omega]
  rfl

/-- The address without the user is what the cut leaves. -/
theorem cut_userInfo : cut a.spec a.front.length (a.atPlace + 1) = a.front ++ a.rest := by
  have hspec : a.spec = a.front ++ (a.userInfo ++ ['@']) ++ a.rest := by simp [spec]
  have hlength : a.atPlace + 1 = a.front.length + (a.userInfo ++ ['@']).length := by
    simp [atPlace, Nat.add_assoc]
  rw [hspec, hlength, Lib.cut_append]

theorem spec_ne : a.spec ≠ a.front ++ a.rest := by
  intro h
  have hlength := congrArg List.length h
  simp only [spec, List.length_append, List.length_cons] at hlength
  omega

variable {a}

theorem Valid.at_not_front (h : a.Valid) : '@' ∉ a.front := by
  rw [front, List.mem_append, not_or]
  exact ⟨h.scheme.2, by decide⟩

/-- The first `@` may come before the one that ends the user. -/
theorem Valid.atIndex (h : a.Valid) : ∃ i, indexOf a.spec (js "@") = some i ∧
    a.front.length ≤ i ∧ i ≤ a.atPlace ∧ a.spec[i]? = some '@' ∧
      (i = a.atPlace ↔ '@' ∉ a.userInfo) := by
  obtain ⟨i, hle, hi⟩ := exists_indexOf (singleton_prefix_drop.mpr a.spec_atPlace) a.atPlace_lt.le
  obtain ⟨hat, -, hfirst⟩ := indexOf_eq_some_iff.mp hi
  have hat := singleton_prefix_drop.mp hat
  refine ⟨i, hi, ?_, hle, hat, ?_⟩
  · by_contra hlt
    rw [a.spec_front (by rw [atPlace]; omega), List.getElem?_append_left (by omega)] at hat
    exact h.at_not_front (List.mem_of_getElem? hat)
  · constructor
    · rintro rfl hmem
      obtain ⟨j, hj⟩ := List.mem_iff_getElem?.mp hmem
      have hjlt := (List.getElem?_eq_some_iff.mp hj).1
      have hlt : a.front.length + j < a.atPlace := by rw [atPlace]; omega
      refine hfirst _ hlt (singleton_prefix_drop.mpr ?_)
      rw [a.spec_front hlt, List.getElem?_append_right (by omega), Nat.add_sub_cancel_left, hj]
    · intro hnot
      by_contra hne
      rw [a.spec_front (by omega)] at hat
      rcases List.mem_append.mp (List.mem_of_getElem? hat) with hmem | hmem
      · exact h.at_not_front hmem
      · exact hnot hmem

end Address

/-! ### The user -/

/-- The user name is found behind the scheme, and no `@` before the one that ends the user. -/
structure FindsUser (a : Address) : Prop where
  plain : IsUrlAboutBlank a.spec = false
  atSign : '@' ∉ a.userInfo
  name : ∃ uri, io.newURI a.spec = some uri ∧ uri.username ≠ [] ∧
    indexOf a.spec uri.username = some a.front.length

variable {io}

/-- The text is left as it is, or cut from the user name to the first `@`. -/
theorem StripUsernamePassword_cases {a : Address} (h : a.Valid) {i : ℕ}
    (hi : indexOf a.spec (js "@") = some i) :
    (StripUsernamePassword io a.spec).1 = a.spec ∨
      ∃ uri start, IsUrlAboutBlank a.spec = false ∧ io.newURI a.spec = some uri ∧
        uri.username ≠ [] ∧ indexOf a.spec uri.username = some start ∧
        (StripUsernamePassword io a.spec).1 = cut a.spec start (i + 1) := by
  rw [StripUsernamePassword, h.trimmed, hi]
  dsimp only
  split_ifs with hplain hzero
  · exact .inl rfl
  · exact .inl rfl
  · cases io.newURI a.spec with
    | none => exact .inl rfl
    | some uri =>
      dsimp only
      split_ifs with hname
      · exact .inl rfl
      · cases hstart : indexOf a.spec uri.username with
        | none => exact .inl rfl
        | some start =>
          refine .inr ⟨uri, start, ?_, rfl, hname, hstart, rfl⟩
          simpa using fun h => hplain (.inr h)

theorem StripUsernamePassword_exact {a : Address} (h : a.Valid) :
    (StripUsernamePassword io a.spec).1 = a.front ++ a.rest ↔ FindsUser io a := by
  obtain ⟨i, hi, hfront, hle, hat, hplace⟩ := h.atIndex
  have hend := a.atPlace_lt
  constructor
  · intro hexact
    rcases StripUsernamePassword_cases h hi with
      hkeep | ⟨uri, start, hplain, huri, hname, hstart, hcut⟩
    · exact absurd (hkeep.symm.trans hexact) a.spec_ne
    · rw [hexact, ← a.cut_userInfo] at hcut
      have hbound := (indexOf_eq_some_iff.mp hstart).2.1
      have hsame : i = a.atPlace := by
        by_contra hne
        have hlast := Lib.cut_last hcut.symm (by omega) (by omega) hbound (by omega)
        rw [a.spec_slash, Nat.add_sub_cancel, a.spec_atPlace] at hlast
        cases hlast
      have hshift := Lib.cut_shift hcut.symm (by omega) (by omega) hbound (by omega)
      refine ⟨hplain, hplace.mp hsame, uri, huri, hname, ?_⟩
      rw [hstart]
      congr 1
      omega
  · rintro ⟨hplain, hatSign, uri, huri, hname, hstart⟩
    have hne : a.spec ≠ [] := List.ne_nil_of_length_pos (by omega)
    have hpos : i ≠ 0 := by rw [a.front_length] at hfront; omega
    rw [StripUsernamePassword, h.trimmed, if_neg (by simp [hne, hplain]), hi]
    dsimp only
    rw [if_neg hpos, huri]
    dsimp only
    rw [if_neg hname, hstart, hplace.mpr hatSign]
    exact a.cut_userInfo

/-! ### The password -/

namespace Address

variable (a : Address)

/-- The address with the user but without the password. -/
def withoutPassword : JSString := a.front ++ a.user ++ '@' :: a.rest

theorem spec_colon : a.spec[a.scheme.length]? = some ':' := by
  rw [a.spec_front (by rw [atPlace, a.front_length]; omega), front, List.append_assoc,
    List.getElem?_append_right (le_refl _), Nat.sub_self]
  rfl

variable {a}

theorem spec_of_none (h : a.password = none) : a.spec = a.withoutPassword := by
  rw [spec, userInfo, h, withoutPassword, Option.elim_none, List.append_nil]

theorem userInfo_of_some {password : JSString} (h : a.password = some password) :
    a.userInfo = a.user ++ ':' :: password := by
  rw [userInfo, h, Option.elim_some]

/-- What the cut from the `:` of the password to the `@` leaves. -/
theorem cut_password {password : JSString} (h : a.password = some password) :
    cut a.spec (a.front ++ a.user).length a.atPlace = a.withoutPassword := by
  have hspec : a.spec = a.front ++ a.user ++ (':' :: password) ++ '@' :: a.rest := by
    simp [spec, userInfo_of_some h]
  have hlength : a.atPlace = (a.front ++ a.user).length + (':' :: password).length := by
    simp [atPlace, userInfo_of_some h, Nat.add_assoc]
  rw [hspec, hlength, Lib.cut_append, withoutPassword]

/-- What stands behind the user. -/
theorem spec_password {password : JSString} (h : a.password = some password) {j : ℕ}
    (hj : j ≤ password.length) :
    a.spec[(a.front ++ a.user).length + j]? = (':' :: password)[j]? := by
  rw [a.spec_front (by simp [atPlace, userInfo_of_some h]; omega), userInfo_of_some h,
    ← List.append_assoc, List.getElem?_append_right (by omega), Nat.add_sub_cancel_left]

end Address

variable (io) in
/-- A password is found, with no `@` in front of the one that ends it and no `:` in it. Where there
is none, none is found. -/
def FindsPassword (a : Address) : Prop :=
  match a.password with
  | none => IsUrlAboutBlank a.spec = false → ∀ uri ∈ io.newURI a.spec, uri.password = []
  | some password => IsUrlAboutBlank a.spec = false ∧ '@' ∉ a.userInfo ∧ ':' ∉ password ∧
      ∃ uri, io.newURI a.spec = some uri ∧ uri.password ≠ []

/-- The text is left as it is, or cut from the last `:` to the first `@`. -/
theorem StripPassword_cases {a : Address} (h : a.Valid) {i : ℕ}
    (hi : indexOf a.spec (js "@") = some i) (hfront : a.front.length ≤ i) :
    (StripPassword io a.spec).1 = a.spec ∧
        (IsUrlAboutBlank a.spec = false → ∀ uri ∈ io.newURI a.spec, uri.password = []) ∨
      ∃ uri colon, IsUrlAboutBlank a.spec = false ∧ io.newURI a.spec = some uri ∧
        uri.password ≠ [] ∧ lastIndexOf a.spec (js ":") i = some colon ∧
        (StripPassword io a.spec).1 = cut a.spec colon i := by
  have hne : a.spec ≠ [] :=
    List.ne_nil_of_length_pos ((Nat.zero_le _).trans_lt a.atPlace_lt)
  have hlength := a.front_length
  rw [StripPassword, h.trimmed, hi]
  dsimp only
  cases hplain : IsUrlAboutBlank a.spec with
  | true =>
    rw [if_pos (.inr rfl)]
    exact .inl ⟨rfl, fun h => by cases h⟩
  | false =>
    rw [if_neg (by simp [hne]), if_neg (by omega)]
    cases io.newURI a.spec with
    | none => exact .inl ⟨rfl, fun _ uri huri => by cases huri⟩
    | some uri =>
      dsimp only
      split_ifs with hpassword
      · refine .inl ⟨rfl, fun _ uri' huri => ?_⟩
        cases huri
        exact hpassword
      · obtain ⟨colon, -, hcolon⟩ :=
          exists_lastIndexOf a.spec_colon (show a.scheme.length ≤ i by omega)
        have hfound : lastIndexOf a.spec (js ":") i = some colon := hcolon
        rw [hfound]
        exact .inr ⟨uri, colon, rfl, rfl, hpassword, rfl, rfl⟩

theorem StripPassword_exact {a : Address} (h : a.Valid) :
    (StripPassword io a.spec).1 = a.withoutPassword ↔ FindsPassword io a := by
  obtain ⟨i, hi, hfront, hle, hat, hplace⟩ := h.atIndex
  have hend := a.atPlace_lt
  have hcases := @StripPassword_cases io a h i hi hfront
  rw [FindsPassword]
  cases hpassword : a.password with
  | none =>
    rw [← Address.spec_of_none hpassword]
    dsimp only
    rcases hcases with ⟨hkeep, hnone⟩ | ⟨uri, colon, hplain, huri, hfound, hcolon, hcut⟩
    · exact iff_of_true hkeep hnone
    · refine iff_of_false (fun hsame => ?_) fun hnone => hfound (hnone hplain uri huri)
      obtain ⟨hbefore, hchar, -⟩ := (lastIndexOf_eq_some_iff (c := ':')).mp hcolon
      have hlength := congrArg List.length (hcut.symm.trans hsame)
      rw [Lib.length_cut (by omega)] at hlength
      obtain rfl : colon = i := by omega
      rw [hat] at hchar
      cases hchar
  | some password =>
    dsimp only
    rw [← Address.cut_password hpassword]
    have hcolonPlace : (a.front ++ a.user).length + (password.length + 1) = a.atPlace := by
      simp [Address.atPlace, Address.userInfo_of_some hpassword, Nat.add_assoc]
    rcases hcases with ⟨hkeep, hnone⟩ | ⟨uri, colon, hplain, huri, hfound, hcolon, hcut⟩
    · refine iff_of_false (fun hexact => ?_) fun hfinds => ?_
      · have hlength := congrArg List.length (hkeep.symm.trans hexact)
        rw [Lib.length_cut (by omega)] at hlength
        omega
      · obtain ⟨hplain, -, -, uri, huri, hfound⟩ := hfinds
        exact hfound (hnone hplain uri huri)
    · obtain ⟨hbefore, hchar, hlast⟩ := (lastIndexOf_eq_some_iff (c := ':')).mp hcolon
      rw [hcut]
      constructor
      · intro hexact
        have hsame : i = a.atPlace := by
          by_contra hne
          have hhead := Lib.cut_head hexact (by omega) hend.le (by omega) (by omega)
          rw [hat, hchar] at hhead
          cases hhead
        have hshift := Lib.cut_shift hexact hle hend.le (by omega) (by omega)
        refine ⟨hplain, hplace.mp hsame, fun hmem => ?_, uri, huri, hfound⟩
        obtain ⟨j, hj⟩ := List.mem_iff_getElem?.mp hmem
        have hjlt := (List.getElem?_eq_some_iff.mp hj).1
        refine hlast ((a.front ++ a.user).length + (j + 1)) (by omega) (by omega) ?_
        rw [Address.spec_password hpassword (by omega), List.getElem?_cons_succ, hj]
      · rintro ⟨-, hatSign, hnot, -⟩
        obtain rfl := hplace.mpr hatSign
        have hplaced : lastIndexOf a.spec (js ":") a.atPlace =
            some (a.front ++ a.user).length := by
          refine lastIndexOf_eq_some_iff.mpr ⟨by omega, ?_, fun j hj hlt hcolon' => ?_⟩
          · exact Address.spec_password hpassword (Nat.zero_le _)
          · rcases Nat.lt_or_eq_of_le hj with hj | rfl
            · obtain ⟨k, rfl⟩ := Nat.exists_eq_add_of_lt hlt
              rw [Nat.add_assoc, Address.spec_password hpassword (by omega),
                List.getElem?_cons_succ] at hcolon'
              exact hnot (List.mem_of_getElem? hcolon')
            · rw [hat] at hcolon'
              cases hcolon'
        rw [hplaced] at hcolon
        cases hcolon
        rfl

/-! ### The URI object -/

/-- The user and the password are in the text of a URI, in front of the `@`. -/
structure Address.Of (a : Address) (uri : NsIURI) : Prop where
  spec : uri.spec = a.spec
  userPass : uri.userPass = a.userInfo

/-- The first place of the user and the password in the text is the one behind the scheme. -/
def FindsUserInfo (a : Address) : Prop :=
  a.userInfo ≠ [] ∧ indexOf a.spec a.userInfo = some a.front.length

theorem StripUsernamePasswordFromURI_exact {a : Address} {uri : NsIURI} (h : a.Of uri) :
    StripUsernamePasswordFromURI (some uri) = a.front ++ a.rest ↔ FindsUserInfo a := by
  have hend := a.atPlace_lt
  rw [StripUsernamePasswordFromURI, h.spec, h.userPass, FindsUserInfo]
  split_ifs with hempty
  · exact iff_of_false a.spec_ne fun hfinds => hfinds.1 hempty
  · have hprefix : a.userInfo <+: a.spec.drop a.front.length := by
      rw [Address.spec, List.append_assoc, List.drop_left]
      exact List.prefix_append _ _
    have hplace : a.front.length + a.userInfo.length = a.atPlace := rfl
    obtain ⟨start, hle, hstart⟩ := exists_indexOf hprefix (by omega)
    rw [hstart, ← a.cut_userInfo]
    dsimp only
    constructor
    · intro hexact
      refine ⟨hempty, congrArg some ?_⟩
      by_contra hne
      have hlast := Lib.cut_last (show cut _ _ _ = _ from hexact) (by omega) (by omega)
        (by omega) (by omega)
      rw [a.spec_slash, Nat.add_sub_cancel, a.spec_atPlace] at hlast
      cases hlast
    · rintro ⟨-, hfound⟩
      obtain rfl := Option.some.inj hfound
      rfl

/-- The user and the password are taken out of an address exactly if they are found where they
are. -/
theorem strip_exact (io : IOService) {a : Address} (h : a.Valid) {uri : NsIURI} (huri : a.Of uri) :
    ((StripUsernamePassword io a.spec).1 = a.front ++ a.rest ↔ FindsUser io a) ∧
      ((StripPassword io a.spec).1 = a.withoutPassword ↔ FindsPassword io a) ∧
      (StripUsernamePasswordFromURI (some uri) = a.front ++ a.rest ↔ FindsUserInfo a) :=
  ⟨StripUsernamePassword_exact h, StripPassword_exact h, StripUsernamePasswordFromURI_exact huri⟩

/-- The URI of an address in which nothing is escaped. -/
def Address.uri (a : Address) : NsIURI where
  username := a.user
  password := a.password.getD []
  host := a.rest.takeWhile (· ≠ '/')
  spec := a.spec
  userPass := a.userInfo

/-- A network service that knows one address. -/
def Address.service (a : Address) : IOService where
  newURI s := if s = a.spec then some a.uri.toURI else none
  extractScheme s := if s = a.spec then some a.scheme else none

theorem Address.service_newURI (a : Address) : a.service.newURI a.spec = some a.uri.toURI :=
  if_pos rfl

def joe : Address := ⟨js "http", js "joe", some (js "pw"), js "host/"⟩

theorem strip_exact_joe :
    (StripUsernamePassword joe.service joe.spec).1 = js "http://host/" ∧
      (StripPassword joe.service joe.spec).1 = js "http://joe@host/" ∧
      StripUsernamePasswordFromURI (some joe.uri) = js "http://host/" := by
  have hvalid : joe.Valid := ⟨by decide +kernel, by decide +kernel⟩
  have huri : joe.Of joe.uri := ⟨rfl, rfl⟩
  obtain ⟨huser, hpassword, hboth⟩ := strip_exact joe.service hvalid huri
  refine ⟨huser.mpr ⟨by decide +kernel, by decide +kernel, ?_⟩,
    hpassword.mpr ⟨by decide +kernel, by decide +kernel, by decide +kernel, ?_⟩,
    hboth.mpr ⟨by decide +kernel, by decide +kernel⟩⟩
  · exact ⟨_, joe.service_newURI, by decide +kernel, by decide +kernel⟩
  · exact ⟨_, joe.service_newURI, by decide +kernel⟩

/-- The user `t` is found in the scheme. -/
def tee : Address := ⟨js "http", js "t", some (js "pw"), js "host/"⟩

theorem StripUsernamePassword_cuts_scheme :
    tee.Valid ∧ tee.spec = js "http://t:pw@host/" ∧
      (StripUsernamePassword tee.service tee.spec).1 = js "hhost/" ∧
      (StripUsernamePassword tee.service tee.spec).1 ≠ tee.front ++ tee.rest :=
  ⟨⟨by decide +kernel, by decide +kernel⟩, by decide +kernel, by decide +kernel, by decide +kernel⟩

end Kompozer.Publish

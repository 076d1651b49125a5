import Kompozer.Lib.Circle
import Kompozer.Xpcom

/-! The bindings of the disk cache (`nsDiskCacheBinding.cpp`): those whose records have one hash
number are linked in a circle in the order of their generations. -/

namespace Kompozer.Cache

open NsResult

/-- The bindings with what of them changes, and the table of the first ones of each hash number. -/
structure nsDiskCacheBindery where
  links : Links ℕ := ⟨id, id⟩
  mGeneration : ℕ → UInt8
  table : UInt32 → Option ℕ := fun _ => none

namespace nsDiskCacheBindery

/-! ### Operations -/

section Operations

variable (HashNumber : ℕ → UInt32) (s : nsDiskCacheBindery)

def setGeneration (binding : ℕ) (generation : UInt8) : nsDiskCacheBindery :=
  { s with mGeneration := Function.update s.mGeneration binding generation }

def insertBefore (binding p : ℕ) : nsDiskCacheBindery :=
  { s with links := s.links.insertBefore binding p }

/-- The first binding of a hash number. -/
def setHead (hashNumber : UInt32) (binding : Option ℕ) : nsDiskCacheBindery :=
  { s with table := Function.update s.table hashNumber binding }

/-- The loop of `AddBinding`. It has no result if it takes more turns than there are generations. -/
def addLoop (binding : ℕ) (calcGeneration : Bool) :
    ℕ → ℕ → nsDiskCacheBindery → Option (NsResult × nsDiskCacheBindery)
  | 0, _, _ => none
  | turns + 1, p, s =>
    if s.mGeneration binding < s.mGeneration p then
      let s := s.insertBefore binding p
      some (.ok, if s.table (HashNumber binding) = some p then
        s.setHead (HashNumber binding) (some binding) else s)
    else if s.mGeneration binding = s.mGeneration p ∧ calcGeneration = false then
      some (NS_ERROR_UNEXPECTED, s)
    else
      let s := if s.mGeneration binding = s.mGeneration p then
        s.setGeneration binding (s.mGeneration binding + 1) else s
      let p := s.links.next p
      if s.table (HashNumber binding) = some p then
        if s.mGeneration (s.links.prev p) = 255 then some (NS_ERROR_UNEXPECTED, s)
        else some (.ok, s.insertBefore binding p)
      else addLoop binding calcGeneration turns p s

/-- `AddBinding`. There may be no memory for an entry of the table. -/
def AddBinding (binding : ℕ) (memory : Bool) : Option (NsResult × nsDiskCacheBindery) :=
  if memory = false then some (NS_ERROR_OUT_OF_MEMORY, s)
  else
    match s.table (HashNumber binding) with
    | none =>
      let s := s.setHead (HashNumber binding) (some binding)
      some (.ok, if s.mGeneration binding = 0 then s.setGeneration binding 1 else s)
    | some head =>
      addLoop HashNumber binding (s.mGeneration binding = 0) 255 head
        (if s.mGeneration binding = 0 then s.setGeneration binding 1 else s)

/-- `RemoveBinding`. -/
def RemoveBinding (binding : ℕ) : nsDiskCacheBindery :=
  match s.table (HashNumber binding) with
  | none => s
  | some head =>
    if binding = head then
      if s.links.next binding = binding then s.setHead (HashNumber binding) none
      else
        { s.setHead (HashNumber binding) (some (s.links.next binding)) with
          links := s.links.removeAndInit binding }
    else { s with links := s.links.removeAndInit binding }

end Operations

/-- The states that additions and removals lead to, with the bindings that were added and not
removed. -/
inductive Reached (HashNumber : ℕ → UInt32) : nsDiskCacheBindery → Finset ℕ → Prop
  | init (mGeneration : ℕ → UInt8) : Reached HashNumber { mGeneration } ∅
  | create {s active} (binding : ℕ) (generation : UInt8) (h : Reached HashNumber s active)
    (hnew : binding ∉ active) : Reached HashNumber (s.setGeneration binding generation) active
  | add {s s' active rv} (binding : ℕ) (memory : Bool) (h : Reached HashNumber s active)
    (hadd : s.AddBinding HashNumber binding memory = some (rv, s')) :
    Reached HashNumber s' (if rv = .ok then insert binding active else active)
  | remove {s active} (binding : ℕ) (h : Reached HashNumber s active) :
    Reached HashNumber (s.RemoveBinding HashNumber binding) (active.erase binding)

/-! ### Lists -/

/-- The bindings of each hash number are in a circle, in the order of their generations. -/
structure Lists (HashNumber : ℕ → UInt32) (s : nsDiskCacheBindery) (lists : UInt32 → List ℕ) :
    Prop where
  heads : ∀ h, s.table h = (lists h).head?
  homes : ∀ h, ∀ b ∈ lists h, HashNumber b = h
  circles : ∀ h, s.links.Circle (lists h)
  alone : ∀ b, b ∉ lists (HashNumber b) → s.links.next b = b ∧ s.links.prev b = b
  sorted : ∀ h, (lists h).Pairwise fun b c => s.mGeneration b < s.mGeneration c
  positive : ∀ h, ∀ b ∈ lists h, s.mGeneration b ≠ 0

variable {HashNumber : ℕ → UInt32} {s s' : nsDiskCacheBindery} {lists : UInt32 → List ℕ}
  {b c p : ℕ} {l front back : List ℕ}

namespace Lists

theorem nodup (h : Lists HashNumber s lists) (k : UInt32) : (lists k).Nodup := by
  refine (h.sorted k).imp fun hlt heq => ?_
  rw [heq] at hlt
  exact UInt8.lt_irrefl _ hlt

theorem notMem (h : Lists HashNumber s lists) (hb : b ∉ lists (HashNumber b)) (k : UInt32) :
    b ∉ lists k := by
  intro hk
  rw [h.homes k b hk] at hb
  exact hb hk

/-- The generation of a binding that is in no list does not matter. -/
theorem setGeneration (h : Lists HashNumber s lists) (hb : b ∉ lists (HashNumber b))
    (generation : UInt8) : Lists HashNumber (s.setGeneration b generation) lists := by
  have hother : ∀ k, ∀ x ∈ lists k, (s.setGeneration b generation).mGeneration x =
      s.mGeneration x := by
    intro k x hx
    refine Function.update_of_ne ?_ ..
    rintro rfl
    exact h.notMem hb k hx
  refine { h with sorted := fun k => ?_, positive := fun k x hx => ?_ }
  · refine (h.sorted k).imp_of_mem fun {x y} hx hy hlt => ?_
    rwa [hother k x hx, hother k y hy]
  · rw [hother k x hx]
    exact h.positive k x hx

/-- A binding is linked in. -/
theorem link (h : Lists HashNumber s lists) (hb : b ∉ lists (HashNumber b))
    (hp : p ∈ lists (HashNumber b)) (hlinks : s'.links = s.links.insertBefore b p)
    (hgeneration : s'.mGeneration = s.mGeneration)
    (htable : s'.table = Function.update s.table (HashNumber b) l.head?)
    (hcircle : s'.links.Circle l) (hmem : ∀ x, x ∈ l ↔ x = b ∨ x ∈ lists (HashNumber b))
    (hsorted : l.Pairwise fun x y => s.mGeneration x < s.mGeneration y)
    (hpositive : s.mGeneration b ≠ 0) :
    Lists HashNumber s' (Function.update lists (HashNumber b) l) := by
  have hframe : ∀ x, x ≠ b → x ∉ lists (HashNumber b) →
      s'.links.next x = s.links.next x ∧ s'.links.prev x = s.links.prev x := by
    intro x hxb hx
    rw [hlinks]
    exact (h.circles _).insertBefore_of_notMem hp hx hxb hb
  have hapart : ∀ k ≠ HashNumber b, ∀ x ∈ lists k, x ≠ b ∧ x ∉ lists (HashNumber b) := by
    intro k hk x hx
    refine ⟨?_, fun hx' => hk ?_⟩
    · rintro rfl
      exact hk (h.homes k x hx).symm
    · rw [← h.homes k x hx, h.homes _ x hx']
  constructor
  · intro k
    rw [htable]
    by_cases hk : k = HashNumber b
    · rw [hk, Function.update_self, Function.update_self]
    · rw [Function.update_of_ne hk, Function.update_of_ne hk, h.heads k]
  · intro k x hx
    by_cases hk : k = HashNumber b
    · rw [hk, Function.update_self, hmem] at hx
      rcases hx with rfl | hx
      · exact hk.symm
      · rw [hk, h.homes _ x hx]
    · rw [Function.update_of_ne hk] at hx
      exact h.homes k x hx
  · intro k
    by_cases hk : k = HashNumber b
    · rw [hk, Function.update_self]
      exact hcircle
    · rw [Function.update_of_ne hk]
      exact (h.circles k).congr
        (fun x hx => (hframe x (hapart k hk x hx).1 (hapart k hk x hx).2).1)
        (fun x hx => (hframe x (hapart k hk x hx).1 (hapart k hk x hx).2).2)
  · intro x hx
    by_cases hk : HashNumber x = HashNumber b
    · rw [hk, Function.update_self, hmem, not_or] at hx
      rw [(hframe x hx.1 hx.2).1, (hframe x hx.1 hx.2).2]
      rw [← hk] at hx
      exact h.alone x hx.2
    · rw [Function.update_of_ne hk] at hx
      have hxb : x ≠ b := fun heq => hk (by rw [heq])
      have hxl : x ∉ lists (HashNumber b) := fun hx' => hk (h.homes _ x hx')
      rw [(hframe x hxb hxl).1, (hframe x hxb hxl).2]
      exact h.alone x hx
  · intro k
    rw [hgeneration]
    by_cases hk : k = HashNumber b
    · rw [hk, Function.update_self]
      exact hsorted
    · rw [Function.update_of_ne hk]
      exact h.sorted k
  · intro k x hx
    rw [hgeneration]
    by_cases hk : k = HashNumber b
    · rw [hk, Function.update_self, hmem] at hx
      rcases hx with rfl | hx
      · exact hpositive
      · exact h.positive _ x hx
    · rw [Function.update_of_ne hk] at hx
      exact h.positive k x hx

/-- A binding is linked in before a member, or before the first one for the last place. -/
theorem circle_insertBefore (h : Lists HashNumber s lists) (hb : b ∉ lists (HashNumber b))
    (hl : lists (HashNumber b) = front ++ p :: back) :
    (s.links.insertBefore b p).Circle (b :: p :: (back ++ front)) := by
  have hcircle := h.circles (HashNumber b)
  have hnodup := h.nodup (HashNumber b)
  rw [hl] at hcircle hnodup hb
  have hperm : (front ++ p :: back).Perm (p :: (back ++ front)) :=
    List.perm_append_comm.trans (List.Perm.refl _)
  refine (Links.circle_rotate.mp hcircle).insertBefore (hperm.nodup_iff.mp hnodup) ?_
  rwa [← hperm.mem_iff]

end Lists

/-! ### Adding -/

/-- How an addition ends: the binding is in its place, with a generation that no other one in its
list has, or the lists are as they were and there is no generation for it. -/
structure Placed (HashNumber : ℕ → UInt32) (s s' : nsDiskCacheBindery) (lists : UInt32 → List ℕ)
    (b : ℕ) (l : List ℕ) : Prop where
  linked : Lists HashNumber s' (Function.update lists (HashNumber b) l)
  mem : ∀ x, x ∈ l ↔ x = b ∨ x ∈ lists (HashNumber b)
  others : ∀ x ≠ b, s'.mGeneration x = s.mGeneration x
  unused : ∀ x ∈ lists (HashNumber b), s.mGeneration x ≠ s'.mGeneration b

structure Refused (s s' : nsDiskCacheBindery) (b : ℕ) : Prop where
  links : s'.links = s.links
  table : s'.table = s.table
  others : ∀ x ≠ b, s'.mGeneration x = s.mGeneration x

theorem Placed.of_setGeneration {generation : UInt8} (hb : b ∉ lists (HashNumber b))
    (h : Placed HashNumber (s.setGeneration b generation) s' lists b l) :
    Placed HashNumber s s' lists b l where
  linked := h.linked
  mem := h.mem
  others x hx := (h.others x hx).trans (Function.update_of_ne hx ..)
  unused x hx := by
    have hxb : x ≠ b := fun heq => hb (heq ▸ hx)
    have hx' : Function.update s.mGeneration b generation x ≠ s'.mGeneration b := h.unused x hx
    rwa [Function.update_of_ne hxb] at hx'

theorem Refused.of_setGeneration {generation : UInt8}
    (h : Refused (s.setGeneration b generation) s' b) : Refused s s' b :=
  ⟨h.links, h.table, fun x hx => (h.others x hx).trans (Function.update_of_ne hx ..)⟩

/-- A binding with a generation behind those in front, and before that of the next one. -/
theorem Lists.placed_before (h : Lists HashNumber s lists) (hb : b ∉ lists (HashNumber b))
    (hl : lists (HashNumber b) = front ++ p :: back) (hpositive : s.mGeneration b ≠ 0)
    (hfront : ∀ x ∈ front, s.mGeneration x < s.mGeneration b)
    (hlt : s.mGeneration b < s.mGeneration p) :
    Placed HashNumber s (if (s.insertBefore b p).table (HashNumber b) = some p then
      (s.insertBefore b p).setHead (HashNumber b) (some b) else s.insertBefore b p) lists b
      (front ++ b :: p :: back) := by
  obtain ⟨s', hs'⟩ : ∃ s', s' = if (s.insertBefore b p).table (HashNumber b) = some p then
    (s.insertBefore b p).setHead (HashNumber b) (some b) else s.insertBefore b p := ⟨_, rfl⟩
  have hfields : s'.links = s.links.insertBefore b p ∧ s'.mGeneration = s.mGeneration := by
    rw [hs']
    split_ifs <;> exact ⟨rfl, rfl⟩
  have hmem : ∀ x, x ∈ front ++ b :: p :: back ↔ x = b ∨ x ∈ lists (HashNumber b) := by
    intro x
    rw [hl]
    simp only [List.mem_append, List.mem_cons]
    tauto
  have hsorted := h.sorted (HashNumber b)
  have hhead := h.heads (HashNumber b)
  have hnodup := h.nodup (HashNumber b)
  rw [hl] at hsorted hhead hnodup
  have hbehind : ∀ x ∈ p :: back, s.mGeneration b < s.mGeneration x := by
    intro x hx
    rcases List.mem_cons.mp hx with rfl | hx
    · exact hlt
    · exact UInt8.lt_trans hlt
        ((List.pairwise_cons.mp (List.pairwise_append.mp hsorted).2.1).1 x hx)
  rw [← hs']
  refine ⟨h.link hb (p := p) (by rw [hl]; simp) hfields.1 hfields.2 ?_ ?_ hmem ?_ hpositive, hmem,
    fun x _ => by rw [hfields.2], fun x hx => ?_⟩
  · rw [hs']
    cases front with
    | nil =>
      have htable : (s.insertBefore b p).table (HashNumber b) = some p := hhead
      rw [if_pos htable]
      rfl
    | cons a front =>
      have htable : (s.insertBefore b p).table (HashNumber b) ≠ some p := by
        change s.table (HashNumber b) ≠ some p
        rw [hhead]
        rintro heq
        obtain rfl : a = p := Option.some.inj heq
        exact (List.nodup_cons.mp hnodup).1 (by simp)
      rw [if_neg htable]
      change s.table = Function.update s.table (HashNumber b) (some a)
      rw [eq_comm, Function.update_eq_self_iff, hhead]
      rfl
  · rw [hfields.1, Links.circle_rotate]
    exact h.circle_insertBefore hb hl
  · rw [List.pairwise_append, List.pairwise_cons]
    obtain ⟨hsortedFront, hsortedBack, hcross⟩ := List.pairwise_append.mp hsorted
    refine ⟨hsortedFront, ⟨hbehind, hsortedBack⟩, fun x hx y hy => ?_⟩
    rcases List.mem_cons.mp hy with rfl | hy
    · exact hfront x hx
    · exact hcross x hx y hy
  · rw [hfields.2]
    rw [hl] at hx
    rcases List.mem_append.mp hx with hx | hx
    · exact UInt8.ne_of_lt (hfront x hx)
    · exact (UInt8.ne_of_lt (hbehind x hx)).symm

/-- A binding with a generation behind all. -/
theorem Lists.placed_last (h : Lists HashNumber s lists) (hb : b ∉ lists (HashNumber b))
    (hl : lists (HashNumber b) = p :: back) (hpositive : s.mGeneration b ≠ 0)
    (hlt : ∀ x ∈ p :: back, s.mGeneration x < s.mGeneration b) :
    Placed HashNumber s (s.insertBefore b p) lists b (p :: back ++ [b]) := by
  have hmem : ∀ x, x ∈ p :: back ++ [b] ↔ x = b ∨ x ∈ lists (HashNumber b) := by
    intro x
    rw [hl]
    simp only [List.mem_append, List.mem_cons, List.not_mem_nil, or_false]
    tauto
  have hhead := h.heads (HashNumber b)
  have hsorted := h.sorted (HashNumber b)
  rw [hl] at hsorted hhead
  refine ⟨h.link hb (p := p) (by rw [hl]; simp) rfl rfl ?_ ?_ hmem ?_ hpositive, hmem,
    fun x _ => rfl, fun x hx => ?_⟩
  · rw [eq_comm]
    change Function.update s.table (HashNumber b) (some p) = s.table
    rw [Function.update_eq_self_iff, hhead]
    rfl
  · have hcircle := @Lists.circle_insertBefore _ _ _ b p [] back h hb hl
    rw [List.append_nil] at hcircle
    exact Links.circle_rotate.mpr hcircle
  · rw [List.pairwise_append]
    refine ⟨hsorted, List.pairwise_singleton _ _, fun x hx y hy => ?_⟩
    rw [List.mem_singleton.mp hy]
    exact hlt x hx
  · rw [hl] at hx
    exact UInt8.ne_of_lt (hlt x hx)

/-- The end of the line: `p` is the last one again. -/
theorem Lists.prev_next (h : Lists HashNumber s lists) {k : UInt32}
    (hl : lists k = front ++ [p]) : s.table k = some (s.links.next p) ∧
      s.links.prev (s.links.next p) = p := by
  have hcircle := h.circles k
  have hhead := h.heads k
  cases front with
  | nil =>
    rw [hl, List.nil_append] at hcircle hhead
    have hlast := hcircle.follows_last
    rw [List.getLast_singleton] at hlast
    rw [hhead, hlast.1, hlast.2]
    exact ⟨rfl, rfl⟩
  | cons a front =>
    rw [hl] at hcircle hhead
    have hlast : s.links.Follows p a := by
      have hends := @Links.Circle.follows_last ℕ s.links a (front ++ [p]) hcircle
      simpa using hends
    rw [hhead, hlast.1, hlast.2]
    exact ⟨rfl, rfl⟩

/-- Behind a member that is not the last one comes another than the first one. -/
theorem Lists.next_ne_head (h : Lists HashNumber s lists) {k : UInt32} {q : ℕ}
    (hl : lists k = front ++ p :: q :: back) : s.links.next p = q ∧ s.table k ≠ some q := by
  have hcircle := h.circles k
  have hhead := h.heads k
  have hnodup := h.nodup k
  rw [hl] at hcircle hhead hnodup
  refine ⟨hcircle.follows.1, ?_⟩
  rw [hhead]
  cases front with
  | nil =>
    intro heq
    obtain rfl : p = q := Option.some.inj heq
    exact (List.nodup_cons.mp hnodup).1 List.mem_cons_self
  | cons a front =>
    intro heq
    obtain rfl : a = q := Option.some.inj heq
    exact (List.nodup_cons.mp hnodup).1 (by simp)

/-- A turn that goes on, when the generation is above that of the member. -/
theorem Lists.turn (h : Lists HashNumber s lists) (hb : b ∉ lists (HashNumber b))
    {calcGeneration : Bool} {turns : ℕ} (hl : lists (HashNumber b) = front ++ p :: back)
    (hpositive : s.mGeneration b ≠ 0)
    (hfront : ∀ x ∈ front ++ [p], s.mGeneration x < s.mGeneration b)
    {result : Option (NsResult × nsDiskCacheBindery)}
    (hresult : result = if s.table (HashNumber b) = some (s.links.next p) then
      if s.mGeneration (s.links.prev (s.links.next p)) = 255 then some (NS_ERROR_UNEXPECTED, s)
      else some (.ok, s.insertBefore b (s.links.next p))
      else addLoop HashNumber b calcGeneration turns (s.links.next p) s) :
    (∃ s' l, result = some (.ok, s') ∧ Placed HashNumber s s' lists b l ∧
        s'.mGeneration b = s.mGeneration b) ∨
      ∃ q rest, back = q :: rest ∧ result = addLoop HashNumber b calcGeneration turns q s := by
  cases back with
  | nil =>
    left
    obtain ⟨hhead, hprev⟩ := h.prev_next hl
    have hp : s.mGeneration p ≠ 255 := by
      intro heq
      have hlt := hfront p (by simp)
      rw [heq, UInt8.lt_iff_toNat_lt] at hlt
      have := (s.mGeneration b).toNat_lt
      have h255 : (255 : UInt8).toNat = 255 := rfl
      omega
    rw [if_pos hhead, hprev, if_neg hp] at hresult
    obtain ⟨a, rest, hcons⟩ := List.exists_cons_of_ne_nil (show front ++ [p] ≠ [] by simp)
    have ha : s.links.next p = a := by
      have hfirst := h.heads (HashNumber b)
      rw [hhead, hl, hcons] at hfirst
      exact Option.some.inj hfirst
    rw [hcons] at hl hfront
    rw [ha] at hresult
    exact ⟨_, _, hresult, h.placed_last hb hl hpositive hfront, rfl⟩
  | cons q rest =>
    right
    obtain ⟨hnext, hne⟩ := h.next_ne_head hl
    rw [hnext, if_neg hne] at hresult
    exact ⟨q, rest, rfl, hresult⟩

/-- The loop when the members in front have lower generations, and all lower ones if the generation
is to be found. -/
theorem addLoop_spec (h : Lists HashNumber s lists) (hb : b ∉ lists (HashNumber b))
    {calcGeneration : Bool} {turns : ℕ} (hturns : back.length < turns)
    (hl : lists (HashNumber b) = front ++ p :: back)
    (hpositive : s.mGeneration b ≠ 0) (hfront : ∀ x ∈ front, s.mGeneration x < s.mGeneration b)
    (htaken : calcGeneration = true → ∀ g, g ≠ 0 → g < s.mGeneration b →
      ∃ x ∈ front, s.mGeneration x = g) :
    ∃ rv s', addLoop HashNumber b calcGeneration turns p s = some (rv, s') ∧
      (rv = .ok ∧ (∃ l, Placed HashNumber s s' lists b l) ∧
          (calcGeneration = false → s'.mGeneration b = s.mGeneration b) ∨
        rv = NS_ERROR_UNEXPECTED ∧ Refused s s' b ∧
          (calcGeneration = true → ∀ g, g ≠ 0 → ∃ x ∈ lists (HashNumber b), s.mGeneration x = g) ∧
          (calcGeneration = false →
            ∃ x ∈ lists (HashNumber b), s.mGeneration x = s.mGeneration b)) := by
  induction turns generalizing s front p back with
  | zero => omega
  | succ turns ih =>
    rw [addLoop]
    by_cases hlt : s.mGeneration b < s.mGeneration p
    · rw [if_pos hlt]
      refine ⟨_, _, rfl, .inl ⟨rfl, ⟨_, h.placed_before hb hl hpositive hfront hlt⟩, fun _ => ?_⟩⟩
      split_ifs <;> rfl
    · rw [if_neg hlt]
      have hle : s.mGeneration p ≤ s.mGeneration b := UInt8.not_lt.mp hlt
      by_cases heq : s.mGeneration b = s.mGeneration p
      · cases calcGeneration with
        | false =>
          rw [if_pos ⟨heq, rfl⟩]
          refine ⟨_, _, rfl, .inr ⟨rfl, ⟨rfl, rfl, fun _ _ => rfl⟩, fun hc => ?_, fun _ => ?_⟩⟩
          · cases hc
          · exact ⟨p, by rw [hl]; simp, heq.symm⟩
        | true =>
          rw [if_neg (by simp), if_pos heq]
          dsimp only
          by_cases hfull : s.mGeneration p = 255
          · -- the generation goes around, and nothing is behind the member
            obtain rfl : back = [] := by
              cases back with
              | nil => rfl
              | cons q rest =>
                have hsorted := h.sorted (HashNumber b)
                rw [hl] at hsorted
                have hq := (List.pairwise_cons.mp (List.pairwise_append.mp hsorted).2.1).1 q
                  List.mem_cons_self
                rw [hfull, UInt8.lt_iff_toNat_lt] at hq
                have := (s.mGeneration q).toNat_lt
                have h255 : (255 : UInt8).toNat = 255 := rfl
                omega
            obtain ⟨hhead, hprev⟩ := h.prev_next hl
            have hat : (s.setGeneration b (s.mGeneration b + 1)).mGeneration p = 255 := by
              rw [← hfull]
              refine Function.update_of_ne ?_ ..
              rintro rfl
              exact hb (by rw [hl]; simp)
            have hlinks : (s.setGeneration b (s.mGeneration b + 1)).links = s.links := rfl
            have htable : (s.setGeneration b (s.mGeneration b + 1)).table = s.table := rfl
            rw [hlinks, htable, if_pos hhead, hprev, if_pos hat]
            refine ⟨_, _, rfl, .inr ⟨rfl, ⟨rfl, rfl, fun x hx => Function.update_of_ne hx ..⟩,
              fun _ g hg => ?_, fun hc => absurd hc (by simp)⟩⟩
            by_cases hg255 : g = 255
            · exact ⟨p, by rw [hl]; simp, by rw [hfull, hg255]⟩
            · have hlt255 : g < s.mGeneration b := by
                rw [heq, hfull, UInt8.lt_iff_toNat_lt]
                have hne : g.toNat ≠ 255 := fun hg' => hg255 (UInt8.toNat_inj.mp hg')
                have := g.toNat_lt
                have h255 : (255 : UInt8).toNat = 255 := rfl
                omega
              obtain ⟨x, hx, hgx⟩ := htaken rfl g hg hlt255
              exact ⟨x, by rw [hl]; simp [hx], hgx⟩
          · obtain ⟨s₂, hs₂⟩ : ∃ s₂, s₂ = s.setGeneration b (s.mGeneration b + 1) := ⟨_, rfl⟩
            have hself : s₂.mGeneration b = s.mGeneration b + 1 := by
              rw [hs₂]
              exact Function.update_self ..
            have hother : ∀ x ∈ lists (HashNumber b), s₂.mGeneration x = s.mGeneration x := by
              intro x hx
              rw [hs₂]
              refine Function.update_of_ne ?_ ..
              rintro rfl
              exact hb hx
            have hnat : (s.mGeneration b + 1).toNat = (s.mGeneration b).toNat + 1 := by
              have hne : (s.mGeneration b).toNat ≠ 255 := fun hg =>
                hfull (heq ▸ UInt8.toNat_inj.mp hg)
              have := (s.mGeneration b).toNat_lt
              rw [UInt8.toNat_add]
              exact Nat.mod_eq_of_lt (by change _ + 1 < 2 ^ 8; omega)
            have hpositive₂ : s₂.mGeneration b ≠ 0 := by
              rw [hself, Ne, ← UInt8.toNat_inj, hnat]
              exact Nat.succ_ne_zero _
            have hfront₂ : ∀ x ∈ front ++ [p], s₂.mGeneration x < s₂.mGeneration b := by
              intro x hx
              have hxl : x ∈ lists (HashNumber b) := by
                rw [hl]
                simp only [List.mem_append, List.mem_cons] at hx ⊢
                tauto
              rw [hself, hother x hxl, UInt8.lt_iff_toNat_lt, hnat]
              rcases List.mem_append.mp hx with hx | hx
              · have := UInt8.lt_iff_toNat_lt.mp (hfront x hx)
                omega
              · rw [List.mem_singleton.mp hx, heq]
                omega
            have hlists₂ : Lists HashNumber s₂ lists := hs₂ ▸ h.setGeneration hb _
            rw [← hs₂]
            have hturn := @Lists.turn HashNumber s₂ lists b p front back hlists₂ hb true turns hl
              hpositive₂ hfront₂ _ rfl
            rcases hturn with ⟨s', l, hrun, hplaced, -⟩ | ⟨q, rest, rfl, hrun⟩
            · rw [hs₂] at hplaced
              exact ⟨_, s', hrun, .inl ⟨rfl, ⟨l, hplaced.of_setGeneration hb⟩, by simp⟩⟩
            · rw [hrun]
              rw [List.length_cons] at hturns
              have htaken₂ : true = true → ∀ g, g ≠ 0 → g < s₂.mGeneration b →
                  ∃ x ∈ front ++ [p], s₂.mGeneration x = g := by
                intro _ g hg hgb
                rw [hself, UInt8.lt_iff_toNat_lt, hnat] at hgb
                by_cases hgp : g = s.mGeneration p
                · exact ⟨p, by simp, by rw [hother p (by rw [hl]; simp), hgp]⟩
                · have hne : g.toNat ≠ (s.mGeneration b).toNat := fun hg' =>
                    hgp ((UInt8.toNat_inj.mp hg').trans heq)
                  obtain ⟨x, hx, hgx⟩ := htaken rfl g hg (UInt8.lt_iff_toNat_lt.mpr (by omega))
                  refine ⟨x, List.mem_append_left _ hx, ?_⟩
                  rw [hother x (by rw [hl]; simp [hx]), hgx]
              obtain ⟨rv, s', hloop, hcases⟩ := @ih s₂ q (front ++ [p]) rest hlists₂ (by omega)
                (by rw [hl]; simp) hpositive₂ hfront₂ htaken₂
              refine ⟨rv, s', hloop, hcases.imp ?_ ?_⟩
              · rintro ⟨hrv, ⟨l, hplaced⟩, -⟩
                rw [hs₂] at hplaced
                exact ⟨hrv, ⟨l, hplaced.of_setGeneration hb⟩, by simp⟩
              · rintro ⟨hrv, hrefused, hfull, -⟩
                rw [hs₂] at hrefused
                refine ⟨hrv, hrefused.of_setGeneration, fun hc g hg => ?_, by simp⟩
                obtain ⟨x, hx, hgx⟩ := hfull hc g hg
                exact ⟨x, hx, by rw [← hother x hx, hgx]⟩
      · rw [if_neg fun hboth => heq hboth.1, if_neg heq]
        dsimp only
        have hltb : s.mGeneration p < s.mGeneration b :=
          UInt8.lt_of_le_of_ne hle (Ne.symm heq)
        have hfront' : ∀ x ∈ front ++ [p], s.mGeneration x < s.mGeneration b := by
          intro x hx
          rcases List.mem_append.mp hx with hx | hx
          · exact hfront x hx
          · rwa [List.mem_singleton.mp hx]
        have hturn := @Lists.turn HashNumber s lists b p front back h hb calcGeneration turns hl
          hpositive hfront' _ rfl
        rcases hturn with ⟨s', l, hrun, hplaced, hgen⟩ | ⟨q, rest, rfl, hrun⟩
        · exact ⟨_, s', hrun, .inl ⟨rfl, ⟨l, hplaced⟩, fun _ => hgen⟩⟩
        · rw [hrun]
          rw [List.length_cons] at hturns
          refine @ih s q (front ++ [p]) rest h (by omega) (by rw [hl]; simp) hpositive hfront' ?_
          intro hc g hg hgb
          obtain ⟨x, hx, hgx⟩ := htaken hc g hg hgb
          exact ⟨x, List.mem_append_left _ hx, hgx⟩

/-- A binding that is in its list already collides with itself. -/
theorem addLoop_again (h : Lists HashNumber s lists) {turns : ℕ} (hturns : back.length < turns)
    (hl : lists (HashNumber b) = front ++ p :: back) (hb : b ∈ p :: back) :
    addLoop HashNumber b false turns p s = some (NS_ERROR_UNEXPECTED, s) := by
  induction turns generalizing front p back with
  | zero => omega
  | succ turns ih =>
    have hsorted := h.sorted (HashNumber b)
    rw [hl] at hsorted
    have hbehind := (List.pairwise_cons.mp (List.pairwise_append.mp hsorted).2.1).1
    rw [addLoop]
    rcases List.mem_cons.mp hb with rfl | hb
    · rw [if_neg (UInt8.lt_irrefl _), if_pos ⟨rfl, rfl⟩]
    · have hlt := hbehind b hb
      rw [if_neg (UInt8.lt_asymm hlt), if_neg fun hboth => UInt8.ne_of_lt hlt hboth.1.symm,
        if_neg (UInt8.ne_of_lt hlt).symm]
      cases back with
      | nil => cases hb
      | cons q rest =>
        obtain ⟨hnext, hne⟩ := h.next_ne_head hl
        dsimp only
        rw [hnext, if_neg hne]
        rw [List.length_cons] at hturns
        exact @ih q (front ++ [p]) rest (by omega) (by rw [hl]; simp) hb

/-- There are no more members than generations. -/
theorem Lists.length_le (h : Lists HashNumber s lists) (k : UInt32) : (lists k).length ≤ 255 := by
  have hnodup : ((lists k).map fun x => (s.mGeneration x).toNat).Nodup := by
    rw [List.Nodup, List.pairwise_map]
    exact (h.sorted k).imp fun hlt => (UInt8.lt_iff_toNat_lt.mp hlt).ne
  have hsub : ((lists k).map fun x => (s.mGeneration x).toNat) ⊆ List.range' 1 255 := by
    intro n hn
    obtain ⟨x, hx, rfl⟩ := List.mem_map.mp hn
    have hpositive := h.positive k x hx
    rw [Ne, ← UInt8.toNat_inj] at hpositive
    have hzero : (0 : UInt8).toNat = 0 := rfl
    have := (s.mGeneration x).toNat_lt
    rw [List.mem_range'_1]
    omega
  simpa using (hnodup.subperm hsub).length_le

/-- The first binding of a hash number. -/
theorem Lists.single (h : Lists HashNumber s lists) (hl : lists (HashNumber b) = [])
    (hlinks : s'.links = s.links) (hothers : ∀ x ≠ b, s'.mGeneration x = s.mGeneration x)
    (hpositive : s'.mGeneration b ≠ 0)
    (htable : s'.table = Function.update s.table (HashNumber b) (some b)) :
    Lists HashNumber s' (Function.update lists (HashNumber b) [b]) := by
  have hb : b ∉ lists (HashNumber b) := by simp [hl]
  have halone := h.alone b hb
  have hsame : ∀ k ≠ HashNumber b, ∀ x ∈ lists k, s'.mGeneration x = s.mGeneration x := by
    intro k hk x hx
    refine hothers x ?_
    rintro rfl
    exact hk (h.homes k x hx).symm
  constructor
  · intro k
    rw [htable]
    by_cases hk : k = HashNumber b
    · rw [hk, Function.update_self, Function.update_self]
      rfl
    · rw [Function.update_of_ne hk, Function.update_of_ne hk, h.heads k]
  · intro k x hx
    by_cases hk : k = HashNumber b
    · rw [hk, Function.update_self, List.mem_singleton] at hx
      rw [hx, hk]
    · rw [Function.update_of_ne hk] at hx
      exact h.homes k x hx
  · intro k
    rw [hlinks]
    by_cases hk : k = HashNumber b
    · rw [hk, Function.update_self]
      exact List.isChain_pair.mpr halone
    · rw [Function.update_of_ne hk]
      exact h.circles k
  · intro x hx
    rw [hlinks]
    refine h.alone x fun hmem => hx ?_
    by_cases hk : HashNumber x = HashNumber b
    · rw [hk, hl] at hmem
      cases hmem
    · rwa [Function.update_of_ne hk]
  · intro k
    by_cases hk : k = HashNumber b
    · rw [hk, Function.update_self]
      exact List.pairwise_singleton _ _
    · rw [Function.update_of_ne hk]
      refine (h.sorted k).imp_of_mem fun {x y} hx hy hlt => ?_
      rwa [hsame k hk x hx, hsame k hk y hy]
  · intro k x hx
    by_cases hk : k = HashNumber b
    · rw [hk, Function.update_self, List.mem_singleton] at hx
      rwa [hx]
    · rw [Function.update_of_ne hk] at hx
      rw [hsame k hk x hx]
      exact h.positive k x hx

/-- What an addition gives when there is memory. -/
theorem Lists.AddBinding (h : Lists HashNumber s lists) (b : ℕ) :
    ∃ rv s', s.AddBinding HashNumber b true = some (rv, s') ∧
      (rv = .ok ∧ b ∉ lists (HashNumber b) ∧ (∃ l, Placed HashNumber s s' lists b l) ∧
          (s.mGeneration b ≠ 0 → s'.mGeneration b = s.mGeneration b) ∨
        rv = NS_ERROR_UNEXPECTED ∧ Refused s s' b ∧
          (b ∈ lists (HashNumber b) → s' = s) ∧
          (s.mGeneration b = 0 → ∀ g, g ≠ 0 →
            ∃ x ∈ lists (HashNumber b), s.mGeneration x = g) ∧
          (s.mGeneration b ≠ 0 →
            ∃ x ∈ lists (HashNumber b), s.mGeneration x = s.mGeneration b)) := by
  have hhead := h.heads (HashNumber b)
  have hlength := h.length_le (HashNumber b)
  rw [nsDiskCacheBindery.AddBinding, if_neg (by simp), hhead]
  cases hl : lists (HashNumber b) with
  | nil =>
    dsimp only [List.head?_nil]
    obtain ⟨s', hs'⟩ : ∃ s', s' = if (s.setHead (HashNumber b) (some b)).mGeneration b = 0 then
      (s.setHead (HashNumber b) (some b)).setGeneration b 1
      else s.setHead (HashNumber b) (some b) := ⟨_, rfl⟩
    have hlinks : s'.links = s.links := by
      rw [hs']
      split_ifs <;> rfl
    have htable : s'.table = Function.update s.table (HashNumber b) (some b) := by
      rw [hs']
      split_ifs <;> rfl
    have hothers : ∀ x ≠ b, s'.mGeneration x = s.mGeneration x := by
      intro x hx
      rw [hs']
      split_ifs
      · exact Function.update_of_ne hx ..
      · rfl
    have hself : s'.mGeneration b = if s.mGeneration b = 0 then 1 else s.mGeneration b := by
      rw [hs']
      change (if s.mGeneration b = 0 then _ else _ : nsDiskCacheBindery).mGeneration b = _
      split_ifs
      · exact Function.update_self ..
      · rfl
    have hpositive : s'.mGeneration b ≠ 0 := by
      rw [hself]
      split_ifs with hzero
      · decide
      · exact hzero
    rw [← hs']
    refine ⟨_, s', rfl, .inl ⟨rfl, List.not_mem_nil, ⟨[b], ?_⟩, fun hne => ?_⟩⟩
    · exact ⟨h.single hl hlinks hothers hpositive htable, by simp [hl], hothers, by simp [hl]⟩
    · rw [hself, if_neg hne]
  | cons head t =>
    dsimp only [List.head?_cons]
    rw [hl, List.length_cons] at hlength
    by_cases hb : b ∈ head :: t
    · have hne : s.mGeneration b ≠ 0 := h.positive (HashNumber b) b (hl ▸ hb)
      rw [decide_eq_false hne, if_neg hne, @addLoop_again HashNumber s lists b head [] t h 255
        (by omega) hl hb]
      exact ⟨_, s, rfl, .inr ⟨rfl, ⟨rfl, rfl, fun _ _ => rfl⟩, fun _ => rfl,
        fun hzero => absurd hzero hne, fun _ => ⟨b, hb, rfl⟩⟩⟩
    · have hb' : b ∉ lists (HashNumber b) := by rwa [hl]
      by_cases hzero : s.mGeneration b = 0
      · rw [decide_eq_true hzero, if_pos hzero]
        have hother : ∀ x ∈ head :: t, (s.setGeneration b 1).mGeneration x = s.mGeneration x := by
          intro x hx
          refine Function.update_of_ne ?_ ..
          rintro rfl
          exact hb hx
        have hself : (s.setGeneration b 1).mGeneration b = 1 := Function.update_self ..
        obtain ⟨rv, s', hrun, hcases⟩ := @addLoop_spec HashNumber _ lists b head [] t
          (h.setGeneration hb' 1) hb' true 255 (by omega) hl (by rw [hself]; decide) (by simp)
          (fun _ g hg hlt => by
            rw [hself] at hlt
            exact absurd (UInt8.lt_one_iff.mp hlt) hg)
        refine ⟨rv, s', hrun, hcases.imp ?_ ?_⟩
        · rintro ⟨hrv, ⟨l, hplaced⟩, -⟩
          exact ⟨hrv, hb, ⟨l, hplaced.of_setGeneration hb'⟩, fun hne => absurd hzero hne⟩
        · rintro ⟨hrv, hrefused, hfull, -⟩
          refine ⟨hrv, hrefused.of_setGeneration, fun hmem => absurd hmem hb, fun _ g hg => ?_,
            fun hne => absurd hzero hne⟩
          obtain ⟨x, hx, hgx⟩ := hfull rfl g hg
          rw [hl] at hx
          exact ⟨x, hx, by rw [← hother x hx, hgx]⟩
      · rw [decide_eq_false hzero, if_neg hzero]
        obtain ⟨rv, s', hrun, hcases⟩ :=
          @addLoop_spec HashNumber _ lists b head [] t h hb' false 255
          (by omega) hl hzero (by simp) (fun hc => by cases hc)
        refine ⟨rv, s', hrun, hcases.imp ?_ ?_⟩
        · rintro ⟨hrv, hplaced, hsame⟩
          exact ⟨hrv, hb, hplaced, fun _ => hsame rfl⟩
        · rintro ⟨hrv, hrefused, -, hpresent⟩
          rw [hl] at hpresent
          exact ⟨hrv, hrefused, fun hmem => absurd hmem hb, fun hz => absurd hz hzero,
            fun _ => hpresent rfl⟩

/-! ### Removing -/

/-- A binding is taken out of a list with others. -/
theorem Lists.unlink (h : Lists HashNumber s lists)
    (hl : lists (HashNumber b) = front ++ b :: back) (hne : front ++ back ≠ [])
    (hlinks : s'.links = s.links.removeAndInit b) (hgeneration : s'.mGeneration = s.mGeneration)
    (htable : s'.table = Function.update s.table (HashNumber b) (front ++ back).head?) :
    Lists HashNumber s' (Function.update lists (HashNumber b) (front ++ back)) := by
  have hmem : ∀ x, x ∈ lists (HashNumber b) ↔ x = b ∨ x ∈ front ++ back := by
    intro x
    rw [hl]
    simp only [List.mem_append, List.mem_cons]
    tauto
  have hb : b ∈ lists (HashNumber b) := (hmem b).mpr (.inl rfl)
  have hnodup := h.nodup (HashNumber b)
  have hcircle := h.circles (HashNumber b)
  have hsorted := h.sorted (HashNumber b)
  rw [hl] at hnodup hcircle hsorted
  rw [Links.circle_rotate] at hcircle
  have hperm : (front ++ b :: back).Perm (b :: (back ++ front)) :=
    List.perm_append_comm.trans (List.Perm.refl _)
  have hnodup' := hperm.nodup_iff.mp hnodup
  have hout : b ∉ front ++ back := by
    rw [(@List.perm_append_comm _ front back).mem_iff]
    exact (List.nodup_cons.mp hnodup').1
  obtain ⟨hprev, hrest⟩ : s.links.prev b ≠ b ∧
      (s.links.removeAndInit b).Circle (front ++ back) := by
    rw [Links.circle_append_comm]
    cases hrest : back ++ front with
    | nil =>
      rw [List.append_eq_nil_iff] at hrest
      simp [hrest] at hne
    | cons c rest =>
      rw [hrest] at hcircle hnodup'
      refine ⟨?_, hcircle.removeAndInit hnodup'⟩
      have hlast := hcircle.follows_last
      rw [List.getLast_cons_cons] at hlast
      rw [hlast.2]
      intro heq
      have hmemLast := List.getLast_mem (List.cons_ne_nil c rest)
      rw [heq] at hmemLast
      exact (List.nodup_cons.mp hnodup').1 hmemLast
  have hframe : ∀ x, x ∉ lists (HashNumber b) →
      s'.links.next x = s.links.next x ∧ s'.links.prev x = s.links.prev x := by
    intro x hx
    rw [hlinks]
    exact (h.circles _).removeAndInit_of_notMem hb hx hprev
  have hapart : ∀ k ≠ HashNumber b, ∀ x ∈ lists k, x ∉ lists (HashNumber b) := by
    intro k hk x hx hx'
    rw [← h.homes k x hx, h.homes _ x hx'] at hk
    exact hk rfl
  constructor
  · intro k
    rw [htable]
    by_cases hk : k = HashNumber b
    · rw [hk, Function.update_self, Function.update_self]
    · rw [Function.update_of_ne hk, Function.update_of_ne hk, h.heads k]
  · intro k x hx
    by_cases hk : k = HashNumber b
    · rw [hk, Function.update_self] at hx
      rw [hk, h.homes _ x ((hmem x).mpr (.inr hx))]
    · rw [Function.update_of_ne hk] at hx
      exact h.homes k x hx
  · intro k
    by_cases hk : k = HashNumber b
    · rw [hk, Function.update_self, hlinks]
      exact hrest
    · rw [Function.update_of_ne hk]
      exact (h.circles k).congr (fun x hx => (hframe x (hapart k hk x hx)).1)
        (fun x hx => (hframe x (hapart k hk x hx)).2)
  · intro x hx
    by_cases hxb : x = b
    · rw [hxb, hlinks, Links.next_removeAndInit, Links.prev_removeAndInit hprev]
      exact ⟨if_pos rfl, if_pos rfl⟩
    · have hx' : x ∉ lists (HashNumber x) := by
        intro hmem'
        by_cases hk : HashNumber x = HashNumber b
        · rw [hk, Function.update_self] at hx
          rw [hk] at hmem'
          exact hx (((hmem x).mp hmem').resolve_left hxb)
        · rw [Function.update_of_ne hk] at hx
          exact hx hmem'
      have hxl : x ∉ lists (HashNumber b) := by
        intro hmem'
        rw [h.homes _ x hmem'] at hx'
        exact hx' hmem'
      rw [(hframe x hxl).1, (hframe x hxl).2]
      exact h.alone x hx'
  · intro k
    rw [hgeneration]
    by_cases hk : k = HashNumber b
    · rw [hk, Function.update_self]
      exact hsorted.sublist ((List.sublist_cons_self b back).append_left front)
    · rw [Function.update_of_ne hk]
      exact h.sorted k
  · intro k x hx
    rw [hgeneration]
    by_cases hk : k = HashNumber b
    · rw [hk, Function.update_self] at hx
      exact h.positive _ x ((hmem x).mpr (.inr hx))
    · rw [Function.update_of_ne hk] at hx
      exact h.positive k x hx

/-- The only binding of a list is taken out. -/
theorem Lists.unlink_last (h : Lists HashNumber s lists) (hl : lists (HashNumber b) = [b]) :
    Lists HashNumber (s.setHead (HashNumber b) none) (Function.update lists (HashNumber b) []) := by
  constructor
  · intro k
    change Function.update s.table (HashNumber b) none k = _
    by_cases hk : k = HashNumber b
    · rw [hk, Function.update_self, Function.update_self]
      rfl
    · rw [Function.update_of_ne hk, Function.update_of_ne hk, h.heads k]
  · intro k x hx
    by_cases hk : k = HashNumber b
    · rw [hk, Function.update_self] at hx
      cases hx
    · rw [Function.update_of_ne hk] at hx
      exact h.homes k x hx
  · intro k
    by_cases hk : k = HashNumber b
    · rw [hk, Function.update_self]
      trivial
    · rw [Function.update_of_ne hk]
      exact h.circles k
  · intro x hx
    by_cases hxb : x = b
    · have hcircle := h.circles (HashNumber b)
      rw [hl] at hcircle
      rw [hxb]
      exact hcircle.follows_last
    · refine h.alone x fun hmem => hx ?_
      by_cases hk : HashNumber x = HashNumber b
      · rw [hk, hl, List.mem_singleton] at hmem
        exact absurd hmem hxb
      · rwa [Function.update_of_ne hk]
  · intro k
    by_cases hk : k = HashNumber b
    · rw [hk, Function.update_self]
      exact List.Pairwise.nil
    · rw [Function.update_of_ne hk]
      exact h.sorted k
  · intro k x hx
    by_cases hk : k = HashNumber b
    · rw [hk, Function.update_self] at hx
      cases hx
    · rw [Function.update_of_ne hk] at hx
      exact h.positive k x hx

/-- A removal takes the binding out of its list, if it is there. -/
theorem Lists.RemoveBinding (h : Lists HashNumber s lists) (b : ℕ) :
    Lists HashNumber (s.RemoveBinding HashNumber b)
      (Function.update lists (HashNumber b) ((lists (HashNumber b)).erase b)) := by
  have hhead := h.heads (HashNumber b)
  have hcircle := h.circles (HashNumber b)
  have hnodup := h.nodup (HashNumber b)
  rw [nsDiskCacheBindery.RemoveBinding, hhead]
  cases hl : lists (HashNumber b) with
  | nil =>
    have hsame : Function.update lists (HashNumber b) [] = lists :=
      Function.update_eq_self_iff.mpr hl.symm
    rw [List.erase_nil, hsame]
    exact h
  | cons head t =>
    rw [hl] at hcircle hnodup hhead
    rw [List.head?_cons]
    dsimp only
    by_cases hbh : b = head
    · subst hbh
      rw [if_pos rfl, List.erase_cons_head]
      cases t with
      | nil =>
        have hself : s.links.next b = b := hcircle.follows_last.1
        rw [if_pos hself]
        exact h.unlink_last hl
      | cons c t =>
        have hnext := (@Links.Circle.follows ℕ s.links b c [] t hcircle).1
        have hcb : c ≠ b := fun heq => (List.nodup_cons.mp hnodup).1 (heq ▸ List.mem_cons_self)
        rw [hnext, if_neg hcb]
        exact @Lists.unlink _ _ _ _ b [] (c :: t) h hl (by simp) rfl rfl rfl
    · rw [if_neg hbh]
      by_cases hbt : b ∈ t
      · obtain ⟨front, back, rfl⟩ := List.append_of_mem hbt
        have hfront : b ∉ head :: front := by
          rw [List.nodup_cons, List.nodup_append] at hnodup
          rw [List.mem_cons, not_or]
          exact ⟨hbh, fun hmem => hnodup.2.2.2 b hmem b List.mem_cons_self rfl⟩
        have herase : (head :: (front ++ b :: back)).erase b = head :: front ++ back := by
          rw [← List.cons_append, List.erase_append_right _ hfront, List.erase_cons_head]
        rw [herase]
        refine @Lists.unlink _ _ _ _ b (head :: front) back h hl (by simp) rfl rfl ?_
        change s.table = Function.update s.table (HashNumber b) (some head)
        rw [eq_comm, Function.update_eq_self_iff, hhead]
        rfl
      · have hb : b ∉ lists (HashNumber b) := by
          rw [hl, List.mem_cons, not_or]
          exact ⟨hbh, hbt⟩
        rw [← hl, List.erase_of_not_mem hb, Function.update_eq_self,
          Links.removeAndInit_self (h.alone b hb).1 (h.alone b hb).2]
        exact h

/-! ### Runs -/

variable {active : Finset ℕ}

/-- The lists hold exactly the bindings that were added and not removed. -/
def Holds (HashNumber : ℕ → UInt32) (s : nsDiskCacheBindery) (active : Finset ℕ) : Prop :=
  ∃ lists, Lists HashNumber s lists ∧ ∀ b, b ∈ lists (HashNumber b) ↔ b ∈ active

/-- The lists are right, and what an addition does: it assigns a generation that is not in use, or
it leaves the lists as they were, and then there is no memory, or all generations are taken, or the
one that is asked for. -/
structure Exact (HashNumber : ℕ → UInt32) (s : nsDiskCacheBindery) (active : Finset ℕ) : Prop where
  holds : Holds HashNumber s active
  adds : ∀ b memory, ∃ rv s', s.AddBinding HashNumber b memory = some (rv, s') ∧
    (rv = .ok → b ∉ active ∧ s'.mGeneration b ≠ 0 ∧
      (s.mGeneration b ≠ 0 → s'.mGeneration b = s.mGeneration b) ∧
      ∀ c ∈ active, s'.mGeneration c = s.mGeneration c ∧
        (HashNumber c = HashNumber b → s'.mGeneration c ≠ s'.mGeneration b)) ∧
    (rv ≠ .ok → s'.links = s.links ∧ s'.table = s.table ∧
      (∀ c ∈ active, s'.mGeneration c = s.mGeneration c) ∧
      (memory = false ∨
        s.mGeneration b = 0 ∧ (∀ g, g ≠ 0 → ∃ c ∈ active, HashNumber c = HashNumber b ∧
          s.mGeneration c = g) ∨
        s.mGeneration b ≠ 0 ∧ ∃ c ∈ active, HashNumber c = HashNumber b ∧
          s.mGeneration c = s.mGeneration b))

/-- An unused state of the table. -/
theorem lists_init (HashNumber : ℕ → UInt32) (mGeneration : ℕ → UInt8) :
    Lists HashNumber { mGeneration } fun _ => [] := by
  constructor <;> simp [Links.Circle]

theorem Lists.of_refused (h : Lists HashNumber s lists) (hrefused : Refused s s' b)
    (hb : b ∈ lists (HashNumber b) → s' = s) : Lists HashNumber s' lists := by
  by_cases hmem : b ∈ lists (HashNumber b)
  · rw [hb hmem]
    exact h
  · have hset := h.setGeneration hmem (s'.mGeneration b)
    have heq : s' = s.setGeneration b (s'.mGeneration b) := by
      cases s'
      obtain ⟨hlinks, htable, hothers⟩ := hrefused
      simp only at hlinks htable hothers
      rw [nsDiskCacheBindery.setGeneration, hlinks, htable]
      congr 1
      funext x
      by_cases hx : x = b
      · rw [hx, Function.update_self]
      · rw [Function.update_of_ne hx, hothers x hx]
    rwa [heq]

theorem Placed.holds (h : Placed HashNumber s s' lists b l)
    (hmem : ∀ c, c ∈ lists (HashNumber c) ↔ c ∈ active) :
    Holds HashNumber s' (insert b active) := by
  refine ⟨_, h.linked, fun c => ?_⟩
  rw [Finset.mem_insert, ← hmem]
  by_cases hk : HashNumber c = HashNumber b
  · rw [hk, Function.update_self, h.mem]
  · rw [Function.update_of_ne hk]
    refine ⟨.inr, fun hc => hc.resolve_left ?_⟩
    rintro rfl
    exact hk rfl

theorem Reached.holds (h : Reached HashNumber s active) : Holds HashNumber s active := by
  induction h with
  | init mGeneration => exact ⟨_, lists_init HashNumber mGeneration, by simp⟩
  | create binding generation _ hnew ih =>
    obtain ⟨lists, hlists, hmem⟩ := ih
    exact ⟨lists, hlists.setGeneration (mt (hmem binding).mp hnew) generation, hmem⟩
  | @add s s' active rv binding memory _ hadd ih =>
    obtain ⟨lists, hlists, hmem⟩ := ih
    cases memory with
    | false =>
      cases hadd
      exact ⟨lists, hlists, by simpa [NS_ERROR_OUT_OF_MEMORY] using hmem⟩
    | true =>
      obtain ⟨rv', s₁, hrun, hcases⟩ := hlists.AddBinding binding
      rw [hrun] at hadd
      cases hadd
      rcases hcases with ⟨rfl, -, ⟨l, hplaced⟩, -⟩ | ⟨rfl, hrefused, hsame, -⟩
      · rw [if_pos rfl]
        exact hplaced.holds hmem
      · rw [if_neg (by simp [NS_ERROR_UNEXPECTED])]
        exact ⟨lists, hlists.of_refused hrefused hsame, hmem⟩
  | @remove s active binding _ ih =>
    obtain ⟨lists, hlists, hmem⟩ := ih
    refine ⟨_, hlists.RemoveBinding binding, fun c => ?_⟩
    rw [Finset.mem_erase, ← hmem]
    by_cases hk : HashNumber c = HashNumber binding
    · rw [hk, Function.update_self, (hlists.nodup _).mem_erase_iff]
    · rw [Function.update_of_ne hk]
      refine ⟨fun hc => ⟨?_, hc⟩, fun hc => hc.2⟩
      rintro rfl
      exact hk rfl

end nsDiskCacheBindery

end Kompozer.Cache

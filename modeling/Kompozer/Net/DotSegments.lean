import Kompozer.Net.Coalesce
import Kompozer.Lib.DotSegments

/-! What `net_CoalesceDirs` does to the segments of a path. The second pass is followed segment by
segment as a walk with a stack of the segments that are written; from this the result is read off,
in normal mode and for the marker of a root directory. -/

namespace Kompozer.Net

/-! ### Segments -/

/-- The characters between two slashes. -/
def IsSegment (seg : NsCString) : Prop := ∀ c ∈ seg, c ≠ 0 ∧ c ≠ slash ∧ isTail c = false

instance (seg : NsCString) : Decidable (IsSegment seg) := List.decidableBAll _ seg

def join (segs : List NsCString) : NsCString := segs.flatMap (slash :: ·)

@[simp] theorem join_nil : join [] = [] := rfl

@[simp] theorem join_cons (seg : NsCString) (segs : List NsCString) :
    join (seg :: segs) = slash :: (seg ++ join segs) := rfl

theorem join_append (segs₁ segs₂ : List NsCString) :
    join (segs₁ ++ segs₂) = join segs₁ ++ join segs₂ := List.flatMap_append

def dotNames : Lib.DotNames NsCString := ⟨[dot], [dot, dot], []⟩

theorem dotNames_step (retain : Bool) (stack : List NsCString) (seg : NsCString) :
    dotNames.step retain stack seg =
      if seg = [dot] then stack
      else if seg = [dot, dot] then
        if !retain || dotNames.canPop stack then stack.tail else seg :: stack
      else seg :: stack := rfl

theorem dotNames_close (retain : Bool) (stack : List NsCString) (seg : NsCString) :
    dotNames.close retain stack seg =
      if seg = [dot] then [] :: stack
      else if seg = [dot, dot] then
        if !retain || dotNames.canPop stack then [] :: stack.tail else seg :: stack
      else seg :: stack := rfl

/-- A segment ends at a slash, at a query or a reference, or with the path. -/
def Ends (y : NsCString) : Prop := y = [] ∨ charAt y 0 = slash ∨ isTail (charAt y 0) = true

theorem Ends.ne_dot {y : NsCString} (h : Ends y) : charAt y 0 ≠ dot := by
  rcases h with rfl | h | h
  · decide
  · rw [h]
    decide
  · intro hdot
    rw [hdot] at h
    exact absurd h (by decide)

theorem decodeDots_cons {c : UInt8} {y : NsCString}
    (h : ¬ (c = percent ∧ y.head? = some 50 ∧ (y[1]? = some 69 ∨ y[1]? = some 101))) :
    decodeDots (c :: y) = c :: decodeDots y := by
  rcases y with _ | ⟨b, _ | ⟨d, y⟩⟩
  · rfl
  · rfl
  · rw [decodeDots, if_neg (by simpa using h)]

theorem decodeDots_slash (y : NsCString) : decodeDots (slash :: y) = slash :: decodeDots y :=
  decodeDots_cons fun h => absurd h.1 (by decide)

theorem decodeDots_append (a y : NsCString) :
    decodeDots (a ++ slash :: y) = decodeDots a ++ slash :: decodeDots y := by
  have hfst (b : UInt8) (h : b = slash) : ¬ some b = some 50 := by simp [h, slash]
  have hsnd (b : UInt8) (h : b = slash) : ¬ (some b = some 69 ∨ some b = some 101) := by
    simp [h, slash]
  fun_induction decodeDots a with
  | case1 a b c rest h ih =>
    rw [List.cons_append, List.cons_append, List.cons_append, decodeDots, if_pos h, ih,
      List.cons_append]
  | case2 a b c rest h ih =>
    rw [List.cons_append, List.cons_append, List.cons_append, decodeDots, if_neg h,
      ← List.cons_append, ← List.cons_append, ih, List.cons_append]
  | case3 rest h =>
    rcases rest with _ | ⟨a, _ | ⟨b, _ | ⟨c, rest⟩⟩⟩
    · exact decodeDots_slash y
    · rw [List.cons_append, List.nil_append,
        decodeDots_cons (y := slash :: y) fun h => hfst slash rfl h.2.1, decodeDots_slash]
      rfl
    · rw [List.cons_append, List.cons_append, List.nil_append,
        decodeDots_cons (y := b :: slash :: y) fun h => hsnd slash rfl h.2.2,
        decodeDots_cons (y := slash :: y) fun h => hfst slash rfl h.2.1, decodeDots_slash]
      rfl
    · exact absurd rfl (h a b c rest)

theorem decodeDots_join (segs : List NsCString) :
    decodeDots (join segs) = join (segs.map decodeDots) := by
  induction segs with
  | nil => rfl
  | cons seg segs ih =>
    cases segs with
    | nil =>
      rw [join_cons, decodeDots_slash, join_nil, List.append_nil]
      exact (congrArg (slash :: ·) (List.append_nil _)).symm
    | cons seg' segs =>
      rw [join_cons, decodeDots_slash, join_cons seg', decodeDots_append, ← decodeDots_slash,
        ← join_cons, ih]
      rfl

/-! ### The walk -/

/-- What is written behind the root, innermost first: a separator stands in front of each segment,
in front of the first one the last character of the root. -/
def written (base : NsCString) (first : UInt8) : List NsCString → NsCString
  | [] => base
  | seg :: stack =>
    seg.reverse ++ (if stack = [] then first else slash) :: written base first stack

/-- The second pass between two segments: the segments that are written, the character in front of
the first one, and the counter. -/
structure Walk where
  first : UInt8
  stack : List NsCString
  traversal : ℕ
  deriving DecidableEq

namespace Walk

/-- At the root the slash of a segment is written over the last character of the root. -/
def push (w : Walk) (seg : NsCString) : Walk where
  first := if w.stack = [] then slash else w.first
  stack := seg :: w.stack
  traversal := w.traversal + if seg.head? = some dot then 0 else 1

def pop (w : Walk) : Walk :=
  { w with stack := w.stack.tail, traversal := w.traversal - 1 }

def keep (w : Walk) (seg : NsCString) : Walk := { w with stack := seg :: w.stack }

def step (retain : Bool) (w : Walk) (seg : NsCString) : Walk :=
  if seg = [dot] then w
  else if seg = [dot, dot] then if !retain || 0 < w.traversal then w.pop else w.keep seg
  else w.push seg

/-- The last segment, and whether nothing follows it. -/
def close (retain : Bool) (w : Walk) (seg : NsCString) (atEnd : Bool) : Walk :=
  if seg = [dot, dot] then
    if !retain || 0 < w.traversal then if atEnd then w.pop.keep [] else w.pop
    else w.keep seg
  else w.push seg

end Walk

/-- The root behind which the segments are written, for a mode and the length of the marker. -/
structure Rooted (retain : Bool) (special : ℕ) (base : NsCString) : Prop where
  root : (retain = false ∧ special = 0 ∧ base = []) ∨
    (retain = true ∧ special = 4 ∧ base = [50, 37, slash])

/-- The buffer holds what a walk has written, and behind the root the character that was there. -/
structure Laid (retain : Bool) (base : NsCString) (w : Walk) (s : Coalescing) : Prop where
  out : s.out = written base w.first w.stack
  stale : w.stack = [] → (s.stale ++ [slash]).head? = some w.first
  first : retain = false → w.first = slash
  traversal : retain = true → s.traversal.toNat = w.traversal

/-! ### One turn on the buffer -/

namespace Coalescing

theorem backTo_slash {name : NsCString} (h : ∀ c ∈ name, c ≠ slash) (out stale : NsCString) :
    backTo (name ++ slash :: out) stale = (out, slash :: (name.reverse ++ stale)) := by
  induction name generalizing stale with
  | nil => exact if_pos rfl
  | cons c name ih =>
    rw [List.cons_append, backTo, if_neg (h c (by simp)), ih fun d hd => h d (by simp [hd])]
    simp

/-- Back by a segment, and past the marker of the root again. -/
def raised (s : Coalescing) (special : ℕ) : Coalescing :=
  let s := { s.back with traversal := s.traversal - 1 }
  let s := (s.pass slash).pass dot
  if s.out = [] ∧ 3 < special then s.forward.forward.forward else s

theorem up_eq (s : Coalescing) (special : ℕ) (atEnd : Bool) :
    s.up special atEnd =
      (if atEnd then (s.raised special).forward else s.raised special).pass dot := rfl

theorem traversal_forward (s : Coalescing) : s.forward.traversal = s.traversal := by
  rw [forward]
  split <;> rfl

theorem raised_eq {s : Coalescing} (special : ℕ) (out stale : NsCString)
    (h : backTo s.out s.stale = (out, stale)) :
    s.raised special =
      if out = [] ∧ 3 < special then
        (Coalescing.mk out ((stale ++ [slash]) ++ [dot]) (s.traversal - 1)).forward.forward.forward
      else ⟨out, (stale ++ [slash]) ++ [dot], s.traversal - 1⟩ := by
  simp only [raised, back, pass, h]

theorem traversal_raised (s : Coalescing) (special : ℕ) :
    (s.raised special).traversal = s.traversal - 1 := by
  unfold raised
  dsimp only
  split_ifs
  · rw [traversal_forward, traversal_forward, traversal_forward]
    rfl
  · rfl

end Coalescing

variable {flags : NetCoalesceFlags} {special : ℕ} {retain : Bool} {base : NsCString} {w : Walk}
  {s : Coalescing}

theorem IsSegment.reverse_ne {seg : NsCString} (h : IsSegment seg) :
    ∀ c ∈ seg.reverse, c ≠ slash := fun c hc => (h c (List.mem_reverse.mp hc)).2.1

/-- Back by a segment: what is written then, and the character that is next in the buffer. -/
theorem Laid.raised (hr : Rooted retain special base) (hl : Laid retain base w s)
    (hsegs : ∀ seg ∈ w.stack, IsSegment seg) :
    (s.raised special).out = written base w.first w.stack.tail ∧
      (s.raised special).stale.head? =
        some (if w.stack.tail = [] then w.first else slash) := by
  obtain ⟨first, stack, traversal⟩ := w
  have hout := hl.out
  have hstale := hl.stale
  have hfirst := hl.first
  dsimp only at hout hstale hfirst hsegs ⊢
  cases stack with
  | nil =>
    have hhead : ((s.stale ++ [slash]) ++ [dot]).head? = some first := by
      rw [List.head?_append, hstale rfl]
      rfl
    rcases hr.root with ⟨-, rfl, rfl⟩ | ⟨-, rfl, rfl⟩
    · rw [Coalescing.raised_eq 0 [] s.stale (by rw [hout]; rfl),
        if_neg (by decide)]
      exact ⟨rfl, hhead⟩
    · rw [Coalescing.raised_eq 4 [] (slash :: 37 :: 50 :: s.stale)
        (by rw [hout]; rfl), if_pos (by decide)]
      exact ⟨rfl, hhead⟩
  | cons seg stack =>
    have hseg := (hsegs seg (by simp)).reverse_ne
    by_cases hin : (if stack = [] then first else slash) = slash
    · -- the slash in front of the segment is found
      have hback : Coalescing.backTo s.out s.stale =
          (written base first stack, slash :: (seg ++ s.stale)) := by
        rw [hout, written, hin, Coalescing.backTo_slash hseg, List.reverse_reverse]
      have hroot : ¬ (written base first stack = [] ∧ 3 < special) := by
        rintro ⟨hw, hspecial⟩
        rcases hr.root with ⟨-, rfl, rfl⟩ | ⟨-, rfl, rfl⟩
        · exact absurd hspecial (by decide)
        · cases stack <;> simp [written] at hw
      rw [Coalescing.raised_eq special _ _ hback, if_neg hroot, List.tail_cons, hin]
      exact ⟨rfl, rfl⟩
    · have hnil : stack = [] := by
        by_contra hne
        exact hin (if_neg hne)
      subst hnil
      rw [if_pos rfl] at hin
      rcases hr.root with ⟨hret, rfl, rfl⟩ | ⟨-, rfl, rfl⟩
      · exact absurd (hfirst hret) hin
      · have hback : Coalescing.backTo s.out s.stale =
            ([], slash :: 37 :: 50 :: first :: (seg ++ s.stale)) := by
          have hname : ∀ c ∈ seg.reverse ++ [first, 50, 37], c ≠ slash := fun c hc => ?_
          · have h := Coalescing.backTo_slash hname [] s.stale
            rw [hout, written, if_pos rfl, written]
            simpa using h
          · rcases List.mem_append.mp hc with hc | hc
            · exact hseg c hc
            · simp only [List.mem_cons, List.not_mem_nil, or_false] at hc
              rcases hc with rfl | rfl | rfl
              · exact hin
              · decide
              · decide
        rw [Coalescing.raised_eq 4 _ _ hback, if_pos (by decide)]
        exact ⟨rfl, rfl⟩

theorem Coalescing.out_forward {s : Coalescing} {c : UInt8} (h : s.stale.head? = some c) :
    s.forward.out = c :: s.out := by
  obtain ⟨out, _ | ⟨d, stale⟩, n⟩ := s
  · exact absurd h (by simp)
  · obtain rfl : d = c := Option.some.inj h
    rfl

/-- A segment is taken away. -/
theorem Laid.up (hr : Rooted retain special base) (hl : Laid retain base w s)
    (hsegs : ∀ seg ∈ w.stack, IsSegment seg) (hpop : retain = true → 0 < w.traversal)
    (atEnd : Bool) :
    Laid retain base (if atEnd then w.pop.keep [] else w.pop) (s.up special atEnd) := by
  obtain ⟨hout, hhead⟩ := hl.raised hr hsegs
  have htraversal : retain = true →
      ((s.raised special).traversal).toNat = w.traversal - 1 := by
    intro hret
    have hpos := hpop hret
    have heq := hl.traversal hret
    rw [Coalescing.traversal_raised, UInt32.toNat_sub, heq]
    have := s.traversal.toNat_lt
    simp only [UInt32.toNat_ofNat]
    omega
  rw [Coalescing.up_eq]
  cases atEnd with
  | false =>
    refine ⟨hout, fun hnil => ?_, hl.first, htraversal⟩
    have hnil : w.stack.tail = [] := hnil
    rw [if_pos hnil] at hhead
    change (((s.raised special).stale ++ [dot]) ++ [slash]).head? = some w.first
    rw [List.append_assoc, List.head?_append, hhead]
    rfl
  | true =>
    refine ⟨?_, fun hnil => absurd hnil (List.cons_ne_nil _ _), hl.first, fun hret => ?_⟩
    · change (s.raised special).forward.out = written base w.first ([] :: w.stack.tail)
      rw [Coalescing.out_forward hhead, hout, written]
      rfl
    · change (s.raised special).forward.traversal.toNat = w.traversal - 1
      rw [Coalescing.traversal_forward, htraversal hret]

theorem length_lt_written {first : UInt8} {stack : List NsCString} (h : stack ≠ []) :
    base.length < (written base first stack).length := by
  induction stack with
  | nil => exact absurd rfl h
  | cons seg stack ih =>
    rw [written, List.length_append, List.length_cons]
    by_cases hs : stack = []
    · rw [hs, written]
      omega
    · have := ih hs
      omega

/-- Above the root the segment is retained. -/
theorem Laid.keep (hl : Laid true [50, 37, slash] w s) :
    Laid true [50, 37, slash] (w.keep [dot, dot]) (s.keep 4) := by
  have hpass : ((s.pass slash).forward).traversal = s.traversal := Coalescing.traversal_forward _
  unfold Coalescing.keep
  by_cases hroot : w.stack = []
  · have hlen : 3 < 4 ∧ s.out.length = 4 - 1 := by
      rw [hl.out, hroot]
      exact ⟨by decide, rfl⟩
    rw [if_pos hlen]
    refine ⟨?_, fun hnil => absurd hnil (List.cons_ne_nil _ _), fun h => absurd h (by decide),
      fun hret => (congrArg UInt32.toNat hpass).trans (hl.traversal hret)⟩
    change dot :: dot :: (s.pass slash).forward.out = written _ w.first ([dot, dot] :: w.stack)
    rw [Coalescing.out_forward (hl.stale hroot), written, if_pos hroot, ← hl.out]
    rfl
  · have hlen : ¬ (3 < 4 ∧ s.out.length = 4 - 1) := by
      have h := @length_lt_written [50, 37, slash] w.first w.stack hroot
      rw [← hl.out] at h
      simp only [List.length_cons, List.length_nil] at h
      omega
    rw [if_neg hlen]
    refine ⟨?_, fun hnil => absurd hnil (List.cons_ne_nil _ _), fun h => absurd h (by decide),
      hl.traversal⟩
    change dot :: dot :: slash :: s.out = written _ w.first ([dot, dot] :: w.stack)
    rw [written, if_neg hroot, ← hl.out]
    rfl

/-- A dot that stands for the directory itself is passed. -/
theorem Laid.here (hl : Laid retain base w s) :
    Laid retain base w ((s.pass slash).pass dot) := by
  refine ⟨hl.out, fun hnil => ?_, hl.first, hl.traversal⟩
  change (((s.stale ++ [slash]) ++ [dot]) ++ [slash]).head? = some w.first
  rw [List.append_assoc, List.head?_append, hl.stale hnil]
  rfl

/-- A name is copied. -/
theorem Laid.push (hl : Laid retain base w s) {seg : NsCString} {s' : Coalescing}
    (hout : s'.out = seg.reverse ++ slash :: s.out)
    (hcount : retain = true → s'.traversal.toNat = (w.push seg).traversal) :
    Laid retain base (w.push seg) s' := by
  refine ⟨?_, fun hnil => absurd hnil (List.cons_ne_nil _ _), fun hret => ?_, hcount⟩
  · change s'.out = written base (if w.stack = [] then slash else w.first) (seg :: w.stack)
    rw [hout, hl.out, written]
    by_cases hnil : w.stack = []
    · rw [if_pos hnil, if_pos hnil, hnil]
      rfl
    · rw [if_neg hnil, if_neg hnil]
  · change (if w.stack = [] then slash else w.first) = slash
    rw [hl.first hret, ite_self]

/-! ### The second pass by segments -/

theorem Ends.charAt_eq_zero {y : NsCString} (h : Ends y) : charAt y 0 = 0 ↔ y = [] := by
  refine ⟨fun hz => ?_, fun hy => by rw [hy]; rfl⟩
  rcases h with h | h | h
  · exact h
  · exact absurd (hz.symm.trans h) (by decide)
  · exact absurd h (by rw [hz]; decide)

theorem coalesceLoop_here (s : Coalescing) (y : NsCString) :
    coalesceLoop flags special s 0 (slash :: dot :: slash :: y) =
      coalesceLoop flags special ((s.pass slash).pass dot) 0 (slash :: y) := by
  rw [coalesceLoop_cons, if_neg (by decide), if_pos ⟨rfl, rfl, rfl⟩, coalesceLoop]

theorem coalesceLoop_above (s : Coalescing) {y : NsCString} (hy : Ends y) :
    coalesceLoop flags special s 0 (slash :: dot :: dot :: y) =
      if 0 < s.traversal ∨ !flags.allowRelativeRoot then
        coalesceLoop flags special (s.up special (decide (y = []))) 0 y
      else coalesceLoop flags special (s.keep special) 0 y := by
  have hends : charAt (dot :: dot :: y) 2 = slash ∨ charAt (dot :: dot :: y) 2 = 0 ∨
      isTail (charAt (dot :: dot :: y) 2) = true := by
    change charAt y 0 = slash ∨ charAt y 0 = 0 ∨ isTail (charAt y 0) = true
    rcases hy with rfl | h | h
    · exact .inr (.inl rfl)
    · exact .inl h
    · exact .inr (.inr h)
  have hend : decide (charAt (dot :: dot :: y) 2 = 0) = decide (y = []) :=
    decide_eq_decide.mpr hy.charAt_eq_zero
  rw [coalesceLoop_cons, if_neg (by decide),
    if_neg (fun h => absurd (h.2.2 : dot = slash) (by decide)), if_pos ⟨rfl, rfl, rfl, hends⟩, hend]
  split_ifs <;> rw [coalesceLoop, coalesceLoop]

theorem coalesceLoop_copy {seg : NsCString} (hseg : IsSegment seg) (s : Coalescing)
    (y : NsCString) : ∃ s', coalesceLoop flags special s 0 (seg ++ y) =
      coalesceLoop flags special s' 0 y ∧ s'.out = seg.reverse ++ s.out ∧
        s'.traversal = s.traversal := by
  induction seg generalizing s with
  | nil => exact ⟨s, rfl, rfl, rfl⟩
  | cons c seg ih =>
    obtain ⟨-, hc, htail⟩ := hseg c (by simp)
    obtain ⟨s', hs', hout, hcount⟩ := ih (fun d hd => hseg d (by simp [hd])) (s.copy c)
    refine ⟨s', ?_, by rw [hout, Coalescing.out_copy]; simp, hcount⟩
    rw [List.cons_append, coalesceLoop_cons, if_neg (by simp [htail]), if_neg fun h => hc h.1,
      if_neg fun h => hc h.1, Coalescing.count, if_neg fun h => hc h.1, hs']

theorem ne_dot_slash {seg y : NsCString} (hseg : IsSegment seg) (hy : Ends y)
    (hname : seg = [dot] → charAt y 0 ≠ slash) :
    ¬ (charAt (seg ++ y) 0 = dot ∧ charAt (seg ++ y) 1 = slash) := by
  rintro ⟨h₀, h₁⟩
  rcases seg with _ | ⟨a, _ | ⟨b, seg⟩⟩
  · exact hy.ne_dot h₀
  · obtain rfl : a = dot := h₀
    exact hname rfl h₁
  · exact (hseg b (by simp)).2.1 h₁

theorem ne_dot_dot {seg y : NsCString} (hseg : IsSegment seg) (hy : Ends y)
    (hname : seg ≠ [dot, dot]) :
    ¬ (charAt (seg ++ y) 0 = dot ∧ charAt (seg ++ y) 1 = dot ∧
      (charAt (seg ++ y) 2 = slash ∨ charAt (seg ++ y) 2 = 0 ∨
        isTail (charAt (seg ++ y) 2))) := by
  rintro ⟨h₀, h₁, h₂⟩
  rcases seg with _ | ⟨a, _ | ⟨b, _ | ⟨c, seg⟩⟩⟩
  · exact hy.ne_dot h₀
  · exact hy.ne_dot h₁
  · obtain rfl : a = dot := h₀
    obtain rfl : b = dot := h₁
    exact hname rfl
  · obtain ⟨hz, hs, ht⟩ := hseg c (by simp)
    rcases h₂ with h | h | h
    · exact hs h
    · exact hz h
    · exact absurd h (by simpa [charAt] using ht)

/-- A segment that is a name, with its slash. -/
theorem coalesceLoop_segment {seg y : NsCString} (hseg : IsSegment seg) (hy : Ends y)
    (hdot : seg = [dot] → charAt y 0 ≠ slash) (hdots : seg ≠ [dot, dot]) (h2 : special ≠ 2)
    (s : Coalescing) : ∃ s', coalesceLoop flags special s 0 (slash :: (seg ++ y)) =
      coalesceLoop flags special s' 0 y ∧ s'.out = seg.reverse ++ slash :: s.out ∧
        s'.traversal = s.traversal + if seg.head? = some dot then 0 else 1 := by
  obtain ⟨s', hs', hout, hcount⟩ := @coalesceLoop_copy flags special seg hseg
    ((s.count special slash (charAt (seg ++ y) 0)).copy slash) y
  have hnext : charAt (seg ++ y) 0 ≠ dot ↔ ¬ seg.head? = some dot := by
    cases seg with
    | nil => exact iff_of_true hy.ne_dot (by simp)
    | cons a seg => simp [charAt]
  refine ⟨s', ?_, ?_, ?_⟩
  · rw [coalesceLoop_cons, if_neg (by decide), if_neg (fun h => ne_dot_slash hseg hy hdot h.2),
      if_neg (fun h => ne_dot_dot hseg hy hdots h.2), hs']
  · rw [hout, Coalescing.out_copy, Coalescing.count]
    split_ifs <;> rfl
  · rw [hcount]
    change (s.count special slash (charAt (seg ++ y) 0)).traversal = _
    rw [Coalescing.count]
    by_cases hd : seg.head? = some dot
    · rw [if_neg (fun h => hnext.mp h.2.1 hd), if_pos hd]
      simp
    · rw [if_pos ⟨rfl, hnext.mpr hd, .inl h2⟩, if_neg hd]

theorem Rooted.special_ne (hr : Rooted retain special base) : special ≠ 2 := by
  rcases hr.root with ⟨-, rfl, -⟩ | ⟨-, rfl, -⟩ <;> decide

theorem Ends.tail {t : NsCString} (ht : t = [] ∨ isTail (charAt t 0) = true) : Ends t :=
  ht.imp_right .inr

namespace Walk

variable {seg : NsCString} {segs : List NsCString}

theorem isSegment_step (hw : ∀ seg ∈ w.stack, IsSegment seg) (hseg : IsSegment seg) :
    ∀ seg' ∈ (w.step retain seg).stack, IsSegment seg' := by
  have hcons : ∀ seg' ∈ seg :: w.stack, IsSegment seg' := by
    intro seg' h
    rcases List.mem_cons.mp h with rfl | h
    · exact hseg
    · exact hw seg' h
  rw [step]
  split_ifs
  · exact hw
  · exact fun seg' h => hw seg' (List.mem_of_mem_tail h)
  · exact hcons
  · exact hcons

theorem traversal_step_le : (w.step retain seg).traversal ≤ w.traversal + 1 := by
  rw [step]
  split_ifs
  · omega
  · change w.traversal - 1 ≤ w.traversal + 1
    omega
  · change w.traversal ≤ w.traversal + 1
    omega
  · rw [push]
    dsimp only
    split_ifs <;> omega

theorem isSegment_run (hsegs : ∀ seg ∈ segs, IsSegment seg)
    (hw : ∀ seg ∈ w.stack, IsSegment seg) :
    ∀ seg ∈ (segs.foldl (step retain) w).stack, IsSegment seg := by
  induction segs generalizing w with
  | nil => exact hw
  | cons seg segs ih =>
    exact ih (fun s hs => hsegs s (by simp [hs])) (isSegment_step hw (hsegs seg (by simp)))

theorem traversal_run_le :
    (segs.foldl (step retain) w).traversal ≤ w.traversal + segs.length := by
  induction segs generalizing w with
  | nil => exact Nat.le_refl _
  | cons seg segs ih =>
    have h₁ := @ih (w.step retain seg)
    have h₂ := @traversal_step_le retain w seg
    simp only [List.foldl_cons, List.length_cons] at h₁ ⊢
    omega

end Walk

/-- A name is written behind what a walk has written. -/
theorem Laid.segment (hr : Rooted flags.allowRelativeRoot special base)
    (hl : Laid flags.allowRelativeRoot base w s)
    (hcount : flags.allowRelativeRoot = true → w.traversal + 1 < 2 ^ 32)
    {seg y : NsCString} (hseg : IsSegment seg) (hy : Ends y)
    (hdot : seg = [dot] → charAt y 0 ≠ slash) (hdots : seg ≠ [dot, dot]) :
    ∃ s', coalesceLoop flags special s 0 (slash :: (seg ++ y)) =
      coalesceLoop flags special s' 0 y ∧ Laid flags.allowRelativeRoot base (w.push seg) s' := by
  obtain ⟨s', hs', hout, htrav⟩ := @coalesceLoop_segment flags special seg y hseg hy hdot hdots
    hr.special_ne s
  refine ⟨s', hs', hl.push hout fun hret => ?_⟩
  have := hcount hret
  rw [htrav, UInt32.toNat_add, hl.traversal hret, Walk.push]
  dsimp only
  split_ifs
  · change (w.traversal + 0) % 2 ^ 32 = w.traversal + 0
    omega
  · change (w.traversal + 1) % 2 ^ 32 = w.traversal + 1
    omega

/-- Whether a segment is taken away is seen from the counter. -/
theorem Laid.pops (hl : Laid flags.allowRelativeRoot base w s) :
    (0 < s.traversal ∨ (!flags.allowRelativeRoot) = true) ↔
      (!flags.allowRelativeRoot || decide (0 < w.traversal)) = true := by
  cases hret : flags.allowRelativeRoot with
  | false => simp
  | true =>
    rw [← hl.traversal hret, UInt32.lt_iff_toNat_lt]
    simp

theorem Laid.above (hr : Rooted flags.allowRelativeRoot special base)
    (hl : Laid flags.allowRelativeRoot base w s) (hstack : ∀ seg ∈ w.stack, IsSegment seg)
    {y : NsCString} (hy : Ends y) :
    ∃ s', coalesceLoop flags special s 0 (slash :: dot :: dot :: y) =
      coalesceLoop flags special s' 0 y ∧
        Laid flags.allowRelativeRoot base
          (if !flags.allowRelativeRoot || 0 < w.traversal then
            if y = [] then w.pop.keep [] else w.pop
          else w.keep [dot, dot]) s' := by
  by_cases hpop : (!flags.allowRelativeRoot || decide (0 < w.traversal)) = true
  · refine ⟨s.up special (decide (y = [])), ?_, ?_⟩
    · rw [coalesceLoop_above s hy, if_pos (hl.pops.mpr hpop)]
    · rw [if_pos hpop]
      have h := hl.up hr hstack (fun hret => by simpa [hret] using hpop) (decide (y = []))
      simpa using h
  · refine ⟨s.keep special, ?_, ?_⟩
    · rw [coalesceLoop_above s hy, if_neg (mt hl.pops.mp hpop)]
    · rw [if_neg hpop]
      rcases hr.root with ⟨hret, -, -⟩ | ⟨hret, rfl, rfl⟩
      · exact absurd (by simp [hret]) hpop
      · rw [hret] at hl ⊢
        exact hl.keep

/-- The second pass over a segment that another one follows. -/
theorem Laid.step (hr : Rooted flags.allowRelativeRoot special base)
    (hl : Laid flags.allowRelativeRoot base w s) (hstack : ∀ seg ∈ w.stack, IsSegment seg)
    (hcount : flags.allowRelativeRoot = true → w.traversal + 1 < 2 ^ 32) {seg : NsCString}
    (hseg : IsSegment seg) (y : NsCString) :
    ∃ s', coalesceLoop flags special s 0 (slash :: (seg ++ slash :: y)) =
      coalesceLoop flags special s' 0 (slash :: y) ∧
        Laid flags.allowRelativeRoot base (w.step flags.allowRelativeRoot seg) s' := by
  have hy : Ends (slash :: y) := .inr (.inl rfl)
  rw [Walk.step]
  by_cases hdot : seg = [dot]
  · subst hdot
    rw [if_pos rfl]
    exact ⟨_, coalesceLoop_here s y, hl.here⟩
  rw [if_neg hdot]
  by_cases hdots : seg = [dot, dot]
  · subst hdots
    rw [if_pos rfl]
    obtain ⟨s', hs', hl'⟩ := hl.above hr hstack hy
    exact ⟨s', hs', by simpa using hl'⟩
  · rw [if_neg hdots]
    exact hl.segment hr hcount hseg hy (fun h => absurd h hdot) hdots

/-- The second pass ends at a query or a reference, or with the path. -/
theorem coalesceLoop_tail {t : NsCString} (ht : t = [] ∨ isTail (charAt t 0) = true)
    (s : Coalescing) : coalesceLoop flags special s 0 t = (s, t) := by
  cases t with
  | nil => rfl
  | cons c t =>
    have hc : isTail c = true := ht.resolve_left (List.cons_ne_nil _ _)
    rw [coalesceLoop_cons, if_pos hc]

/-- The second pass over the last segment. -/
theorem Laid.close (hr : Rooted flags.allowRelativeRoot special base)
    (hl : Laid flags.allowRelativeRoot base w s) (hstack : ∀ seg ∈ w.stack, IsSegment seg)
    (hcount : flags.allowRelativeRoot = true → w.traversal + 1 < 2 ^ 32) {seg t : NsCString}
    (hseg : IsSegment seg) (ht : t = [] ∨ isTail (charAt t 0) = true) :
    ∃ s', coalesceLoop flags special s 0 (slash :: (seg ++ t)) = (s', t) ∧
      Laid flags.allowRelativeRoot base
        (w.close flags.allowRelativeRoot seg (decide (t = []))) s' := by
  have hnot : charAt t 0 ≠ slash := by
    rcases ht with rfl | ht
    · decide
    · intro hs
      exact absurd ht (by rw [hs]; decide)
  rw [Walk.close]
  by_cases hdots : seg = [dot, dot]
  · subst hdots
    rw [if_pos rfl]
    obtain ⟨s', hs', hl'⟩ := hl.above hr hstack (Ends.tail ht)
    exact ⟨s', hs'.trans (coalesceLoop_tail ht s'), by simpa using hl'⟩
  · rw [if_neg hdots]
    obtain ⟨s', hs', hl'⟩ := hl.segment hr hcount hseg (Ends.tail ht) (fun _ => hnot) hdots
    exact ⟨s', hs'.trans (coalesceLoop_tail ht s'), hl'⟩

theorem Laid.run (hr : Rooted flags.allowRelativeRoot special base) {segs : List NsCString}
    (hsegs : ∀ seg ∈ segs, IsSegment seg) (hl : Laid flags.allowRelativeRoot base w s)
    (hstack : ∀ seg ∈ w.stack, IsSegment seg)
    (hcount : flags.allowRelativeRoot = true → w.traversal + segs.length < 2 ^ 32)
    (y : NsCString) :
    ∃ s', coalesceLoop flags special s 0 (join segs ++ slash :: y) =
      coalesceLoop flags special s' 0 (slash :: y) ∧
        Laid flags.allowRelativeRoot base
          (segs.foldl (Walk.step flags.allowRelativeRoot) w) s' := by
  induction segs generalizing w s with
  | nil => exact ⟨s, rfl, hl⟩
  | cons seg segs ih =>
    have hseg := hsegs seg (by simp)
    have hnext : ∃ z, join segs ++ slash :: y = slash :: z := by
      cases segs with
      | nil => exact ⟨y, rfl⟩
      | cons seg' segs => exact ⟨_, rfl⟩
    obtain ⟨z, hz⟩ := hnext
    rw [List.length_cons] at hcount
    obtain ⟨s₁, hs₁, hl₁⟩ := hl.step hr hstack (fun hret => by have := hcount hret; omega) hseg z
    have hle := @Walk.traversal_step_le flags.allowRelativeRoot w seg
    obtain ⟨s', hs', hl'⟩ := ih (fun s hs => hsegs s (by simp [hs])) hl₁
      (Walk.isSegment_step hstack hseg) (fun hret => by have := hcount hret; omega)
    refine ⟨s', ?_, hl'⟩
    rw [join_cons, List.cons_append, List.append_assoc, hz, hs₁, ← hz, hs']

/-! ### The parts of a path -/

/-- A path is its segments, the last one apart, and what follows from the first query mark or
reference mark on. -/
structure Segmented (path : NsCString) (segs : List NsCString) (last t : NsCString) : Prop where
  eq : path = join segs ++ slash :: (last ++ t)
  segs : ∀ seg ∈ segs, IsSegment seg
  last : IsSegment last
  tail : t = [] ∨ isTail (charAt t 0) = true

theorem exists_join {front : NsCString} (h : ∀ c ∈ front, c ≠ 0 ∧ isTail c = false) :
    ∃ segs last, slash :: front = join segs ++ slash :: last ∧ (∀ seg ∈ segs, IsSegment seg) ∧
      IsSegment last := by
  induction front with
  | nil => exact ⟨[], [], rfl, by simp, by simp [IsSegment]⟩
  | cons c front ih =>
    obtain ⟨segs, last, heq, hsegs, hlast⟩ := ih fun d hd => h d (by simp [hd])
    by_cases hc : c = slash
    · refine ⟨[] :: segs, last, ?_, ?_, hlast⟩
      · rw [hc, heq]
        rfl
      · intro seg hseg
        rcases List.mem_cons.mp hseg with rfl | hseg
        · simp [IsSegment]
        · exact hsegs seg hseg
    · have hcons {seg : NsCString} (hseg : IsSegment seg) : IsSegment (c :: seg) := by
        intro d hd
        rcases List.mem_cons.mp hd with rfl | hd
        · exact ⟨(h d (by simp)).1, hc, (h d (by simp)).2⟩
        · exact hseg d hd
      cases segs with
      | nil =>
        obtain rfl : front = last := (List.cons.inj heq).2
        exact ⟨[], c :: front, rfl, by simp, hcons hlast⟩
      | cons seg segs =>
        rw [join_cons, List.cons_append, List.cons.injEq] at heq
        refine ⟨(c :: seg) :: segs, last, by rw [heq.2]; rfl, ?_, hlast⟩
        intro seg' hseg'
        rcases List.mem_cons.mp hseg' with rfl | hseg'
        · exact hcons (hsegs seg (by simp))
        · exact hsegs seg' (by simp [hseg'])

theorem exists_segmented {path : NsCString} (hpath : charAt path 0 = slash)
    (hnul : ∀ c ∈ path, c ≠ 0) : ∃ segs last t, Segmented path segs last t := by
  cases path with
  | nil => exact absurd hpath (by decide)
  | cons c path =>
    obtain rfl : c = slash := hpath
    obtain ⟨segs, last, heq, hsegs, hlast⟩ := @exists_join (path.takeWhile (!isTail ·))
      fun d hd => ⟨hnul d (List.mem_cons_of_mem _ (List.takeWhile_subset _ hd)),
        by simpa using List.mem_takeWhile_imp hd⟩
    refine ⟨segs, last, path.dropWhile (!isTail ·), ?_, hsegs, hlast, ?_⟩
    · have hcut := List.takeWhile_append_dropWhile (p := (!isTail ·)) (l := path)
      conv_lhs => rw [← hcut, ← List.cons_append, heq, List.append_assoc, List.cons_append]
    · cases hd : path.dropWhile (!isTail ·) with
      | nil => exact .inl rfl
      | cons d rest =>
        have h := List.head_dropWhile_not (!isTail ·) (l := path) (by simp [hd])
        simp only [hd, List.head_cons] at h
        exact .inr (by simpa [charAt] using h)

theorem isSegment_decodeDots {seg : NsCString} (h : IsSegment seg) :
    IsSegment (decodeDots seg) := by
  intro c hc
  rcases mem_decodeDots hc with rfl | hc
  · decide
  · exact h c hc

theorem isTail_join {segs : List NsCString} (h : ∀ seg ∈ segs, IsSegment seg) :
    ∀ c ∈ join segs, isTail c = false := by
  intro c hc
  obtain ⟨seg, hseg, hc⟩ := List.mem_flatMap.mp hc
  rcases List.mem_cons.mp hc with rfl | hc
  · rfl
  · exact (h seg hseg c hc).2.2

variable {path last t : NsCString} {segs : List NsCString}

theorem Segmented.decoded (h : Segmented path segs last t) :
    decoded path = join (segs.map decodeDots) ++ slash :: (last ++ t) := by
  rw [Net.decoded, h.eq, beforeLastSlash_append (isTail_join h.segs) (fun c hc => (h.last c hc).2)
    h.tail, List.drop_left, decodeDots_join]

/-- A trailing dot is looked for behind the last slash only, or in what follows. -/
theorem removeTrailingDot_segment {x : NsCString} {c : UInt8} (hlast : IsSegment last)
    (hc : c ≠ dot) (hne : last = [dot] → c ≠ slash) :
    removeTrailingDot (x ++ c :: last) = x ++ c :: last := by
  refine if_neg ?_
  rintro ⟨z, hz⟩
  rw [show z ++ [slash, dot] = (z ++ [slash]) ++ [dot] by simp] at hz
  rcases last.eq_nil_or_concat' with rfl | ⟨l, d, rfl⟩
  · exact hc (List.singleton_inj.mp (List.append_inj' hz rfl).2).symm
  · rw [← List.cons_append, ← List.append_assoc] at hz
    obtain ⟨hz, hd⟩ := List.append_inj' hz rfl
    rcases l.eq_nil_or_concat' with rfl | ⟨l, e, rfl⟩
    · exact hne hd.symm (List.singleton_inj.mp (List.append_inj' hz rfl).2).symm
    · rw [← List.cons_append, ← List.append_assoc] at hz
      have he := (List.append_inj' hz rfl).2
      exact (hlast e (by simp)).2.1 (List.singleton_inj.mp he).symm

theorem removeTrailingDot_tail {x : NsCString} (hne : t ≠ [])
    (ht : isTail (charAt t 0) = true) :
    removeTrailingDot (x ++ t) = x ++ removeTrailingDot t := by
  have hiff : [slash, dot] <:+ x ++ t ↔ [slash, dot] <:+ t := by
    refine ⟨fun h => ?_, fun h => h.trans (List.suffix_append _ _)⟩
    by_cases hlen : 2 ≤ t.length
    · exact List.suffix_of_suffix_length_le h (List.suffix_append _ _) hlen
    · obtain ⟨c, rfl⟩ := List.length_eq_one_iff.mp
        (by have := List.length_pos_of_ne_nil hne; omega : t.length = 1)
      obtain ⟨z, hz⟩ := h
      rw [show z ++ [slash, dot] = (z ++ [slash]) ++ [dot] by simp] at hz
      have hc := (List.append_inj' hz rfl).2
      obtain rfl : dot = c := List.singleton_inj.mp hc
      exact absurd ht (by decide)
  rw [removeTrailingDot, removeTrailingDot]
  by_cases h : [slash, dot] <:+ t
  · rw [if_pos (hiff.mpr h), if_pos h, List.dropLast_append_of_ne_nil hne]
  · rw [if_neg (mt hiff.mp h), if_neg h]

/-! ### Normal mode -/

theorem written_reverse (stack : List NsCString) :
    (written [] slash stack).reverse = join stack.reverse := by
  induction stack with
  | nil => rfl
  | cons seg stack ih =>
    rw [written, ite_self, List.reverse_append, List.reverse_reverse, List.reverse_cons, ih,
      List.reverse_cons, join_append, join_cons, join_nil, List.append_nil, List.append_assoc]
    rfl

namespace Walk

theorem stack_step (w : Walk) (seg : NsCString) :
    (w.step false seg).stack = dotNames.step false w.stack seg := by
  rw [step, dotNames_step]
  by_cases hdot : seg = [dot]
  · rw [if_pos hdot, if_pos hdot]
  rw [if_neg hdot, if_neg hdot]
  by_cases hdots : seg = [dot, dot]
  · rw [if_pos hdots, if_pos hdots]
    rfl
  · rw [if_neg hdots, if_neg hdots]
    rfl

theorem stack_run (w : Walk) (segs : List NsCString) :
    (segs.foldl (step false) w).stack = segs.foldl (dotNames.step false) w.stack := by
  induction segs generalizing w with
  | nil => rfl
  | cons seg segs ih => rw [List.foldl_cons, ih, stack_step, List.foldl_cons]

/-- Only a dot at the end is still there, and it goes in the end. -/
theorem stack_close (w : Walk) {seg : NsCString} {atEnd : Bool}
    (h : atEnd = false → seg ≠ [dot] ∧ seg ≠ [dot, dot]) :
    (w.close false seg atEnd).stack =
      if seg = [dot] then [dot] :: w.stack else dotNames.close false w.stack seg := by
  rw [close, dotNames_close]
  by_cases hdots : seg = [dot, dot]
  · cases atEnd with
    | false => exact absurd hdots (h rfl).2
    | true =>
      subst hdots
      rfl
  · rw [if_neg hdots]
    by_cases hdot : seg = [dot]
    · rw [if_pos hdot, hdot]
      rfl
    · rw [if_neg hdot, if_neg hdot, if_neg hdots]
      rfl

end Walk

/-- Behind a name, or behind a slash, no dot is removed. -/
theorem removeTrailingDot_close {stack : List NsCString} (hlast : IsSegment last)
    (hne : last ≠ [dot]) :
    removeTrailingDot (join (dotNames.close false stack last).reverse) =
      join (dotNames.close false stack last).reverse := by
  have htop : ∃ top below, dotNames.close false stack last = top :: below ∧ IsSegment top ∧
      top ≠ [dot] := by
    rw [dotNames_close, if_neg hne]
    by_cases hdots : last = [dot, dot]
    · rw [if_pos hdots]
      exact ⟨[], _, rfl, by simp [IsSegment], by decide⟩
    · rw [if_neg hdots]
      exact ⟨last, _, rfl, hlast, hne⟩
  obtain ⟨top, below, heq, hseg, htop⟩ := htop
  have hjoin : join (top :: below).reverse = join below.reverse ++ slash :: top := by
    rw [List.reverse_cons, join_append, join_cons, join_nil, List.append_nil]
  rw [heq, hjoin, removeTrailingDot_segment hseg (by decide) (fun h => absurd h htop)]

theorem removeTrailingDot_join (stack : List NsCString) :
    removeTrailingDot (join ([dot] :: stack).reverse) = join ([] :: stack).reverse := by
  have hdot : join ([dot] :: stack).reverse = (join stack.reverse ++ [slash]) ++ [dot] := by
    rw [List.reverse_cons, join_append, List.append_assoc]
    rfl
  rw [hdot, removeTrailingDot, if_pos ⟨join stack.reverse, by simp⟩, List.dropLast_concat,
    List.reverse_cons, join_append]
  rfl

/-- In normal mode a path is reduced to its names, if the last segment before a query or a
reference is a name and no slash and dot come last there. -/
theorem net_CoalesceDirs_parts (h : Segmented path segs last t)
    (hends : t ≠ [] → last ≠ [dot] ∧ last ≠ [dot, dot] ∧ ¬ [slash, dot] <:+ t) :
    net_CoalesceDirs NET_COALESCE_NORMAL path =
      join (dotNames.reduce false (segs.map decodeDots) last) ++ t := by
  have hr : Rooted NET_COALESCE_NORMAL.allowRelativeRoot 0 [] := ⟨.inl ⟨rfl, rfl, rfl⟩⟩
  have hsegs : ∀ seg ∈ segs.map decodeDots, IsSegment seg := by
    intro seg hseg
    obtain ⟨seg, hmem, rfl⟩ := List.mem_map.mp hseg
    exact isSegment_decodeDots (h.segs seg hmem)
  have hl : Laid NET_COALESCE_NORMAL.allowRelativeRoot [] ⟨slash, [], 0⟩ ⟨[], [], 0⟩ :=
    ⟨rfl, fun _ => rfl, fun _ => rfl, fun hret => absurd hret (by decide)⟩
  obtain ⟨s₁, hs₁, hl₁⟩ := hl.run hr hsegs (by simp) (fun hret => absurd hret (by decide))
    (last ++ t)
  obtain ⟨s', hs', hl'⟩ := hl₁.close hr (Walk.isSegment_run hsegs (by simp))
    (fun hret => absurd hret (by decide)) h.last h.tail
  set w := (segs.map decodeDots).foldl (Walk.step NET_COALESCE_NORMAL.allowRelativeRoot)
    ⟨slash, [], 0⟩ with hw
  have hstack : w.stack = (segs.map decodeDots).foldl (dotNames.step false) [] :=
    Walk.stack_run ⟨slash, [], 0⟩ _
  have hout : s'.out.reverse =
      join (w.close NET_COALESCE_NORMAL.allowRelativeRoot last
        (decide (t = []))).stack.reverse := by
    rw [hl'.out, hl'.first rfl, written_reverse]
  have hresult : net_CoalesceDirs NET_COALESCE_NORMAL path =
      removeTrailingDot (s'.out.reverse ++ t) := by
    have hspecial : specialFtpLen NET_COALESCE_NORMAL path = 0 := rfl
    rw [net_CoalesceDirs, hspecial, h.decoded, hs₁, hs']
  have hclose := @Walk.stack_close w last (decide (t = [])) fun hd =>
    ⟨(hends (by simpa using hd)).1, (hends (by simpa using hd)).2.1⟩
  rw [hresult, hout, Lib.DotNames.reduce, ← hstack]
  change removeTrailingDot (join (w.close false last (decide (t = []))).stack.reverse ++ t) = _
  rw [hclose]
  cases t with
  | nil =>
    rw [List.append_nil, List.append_nil]
    by_cases hdot : last = [dot]
    · rw [if_pos hdot, removeTrailingDot_join, hdot]
      rfl
    · rw [if_neg hdot, removeTrailingDot_close h.last hdot]
  | cons c t =>
    obtain ⟨hdot, -, hcut⟩ := hends (List.cons_ne_nil _ _)
    rw [if_neg hdot, removeTrailingDot_tail (List.cons_ne_nil _ _)
      (h.tail.resolve_left (List.cons_ne_nil _ _)), removeTrailingDot, if_neg hcut]

theorem charAt_join {stack : List NsCString} (h : stack ≠ []) :
    charAt (join stack ++ t) 0 = slash := by
  cases stack with
  | nil => exact absurd rfl h
  | cons seg stack => rfl

/-- A path that begins with a slash has its parts, and is reduced to its names with what follows
left as it is. Escaped dots in front of the last slash are dots. -/
theorem net_CoalesceDirs_normal (hpath : charAt path 0 = slash) (hnul : ∀ c ∈ path, c ≠ 0) :
    (∃ segs last t, Segmented path segs last t) ∧ ∀ segs last t, Segmented path segs last t →
      (t ≠ [] → last ≠ [dot] ∧ last ≠ [dot, dot] ∧ ¬ [slash, dot] <:+ t) →
      net_CoalesceDirs NET_COALESCE_NORMAL path =
          join (dotNames.reduce false (segs.map decodeDots) last) ++ t ∧
        charAt (net_CoalesceDirs NET_COALESCE_NORMAL path) 0 = slash := by
  refine ⟨exists_segmented hpath hnul, fun segs last t h hends => ?_⟩
  rw [net_CoalesceDirs_parts h hends]
  exact ⟨rfl, charAt_join (Lib.DotNames.reduce_ne_nil _ _ _ _)⟩

/-- `/a/../b?c` becomes `/b?c`. -/
theorem net_CoalesceDirs_normal_sample :
    net_CoalesceDirs NET_COALESCE_NORMAL [47, 97, 47, 46, 46, 47, 98, 63, 99] =
      [47, 98, 63, 99] := by
  have h := (@net_CoalesceDirs_normal [47, 97, 47, 46, 46, 47, 98, 63, 99] rfl
    (by simp)).2 [[97], [46, 46]] [98] [63, 99] ⟨rfl, by decide, by decide, .inr rfl⟩
    (fun _ => by decide)
  exact h.1

/-- An escaped dot in a name is changed too. Before a query the slash of the last directory goes,
and a dot at the end of a query. -/
theorem net_CoalesceDirs_escaped :
    net_CoalesceDirs NET_COALESCE_NORMAL [47, 97, 37, 50, 69, 98, 47, 99] =
        [47, 97, 46, 98, 47, 99] ∧
      join (dotNames.reduce false [[97, 37, 50, 69, 98]] [99]) =
        [47, 97, 37, 50, 69, 98, 47, 99] ∧
      net_CoalesceDirs NET_COALESCE_NORMAL [47, 97, 47, 46, 46, 63, 113] = [63, 113] ∧
      net_CoalesceDirs NET_COALESCE_NORMAL [47, 97, 63, 98, 47, 46] = [47, 97, 63, 98, 47] := by
  decide

/-- What is left are names, above the root too. -/
theorem net_CoalesceDirs_names (h : Segmented path segs last t)
    (hends : t ≠ [] → last ≠ [dot] ∧ last ≠ [dot, dot] ∧ ¬ [slash, dot] <:+ t) :
    ∃ names, net_CoalesceDirs NET_COALESCE_NORMAL path = join names ++ t ∧
      ∀ seg ∈ names, IsSegment seg ∧ seg ≠ [dot] ∧ seg ≠ [dot, dot] := by
  refine ⟨_, net_CoalesceDirs_parts h hends, dotNames.forall_reduce ?_ h.last (by decide)⟩
  exact List.forall_mem_map.mpr fun seg hseg => isSegment_decodeDots (h.segs seg hseg)

theorem net_CoalesceDirs_names_sample :
    ∃ names, net_CoalesceDirs NET_COALESCE_NORMAL [47, 46, 46, 47, 37, 50, 69, 46, 47, 98] =
        join names ++ [] ∧
      ∀ seg ∈ names, IsSegment seg ∧ seg ≠ [dot] ∧ seg ≠ [dot, dot] :=
  @net_CoalesceDirs_names _ [98] _ [[46, 46], [37, 50, 69, 46]]
    ⟨by decide, by decide, by decide, .inl rfl⟩ (by simp)

end Kompozer.Net

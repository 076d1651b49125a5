import Kompozer.Net.DotSegments

/-! The marker `/%2F` of a root directory under the flags for `ftp`. The segments behind it are
walked with a counter that tells whether one can be taken away; when the walk comes back to the
root, the slash of the next segment is written over the last character of the marker. -/

namespace Kompozer.Net

/-- What is written of the marker at the root, innermost first. -/
abbrev rootBase : NsCString := [50, 37, slash]

def marker (f : UInt8) : NsCString := [slash, 37, 50, f]

/-- `F` or `f`. -/
def IsF (f : UInt8) : Prop := f = 70 ∨ f = 102

/-- A path behind the marker is its segments, the last one apart, and what follows from the first
query mark or reference mark on. -/
structure Marked (path : NsCString) (f : UInt8) (segs : List NsCString) (last t : NsCString) :
    Prop where
  isF : IsF f
  eq : ∃ rest, path = marker f ++ rest ∧ Segmented (slash :: rest) segs last t

/-- What is said of the rest: it is reduced with the marker as the root. -/
def markedResult (f : UInt8) (segs : List NsCString) (last t : NsCString) : NsCString :=
  marker f ++ (join (dotNames.reduce true (segs.map decodeDots) last)).tail ++ t

/-! ### The walk behind the marker -/

namespace Walk

/-- The last segment, with the dot at the end removed. -/
def finish (w : Walk) (seg : NsCString) (atEnd : Bool) : Walk :=
  if seg = [dot] ∧ atEnd then w.push [] else w.close true seg atEnd

/-- The first segment stands behind the marker without a slash of its own. -/
def behindMarker (f : UInt8) (segs : List NsCString) (last : NsCString) (atEnd : Bool) : Walk :=
  match segs with
  | [] => ⟨f, [last], 1⟩
  | seg :: segs => (segs.foldl (step true) ⟨f, [seg], 1⟩).finish last atEnd

end Walk

theorem IsF.facts {f : UInt8} (h : IsF f) :
    f ≠ 0 ∧ f ≠ slash ∧ f ≠ dot ∧ f ≠ 37 ∧ isTail f = false := by
  rcases h with rfl | rfl <;> decide

theorem IsF.special {f : UInt8} (h : IsF f) (rest : NsCString) :
    specialFtpLen NET_COALESCE_FTP (marker f ++ rest) = 4 := by
  rcases h with rfl | rfl <;> rfl

theorem isSegment_marker {f : UInt8} (h : IsF f) {seg : NsCString} (hseg : IsSegment seg) :
    IsSegment (37 :: 50 :: f :: seg) := by
  obtain ⟨hz, hs, -, -, ht⟩ := h.facts
  intro c hc
  simp only [List.mem_cons] at hc
  rcases hc with rfl | rfl | rfl | hc
  · decide
  · decide
  · exact ⟨hz, hs, ht⟩
  · exact hseg c hc

theorem decodeDots_marker {f : UInt8} (h : IsF f) (seg : NsCString) :
    decodeDots (37 :: 50 :: f :: seg) = 37 :: 50 :: f :: decodeDots seg := by
  have hp : f ≠ percent := h.facts.2.2.2.1
  have hE : ¬ (some f = some (69 : UInt8) ∨ some f = some 101) := by
    rcases h with rfl | rfl <;> decide
  rw [decodeDots_cons (fun h => hE h.2.2), decodeDots_cons (fun h => absurd h.1 (by decide)),
    decodeDots_cons (fun h => hp h.1)]

variable {f : UInt8} {s : Coalescing} {seg : NsCString}

/-- The marker is copied with the first segment. -/
theorem laid_marker (hf : IsF f) (hseg : IsSegment seg) {y : NsCString} (hy : Ends y) :
    ∃ s, coalesceLoop NET_COALESCE_FTP 4 ⟨[], [], 0⟩ 0 (slash :: ((37 :: 50 :: f :: seg) ++ y)) =
      coalesceLoop NET_COALESCE_FTP 4 s 0 y ∧ Laid true rootBase ⟨f, [seg], 1⟩ s := by
  obtain ⟨s, hs, hout, hcount⟩ := @coalesceLoop_segment NET_COALESCE_FTP 4
    (37 :: 50 :: f :: seg) y (isSegment_marker hf hseg) hy (fun h => absurd h (by simp))
    (by simp) (by decide) ⟨[], [], 0⟩
  refine ⟨s, hs, ?_, fun h => absurd h (by simp), fun h => absurd h (by decide), fun _ => ?_⟩
  · rw [hout]
    simp [written]
  · rw [hcount]
    rfl

namespace Walk

/-- What a walk has written. -/
def text (w : Walk) : NsCString := (written rootBase w.first w.stack).reverse

theorem text_push (w : Walk) (seg : NsCString) : (w.push seg).text = w.text ++ slash :: seg := by
  rw [text, text, push]
  by_cases h : w.stack = []
  · simp [written, h]
  · simp [written, h]

theorem text_keep (w : Walk) (seg : NsCString) :
    (w.keep seg).text = w.text ++ (if w.stack = [] then w.first else slash) :: seg := by
  simp [text, keep, written]

/-- A dot that goes in the end. -/
theorem removeTrailingDot_text (w : Walk) (hfirst : w.first ≠ dot) (hseg : IsSegment seg)
    {t : NsCString} (ht : t = [] ∨ isTail (charAt t 0) = true) :
    removeTrailingDot ((w.close true seg (decide (t = []))).text ++ t) =
      (w.finish seg (decide (t = []))).text ++ removeTrailingDot t := by
  have hsep {stack : List NsCString} : (if stack = [] then w.first else slash) ≠ dot := by
    split_ifs
    · exact hfirst
    · decide
  cases t with
  | cons c t =>
    rw [finish, if_neg (by simp), removeTrailingDot_tail (List.cons_ne_nil _ _)
      (ht.resolve_left (List.cons_ne_nil _ _))]
  | nil =>
    have hnil : removeTrailingDot [] = [] := rfl
    rw [hnil, List.append_nil, List.append_nil]
    by_cases hdots : seg = [dot, dot]
    · subst hdots
      have hfinish : w.finish [dot, dot] (decide (([] : NsCString) = [])) =
          w.close true [dot, dot] (decide (([] : NsCString) = [])) :=
        if_neg fun h => absurd h.1 (by decide)
      have hclose : w.close true [dot, dot] (decide (([] : NsCString) = [])) =
          if 0 < w.traversal then w.pop.keep [] else w.keep [dot, dot] := by
        simp [close]
      rw [hfinish, hclose]
      split_ifs
      · rw [text_keep]
        exact removeTrailingDot_segment (by simp [IsSegment]) hsep (by simp)
      · rw [text_keep]
        exact removeTrailingDot_segment hseg hsep (by simp)
    · rw [finish, close, if_neg hdots]
      by_cases hdot : seg = [dot]
      · have hcut : w.text ++ slash :: [dot] = (w.text ++ [slash]) ++ [dot] := by simp
        rw [if_pos ⟨hdot, rfl⟩, hdot, text_push, text_push, removeTrailingDot,
          if_pos ⟨w.text, rfl⟩, hcut, List.dropLast_concat]
      · rw [if_neg (fun h => hdot h.1), text_push,
          removeTrailingDot_segment hseg (by decide) (fun h => absurd h hdot)]

theorem first_run (segs : List NsCString) (w : Walk) :
    (segs.foldl (step true) w).first = w.first ∨ (segs.foldl (step true) w).first = slash := by
  induction segs generalizing w with
  | nil => exact .inl rfl
  | cons seg segs ih =>
    have hstep : (w.step true seg).first = w.first ∨ (w.step true seg).first = slash := by
      rw [step]
      split_ifs
      · exact .inl rfl
      · exact .inl rfl
      · exact .inl rfl
      · by_cases hnil : w.stack = []
        · exact .inr (if_pos hnil)
        · exact .inl (if_neg hnil)
    rcases ih (w.step true seg) with h | h
    · exact hstep.imp h.trans h.trans
    · exact .inr h

end Walk

theorem length_join (segs : List NsCString) : segs.length ≤ (join segs).length := by
  induction segs with
  | nil => exact Nat.le_refl _
  | cons seg segs ih =>
    rw [join_cons, List.length_cons, List.length_cons, List.length_append]
    omega

variable {path last t : NsCString} {segs : List NsCString}

/-- Under the flags for `ftp` the result is what the walk behind the marker has written. -/
theorem net_CoalesceDirs_marked (h : Marked path f segs last t) (hlen : path.length < 2 ^ 32) :
    net_CoalesceDirs NET_COALESCE_FTP path =
      (Walk.behindMarker f (segs.map decodeDots) last (decide (t = []))).text ++
        removeTrailingDot t := by
  obtain ⟨rest, rfl, hparts⟩ := h.eq
  have hr : Rooted NET_COALESCE_FTP.allowRelativeRoot 4 rootBase := ⟨.inr ⟨rfl, rfl, rfl⟩⟩
  have hmarker : marker f = [slash, 37, 50, f] := rfl
  rw [net_CoalesceDirs, h.isF.special]
  cases segs with
  | nil =>
    have hrest : rest = last ++ t := (List.cons.inj hparts.eq).2
    have hpath : Segmented (marker f ++ rest) [] (37 :: 50 :: f :: last) t :=
      ⟨by rw [hrest]; rfl, by simp, isSegment_marker h.isF hparts.last, hparts.tail⟩
    have hdecoded : decoded (marker f ++ rest) = slash :: ((37 :: 50 :: f :: last) ++ t) :=
      hpath.decoded
    obtain ⟨s, hs, hl⟩ := laid_marker h.isF hparts.last (Ends.tail hparts.tail)
    have hout : s.out.reverse = (⟨f, [last], 1⟩ : Walk).text := congrArg List.reverse hl.out
    have hlast : (⟨f, [last], 1⟩ : Walk).text = [slash, 37, 50] ++ f :: last := by
      simp [Walk.text, written]
    rw [hdecoded, hs, coalesceLoop_tail hparts.tail, hout]
    change removeTrailingDot ((⟨f, [last], 1⟩ : Walk).text ++ t) =
      (⟨f, [last], 1⟩ : Walk).text ++ removeTrailingDot t
    by_cases hne : t = []
    · have hnil : removeTrailingDot [] = [] := rfl
      rw [hne, hnil, List.append_nil, hlast, removeTrailingDot_segment hparts.last
        h.isF.facts.2.2.1 (fun _ => h.isF.facts.2.1)]
    · rw [removeTrailingDot_tail hne (hparts.tail.resolve_left hne)]
  | cons seg segs =>
    have hrest : rest = seg ++ (join segs ++ slash :: (last ++ t)) := by
      rw [(List.cons.inj (by simpa using hparts.eq : slash :: rest =
        slash :: (seg ++ (join segs ++ slash :: (last ++ t))))).2]
    have hseg := hparts.segs seg (by simp)
    have hsegs : ∀ seg ∈ segs.map decodeDots, IsSegment seg := by
      intro seg' hmem
      obtain ⟨seg', hin, rfl⟩ := List.mem_map.mp hmem
      exact isSegment_decodeDots (hparts.segs seg' (List.mem_cons_of_mem _ hin))
    have hpath : Segmented (marker f ++ rest) ((37 :: 50 :: f :: seg) :: segs) last t := by
      refine ⟨by simp [hrest, marker], ?_, hparts.last, hparts.tail⟩
      intro seg' hmem
      rcases List.mem_cons.mp hmem with rfl | hmem
      · exact isSegment_marker h.isF hseg
      · exact hparts.segs seg' (by simp [hmem])
    have hdecoded : decoded (marker f ++ rest) = slash :: ((37 :: 50 :: f :: decodeDots seg) ++
        (join (segs.map decodeDots) ++ slash :: (last ++ t))) := by
      rw [hpath.decoded, List.map_cons, decodeDots_marker h.isF, join_cons, List.cons_append,
        List.append_assoc]
    have hcount : 1 + (segs.map decodeDots).length + 1 < 2 ^ 32 := by
      have := length_join segs
      rw [hrest] at hlen
      simp only [hmarker, List.length_append, List.length_cons, List.length_nil,
        List.length_map] at hlen ⊢
      omega
    have hends : Ends (join (segs.map decodeDots) ++ slash :: (last ++ t)) := by
      refine .inr (.inl ?_)
      cases segs <;> rfl
    obtain ⟨s, hs, hl⟩ := laid_marker h.isF (isSegment_decodeDots hseg) hends
    have hstack : ∀ seg' ∈ (⟨f, [decodeDots seg], 1⟩ : Walk).stack, IsSegment seg' := by
      intro seg' hmem
      rw [List.mem_singleton.mp hmem]
      exact isSegment_decodeDots hseg
    obtain ⟨s₁, hs₁, hl₁⟩ := Laid.run hr hsegs hl hstack
      (fun _ => Nat.lt_of_succ_lt hcount) (last ++ t)
    have hle := @Walk.traversal_run_le true ⟨f, [decodeDots seg], 1⟩ (segs.map decodeDots)
    obtain ⟨s', hs', hl'⟩ := Laid.close hr hl₁ (Walk.isSegment_run hsegs hstack)
      (fun _ => Nat.lt_of_le_of_lt (Nat.succ_le_succ hle) hcount) hparts.last hparts.tail
    have hfirst : ((segs.map decodeDots).foldl (Walk.step true) ⟨f, [decodeDots seg], 1⟩).first ≠
        dot := by
      rcases Walk.first_run (segs.map decodeDots) ⟨f, [decodeDots seg], 1⟩ with hf | hf
      · rw [hf]
        exact h.isF.facts.2.2.1
      · rw [hf]
        decide
    rw [hdecoded, hs, hs₁, hs', congrArg List.reverse hl'.out]
    exact Walk.removeTrailingDot_text _ hfirst hparts.last hparts.tail

/-! ### The two results compared -/

theorem join_eq_cons {segs : List NsCString} (h : segs ≠ []) :
    join segs = slash :: (join segs).tail := by
  cases segs with
  | nil => exact absurd rfl h
  | cons seg segs => rfl

theorem written_root {first : UInt8} {stack : List NsCString} (h : stack ≠ []) :
    (written rootBase first stack).reverse = marker first ++ (join stack.reverse).tail := by
  induction stack with
  | nil => exact absurd rfl h
  | cons seg stack ih =>
    rw [written]
    by_cases hs : stack = []
    · subst hs
      simp [written, marker, join]
    · have hne : join stack.reverse ≠ [] := by
        rw [join_eq_cons (mt List.reverse_eq_nil_iff.mp hs)]
        exact List.cons_ne_nil _ _
      rw [if_neg hs, List.reverse_append, List.reverse_reverse, List.reverse_cons, ih hs,
        List.reverse_cons, join_append, List.tail_append_of_ne_nil hne, join_cons, join_nil]
      simp

/-- The texts of two stacks are the same only if the stacks and the characters in front are. -/
theorem written_inj {first : UInt8} {A B : List NsCString} (hA : ∀ seg ∈ A, IsSegment seg)
    (hB : ∀ seg ∈ B, IsSegment seg) (hne : B ≠ [])
    (h : (written rootBase first A).reverse = (written rootBase f B).reverse) :
    first = f ∧ A = B := by
  rw [written_root hne] at h
  by_cases hnil : A = []
  · subst hnil
    have := congrArg List.length h
    simp [written, marker] at this
  · rw [written_root hnil] at h
    obtain ⟨hfirst, htail⟩ := List.append_inj h rfl
    refine ⟨by simpa [marker] using hfirst, ?_⟩
    have hjoin : join A.reverse = join B.reverse := by
      rw [join_eq_cons (mt List.reverse_eq_nil_iff.mp hnil),
        join_eq_cons (mt List.reverse_eq_nil_iff.mp hne), htail]
    have hfree {C : List NsCString} (hC : ∀ seg ∈ C, IsSegment seg) :
        ∀ seg ∈ C.reverse, slash ∉ seg :=
      fun seg hseg hs => (hC seg (List.mem_reverse.mp hseg) slash hs).2.1 rfl
    exact List.reverse_injective (Lib.flatMap_cons_inj (hfree hA) (hfree hB) hjoin)

theorem isTail_written {first : UInt8} {stack : List NsCString} (hfirst : isTail first = false)
    (h : ∀ seg ∈ stack, IsSegment seg) : ∀ c ∈ written rootBase first stack, isTail c = false := by
  induction stack with
  | nil =>
    have hbase : isTail 50 = false ∧ isTail 37 = false ∧ isTail slash = false := by decide
    simpa [written, rootBase] using hbase
  | cons seg stack ih =>
    intro c hc
    rw [written, List.mem_append, List.mem_cons] at hc
    rcases hc with hc | rfl | hc
    · exact (h seg (by simp) c (List.mem_reverse.mp hc)).2.2
    · split_ifs
      · exact hfirst
      · rfl
    · exact ih (fun seg hseg => h seg (by simp [hseg])) c hc

theorem removeTrailingDot_eq_self : removeTrailingDot t = t ↔ ¬ [slash, dot] <:+ t := by
  refine ⟨fun h hcut => ?_, fun h => if_neg h⟩
  rw [removeTrailingDot, if_pos hcut] at h
  have hlen := congrArg List.length h
  have := hcut.length_le
  simp only [List.length_dropLast, List.length_cons, List.length_nil] at hlen this
  omega

theorem isTail_head (ht : t = [] ∨ isTail (charAt t 0) = true) :
    ∀ c ∈ t.head?, isTail c = true := by
  intro c hc
  cases t with
  | nil => exact absurd hc (by simp)
  | cons d t =>
    obtain rfl : d = c := Option.some.inj hc
    exact ht.resolve_left (List.cons_ne_nil _ _)

theorem head_removeTrailingDot (ht : t = [] ∨ isTail (charAt t 0) = true) :
    ∀ c ∈ (removeTrailingDot t).head?, isTail c = true := by
  intro c hc
  have hpre : removeTrailingDot t <+: t := by
    rw [removeTrailingDot]
    split_ifs
    · exact List.dropLast_prefix t
    · exact List.prefix_refl t
  obtain ⟨z, hz⟩ := hpre
  refine isTail_head ht c ?_
  rw [← hz]
  cases hr : removeTrailingDot t with
  | nil => rw [hr] at hc; exact absurd hc (by simp)
  | cons d r => rw [hr] at hc; exact hc

theorem text_eq_iff {first : UInt8} {A B : List NsCString} (hfirst : isTail first = false)
    (hf : IsF f) (hA : ∀ seg ∈ A, IsSegment seg) (hB : ∀ seg ∈ B, IsSegment seg) (hne : B ≠ [])
    (ht : t = [] ∨ isTail (charAt t 0) = true) :
    (written rootBase first A).reverse ++ removeTrailingDot t =
        (written rootBase f B).reverse ++ t ↔
      (first = f ∧ A = B) ∧ ¬ [slash, dot] <:+ t := by
  constructor
  · intro h
    have htext {g : UInt8} {C : List NsCString} (hg : isTail g = false)
        (hC : ∀ seg ∈ C, IsSegment seg) :
        ∀ c ∈ (written rootBase g C).reverse, ¬ isTail c = true := by
      intro c hc
      rw [isTail_written hg hC c (List.mem_reverse.mp hc)]
      decide
    obtain ⟨hwritten, htail⟩ := Lib.append_inj_of_first (htext hfirst hA)
      (htext hf.facts.2.2.2.2 hB) (head_removeTrailingDot ht) (isTail_head ht) h
    exact ⟨written_inj hA hB hne hwritten, removeTrailingDot_eq_self.mp htail⟩
  · rintro ⟨⟨rfl, rfl⟩, hcut⟩
    rw [removeTrailingDot_eq_self.mpr hcut]

/-! ### When the walk is the reduction -/

/-- The name of the directory above. -/
abbrev dots : NsCString := [dot, dot]

/-- The last segment is taken in as it should: a name or a dot is not at the root, a dot stands at
the end of the path, and so does the name of the directory above where a segment is taken away. -/
def CloseKeeps (stack : List NsCString) (named : ℕ) (last : NsCString) (atEnd : Bool) : Prop :=
  if last = [dot] then stack ≠ [] ∧ atEnd = true
  else if last = dots then
    if dotNames.canPop stack then 0 < named ∧ atEnd = true else named = 0
  else stack ≠ []

/-- Behind the segments in force: a name is not at the root, and for the name of the directory
above the counter is positive exactly if there is a segment to take away. It counts the first
segment, and of the others those that begin with no dot. -/
def RunKeeps (last : NsCString) (atEnd : Bool) :
    List NsCString → ℕ → List NsCString → Prop
  | stack, named, [] => CloseKeeps stack named last atEnd
  | stack, named, seg :: segs =>
    if seg = [dot] then RunKeeps last atEnd stack named segs
    else if seg = dots then
      if dotNames.canPop stack then 0 < named ∧ RunKeeps last atEnd stack.tail (named - 1) segs
      else named = 0 ∧ RunKeeps last atEnd (seg :: stack) named segs
    else stack ≠ [] ∧
      RunKeeps last atEnd (seg :: stack) (named + if seg.head? = some dot then 0 else 1) segs

/-- The condition on the segments behind the marker and on what follows. -/
def MarkerKeeps (segs : List NsCString) (last t : NsCString) : Prop :=
  (match segs with
    | [] => last ≠ [dot]
    | seg :: segs => seg ≠ [dot] ∧ RunKeeps last (decide (t = [])) [seg] 1 segs) ∧
  ¬ [slash, dot] <:+ t

theorem canPop_cons {top : NsCString} {below : List NsCString} (h : top ≠ dots) :
    dotNames.canPop (top :: below) = true := by
  have h' : ¬ some top = some dotNames.above := fun hc => h (Option.some.inj hc)
  simp [Lib.DotNames.canPop, h']

theorem exists_top {stack : List NsCString} (h : dotNames.canPop stack = true) :
    ∃ top below, stack = top :: below ∧ top ≠ dots := by
  cases stack with
  | nil => exact absurd h (by decide)
  | cons top below =>
    refine ⟨top, below, rfl, fun hd => ?_⟩
    subst hd
    exact absurd h (by simp [Lib.DotNames.canPop, dotNames])

namespace Walk

variable {w : Walk} {atEnd : Bool}

theorem step_pop (h : 0 < w.traversal) : w.step true dots = w.pop := by
  simp [step, h]

theorem step_keep (h : w.traversal = 0) : w.step true dots = w.keep dots := by
  simp [step, h]

theorem step_push (hdot : seg ≠ [dot]) (hdots : seg ≠ dots) : w.step true seg = w.push seg := by
  rw [step, if_neg hdot, if_neg hdots]

theorem first_push (h : w.stack ≠ []) : (w.push seg).first = w.first := if_neg h

end Walk

theorem step_dots (stack : List NsCString) : dotNames.step true stack dots =
    if dotNames.canPop stack = true then stack.tail else dots :: stack := rfl

theorem step_name {stack : List NsCString} (hdot : seg ≠ [dot]) (hdots : seg ≠ dots) :
    dotNames.step true stack seg = seg :: stack := by
  rw [dotNames_step, if_neg hdot, if_neg hdots]

theorem close_dots (stack : List NsCString) : dotNames.close true stack dots =
    if dotNames.canPop stack = true then [] :: stack.tail else dots :: stack := rfl

theorem close_name {stack : List NsCString} (hdot : seg ≠ [dot]) (hdots : seg ≠ dots) :
    dotNames.close true stack seg = seg :: stack := by
  rw [dotNames_close, if_neg hdot, if_neg hdots]

namespace Walk

variable {w : Walk} {atEnd : Bool}

theorem finish_pop (h : 0 < w.traversal) :
    w.finish dots atEnd = if atEnd then w.pop.keep [] else w.pop := by
  simp [finish, close, h]

theorem finish_keep (h : w.traversal = 0) : w.finish dots atEnd = w.keep dots := by
  simp [finish, close, h]

theorem finish_name (hdot : seg ≠ [dot]) (hdots : seg ≠ dots) :
    w.finish seg atEnd = w.push seg := by
  rw [finish, if_neg (fun h => hdot h.1), close, if_neg hdots]

/-- The walk ends with the stack of the reduction, and the marker as it was. -/
def Agrees (w : Walk) (f : UInt8) (S : List NsCString) (last : NsCString) (atEnd : Bool) : Prop :=
  (w.finish last atEnd).first = f ∧ (w.finish last atEnd).stack = dotNames.close true S last

theorem agrees_of_closeKeeps (h : CloseKeeps w.stack w.traversal last atEnd) :
    w.Agrees w.first w.stack last atEnd := by
  rw [CloseKeeps] at h
  by_cases hdot : last = [dot]
  · subst hdot
    rw [if_pos rfl] at h
    obtain ⟨hne, rfl⟩ := h
    exact ⟨first_push hne, rfl⟩
  rw [if_neg hdot] at h
  by_cases hdots : last = dots
  · subst hdots
    rw [if_pos rfl] at h
    rw [Agrees, close_dots]
    split_ifs at h ⊢ with hpop
    · obtain ⟨hpos, rfl⟩ := h
      rw [finish_pop hpos]
      exact ⟨rfl, rfl⟩
    · rw [finish_keep h]
      exact ⟨rfl, rfl⟩
  · rw [if_neg hdots] at h
    rw [Agrees, close_name hdot hdots, finish_name hdot hdots]
    exact ⟨first_push h, rfl⟩

theorem agrees_of_runKeeps (h : RunKeeps last atEnd w.stack w.traversal segs) :
    (segs.foldl (step true) w).Agrees w.first (segs.foldl (dotNames.step true) w.stack) last
      atEnd := by
  induction segs generalizing w with
  | nil => exact agrees_of_closeKeeps h
  | cons seg segs ih =>
    rw [List.foldl_cons, List.foldl_cons]
    rw [RunKeeps] at h
    by_cases hdot : seg = [dot]
    · subst hdot
      exact ih h
    rw [if_neg hdot] at h
    by_cases hdots : seg = dots
    · subst hdots
      rw [if_pos rfl] at h
      rw [step_dots]
      split_ifs at h ⊢ with hpop
      · rw [step_pop h.1]
        exact ih (w := w.pop) h.2
      · rw [step_keep h.1]
        exact ih (w := w.keep dots) h.2
    · rw [if_neg hdots] at h
      rw [step_name hdot hdots, step_push hdot hdots]
      have hpush := ih (w := w.push seg) h.2
      rwa [first_push h.1] at hpush

end Walk

/-! ### When it is not -/

/-- The names of a stack. -/
def named (stack : List NsCString) : ℕ := stack.countP (· ≠ dots)

@[simp] theorem named_dots (stack : List NsCString) : named (dots :: stack) = named stack := by
  simp [named]

theorem named_cons (h : seg ≠ dots) (stack : List NsCString) :
    named (seg :: stack) = named stack + 1 := by
  simp [named, h]

theorem named_append (A B : List NsCString) : named (A ++ B) = named A + named B :=
  List.countP_append

/-- A stack has more names than another, or as many and fewer directories above. -/
def Ahead (X Y : List NsCString) : Prop :=
  named Y < named X ∨ (named Y = named X ∧ X.count dots < Y.count dots)

theorem Ahead.ne {X Y : List NsCString} (h : Ahead X Y) : X ≠ Y := by
  rintro rfl
  rcases h with h | ⟨-, h⟩ <;> exact Nat.lt_irrefl _ h

theorem Ahead.named_le {X Y : List NsCString} (h : Ahead X Y) : named Y ≤ named X := by
  rcases h with h | ⟨h, -⟩
  · exact Nat.le_of_lt h
  · exact Nat.le_of_eq h

theorem Ahead.dots {X Y : List NsCString} (h : Ahead X Y) : Ahead (dots :: X) (dots :: Y) := by
  rcases h with h | ⟨h, hd⟩
  · exact .inl (by simpa using h)
  · exact .inr ⟨by simpa using h, by simpa using hd⟩

/-- The walk has gone wrong: the last character of the marker is lost, or what the walk has
written and what is in force differ below the segments that both have written since, which are as
many as the counter says. -/
inductive Off (w : Walk) (S : List NsCString) : Prop
  | lost (h : w.first = slash)
  | parted (C X Y : List NsCString) (hw : w.stack = C ++ X) (hS : S = C ++ Y) (hC : dots ∉ C)
    (hXY : Ahead X Y) (hX : X.head? ≠ some [])
    (hn : w.traversal ≤ C.length ∨ (w.traversal ≤ C.length + 1 ∧ X = [[dot]] ∧ Y = []))

namespace Off

variable {w : Walk} {S : List NsCString} {atEnd : Bool}

/-- A name goes on both stacks, or over the last character of the marker. -/
theorem push (h : Off w S) (hseg : seg ≠ dots) : Off (w.push seg) (seg :: S) := by
  cases h with
  | lost h => exact .lost (by rw [Walk.push]; dsimp only; rw [h, ite_self])
  | parted C X Y hw hS hC hXY hX hn =>
    by_cases hnil : w.stack = []
    · exact .lost (if_pos hnil)
    · have hle : (w.push seg).traversal ≤ w.traversal + 1 := by
        rw [Walk.push]
        dsimp only
        split_ifs <;> omega
      refine .parted (seg :: C) X Y (by rw [List.cons_append, ← hw]; rfl)
        (by rw [List.cons_append, ← hS]) ?_ hXY hX ?_
      · intro hmem
        rcases List.mem_cons.mp hmem with h | h
        · exact hseg h.symm
        · exact hC h
      · rw [List.length_cons]
        rcases hn with hn | ⟨hn, hX, hY⟩
        · exact .inl (by omega)
        · exact .inr ⟨by omega, hX, hY⟩

/-- The walk retains the name of the directory above. -/
theorem keep (h : Off w S) (hz : w.traversal = 0) :
    Off (w.keep dots) (dotNames.step true S dots) := by
  rw [step_dots]
  cases h with
  | lost h => exact .lost h
  | parted C X Y hw hS hC hXY hX hn =>
    have hle := hXY.named_le
    cases C with
    | nil =>
      rw [List.nil_append] at hw hS
      subst hS
      refine .parted [] (dots :: X) _ (by rw [List.nil_append, ← hw]; rfl)
        (List.nil_append _).symm (by simp) ?_ (by simp) (.inl (Nat.le_of_eq hz))
      split_ifs with hpop
      · obtain ⟨top, below, rfl, htop⟩ := exists_top hpop
        rw [named_cons htop] at hle
        exact .inl (by rw [named_dots, List.tail_cons]; omega)
      · exact hXY.dots
    | cons c C =>
      have hc : c ≠ dots := fun h => hC (by simp [h])
      subst hS
      rw [List.cons_append, if_pos (canPop_cons hc), List.tail_cons]
      refine .parted [] (dots :: ((c :: C) ++ X)) (C ++ Y) (by rw [List.nil_append, ← hw]; rfl)
        (List.nil_append _).symm (by simp) (.inl ?_) (by simp) (.inl (Nat.le_of_eq hz))
      rw [named_dots, named_append, named_append, named_cons hc]
      omega

/-- The walk takes a segment away. -/
theorem pop (h : Off w S) (hpos : 0 < w.traversal) :
    Off w.pop (dotNames.step true S dots) := by
  rw [step_dots]
  cases h with
  | lost h => exact .lost h
  | parted C X Y hw hS hC hXY hX hn =>
    cases C with
    | nil =>
      -- only a single dot behind the marker is counted that is not in force
      obtain ⟨hn, rfl, rfl⟩ := hn.resolve_left (by simp; omega)
      rw [List.nil_append] at hw hS
      subst hS
      refine .parted [] [] [dots] (by simp [Walk.pop, hw]) rfl (by simp) (.inr ⟨?_, by simp⟩)
        (by simp) (.inl ?_)
      · simp [named]
      · simp only [Walk.pop, List.length_nil] at hn ⊢
        omega
    | cons c C =>
      have hc : c ≠ dots := fun h => hC (by simp [h])
      subst hS
      rw [List.cons_append, if_pos (canPop_cons hc), List.tail_cons]
      refine .parted C X Y (by simp [Walk.pop, hw]) rfl (fun h => hC (by simp [h])) hXY hX ?_
      simp only [Walk.pop, List.length_cons] at hn ⊢
      rcases hn with hn | ⟨hn, h⟩
      · exact .inl (by omega)
      · exact .inr ⟨by omega, h⟩

theorem step (h : Off w S) (seg : NsCString) :
    Off (w.step true seg) (dotNames.step true S seg) := by
  by_cases hdot : seg = [dot]
  · subst hdot
    exact h
  by_cases hdots : seg = dots
  · subst hdots
    rcases Nat.eq_zero_or_pos w.traversal with hz | hpos
    · rw [Walk.step_keep hz]
      exact h.keep hz
    · rw [Walk.step_pop hpos]
      exact h.pop hpos
  · rw [Walk.step_push hdot hdots, step_name hdot hdots]
    exact h.push hdots

theorem run (h : Off w S) (segs : List NsCString) :
    Off (segs.foldl (Walk.step true) w) (segs.foldl (dotNames.step true) S) := by
  induction segs generalizing w S with
  | nil => exact h
  | cons seg segs ih => exact ih (h.step seg)

end Off

theorem head_of_shifted {c : NsCString} {C X Y : List NsCString}
    (h : C ++ X = c :: (C ++ Y)) : X.head? = some c := by
  induction C generalizing c with
  | nil => rw [show X = c :: Y from h, List.head?_cons]
  | cons a C ih =>
    obtain ⟨rfl, hrest⟩ := List.cons.inj h
    exact ih hrest

namespace Off

variable {w : Walk} {S : List NsCString} {atEnd : Bool}

theorem stack_ne (h : Off w S) (hfirst : w.first ≠ slash) : w.stack ≠ S := by
  cases h with
  | lost h => exact absurd h hfirst
  | parted C X Y hw hS hC hXY hX hn =>
    intro heq
    rw [hw, hS] at heq
    exact hXY.ne (List.append_cancel_left heq)

theorem push_ne (h : Off w S) (hf : f ≠ slash) :
    ¬ ((w.push seg).first = f ∧ (w.push seg).stack = seg :: S) := by
  rintro ⟨hfirst, hstack⟩
  refine h.stack_ne (fun hs => hf ?_) (List.cons.inj hstack).2
  rw [← hfirst, Walk.push]
  dsimp only
  rw [hs, ite_self]

/-- A walk that has gone wrong does not end with the stack of the reduction. -/
theorem not_agrees (h : Off w S) (hf : f ≠ slash) (last : NsCString) (atEnd : Bool) :
    ¬ w.Agrees f S last atEnd := by
  rw [Walk.Agrees]
  by_cases hdot : last = [dot]
  · subst hdot
    cases atEnd with
    | true => exact h.push_ne hf
    | false =>
      rintro ⟨-, hstack⟩
      exact absurd (List.cons.inj hstack).1 (by decide)
  by_cases hdots : last = dots
  swap
  · rw [Walk.finish_name hdot hdots, close_name hdot hdots]
    exact h.push_ne hf
  subst hdots
  rw [close_dots]
  rcases Nat.eq_zero_or_pos w.traversal with hz | hpos
  · rw [Walk.finish_keep hz]
    rintro ⟨hfirst, hstack⟩
    change dots :: w.stack = _ at hstack
    split_ifs at hstack
    · exact absurd (List.cons.inj hstack).1 (by decide)
    · exact h.stack_ne (fun hs => hf (hfirst.symm.trans hs)) (List.cons.inj hstack).2
  · rw [Walk.finish_pop hpos]
    rintro ⟨hfirst, hstack⟩
    have hnot : w.first ≠ slash := by
      intro hs
      refine hf (hfirst.symm.trans ?_)
      split_ifs <;> exact hs
    cases h with
    | lost h => exact hnot h
    | parted C X Y hw hS hC hXY hX hn =>
      cases C with
      | nil =>
        obtain ⟨-, rfl, rfl⟩ := hn.resolve_left (by simp; omega)
        rw [hS, List.nil_append] at hstack
        cases atEnd with
        | true => exact absurd (List.cons.inj hstack).1 (by decide)
        | false =>
          rw [if_neg (by decide)] at hstack
          simp [Walk.pop, hw, Lib.DotNames.canPop] at hstack
      | cons c C =>
        have hc : c ≠ dots := fun h => hC (by simp [h])
        rw [hS, List.cons_append, if_pos (canPop_cons hc), List.tail_cons] at hstack
        cases atEnd with
        | true =>
          have heq : [] :: w.stack.tail = [] :: (C ++ Y) := hstack
          rw [hw, List.cons_append, List.tail_cons] at heq
          exact hXY.ne (List.append_cancel_left (List.cons.inj heq).2)
        | false =>
          have heq : w.stack.tail = [] :: (C ++ Y) := hstack
          rw [hw, List.cons_append, List.tail_cons] at heq
          exact hX (head_of_shifted heq)

end Off

/-- While the walk follows the reduction, the counter is at most one above the segments that can
be taken away. -/
def Counted (stack : List NsCString) (named : ℕ) : Prop :=
  ∃ C K, stack = C ++ K ∧ dots ∉ C ∧ (∀ seg ∈ K, seg = dots) ∧ named ≤ C.length + 1

theorem Counted.push {stack : List NsCString} {named k : ℕ} (h : Counted stack named)
    (hseg : seg ≠ dots) (hk : k ≤ named + 1) : Counted (seg :: stack) k := by
  obtain ⟨C, K, rfl, hC, hK, hle⟩ := h
  refine ⟨seg :: C, K, rfl, ?_, hK, by rw [List.length_cons]; omega⟩
  intro hmem
  rcases List.mem_cons.mp hmem with h | h
  · exact hseg h.symm
  · exact hC h

theorem Counted.pop {stack : List NsCString} {named : ℕ} (h : Counted stack named)
    (hpop : dotNames.canPop stack = true) : Counted stack.tail (named - 1) := by
  obtain ⟨C, K, rfl, hC, hK, hle⟩ := h
  obtain ⟨top, below, heq, htop⟩ := exists_top hpop
  cases C with
  | nil => exact absurd (hK top (by rw [show K = top :: below from heq]; simp)) htop
  | cons c C =>
    refine ⟨C, K, rfl, fun h => hC (by simp [h]), hK, ?_⟩
    rw [List.length_cons] at hle
    omega

/-- Where nothing can be taken away, only directories above are in force. -/
theorem Counted.stuck {stack : List NsCString} {named : ℕ} (h : Counted stack named)
    (hpop : ¬ dotNames.canPop stack = true) : (∀ seg ∈ stack, seg = dots) ∧ named ≤ 1 := by
  obtain ⟨C, K, rfl, hC, hK, hle⟩ := h
  cases C with
  | nil => exact ⟨hK, hle⟩
  | cons c C => exact absurd (canPop_cons fun h => hC (by simp [h])) hpop

namespace Walk

variable {w : Walk} {atEnd : Bool}

/-- At the end the condition is needed. -/
theorem not_agrees_of_close (hf : w.first ≠ slash)
    (h : ¬ CloseKeeps w.stack w.traversal last atEnd) : ¬ w.Agrees w.first w.stack last atEnd := by
  have hroot {seg : NsCString} (hnil : w.stack = []) : (w.push seg).first ≠ w.first := by
    rw [push]
    dsimp only
    rw [if_pos hnil]
    exact hf.symm
  rw [CloseKeeps] at h
  rw [Agrees]
  rintro ⟨hfirst, hstack⟩
  by_cases hdot : last = [dot]
  · subst hdot
    rw [if_pos rfl] at h
    cases atEnd with
    | true => exact h ⟨fun hnil => hroot hnil hfirst, rfl⟩
    | false => exact absurd (List.cons.inj hstack).1 (by decide)
  rw [if_neg hdot] at h
  by_cases hdots : last = dots
  swap
  · rw [if_neg hdots] at h
    rw [finish_name hdot hdots] at hfirst
    exact hroot (not_not.mp h) hfirst
  subst hdots
  rw [if_pos rfl] at h
  rw [close_dots] at hstack
  rcases Nat.eq_zero_or_pos w.traversal with hz | hpos
  · rw [finish_keep hz] at hstack
    split_ifs at h hstack with hpop
    · exact absurd (List.cons.inj hstack).1 (by decide)
    · exact h hz
  · rw [finish_pop hpos] at hstack
    have hlen (seg : NsCString) (stack : List NsCString) : stack.tail ≠ seg :: stack := by
      intro heq
      have := congrArg List.length heq
      rw [List.length_tail, List.length_cons] at this
      omega
    split_ifs at h hstack with hpop hend hend
    · exact h ⟨hpos, hend⟩
    · have heq := congrArg List.length hstack
      simp [pop] at heq
    · exact absurd (List.cons.inj hstack).1 (by decide)
    · exact hlen dots w.stack hstack

theorem off_of_stuck (h : Counted w.stack w.traversal) (hpos : 0 < w.traversal)
    (hpop : ¬ dotNames.canPop w.stack = true) : Off w.pop (dots :: w.stack) := by
  obtain ⟨hall, hle⟩ := h.stuck hpop
  have hnamed {stack : List NsCString} (h : ∀ seg ∈ stack, seg = dots) : named stack = 0 :=
    List.countP_eq_zero.mpr fun seg hseg => by simp [h seg hseg]
  have htail : ∀ seg ∈ w.stack.tail, seg = dots :=
    fun seg hseg => hall seg (List.mem_of_mem_tail hseg)
  refine .parted [] w.stack.tail (dots :: w.stack) rfl rfl (by simp) (.inr ⟨?_, ?_⟩) ?_ (.inl ?_)
  · rw [named_dots, hnamed hall, hnamed htail]
  · rw [List.count_cons_self]
    exact Nat.lt_succ_of_le ((List.tail_sublist _).count_le _)
  · intro hhead
    exact absurd (htail [] (List.mem_of_mem_head? hhead)) (by decide)
  · change w.traversal - 1 ≤ 0
    omega

theorem off_of_uncounted (hz : w.traversal = 0) (hpop : dotNames.canPop w.stack = true) :
    Off (w.keep dots) w.stack.tail := by
  obtain ⟨top, below, heq, htop⟩ := exists_top hpop
  refine .parted [] (dots :: w.stack) w.stack.tail rfl rfl (by simp) (.inl ?_) (by simp)
    (.inl (Nat.le_of_eq hz))
  rw [named_dots, heq, named_cons htop, List.tail_cons]
  omega

/-- The condition is needed at each segment. -/
theorem not_agrees_of_run (hf : w.first ≠ slash) (hc : Counted w.stack w.traversal)
    (h : ¬ RunKeeps last atEnd w.stack w.traversal segs) :
    ¬ (segs.foldl (step true) w).Agrees w.first (segs.foldl (dotNames.step true) w.stack) last
      atEnd := by
  induction segs generalizing w with
  | nil => exact not_agrees_of_close hf h
  | cons seg segs ih =>
    rw [List.foldl_cons, List.foldl_cons]
    rw [RunKeeps] at h
    by_cases hdot : seg = [dot]
    · subst hdot
      exact ih hf hc h
    rw [if_neg hdot] at h
    by_cases hdots : seg = dots
    · subst hdots
      rw [if_pos rfl] at h
      rw [step_dots]
      rcases Nat.eq_zero_or_pos w.traversal with hz | hpos
      · rw [step_keep hz]
        split_ifs at h ⊢ with hpop
        · exact ((off_of_uncounted hz hpop).run segs).not_agrees hf last atEnd
        · obtain ⟨hall, -⟩ := hc.stuck hpop
          refine ih (w := w.keep dots) hf ⟨[], dots :: w.stack, rfl, by simp, ?_, ?_⟩
            fun hrun => h ⟨hz, hrun⟩
          · intro seg hseg
            rcases List.mem_cons.mp hseg with hseg | hseg
            · exact hseg
            · exact hall seg hseg
          · change w.traversal ≤ 1
            omega
      · rw [step_pop hpos]
        split_ifs at h ⊢ with hpop
        · exact ih (w := w.pop) hf (hc.pop hpop) fun hrun => h ⟨hpos, hrun⟩
        · exact ((off_of_stuck hc hpos hpop).run segs).not_agrees hf last atEnd
    · rw [if_neg hdots] at h
      rw [step_name hdot hdots, step_push hdot hdots]
      by_cases hnil : w.stack = []
      · have hlost : (w.push seg).first = slash := if_pos hnil
        exact ((Off.lost hlost).run segs).not_agrees hf last atEnd
      · have hpush := ih (w := w.push seg) (by rwa [first_push hnil])
          (hc.push hdots (by rw [push]; dsimp only; split_ifs <;> omega))
          fun hrun => h ⟨hnil, hrun⟩
        rwa [first_push hnil] at hpush

theorem agrees_iff (hf : w.first ≠ slash) (hc : Counted w.stack w.traversal) :
    (segs.foldl (step true) w).Agrees w.first (segs.foldl (dotNames.step true) w.stack) last
      atEnd ↔ RunKeeps last atEnd w.stack w.traversal segs :=
  ⟨fun h => by_contra fun hn => not_agrees_of_run hf hc hn h, agrees_of_runKeeps⟩

end Walk

/-! ### The marker and the rest of the path -/

theorem isSegment_nil : IsSegment [] := by
  simp [IsSegment]

theorem isSegment_cons {top : NsCString} {below : List NsCString} (htop : IsSegment top)
    (h : ∀ seg ∈ below, IsSegment seg) : ∀ seg ∈ top :: below, IsSegment seg := by
  intro seg hseg
  rcases List.mem_cons.mp hseg with rfl | hseg
  · exact htop
  · exact h seg hseg

theorem isSegment_tail {stack : List NsCString} (h : ∀ seg ∈ stack, IsSegment seg) :
    ∀ seg ∈ stack.tail, IsSegment seg := fun seg hseg => h seg (List.mem_of_mem_tail hseg)

theorem isSegment_reduction {S : List NsCString} (hS : ∀ seg ∈ S, IsSegment seg)
    (hsegs : ∀ seg ∈ segs, IsSegment seg) :
    ∀ seg ∈ segs.foldl (dotNames.step true) S, IsSegment seg := by
  induction segs generalizing S with
  | nil => exact hS
  | cons seg segs ih =>
    refine ih ?_ fun s hs => hsegs s (by simp [hs])
    rw [dotNames_step]
    split_ifs
    · exact hS
    · exact isSegment_tail hS
    · exact isSegment_cons (hsegs seg (by simp)) hS
    · exact isSegment_cons (hsegs seg (by simp)) hS

theorem isSegment_close {S : List NsCString} (hS : ∀ seg ∈ S, IsSegment seg)
    (hlast : IsSegment last) : ∀ seg ∈ dotNames.close true S last, IsSegment seg := by
  rw [dotNames_close]
  split_ifs
  · exact isSegment_cons isSegment_nil hS
  · exact isSegment_cons isSegment_nil (isSegment_tail hS)
  · exact isSegment_cons hlast hS
  · exact isSegment_cons hlast hS

theorem Walk.isSegment_finish {w : Walk} (hw : ∀ seg ∈ w.stack, IsSegment seg)
    (hlast : IsSegment last) (atEnd : Bool) :
    ∀ seg ∈ (w.finish last atEnd).stack, IsSegment seg := by
  rw [finish, close]
  split_ifs
  · exact isSegment_cons isSegment_nil hw
  · exact isSegment_cons isSegment_nil (isSegment_tail hw)
  · exact isSegment_tail hw
  · exact isSegment_cons hlast hw
  · exact isSegment_cons hlast hw

theorem Walk.first_finish (w : Walk) (seg : NsCString) (atEnd : Bool) :
    (w.finish seg atEnd).first = w.first ∨ (w.finish seg atEnd).first = slash := by
  have hpush (seg : NsCString) : (w.push seg).first = w.first ∨ (w.push seg).first = slash := by
    by_cases hnil : w.stack = []
    · exact .inr (if_pos hnil)
    · exact .inl (if_neg hnil)
  rw [finish, close]
  split_ifs
  · exact hpush []
  · exact .inl rfl
  · exact .inl rfl
  · exact .inl rfl
  · exact hpush seg

theorem behindMarker_segments (hf : IsF f) (hsegs : ∀ seg ∈ segs, IsSegment seg)
    (hlast : IsSegment last) (atEnd : Bool) :
    isTail (Walk.behindMarker f segs last atEnd).first = false ∧
      ∀ seg ∈ (Walk.behindMarker f segs last atEnd).stack, IsSegment seg := by
  have hnone : ∀ seg ∈ ([] : List NsCString), IsSegment seg := by simp
  cases segs with
  | nil => exact ⟨hf.facts.2.2.2.2, isSegment_cons hlast hnone⟩
  | cons seg segs =>
    have hfirst : (Walk.behindMarker f (seg :: segs) last atEnd).first = f ∨
        (Walk.behindMarker f (seg :: segs) last atEnd).first = slash := by
      rcases Walk.first_finish (segs.foldl (Walk.step true) ⟨f, [seg], 1⟩) last atEnd with h | h
      · exact (Walk.first_run segs ⟨f, [seg], 1⟩).imp h.trans h.trans
      · exact .inr h
    constructor
    · rcases hfirst with h | h
      · rw [h]
        exact hf.facts.2.2.2.2
      · rw [h]
        rfl
    · exact Walk.isSegment_finish (Walk.isSegment_run (fun s hs => hsegs s (by simp [hs]))
        (isSegment_cons (hsegs seg (by simp)) hnone)) hlast atEnd

/-- The stack that the reduction ends with. -/
theorem markedResult_eq (segs : List NsCString) (last t : NsCString) :
    markedResult f segs last t = (written rootBase f (dotNames.close true
      ((segs.map decodeDots).foldl (dotNames.step true) []) last)).reverse ++ t := by
  rw [written_root (Lib.DotNames.close_ne_nil _ _ _ _)]
  rfl

theorem behindMarker_iff (hf : IsF f) {atEnd : Bool} (segs : List NsCString) :
    ((Walk.behindMarker f segs last atEnd).first = f ∧
        (Walk.behindMarker f segs last atEnd).stack =
          dotNames.close true (segs.foldl (dotNames.step true) []) last) ↔
      match segs with
      | [] => last ≠ [dot]
      | seg :: segs => seg ≠ [dot] ∧ RunKeeps last atEnd [seg] 1 segs := by
  cases segs with
  | nil =>
    change (f = f ∧ [last] = dotNames.close true [] last) ↔ _
    by_cases hdot : last = [dot]
    · subst hdot
      exact iff_of_false (fun h => absurd h.2 (by decide)) (fun h => h rfl)
    · by_cases hdots : last = dots
      · subst hdots
        exact iff_of_true ⟨rfl, rfl⟩ hdot
      · exact iff_of_true ⟨rfl, (close_name hdot hdots).symm⟩ hdot
  | cons seg segs =>
    change (segs.foldl (Walk.step true) ⟨f, [seg], 1⟩).Agrees f
      (segs.foldl (dotNames.step true) (dotNames.step true [] seg)) last atEnd ↔ _
    by_cases hdot : seg = [dot]
    · subst hdot
      have hoff : Off ⟨f, [[dot]], 1⟩ [] :=
        .parted [] [[dot]] [] rfl rfl (by simp) (.inl (by decide)) (by decide)
          (.inr ⟨Nat.le_refl _, rfl, rfl⟩)
      exact iff_of_false ((hoff.run segs).not_agrees hf.facts.2.1 last atEnd) fun h => h.1 rfl
    · have hstart : dotNames.step true [] seg = [seg] := by
        by_cases hdots : seg = dots
        · subst hdots
          rfl
        · exact step_name hdot hdots
      have hcounted : Counted [seg] 1 := by
        by_cases hdots : seg = dots
        · exact ⟨[], [seg], rfl, by simp, by simpa using hdots, Nat.le_refl _⟩
        · exact ⟨[seg], [], rfl, by simpa using Ne.symm hdots, by simp, by simp⟩
      rw [hstart]
      have h := @Walk.agrees_iff last segs ⟨f, [seg], 1⟩ atEnd hf.facts.2.1 hcounted
      exact h.trans (by simp [hdot])

/-- A path behind the marker has its parts, and is reduced with the marker as the root exactly if
the condition holds of its segments, with escaped dots in front of the last slash as dots. -/
theorem net_CoalesceDirs_marker_iff {rest : NsCString} (hf : IsF f) (hnul : ∀ c ∈ rest, c ≠ 0)
    (hlen : (marker f ++ rest).length < 2 ^ 32) :
    (∃ segs last t, Marked (marker f ++ rest) f segs last t) ∧
      ∀ segs last t, Marked (marker f ++ rest) f segs last t →
        (net_CoalesceDirs NET_COALESCE_FTP (marker f ++ rest) = markedResult f segs last t ↔
          MarkerKeeps (segs.map decodeDots) last t) := by
  constructor
  · obtain ⟨segs, last, t, hparts⟩ := @exists_segmented (slash :: rest) rfl (by
      intro c hc
      rcases List.mem_cons.mp hc with rfl | hc
      · decide
      · exact hnul c hc)
    exact ⟨segs, last, t, hf, rest, rfl, hparts⟩
  · intro segs last t h
    obtain ⟨rest', -, hparts⟩ := h.eq
    have hsegs : ∀ seg ∈ segs.map decodeDots, IsSegment seg := by
      intro seg hmem
      obtain ⟨seg, hin, rfl⟩ := List.mem_map.mp hmem
      exact isSegment_decodeDots (hparts.segs seg hin)
    have hwalk := behindMarker_segments hf hsegs hparts.last (decide (t = []))
    rw [net_CoalesceDirs_marked h hlen, markedResult_eq, Walk.text,
      text_eq_iff hwalk.1 hf hwalk.2 (isSegment_close (isSegment_reduction (by simp) hsegs)
        hparts.last) (Lib.DotNames.close_ne_nil _ _ _ _) hparts.tail, behindMarker_iff hf]
    rfl

/-- `/%2F/a/../b` becomes `/%2F/b`. -/
theorem net_CoalesceDirs_marker_sample :
    net_CoalesceDirs NET_COALESCE_FTP (marker 70 ++ [47, 97, 47, 46, 46, 47, 98]) =
      markedResult 70 [[], [97], [46, 46]] [98] [] := by
  have hparts : Segmented (slash :: [47, 97, 47, 46, 46, 47, 98]) [[], [97], [46, 46]] [98] [] :=
    ⟨rfl, by decide, by decide, .inl rfl⟩
  exact ((net_CoalesceDirs_marker_iff (.inl rfl) (by simp) (by decide)).2 _ _ _
    ⟨.inl rfl, _, rfl, hparts⟩).mpr (by
      simp [MarkerKeeps, RunKeeps, CloseKeeps, decodeDots, Lib.DotNames.canPop, dotNames, dot])

/-- In `/%2Fa/../b` the slash in front of the last segment is written over the marker. -/
theorem net_CoalesceDirs_marker_lost :
    net_CoalesceDirs NET_COALESCE_FTP (marker 70 ++ [97, 47, 46, 46, 47, 98]) =
        [47, 37, 50, 47, 98] ∧
      markedResult 70 [[97], [46, 46]] [98] [] = marker 70 ++ [98] ∧
      ¬ marker 70 <+:
        net_CoalesceDirs NET_COALESCE_FTP (marker 70 ++ [97, 47, 46, 46, 47, 98]) := by
  decide

end Kompozer.Net

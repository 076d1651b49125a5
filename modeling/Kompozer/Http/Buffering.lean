import Kompozer.Http.Reader

/-! The decoder follows the reader, however the body is split into buffers, as long as no `CR` is
lost that a line needs: at the end of a buffer the decoder drops one before it knows what comes
behind it. -/

namespace Kompozer.Http

open NsResult
open Net (cString CR LF semicolon)

variable {overflow : ℕ → UInt32}

/-! ### Lines in parts -/

variable (overflow) in
/-- A line that reads the same whichever of its `CR`s are left out. -/
def Indifferent (trailer : Bool) (line : List UInt8) : Prop :=
  ∀ s, Drops (dropCR line) s → endLine overflow trailer s = endLine overflow trailer (dropCR line)

variable (overflow) in
/-- A buffer may end in a line here: not behind a `CR`, or the line feed follows, or the line
reads the same without it. -/
def Mild (trailer : Bool) (text rest : List UInt8) : Prop :=
  text.getLast? = some CR → ∀ part tail, rest = part ++ LF :: tail → LF ∉ part →
    part = [] ∨ Indifferent overflow trailer (text ++ part)

variable (overflow) in
/-- What is kept of a line is as good as the line. -/
structure Tolerable (trailer : Bool) (text kept rest : List UInt8) : Prop where
  drops : Drops (dropCR text) kept
  reads : ∀ part tail, rest = part ++ LF :: tail → LF ∉ part →
    endLine overflow trailer (kept ++ dropCR part) = endLine overflow trailer (dropCR (text ++ part))

theorem Tolerable.nil (trailer : Bool) (rest : List UInt8) :
    Tolerable overflow trailer [] [] rest :=
  ⟨.nil, fun _ _ _ _ => rfl⟩

/-- A buffer ends in a line. -/
theorem Tolerable.next {trailer : Bool} {text kept part rest : List UInt8}
    (h : Tolerable overflow trailer text kept (part ++ rest)) (hpart : part ≠ [])
    (hLF : LF ∉ part) (hmild : Mild overflow trailer (text ++ part) rest) :
    Tolerable overflow trailer (text ++ part) (kept ++ dropCR part) rest := by
  have hdrops : Drops text kept := (drops_dropCR text).trans h.drops
  constructor
  · rw [dropCR_append text hpart]
    exact hdrops.append (Drops.refl _)
  · intro more tail hrest hmore
    have hread := h.reads (part ++ more) tail (by rw [hrest, List.append_assoc])
      (by simp [hLF, hmore])
    rw [← List.append_assoc] at hread
    by_cases hnil : more = []
    · subst hnil
      simpa using hread
    · rw [dropCR_append part hnil] at hread
      by_cases hCR : (text ++ part).getLast? = some CR
      · rcases hmild hCR more tail hrest hmore with hn | hind
        · exact absurd hn hnil
        · apply hind
          rw [dropCR_append _ hnil]
          exact (hdrops.append (drops_dropCR part)).append (Drops.refl _)
      · have hpartCR : part.getLast? ≠ some CR := by
          rwa [List.getLast?_append_of_ne_nil text hpart] at hCR
        rw [dropCR_of_ne hpartCR, List.append_assoc]
        exact hread

/-! ### One call -/

variable (overflow) in
/-- The decoder expects what the reader expects. -/
def Follows (d : Decoder) (rest : List UInt8) : Phase → Prop
  | .data more => d.mChunkRemaining = more + 1 ∧ d.mLineBuf = [] ∧ d.mWaitEOF = false ∧
      d.mReachedEOF = false
  | .line trailer text => d.mChunkRemaining = 0 ∧ d.mWaitEOF = trailer ∧
      d.mReachedEOF = false ∧ Tolerable overflow trailer text d.mLineBuf rest
  | .done => d.mChunkRemaining = 0 ∧ d.mReachedEOF = true
  | .failed => False

theorem follows_start (rest : List UInt8) : Follows overflow {} rest .start :=
  ⟨rfl, rfl, rfl, Tolerable.nil false rest⟩

theorem endLine_congr {trailer : Bool} {s t : List UInt8} (h : cString s = cString t) :
    endLine overflow trailer s = endLine overflow trailer t := by
  rw [endLine, endLine, h]

/-- A line is read as the reader reads it. -/
theorem parseLine_follows {d : Decoder} {trailer : Bool} (h0 : d.mChunkRemaining = 0)
    (hw : d.mWaitEOF = trailer) (he : d.mReachedEOF = false) (whole rest : List UInt8) :
    (endLine overflow trailer whole = .failed ∧
      (d.parseLine overflow (cString whole)).1.failed = true) ∨
    (endLine overflow trailer whole ≠ .failed ∧ (d.parseLine overflow (cString whole)).1 = .ok ∧
      Follows overflow (d.parseLine overflow (cString whole)).2 rest
        (endLine overflow trailer whole)) := by
  subst hw
  rw [endLine, Decoder.parseLine]
  by_cases hnil : cString whole = []
  · cases hw : d.mWaitEOF
    · exact .inr ⟨by simp [hnil], by simp [hnil],
        by simpa [hnil, Follows, h0, he, hw] using Tolerable.nil false rest⟩
    · exact .inr ⟨by simp [hnil], by simp [hnil], by simp [hnil, Follows, h0]⟩
  · cases hw : d.mWaitEOF
    · cases sscanf overflow ((cString whole).takeWhile (· ≠ semicolon)) with
      | mismatch => exact .inl ⟨by simp [hnil], by simp [hnil, NS_ERROR_UNEXPECTED]⟩
      | eof =>
        exact .inr ⟨by simp [hnil], by simp [hnil],
          by simpa [hnil, Follows, h0, he] using Tolerable.nil true rest⟩
      | stored n =>
        by_cases hn : n.toNat = 0
        · exact .inr ⟨by simp [hnil, hn], by simp [hnil],
            by simpa [hnil, Follows, he, hn] using Tolerable.nil true rest⟩
        · have hsub : n.toNat = n.toNat - 1 + 1 := by omega
          exact .inr ⟨by simp [hnil, hn], by simp [hnil],
            by simp [hnil, Follows, he, hn, ← hsub]⟩
    · exact .inr ⟨by simp [hnil], by simp [hnil],
        by simpa [hnil, Follows, h0, he, hw] using Tolerable.nil true rest⟩

/-- Bytes behind a place are moved there. -/
theorem moved_eq {content bytes stale : List UInt8} {k : ℕ} (hk : k ≤ bytes.length) :
    (content ++ bytes ++ stale).take content.length ++
        ((content ++ bytes ++ stale).drop (content.length + k)).take (bytes.length - k) ++
        (content ++ bytes ++ stale).drop (content.length + (bytes.length - k)) =
      content ++ bytes.drop k ++
        (content ++ bytes ++ stale).drop (content.length + (bytes.length - k)) := by
  congr 2
  · simp
  · rw [List.append_assoc, List.drop_length_add_append, List.drop_append_of_le_length hk]
    exact List.take_left' (by simp)

/-- `ParseChunkRemaining` at a line feed. -/
theorem parse_whole {d : Decoder} {line tail : List UInt8} (h : LF ∉ line) :
    ∃ bytes whole, d.ParseChunkRemaining overflow (line ++ LF :: tail) =
        ((d.parseLine overflow (cString whole)).1, (d.parseLine overflow (cString whole)).2,
          bytes ++ tail, line.length + 1) ∧
      bytes.length = line.length + 1 ∧ cString whole = cString (d.mLineBuf ++ dropCR line) := by
  have hmem : LF ∈ line ++ LF :: tail := by simp
  have htake : (line ++ LF :: tail).takeWhile (· ≠ LF) = line := by
    rw [List.takeWhile_append_of_pos, List.takeWhile_cons_of_neg (by simp), List.append_nil]
    intro c hc
    simpa using fun hcl => h (by rwa [hcl] at hc)
  have hdrop : (line ++ LF :: tail).drop (line.length + 1) = tail := by
    rw [List.drop_length_add_append]
    rfl
  have hle : (dropCR line).length ≤ line.length := by
    rw [dropCR]
    split_ifs
    · simp
    · exact le_rfl
  refine ⟨dropCR line ++ List.replicate (line.length + 1 - (dropCR line).length) 0,
    if d.mLineBuf ≠ [] then d.mLineBuf ++ cString (dropCR line) else dropCR line, ?_, ?_, ?_⟩
  · simp only [Decoder.ParseChunkRemaining, if_pos hmem, htake, hdrop, List.append_assoc]
  · rw [List.length_append, List.length_replicate]
    omega
  · split_ifs with hbuf
    · exact cString_append_cString _ _
    · rw [not_not.mp hbuf]
      rfl

/-- What the loop leaves behind, compared with the reader. -/
def LoopOk (overflow : ℕ → UInt32) (content rest : List UInt8) (h : Handled)
    (x : Phase × List UInt8 × List UInt8) : Prop :=
  ∃ tail, h.buf = content ++ x.2.1 ++ tail ∧ h.contentRead = (content ++ x.2.1).length ∧
    h.contentRemaining = x.2.2.length ∧
    ((x.1 = .failed ∧ h.rv.failed = true) ∨
      (x.1 ≠ .failed ∧ h.rv = .ok ∧ Follows overflow h.decoder rest x.1 ∧ x.2.2 <+: tail))

/-- The loop reads a buffer as the reader does. -/
theorem handleLoop_ok {fuel : ℕ} {d : Decoder} {p : Phase} {content buf stale rest : List UInt8}
    (hf : Follows overflow d (buf ++ rest) p) (hfuel : buf.length ≤ fuel)
    (hmild : ∀ trailer text, (p.read overflow buf).1 = .line trailer text →
      Mild overflow trailer text rest) :
    LoopOk overflow content rest
      (Decoder.handleLoop overflow fuel d (content ++ buf ++ stale) content.length buf.length)
      (p.read overflow buf) := by
  induction fuel generalizing d p content buf stale with
  | zero =>
    obtain rfl : buf = [] := List.length_eq_zero_iff.mp (by omega)
    refine ⟨stale, by simp [Decoder.handleLoop], by simp [Decoder.handleLoop],
      by simp [Decoder.handleLoop], .inr ⟨?_, rfl, by simpa [Decoder.handleLoop] using hf, by simp⟩⟩
    rw [read_nil]
    rintro rfl
    exact hf
  | succ fuel ih =>
    by_cases hbuf : buf = []
    · subst hbuf
      refine ⟨stale, by simp [Decoder.handleLoop], by simp [Decoder.handleLoop],
        by simp [Decoder.handleLoop], .inr ⟨?_, by simp [Decoder.handleLoop],
          by simpa [Decoder.handleLoop] using hf, by simp⟩⟩
      rw [read_nil]
      rintro rfl
      exact hf
    · have hlen : buf.length ≠ 0 := by simpa using hbuf
      have hwindow : ((content ++ buf ++ stale).drop content.length).take buf.length = buf := by
        simp
      cases p with
      | failed => exact hf.elim
      | done =>
        obtain ⟨h0, he⟩ := hf
        refine ⟨buf ++ stale, ?_, ?_, ?_, .inr ⟨by simp, ?_, ?_, by simp⟩⟩
        all_goals simp [Decoder.handleLoop, hlen, h0, he, Follows]
      | data more =>
        obtain ⟨h0, hb, hw, he⟩ := hf
        obtain ⟨amt, hamt⟩ : ∃ amt, amt = min (more + 1) buf.length := ⟨_, rfl⟩
        have hstep : Decoder.handleLoop overflow (fuel + 1) d (content ++ buf ++ stale)
            content.length buf.length = Decoder.handleLoop overflow fuel
              { d with mChunkRemaining := more + 1 - amt }
              ((content ++ buf.take amt) ++ buf.drop amt ++ stale)
              (content ++ buf.take amt).length (buf.drop amt).length := by
          have hmem : (content ++ buf.take amt) ++ buf.drop amt ++ stale =
              content ++ buf ++ stale := by
            rw [List.append_assoc content, List.take_append_drop]
          have htake : (content ++ buf.take amt).length = content.length + amt := by
            rw [List.length_append, List.length_take]
            omega
          rw [hmem, htake, List.length_drop, Decoder.handleLoop, if_neg hlen, if_pos (by omega),
            h0, hamt]
        have hsplit : (Phase.data more).read overflow buf =
            (((if buf.length ≤ more then Phase.data (more - buf.length) else .line false []).read
                overflow (buf.drop amt)).1,
              buf.take amt ++ ((if buf.length ≤ more then Phase.data (more - buf.length)
                else .line false []).read overflow (buf.drop amt)).2.1,
              ((if buf.length ≤ more then Phase.data (more - buf.length) else .line false []).read
                overflow (buf.drop amt)).2.2) := by
          split_ifs with hle
          · have hall : amt = buf.length := by omega
            have := @read_data_part overflow more buf hle []
            rw [List.append_nil] at this
            rw [hall, List.take_length, List.drop_length]
            exact this
          · have hall : amt = more + 1 := by omega
            have hpart : (buf.take amt).length = more + 1 := by
              rw [List.length_take]
              omega
            have := @read_data_all overflow more _ hpart (buf.drop amt)
            rwa [List.take_append_drop] at this
        have hnext : Follows overflow { d with mChunkRemaining := more + 1 - amt }
            (buf.drop amt ++ rest)
            (if buf.length ≤ more then Phase.data (more - buf.length) else .line false []) := by
          split_ifs with hle
          · exact ⟨by show more + 1 - amt = _; omega, hb, hw, he⟩
          · refine ⟨by show more + 1 - amt = 0; omega, hw, he, ?_⟩
            show Tolerable overflow false [] d.mLineBuf _
            rw [hb]
            exact Tolerable.nil false _
        rw [hstep]
        rw [hsplit] at hmild ⊢
        obtain ⟨tail, hbuf', hread, hleft, hend⟩ := @ih _ _ (content ++ buf.take amt) _ stale hnext
          (by rw [List.length_drop]; omega) hmild
        exact ⟨tail, by rw [hbuf', List.append_assoc content],
          by rw [hread, List.append_assoc content], hleft, hend⟩
      | line trailer text =>
        obtain ⟨h0, hw, he, ht⟩ := hf
        by_cases hLF : LF ∈ buf
        · obtain ⟨line, tail, rfl, hline⟩ := List.eq_append_cons_of_mem hLF
          obtain ⟨bytes, whole, hparse, hbytes, hwhole⟩ :=
            @parse_whole overflow d line tail hline
          have hread := @read_line_all overflow _ hline trailer text tail
          have hend : endLine overflow trailer whole =
              endLine overflow trailer (dropCR (text ++ line)) := by
            rw [endLine_congr hwhole]
            exact ht.reads line (tail ++ rest) (by simp) hline
          have hsub : (line ++ LF :: tail).length - (line.length + 1) = tail.length := by
            rw [List.length_append, List.length_cons]
            omega
          obtain ⟨mem, hmem⟩ : ∃ mem, mem = (content ++ (line ++ LF :: tail) ++ stale).take
              content.length ++ (bytes ++ tail) ++ (content ++ (line ++ LF :: tail) ++ stale).drop
              (content.length + (line ++ LF :: tail).length) := ⟨_, rfl⟩
          have hmem' : mem = content ++ (bytes ++ tail) ++ stale := by
            rw [hmem, ← List.length_append]
            simp
          have hstep : Decoder.handleLoop overflow (fuel + 1) d
              (content ++ (line ++ LF :: tail) ++ stale) content.length
              (line ++ LF :: tail).length =
              if (d.parseLine overflow (cString whole)).1.failed then
                ⟨(d.parseLine overflow (cString whole)).1,
                  (d.parseLine overflow (cString whole)).2, mem, content.length, tail.length⟩
              else if tail.length = 0 then Decoder.handleLoop overflow fuel
                (d.parseLine overflow (cString whole)).2 mem content.length tail.length
              else Decoder.handleLoop overflow fuel (d.parseLine overflow (cString whole)).2
                (mem.take content.length ++
                  (mem.drop (content.length + (line.length + 1))).take tail.length ++
                  mem.drop (content.length + tail.length)) content.length tail.length := by
            rw [Decoder.handleLoop, if_neg hlen, if_neg (by omega), if_neg (by simp [he]), hwindow,
              hparse]
            simp only [hsub, ← hmem]
          rw [hstep, hread]
          rw [hread] at hmild
          rcases @parseLine_follows overflow d trailer h0 hw he whole (tail ++ rest) with
            ⟨hfail, hrv⟩ | ⟨hfail, hrv, hfol⟩
          · rw [if_pos hrv, ← hend, hfail, read_failed]
            exact ⟨bytes ++ tail ++ stale, by simp [hmem'], by simp, rfl, .inl ⟨rfl, hrv⟩⟩
          · rw [hend] at hfol
            have hgo : ∀ stale', LoopOk overflow content rest (Decoder.handleLoop overflow fuel
                (d.parseLine overflow (cString whole)).2 (content ++ tail ++ stale')
                content.length tail.length)
                ((endLine overflow trailer (dropCR (text ++ line))).read overflow tail) := by
              intro stale'
              apply ih hfol _ hmild
              rw [List.length_append, List.length_cons] at hfuel
              omega
            rw [hrv, if_neg (by simp)]
            split_ifs with htail
            · obtain rfl : tail = [] := List.length_eq_zero_iff.mp htail
              have := hgo (bytes ++ stale)
              rw [hmem']
              simpa using this
            · have hmove := @moved_eq content (bytes ++ tail) stale (line.length + 1)
                (by rw [List.length_append]; omega)
              rw [List.length_append, hbytes, Nat.add_sub_cancel_left, ← hmem', ← hbytes,
                List.drop_left] at hmove
              rw [← hbytes, hmove]
              exact hgo _
        · have hread := @read_line_part overflow _ hLF trailer text []
          rw [List.append_nil, read_nil] at hread
          have hparse : d.ParseChunkRemaining overflow buf =
              (.ok, { d with mLineBuf := d.mLineBuf ++ dropCR buf }, buf, buf.length) :=
            if_neg hLF
          have hmem : (content ++ buf ++ stale).take content.length ++ buf ++
              (content ++ buf ++ stale).drop (content.length + buf.length) =
              content ++ buf ++ stale := by
            rw [← List.length_append]
            simp
          have hstep : Decoder.handleLoop overflow (fuel + 1) d (content ++ buf ++ stale)
              content.length buf.length = Decoder.handleLoop overflow fuel
                { d with mLineBuf := d.mLineBuf ++ dropCR buf } (content ++ buf ++ stale)
                content.length 0 := by
            rw [Decoder.handleLoop, if_neg hlen, if_neg (by omega), if_neg (by simp [he]), hwindow,
              hparse]
            simp only [hmem, Nat.sub_self, failed_ok, Bool.false_eq_true, if_false, if_true]
          have hstop : ∀ d' : Decoder, Decoder.handleLoop overflow fuel d'
              (content ++ buf ++ stale) content.length 0 =
              ⟨.ok, d', content ++ buf ++ stale, content.length, 0⟩ := by
            intro d'
            cases fuel <;> rfl
          rw [hread] at hmild
          rw [hstep, hstop, hread]
          exact ⟨buf ++ stale, by simp, by simp, rfl, .inr ⟨by simp, rfl,
            ⟨h0, hw, he, ht.next hbuf hLF (hmild trailer _ rfl)⟩, by simp⟩⟩

/-! ### A body in buffers -/

variable (overflow) in
/-- Every buffer ends where it may. -/
def MildSplit (p : Phase) (bufs : List (List UInt8)) : Prop :=
  ∀ before after, bufs = before ++ after → ∀ trailer text,
    (p.read overflow before.flatten).1 = .line trailer text →
    Mild overflow trailer text after.flatten

variable (overflow) in
/-- What the reader makes known of a body. -/
def readBody (p : Phase) (passed : ℕ) (content s : List UInt8) : Outcome :=
  let (q, more, rest) := p.read overflow s
  match q with
  | .failed => ⟨content ++ more, none, some (passed + s.length - rest.length)⟩
  | .done => ⟨content ++ more, some (passed + s.length - rest.length), none⟩
  | _ => ⟨content ++ more, none, none⟩

theorem handle_ok {d : Decoder} {p : Phase} {buf rest : List UInt8}
    (hf : Follows overflow d (buf ++ rest) p)
    (hmild : ∀ trailer text, (p.read overflow buf).1 = .line trailer text →
      Mild overflow trailer text rest) :
    LoopOk overflow [] rest (d.HandleChunkedContent overflow buf) (p.read overflow buf) := by
  have h := @handleLoop_ok overflow buf.length d p [] buf [] rest hf le_rfl hmild
  simpa [Decoder.HandleChunkedContent] using h

theorem LoopOk.content {h : Handled} {rest : List UInt8} {x : Phase × List UInt8 × List UInt8}
    (hx : LoopOk overflow [] rest h x) : h.content = x.2.1 := by
  obtain ⟨tail, hbuf, hread, -⟩ := hx
  rw [Handled.content, hbuf, hread]
  exact List.take_left

/-- The next buffers end where they may. -/
theorem MildSplit.tail {p : Phase} {buf : List UInt8} {bufs : List (List UInt8)}
    (h : MildSplit overflow p (buf :: bufs)) (hrest : (p.read overflow buf).2.2 = []) :
    MildSplit overflow (p.read overflow buf).1 bufs := by
  intro before after hsplit trailer text hline
  apply h (buf :: before) after (by rw [hsplit]; rfl) trailer text
  rw [List.flatten_cons, read_append, hrest]
  exact hline

/-- The decoder makes known what the reader does. -/
theorem receive_eq {d : Decoder} {p : Phase} {bufs : List (List UInt8)}
    (hf : Follows overflow d bufs.flatten p) (hp : p ≠ .done) (h : MildSplit overflow p bufs)
    (passed : ℕ) (content : List UInt8) :
    d.receive overflow passed content bufs = readBody overflow p passed content bufs.flatten := by
  induction bufs generalizing d p passed content with
  | nil =>
    cases p with
    | done => exact absurd rfl hp
    | failed => exact hf.elim
    | data more => simp [Decoder.receive, readBody]
    | line trailer text => simp [Decoder.receive, readBody]
  | cons buf bufs ih =>
    have hok := @handle_ok overflow d p buf bufs.flatten hf
      fun trailer text hline => h [buf] bufs rfl trailer text (by simpa using hline)
    have hcontent := hok.content
    have happ := @read_append overflow p buf bufs.flatten
    obtain ⟨tail, -, -, hleft, ⟨hq, hrv⟩ | ⟨hq, hrv, hfol, -⟩⟩ := hok
    · rw [hq, read_failed] at happ
      rw [Decoder.receive, readBody, List.flatten_cons, happ]
      simp only [hrv, hcontent, hleft, if_true, List.append_nil, List.length_append]
      congr 2
      omega
    · rw [Decoder.receive]
      simp only [hrv, failed_ok, Bool.false_eq_true, if_false, hcontent, hleft]
      by_cases hdone : (p.read overflow buf).1 = .done
      · rw [hdone] at hfol happ
        rw [read_done] at happ
        rw [if_pos hfol.2, readBody, List.flatten_cons, happ]
        simp only [List.append_nil, List.length_append]
        congr 2
        omega
      · have hrest : (p.read overflow buf).2.2 = [] := by
          rcases @read_rest overflow p buf with hr | hr | hr
          · exact hr
          · exact absurd hr hdone
          · exact absurd hr hq
        have hopen : (d.HandleChunkedContent overflow buf).decoder.mReachedEOF = false := by
          cases hr : (p.read overflow buf).1 with
          | data more =>
            rw [hr] at hfol
            exact hfol.2.2.2
          | line trailer text =>
            rw [hr] at hfol
            exact hfol.2.2.1
          | done => exact absurd hr hdone
          | failed => exact absurd hr hq
        rw [if_neg (by simp [hopen]), ih hfol hdone (h.tail hrest), readBody, readBody,
          List.flatten_cons, happ, hrest]
        simp only [List.nil_append, List.append_assoc, List.length_append, Nat.add_assoc]

/-! ### Buffers that end elsewhere -/

theorem endLine_text {trailer trailer' : Bool} {line text : List UInt8}
    (h : endLine overflow trailer line = .line trailer' text) : text = [] := by
  rw [endLine] at h
  split_ifs at h
  · cases h
    rfl
  · cases h
    rfl
  · split at h
    · cases h
    · cases h
      rfl
    · split_ifs at h
      cases h
      rfl

/-- What is known of a line ends as the bytes end. -/
theorem read_text {p : Phase} {s : List UInt8} (hs : s ≠ []) {trailer : Bool} {text : List UInt8}
    (h : (p.read overflow s).1 = .line trailer text) : text = [] ∨ text.getLast? = s.getLast? := by
  rcases List.eq_nil_or_concat s with rfl | ⟨s, c, rfl⟩
  · exact absurd rfl hs
  · rw [List.concat_eq_append] at h ⊢
    rw [read_append] at h
    rcases @read_rest overflow p s with hr | hr | hr
    · rw [hr, List.nil_append] at h
      cases hq : (p.read overflow s).1 with
      | data more =>
        rw [hq, Phase.read, read_nil] at h
        split_ifs at h
        · cases h
          exact .inl rfl
      | line trailer' line =>
        rw [hq, Phase.read] at h
        split_ifs at h
        · rw [read_nil] at h
          exact .inl (endLine_text h)
        · rw [read_nil] at h
          cases h
          exact .inr (by simp)
      | done =>
        rw [hq, read_done] at h
        cases h
      | failed =>
        rw [hq, read_failed] at h
        cases h
    · rw [hr, read_done] at h
      cases h
    · rw [hr, read_failed] at h
      cases h

/-- A body may be split where no buffer ends in a `CR`. -/
theorem mildSplit_of_getLast? {bufs : List (List UInt8)}
    (h : ∀ buf ∈ bufs, buf.getLast? ≠ some CR) : MildSplit overflow .start bufs := by
  have hflat : ∀ l : List (List UInt8), (∀ buf ∈ l, buf.getLast? ≠ some CR) →
      l.flatten.getLast? ≠ some CR := by
    intro l hl
    induction l with
    | nil => simp
    | cons buf l ih =>
      obtain ⟨hbuf, hl⟩ := List.forall_mem_cons.mp hl
      by_cases hnil : l.flatten = []
      · rwa [List.flatten_cons, hnil, List.append_nil]
      · rw [List.flatten_cons, List.getLast?_append_of_ne_nil buf hnil]
        exact ih hl
  intro before after hsplit trailer text hline hCR
  have hbefore := hflat before fun buf hbuf => h buf (by simp [hsplit, hbuf])
  by_cases hnil : before.flatten = []
  · rw [hnil, read_nil] at hline
    cases hline
    cases hCR
  · rcases read_text hnil hline with rfl | htext
    · cases hCR
    · exact absurd (htext ▸ hCR) hbefore

/-! ### Two ways of splitting a body -/

/-- However a body is split where it may be, its content, its end and its error are found at the
same bytes. -/
theorem receive_independent {A B : List (List UInt8)} (h : A.flatten = B.flatten)
    (hA : MildSplit overflow .start A) (hB : MildSplit overflow .start B) :
    Decoder.receive overflow {} 0 [] A = Decoder.receive overflow {} 0 [] B := by
  rw [receive_eq (follows_start _) (by simp [Phase.start]) hA,
    receive_eq (follows_start _) (by simp [Phase.start]) hB, h]

/-- Three bytes of content, with the size in two buffers. -/
theorem receive_independent_three :
    Decoder.receive (fun _ => 0) {} 0 []
        [[48], [51, 59, 120, 13, 10, 97], [98, 99, 13, 10, 48, 13, 10, 13, 10, 88]] =
      Decoder.receive (fun _ => 0) {} 0 []
        [[48, 51, 59, 120, 13, 10], [97, 98, 99, 13, 10, 48, 13, 10, 13, 10, 88]] :=
  receive_independent rfl (mildSplit_of_getLast? (by decide)) (mildSplit_of_getLast? (by decide))

/-- The size line `1`, `CR`, `2` is read as 12 if a buffer ends behind its `CR`. -/
theorem not_receive_independent :
    ([[49, 13], [50, 13, 10, 97, 98]] : List (List UInt8)).flatten =
        ([[49, 13, 50, 13, 10, 97, 98]] : List (List UInt8)).flatten ∧
      Decoder.receive (fun _ => 0) {} 0 [] [[49, 13], [50, 13, 10, 97, 98]] ≠
        Decoder.receive (fun _ => 0) {} 0 [] [[49, 13, 50, 13, 10, 97, 98]] := by
  decide

end Kompozer.Http

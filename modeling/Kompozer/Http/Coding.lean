import Kompozer.Http.Buffering

/-! Chunked coding as it is written, and that the decoder takes it back: the content is the body,
and the bytes behind the empty line that ends it are left to the caller. -/

namespace Kompozer.Http

open NsResult
open Net (cString CR LF semicolon)

variable {overflow : ℕ → UInt32}

/-! ### Bodies -/

/-- Hexadecimal digits of a number. -/
def IsSize (s : List UInt8) (n : ℕ) : Prop :=
  s ≠ [] ∧ (∀ c ∈ s, (hexDigit c).isSome) ∧ hexFrom 0 s = n

/-- Nothing, or what begins with a semicolon, in one line. -/
def IsExtension (s : List UInt8) : Prop := (s = [] ∨ s.head? = some semicolon) ∧ LF ∉ s

/-- A line of a header. -/
def IsHeaderLine (s : List UInt8) : Prop := (∃ c t, s = c :: t ∧ c ≠ 0 ∧ c ≠ CR) ∧ LF ∉ s

/-- A chunk that is not the last. -/
structure Chunk where
  size : List UInt8
  extension : List UInt8
  data : List UInt8

/-- A chunk has data, as much as its size says. -/
structure Chunk.Valid (c : Chunk) : Prop where
  data : c.data ≠ []
  size : IsSize c.size c.data.length
  extension : IsExtension c.extension
  bounded : c.data.length < 2 ^ 32

/-- A body in chunked coding. A header in several lines counts as several. -/
structure Message where
  chunks : List Chunk
  lastSize : List UInt8
  lastExtension : List UInt8
  trailers : List (List UInt8)

structure Message.Valid (m : Message) : Prop where
  chunks : ∀ c ∈ m.chunks, c.Valid
  lastSize : IsSize m.lastSize 0
  lastExtension : IsExtension m.lastExtension
  trailers : ∀ t ∈ m.trailers, IsHeaderLine t

def Chunk.wire (c : Chunk) : List UInt8 :=
  c.size ++ c.extension ++ [CR, LF] ++ c.data ++ [CR, LF]

/-- The bytes of a body, up to the empty line that ends it. -/
def Message.wire (m : Message) : List UInt8 :=
  m.chunks.flatMap Chunk.wire ++ (m.lastSize ++ m.lastExtension ++ [CR, LF]) ++
    m.trailers.flatMap (· ++ [CR, LF]) ++ [CR, LF]

def Message.body (m : Message) : List UInt8 := m.chunks.flatMap Chunk.data

/-! ### Docile bytes -/

variable (overflow) in
/-- Every line that ends in the bytes is indifferent. -/
def Docile (p : Phase) : List UInt8 → Prop
  | [] => True
  | c :: s => match p with
    | .data more => Docile (if more = 0 then .line false [] else .data (more - 1)) s
    | .line trailer text =>
      if c = LF then Indifferent overflow trailer text ∧
        Docile (endLine overflow trailer (dropCR text)) s
      else Docile (.line trailer (text ++ [c])) s
    | _ => True

theorem docile_done (s : List UInt8) : Docile overflow .done s := by
  cases s <;> trivial

theorem docile_failed (s : List UInt8) : Docile overflow .failed s := by
  cases s <;> trivial

theorem docile_append (p : Phase) (s t : List UInt8) :
    Docile overflow p (s ++ t) ↔ Docile overflow p s ∧
      Docile overflow (p.read overflow s).1 ((p.read overflow s).2.2 ++ t) := by
  induction s generalizing p with
  | nil => simp [Docile]
  | cons c s ih =>
    cases p with
    | data more => exact ih _
    | line trailer text =>
      by_cases hc : c = LF
      · simp [Docile, Phase.read, hc, ih, and_assoc]
      · simp [Docile, Phase.read, hc, ih]
    | done => exact ⟨fun _ => ⟨trivial, docile_done _⟩, fun _ => trivial⟩
    | failed => exact ⟨fun _ => ⟨trivial, docile_failed _⟩, fun _ => trivial⟩

theorem docile_line {s : List UInt8} (h : LF ∉ s) (trailer : Bool) (text t : List UInt8) :
    Docile overflow (.line trailer text) (s ++ LF :: t) ↔
      Indifferent overflow trailer (text ++ s) ∧
        Docile overflow (endLine overflow trailer (dropCR (text ++ s))) t := by
  induction s generalizing text with
  | nil => simp [Docile]
  | cons c s ih =>
    obtain ⟨hc, hs⟩ := not_or.mp (mt List.mem_cons.mpr h)
    rw [List.cons_append, Docile, if_neg (Ne.symm hc), ih hs, List.append_assoc]
    rfl

/-- Docile bytes may be split anywhere. -/
theorem Docile.mild {p : Phase} {s rest : List UInt8} (h : Docile overflow p (s ++ rest))
    {trailer : Bool} {text : List UInt8} (hline : (p.read overflow s).1 = .line trailer text) :
    Mild overflow trailer text rest := by
  intro _ part tail hrest hpart
  right
  have hr : (p.read overflow s).2.2 = [] := by
    rcases @read_rest overflow p s with hr | hr | hr
    · exact hr
    · rw [hline] at hr
      cases hr
    · rw [hline] at hr
      cases hr
  obtain ⟨-, hd⟩ := (docile_append p s rest).mp h
  rw [hline, hr, List.nil_append, hrest, docile_line hpart] at hd
  exact hd.1

/-! ### What is read of a body -/

variable (overflow) in
/-- Docile bytes are read from one phase to another. -/
def Reads (p : Phase) (s : List UInt8) (q : Phase) (content : List UInt8) : Prop :=
  p.read overflow s = (q, content, []) ∧ Docile overflow p s

theorem Reads.nil (p : Phase) : Reads overflow p [] p [] := ⟨read_nil p, trivial⟩

theorem Reads.append {p q r : Phase} {s t content content' : List UInt8}
    (h : Reads overflow p s q content) (h' : Reads overflow q t r content') :
    Reads overflow p (s ++ t) r (content ++ content') := by
  constructor
  · rw [read_append, h.1, List.nil_append, h'.1]
  · rw [docile_append, h.1]
    exact ⟨h.2, h'.2⟩

/-- A line with its `CR` and line feed. -/
theorem reads_line {trailer : Bool} {line : List UInt8} (h : LF ∉ line)
    (hi : ∀ s, Drops line s → endLine overflow trailer s = endLine overflow trailer line) :
    Reads overflow (.line trailer []) (line ++ [CR, LF]) (endLine overflow trailer line) [] := by
  have hLF : LF ∉ line ++ [CR] := by
    intro hmem
    rcases List.mem_append.mp hmem with hmem | hmem
    · exact h hmem
    · exact absurd hmem (by decide)
  have hsplit : line ++ [CR, LF] = (line ++ [CR]) ++ LF :: [] := by simp
  rw [hsplit]
  constructor
  · rw [read_line_all hLF, List.nil_append, dropCR_append_CR, read_nil]
  · rw [docile_line hLF, List.nil_append, dropCR_append_CR]
    refine ⟨?_, trivial⟩
    rw [Indifferent, dropCR_append_CR]
    exact hi

theorem reads_data {data : List UInt8} (h : data ≠ []) :
    Reads overflow (.data (data.length - 1)) data (.line false []) data := by
  have hlen : data.length = data.length - 1 + 1 := by
    have := List.length_pos_iff.mpr h
    omega
  constructor
  · have := @read_data_all overflow _ _ hlen []
    simpa using this
  · have hdocile : ∀ (more : ℕ) (s : List UInt8), s.length = more + 1 →
        Docile overflow (.data more) s := by
      intro more s
      induction s generalizing more with
      | nil => simp [Docile]
      | cons c s ih =>
        intro hs
        rw [List.length_cons, Nat.add_right_cancel_iff] at hs
        rw [Docile]
        split_ifs with hm
        · obtain rfl : s = [] := List.length_eq_zero_iff.mp (by omega)
          trivial
        · exact ih _ (by omega)
    exact hdocile _ _ hlen

/-! ### Sizes -/

theorem hexDigit_ne {c : UInt8} (h : (hexDigit c).isSome) :
    isspace c = false ∧ c ≠ 43 ∧ c ≠ 45 ∧ c ≠ 120 ∧ c ≠ 88 ∧ c ≠ 0 ∧ c ≠ semicolon ∧ c ≠ LF ∧
      c ≠ CR := by
  have hall : ∀ k : Fin 256, (hexDigit (UInt8.ofNat k)).isSome →
      isspace (UInt8.ofNat k) = false ∧ UInt8.ofNat k ≠ 43 ∧ UInt8.ofNat k ≠ 45 ∧
        UInt8.ofNat k ≠ 120 ∧ UInt8.ofNat k ≠ 88 ∧ UInt8.ofNat k ≠ 0 ∧
        UInt8.ofNat k ≠ semicolon ∧ UInt8.ofNat k ≠ LF ∧ UInt8.ofNat k ≠ CR := by
    decide +kernel
  have hc := hall ⟨c.toNat, c.toNat_lt⟩
  simp only [UInt8.ofNat_toNat] at hc
  exact hc h

/-- What is in front of a semicolon is the size. -/
theorem sscanf_size {s : List UInt8} {n : ℕ} (h : IsSize s n) (hn : n < 2 ^ 32) :
    sscanf overflow s = .stored (UInt32.ofNat n) := by
  obtain ⟨hne, hall, hval⟩ := h
  cases s with
  | nil => exact absurd rfl hne
  | cons c s =>
    obtain ⟨hc, hs⟩ := List.forall_mem_cons.mp hall
    obtain ⟨hspace, hplus, hminus, -⟩ := hexDigit_ne hc
    obtain ⟨d, hd⟩ := Option.isSome_iff_exists.mp hc
    have hradix : radixPrefix (c :: s) = c :: s := by
      cases s with
      | nil => rfl
      | cons x s =>
        obtain ⟨-, -, -, hx, hX, -⟩ := hexDigit_ne (hs x (by simp))
        rw [radixPrefix, if_neg]
        rintro ⟨-, h | h⟩
        · exact hx h
        · exact hX h
    rw [hexFrom, hd] at hval
    simp only [Nat.zero_mul, Nat.zero_add] at hval
    have hstore : store overflow false n = UInt32.ofNat n := if_pos hn
    simp [sscanf, hspace, sign, hplus, hminus, hradix, hd, hval, hstore]

theorem takeWhile_size {s u : List UInt8} (hs : ∀ c ∈ s, (hexDigit c).isSome)
    (hu : u = [] ∨ u.head? = some semicolon) :
    (cString (s ++ u)).takeWhile (· ≠ semicolon) = s := by
  have hzero : cString (s ++ u) = s ++ cString u := by
    unfold cString
    rw [List.takeWhile_append_of_pos]
    intro c hc
    simpa using (hexDigit_ne (hs c hc)).2.2.2.2.2.1
  have hcut : (cString u).takeWhile (· ≠ semicolon) = [] := by
    rcases hu with rfl | hu
    · rfl
    · cases u with
      | nil => cases hu
      | cons c u =>
        cases hu
        rfl
  rw [hzero, List.takeWhile_append_of_pos, hcut, List.append_nil]
  intro c hc
  simpa using (hexDigit_ne (hs c hc)).2.2.2.2.2.2.1

/-- A line with a size tells it, whatever its extension. -/
theorem endLine_size {s u : List UInt8} {n : ℕ} (h : IsSize s n) (hn : n < 2 ^ 32)
    (hu : u = [] ∨ u.head? = some semicolon) :
    endLine overflow false (s ++ u) = if n = 0 then .line true [] else .data (n - 1) := by
  have htake := takeWhile_size h.2.1 hu
  have hne : cString (s ++ u) ≠ [] := by
    intro hnil
    rw [hnil] at htake
    exact h.1 htake.symm
  have hnat : (UInt32.ofNat n).toNat = n := by
    rw [UInt32.toNat_ofNat']
    exact Nat.mod_eq_of_lt hn
  rw [endLine, if_neg hne, htake, sscanf_size h hn]
  simp [hnat]

/-- No `CR` of a line can be left out before its first. -/
theorem Drops.append_left {s u t : List UInt8} (hs : CR ∉ s) (h : Drops (s ++ u) t) :
    ∃ v, t = s ++ v ∧ Drops u v := by
  induction s generalizing t with
  | nil => exact ⟨t, rfl, h⟩
  | cons c s ih =>
    obtain ⟨hc, hs⟩ := not_or.mp (mt List.mem_cons.mpr hs)
    cases h with
    | keep _ h =>
      obtain ⟨v, rfl, hv⟩ := ih hs h
      exact ⟨v, rfl, hv⟩
    | drop h => exact absurd rfl hc

theorem reads_size {s e : List UInt8} {n : ℕ} (h : IsSize s n) (hn : n < 2 ^ 32)
    (he : IsExtension e) :
    Reads overflow .start (s ++ e ++ [CR, LF])
      (if n = 0 then .line true [] else .data (n - 1)) [] := by
  have hLF : LF ∉ s ++ e := by
    intro hmem
    rcases List.mem_append.mp hmem with hmem | hmem
    · exact (hexDigit_ne (h.2.1 _ hmem)).2.2.2.2.2.2.2.1 rfl
    · exact he.2 hmem
  rw [← endLine_size h hn he.1]
  apply reads_line hLF
  intro t ht
  obtain ⟨v, rfl, hv⟩ := ht.append_left fun hmem => (hexDigit_ne (h.2.1 _ hmem)).2.2.2.2.2.2.2.2 rfl
  rw [endLine_size h hn he.1, endLine_size h hn]
  rcases he.1 with rfl | hhead
  · cases hv
    exact .inl rfl
  · right
    cases e with
    | nil => cases hhead
    | cons c e =>
      cases hhead
      obtain ⟨w, rfl, -⟩ := Drops.append_left (s := [semicolon]) (by decide) hv
      rfl

/-! ### Messages -/

theorem reads_empty (trailer : Bool) :
    Reads overflow (.line trailer []) [CR, LF] (if trailer then .done else .line false []) [] :=
  @reads_line _ trailer [] (by simp) fun s hs => by cases hs; rfl

theorem reads_chunk {c : Chunk} (h : c.Valid) :
    Reads overflow .start c.wire .start c.data := by
  have hsize := @reads_size overflow _ _ _ h.size h.bounded h.extension
  rw [if_neg (by simpa using h.data)] at hsize
  have := (hsize.append (reads_data h.data)).append (reads_empty false)
  simpa [Chunk.wire, Phase.start] using this

theorem reads_chunks {chunks : List Chunk} (h : ∀ c ∈ chunks, c.Valid) :
    Reads overflow .start (chunks.flatMap Chunk.wire) .start (chunks.flatMap Chunk.data) := by
  induction chunks with
  | nil => exact Reads.nil _
  | cons c chunks ih =>
    obtain ⟨hc, hchunks⟩ := List.forall_mem_cons.mp h
    exact (reads_chunk hc).append (ih hchunks)

theorem reads_trailer {t : List UInt8} (h : IsHeaderLine t) :
    Reads overflow (.line true []) (t ++ [CR, LF]) (.line true []) [] := by
  obtain ⟨⟨c, u, rfl, h0, hCR⟩, hLF⟩ := h
  have hend : ∀ u, endLine overflow true (c :: u) = .line true [] := by
    intro u
    simp [endLine, cString, h0]
  have hline := @reads_line overflow true (c :: u) hLF fun s hs => by
    obtain ⟨v, rfl, -⟩ := Drops.append_left (s := [c]) (by simpa using Ne.symm hCR) hs
    rw [hend]
    exact hend v
  rwa [hend] at hline

theorem reads_trailers {trailers : List (List UInt8)} (h : ∀ t ∈ trailers, IsHeaderLine t) :
    Reads overflow (.line true []) (trailers.flatMap (· ++ [CR, LF])) (.line true []) [] := by
  induction trailers with
  | nil => exact Reads.nil _
  | cons t trailers ih =>
    obtain ⟨ht, htrailers⟩ := List.forall_mem_cons.mp h
    exact (reads_trailer ht).append (ih htrailers)

/-- The reader takes the coding back. -/
theorem reads_message {m : Message} (h : m.Valid) :
    Reads overflow .start m.wire .done m.body := by
  have hlast := @reads_size overflow _ _ _ h.lastSize (by decide) h.lastExtension
  have := (((reads_chunks h.chunks).append hlast).append (reads_trailers h.trailers)).append
    (reads_empty true)
  simpa [Message.wire, Message.body] using this

/-! ### Buffers -/

/-- The decoder reads docile bytes as the reader does, in any buffers. -/
theorem feed_eq {d : Decoder} {p : Phase} {bufs : List (List UInt8)} {rest : List UInt8}
    (hf : Follows overflow d (bufs.flatten ++ rest) p)
    (hd : Docile overflow p (bufs.flatten ++ rest))
    (hq : (p.read overflow bufs.flatten).1 ≠ .failed) (content : List UInt8) :
    ∃ d', d.feed overflow content bufs = some (d', content ++ (p.read overflow bufs.flatten).2.1) ∧
      Follows overflow d' rest (p.read overflow bufs.flatten).1 := by
  induction bufs generalizing d p content with
  | nil => exact ⟨d, by simp [Decoder.feed], by simpa using hf⟩
  | cons buf bufs ih =>
    rw [List.flatten_cons, List.append_assoc] at hf hd
    have hok := handle_ok hf fun trailer text hline => hd.mild hline
    have hcontent := hok.content
    have happ := @read_append overflow p buf bufs.flatten
    rw [List.flatten_cons, happ] at hq ⊢
    obtain ⟨tail, -, -, -, ⟨hfail, -⟩ | ⟨-, hrv, hfol, -⟩⟩ := hok
    · rw [hfail, read_failed] at hq
      exact absurd rfl hq
    · have hd' := ((docile_append p buf (bufs.flatten ++ rest)).mp hd).2
      rw [Decoder.feed]
      simp only [hrv, failed_ok, Bool.false_eq_true, if_false, hcontent]
      rcases @read_rest overflow p buf with hr | hr | hr
      · rw [hr, List.nil_append] at hd' hq ⊢
        obtain ⟨d', hfeed, hfol'⟩ := ih hfol hd' hq (content ++ (p.read overflow buf).2.1)
        exact ⟨d', by rw [hfeed, List.append_assoc], hfol'⟩
      · rw [hr] at hfol ⊢
        obtain ⟨d', hfeed, hfol'⟩ := ih hfol (docile_done _) (by simp)
          (content ++ (p.read overflow buf).2.1)
        rw [read_done] at hfeed hfol'
        rw [read_done]
        exact ⟨d', by simpa using hfeed, hfol'⟩
      · rw [hr, read_failed] at hq
        exact absurd rfl hq

theorem Follows.reachedEOF_iff {d : Decoder} {p : Phase} {rest : List UInt8}
    (h : Follows overflow d rest p) : d.mReachedEOF = true ↔ p = .done := by
  cases p with
  | data more => simp [h.2.2.2]
  | line trailer text => simp [h.2.2.1]
  | done => simp [h.2]
  | failed => exact h.elim

/-- Where the bytes of a message have been read to. -/
theorem read_part {m : Message} (h : m.Valid) {s t following : List UInt8}
    (hs : s ++ t = m.wire ++ following) :
    (m.wire.length ≤ s.length ∧ Phase.start.read overflow s =
        (.done, m.body, s.drop m.wire.length)) ∨
      (s.length < m.wire.length ∧ (Phase.start.read overflow s).1 ≠ .done ∧
        (Phase.start.read overflow s).1 ≠ .failed ∧ (Phase.start.read overflow s).2.2 = []) := by
  have hread := (@reads_message overflow m h).1
  rcases List.append_eq_append_iff.mp hs with ⟨u, hu, -⟩ | ⟨u, hu, -⟩
  · by_cases hnil : u = []
    · subst hnil
      rw [List.append_nil] at hu
      left
      rw [hu] at hread
      exact ⟨by rw [hu], by rw [hread, hu, List.drop_length]⟩
    · right
      have hlen : s.length < m.wire.length := by
        have := List.length_pos_iff.mpr hnil
        rw [hu, List.length_append]
        omega
      rw [hu, read_append] at hread
      have hdone : (Phase.start.read overflow s).1 ≠ .done := by
        intro hp
        rw [hp, read_done] at hread
        have hrest := congrArg (fun x => x.2.2) hread
        exact hnil (List.append_eq_nil_iff.mp hrest).2
      have hfailed : (Phase.start.read overflow s).1 ≠ .failed := by
        intro hp
        rw [hp, read_failed] at hread
        cases congrArg Prod.fst hread
      refine ⟨hlen, hdone, hfailed, ?_⟩
      rcases @read_rest overflow .start s with hr | hr | hr
      · exact hr
      · exact absurd hr hdone
      · exact absurd hr hfailed
  · left
    subst hu
    refine ⟨by simp, ?_⟩
    rw [read_append, hread]
    simp

/-- Decoding takes coding back, in any buffers: the content is the body, the end is reached with
the empty line, and what is left of a buffer is what lies behind it. -/
theorem feed_wire {m : Message} (h : m.Valid) {following : List UInt8}
    {bufs : List (List UInt8)} (hbufs : bufs.flatten = m.wire ++ following) :
    (∃ d, Decoder.feed overflow {} [] bufs = some (d, m.body)) ∧
    (∀ before after, bufs = before ++ after →
      ∃ d content, Decoder.feed overflow {} [] before = some (d, content) ∧
        (d.mReachedEOF = true ↔ m.wire.length ≤ before.flatten.length)) ∧
    (∀ before buf after, bufs = before ++ buf :: after →
      ∃ d content, Decoder.feed overflow {} [] before = some (d, content) ∧
        (d.HandleChunkedContent overflow buf).rv = .ok ∧
        (d.HandleChunkedContent overflow buf).remaining =
          buf.drop (m.wire.length - before.flatten.length) ∧
        (d.HandleChunkedContent overflow buf).contentRemaining =
          (d.HandleChunkedContent overflow buf).remaining.length) := by
  have hdocile : Docile overflow .start (m.wire ++ following) := by
    rw [docile_append, (reads_message h).1]
    exact ⟨(reads_message h).2, docile_done _⟩
  have hfeed : ∀ before after, bufs = before ++ after →
      ∃ d, Decoder.feed overflow {} [] before =
        some (d, (Phase.start.read overflow before.flatten).2.1) ∧
        Follows overflow d after.flatten (Phase.start.read overflow before.flatten).1 := by
    intro before after hsplit
    have hflat : before.flatten ++ after.flatten = m.wire ++ following := by
      rw [← hbufs, hsplit, List.flatten_append]
    apply feed_eq (follows_start _) (by rwa [hflat])
    rcases @read_part overflow m h _ _ _ hflat with ⟨-, hread⟩ | ⟨-, -, hfailed, -⟩
    · rw [hread]
      simp
    · exact hfailed
  refine ⟨?_, ?_, ?_⟩
  · obtain ⟨d, hd, -⟩ := hfeed bufs [] (by simp)
    refine ⟨d, ?_⟩
    rw [hd, hbufs, read_append, (reads_message h).1]
    simp
  · intro before after hsplit
    have hflat : before.flatten ++ after.flatten = m.wire ++ following := by
      rw [← hbufs, hsplit, List.flatten_append]
    obtain ⟨d, hd, hfol⟩ := hfeed before after hsplit
    refine ⟨d, _, hd, ?_⟩
    rw [hfol.reachedEOF_iff]
    rcases @read_part overflow m h _ _ _ hflat with ⟨hle, hread⟩ | ⟨hlt, hdone, -⟩
    · rw [hread]
      exact ⟨fun _ => hle, fun _ => rfl⟩
    · exact ⟨fun hp => absurd hp hdone, fun hle => by omega⟩
  · intro before buf after hsplit
    have hflat : before.flatten ++ (buf ++ after.flatten) = m.wire ++ following := by
      rw [← hbufs, hsplit, List.flatten_append, List.flatten_cons]
    have hflat' : (before.flatten ++ buf) ++ after.flatten = m.wire ++ following := by
      rw [List.append_assoc, hflat]
    obtain ⟨d, hd, hfol⟩ := hfeed before (buf :: after) hsplit
    refine ⟨d, _, hd, ?_⟩
    rw [List.flatten_cons] at hfol
    have hdoc : Docile overflow (Phase.start.read overflow before.flatten).1
        (buf ++ after.flatten) := by
      rw [← hflat, docile_append] at hdocile
      rcases @read_part overflow m h _ _ _ hflat with ⟨-, hread⟩ | ⟨-, -, -, hrest⟩
      · rw [hread]
        exact docile_done _
      · rw [hrest] at hdocile
        exact hdocile.2
    have hok := handle_ok hfol fun trailer text hline => hdoc.mild hline
    have hunread : ((Phase.start.read overflow before.flatten).1.read overflow buf).2.2 =
        buf.drop (m.wire.length - before.flatten.length) ∧
        ((Phase.start.read overflow before.flatten).1.read overflow buf).1 ≠ .failed := by
      have happ := @read_append overflow .start before.flatten buf
      rcases @read_part overflow m h _ _ _ hflat with ⟨hle, hread⟩ | ⟨hlt, -, -, hrest⟩
      · rw [hread, read_done, Nat.sub_eq_zero_of_le hle]
        simp
      · rw [hrest, List.nil_append] at happ
        rcases @read_part overflow m h _ _ _ hflat' with ⟨hle, hread⟩ |
          ⟨hlt', -, hfailed, hrest'⟩
        · rw [hread] at happ
          have h₁ := congrArg (fun x => x.2.2) happ
          have h₂ := congrArg Prod.fst happ
          refine ⟨?_, by rw [← h₂]; simp⟩
          rw [← h₁, List.drop_append, List.drop_eq_nil_of_le hlt.le, List.nil_append]
        · rw [happ] at hrest' hfailed
          refine ⟨?_, hfailed⟩
          rw [hrest', List.drop_eq_nil_of_le]
          rw [List.length_append] at hlt'
          omega
    obtain ⟨tail, hbuf, hread, hleft, ⟨hfail, -⟩ | ⟨-, hrv, -, htail⟩⟩ := hok
    · exact absurd hfail hunread.2
    · have hremaining : (d.HandleChunkedContent overflow buf).remaining =
          buf.drop (m.wire.length - before.flatten.length) := by
        obtain ⟨stale, rfl⟩ := htail
        rw [Handled.remaining, hbuf, hread, hleft, List.drop_left, List.take_left, hunread.1]
      refine ⟨hrv, hremaining, ?_⟩
      rw [hremaining, hleft, hunread.1]

/-- One chunk of three bytes, an extension and a trailer, cut behind every `CR`. -/
theorem feed_wire_three :
    ∃ d, Decoder.feed (fun _ => 0) {} [] [[51, 59, 120, 13], [10, 97, 98], [99, 13], [10, 48, 13],
      [10, 65, 58, 98, 13], [10, 13], [10, 88]] = some (d, [97, 98, 99]) := by
  have hvalid : Message.Valid ⟨[⟨[51], [59, 120], [97, 98, 99]⟩], [48], [], [[65, 58, 98]]⟩ := by
    constructor
    · intro c hc
      obtain rfl := List.mem_singleton.mp hc
      exact ⟨by decide, ⟨by decide, by simp [hexDigit], rfl⟩, ⟨.inr rfl, by decide⟩, by decide⟩
    · exact ⟨by decide, by simp [hexDigit], rfl⟩
    · exact ⟨.inl rfl, by decide⟩
    · intro t ht
      obtain rfl := List.mem_singleton.mp ht
      exact ⟨⟨65, _, rfl, by decide, by decide⟩, by decide⟩
  exact (@feed_wire (fun _ => 0) _ hvalid [88] _ rfl).1

/-! ### Bodies that are not taken back -/

/-- A chunk with a line feed in a quoted string of its extension. -/
def quotedLF : Message :=
  ⟨[⟨[49], [59, 97, 61, 34, 92, 10, 34], [120]⟩], [48], [], []⟩

/-- A chunk whose size does not fit. -/
def bigChunk (n : ℕ) : Message :=
  ⟨[⟨[49, 48, 48, 48, 48, 48, 48, 48, 48], [], List.replicate n 122⟩], [48], [], []⟩

theorem content_readBody (p : Phase) (passed : ℕ) (content s : List UInt8) :
    (readBody overflow p passed content s).content = content ++ (p.read overflow s).2.1 := by
  rw [readBody]
  rcases p.read overflow s with ⟨q, more, rest⟩
  cases q <;> rfl

/-- A line that does not begin with a number. -/
theorem endLine_mismatch (s : List UInt8) : endLine overflow false (122 :: s) = .failed := by
  have hspace : isspace 122 = false := by decide
  have hdigit : hexDigit 122 = none := by decide
  have hradix : ∀ s, radixPrefix (122 :: s) = 122 :: s := by
    intro s
    cases s <;> rfl
  simp [endLine, cString, semicolon, sscanf, hspace, sign, hradix, hdigit]

theorem read_bigChunk {n : ℕ} (hn : n = 2 ^ 32) :
    (Phase.start.read overflow (bigChunk n).wire).2.1 ≠ List.replicate n 122 := by
  obtain ⟨v, hv⟩ : ∃ v, v = (overflow n).toNat := ⟨_, rfl⟩
  have hlt : v < n := by
    rw [hv, hn]
    exact (overflow _).toNat_lt
  have hsize : endLine overflow false [49, 48, 48, 48, 48, 48, 48, 48, 48] =
      if v = 0 then .line true [] else .data (v - 1) := by
    have hscan : sscanf overflow [49, 48, 48, 48, 48, 48, 48, 48, 48] = .stored (overflow n) := by
      have hstore : store overflow false n = overflow n := if_neg (by omega)
      rw [← hstore, hn]
      rfl
    have htext : (cString [49, 48, 48, 48, 48, 48, 48, 48, 48]).takeWhile (· ≠ semicolon) =
        [49, 48, 48, 48, 48, 48, 48, 48, 48] := rfl
    rw [hv, endLine, if_neg (by decide), if_neg (by decide), htext, hscan]
  have hwire : (bigChunk n).wire = [49, 48, 48, 48, 48, 48, 48, 48, 48, 13] ++
      LF :: (List.replicate n 122 ++ [13, 10, 48, 13, 10, 13, 10]) := by
    simp [bigChunk, Message.wire, Chunk.wire, CR, LF]
  rw [hwire, Phase.start, read_line_all (by decide)]
  show ((endLine overflow false [49, 48, 48, 48, 48, 48, 48, 48, 48]).read overflow _).2.1 ≠ _
  rw [hsize]
  have hz : ∀ k, LF ∉ List.replicate k (122 : UInt8) ++ [CR] := by
    intro k hmem
    rcases List.mem_append.mp hmem with hmem | hmem
    · exact absurd (List.eq_of_mem_replicate hmem) (by decide)
    · exact absurd hmem (by decide)
  have hline : ∀ k, List.replicate k (122 : UInt8) ++ [13, 10, 48, 13, 10, 13, 10] =
      (List.replicate k 122 ++ [CR]) ++ LF :: [48, 13, 10, 13, 10] := by
    intro k
    simp [CR, LF]
  have hcons : ∀ k, k ≠ 0 → ∃ w, List.replicate k (122 : UInt8) = 122 :: w := by
    intro k hk
    obtain ⟨j, rfl⟩ := Nat.exists_eq_succ_of_ne_zero hk
    exact ⟨_, rfl⟩
  split_ifs with hv0
  · obtain ⟨w, hw⟩ := hcons n (by omega)
    have htrailer : endLine overflow true (122 :: w) = .line true [] := by
      simp [endLine, cString]
    rw [hline, read_line_all (hz n), List.nil_append, dropCR_append_CR, hw, htrailer]
    intro h
    cases h
  · obtain ⟨w, hw⟩ := hcons (n - v) (by omega)
    have hsplit : List.replicate n (122 : UInt8) =
        List.replicate v 122 ++ List.replicate (n - v) 122 := by
      rw [← List.replicate_add]
      congr 1
      omega
    have hlen : (List.replicate v (122 : UInt8)).length = v - 1 + 1 := by
      rw [List.length_replicate]
      omega
    rw [hsplit, List.append_assoc, read_data_all hlen, hline, read_line_all (hz _),
      List.nil_append, dropCR_append_CR, hw, endLine_mismatch, read_failed]
    intro h
    simp at h

/-- A line feed inside an extension ends its line, and a size of 2^32 does not fit. -/
theorem not_taken_back :
    (Decoder.receive (fun _ => 0) {} 0 [] [quotedLF.wire]).content ≠ quotedLF.body ∧
    ∀ overflow, ∃ bufs : List (List UInt8), bufs.flatten = (bigChunk (2 ^ 32)).wire ∧
      (∀ buf ∈ bufs, buf.length < 2 ^ 32) ∧
      (Decoder.receive overflow {} 0 [] bufs).content ≠ (bigChunk (2 ^ 32)).body := by
  constructor
  · decide
  · intro overflow
    obtain ⟨n, hn⟩ : ∃ n : ℕ, n = 2 ^ 32 := ⟨_, rfl⟩
    rw [← hn]
    have hsum : List.replicate (n - 1) (122 : UInt8) ++ [122] = List.replicate n 122 := by
      rw [← List.replicate_succ']
      congr 1
      omega
    have hflat : ([[49, 48, 48, 48, 48, 48, 48, 48, 48, 13, 10], List.replicate (n - 1) 122,
        [122, 13, 10, 48, 13, 10, 13, 10]] : List (List UInt8)).flatten = (bigChunk n).wire := by
      have hwire : (bigChunk n).wire = [49, 48, 48, 48, 48, 48, 48, 48, 48, 13, 10] ++
          (List.replicate n 122 ++ [13, 10, 48, 13, 10, 13, 10]) := by
        simp [bigChunk, Message.wire, Chunk.wire, CR, LF]
      rw [hwire, ← hsum]
      simp
    refine ⟨_, hflat, ?_, ?_⟩
    · intro buf hbuf
      simp only [List.mem_cons, List.not_mem_nil, or_false] at hbuf
      rcases hbuf with rfl | rfl | rfl
      · simp [hn]
      · rw [List.length_replicate]
        omega
      · simp [hn]
    · rw [receive_eq (follows_start _) (by simp [Phase.start]), hflat, content_readBody,
        List.nil_append]
      · have hbody : (bigChunk n).body = List.replicate n 122 := by
          simp [bigChunk, Message.body]
        rw [hbody]
        exact read_bigChunk hn
      · apply mildSplit_of_getLast?
        intro buf hbuf
        simp only [List.mem_cons, List.not_mem_nil, or_false] at hbuf
        rcases hbuf with rfl | rfl | rfl
        · decide
        · intro hlast
          exact absurd (List.eq_of_mem_replicate (List.mem_of_getLast? hlast)) (by decide)
        · decide

end Kompozer.Http

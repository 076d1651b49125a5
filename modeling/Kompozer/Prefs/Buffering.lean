import Kompozer.Prefs.Reader

/-! What a file means to the reader when it comes in several buffers. As long as the content
is well formed the buffers do not matter: everything the loop knows is in the parse state.
Nobody looks at the result of `PREF_ParseBuf`, though, and what is fed after a failure is
read from a state that was true before the buffer that failed. -/

namespace Kompozer.Prefs

/-! ### Characters that are pushed back -/

namespace ParseVars

/-! ### One buffer after the other -/

/-- The loop goes on in the second part of a buffer where it was after the first. -/
theorem readAll_append (A B : List UInt8) (state : ParseState) (ps : ParseVars) :
    ps.readAll (A ++ B) state =
      match (ps.readAll A state).1 with
      | none => ps.readAll A state
      | some state' =>
        let r := (ps.readAll A state).2.1.readAll B state'
        (r.1, r.2.1, (ps.readAll A state).2.2 ++ r.2.2) := by
  induction A generalizing state ps with
  | nil => rfl
  | cons c A ih =>
    rw [List.cons_append, readAll, readAll]
    cases ps.read state c with
    | next state₁ ps₁ calls =>
      dsimp only
      rw [ih]
      cases hA : (ps₁.readAll A state₁).1 with
      | none => simp [hA]
      | some state₂ => simp [List.append_assoc]
    | again state₁ ps₁ => rfl
    | malformed ps₁ => rfl

end ParseVars

variable (ps : PrefParseState)

/-- Two buffers are as good as one when there is nothing wrong with the first. -/
theorem PREF_ParseBuf_append {A : List UInt8} (B : List UInt8) (h : (PREF_ParseBuf ps A).1 = true) :
    (PREF_ParseBuf ps (A ++ B)).1 = (PREF_ParseBuf (PREF_ParseBuf ps A).2.1 B).1 ∧
      (PREF_ParseBuf ps (A ++ B)).2.2 =
        (PREF_ParseBuf ps A).2.2 ++ (PREF_ParseBuf (PREF_ParseBuf ps A).2.1 B).2.2 := by
  obtain ⟨state, hstate⟩ := Option.isSome_iff_exists.mp h
  simp only [PREF_ParseBuf, ParseVars.readAll_append, hstate, Option.getD_some]
  exact ⟨trivial, trivial⟩

/-- Nothing is read behind what is malformed. -/
theorem PREF_ParseBuf_append_of_malformed {A : List UInt8} (B : List UInt8)
    (h : (PREF_ParseBuf ps A).1 = false) :
    PREF_ParseBuf ps (A ++ B) = PREF_ParseBuf ps A := by
  have hstate : (ps.vars.readAll A ps.state).1 = none := Option.not_isSome_iff_eq_none.mp (by
    simpa [PREF_ParseBuf] using h)
  simp only [PREF_ParseBuf, ParseVars.readAll_append, hstate]

/-! ### Many buffers -/

/-- The loop of `openPrefFile`, which goes on whatever `PREF_ParseBuf` returns. -/
def openPrefFile : List (List UInt8) → PrefParseState → Bool × PrefParseState × List Call
  | [], ps => (true, ps, [])
  | readBuf :: bufs, ps =>
    let r := PREF_ParseBuf ps readBuf
    let q := openPrefFile bufs r.2.1
    (r.1 && q.1, q.2.1, r.2.2 ++ q.2.2)

/-- The calls that are made from the buffers behind the first malformed one. -/
def strayCalls : List (List UInt8) → PrefParseState → List Call
  | [], _ => []
  | readBuf :: bufs, ps =>
    let r := PREF_ParseBuf ps readBuf
    if r.1 then strayCalls bufs r.2.1 else (openPrefFile bufs r.2.1).2.2

/-- Whether a file is well formed does not depend on the buffers, and apart from stray calls
neither do the calls. -/
theorem openPrefFile_eq (bufs : List (List UInt8)) :
    (openPrefFile bufs ps).1 = (PREF_ParseBuf ps bufs.flatten).1 ∧
      (openPrefFile bufs ps).2.2 =
        (PREF_ParseBuf ps bufs.flatten).2.2 ++ strayCalls bufs ps := by
  induction bufs generalizing ps with
  | nil => exact ⟨rfl, rfl⟩
  | cons readBuf bufs ih =>
    rw [List.flatten_cons, openPrefFile, strayCalls]
    dsimp only
    cases h : (PREF_ParseBuf ps readBuf).1 with
    | true =>
      obtain ⟨hok, hcalls⟩ := PREF_ParseBuf_append ps bufs.flatten h
      obtain ⟨ihok, ihcalls⟩ := ih (PREF_ParseBuf ps readBuf).2.1
      rw [hok, hcalls, ihok, ihcalls, if_pos rfl, List.append_assoc]
      exact ⟨rfl, rfl⟩
    | false =>
      rw [PREF_ParseBuf_append_of_malformed ps bufs.flatten h, h]
      exact ⟨rfl, rfl⟩

/-- Well-formed buffers have no part in stray calls. -/
theorem strayCalls_append {bufs : List (List UInt8)} (rest : List (List UInt8))
    (h : (PREF_ParseBuf ps bufs.flatten).1 = true) :
    ∃ ps', strayCalls (bufs ++ rest) ps = strayCalls rest ps' := by
  induction bufs generalizing ps with
  | nil => exact ⟨ps, rfl⟩
  | cons readBuf bufs ih =>
    rw [List.flatten_cons] at h
    cases hbuf : (PREF_ParseBuf ps readBuf).1 with
    | true =>
      rw [(PREF_ParseBuf_append ps bufs.flatten hbuf).1] at h
      rw [List.cons_append, strayCalls, if_pos hbuf]
      exact ih _ h
    | false =>
      rw [PREF_ParseBuf_append_of_malformed ps bufs.flatten hbuf, hbuf] at h
      exact absurd h (by simp)

/-- There are none in a file that is well formed. -/
theorem strayCalls_wellFormed {bufs : List (List UInt8)}
    (h : (PREF_ParseBuf ps bufs.flatten).1 = true) : strayCalls bufs ps = [] := by
  obtain ⟨ps', hps⟩ := strayCalls_append ps [] h
  rw [List.append_nil] at hps
  rw [hps]
  rfl

/-- The buffers make no difference: the same calls in the same order and the same success. -/
def Unbuffered (bufs : List (List UInt8)) : Prop :=
  (openPrefFile bufs ps).1 = (PREF_ParseBuf ps bufs.flatten).1 ∧
    (openPrefFile bufs ps).2.2 = (PREF_ParseBuf ps bufs.flatten).2.2

end Kompozer.Prefs

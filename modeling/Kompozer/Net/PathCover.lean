import Kompozer.Net.Spans
import Kompozer.Lib.Trim

/-! The parser for paths loses nothing: `ParsePath`, and behind it `ParseFilePath` on the file path
it has found, cut a path into pieces that cover it. -/

namespace Kompozer.Net

/-! ### The file name -/

theorem ParseFileName_spans (filename : NsCString) :
    Spans 0 [([], (ParseFileName filename).1), ([dot], (ParseFileName filename).2)] filename := by
  rw [ParseFileName]
  split_ifs with h
  · -- the first character, the last dot behind it, and what follows
    obtain ⟨front, c, hfront, hc⟩ :=
      (Lib.eq_nil_or_getLast_rdropWhile (· ≠ dot) (filename.drop 1)).resolve_left h.2
    obtain rfl : c = dot := by simpa using hc
    obtain ⟨ext, hext⟩ := List.rdropWhile_prefix (· ≠ dot) (filename.drop 1)
    obtain ⟨a, hname⟩ : ∃ a, filename = a :: (front ++ dot :: ext) := by
      cases filename with
      | nil => simp at hfront
      | cons a rest =>
        rw [hfront] at hext
        exact ⟨a, by simpa using hext.symm⟩
    rw [hfront, hname]
    have hspan := Spans.first (a :: front) (Spans.single (a :: front).length [dot] ext)
    simpa [Int.add_assoc] using hspan
  · have hspan := Spans.first filename
      (@Spans.absentSingle filename.length [dot] {} (by decide))
    simpa using hspan

/-! ### The file path -/

theorem ParseFilePath_spans {filepath : NsCString} (h : filepath ≠ []) :
    Spans 0 [([], (ParseFilePath filepath).directory), ([], (ParseFilePath filepath).basename),
      ([dot], (ParseFilePath filepath).extension)] filepath := by
  have hdir : ∀ {directory : NsCString}, directory <+: filepath →
      Spans 0 [([], ⟨0, directory.length⟩),
        ([], (ParseFileName (filepath.drop directory.length)).1.shift directory.length),
        ([dot], (ParseFileName (filepath.drop directory.length)).2.shift directory.length)]
          filepath := by
    rintro directory ⟨rest, rfl⟩
    rw [List.drop_left]
    exact Spans.first directory ((ParseFileName_spans rest).shift directory.length)
  rw [ParseFilePath, if_neg h]
  dsimp only
  split_ifs with hfront hdots
  · exact hdir (List.prefix_refl filepath)
  · exact hdir (List.rdropWhile_prefix _ _)
  · exact .absent [] neg_one_lt_zero (ParseFileName_spans filepath)

/-! ### The path -/

/-- The file path and the parameter, in what is in front of a query and a reference. -/
def fileAndParam (whole : NsCString) : URLSegment × URLSegment :=
  let name := whole.rtakeWhile (· ≠ slash)
  let filename := name.takeWhile (· ≠ semicolon)
  let fileEnd := whole.length - name.length + filename.length
  if filename.length < name.length then
    (if fileEnd = 0 then {} else ⟨0, fileEnd⟩, ⟨fileEnd + 1, whole.length - (fileEnd + 1)⟩)
  else (if whole.length = 0 then {} else ⟨0, whole.length⟩, {})

/-- An empty file path is no file path. -/
theorem filepath_spans {filepath : NsCString} {pieces : List Piece} {text : NsCString}
    (h : Spans filepath.length pieces text) :
    Spans 0 (([], if filepath.length = 0 then {} else ⟨0, filepath.length⟩) :: pieces)
      (filepath ++ text) := by
  split_ifs with hzero
  · obtain rfl := List.eq_nil_of_length_eq_zero hzero
    exact .absent [] neg_one_lt_zero h
  · exact .first filepath h

theorem fileAndParam_spans (whole : NsCString) :
    Spans 0 [([], (fileAndParam whole).1), ([semicolon], (fileAndParam whole).2)] whole := by
  obtain ⟨dir, hdir⟩ := List.rtakeWhile_suffix (· ≠ slash) whole
  rw [fileAndParam]
  generalize whole.rtakeWhile (· ≠ slash) = name at hdir ⊢
  subst hdir
  have hlen : (dir ++ name).length - name.length = dir.length := by simp
  rw [hlen]
  rcases Lib.takeWhile_ne_cut semicolon name with hname | ⟨param, hparam⟩
  · rw [hname, if_neg (lt_irrefl _)]
    have hspan := @filepath_spans (dir ++ name) _ _
      (@Spans.absentSingle _ [semicolon] {} (by decide))
    rwa [List.append_nil] at hspan
  · generalize name.takeWhile (· ≠ semicolon) = filename at hparam ⊢
    subst hparam
    have hspan := @filepath_spans (dir ++ filename) _ _
      (Spans.single _ [semicolon] param)
    rw [if_pos (by simp), ← List.length_append]
    have hrest : ((dir ++ (filename ++ semicolon :: param)).length : ℤ) -
        ((dir ++ filename).length + 1) = param.length := by
      simp only [List.length_append, List.length_cons]
      push_cast
      omega
    rw [hrest]
    simpa using hspan

/-- The segment of a component behind its delimiter. -/
def behind (pos : ℕ) : Option NsCString → URLSegment
  | none => {}
  | some t => ⟨pos + 1, t.length⟩

theorem behind_spans {pos : ℕ} {pieces : List Piece} {text : NsCString} (d : UInt8)
    (o : Option NsCString) (h : Spans (pos + (optional d o).length) pieces text) :
    Spans pos (([d], behind pos o) :: pieces) (optional d o ++ text) := by
  cases o with
  | none => exact .absent [d] neg_one_lt_zero h
  | some t => exact .present [d] t (h.move (by simp; omega))

/-- The search for the parameter, in front of what is cut off. -/
theorem fileAndParam_eq {path whole back : NsCString} (hpath : path = whole ++ back)
    {pathEnd : ℕ} (hend : pathEnd = whole.length) (query ref : URLSegment) :
    (let whole := path.take pathEnd
     let name := whole.rtakeWhile (· ≠ slash)
     let filename := name.takeWhile (· ≠ semicolon)
     let fileEnd := pathEnd - name.length + filename.length
     if filename.length < name.length then
       (⟨if fileEnd = 0 then {} else ⟨0, fileEnd⟩,
         ⟨fileEnd + 1, pathEnd - (fileEnd + 1)⟩, query, ref⟩ : PathParts)
     else ⟨if pathEnd = 0 then {} else ⟨0, pathEnd⟩, {}, query, ref⟩) =
      ⟨(fileAndParam whole).1, (fileAndParam whole).2, query, ref⟩ := by
  subst hpath hend
  rw [List.take_left, fileAndParam]
  dsimp only
  by_cases hlt : ((whole.rtakeWhile (· ≠ slash)).takeWhile (· ≠ semicolon)).length <
      (whole.rtakeWhile (· ≠ slash)).length
  · rw [if_pos hlt, if_pos hlt]
  · rw [if_neg hlt, if_neg hlt]

/-- A component that goes up to the end. -/
theorem behind_eq {path front t : NsCString} {d : UInt8} (hpath : front ++ d :: t = path) :
    (⟨(front.length + 1 : ℕ), path.length - (front.length + 1 : ℕ)⟩ : URLSegment) =
      behind front.length (some t) := by
  subst hpath
  rw [behind, URLSegment.mk.injEq, List.length_append, List.length_cons]
  exact ⟨by push_cast; rfl, by push_cast; omega⟩

/-- The path is cut at the query and at the reference, and what is in front of them at the
parameter. -/
theorem ParsePath_cut (path : NsCString) :
    ∃ whole query ref, path = whole ++ (optional question query ++ optional hash ref) ∧
      ParsePath path path.length =
        ⟨(fileAndParam whole).1, (fileAndParam whole).2, behind whole.length query,
          behind (whole.length + (optional question query).length) ref⟩ := by
  obtain ⟨back, hback⟩ := List.takeWhile_prefix (l := path) (· ≠ (0 : UInt8))
  rw [ParsePath, cString]
  generalize path.takeWhile (· ≠ (0 : UInt8)) = s at hback ⊢
  rcases Lib.takeWhile_ne_cut hash s with href | ⟨ref, href⟩
  · rw [href, if_neg (lt_irrefl _)]
    rcases Lib.takeWhile_ne_cut question s with hquery | ⟨query, hquery⟩
    · rw [hquery, if_neg (lt_irrefl _)]
      exact ⟨path, none, none, by simp,
        @fileAndParam_eq path path [] (by simp) _ rfl {} {}⟩
    · generalize s.takeWhile (· ≠ question) = whole at hquery ⊢
      subst hquery
      have hlt : whole.length < (whole ++ question :: query).length := by simp
      have hpath : whole ++ question :: (query ++ back) = path := by simp [← hback]
      refine ⟨whole, some (query ++ back), none, by simp [← hback], ?_⟩
      rw [if_pos hlt, ← behind_eq hpath]
      exact fileAndParam_eq hpath.symm (Nat.add_sub_cancel ..) _ {}
  · generalize s.takeWhile (· ≠ hash) = front at href ⊢
    subst href
    have hlt : front.length < (front ++ hash :: ref).length := by simp
    have hpath : front ++ hash :: (ref ++ back) = path := by simp [← hback]
    rw [if_pos hlt]
    rcases Lib.takeWhile_ne_cut question front with hquery | ⟨query, hquery⟩
    · rw [hquery, if_neg (lt_irrefl _)]
      refine ⟨front, none, some (ref ++ back), by simp [← hback], ?_⟩
      have hlen : front.length + (optional question none).length = front.length := rfl
      rw [hlen, ← behind_eq hpath]
      exact fileAndParam_eq hpath.symm (Nat.add_sub_cancel ..) {} _
    · generalize front.takeWhile (· ≠ question) = whole at hquery ⊢
      subst hquery
      have hlt : whole.length < (whole ++ question :: query).length := by simp
      have hlen : whole.length + (optional question (some query)).length =
          (whole ++ question :: query).length := by simp
      have hquery : (⟨(whole.length + 1 : ℕ), ((whole ++ question :: query).length + 1 : ℕ) - 1 -
          (whole.length + 1 : ℕ)⟩ : URLSegment) = behind whole.length (some query) := by
        rw [← @behind_eq (whole ++ question :: query) _ _ _ rfl, URLSegment.mk.injEq]
        exact ⟨rfl, by push_cast; omega⟩
      refine ⟨whole, some query, some (ref ++ back), by simp [← hback], ?_⟩
      rw [if_pos hlt, hlen, ← behind_eq hpath, ← hquery]
      have hwhole : path = whole ++ (question :: query ++ hash :: (ref ++ back)) := by
        simp [← hpath]
      exact fileAndParam_eq hwhole (Nat.add_sub_cancel ..) _ _

theorem ParsePath_spans (path : NsCString) :
    Spans 0
      [([], (ParsePath path path.length).filepath),
        ([semicolon], (ParsePath path path.length).param),
        ([question], (ParsePath path path.length).query),
        ([hash], (ParsePath path path.length).ref)] path := by
  obtain ⟨whole, query, ref, hpath, hparse⟩ := ParsePath_cut path
  rw [hparse]
  have href : Spans (whole.length + (optional question query).length)
      [([hash], behind (whole.length + (optional question query).length) ref)]
      (optional hash ref) := by
    simpa using behind_spans hash ref (.nil _)
  have hspan := (fileAndParam_spans whole).append
    ((behind_spans question query href).move (Nat.zero_add _))
  rwa [← hpath] at hspan

/-- The segments of the file path. As in `nsStandardURL::ParsePath` it is only parsed if there is
one, and its segments are moved to its place. -/
def filePieces (path : NsCString) (filepath : URLSegment) : List Piece :=
  let f := if 0 < filepath.mLen then ParseFilePath (filepath.text path) else ⟨{}, {}, {}⟩
  [([], f.directory.shift filepath.mPos), ([], f.basename.shift filepath.mPos),
    ([dot], f.extension.shift filepath.mPos)]

/-- The segments of a path. -/
def pathPieces (path : NsCString) : List Piece :=
  let p := ParsePath path path.length
  filePieces path p.filepath ++ [([semicolon], p.param), ([question], p.query), ([hash], p.ref)]

theorem filePieces_none {path : NsCString} {filepath : URLSegment} (h : ¬ 0 < filepath.mLen)
    {pos : ℕ} {pieces : List Piece} {text : NsCString} (hspan : Spans pos pieces text) :
    Spans pos (filePieces path filepath ++ pieces) text := by
  rw [filePieces, if_neg h]
  exact .absent [] neg_one_lt_zero (.absent [] neg_one_lt_zero
    (.absent [dot] neg_one_lt_zero hspan))

theorem filePieces_spans {filepath : NsCString} (h : filepath ≠ []) (back : NsCString) :
    Spans 0 (filePieces (filepath ++ back) ⟨0, filepath.length⟩) filepath := by
  have hlen : 0 < (filepath.length : ℤ) := by
    exact_mod_cast List.length_pos_of_ne_nil h
  have htext : URLSegment.text ⟨0, filepath.length⟩ (filepath ++ back) = filepath := by
    simp [URLSegment.text]
  rw [filePieces, if_pos hlen, htext]
  dsimp only
  rw [URLSegment.shift_zero, URLSegment.shift_zero, URLSegment.shift_zero]
  exact ParseFilePath_spans h

/-- The directory, the name, the extension, the parameter, the query and the reference cover the
path, each behind its delimiter if it is there. -/
theorem pathPieces_covers (path : NsCString) : Covers path (pathPieces path) := by
  have hspan := ParsePath_spans path
  rw [pathPieces]
  generalize (ParsePath path path.length).filepath = filepath at hspan ⊢
  apply Spans.covers
  cases hspan with
  | absent _ hseg h => exact filePieces_none (not_lt.mpr hseg.le) h
  | @present _ _ text _ t h =>
    by_cases ht : t = []
    · subst ht
      exact filePieces_none (by simp) h
    · exact (filePieces_spans ht text).append (h.move rfl)

/-- A path with a dot in front of its file name and in its query. -/
example : (pathPieces (Prefs.ascii "/a.b/.c.d;e?f.g/#h")).map
      (pieceText (Prefs.ascii "/a.b/.c.d;e?f.g/#h")) =
    [Prefs.ascii "/a.b/", Prefs.ascii ".c", Prefs.ascii ".d", Prefs.ascii ";e",
      Prefs.ascii "?f.g/", Prefs.ascii "#h"] := by decide

end Kompozer.Net

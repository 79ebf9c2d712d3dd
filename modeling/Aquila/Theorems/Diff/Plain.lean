import Aquila.Theorems.Diff.Git

/-! Unified diffs without the lines of git: all sections become one file. -/

namespace Aquila.Diff
open Unified (Text Line Hunk Edit Kind start placed touched touchedBy text)
variable {r r' : Reader} {e : Edit}

variable (lib : Lib)

/-- A modified file whose lines do not look like headers. -/
structure Section (e : Edit) : Prop where
  clean : CleanPath e.path
  kind : e.kind = .modify
  headed : e.headed = true
  body : ∀ l ∈ bodyLines e, hasPrefix (.ofList l.render) "--- " = false ∧ hasPrefix (.ofList l.render) "+++ " = false

def plainText (es : List Edit) : List UInt8 := Utf8.encode (text (es.flatMap Edit.unified))

/-! ### One file -/

theorem bodyLine_files (r : Reader) (line : String) : (bodyLine r line).files = r.files := by
  unfold bodyLine
  split <;> rfl

theorem step_files {line : String} (git : hasPrefix line "diff --git " = false) (ok : step lib r line = .ok r') :
    r'.files = r.files := by
  have started {r r' : Reader} (ok : (if r.cur.isNone then startFile lib r else .ok r) = .ok r') :
    r'.files = r.files := by
    split_ifs at ok with none
    · rw [startFile, flush_none lib (Option.isNone_iff_eq_none.mp none)] at ok
      cases ok
      rfl
    · cases ok
      rfl
  have same : (if r.inHunk && !hunkBodyLine line then { r with inHunk := false } else r).files = r.files := by
    split_ifs <;> rfl
  simp only [step, git, Bool.false_eq_true, if_false] at ok
  generalize (if r.inHunk && !hunkBodyLine line then { r with inHunk := false } else r) = s at ok same
  rw [← same]
  generalize begun : (if s.cur.isNone then startFile lib s else .ok s) = named at ok
  iterate 4
    split at ok
    · cases ok
      rfl
  iterate 2
    split at ok
    · cases named with
      | error e => cases ok
      | ok t =>
        cases ok
        show t.files = s.files
        exact started begun
  split at ok
  · split at ok
    · cases ok
    · split at ok
      · cases ok
        rfl
      · split at ok
        · cases ok
        · split at ok
          · cases ok
          · cases ok
            rfl
  · split at ok
    · cases ok
      exact bodyLine_files s line
    · cases ok
      rfl

theorem steps_files {lines : List String} (git : ∀ line ∈ lines, hasPrefix line "diff --git " = false)
    (ok : lines.foldlM (step lib) r = .ok r') : r'.files = r.files := by
  induction lines generalizing r with
  | nil =>
    cases ok
    rfl
  | cons line lines ih =>
    obtain ⟨head, tail⟩ := List.forall_mem_cons.mp git
    rw [List.foldlM_cons] at ok
    cases first : step lib r line with
    | error e =>
      rw [first] at ok
      cases ok
    | ok next =>
      rw [first] at ok
      exact (ih tail ok).trans (step_files lib head first)

theorem flush_files (ok : flush lib r = .ok r') : r'.files.length ≤ r.files.length + 1 := by
  cases cur : r.cur with
  | none =>
    rw [flush_none lib cur] at ok
    cases ok
    omega
  | some f =>
    cases done : f.finish with
    | none =>
      obtain ⟨e, failed⟩ := flush_error lib cur done
      rw [failed] at ok
      cases ok
    | some g =>
      obtain ⟨p, path, -⟩ := Option.map_eq_some_iff.mp done
      simp only [flush, cur, path] at ok
      split_ifs at ok
      cases ok
      simp

/-- A text without lines of git is one file at most. -/
theorem read_plain_length {lines : List String} (git : ∀ line ∈ lines, hasPrefix line "diff --git " = false) {d : Diff}
    (ok : read lib lines = .ok d) : d.files.length ≤ 1 := by
  rw [read] at ok
  cases all : lines.foldlM (step lib) {} with
  | error e =>
    rw [all] at ok
    cases ok
  | ok r =>
    rw [all] at ok
    dsimp only at ok
    cases ended : flush lib r with
    | error e =>
      rw [ended] at ok
      cases ok
    | ok r' =>
      rw [ended] at ok
      cases ok
      have := flush_files lib ended
      rwa [steps_files lib git all] at this

theorem unified_not_git {line : List Char} (h : line ∈ e.unified) : hasPrefix (.ofList line) "diff --git " = false := by
  have hunk (old new : Nat) (hs : List Hunk) : ∀ line ∈ Unified.renderHunks old new hs, hasPrefix
    (.ofList line) "diff --git " = false := by
    induction hs generalizing old new with
    | nil => simp [Unified.renderHunks]
    | cons h hs ih =>
      intro line hl
      rw [Unified.renderHunks, List.cons_append, List.mem_cons, List.mem_append, List.mem_map] at hl
      rcases hl with rfl | ⟨l, -, rfl⟩ | hl
      · unfold Hunk.header
        simp only [List.append_assoc]
        exact hasPrefix_of_apart "@@ -" "diff --git " _ (by decide) (by decide)
      · cases l <;> exact hasPrefix_of_head "diff --git " (by decide)
      · exact ih _ _ line hl
  rcases List.mem_append.mp h with h | h
  · unfold Edit.nameLines at h
    by_cases headed : e.headed = true
    · rw [if_pos headed, List.mem_cons, List.mem_singleton] at h
      rcases h with rfl | rfl
      · exact hasPrefix_of_apart "--- " "diff --git " _ (by decide) (by decide)
      · exact hasPrefix_of_apart "+++ " "diff --git " _ (by decide) (by decide)
    · rw [if_neg headed] at h
      cases h
  · exact hunk _ _ _ line h

/-! ### One section -/

theorem Section.heading_eq_none (sec : Section e) : ∀ l ∈ bodyLines e, heading l = none := by
  intro l hl
  obtain ⟨minus, plus⟩ := sec.body l hl
  cases l with
  | context t => rfl
  | noNewline => rfl
  | added t =>
    refine if_neg fun pre => ?_
    simp only [Line.render, hasPrefix_ofList, String.reduceToList, List.isPrefixOf_cons_cons, beq_self_eq_true,
      Bool.true_and, List.isPrefixOf_iff_prefix.mpr pre] at plus
    cases plus
  | deleted t =>
    refine if_neg fun pre => ?_
    simp only [Line.render, hasPrefix_ofList, String.reduceToList, List.isPrefixOf_cons_cons, beq_self_eq_true,
      Bool.true_and, List.isPrefixOf_iff_prefix.mpr pre] at minus
    cases minus

theorem step_minus_first (cur : r.cur = none) (out : r.inHunk = false) (t : List Char) :
    step lib r (.ofList ("--- ".toList ++ t)) = .ok { r with
      cur := some (File.minusLine {} (headerPath (.ofList t))) } := by
  have others := other_words "--- " (headWords.take 8) t (by decide)
  simp only [headWords, List.take_succ_cons, List.forall_mem_cons] at others
  obtain ⟨git, added, deleted, renamed, renamedTo, binary, patch, plus, -⟩ := others
  have rest : ("--- ".toList ++ t).drop 4 = t := List.drop_left' (by decide)
  simp only [step, out, git, added, deleted, renamed, renamedTo, binary, ne_of_not_hasPrefix patch, plus,
    hasPrefix_append, cur, startFile, flush_none lib cur, Reader.onFile, String.toList_ofList, rest, Option.isNone_none,
      Option.map_some, Bool.false_eq_true,
    if_false, Bool.false_and, Bool.and_false, Bool.or_false, decide_false, if_true]

theorem read_section {both old new : List Char} (spelled : Spelled both old new) (kind : e.kind = .modify)
    (headed : e.headed = true)
    (room : e.hunks.length ≤ maxHunks) (d : Diff) :
    read lib ((e.unifiedAs old new).map String.ofList) = .ok d ↔ ∃ f, fileOf (headerPath (.ofList new)) e = some f ∧
    d = ⟨[f]⟩ := by
  have first : step lib {} (.ofList ("--- ".toList ++ old)) = .ok
    { cur := some { path := headerPath (.ofList old) } } := by
    rw [step_minus_first lib rfl rfl]
    simp [File.minusLine, spelled.old]
  have second : step lib { cur := some { path := headerPath (.ofList old) } } (.ofList ("+++ ".toList ++ new)) =
      .ok { cur := some (opened (headerPath (.ofList new)) e) } := by
    rw [step_plus lib rfl rfl, File.plusLine, if_pos spelled.new, opened, kind]
    rfl
  obtain ⟨inHunk, newLn, hunks⟩ :=
    steps_hunks lib (r := { cur := some (opened (headerPath (.ofList new)) e) }) rfl rfl 0 0 e.hunks
      (by simpa using room)
  have modified : e.kind ≠ .add ∧ e.kind ≠ .delete := by simp [kind]
  have steps : ((e.unifiedAs old new).map String.ofList).foldlM (step lib) {} = if StartsFit (placed 0 e.hunks) then
        .ok { cur := some (readFile (headerPath (.ofList new)) e), hunks := 0 + e.hunks.length, inHunk, newLn }
      else .error "diff: bad hunk header" := by
    rw [Edit.unifiedAs, Edit.nameLines, if_pos headed, if_neg modified.1, if_neg modified.2, List.map_append,
      List.map_cons, List.cons_append, List.foldlM_cons, first]
    show List.foldlM (step lib) { cur := some { path := headerPath (.ofList old) } } _ = _
    rw [List.map_cons, List.cons_append, List.foldlM_cons, second]
    exact hunks
  exact read_of_steps lib steps d

/-! ### Sections -/

/-- The files of sections, with the paths and the touched lines of each. -/
def KeptApart (es : List Edit) (d : Diff) : Prop :=
  List.Forall₂ (fun e f => f.path = e.path ∧ f.lines = sortedSet e.touched) es d.files

theorem fileOf_section_iff (sec : Section e) :
    (∃ f, fileOf ("b/" ++ e.path) e = some f ∧ f.path = e.path ∧ f.lines = sortedSet e.touched) ↔
      fileOf ("b/" ++ e.path) e = some (fileFor e) := by
  constructor
  · rintro ⟨f, file, path, lines⟩
    rw [file]
    unfold fileOf at file
    split_ifs at file with fit
    rw [readFile_eq fit _] at file
    obtain ⟨p, -, rfl⟩ := Option.map_eq_some_iff.mp file
    have status : ((bodyLines e).foldl nameLine (opened ("b/" ++ e.path) e)).status = ofKind e.kind :=
      (foldl_nameLine_status (sideStatus_ne e) _).mpr ⟨rfl, fun l hl => by simp [sec.heading_eq_none l hl]⟩
    have binary := foldl_nameLine_binary (opened ("b/" ++ e.path) e) (bodyLines e)
    simp only [File.withLines] at path lines ⊢
    rw [path, lines, status, binary]
    rfl
  · intro file
    exact ⟨fileFor e, file, rfl, rfl⟩

/-- The sections of a plain unified diff are kept apart exactly if there is one at most. -/
theorem parse_plain_apart (lib : Lib) (es : List Edit) (sections : ∀ e ∈ es, Section e)
    (fits : Fits es (plainText es)) :
    (∃ d, parse lib (plainText es) = .ok d ∧ KeptApart es d) ↔ es.length ≤ 1 ∧ ∀ e ∈ es, Numbered e := by
  have lines : ∀ l ∈ es.flatMap Edit.unified, OneLine l := by
    intro l hl
    obtain ⟨e, he, hl⟩ := List.mem_flatMap.mp hl
    obtain ⟨old, new⟩ := oneLine_sides (sections e he).clean
    exact oneLine_unified e old new l hl
  have git : ∀ line ∈ (es.flatMap Edit.unified).map String.ofList, hasPrefix line "diff --git " = false := by
    intro line hl
    obtain ⟨l, mem, rfl⟩ := List.mem_map.mp hl
    obtain ⟨e, -, rendered⟩ := List.mem_flatMap.mp mem
    exact unified_not_git rendered
  rw [plainText, parse_text lib lines fits.size]
  cases es with
  | nil => exact iff_of_true ⟨⟨[]⟩, rfl, .nil⟩ ⟨by simp, by simp⟩
  | cons e es =>
    cases es with
    | nil =>
      have sec := sections e List.mem_cons_self
      have room : e.hunks.length ≤ maxHunks := by simpa using fits.hunks
      have read := read_section lib (spelled_of_clean sec.clean) sec.kind sec.headed room
      rw [headerPath_side sec.clean.chars_new] at read
      rw [List.flatMap_singleton, List.forall_mem_singleton, ← legible_iff_of_plain sec.heading_eq_none,
        ← fileOf_eq_iff sec.clean, ← fileOf_section_iff sec]
      constructor
      · rintro ⟨d, ok, apart⟩
        obtain ⟨f, file, rfl⟩ := (read d).mp ok
        cases apart with
        | cons head tail => exact ⟨Nat.le_refl _, f, file, head⟩
      · rintro ⟨-, f, file, kept⟩
        exact ⟨⟨[f]⟩, (read _).mpr ⟨f, file, rfl⟩, .cons kept .nil⟩
    | cons e' es =>
      refine iff_of_false ?_ fun ⟨one, _⟩ => by simp at one
      rintro ⟨d, ok, apart⟩
      have one := read_plain_length lib git ok
      rw [← apart.length_eq] at one
      simp at one

namespace Sample

def goFile (path : String) (skip : Nat) : Edit where
  path := path
  hunks := [{ skip := skip, lines := [.deleted (word "a := 1"), .added (word "a := 2")] }]
  apart := by simp
  whole := by simp
  named := by simp

theorem section_goFile {path : String} (clean : CleanPath path) (skip : Nat) : Section (goFile path skip) where
  clean := clean
  kind := rfl
  headed := rfl
  body := by
    show ∀ l ∈ [Line.deleted (word "a := 1"), .added (word "a := 2")], _
    decide

theorem clean_b : CleanPath "b.go" := by
  refine ⟨forall_mem_of_all (by decide), ?_, ?_, ?_, ?_, ?_⟩ <;> decide

end Sample

/-- Two sections become one file, with the path of the second and the lines of both. -/
theorem parse_plain_merged : (∀ e ∈ [Sample.goFile "a.go" 4, Sample.goFile "b.go" 8], Section e) ∧
    Fits [Sample.goFile "a.go" 4, Sample.goFile "b.go" 8] (plainText [Sample.goFile "a.go" 4, Sample.goFile "b.go" 8]) ∧
    parse Lib.plain (plainText [Sample.goFile "a.go" 4, Sample.goFile "b.go" 8]) = .ok
    ⟨[{ path := "b.go", lines := [5, 9] }]⟩ := by
  refine ⟨?_, ⟨by decide +kernel, by decide, by decide⟩, by decide +kernel⟩
  exact List.forall_mem_cons.mpr
    ⟨Sample.section_goFile Sample.clean_a 4, List.forall_mem_singleton.mpr (Sample.section_goFile Sample.clean_b 8)⟩

theorem parse_plain_one : (∀ e ∈ [Sample.goFile "a.go" 4], Section e) ∧
    Fits [Sample.goFile "a.go" 4] (plainText [Sample.goFile "a.go" 4]) ∧
    ∃ d, parse Lib.plain (plainText [Sample.goFile "a.go" 4]) = .ok d ∧ KeptApart [Sample.goFile "a.go" 4] d := by
  have sections : ∀ e ∈ [Sample.goFile "a.go" 4], Section e :=
    List.forall_mem_singleton.mpr (Sample.section_goFile Sample.clean_a 4)
  have fits : Fits [Sample.goFile "a.go" 4] (plainText [Sample.goFile "a.go" 4]) :=
    ⟨by decide +kernel, by decide, by decide⟩
  have numbered : ∀ e ∈ [Sample.goFile "a.go" 4], Numbered e :=
    List.forall_mem_singleton.mpr ⟨by decide, by decide, by decide⟩
  exact ⟨sections, fits, (parse_plain_apart Lib.plain _ sections fits).mpr ⟨by decide, numbered⟩⟩

end Aquila.Diff

import Aquila.Theorems.Diff.Patch

/-! What `Apply` leaves on the disk when it is given the diff that git writes for a file of the directory. -/

namespace Aquila.Diff
open Files (Loc)
open Unified (Text Line Hunk Edit Names Kind start placed placedOld Turns linesOf text)

theorem collectApply_text {ls : List (List Char)} (h : ∀ l ∈ ls, OneLine l) (ne : ls ≠ []) :
    collectApply (Utf8.encode (text ls)) = collectLines (ls.map String.ofList) := by
  obtain ⟨l, ls, rfl⟩ := List.exists_cons_of_ne_nil ne
  have ended : '\n' ∈ text (l :: ls) := by simp [text]
  have chars : (Utf8.runes (Utf8.encode (text (l :: ls)))).filterMap id = text (l :: ls) := by
    rw [Utf8.runes_encode, List.filterMap_map]
    exact List.filterMap_some
  unfold collectApply
  simp only [chars, ended, not_true_eq_false, false_and, if_false, scanLines_text h]

theorem size_lt {n : Nat} {t : List Char} (h : (Utf8.encode t).length ≤ maxApplyFile)
    (le : n ≤ (linesOf t).length + 1) : n < 2 ^ 63 := by
  have lines := Unified.length_linesOf_le t
  have bytes := Utf8.length_le_encode t
  have limit : maxApplyFile + 1 < 2 ^ 63 := by decide
  omega

section
variable {e : Edit} {old new : List Char}

theorem oldStartsFit_of_turns (turns : Turns e.hunks (linesOf old) (linesOf new))
    (short : (Utf8.encode old).length ≤ maxApplyFile) :
    OldStartsFit (placedOld 0 e.hunks) := by
  intro h hh
  have within := turns.placedOld_le 0 h hh
  have le := Unified.start_le h.1 h.2.oldLen
  exact size_lt short (by omega)

theorem startsFit_of_turns (turns : Turns e.hunks (linesOf old) (linesOf new))
    (short : (Utf8.encode new).length ≤ maxApplyFile) :
    StartsFit (placed 0 e.hunks) := by
  intro h hh
  have within := turns.placed_le 0 h hh
  have le := Unified.start_le h.1 h.2.newLen
  exact size_lt short (by omega)

theorem exists_fileOf_iff (read : String) (fits : StartsFit (placed 0 e.hunks))
    (body : ∀ l ∈ bodyLines e, heading l = none) :
    (∃ f, fileOf read e = some f) ↔ ∃ path, canonicalPath read = some path := by
  have same : (bodyLines e).foldl nameLine (opened read e) = opened read e := by
    refine List.foldlRecOn (motive := (· = opened read e)) _ _ rfl fun f hf l hl => ?_
    rw [nameLine_of_plain (by rw [plain, body l hl]; rfl), hf]
  rw [fileOf, if_pos fits, readFile_eq fits, same, File.finish]
  simp [File.withLines, opened]

end

theorem applyToLines_edit {e : Edit} {old new : List Char} (turns : Turns e.hunks (linesOf old) (linesOf new)) :
    applyToLines (splitLines (.ofList old)) ((placedOld 0 e.hunks).map collectedHunk) =
      .ok (ended (splitLines (.ofList old)) (patched 0 e.hunks (splitLines (.ofList old)))) := by
  have lines := map_splitLines old
  have state : Between 0 [] ((linesOf old).map lineText) { rest := splitLines (.ofList old) } :=
    ⟨by rw [lines]; rfl, by simp, Nat.le_refl 0⟩
  obtain ⟨p, done, out⟩ := patch_hunks turns state (fun pos => absurd pos (Nat.lt_irrefl 0)) e.apart
  rw [← lines] at out
  unfold applyToLines
  rw [done]
  simp only [out, List.nil_append, ended]

/-- The path that is read in a diff leads to a location. -/
def LeadsTo (root : String) (tree : Files.Tree (List UInt8)) (read : String) (loc : Loc) : Prop :=
  ∃ path, canonicalPath read = some path ∧ Os.Takes (names root ++ names path) ∧
    Files.resolve tree false (names root ++ names path) = .ok loc

section
variable {root : String} {tree : Files.Tree (List UInt8)} {hunks : List ApplyHunk} {path : String} {loc : Loc}

theorem applied_modify_iff (absolute : Absolute root) (canonical : Canonical path) {d' : Disk} :
    Applied root { path, hunks } { tree } d' ↔ root ≠ "/" ∧ Os.Takes (names root ++ names path) ∧
      ∃ loc raw out, Files.resolve tree false (names root ++ names path) = .ok loc ∧ Rewrites tree loc hunks raw out ∧
        d' = { tree := tree.put loc (.file (bytes out)), touched := [loc] } := by
  constructor
  · intro applied
    cases applied with
    | add _ status => cases status
    | delete _ status => cases status
    | @modify ds n out raw cs _ _ _ dest takes whole entry short decoded patched =>
      rcases exists_place absolute canonical with ⟨-, e, escapes⟩ | ⟨below, ds', n', dest', names⟩
      · rw [dest.contained] at escapes
        cases escapes
      · obtain ⟨rfl, rfl⟩ := dest.unique dest'
        have parent := Files.dirAt_home whole
        rw [List.reverse_reverse] at parent
        rw [names]
        exact ⟨below, takes, _, raw, out, Files.resolve_of_dirAt dest.plain parent,
          ⟨entry, short, cs, decoded, patched⟩, rfl⟩
  · rintro ⟨below, takes, loc, raw, out, way, ⟨entry, short, cs, decoded, patched⟩, rfl⟩
    rcases exists_place absolute canonical with ⟨top, -⟩ | ⟨-, ds, n, dest, names⟩
    · exact absurd top below
    · rw [names] at takes way
      have found : Files.lstat tree (ds ++ [n]) = .ok (.file raw) := by
        rw [Files.lstat, way]
        simp only [entry]
      obtain ⟨whole, -⟩ := (Files.lstat_concat dest.plain).mp found
      have parent := Files.dirAt_home whole
      rw [List.reverse_reverse] at parent
      obtain rfl := Except.ok.inj (way.symm.trans (Files.resolve_of_dirAt dest.plain parent))
      exact .modify rfl (fun h => by cases h) (fun h => by cases h) dest takes whole entry short decoded patched

theorem leadsTo_iff {read : String} (canonical : canonicalPath read = some path) :
    LeadsTo root tree read loc ↔ Os.Takes (names root ++ names path) ∧
    Files.resolve tree false (names root ++ names path) = .ok loc := by
  constructor
  · rintro ⟨path', found, leads⟩
    rwa [Option.some.inj (canonical.symm.trans found)]
  · exact fun leads => ⟨path, canonical, leads⟩

/-- Writing one file gives the new text of another only if there is nothing to be changed in either. -/
theorem put_exact_iff {loc' : Loc} {old new : List Char} {raw data : List UInt8}
    (file : tree.get loc = some (.file (Utf8.encode old)))
    (file' : tree.get loc' = some (.file raw)) :
    (∀ l, (tree.put loc' (.file data)).get l = if l = loc then some (.file (Utf8.encode new)) else tree.get l) ↔
      if loc' = loc then data = Utf8.encode new else old = new ∧ data = raw := by
  have room := Files.room_of_file file'
  split_ifs with here
  · subst here
    rw [Files.Tree.get_put_eq_iff room, Files.Entry.file.injEq]
  · simp only [Files.Tree.get_put room]
    constructor
    · intro all
      have old' := all loc
      have idle := all loc'
      rw [if_neg (Ne.symm here), if_pos rfl, file, Option.some.injEq, Files.Entry.file.injEq] at old'
      rw [if_pos rfl, if_neg here, file', Option.some.injEq, Files.Entry.file.injEq] at idle
      exact ⟨Utf8.encode_injective old', idle⟩
    · rintro ⟨rfl, rfl⟩ l
      by_cases there : l = loc'
      · rw [if_pos there, if_neg (there ▸ here), there, file']
      · rw [if_neg there]
        split_ifs with target
        · rw [target, file]
        · rfl

end

theorem apply_namedText (lib : Lib) {cwd root : String} {tree : Files.Tree (List UInt8)}
    (dir : Os.stat tree (absPath cwd root) = .ok .dir) {e : Edit}
    (kind : e.kind = .modify) {nm : Names} (body : ∀ l ∈ bodyLines e, heading l = none)
    (fits : Fits [e] (namedText e nm)) {old new : List Char}
    (turns : Turns e.hunks (linesOf old) (linesOf new)) (short : (Utf8.encode old).length ≤ maxApplyFile)
    (short' : (Utf8.encode new).length ≤ maxApplyFile) {path : String}
    (canonical : canonicalPath (readPath e nm.both nm.new) = some path) :
    apply lib cwd root (namedText e nm) { tree } =
      applyAll (absPath cwd root) [{ path, hunks := (placedOld 0 e.hunks).map collectedHunk }] { tree } := by
  obtain ⟨f, file⟩ := (exists_fileOf_iff (readPath e nm.both nm.new) (startsFit_of_turns turns short') body).mpr
    ⟨path, canonical⟩
  have parsed := (parse_namedText lib fits ⟨[f]⟩).mpr ⟨f, file, rfl⟩
  have collected : collectApply (namedText e nm) = .ok
    [{ path, hunks := (placedOld 0 e.hunks).map collectedHunk }] := by
    rw [namedText, collectApply_text (oneLine_git e nm.both.2 nm.old.2 nm.new.2) (by simp [Edit.gitAs]),
      collect_edit (spelled_of_names nm) kind (oldStartsFit_of_turns turns short) body canonical]
  unfold apply
  simp only [parsed, dir, collected, List.cons_ne_nil, if_false]

/-- Applying the diff that git writes for a file gives the new text, and changes nothing else, exactly if the
    directory is not `/`, the names in the diff are read as a path to the file, and the edit is faithful. A diff
    that changes nothing may also be read as one for another file. -/
theorem apply_git_exact (lib : Lib) {cwd : String} (rooted : hasPrefix cwd "/" = true) (root : String)
    (tree : Files.Tree (List UInt8))
    (dir : Os.stat tree (absPath cwd root) = .ok .dir) {e : Edit} (kind : e.kind = .modify) (nm : Names)
    (body : ∀ l ∈ bodyLines e, heading l = none) (fits : Fits [e] (namedText e nm)) {old new : List Char}
    (turns : Turns e.hunks (linesOf old) (linesOf new)) (short : (Utf8.encode old).length ≤ maxApplyFile)
    (short' : (Utf8.encode new).length ≤ maxApplyFile) {loc : Loc}
    (way : Files.resolve tree false (names (absPath cwd root ++ "/" ++ e.path)) = .ok loc)
    (file : tree.get loc = some (.file (Utf8.encode old))) :
    ((apply lib cwd root (namedText e nm) { tree }).1 = .ok () ∧
      ∀ loc', (apply lib cwd root (namedText e nm) { tree }).2.tree.get loc' =
        if loc' = loc then some (.file (Utf8.encode new)) else tree.get loc') ↔
      absPath cwd root ≠ "/" ∧ ∃ loc', LeadsTo (absPath cwd root) tree (readPath e nm.both nm.new) loc' ∧
        if loc' = loc then Faithful old new e.hunks
        else old = new ∧ ∃ raw out, Rewrites tree loc' ((placedOld 0 e.hunks).map collectedHunk) raw out ∧
        bytes out = raw := by
  have absolute := absolute_absPath rooted root
  have valid := exists_fileOf_iff (readPath e nm.both nm.new) (startsFit_of_turns turns short') body
  rw [names_append] at way
  cases canonical : canonicalPath (readPath e nm.both nm.new) with
  | none =>
    obtain ⟨err, refused⟩ : ∃ err, parse lib (namedText e nm) = .error err := by
      cases parsed : parse lib (namedText e nm) with
      | error err => exact ⟨err, rfl⟩
      | ok d =>
        obtain ⟨f, file, -⟩ := (parse_namedText lib fits d).mp parsed
        obtain ⟨path, found⟩ := valid.mp ⟨f, file⟩
        rw [canonical] at found
        cases found
    refine iff_of_false (fun h => by simp [apply, refused] at h) ?_
    rintro ⟨-, loc', ⟨path, found, -⟩, -⟩
    rw [canonical] at found
    cases found
  | some path =>
    simp only [leadsTo_iff canonical]
    have patches : Rewrites tree loc ((placedOld 0 e.hunks).map collectedHunk) (Utf8.encode old) _ :=
      ⟨file, short, old, decodeText_encode old, applyToLines_edit turns⟩
    rw [apply_namedText lib dir kind body fits turns short short' canonical, applyAll]
    rcases settles_applyOne (d := { tree }) (f := { path, hunks := (placedOld 0 e.hunks).map collectedHunk })
      absolute.rooted
      (canonical_of_canonicalPath canonical) with ⟨d', applied, result⟩ | ⟨d', err, left, result⟩
    · obtain ⟨below, takes, loc', raw, out, way', rewrites, rfl⟩ :=
        (applied_modify_iff absolute (canonical_of_canonicalPath canonical)).mp applied
      rw [result]
      simp only [applyAll, true_and, put_exact_iff file rewrites.entry]
      constructor
      · intro written
        refine ⟨below, loc', ⟨takes, way'⟩, ?_⟩
        split_ifs at written ⊢ with here
        · subst here
          obtain ⟨rfl, rfl⟩ := rewrites.unique patches
          rwa [bytes_eq_encode, Utf8.encode_injective.eq_iff, ended_eq_iff turns e.apart] at written
        · exact ⟨written.1, raw, out, rewrites, written.2⟩
      · rintro ⟨-, loc'', ⟨-, led⟩, rest⟩
        obtain rfl := Except.ok.inj (led.symm.trans way')
        split_ifs at rest ⊢ with here
        · subst here
          obtain ⟨rfl, rfl⟩ := rewrites.unique patches
          rwa [bytes_eq_encode, Utf8.encode_injective.eq_iff, ended_eq_iff turns e.apart]
        · obtain ⟨same, raw', out', rewrites', idle⟩ := rest
          obtain ⟨rfl, rfl⟩ := rewrites.unique rewrites'
          exact ⟨same, idle⟩
    · rw [result]
      refine iff_of_false (by simp) ?_
      rintro ⟨below, loc', ⟨takes, way'⟩, rest⟩
      have refused {raw : List UInt8} {out : String}
        (rewrites : Rewrites tree loc' ((placedOld 0 e.hunks).map collectedHunk) raw out) : False :=
        left.refused _ ((applied_modify_iff absolute (canonical_of_canonicalPath canonical)).mpr
          ⟨below, takes, loc', raw, out, way', rewrites, rfl⟩)
      split_ifs at rest with here
      · subst here
        exact refused patches
      · obtain ⟨-, raw, out, rewrites, -⟩ := rest
        exact refused rewrites

namespace Sample

def replaced : Edit where
  path := "a.go"
  hunks := [{ skip := 1, lines := [.deleted (word "b"), .added (word "c")] }]
  apart := by decide
  whole := by simp
  named := by simp

def inserted : Edit where
  path := "a.go"
  hunks := [{ skip := 1, lines := [.added (word "x")] }]
  apart := by decide
  whole := by simp
  named := by simp

def cutOff : Edit where
  path := "a.go"
  hunks := [{ skip := 0, lines := [.deleted (word "a"), .added (word "a"), .noNewline] }]
  apart := by decide
  whole := by simp
  named := by simp

theorem fits_replaced : Fits [replaced] (namedText replaced names) := ⟨by decide +kernel, by decide, by decide⟩
theorem turns_replaced : Turns replaced.hunks (linesOf ['a', '\n', 'b', '\n']) (linesOf ['a', '\n', 'c', '\n']) :=
  ⟨[(['a'], true)], [], [], rfl, rfl, rfl, rfl⟩

end Sample

theorem apply_git_replaced : (apply Lib.plain "/" "app" (namedText Sample.replaced Sample.names)
    { tree := Sample.app ['a', '\n', 'b', '\n'] }).1 = .ok () ∧
    ∀ loc', (apply Lib.plain "/" "app" (namedText Sample.replaced Sample.names) { tree := Sample.app ['a', '\n', 'b',
      '\n'] }).2.tree.get loc' =
      if loc' = ["app", "a.go"] then some (.file (Utf8.encode ['a', '\n', 'c', '\n']))
        else (Sample.app ['a', '\n', 'b', '\n']).get loc' := by
  refine (apply_git_exact Lib.plain (by decide) "app" (Sample.app ['a', '\n', 'b', '\n'])
    (by decide +kernel) rfl Sample.names (by decide +kernel)
    Sample.fits_replaced Sample.turns_replaced (by decide) (by decide) (by decide +kernel) (by decide +kernel)).mpr
    ⟨by decide, ["app", "a.go"], ⟨"a.go", by decide +kernel, by decide +kernel, by decide +kernel⟩, ?_⟩
  rw [if_pos rfl]
  exact ⟨.inr rfl, fun displaced => absurd displaced (by decide), trivial⟩

/-- A line is put before the line that it is to follow, and a newline at the end cannot be taken away. -/
theorem apply_git_misplaced :
    Turns Sample.inserted.hunks (linesOf ['a', '\n', 'b', '\n']) (linesOf ['a', '\n', 'x', '\n', 'b', '\n']) ∧
    (apply Lib.plain "/" "app" (gitText [Sample.inserted]) { tree := Sample.app ['a', '\n', 'b', '\n'] }).1 = .ok () ∧
    (apply Lib.plain "/" "app" (gitText [Sample.inserted]) { tree := Sample.app ['a', '\n', 'b', '\n'] }).2.tree.get
      ["app", "a.go"] =
      some (.file (Utf8.encode ['x', '\n', 'a', '\n', 'b', '\n'])) ∧
    Turns Sample.cutOff.hunks (linesOf ['a', '\n']) (linesOf ['a']) ∧
    (apply Lib.plain "/" "app" (gitText [Sample.cutOff]) { tree := Sample.app ['a', '\n'] }).2.tree.get
      ["app", "a.go"] =
      some (.file (Utf8.encode ['a', '\n'])) := by
  exact ⟨⟨[(['a'], true)], _, _, rfl, rfl, rfl,
    rfl⟩, by decide +kernel, by decide +kernel, ⟨[], [], [], rfl, rfl, rfl, rfl⟩, by decide +kernel⟩

end Aquila.Diff

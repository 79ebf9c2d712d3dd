import Aquila.Theorems.Diff.Plain
import Aquila.Theorems.Impact.Classified

/-! Edits outside of functions. A line that is deleted directly above a function is taken for a change of the
    function. -/

namespace Aquila.Impact
open Source (Node)
open Unified (Edit Names Turns placed markedBy touchedBy start text)
open Diff (parse fileOf readPath headerPath bodyLines nameLine opened lastName StartsFit Fits namedText canonicalPath)
variable {path : String} {e : Edit} {data : List UInt8}

/-! ### Versions of a file -/

/-- The first and the last line of a function. -/
structure Extent where
  first : Nat
  last : Nat
  positive : 1 ≤ first
  ordered : first ≤ last

namespace Extent

def Has (x : Extent) (n : Nat) : Prop := x.first ≤ n ∧ n ≤ x.last

instance (x : Extent) (n : Nat) : Decidable (x.Has n) := inferInstanceAs (Decidable (_ ∧ _))

def Disjoint (x y : Extent) : Prop := x.last < y.first ∨ y.last < x.first

end Extent

/-- A version of a Go file: its lines, each with whether a newline ends it, and its functions. -/
structure Version where
  lines : List (List Char × Bool)
  funcs : List Extent
  within : ∀ x ∈ funcs, x.last ≤ lines.length
  disjoint : funcs.Pairwise Extent.Disjoint

/-- The line lies in no function. -/
def Version.Outside (v : Version) (n : Nat) : Prop := ∀ x ∈ v.funcs, ¬x.Has n

/-- The graph has the functions of a version under the path. -/
structure Holds (g : Source.Snapshot) (path : String) (v : Version) : Prop where
  file : ∃ n ∈ g.nodes, n.kind = .file ∧ n.file = path
  functions : ∀ fn ∈ g.nodes, fn.kind = .function → fn.file = path →
    fn.id ≠ "" ∧ ∃ x ∈ v.funcs, fn.line = x.first ∧ fn.endLine = x.last
  extents : ∀ x ∈ v.funcs, ∃ fn ∈ g.nodes, fn.kind = .function ∧ fn.file = path ∧ fn.line = x.first ∧
    fn.endLine = x.last

/-- Some line is deleted outside of the old functions or added outside of the new ones. -/
def EditedOutside (e : Edit) (old new : Version) : Prop :=
  (∃ n ∈ Unified.deletedBy 0 e.hunks, old.Outside n) ∨ ∃ n ∈ Unified.addedBy 0 e.hunks, new.Outside n

/-! ### One file -/

theorem closed_of_extent {fn : Node} {x : Extent} (first : fn.line = x.first) (last : fn.endLine = x.last) :
    closed fn = true := by
  have := x.positive
  have := x.ordered
  simp only [closed, first, last, ge_iff_le, Nat.cast_le, gt_iff_lt, Bool.and_eq_true, decide_eq_true_eq]
  omega

theorem mem_funcSpans_of_closed {fn : Node} : ∀ {l : List Node}, fn ∈ l → closed fn = true →
    (fn, int64 (fn.endLine + 1)) ∈ funcSpans l
  | x :: l, h, known => by
    rcases List.mem_cons.mp h with rfl | h
    · simp [funcSpans, spanEnd, known]
    · exact List.mem_cons_of_mem _ (mem_funcSpans_of_closed h known)

theorem hitOf_eq_none_iff {g : Source.Snapshot} {v : Version} (holds : Holds g path v) (named : path ≠ "")
    (size : v.lines.length + 1 < 2 ^ 63) (n : Nat) : hitOf (funcSpans (funcs g path)) n = none ↔ v.Outside n := by
  have next {x : Extent} (hx : x ∈ v.funcs) : int64 ((x.last : Int) + 1) = x.last + 1 := by
    have := v.within x hx
    exact int64_of_range (by omega) (by omega)
  rw [hitOf, Option.map_eq_none_iff, List.find?_eq_none]
  constructor
  · intro missed x hx inside
    obtain ⟨fn, listed, function, file, first, last⟩ := holds.extents x hx
    have known := closed_of_extent first last
    refine missed _ (mem_funcSpans_of_closed (mem_funcs.mpr ⟨listed, function, file ▸ named, file⟩) known) ?_
    obtain ⟨after, upto⟩ := inside
    simp only [first, last, next hx, Bool.and_eq_true, decide_eq_true_eq]
    omega
  · rintro outside ⟨fn, stop⟩ listed hit
    obtain ⟨before, rest, split, rfl⟩ := mem_funcSpans listed
    obtain ⟨member, function, -, file⟩ := mem_funcs.mp (show fn ∈ funcs g path by rw [split]; simp)
    obtain ⟨-, x, hx, first, last⟩ := holds.functions fn member function file
    refine outside x hx ?_
    simp only [spanEnd, closed_of_extent first last, if_true, first, last, next hx, Bool.and_eq_true,
      decide_eq_true_eq] at hit
    exact ⟨by omega, by omega⟩

theorem hits_eq_nil_or_outside_iff (fns : List Node) (lines : List Int) :
    ((overlappingFuncs fns lines).2 = true ∨ (overlappingFuncs fns lines).1 = []) ↔
      lines = [] ∨ ∃ ln ∈ lines, hitOf (funcSpans fns) ln = none := by
  rw [outside_iff]
  constructor
  · rintro (outside | none)
    · exact .inr outside
    · cases lines with
      | nil => exact .inl rfl
      | cons ln rest =>
        cases found : hitOf (funcSpans fns) ln with
        | none => exact .inr ⟨ln, List.mem_cons_self, found⟩
        | some fn =>
          have kept := @id_mem_hits fns (ln :: rest) ln fn List.mem_cons_self found
          rw [none] at kept
          exact nomatch kept
  · rintro (rfl | outside)
    · exact .inr rfl
    · exact .inl outside

variable {lib : Lib} {g : Source.Snapshot} {loc : Locate.Snapshot} {rt : Graph.Snapshot} {f : Diff.File}

/-- The file of a diff of one file is bound unless a changed line is in no function or there is none. -/
theorem boundIDs_single_iff {node : Node} (known : fileNode g f.path = some node) (text : f.binary = false)
    (ids : ∀ fn ∈ funcs g f.path, fn.id ≠ "") : boundIDs (analyze lib (some g) ⟨[f]⟩ loc rt) f.path = none ↔
      f.lines = [] ∨ ∃ ln ∈ f.lines, hitOf (funcSpans (funcs g f.path)) ln = none := by
  have perm : (analyze lib (some g) ⟨[f]⟩ loc rt).direct.Perm ((fileFindings g f).take maxFindings) := by
    have perm := analyze_direct_perm lib g ⟨[f]⟩ loc rt
    rwa [List.flatMap_singleton] at perm
  have listed : hits g f = (overlappingFuncs (funcs g f.path) f.lines).1 := if_pos ⟨by simp [known], text⟩
  rw [← hits_eq_nil_or_outside_iff, ← listed]
  constructor
  · intro unbound
    by_contra inside
    obtain ⟨covered, nonempty⟩ := not_or.mp inside
    have findings : fileFindings g f = (hits g f).map hitFinding := by
      simp [fileFindings, known, text, covered, nonempty]
    have all : ∀ x ∈ (analyze lib (some g) ⟨[f]⟩ loc rt).direct, x.file = f.path ∧ x.reason = "changed_lines" ∧
      x.sourceID ≠ "" := by
      intro x hx
      have member := List.mem_of_mem_take (perm.mem_iff.mp hx)
      refine ⟨file_of_mem_fileFindings member, ?_⟩
      rw [findings] at member
      obtain ⟨hit, hh, rfl⟩ := List.mem_map.mp member
      exact ⟨rfl, ids _ (mem_hits_of_file hh).1⟩
    have own : (analyze lib (some g) ⟨[f]⟩ loc rt).direct.filter (·.file = f.path) =
      (analyze lib (some g) ⟨[f]⟩ loc rt).direct :=
      List.filter_eq_self.mpr fun x hx => by simpa using (all x hx).1
    have some' : (analyze lib (some g) ⟨[f]⟩ loc rt).direct ≠ [] := by
      intro none
      have empty := (none ▸ perm).nil_eq
      rw [findings] at empty
      cases first : hits g f with
      | nil => exact nonempty first
      | cons hit rest =>
        rw [first] at empty
        exact nomatch empty
    unfold boundIDs at unbound
    dsimp only at unbound
    rw [own, if_neg] at unbound
    · exact nomatch unbound
    · rintro (none | bad)
      · exact some' none
      · obtain ⟨x, hx, bad⟩ := List.any_eq_true.mp bad
        obtain ⟨-, reason, named⟩ := all x hx
        simp [reason, named] at bad
  · intro outside
    cases bound : boundIDs (analyze lib (some g) ⟨[f]⟩ loc rt) f.path with
    | none => rfl
    | some ids =>
      obtain ⟨-, lines, -⟩ := boundIDs_eq_some bound
      obtain ⟨x, rest, findings, reason⟩ : ∃ x rest, fileFindings g f = x :: rest ∧ x.reason ≠ "changed_lines" := by
        unfold fileFindings
        rw [known]
        dsimp only
        rw [if_neg (by simp [text])]
        rcases outside with outside | none
        · rw [if_pos outside]
          exact ⟨_, _, rfl, by simp [fileFinding]⟩
        · rw [if_pos none]
          split_ifs
          · exact ⟨_, _, rfl, by simp [fileFinding]⟩
          · exact ⟨_, _, rfl, by simp [fileFinding]⟩
      have first : x ∈ (fileFindings g f).take maxFindings := by
        rw [findings]
        exact List.mem_cons_self
      exact absurd (lines x (perm.mem_iff.mpr first) (file_of_mem_fileFindings (List.mem_of_mem_take first))) reason

theorem unanalyzed_single_iff : path ∈ (classify (analyze lib (some g) ⟨[f]⟩ loc rt)).unanalyzed ↔
    f.path = path ∧ inert path = false ∧ boundIDs (analyze lib (some g) ⟨[f]⟩ loc rt) path = none := by
  rw [mem_unanalyzed, mem_analyze_files, List.map_singleton, List.mem_singleton, eq_comm]

/-! ### What is recorded of an edit -/

/-- The texts of an edit, with or without the lines of git, and the path that is read in the header. -/
inductive Written (e : Edit) : List UInt8 → String → Prop
  | git (nm : Names) : Written e (namedText e nm) (readPath e nm.both nm.new)
  | plain (nm : Names) (kind : e.kind = .modify) (headed : e.headed = true) :
    Written e (Utf8.encode (text (e.unifiedAs nm.old nm.new))) (headerPath (.ofList nm.new))

theorem Written.ne_empty (written : Written e data path) : path ≠ "" := by
  cases written with
  | git nm => exact (Diff.spelled_of_names nm).readPath_ne_empty e
  | plain nm => exact (Diff.spelled_of_names nm).new.2

theorem parse_written (written : Written e data path) (fits : Fits [e] data) (d : Diff) :
    parse lib data = .ok d ↔ ∃ f, fileOf path e = some f ∧ d = ⟨[f]⟩ := by
  cases written with
  | git nm => exact Diff.parse_namedText lib fits d
  | plain nm kind headed =>
    rw [Diff.parse_text lib (Diff.oneLine_unified e nm.old.2 nm.new.2) fits.size]
    exact Diff.read_section lib (Diff.spelled_of_names nm) kind headed (by simpa using fits.hunks) d

/-- The numbers of new lines that are recorded for an edit: of each changed line that does not look like a header, the
    number of the new line that it is or stands before, counted from the start that its hunk names. -/
def recorded (e : Edit) : List Nat := (markedBy Diff.plain (placed 0 e.hunks)).filter (0 < ·)

theorem fileOf_of_size {old new : List (List Char × Bool)} (turns : Turns e.hunks old new)
    (size : new.length + 1 < 2 ^ 63)
    (named : path ≠ "") :
    fileOf path e = (canonicalPath ((lastName (bodyLines e)).getD path)).map fun p =>
      { (((bodyLines e).foldl nameLine (opened path e))) with
        path := p, lines := Diff.uniqueInts ((markedBy Diff.plain (placed 0 e.hunks)).map fun x : Nat =>
          (x : Int)) } := by
  have within := turns.placed_le 0
  have starts : StartsFit (placed 0 e.hunks) := by
    intro h hh
    have := within h hh
    have := Unified.start_le h.1 h.2.newLen
    have : (start h.1 h.2.newLen) ≤ new.length + 1 := by omega
    omega
  have numbers : ∀ x ∈ markedBy Diff.plain (placed 0 e.hunks), int64 x = x := by
    intro x hx
    obtain ⟨y, hy, le⟩ := Diff.exists_touchedBy_above hx
    obtain ⟨h, hh, hy⟩ := List.mem_flatMap.mp hy
    have upper := (Unified.bounds_of_mem_touched hy).2
    have := within h hh
    have len : h.2.lines.countP Unified.Line.onNew = h.2.newLen := rfl
    exact Diff.int64_of_lt (by omega)
  rw [fileOf, if_pos starts, Diff.readFile_eq starts, Diff.File.finish, List.map_congr_left numbers]
  have last := Diff.foldl_nameLine_path (f := opened path e) named (bodyLines e)
  simp only [Diff.File.withLines, last]
  rfl

theorem mem_uniqueInts_cast {ns : List Nat} {x : Int} : x ∈ Diff.uniqueInts (ns.map fun n : Nat => (n : Int)) ↔
    ∃ n ∈ ns.filter (0 < ·), x = n := by
  simp only [Diff.uniqueInts, List.mem_insertionSort, List.mem_dedup, List.mem_filter, List.mem_map, decide_eq_true_eq]
  constructor
  · rintro ⟨⟨n, hn, rfl⟩, pos⟩
    exact ⟨n, ⟨hn, by omega⟩, rfl⟩
  · rintro ⟨n, ⟨hn, pos⟩, rfl⟩
    exact ⟨⟨n, hn, rfl⟩, by omega⟩

/-- An edit that is seen to lie outside of functions. -/
structure Seen (e : Edit) (path : String) (new : Version) : Prop where
  active : inert e.path = false
  /-- The last name, of the header or of an added line that looks like one, is read as that of the file. -/
  named : canonicalPath ((lastName (bodyLines e)).getD path) = some e.path
  /-- Nothing is recorded, or a number that is in no function. -/
  number : recorded e = [] ∨ ∃ n ∈ recorded e, new.Outside n

theorem unanalyzed_iff_seen {old new : Version} (written : Written e data path)
    (fits : Fits [e] data) (turns : Turns e.hunks old.lines new.lines) (size : new.lines.length + 1 < 2 ^ 63)
    (holds : Holds g e.path new) :
    (∃ d, parse lib data = .ok d ∧ e.path ∈ (classify (analyze lib (some g) d loc rt)).unanalyzed) ↔
    Seen e path new := by
  have file := fileOf_of_size turns size written.ne_empty
  have facts {f : Diff.File} (found : fileOf path e = some f) : f.binary = false ∧
      canonicalPath ((lastName (bodyLines e)).getD path) = some f.path ∧
      f.lines = Diff.uniqueInts ((markedBy Diff.plain (placed 0 e.hunks)).map fun x : Nat => (x : Int)) := by
    rw [file] at found
    obtain ⟨p, canonical, rfl⟩ := Option.map_eq_some_iff.mp found
    exact ⟨Diff.foldl_nameLine_binary (opened path e) (bodyLines e), canonical, rfl⟩
  have known (named : e.path ≠ "") : ∃ node, fileNode g e.path = some node := by
    obtain ⟨n, listed, kind, same⟩ := holds.file
    refine Option.isSome_iff_exists.mp (List.find?_isSome.mpr ⟨n, List.mem_reverse.mpr listed, ?_⟩)
    simp [kind, same, named]
  have ids : ∀ fn ∈ funcs g e.path, fn.id ≠ "" := by
    intro fn hfn
    obtain ⟨member, function, -, same⟩ := mem_funcs.mp hfn
    exact (holds.functions fn member function same).1
  have number (named : e.path ≠ "") {f : Diff.File}
      (lines : f.lines = Diff.uniqueInts ((markedBy Diff.plain (placed 0 e.hunks)).map fun x : Nat => (x : Int))) :
      (f.lines = [] ∨ ∃ ln ∈ f.lines, hitOf (funcSpans (funcs g e.path)) ln = none) ↔
        recorded e = [] ∨ ∃ n ∈ recorded e, new.Outside n := by
    have mem {x : Int} : x ∈ f.lines ↔ ∃ n ∈ recorded e, x = n := by
      rw [lines]
      exact mem_uniqueInts_cast
    refine or_congr ?_ ?_
    · simp only [List.eq_nil_iff_forall_not_mem, mem]
      exact ⟨fun none n hn => none n ⟨n, hn, rfl⟩, fun none x ⟨n, hn, _⟩ => none n hn⟩
    · constructor
      · rintro ⟨ln, hln, missed⟩
        obtain ⟨n, hn, rfl⟩ := mem.mp hln
        exact ⟨n, hn, (hitOf_eq_none_iff holds named size n).mp missed⟩
      · rintro ⟨n, hn, outside⟩
        exact ⟨n, mem.mpr ⟨n, hn, rfl⟩, (hitOf_eq_none_iff holds named size n).mpr outside⟩
  simp only [parse_written written fits]
  constructor
  · rintro ⟨d, ⟨f, found, rfl⟩, listed⟩
    obtain ⟨text, canonical, lines⟩ := facts found
    obtain ⟨same, active, unbound⟩ := unanalyzed_single_iff.mp listed
    rw [same] at canonical
    have named := Diff.ne_empty_of_canonicalPath canonical
    obtain ⟨node, known⟩ := known named
    rw [← same] at known ids unbound
    have outside := (boundIDs_single_iff known text ids).mp unbound
    rw [same] at outside
    exact ⟨active, canonical, (number named lines).mp outside⟩
  · rintro ⟨active, canonical, outside⟩
    have named := Diff.ne_empty_of_canonicalPath canonical
    obtain ⟨node, known⟩ := known named
    rw [canonical] at file
    obtain ⟨f, found⟩ : ∃ f, fileOf path e = some f := ⟨_, file⟩
    obtain ⟨text, read, lines⟩ := facts found
    have same : f.path = e.path := Option.some.inj (read.symm.trans canonical)
    refine ⟨_, ⟨f, found, rfl⟩, unanalyzed_single_iff.mpr ⟨same, active, ?_⟩⟩
    have outside := (number named lines).mpr outside
    rw [← same] at known ids outside ⊢
    exact (boundIDs_single_iff known text ids).mpr outside

/-- An edit outside of functions leaves its file unanalyzed exactly if it is seen to lie outside. -/
theorem outside_unanalyzed (lib : Lib) (g : Source.Snapshot) (loc : Locate.Snapshot) (rt : Graph.Snapshot) (e : Edit)
    (data : List UInt8)
    (path : String) (old new : Version) (written : Written e data path) (fits : Fits [e] data)
    (turns : Turns e.hunks old.lines new.lines) (size : new.lines.length + 1 < 2 ^ 63) (holds : Holds g e.path new) :
    (EditedOutside e old new →
      ∃ d, parse lib data = .ok d ∧ e.path ∈ (classify (analyze lib (some g) d loc rt)).unanalyzed) ↔
      (EditedOutside e old new → Seen e path new) :=
  imp_congr_right fun _ => unanalyzed_iff_seen written fits turns size holds

namespace Sample
open Unified (Line)
open Diff.Sample (word names)

def body : List Line := [.context (word "func f() \x7b"), .context (word "\tg()"), .context (word "\x7d")]

def deletedAbove : Edit where
  path := "a.go"
  hunks := [{ skip := 0, lines := .deleted (word "var x = 1") :: body }]
  apart := by decide
  whole := by simp
  named := by simp

def addedBelow : Edit where
  path := "a.go"
  hunks := [{ skip := 0, lines := body ++ [.added (word "var x = 1")] }]
  apart := by decide
  whole := by simp
  named := by simp

def bodyLines : List (List Char × Bool) := body.map fun l => (l.body, true)
def variableLine : List Char × Bool := ("var x = 1".toList, true)

def function : Version where
  lines := bodyLines
  funcs := [⟨1, 3, by decide, by decide⟩]
  within := by decide
  disjoint := List.pairwise_singleton _ _

def variableAbove : Version where
  lines := variableLine :: bodyLines
  funcs := [⟨2, 4, by decide, by decide⟩]
  within := by decide
  disjoint := List.pairwise_singleton _ _

def variableBelow : Version where
  lines := bodyLines ++ [variableLine]
  funcs := [⟨1, 3, by decide, by decide⟩]
  within := by decide
  disjoint := List.pairwise_singleton _ _

def functionGraph : Source.Snapshot :=
  { module := "m"
    nodes := [{ id := "file:a.go", kind := .file, name := "a.go", pkg := "m", file := "a.go" },
      { id := "func:m.f", kind := .function, name := "f", pkg := "m", file := "a.go", line := 1, endLine := 3 }] }

theorem holds_function {v : Version} (funcs : v.funcs = function.funcs) : Holds functionGraph "a.go" v where
  file := ⟨_, List.mem_cons_self, rfl, rfl⟩
  functions := by
    intro fn hfn kind _
    simp only [functionGraph, List.mem_cons, List.not_mem_nil, or_false] at hfn
    rcases hfn with rfl | rfl
    · cases kind
    · exact ⟨by decide, ⟨1, 3, by decide, by decide⟩, by rw [funcs]; exact List.mem_cons_self, rfl, rfl⟩
  extents := by
    intro x hx
    rw [funcs, function, List.mem_singleton] at hx
    exact ⟨_, List.mem_cons_of_mem _ List.mem_cons_self, rfl, rfl, by rw [hx]; rfl, by rw [hx]; rfl⟩

theorem fits_deletedAbove : Fits [deletedAbove] (namedText deletedAbove names) :=
  ⟨by decide +kernel, by decide, by decide⟩
theorem fits_addedBelow : Fits [addedBelow] (namedText addedBelow names) := ⟨by decide +kernel, by decide, by decide⟩

end Sample

/-- A variable that is deleted directly above a function is taken for a change of the function. -/
theorem outside_deleted_above : Fits [Sample.deletedAbove] (namedText Sample.deletedAbove Diff.Sample.names) ∧
    Turns Sample.deletedAbove.hunks Sample.variableAbove.lines Sample.function.lines ∧
    Holds Sample.functionGraph "a.go" Sample.function ∧
    EditedOutside Sample.deletedAbove Sample.variableAbove Sample.function ∧
    parse Lib.plain (namedText Sample.deletedAbove Diff.Sample.names) = .ok ⟨[{ path := "a.go", lines := [1] }]⟩ ∧
    classify (analyze Lib.plain (some Sample.functionGraph) ⟨[{ path := "a.go", lines := [1] }]⟩ {} {}) =
      { bound := ["func:m.f"], unanalyzed := [] } := by
  refine ⟨Sample.fits_deletedAbove, ⟨[], [], [], rfl, rfl, rfl, rfl⟩, Sample.holds_function rfl, .inl ⟨1, ?_, ?_⟩,
    by decide +kernel, by decide +kernel⟩
  · decide
  · exact List.forall_mem_singleton.mpr (by decide)

theorem outside_added_below : Fits [Sample.addedBelow] (namedText Sample.addedBelow Diff.Sample.names) ∧
    EditedOutside Sample.addedBelow Sample.function Sample.variableBelow ∧
    Seen Sample.addedBelow "b/a.go" Sample.variableBelow ∧
    ∃ d, parse Lib.plain (namedText Sample.addedBelow Diff.Sample.names) = .ok d ∧
      "a.go" ∈ (classify (analyze Lib.plain (some Sample.functionGraph) d {} {})).unanalyzed := by
  have edited : EditedOutside Sample.addedBelow Sample.function Sample.variableBelow :=
    .inr ⟨4, by decide, List.forall_mem_singleton.mpr (by decide)⟩
  have seen : Seen Sample.addedBelow "b/a.go" Sample.variableBelow :=
    ⟨by decide, by decide, .inr ⟨4, by decide, List.forall_mem_singleton.mpr (by decide)⟩⟩
  exact ⟨Sample.fits_addedBelow, edited, seen,
    (outside_unanalyzed Lib.plain Sample.functionGraph {} {} Sample.addedBelow
      (namedText Sample.addedBelow Diff.Sample.names) "b/a.go"
      Sample.function Sample.variableBelow (.git Diff.Sample.names) Sample.fits_addedBelow ⟨[], [], [], rfl, rfl, rfl,
        rfl⟩ (by decide)
      (Sample.holds_function rfl)).mpr (fun _ => seen) edited⟩

end Aquila.Impact

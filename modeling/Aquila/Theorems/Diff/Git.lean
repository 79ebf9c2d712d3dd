import Mathlib.Data.Finset.Sort
import Aquila.Net
import Aquila.Theorems.Diff.Read

/-! Parsing what git writes is exact for the edits that are `Legible`, and for no others. -/

namespace Aquila.Diff
open Unified (Text Line Hunk Edit Names Kind Final Covered start range renderHunks placed numbered touched touchedBy
  markedBy text)
variable {e : Edit} {f : File} {x : Nat}

variable (lib : Lib)

/-! ### Names and numbers -/

/-- A line that is read as a line of its hunk. -/
def plain (l : Line) : Bool := (heading l).isNone

/-- What the name in a line does to a file. -/
def nameLine (f : File) (l : Line) : File :=
  match l, heading l with
  | .added _, some p => f.plusLine p
  | .deleted _, some p => f.minusLine p
  | _, _ => f

def File.withLines (f : File) (ns : List Int) : File := { f with lines := ns }

theorem nameLine_withLines (f : File) (ns : List Int) (l : Line) :
    nameLine (f.withLines ns) l = (nameLine f l).withLines ns := by
  unfold nameLine
  split
  · unfold File.plusLine
    split_ifs <;> rfl
  · next p _ =>
    by_cases empty : f.path = "" <;> by_cases missing : p = "/dev/null" <;>
      simp [File.minusLine, File.withLines, empty, missing]
  · rfl

theorem nameLine_of_plain {l : Line} (h : plain l = true) (f : File) : nameLine f l = f := by
  have none : heading l = none := Option.isNone_iff_eq_none.mp h
  unfold nameLine
  split
  · next p named => rw [none] at named; cases named
  · next p named => rw [none] at named; cases named
  · rfl

theorem readLine_eq (f : File) (n : Nat) (l : Line) : readLine (f, int64 n) l =
    if plain l then
      ({ f with lines := f.lines ++ if l.changed then [int64 n] else [] }, int64 (n + l.onNew.toNat : Nat))
    else (nameLine f l, int64 n) := by
  have next : int64 (int64 n + 1) = int64 (n + 1 : Nat) := by rw [int64_succ]; rfl
  cases l with
  | context t => simp [readLine, plain, heading, Line.changed, Line.onNew, next]
  | noNewline => simp [readLine, plain, heading, Line.changed, Line.onNew]
  | added t => cases name : heading (.added t) <;> simp [readLine, plain, name, nameLine, Line.changed,
      Line.onNew, next]
  | deleted t => cases name : heading (.deleted t) <;> simp [readLine, plain, name, nameLine, Line.changed, Line.onNew]

def marks (n : Nat) (ls : List Line) : List Int := (touched n (ls.filter plain)).map fun x : Nat => int64 x

theorem foldl_readLine (ls : List Line) (f : File) (ns : List Int) (n : Nat) :
    (ls.foldl readLine (f.withLines ns, int64 n)).1 = (ls.foldl nameLine f).withLines (ns ++ marks n ls) := by
  induction ls generalizing f ns n with
  | nil => simp [marks, touched, numbered]
  | cons l ls ih =>
    rw [List.foldl_cons, List.foldl_cons, readLine_eq]
    cases seen : plain l with
    | false =>
      rw [if_neg Bool.false_ne_true, nameLine_withLines, ih, marks, marks, List.filter_cons_of_neg (by simp [seen])]
    | true =>
      have first : marks n (l :: ls) = (if l.changed then [int64 n] else []) ++ marks (n + l.onNew.toNat) ls := by
        rw [marks, List.filter_cons_of_pos seen, Unified.touched_cons, List.map_append]
        split_ifs <;> rfl
      rw [if_pos rfl, nameLine_of_plain seen, first, ← List.append_assoc]
      exact ih f _ _

def bodyLines (e : Edit) : List Line := e.hunks.flatMap (·.lines)

theorem foldl_readHunk {hs : List Hunk} {new : Nat} (fit : StartsFit (placed new hs)) (f : File) (ns : List Int) :
    (placed new hs).foldl readHunk (f.withLines ns) =
      ((hs.flatMap (·.lines)).foldl nameLine f).withLines (ns ++ (markedBy plain (placed new hs)).map fun x : Nat =>
        int64 x) := by
  induction hs generalizing new f ns with
  | nil => simp [placed, markedBy]
  | cons h hs ih =>
    obtain ⟨head, tail⟩ := List.forall_mem_cons.mp fit
    have start : ((start (new + h.skip) h.newLen : Nat) : Int) = int64 (start (new + h.skip) h.newLen : Nat) :=
      (int64_of_range (by omega) (by exact_mod_cast head)).symm
    rw [placed, List.foldl_cons, readHunk, start, foldl_readLine, ih tail, List.flatMap_cons, List.foldl_append,
      List.append_assoc]
    simp only [markedBy, List.flatMap_cons, List.map_append, marks]

theorem readFile_eq (fit : StartsFit (placed 0 e.hunks)) (path : String) : readFile path e =
    ((bodyLines e).foldl nameLine (opened path e)).withLines ((markedBy plain (placed 0 e.hunks)).map
      fun x : Nat => int64 x) :=
  foldl_readHunk fit (opened path e) []

/-! ### Paths and statuses -/

/-- The status that the missing side in a line gives. -/
def sideStatus : Line → Status
  | .added _ => .delete
  | _ => .add

/-- The name of the new side that a line is taken for. -/
def newName : Line → Option String
  | .added t => (heading (.added t)).filter fun p => p ≠ "/dev/null" ∧ p ≠ ""
  | _ => none

theorem nameLine_status (f : File) (l : Line) :
    (nameLine f l).status = if heading l = some "/dev/null" then sideStatus l else f.status := by
  cases l with
  | context t => simp [nameLine, heading]
  | noNewline => simp [nameLine, heading]
  | added t =>
    cases name : heading (.added t) with
    | none => simp [nameLine, name]
    | some p =>
      simp only [nameLine, name, File.plusLine, Option.some.injEq, sideStatus]
      split_ifs <;> simp_all
  | deleted t =>
    cases name : heading (.deleted t) with
    | none => simp [nameLine, name]
    | some p =>
      simp only [nameLine, name, File.minusLine, Option.some.injEq, sideStatus]
      split_ifs <;> simp_all

theorem nameLine_path (named : f.path ≠ "") (l : Line) : (nameLine f l).path = (newName l).getD f.path := by
  cases l with
  | context t => simp [nameLine, newName]
  | noNewline => simp [nameLine, newName]
  | added t =>
    cases name : heading (.added t) with
    | none => simp [nameLine, name, newName]
    | some p =>
      simp only [nameLine, name, File.plusLine, newName, Option.filter]
      split_ifs <;> simp_all
  | deleted t =>
    cases name : heading (.deleted t) with
    | none => simp [nameLine, name, newName]
    | some p =>
      simp only [nameLine, name, minusLine_of_path named, newName]
      split_ifs <;> rfl

/-- The last name of the new side among the lines of an edit. -/
def lastName (ls : List Line) : Option String := (ls.filterMap newName).getLast?

theorem newName_ne_empty {l : Line} {p : String} (h : newName l = some p) : p ≠ "" := by
  cases l with
  | added t =>
    have := (Option.filter_eq_some_iff.mp h).2
    simp at this
    exact this.2
  | context t => cases h
  | deleted t => cases h
  | noNewline => cases h

theorem foldl_nameLine_path (named : f.path ≠ "") (ls : List Line) :
    (ls.foldl nameLine f).path = (lastName ls).getD f.path := by
  induction ls generalizing f with
  | nil => rfl
  | cons l ls ih =>
    have path := nameLine_path named l
    have still : (nameLine f l).path ≠ "" := by
      rw [path]
      cases name : newName l with
      | none => exact named
      | some p => exact newName_ne_empty name
    rw [List.foldl_cons, ih still, path, lastName, lastName]
    cases name : newName l with
    | none => simp [name]
    | some p => simp [name, List.getLast?_cons]

theorem foldl_nameLine_status {s : Status} {ls : List Line} (other : ∀ l ∈ ls, heading l = some "/dev/null" →
    sideStatus l ≠ s) (f : File) :
    (ls.foldl nameLine f).status = s ↔ f.status = s ∧ ∀ l ∈ ls, heading l ≠ some "/dev/null" := by
  induction ls generalizing f with
  | nil => simp
  | cons l ls ih =>
    obtain ⟨head, tail⟩ := List.forall_mem_cons.mp other
    rw [List.foldl_cons, ih tail, nameLine_status, List.forall_mem_cons]
    by_cases missing : heading l = some "/dev/null"
    · simp [missing, head missing]
    · simp [missing]

theorem sideStatus_ne (e : Edit) : ∀ l ∈ bodyLines e, heading l = some "/dev/null" → sideStatus l ≠ ofKind e.kind := by
  intro l hl missing
  obtain ⟨h, hh, hl⟩ := List.mem_flatMap.mp hl
  cases kind : e.kind with
  | modify => cases l <;> simp [sideStatus, ofKind]
  | add =>
    have whole := ((e.whole (by simp [kind])).2 h hh).2 l hl
    rw [kind] at whole
    cases l with
    | added t => simp [sideStatus, ofKind]
    | deleted t => exact absurd rfl (whole t).2
    | context t => cases missing
    | noNewline => cases missing
  | delete =>
    have whole := ((e.whole (by simp [kind])).2 h hh).2 l hl
    rw [kind] at whole
    cases l with
    | added t => exact absurd rfl (whole t).2
    | deleted t => simp [sideStatus, ofKind]
    | context t => cases missing
    | noNewline => cases missing

/-! ### Numbers -/

/-- The sorted set of numbers. -/
def sortedSet (ns : List Nat) : List Int := (ns.toFinset.sort (· ≤ ·)).map fun n : Nat => (n : Int)

theorem uniqueInts_eq_iff {xs : List Int} {ns : List Nat} :
    uniqueInts xs = sortedSet ns ↔ ∀ x : Int, x ∈ xs ∧ 0 < x ↔ ∃ n ∈ ns, x = n := by
  have mem (x : Int) : x ∈ uniqueInts xs ↔ x ∈ xs ∧ 0 < x := by simp [uniqueInts]
  have mem' (x : Int) : x ∈ sortedSet ns ↔ ∃ n ∈ ns, x = n := by simp [sortedSet, eq_comm]
  constructor
  · intro same x
    rw [← mem, same, mem']
  · intro same
    have nodup : (uniqueInts xs).Nodup := (List.perm_insertionSort _ _).nodup_iff.mpr (List.nodup_dedup _)
    have nodup' : (sortedSet ns).Nodup := (Finset.sort_nodup _ _).map Nat.cast_injective
    have perm : (uniqueInts xs).Perm (sortedSet ns) :=
      (List.perm_ext_iff_of_nodup nodup nodup').mpr fun x => by rw [mem, mem', same]
    have sorted : (uniqueInts xs).Pairwise (· ≤ ·) := List.pairwise_insertionSort _ _
    have sorted' : (sortedSet ns).Pairwise (· ≤ ·) :=
      List.pairwise_map.mpr ((Finset.pairwise_sort _ _).imp fun le => Int.ofNat_le.mpr le)
    exact perm.eq_of_pairwise (fun a b _ _ => Int.le_antisymm) sorted sorted'

theorem int64_of_lt (h : x < 2 ^ 63) : int64 x = x := int64_of_range (by omega) (by exact_mod_cast h)

theorem marks_of_delete (kind : e.kind = .delete) : ∀ x ∈ markedBy plain (placed 0 e.hunks), x = 0 := by
  intro x hx
  obtain ⟨few, empty⟩ := e.whole (by simp [kind])
  cases hs : e.hunks with
  | nil => rw [hs] at hx; cases hx
  | cons h hs' =>
    have alone : hs' = [] := by
      rw [hs, List.length_cons] at few
      exact List.length_eq_zero_iff.mp (by omega)
    obtain ⟨skip, lines⟩ := empty h (by rw [hs]; exact List.mem_cons_self)
    have len : h.newLen = 0 := by
      refine List.countP_eq_zero.mpr fun l hl new => ?_
      have := lines l hl
      rw [kind] at this
      cases l with
      | context t => exact (this t).1 rfl
      | added t => exact (this t).2 rfl
      | deleted t => cases new
      | noNewline => cases new
    rw [hs, alone, placed, placed, markedBy, List.flatMap_singleton, skip] at hx
    have := Unified.le_of_mem_marks hx
    rw [len] at this
    exact Nat.le_zero.mp this

/-- An edit that is read as it is. -/
structure Legible (e : Edit) : Prop where
  /-- The starts of the hunks and the numbers of the lines are `int`s. -/
  starts : StartsFit (placed 0 e.hunks)
  numbers : ∀ x ∈ e.touched, x < 2 ^ 63
  hunks : e.kind ≠ .delete → ∀ h ∈ placed 0 e.hunks, h.2.Readable plain h.1
  /-- No line is taken for a missing side. -/
  sides : ∀ l ∈ bodyLines e, heading l ≠ some "/dev/null"
  /-- If lines are taken for names of the new side, then the last is the name of the file. -/
  named : ∀ p ∈ lastName (bodyLines e), canonicalPath p = some e.path

def fileFor (e : Edit) : File := { path := e.path, status := ofKind e.kind, lines := sortedSet e.touched }

theorem mem_touchedBy_pos {hs : List (Nat × Hunk)} (hx : x ∈ touchedBy hs) : 0 < x := by
  obtain ⟨h, -, hx⟩ := List.mem_flatMap.mp hx
  have := (Unified.bounds_of_mem_touched hx).1
  omega

theorem exists_touchedBy_above {p : Line → Bool} {hs : List (Nat × Hunk)} (hx : x ∈ markedBy p hs) :
    ∃ y ∈ touchedBy hs, x ≤ y := by
  obtain ⟨h, hh, hx⟩ := List.mem_flatMap.mp hx
  have low := Unified.start_le h.1 h.2.newLen
  obtain ⟨y, hy, le⟩ := Unified.exists_touched_above (k := h.1 + 1 - start h.1 h.2.newLen) hx
  rw [Nat.add_sub_cancel' low] at hy
  exact ⟨y, List.mem_flatMap.mpr ⟨h, hh, hy⟩, by omega⟩

theorem lines_eq_iff (e : Edit) : uniqueInts ((markedBy plain (placed 0 e.hunks)).map fun x : Nat => int64 x) =
    sortedSet e.touched ↔ (∀ x ∈ e.touched, x < 2 ^ 63) ∧
    (e.kind ≠ .delete → ∀ h ∈ placed 0 e.hunks, h.2.Readable plain h.1) := by
  rw [uniqueInts_eq_iff]
  simp only [List.mem_map]
  by_cases kind : e.kind = .delete
  · have none : e.touched = [] := if_pos kind
    have left : ∀ x : Int, (∃ m ∈ markedBy plain (placed 0 e.hunks), int64 m = x) ∧ 0 < x ↔ ∃ n ∈ e.touched, x = n := by
      rw [none]
      intro x
      constructor
      · rintro ⟨⟨m, hm, rfl⟩, pos⟩
        rw [marks_of_delete kind m hm] at pos
        cases pos
      · rintro ⟨n, hn, -⟩
        cases hn
    exact iff_of_true left ⟨by simp [none], fun other => absurd kind other⟩
  · have all : e.touched = touchedBy (placed 0 e.hunks) := if_neg kind
    rw [all]
    constructor
    · intro same
      have numbers : ∀ x ∈ touchedBy (placed 0 e.hunks), x < 2 ^ 63 := by
        intro x hx
        obtain ⟨⟨m, -, eq⟩, -⟩ := (same x).mpr ⟨x, hx, rfl⟩
        have := eq ▸ int64_lt m
        exact_mod_cast this
      refine ⟨numbers, fun _ => ?_⟩
      refine Unified.readable_of_subset (Unified.placed_apart e.apart) (List.forall_mem_nil _) fun x hx => .inr ?_
      obtain ⟨⟨m, hm, eq⟩, -⟩ := (same x).mpr ⟨x, hx, rfl⟩
      obtain ⟨y, hy, le⟩ := exists_touchedBy_above hm
      rw [int64_of_lt (Nat.lt_of_le_of_lt le (numbers y hy))] at eq
      rwa [← Int.ofNat.inj eq]
    · rintro ⟨numbers, readable⟩ x
      have marked {n : Nat} := Unified.mem_markedBy_iff (readable kind) (x := n)
      constructor
      · rintro ⟨⟨m, hm, rfl⟩, -⟩
        have hm := marked.mp hm
        exact ⟨m, hm, int64_of_lt (numbers m hm)⟩
      · rintro ⟨n, hn, rfl⟩
        exact ⟨⟨n, marked.mpr hn, int64_of_lt (numbers n hn)⟩, Int.natCast_pos.mpr (mem_touchedBy_pos hn)⟩

theorem foldl_nameLine_binary (f : File) (ls : List Line) : (ls.foldl nameLine f).binary = f.binary := by
  induction ls generalizing f with
  | nil => rfl
  | cons l ls ih =>
    rw [List.foldl_cons, ih]
    unfold nameLine
    split <;> simp

theorem finish_eq_iff {ns : List Int} (plain : f.binary = false) : (f.withLines ns).finish = some (fileFor e) ↔
    canonicalPath f.path = some e.path ∧ f.status = ofKind e.kind ∧ uniqueInts ns = sortedSet e.touched := by
  rw [File.finish, Option.map_eq_some_iff]
  simp only [File.withLines, fileFor, File.mk.injEq, plain, true_and]
  constructor
  · rintro ⟨p, path, rfl, rest⟩
    exact ⟨path, rest⟩
  · rintro ⟨path, rest⟩
    exact ⟨_, path, rfl, rest⟩

theorem fileOf_eq_iff (clean : CleanPath e.path) : fileOf ("b/" ++ e.path) e = some (fileFor e) ↔ Legible e := by
  by_cases fit : StartsFit (placed 0 e.hunks)
  · have path : canonicalPath ((bodyLines e).foldl nameLine (opened ("b/" ++ e.path) e)).path = some e.path ↔
        ∀ p ∈ lastName (bodyLines e), canonicalPath p = some e.path := by
      rw [foldl_nameLine_path (by simp [opened])]
      cases lastName (bodyLines e) with
      | none => simp [opened, clean.canonicalPath_new]
      | some p => simp
    have status : ((bodyLines e).foldl nameLine (opened ("b/" ++ e.path) e)).status = ofKind e.kind ↔
      ∀ l ∈ bodyLines e, heading l ≠ some "/dev/null" := by
      rw [foldl_nameLine_status (sideStatus_ne e)]
      exact and_iff_right rfl
    rw [fileOf, if_pos fit, readFile_eq fit _, finish_eq_iff (foldl_nameLine_binary _ _), path, status, lines_eq_iff]
    constructor
    · rintro ⟨named, sides, numbers, hunks⟩
      exact ⟨fit, numbers, hunks, sides, named⟩
    · intro legible
      exact ⟨legible.named, legible.sides, legible.numbers, legible.hunks⟩
  · rw [fileOf, if_neg fit]
    exact iff_of_false (fun h => by cases h) fun legible => fit legible.starts

/-! ### Texts -/

theorem OneLine.append {l l' : List Char} (h : OneLine l) (h' : OneLine l') : OneLine (l ++ l') := by
  simp only [OneLine, List.mem_append, not_or] at *
  exact ⟨⟨h.1, h'.1⟩, h.2, h'.2⟩

theorem OneLine.cons {c : Char} {l : List Char} (first : c ≠ '\n' ∧ c ≠ '\r') (h : OneLine l) : OneLine (c :: l) := by
  simp only [OneLine, List.mem_cons, not_or]
  exact ⟨⟨first.1.symm, h.1⟩, first.2.symm, h.2⟩

theorem oneLine_path {p : String} (clean : CleanPath p) : OneLine p.toList :=
  ⟨fun h => absurd (clean.chars _ h).1 (by decide), fun h => absurd (clean.chars _ h).1 (by decide)⟩

theorem oneLine_range (counted : Bool) (before len : Nat) : OneLine (range counted before len) :=
  ⟨range_not_mem (by decide) (by decide), range_not_mem (by decide) (by decide)⟩

theorem oneLine_header (h : Hunk) (old new : Nat) : OneLine (h.header old new) := by
  have trailer : OneLine h.trailer := by
    unfold Hunk.trailer
    cases h.heading with
    | none => exact ⟨List.not_mem_nil, List.not_mem_nil⟩
    | some t => exact OneLine.cons (by decide) t.2
  have sign : OneLine "@@ -".toList := by decide
  have plus : OneLine " +".toList := by decide
  have close : OneLine " @@".toList := by decide
  exact ((((sign.append (oneLine_range ..)).append plus).append (oneLine_range ..)).append close).append trailer

theorem oneLine_render (l : Line) : OneLine l.render := by
  cases l with
  | context t => exact OneLine.cons (by decide) t.2
  | added t => exact OneLine.cons (by decide) t.2
  | deleted t => exact OneLine.cons (by decide) t.2
  | noNewline => exact OneLine.cons (by decide) (by decide)

theorem oneLine_renderHunks (old new : Nat) (hs : List Hunk) : ∀ l ∈ renderHunks old new hs, OneLine l := by
  induction hs generalizing old new with
  | nil => simp [renderHunks]
  | cons h hs ih =>
    intro l hl
    rw [renderHunks, List.cons_append, List.mem_cons, List.mem_append, List.mem_map] at hl
    rcases hl with rfl | ⟨l', -, rfl⟩ | hl
    · exact oneLine_header ..
    · exact oneLine_render l'
    · exact ih _ _ l hl

theorem oneLine_unified (e : Edit) {old new : List Char} (h : OneLine old) (h' : OneLine new) :
    ∀ l ∈ e.unifiedAs old new, OneLine l := by
  have devNull : OneLine "/dev/null".toList := by decide
  have minus : OneLine "--- ".toList := by decide
  have plus : OneLine "+++ ".toList := by decide
  intro l hl
  rcases List.mem_append.mp hl with hl | hl
  · unfold Edit.nameLines at hl
    by_cases headed : e.headed = true
    · rw [if_pos headed, List.mem_cons, List.mem_singleton] at hl
      rcases hl with rfl | rfl
      · refine minus.append ?_
        split_ifs
        · exact devNull
        · exact h
      · refine plus.append ?_
        split_ifs
        · exact devNull
        · exact h'
    · rw [if_neg headed] at hl
      cases hl
  · exact oneLine_renderHunks _ _ _ l hl

theorem oneLine_git (e : Edit) {both old new : List Char} (h : OneLine both) (h' : OneLine old) (h'' : OneLine new) :
    ∀ l ∈ e.gitAs both old new, OneLine l := by
  have pre (s : String) (t : Text) (h : OneLine s.toList) : OneLine (s.toList ++ t) := h.append t.2
  intro l hl
  rw [Edit.gitAs, List.mem_cons, List.mem_append, List.mem_append] at hl
  rcases hl with rfl | (hl | hl) | hl
  · have word : OneLine "diff --git ".toList := by decide
    exact word.append h
  · unfold Edit.modeLines at hl
    cases mode : e.mode with
    | none => simp [mode] at hl
    | some modes =>
      cases kind : e.kind with
      | modify =>
        simp only [mode, kind, List.mem_cons, List.not_mem_nil, or_false] at hl
        rcases hl with rfl | rfl
        · exact pre "old mode " _ (by decide)
        · exact pre "new mode " _ (by decide)
      | add =>
        simp only [mode, kind, List.mem_singleton] at hl
        exact hl ▸ pre "new file mode " _ (by decide)
      | delete =>
        simp only [mode, kind, List.mem_singleton] at hl
        exact hl ▸ pre "deleted file mode " _ (by decide)
  · unfold Edit.indexLines at hl
    cases index : e.index with
    | none => simp [index] at hl
    | some t =>
      simp only [index, List.mem_singleton] at hl
      exact hl ▸ pre "index " _ (by decide)
  · exact oneLine_unified e h' h'' l hl

theorem oneLine_sides (clean : CleanPath e.path) : OneLine e.oldSide ∧ OneLine e.newSide := by
  have old : OneLine "a/".toList := by decide
  have new : OneLine "b/".toList := by decide
  exact ⟨old.append (oneLine_path clean), new.append (oneLine_path clean)⟩

/-! ### Exactness -/

/-- The text that git writes for edits. -/
def gitText (es : List Edit) : List UInt8 := Utf8.encode (text (es.flatMap Edit.git))

/-- The text that git writes for an edit, with the names as it spells them. -/
def namedText (e : Edit) (nm : Names) : List UInt8 := Utf8.encode (text (e.gitAs nm.both nm.old nm.new))

/-- A text that `Parse` has room for. -/
structure Fits (es : List Edit) (data : List UInt8) : Prop where
  size : data.length ≤ maxBytes
  files : es.length ≤ maxFiles
  hunks : (es.map fun e => e.hunks.length).sum ≤ maxHunks

theorem parse_gitText {es : List Edit} (clean : ∀ e ∈ es, CleanPath e.path) (fits : Fits es (gitText es)) (d : Diff) :
    parse lib (gitText es) = .ok d ↔ List.Forall₂ (fun e f => fileOf ("b/" ++ e.path) e = some f) es d.files := by
  have lines : ∀ l ∈ es.flatMap Edit.git, OneLine l := by
    intro l hl
    obtain ⟨e, he, hl⟩ := List.mem_flatMap.mp hl
    obtain ⟨old, new⟩ := oneLine_sides (clean e he)
    exact oneLine_git e (old.append (.cons (by decide) new)) old new l hl
  rw [gitText, parse_text lib lines fits.size, read_git lib es clean fits.files fits.hunks]

theorem parse_namedText {nm : Names} (fits : Fits [e] (namedText e nm)) (d : Diff) :
    parse lib (namedText e nm) = .ok d ↔ ∃ f, fileOf (readPath e nm.both nm.new) e = some f ∧ d = ⟨[f]⟩ := by
  rw [namedText, parse_text lib (oneLine_git e nm.both.2 nm.old.2 nm.new.2) fits.size]
  exact read_gitAs lib (spelled_of_names nm) (by simpa using fits.hunks) d

/-- Parsing what git writes gives the file of each edit, in order, exactly if every edit is legible. -/
theorem parse_git_exact (lib : Lib) (es : List Edit) (clean : ∀ e ∈ es, CleanPath e.path)
    (fits : Fits es (gitText es)) :
    parse lib (gitText es) = .ok ⟨es.map fileFor⟩ ↔ ∀ e ∈ es, Legible e := by
  rw [parse_gitText lib clean fits, List.forall₂_map_right_iff, List.forall₂_same]
  exact forall₂_congr fun e he => fileOf_eq_iff (clean e he)

/-- The numbers of an edit are `int`s, and its hunks have new lines to be numbered by. -/
structure Numbered (e : Edit) : Prop where
  starts : StartsFit (placed 0 e.hunks)
  numbers : ∀ x ∈ e.touched, x < 2 ^ 63
  sided : e.kind ≠ .delete → ∀ h ∈ e.hunks, (∃ l ∈ h.lines, l.changed = true) → 0 < h.newLen

theorem legible_iff_of_plain (body : ∀ l ∈ bodyLines e, heading l = none) : Legible e ↔ Numbered e := by
  constructor
  · intro legible
    refine ⟨legible.starts, legible.numbers, fun kind h hh => ?_⟩
    obtain ⟨before, placed⟩ := @Unified.exists_mem_placed 0 _ _ hh
    exact (legible.hunks kind _ placed).sided
  · rintro ⟨starts, numbers, sided⟩
    have unnamed : lastName (bodyLines e) = none := by
      rw [lastName, List.getLast?_eq_none_iff, List.filterMap_eq_nil_iff]
      intro l hl
      cases l with
      | added t => rw [newName, body _ hl]; rfl
      | context t => rfl
      | deleted t => rfl
      | noNewline => rfl
    refine ⟨starts, numbers, fun kind h hh => ?_, fun l hl => by simp [body l hl], by simp [unnamed]⟩
    have mem := Unified.mem_of_mem_placed hh
    refine .of_all (fun l hl => ?_) (sided kind h.2 mem)
    rw [plain, body l (List.mem_flatMap.mpr ⟨h.2, mem, hl⟩)]
    rfl

namespace Sample

def word (s : String) (h : '\n' ∉ s.toList ∧ '\r' ∉ s.toList := by decide) : Text := ⟨s.toList, h⟩

/-- The names of `a.go` in a header. -/
def names : Names := ⟨word "a/a.go b/a.go", word "a/a.go", word "b/a.go", by decide⟩

def query : Edit where
  path := "q.sql"
  hunks := [{ skip := 0, lines := [.context (word "a;"), .deleted (word "-- b"), .context (word "c;")] }]
  apart := by decide
  whole := by simp
  named := by simp

def queries : Edit where
  path := "q.sql"
  hunks := [{ skip := 0, lines := [.deleted (word "a;"), .added (word "b;")] },
    { skip := 4, lines := [.added (word "c;")] }]
  apart := by decide
  whole := by simp
  named := by simp

theorem clean_sql : CleanPath "q.sql" := by
  refine ⟨forall_mem_of_all (by decide), ?_, ?_, ?_, ?_, ?_⟩ <;> decide

theorem clean_a : CleanPath "a.go" := by
  refine ⟨forall_mem_of_all (by decide), ?_, ?_, ?_, ?_, ?_⟩ <;> decide

theorem clean_query : ∀ e ∈ [query], CleanPath e.path := List.forall_mem_singleton.mpr clean_sql
theorem clean_queries : ∀ e ∈ [queries], CleanPath e.path := List.forall_mem_singleton.mpr clean_sql
theorem fits_query : Fits [query] (gitText [query]) := ⟨by decide +kernel, by decide, by decide⟩
theorem fits_queries : Fits [queries] (gitText [queries]) := ⟨by decide +kernel, by decide, by decide⟩

end Sample

/-- The line `--- b` of a hunk, which deletes a comment, is taken for the name of the old side: its number is lost. -/
theorem parse_git_deleted_comment : (∀ e ∈ [Sample.query], CleanPath e.path) ∧ Fits [Sample.query]
    (gitText [Sample.query]) ∧ parse Lib.plain (gitText [Sample.query]) = .ok ⟨[{ path := "q.sql", lines := [] }]⟩ ∧
    [Sample.query].map fileFor = [{ path := "q.sql", lines := [2] }] :=
  ⟨Sample.clean_query, Sample.fits_query, by decide +kernel, by decide +kernel⟩

theorem parse_git_queries : (∀ e ∈ [Sample.queries], CleanPath e.path) ∧ Fits [Sample.queries]
    (gitText [Sample.queries]) ∧ (∀ e ∈ [Sample.queries], Legible e) ∧
    parse Lib.plain (gitText [Sample.queries]) = .ok ⟨[Sample.queries].map fileFor⟩ := by
  have legible : ∀ e ∈ [Sample.queries], Legible e := by
    intro e he
    rw [List.mem_singleton.mp he, legible_iff_of_plain (by decide)]
    exact ⟨by decide, by decide, by decide⟩
  exact ⟨Sample.clean_queries, Sample.fits_queries, legible,
    (parse_git_exact Lib.plain [Sample.queries] Sample.clean_queries Sample.fits_queries).mpr legible⟩

end Aquila.Diff

import Aquila.Diff
import Aquila.Lib.Unified
import Aquila.Theorems.Text

/-! What `Parse` makes of the diffs that git writes. A changed line that looks like the name of a side is taken for
    one. -/

namespace Aquila.Diff
open Unified (Text Line Hunk Edit Names Kind start range renderHunks placed numbered touched touchedBy markedBy text)
variable {c : Char} {side : String} {e : Edit} {ls : List (List Char)}

variable (lib : Lib)

/-! ### Lines of hunks -/

/-- The name that a changed line is taken for, if it looks like a header. -/
def heading : Line → Option String
  | .added t => if ['+', '+', ' '] <+: t.1 then some (headerPath (.ofList (t.1.drop 3))) else none
  | .deleted t => if ['-', '-', ' '] <+: t.1 then some (headerPath (.ofList (t.1.drop 3))) else none
  | _ => none

/-- What a line of a hunk does to the file and to the number of the next new line. -/
def readLine (s : File × Int) (l : Line) : File × Int :=
  match l with
  | .context _ => (s.1, int64 (s.2 + 1))
  | .added _ =>
    match heading l with
    | some p => (s.1.plusLine p, s.2)
    | none => ({ s.1 with lines := s.1.lines ++ [s.2] }, int64 (s.2 + 1))
  | .deleted _ =>
    match heading l with
    | some p => (s.1.minusLine p, s.2)
    | none => ({ s.1 with lines := s.1.lines ++ [s.2] }, s.2)
  | .noNewline => s

@[simp] theorem plusLine_binary (f : File) (p : String) : (f.plusLine p).binary = f.binary := by
  unfold File.plusLine
  split_ifs <;> rfl

@[simp] theorem minusLine_binary (f : File) (p : String) : (f.minusLine p).binary = f.binary := by
  unfold File.minusLine
  dsimp only
  split_ifs <;> rfl

theorem readLine_binary (s : File × Int) (l : Line) : (readLine s l).1.binary = s.1.binary := by
  cases l with
  | context t => rfl
  | added t => rw [readLine]; split <;> simp
  | deleted t => rw [readLine]; split <;> simp
  | noNewline => rfl

theorem foldl_readLine_binary (s : File × Int) (ls : List Line) : (ls.foldl readLine s).1.binary = s.1.binary := by
  induction ls generalizing s with
  | nil => rfl
  | cons l ls ih => rw [List.foldl_cons, ih, readLine_binary]

theorem marked_line (mark : c ∈ [' ', '+', '-', '\\']) (t : List Char) : hunkBodyLine (.ofList (c :: t)) = true ∧
    ∀ pre ∈ ["diff --git ", "new file mode", "deleted file mode", "rename from ", "rename to ", "Binary files ",
      "GIT binary patch", "@@ "], hasPrefix (.ofList (c :: t)) pre = false := by
  simp only [List.mem_cons, List.not_mem_nil, or_false] at mark
  constructor
  · simp only [hunkBodyLine, String.toList_ofList]
    rcases mark with rfl | rfl | rfl | rfl <;> decide
  · intro pre hpre
    refine hasPrefix_of_head pre ?_
    simp only [List.mem_cons, List.not_mem_nil, or_false] at hpre
    rcases hpre with rfl | rfl | rfl | rfl | rfl | rfl | rfl | rfl <;> rcases mark with rfl | rfl | rfl | rfl <;> decide

theorem ne_of_not_hasPrefix {s t : String} (h : hasPrefix s t = false) : s ≠ t := by
  rintro rfl
  rw [hasPrefix_iff.mpr (List.prefix_refl _)] at h
  cases h

theorem step_marked {r : Reader} {f : File} (hunk : r.inHunk = true) (cur : r.cur = some f) (plain : f.binary = false)
    (c : Char) (t : List Char) (mark : c ∈ [' ', '+', '-', '\\']) :
    step lib r (.ofList (c :: t)) = .ok (
      if hasPrefix (.ofList (c :: t)) "+++ " then r.onFile fun f => f.plusLine (headerPath (.ofList (t.drop 3)))
      else if hasPrefix (.ofList (c :: t)) "--- " then r.onFile fun f => f.minusLine (headerPath (.ofList (t.drop 3)))
      else bodyLine r (.ofList (c :: t))) := by
  obtain ⟨body, others⟩ := marked_line mark t
  simp only [List.forall_mem_cons] at others
  obtain ⟨git, added, deleted, renamed, renamedTo, binary, patch, header, -⟩ := others
  unfold step
  simp only [hunk, body, cur, plain, git, added, deleted, renamed, renamedTo, binary, ne_of_not_hasPrefix patch, header,
    Bool.not_true, Bool.and_false, Bool.false_eq_true, if_false, Option.isSome_some, Option.isNone_some, Bool.or_false,
      Bool.and_true, decide_false,
    Option.any_some, Bool.not_false, if_true, String.toList_ofList, List.drop_succ_cons]
  split_ifs <;> rfl

theorem step_line {r : Reader} {f : File} (hunk : r.inHunk = true) (cur : r.cur = some f)
    (plain : f.binary = false) (l : Line) :
    step lib r (.ofList l.render) =
      .ok { r with cur := some (readLine (f, r.newLn) l).1, newLn := (readLine (f, r.newLn) l).2 } := by
  cases l with
  | context t =>
    have read := step_marked lib hunk cur plain ' ' t.1 (by decide)
    rw [hasPrefix_of_head "+++ " (by decide), hasPrefix_of_head "--- " (by decide)] at read
    refine read.trans ?_
    simp [bodyLine, readLine, cur]
  | added t =>
    have read := step_marked lib hunk cur plain '+' t.1 (by decide)
    rw [hasPrefix_of_head "--- " (by decide), hasPrefix_ofList] at read
    refine read.trans ?_
    by_cases header : ['+', '+', ' '] <+: t.1
    · simp [header, readLine, heading, Reader.onFile, cur]
    · simp [header, readLine, heading, Reader.onFile, cur, bodyLine]
  | deleted t =>
    have read := step_marked lib hunk cur plain '-' t.1 (by decide)
    rw [hasPrefix_of_head "+++ " (by decide), hasPrefix_ofList] at read
    refine read.trans ?_
    by_cases header : ['-', '-', ' '] <+: t.1
    · simp [header, readLine, heading, Reader.onFile, cur]
    · simp [header, readLine, heading, Reader.onFile, cur, bodyLine]
  | noNewline =>
    rw [Line.render, step_marked lib hunk cur plain '\\' _ (by decide), hasPrefix_of_head "+++ " (by decide),
      hasPrefix_of_head "--- " (by decide), if_neg Bool.false_ne_true, if_neg Bool.false_ne_true, bodyLine,
        String.toList_ofList]
    simp only [readLine, ← cur]

theorem steps_lines {r : Reader} {f : File} (hunk : r.inHunk = true) (cur : r.cur = some f) (plain : f.binary = false)
    (ls : List Line) :
    (ls.map fun l => String.ofList l.render).foldlM (step lib) r =
      .ok { r with cur := some (ls.foldl readLine (f, r.newLn)).1, newLn := (ls.foldl readLine (f, r.newLn)).2 } := by
  induction ls generalizing r f with
  | nil =>
    cases r
    cases cur
    rfl
  | cons l ls ih =>
    rw [List.map_cons, List.foldlM_cons, step_line lib hunk cur plain]
    exact ih hunk rfl ((readLine_binary _ l).trans plain)

/-! ### Headers of hunks -/

theorem mem_range {counted : Bool} {before len : Nat} (h : c ∈ range counted before len) :
    c.isDigit = true ∨ c = ',' := by
  have digit {n : Nat} (h : c ∈ Nat.toDigits 10 n) : c.isDigit = true :=
    Nat.isDigit_of_mem_toDigits (by decide) (by decide) h
  rw [range, List.mem_append] at h
  rcases h with h | h
  · exact .inl (digit h)
  · split_ifs at h with one
    · cases h
    · rcases List.mem_cons.mp h with rfl | h
      · exact .inr rfl
      · exact .inl (digit h)

theorem range_not_mem {counted : Bool} {before len : Nat} (h : c.isDigit = false) (comma : c ≠ ',') :
    c ∉ range counted before len := by
  intro mem
  rcases mem_range mem with digit | rfl
  · rw [h] at digit
    cases digit
  · exact comma rfl

theorem cutBefore_range (counted : Bool) (before len : Nat) :
    cutBefore (.ofList (range counted before len)) ',' = .ofList (Nat.toDigits 10 (start before len)) := by
  have comma : ',' ∉ Nat.toDigits 10 (start before len) := fun h =>
    absurd (Nat.isDigit_of_mem_toDigits (by decide) (by decide) h) (by decide)
  rw [range]
  split_ifs
  · rw [List.append_nil, cutBefore_of_not_mem (by rwa [String.toList_ofList])]
  · rw [cutBefore_append comma]

/-- The new start is read from the header of a hunk, as far as it fits. -/
theorem hunkNewStart_header (h : Hunk) (old new : Nat) : hunkNewStart (.ofList (h.header old new)) =
    if start new h.newLen < 2 ^ 63 then some (start new h.newLen : Int) else none := by
  let before := '-' :: range h.counted old h.oldLen
  let after := range h.counted new h.newLen ++ ' ' :: '@' :: '@' :: h.trailer
  have shape : h.header old new = '@' :: '@' :: ' ' :: (before ++ ([' ', '+'] ++ after)) := by
    unfold Hunk.header
    simp only [String.reduceToList, List.append_assoc, List.cons_append, List.nil_append, before, after]
  have side : ' ' ∉ before := by
    rw [List.mem_cons, not_or]
    exact ⟨by decide, range_not_mem (by decide) (by decide)⟩
  -- the first blank is followed by a minus
  have parts : cutChars [' ', '+'] (h.header old new) = some ('@' :: '@' :: ' ' :: before, after) := by
    have found := cutChars_append side ['+'] after
    rw [shape]
    simp only [before, List.cons_append, cutChars, List.isPrefixOf_cons_cons] at found ⊢
    rw [found]
    rfl
  have line : cut (.ofList (h.header old new)) " +" = some (.ofList ('@' :: '@' :: ' ' :: before), .ofList after) := by
    simp only [cut, String.toList_ofList, String.reduceToList, parts, Option.map_some]
  have blank : ' ' ∉ range h.counted new h.newLen := range_not_mem (by decide) (by decide)
  have sign : '@' ∉ range h.counted new h.newLen := range_not_mem (by decide) (by decide)
  have word : ∀ c ∈ range h.counted new h.newLen, (decide (c = ' ') || decide (c = '@')) = false := by
    intro c hc
    have notBlank : c ≠ ' ' := fun same => blank (same ▸ hc)
    have notSign : c ≠ '@' := fun same => sign (same ▸ hc)
    simp [notBlank, notSign]
  have spaced : after.contains ' ' = true := List.contains_iff_mem.mpr (List.mem_append_right _ List.mem_cons_self)
  have number := atoi_digits (start new h.newLen)
  rw [hunkNewStart, line]
  simp only [String.toList_ofList, spaced, if_true, after, cutBefore_append blank, trimBoth_of_none word,
    cutBefore_range, number]
  split_ifs
  · simp
  · rfl

/-! ### Hunks -/

/-- What a hunk does to a file. -/
def readHunk (f : File) (h : Nat × Hunk) : File := (h.2.lines.foldl readLine (f, (start h.1 h.2.newLen : Int))).1

/-- The starts of the hunks are `int`s. -/
def StartsFit (hs : List (Nat × Hunk)) : Prop := ∀ h ∈ hs, start h.1 h.2.newLen < 2 ^ 63

instance (hs : List (Nat × Hunk)) : Decidable (StartsFit hs) :=
  inferInstanceAs (Decidable (∀ h ∈ hs, start h.1 h.2.newLen < 2 ^ 63))

theorem readHunk_binary (f : File) (h : Nat × Hunk) : (readHunk f h).binary = f.binary := foldl_readLine_binary _ _

theorem step_leave (r : Reader) {line : String} (h : hunkBodyLine line = false) :
    step lib r line = step lib { r with inHunk := false } line := by
  cases r with
  | mk files cur inHunk newLn hunks =>
    cases inHunk with
    | false => rfl
    | true => simp only [step, h, Bool.not_false, Bool.and_self, if_true, Bool.false_and, Bool.false_eq_true, if_false]

/-- The words that the lines of a header start with. -/
def headWords : List String :=
  ["diff --git ", "new file mode", "deleted file mode", "rename from ", "rename to ", "Binary files ",
    "GIT binary patch", "+++ ", "--- ", "@@ "]

theorem other_words (lit : String) (words : List String) (t : List Char)
    (h : ∀ pre ∈ words, hasPrefix lit pre = false ∧ hasPrefix pre lit = false) :
    ∀ pre ∈ words, hasPrefix (.ofList (lit.toList ++ t)) pre = false :=
  fun pre hpre => hasPrefix_of_apart lit pre t (h pre hpre).1 (h pre hpre).2

theorem header_words (h : Hunk) (old new : Nat) : hunkBodyLine (.ofList (h.header old new)) = false ∧
    hasPrefix (.ofList (h.header old new)) "@@ " = true ∧
    ∀ pre ∈ headWords.dropLast, hasPrefix (.ofList (h.header old new)) pre = false := by
  obtain ⟨t, shape⟩ : ∃ t, h.header old new = "@@ ".toList ++ t := by
    refine ⟨'-' :: range h.counted old h.oldLen ++ " +".toList ++ range h.counted new h.newLen ++ " @@".toList ++
      h.trailer, ?_⟩
    unfold Hunk.header
    simp only [String.reduceToList, List.append_assoc, List.cons_append, List.nil_append]
  rw [shape]
  refine ⟨?_, hasPrefix_append "@@ " t, other_words "@@ " _ t (by decide)⟩
  simp only [hunkBodyLine, String.reduceToList, String.toList_ofList, List.cons_append]
  decide

theorem step_header {r : Reader} {f : File} (cur : r.cur = some f) (plain : f.binary = false)
    (room : r.hunks + 1 ≤ maxHunks)
    (h : Hunk) (old new : Nat) : step lib r (.ofList (h.header old new)) =
      if start new h.newLen < 2 ^ 63 then
        .ok { r with hunks := r.hunks + 1, inHunk := true, newLn := (start new h.newLen : Int) }
      else .error "diff: bad hunk header" := by
  obtain ⟨body, header, others⟩ := header_words h old new
  simp only [headWords, List.dropLast_cons_cons, List.forall_mem_cons] at others
  obtain ⟨git, added, deleted, renamed, renamedTo, binary, patch, plus, minus, -⟩ := others
  have full : ¬r.hunks + 1 > maxHunks := by omega
  rw [step_leave lib r body]
  simp only [step, git, added, deleted, renamed, renamedTo, binary, ne_of_not_hasPrefix patch, plus, minus, header,
    cur, plain, full, hunkNewStart_header, Bool.false_eq_true, if_false, Bool.false_and, Bool.and_false, Bool.or_false,
      decide_false, if_true]
  split_ifs <;> rfl

theorem steps_hunks {r : Reader} {f : File} (cur : r.cur = some f) (plain : f.binary = false) (old new : Nat)
    (hs : List Hunk) (room : r.hunks + hs.length ≤ maxHunks) : ∃ inHunk newLn,
      ((renderHunks old new hs).map String.ofList).foldlM (step lib) r =
        if StartsFit (placed new hs) then
          .ok { r with
            cur := some ((placed new hs).foldl readHunk f), hunks := r.hunks + hs.length, inHunk, newLn }
        else .error "diff: bad hunk header" := by
  induction hs generalizing r f old new with
  | nil =>
    refine ⟨r.inHunk, r.newLn, ?_⟩
    rw [if_pos (by simp [StartsFit, placed])]
    cases r
    cases cur
    rfl
  | cons h hs ih =>
    rw [List.length_cons] at room
    have fit : StartsFit (placed new (h :: hs)) ↔
        start (new + h.skip) h.newLen < 2 ^ 63 ∧ StartsFit (placed (new + h.skip + h.newLen) hs) := List.forall_mem_cons
    rw [renderHunks, List.map_append, List.map_cons, List.cons_append, List.foldlM_cons,
      step_header lib cur plain (by omega)]
    by_cases start : start (new + h.skip) h.newLen < 2 ^ 63
    · let opened : Reader := { r with
        hunks := r.hunks + 1, inHunk := true, newLn := (Unified.start (new + h.skip) h.newLen : Int) }
      have lines := steps_lines lib (r := opened) rfl cur plain h.lines
      have binary := (readHunk_binary f (new + h.skip, h)).trans plain
      obtain ⟨inHunk, newLn, below⟩ := ih (r := { opened with
        cur := some (readHunk f (new + h.skip, h)), newLn := (h.lines.foldl readLine (f, opened.newLn)).2 }) rfl binary
        (old + h.skip + h.oldLen) (new + h.skip + h.newLen) (by simp only [opened]; omega)
      refine ⟨inHunk, newLn, ?_⟩
      rw [if_pos start, List.map_map]
      refine (List.foldlM_append ..).trans ?_
      refine (congrArg (· >>= _) lines).trans ?_
      have count : r.hunks + (h :: hs).length = opened.hunks + hs.length := by
        simp only [opened, List.length_cons]
        omega
      rw [count]
      exact below.trans (if_congr (by rw [fit, and_iff_right start]) rfl rfl)
    · exact ⟨false, 0, by rw [if_neg start, if_neg (fun fits => start (fit.mp fits).1)]; rfl⟩

/-! ### Ends of files -/

/-- A file as it is listed, if its path can be. -/
def File.finish (f : File) : Option File :=
  (canonicalPath f.path).map fun p => { f with path := p, lines := uniqueInts f.lines }

theorem canonicalPath_empty : canonicalPath "" = none := by decide

theorem ne_empty_of_canonicalPath {raw path : String} (h : canonicalPath raw = some path) : path ≠ "" := by
  simp only [canonicalPath] at h
  split_ifs at h with _ empty
  rw [← Option.some.inj h]
  exact empty

theorem flush_none {r : Reader} (cur : r.cur = none) : flush lib r = .ok r := by rw [flush, cur]

theorem flush_some {r : Reader} {f g : File} (cur : r.cur = some f) (done : f.finish = some g)
    (room : r.files.length + 1 ≤ maxFiles) :
    flush lib r = .ok { r with files := r.files ++ [g], cur := none, inHunk := false } := by
  obtain ⟨p, path, rfl⟩ := Option.map_eq_some_iff.mp done
  have named : f.path ≠ "" := by
    intro empty
    rw [empty, canonicalPath_empty] at path
    cases path
  have full : ¬r.files.length + 1 > maxFiles := by omega
  simp only [flush, cur, path, named, full, if_false]

theorem flush_error {r : Reader} {f : File} (cur : r.cur = some f) (bad : f.finish = none) :
    ∃ e, flush lib r = .error e := by
  have path : canonicalPath f.path = none := Option.map_eq_none_iff.mp bad
  simp only [flush, cur, path]
  split_ifs
  · exact ⟨_, rfl⟩
  · exact ⟨_, rfl⟩

/-! ### Headers of files -/

/-- A path in the form that `CanonicalPath` gives. -/
structure CleanPath (p : String) : Prop where
  chars : ∀ c ∈ p.toList, isSpace c = false ∧ c ≠ '\\'
  clean : pathClean p = p
  relative : hasPrefix p "/" = false
  proper : p ≠ "."
  inside : contains p ".." = false
  outsideShop : hasPrefix p "examples/shop/" = false

namespace CleanPath
variable {p : String}

theorem ne_empty (h : CleanPath p) : p ≠ "" := by
  rintro rfl
  exact absurd h.clean (by decide)

theorem chars_side (h : CleanPath p) (plain : ∀ c ∈ side.toList, isSpace c = false ∧ c ≠ '\\') :
    ∀ c ∈ (side ++ p).toList, isSpace c = false ∧ c ≠ '\\' := by
  intro c hc
  rw [String.toList_append, List.mem_append] at hc
  exact hc.elim (plain c) (h.chars c)

theorem chars_old (h : CleanPath p) : ∀ c ∈ ("a/" ++ p).toList, isSpace c = false ∧ c ≠ '\\' :=
  h.chars_side (forall_mem_of_all (by decide))

theorem chars_new (h : CleanPath p) : ∀ c ∈ ("b/" ++ p).toList, isSpace c = false ∧ c ≠ '\\' :=
  h.chars_side (forall_mem_of_all (by decide))

theorem canonicalPath_new (h : CleanPath p) : canonicalPath ("b/" ++ p) = some p := by
  have trimmed : trimSpace ("b/" ++ p) = "b/" ++ p := trimSpace_of_none fun c hc => (h.chars_new c hc).1
  have slashes : replaceAll ("b/" ++ p) '\\' '/' = "b/" ++ p := replaceAll_of_not_mem fun mem =>
    (h.chars_new _ mem).2 rfl
  have spelled : "b/" ++ p = .ofList ("b/".toList ++ p.toList) := by rw [← String.toList_append, String.ofList_toList]
  have old : trimPrefix ("b/" ++ p) "a/" = "b/" ++ p := by
    rw [spelled]
    exact trimPrefix_of_not (hasPrefix_of_apart "b/" "a/" _ (by decide) (by decide))
  have new : trimPrefix ("b/" ++ p) "b/" = p := by rw [spelled, trimPrefix_append, String.ofList_toList]
  have apart {pre : String} (h' : hasPrefix p pre = false) : trimPrefix p pre = p := trimPrefix_of_not h'
  have up (sub : String) (dots : contains sub ".." = true) : contains p sub = false := by
    by_contra found
    have above := (contains_iff.mp dots).trans (contains_iff.mp (Bool.eq_true_of_not_eq_false found))
    exact absurd (h.inside.symm.trans (contains_iff.mpr above)) (by decide)
  have parent : hasPrefix p "../" = false := by
    by_contra found
    have above := hasPrefix_iff.mp (Bool.eq_true_of_not_eq_false found)
    exact absurd ((up "../" (by decide)).symm.trans (contains_iff.mpr above.isInfix)) (by decide)
  have root : p ≠ "/" := by
    rintro rfl
    exact absurd h.relative (by decide)
  simp only [canonicalPath, trimmed, slashes, old, new, h.clean, h.proper, root, parent,
    up "/../" (by decide), h.inside, apart h.relative, apart h.outsideShop, h.ne_empty, Bool.false_eq_true,
      or_self, if_false]

end CleanPath

theorem headerPath_of_none {s : String} (h : ∀ c ∈ s.toList, isSpace c = false) : headerPath s = s := by
  have tab : '\t' ∉ s.toList := fun mem => absurd (h _ mem) (by decide)
  have blank : ' ' ∉ s.toList := fun mem => absurd (h _ mem) (by decide)
  rw [headerPath, trimSpace_of_none h, cutBefore_of_not_mem tab, cutBefore_of_not_mem blank]

section Lines
variable {r : Reader} {f : File}

theorem step_skip (out : r.inHunk = false) (lit : String) (t : List Char)
    (h : ∀ pre ∈ headWords, hasPrefix lit pre = false ∧ hasPrefix pre lit = false) :
    step lib r (.ofList (lit.toList ++ t)) = .ok r := by
  have others := other_words lit headWords t h
  simp only [headWords, List.forall_mem_cons] at others
  obtain ⟨git, added, deleted, renamed, renamedTo, binary, patch, plus, minus, header, -⟩ := others
  simp only [step, out, git, added, deleted, renamed, renamedTo, binary, ne_of_not_hasPrefix patch, plus, minus, header,
    Bool.false_eq_true, if_false, Bool.false_and, Bool.and_false, Bool.or_false, decide_false]

theorem step_added (cur : r.cur = some f) (out : r.inHunk = false) (t : List Char) :
    step lib r (.ofList ("new file mode ".toList ++ t)) = .ok { r with cur := some { f with status := .add } } := by
  have git := hasPrefix_of_apart "new file mode " "diff --git " t (by decide) (by decide)
  have here := hasPrefix_of_literal "new file mode " "new file mode" t (by decide)
  simp only [step, out, git, here, cur, Reader.onFile, Option.isSome_some, Option.map_some, Bool.false_eq_true,
    if_false, Bool.false_and, Bool.and_self, if_true]

theorem step_deleted (cur : r.cur = some f) (out : r.inHunk = false) (t : List Char) :
    step lib r (.ofList ("deleted file mode ".toList ++ t)) = .ok { r with
      cur := some { f with status := .delete } } := by
  have git := hasPrefix_of_apart "deleted file mode " "diff --git " t (by decide) (by decide)
  have added := hasPrefix_of_apart "deleted file mode " "new file mode" t (by decide) (by decide)
  have here := hasPrefix_of_literal "deleted file mode " "deleted file mode" t (by decide)
  simp only [step, out, git, added, here, cur, Reader.onFile, Option.isSome_some, Option.map_some,
    Bool.false_eq_true, if_false, Bool.false_and, Bool.and_false, Bool.and_self, if_true]

theorem step_minus (cur : r.cur = some f) (out : r.inHunk = false) (t : List Char) :
    step lib r (.ofList ("--- ".toList ++ t)) = .ok { r with cur := some (f.minusLine (headerPath (.ofList t))) } := by
  have others := other_words "--- " (headWords.take 8) t (by decide)
  simp only [headWords, List.take_succ_cons, List.forall_mem_cons] at others
  obtain ⟨git, added, deleted, renamed, renamedTo, binary, patch, plus, -⟩ := others
  have rest : ("--- ".toList ++ t).drop 4 = t := List.drop_left' (by decide)
  simp only [step, out, git, added, deleted, renamed, renamedTo, binary, ne_of_not_hasPrefix patch, plus,
    hasPrefix_append, cur, Reader.onFile, String.toList_ofList, rest, Option.isNone_some, Option.map_some,
      Bool.false_eq_true, if_false, Bool.false_and,
    Bool.and_false, Bool.or_false, decide_false, if_true]

theorem step_plus (cur : r.cur = some f) (out : r.inHunk = false) (t : List Char) :
    step lib r (.ofList ("+++ ".toList ++ t)) = .ok { r with cur := some (f.plusLine (headerPath (.ofList t))) } := by
  have others := other_words "+++ " (headWords.take 7) t (by decide)
  simp only [headWords, List.take_succ_cons, List.forall_mem_cons] at others
  obtain ⟨git, added, deleted, renamed, renamedTo, binary, patch, -⟩ := others
  have rest : ("+++ ".toList ++ t).drop 4 = t := List.drop_left' (by decide)
  simp only [step, out, git, added, deleted, renamed, renamedTo, binary, ne_of_not_hasPrefix patch,
    hasPrefix_append, cur, Reader.onFile, String.toList_ofList, rest, Option.isNone_some, Option.map_some,
      Bool.false_eq_true, if_false, Bool.false_and,
    Bool.and_false, Bool.or_false, decide_false, if_true]

theorem flush_leave (r : Reader) : flush lib { r with inHunk := false } = (flush lib r).map fun r =>
    { r with inHunk := false } := by
  obtain ⟨files, cur, inHunk, newLn, hunks⟩ := r
  cases cur with
  | none => rfl
  | some f =>
    simp only [flush]
    cases canonicalPath f.path with
    | none => split_ifs <;> rfl
    | some p => split_ifs <;> rfl

theorem gitPaths_sides {p : String} (clean : CleanPath p) :
    gitPaths (.ofList ("a/".toList ++ p.toList ++ ' ' :: ("b/".toList ++ p.toList))) = ("a/" ++ p, "b/" ++ p) := by
  have named : fields (.ofList ("a/".toList ++ p.toList ++ ' ' :: ("b/".toList ++ p.toList))) = ["a/" ++ p,
    "b/" ++ p] := by
    rw [← String.toList_append, ← String.toList_append,
      fields_two (fun c hc => (clean.chars_old c hc).1) (fun c hc => (clean.chars_new c hc).1) (by simp) (by simp),
      String.ofList_toList, String.ofList_toList]
  simp only [gitPaths, named, List.getLast_singleton]

/-- The path that is read from a line of git. -/
def gitPath (both : List Char) : String :=
  if (gitPaths (.ofList both)).2 ≠ "" then (gitPaths (.ofList both)).2 else (gitPaths (.ofList both)).1

theorem step_git (r : Reader) (both : List Char) : step lib r (.ofList ("diff --git ".toList ++ both)) =
    (flush lib r).map fun r => { r with cur := some { path := gitPath both }, inHunk := false } := by
  have body : hunkBodyLine (.ofList ("diff --git ".toList ++ both)) = false := by
    simp only [hunkBodyLine, String.reduceToList, String.toList_ofList, List.cons_append]
    decide
  have rest (t : List Char) : ("diff --git ".toList ++ t).drop 11 = t := List.drop_left' (by decide)
  rw [step_leave lib r body]
  simp only [step, hasPrefix_append, startFile, flush_leave, String.toList_ofList, rest, Bool.false_and,
    Bool.false_eq_true, if_false, if_true]
  cases flush lib r with
  | error e => rfl
  | ok r => simp [Except.map, Reader.onFile, gitPath]

end Lines

/-! ### Sections -/

def ofKind : Kind → Status
  | .modify => .modify
  | .add => .add
  | .delete => .delete

/-- The path that is read from the header of an edit. -/
def readPath (e : Edit) (both new : List Char) : String :=
  if e.headed = true ∧ e.kind ≠ .delete then headerPath (.ofList new) else gitPath both

/-- Names that are read as names. -/
structure Spelled (both old new : List Char) : Prop where
  both : gitPath both ≠ ""
  old : headerPath (.ofList old) ≠ "/dev/null"
  new : headerPath (.ofList new) ≠ "/dev/null" ∧ headerPath (.ofList new) ≠ ""

theorem Spelled.readPath_ne_empty {both old new : List Char} (spelled : Spelled both old new) (e : Edit) :
    readPath e both new ≠ "" := by
  unfold readPath
  split_ifs
  · exact spelled.new.2
  · exact spelled.both

def opened (path : String) (e : Edit) : File := { path, status := ofKind e.kind }

def modeStatus (e : Edit) : Status := if e.mode = none then .modify else ofKind e.kind

theorem steps_modes (e : Edit) {r : Reader} {f : File} (cur : r.cur = some f) (out : r.inHunk = false)
    (fresh : f.status = .modify) :
    ((e.modeLines ++ e.indexLines).map String.ofList).foldlM (step lib) r =
      .ok { r with cur := some { f with status := modeStatus e } } := by
  have index {r : Reader} (out : r.inHunk = false) : (e.indexLines.map String.ofList).foldlM (step lib) r = .ok r := by
    unfold Edit.indexLines
    cases e.index with
    | none => rfl
    | some t => exact (congrArg (· >>= _) (step_skip lib out "index " t.1 (by decide))).trans rfl
  have same : { r with cur := some { f with status := Status.modify } } = r := by
    rw [← fresh, ← cur]
  rw [List.map_append, List.foldlM_append]
  unfold Edit.modeLines modeStatus
  cases e.mode with
  | none =>
    rw [if_pos rfl, same]
    exact index out
  | some modes =>
    rw [if_neg (by simp)]
    cases e.kind with
    | modify =>
      have old := step_skip lib out "old mode " modes.1.1 (by decide)
      have new := step_skip lib out "new mode " modes.2.1 (by decide)
      simp only [List.map_cons, List.map_nil, List.foldlM_cons, List.foldlM_nil, ofKind, same]
      rw [old]
      refine (congrArg (fun x => (x >>= pure) >>= _) new).trans ?_
      exact index out
    | add =>
      have added := step_added lib cur out modes.2.1
      simp only [List.map_cons, List.map_nil, List.foldlM_cons, List.foldlM_nil, ofKind]
      rw [added]
      exact index out
    | delete =>
      have deleted := step_deleted lib cur out modes.1.1
      simp only [List.map_cons, List.map_nil, List.foldlM_cons, List.foldlM_nil, ofKind]
      rw [deleted]
      exact index out

theorem minusLine_of_path {f : File} (named : f.path ≠ "") (q : String) :
    f.minusLine q = if q = "/dev/null" then { f with status := .add } else f := by
  simp only [File.minusLine, named, false_and, if_false]

theorem headerPath_devNull : headerPath (.ofList "/dev/null".toList) = "/dev/null" := by decide

theorem headerPath_side {p : String} (h : ∀ c ∈ (side ++ p).toList, isSpace c = false ∧ c ≠ '\\') :
    headerPath (.ofList (side.toList ++ p.toList)) = side ++ p := by
  rw [← String.toList_append, String.ofList_toList]
  exact headerPath_of_none fun c hc => (h c hc).1

theorem side_ne_devNull {p : String} (h : hasPrefix side "/" = false ∧ hasPrefix "/" side = false) :
    side ++ p ≠ "/dev/null" := by
  intro same
  have slash := hasPrefix_of_apart side "/" p.toList h.1 h.2
  rw [← String.toList_append, String.ofList_toList, same] at slash
  exact absurd slash (by decide)

theorem headerPath_cons (seen : isSpace c = false) (t : List Char) :
    ∃ t', headerPath (.ofList (c :: t)) = .ofList (c :: t') := by
  obtain ⟨kept, trimmed⟩ : ∃ kept, trimBoth isSpace (c :: t) = c :: kept := by
    have start := trimBoth_prefix (p := isSpace) (l := c :: t)
    rw [List.dropWhile_cons_of_neg (by simp [seen])] at start
    cases trimmed : trimBoth isSpace (c :: t) with
    | nil =>
      have still := (mem_trimBoth_iff seen).mpr (List.mem_cons_self (l := t))
      rw [trimmed] at still
      cases still
    | cons x kept =>
      rw [trimmed] at start
      exact ⟨kept, by rw [(List.cons_prefix_cons.mp start).1]⟩
  have tab : c ≠ '\t' := by
    rintro rfl
    exact absurd seen (by decide)
  have blank : c ≠ ' ' := by
    rintro rfl
    exact absurd seen (by decide)
  exact ⟨_, by simp [headerPath, trimSpace, cutBefore, trimmed, tab, blank]; rfl⟩

theorem gitPath_cons (seen : isSpace c = false) (t : List Char) : gitPath (c :: t) ≠ "" := by
  have words : ∀ w ∈ fields (.ofList (c :: t)), w ≠ "" := by
    intro w hw
    obtain ⟨part, hp, rfl⟩ := List.mem_map.mp hw
    simpa using (List.mem_filter.mp hp).2
  have some_ : fields (.ofList (c :: t)) ≠ [] := by
    obtain ⟨w, ws, parts⟩ := List.exists_cons_of_ne_nil (List.splitOnP_ne_nil isSpace t)
    simp [fields, List.splitOnP_cons_eq_if_modifyHead, seen, parts]
  rw [gitPath, gitPaths]
  cases all : fields (.ofList (c :: t)) with
  | nil => exact absurd all some_
  | cons a rest =>
    rw [all] at words
    cases rest with
    | nil => simpa using words a List.mem_cons_self
    | cons b more =>
      have last := words _ (List.mem_cons_of_mem a (List.getLast_mem (List.cons_ne_nil b more)))
      simp [last]

theorem exists_of_begins {t : List Char} (h : Unified.begins t = true) : ∃ c t', t = c :: t' ∧
    isSpace c = false ∧ c ≠ '/' := by
  have blank : spaceChars.all (fun c => ¬('!' ≤ c ∧ c ≤ '~')) = true := by decide
  cases t with
  | nil => cases h
  | cons c t' =>
    obtain ⟨low, high, other⟩ : '!' ≤ c ∧ c ≤ '~' ∧ c ≠ '/' := by simpa [Unified.begins] using h
    exact ⟨c, t', rfl, decide_eq_false fun space => of_decide_eq_true (List.all_eq_true.mp blank c space)
      ⟨low, high⟩, other⟩

theorem spelled_of_names (nm : Names) : Spelled nm.both nm.old nm.new := by
  obtain ⟨both, old, new⟩ := nm.started
  obtain ⟨x, t, both, seen, -⟩ := exists_of_begins both
  obtain ⟨y, u, old, seen', apart'⟩ := exists_of_begins old
  obtain ⟨z, v, new, seen'', apart''⟩ := exists_of_begins new
  obtain ⟨u', left⟩ := headerPath_cons seen' u
  obtain ⟨v', right⟩ := headerPath_cons seen'' v
  rw [both, old, new]
  refine ⟨gitPath_cons seen t, ?_, ?_⟩
  · rw [left]
    exact fun same => apart' (by simpa using congrArg (fun s => s.toList.head?) same)
  · rw [right]
    exact ⟨fun same => apart'' (by simpa using congrArg (fun s => s.toList.head?) same), by simp⟩

theorem spelled_of_clean {p : String} (clean : CleanPath p) :
    Spelled ("a/".toList ++ p.toList ++ ' ' :: ("b/".toList ++ p.toList)) ("a/".toList ++ p.toList)
    ("b/".toList ++ p.toList) := by
  refine ⟨?_, ?_, ?_⟩
  · rw [gitPath, gitPaths_sides clean]
    simp
  · rw [headerPath_side clean.chars_old]
    exact side_ne_devNull (by decide)
  · rw [headerPath_side clean.chars_new]
    exact ⟨side_ne_devNull (by decide), by simp⟩

theorem readPath_of_clean (clean : CleanPath e.path) :
    readPath e (e.oldSide ++ ' ' :: e.newSide) e.newSide = "b/" ++ e.path := by
  have both := gitPaths_sides clean
  rw [readPath, gitPath, Edit.oldSide, Edit.newSide, both, headerPath_side clean.chars_new]
  simp

section
variable {both old new : List Char}

theorem steps_names (e : Edit) (spelled : Spelled both old new) {r : Reader} {f : File} (cur : r.cur = some f)
    (out : r.inHunk = false)
    (path : f.path = gitPath both) (status : f.status = modeStatus e) :
    ((e.nameLines old new).map String.ofList).foldlM (step lib) r =
      .ok { r with cur := some { f with path := readPath e both new, status := ofKind e.kind } } := by
  have named : f.path ≠ "" := path ▸ spelled.both
  have minus : f.minusLine (headerPath (.ofList (if e.kind = .add then "/dev/null".toList else old))) =
      if e.kind = .add then { f with status := .add } else f := by
    rw [minusLine_of_path named]
    by_cases add : e.kind = .add
    · rw [if_pos add, if_pos add, headerPath_devNull, if_pos rfl]
    · rw [if_neg add, if_neg add, if_neg spelled.old]
  have plus (g : File) : g.plusLine (headerPath (.ofList (if e.kind = .delete then "/dev/null".toList else new))) =
      if e.kind = .delete then { g with status := .delete } else { g with path := headerPath (.ofList new) } := by
    by_cases delete : e.kind = .delete
    · rw [if_pos delete, if_pos delete, headerPath_devNull]
      rfl
    · rw [if_neg delete, if_neg delete, File.plusLine, if_pos spelled.new]
  unfold Edit.nameLines
  by_cases headed : e.headed = true
  · rw [if_pos headed, List.map_cons, List.foldlM_cons, step_minus lib cur out, minus]
    have read (g : File) := step_plus lib (r := { r with cur := some g }) rfl out
      (if e.kind = .delete then "/dev/null".toList else new)
    refine (congrArg (· >>= pure) (read _)).trans ?_
    rw [plus, readPath]
    cases kind : e.kind with
    | modify =>
      have same : f.status = .modify := by
        rw [status, modeStatus, kind]
        split_ifs <;> rfl
      simp [headed, ofKind, ← same]
    | add => simp [headed, ofKind]
    | delete => simp [ofKind, ← path]
  · have final : f.status = ofKind e.kind := by
      rw [status]
      rcases (e.named (by simpa using headed)).2 with kind | mode
      · rw [modeStatus, kind]
        split_ifs <;> rfl
      · rw [modeStatus, if_neg mode]
    rw [if_neg headed, readPath, if_neg (fun h => headed h.1), ← path, ← final, ← cur]
    rfl

end

def readFile (path : String) (e : Edit) : File := (placed 0 e.hunks).foldl readHunk (opened path e)

/-- The file that is listed for an edit, if there is one. -/
def fileOf (path : String) (e : Edit) : Option File :=
  if StartsFit (placed 0 e.hunks) then (readFile path e).finish else none

section
variable {both old new : List Char}

theorem steps_edit (e : Edit) (spelled : Spelled both old new) {r r' : Reader} (flushed : flush lib r = .ok r')
    (room : r'.hunks + e.hunks.length ≤ maxHunks) :
    ∃ inHunk newLn, ((e.gitAs both old new).map String.ofList).foldlM (step lib) r =
      if StartsFit (placed 0 e.hunks) then
        .ok { r' with
          cur := some (readFile (readPath e both new) e), hunks := r'.hunks + e.hunks.length, inHunk :=
        inHunk, newLn := newLn }
      else .error "diff: bad hunk header" := by
  let started : Reader := { r' with cur := some { path := gitPath both }, inHunk := false }
  have git : step lib r _ = .ok started := (step_git lib r both).trans (by rw [flushed]; rfl)
  have modes := steps_modes lib e (r := started) rfl rfl rfl
  have names := steps_names lib e spelled
    (r := { started with cur := some { path := gitPath both, status := modeStatus e } }) rfl rfl rfl rfl
  obtain ⟨inHunk, newLn, hunks⟩ :=
    steps_hunks lib (r := { started with cur := some (opened (readPath e both new) e) }) rfl rfl 0 0 e.hunks room
  refine ⟨inHunk, newLn, ?_⟩
  rw [Edit.gitAs, Edit.unifiedAs, List.map_cons, List.foldlM_cons, git]
  show List.foldlM (step lib) started _ = _
  rw [List.map_append, List.foldlM_append, modes]
  show List.foldlM (step lib) { started with cur := some { path := gitPath both, status := modeStatus e } } _ = _
  rw [List.map_append, List.foldlM_append, names]
  exact hunks

theorem steps_edit_error (e : Edit) (both old new : List Char) {r : Reader} {err : String}
    (flushed : flush lib r = .error err) :
    ((e.gitAs both old new).map String.ofList).foldlM (step lib) r = .error err := by
  have git : step lib r _ = .error err := (step_git lib r both).trans (by rw [flushed]; rfl)
  rw [Edit.gitAs, List.map_cons, List.foldlM_cons, git]
  rfl

end

theorem steps_edits (es : List Edit) (clean : ∀ e ∈ es, CleanPath e.path) {r : Reader}
    (room : ∀ r', flush lib r = .ok r' →
      r'.files.length + es.length ≤ maxFiles ∧ r'.hunks + (es.map fun e => e.hunks.length).sum ≤ maxHunks)
      (fs : List File) :
    (∃ r', ((es.flatMap Edit.git).map String.ofList).foldlM (step lib) r >>= flush lib = .ok r' ∧ r'.files = fs) ↔
      ∃ r', flush lib r = .ok r' ∧ ∃ gs, fs = r'.files ++ gs ∧
      List.Forall₂ (fun e f => fileOf ("b/" ++ e.path) e = some f) es gs := by
  induction es generalizing r with
  | nil =>
    refine exists_congr fun r' => and_congr_right fun _ => ?_
    simp [eq_comm]
  | cons e es ih =>
    have cleanHead := clean e List.mem_cons_self
    have cleanTail := fun e' he' => clean e' (List.mem_cons_of_mem e he')
    rw [List.flatMap_cons, List.map_append, List.foldlM_append]
    cases flushed : flush lib r with
    | error err =>
      rw [Edit.git, steps_edit_error lib e _ _ _ flushed]
      constructor
      · rintro ⟨r', read, -⟩
        cases read
      · rintro ⟨r', ended, -⟩
        cases ended
    | ok r' =>
      obtain ⟨files, hunks⟩ := room r' flushed
      rw [List.length_cons] at files
      rw [List.map_cons, List.sum_cons] at hunks
      obtain ⟨inHunk, newLn, read⟩ := steps_edit lib e (spelled_of_clean cleanHead) flushed (by omega)
      rw [Edit.git, Edit.oldSide, Edit.newSide, read, ← Edit.oldSide, ← Edit.newSide, readPath_of_clean cleanHead]
      by_cases fit : StartsFit (placed 0 e.hunks)
      · have file : fileOf ("b/" ++ e.path) e = (readFile ("b/" ++ e.path) e).finish := if_pos fit
        let ended : Reader :=
          { r' with cur := some (readFile
            ("b/" ++ e.path) e), hunks := r'.hunks + e.hunks.length, inHunk := inHunk, newLn := newLn }
        rw [if_pos fit]
        show (∃ r'', List.foldlM (step lib) ended _ >>= flush lib = .ok r'' ∧ _) ↔ _
        cases done : (readFile ("b/" ++ e.path) e).finish with
        | none =>
          obtain ⟨err, failed⟩ := flush_error lib (r := ended) rfl done
          rw [ih cleanTail (by rw [failed]; intro r'' h; cases h), failed]
          constructor
          · rintro ⟨r'', h, -⟩
            cases h
          · rintro ⟨r'', -, gs, -, all⟩
            cases all with
            | cons head tail =>
              rw [file, done] at head
              cases head
        | some g =>
          have listed := flush_some lib (r := ended) rfl done (by simp only [ended]; omega)
          rw [ih cleanTail (by
            rw [listed]
            rintro r'' h
            cases h
            simp only [ended, List.length_append, List.length_singleton]
            omega), listed]
          constructor
          · rintro ⟨r'', h, gs, rfl, all⟩
            cases h
            exact ⟨r', rfl, g :: gs, by simp [ended], .cons (file.trans done) all⟩
          · rintro ⟨r'', h, gs, rfl, all⟩
            cases h
            cases all with
            | cons head tail =>
              rw [file, done] at head
              cases head
              exact ⟨_, rfl, _, by simp [ended], tail⟩
      · rw [if_neg fit]
        constructor
        · rintro ⟨r'', h, -⟩
          cases h
        · rintro ⟨r'', -, gs, -, all⟩
          cases all with
          | cons head tail =>
            rw [fileOf, if_neg fit] at head
            cases head

/-- The lines of edits are read exactly if a file can be listed for each edit. -/
theorem read_git (es : List Edit) (clean : ∀ e ∈ es, CleanPath e.path) (files : es.length ≤ maxFiles)
    (hunks : (es.map fun e => e.hunks.length).sum ≤ maxHunks) (d : Diff) :
    read lib ((es.flatMap Edit.git).map String.ofList) = .ok d ↔
      List.Forall₂ (fun e f => fileOf ("b/" ++ e.path) e = some f) es d.files := by
  have all := steps_edits lib es clean (r := {}) (by rintro r' h; cases h; simpa using ⟨files, hunks⟩) d.files
  simp only [flush_none lib (r := {}) rfl, Except.ok.injEq, exists_eq_left', List.nil_append] at all
  rw [← all, read]
  cases ((es.flatMap Edit.git).map String.ofList).foldlM (step lib) {} with
  | error err => simp [bind, Except.bind]
  | ok r =>
    cases d with
    | mk fs => 
      simp only [bind, Except.bind]
      cases flush lib r with
      | error err => simp
      | ok r' => simp

theorem read_of_steps {lines : List String} {path : String} {hunks : Nat} {inHunk : Bool} {newLn : Int} {err : String}
    (steps : lines.foldlM (step lib) {} = if StartsFit (placed 0 e.hunks) then
      .ok { cur := some (readFile path e), hunks, inHunk, newLn } else .error err) (d : Diff) :
    read lib lines = .ok d ↔ ∃ f, fileOf path e = some f ∧ d = ⟨[f]⟩ := by
  rw [read, steps, fileOf]
  split_ifs with fit
  · cases done : (readFile path e).finish with
    | none =>
      obtain ⟨err, failed⟩ := flush_error lib (r := { cur := some (readFile path e), hunks, inHunk, newLn }) rfl done
      simp [failed]
    | some f =>
      have listed := flush_some lib (r := { cur := some (readFile path e), hunks, inHunk, newLn }) rfl done
        (by show 0 + 1 ≤ maxFiles; decide)
      simp [listed, eq_comm]
  · simp

theorem read_gitAs {both old new : List Char} (spelled : Spelled both old new)
    (room : e.hunks.length ≤ maxHunks) (d : Diff) :
    read lib ((e.gitAs both old new).map String.ofList) = .ok d ↔
      ∃ f, fileOf (readPath e both new) e = some f ∧ d = ⟨[f]⟩ := by
  obtain ⟨inHunk, newLn, steps⟩ := @steps_edit lib both old new e spelled {} {} rfl (by simpa using room)
  exact read_of_steps lib steps d

/-! ### Texts -/

/-- A line without the ends of lines. -/
def OneLine (l : List Char) : Prop := '\n' ∉ l ∧ '\r' ∉ l

instance (l : List Char) : Decidable (OneLine l) := inferInstanceAs (Decidable ('\n' ∉ l ∧ '\r' ∉ l))

theorem splitChars_text (h : ∀ l ∈ ls, OneLine l) : splitChars '\n' (text ls) = ls ++ [[]] := by
  induction ls with
  | nil => rfl
  | cons l ls ih =>
    obtain ⟨head, tail⟩ := List.forall_mem_cons.mp h
    rw [text, List.flatMap_cons, List.append_assoc, List.singleton_append, splitChars_append,
      splitChars_of_not_mem head.1, List.cons_append, List.nil_append]
    exact congrArg _ (ih tail)

theorem scanLines_text (h : ∀ l ∈ ls, OneLine l) : scanLines (text ls) = ls := by
  have keep : ∀ l ∈ ls, (if l.getLast? = some '\r' then l.dropLast else l) = l := by
    intro l hl
    refine if_neg fun last => (h l hl).2 ?_
    exact List.mem_of_getLast? last
  simp only [scanLines, splitChars_text h, List.getLast?_concat, if_true, List.dropLast_concat]
  exact (List.map_congr_left keep).trans (List.map_id ls)

theorem decodeText_encode (cs : List Char) : decodeText (Utf8.encode cs) = some cs := by
  have valid : none ∉ Utf8.runes (Utf8.encode cs) := Utf8.valid_encode cs
  rw [decodeText, if_neg valid, Utf8.runes_encode, List.filterMap_map]
  exact congrArg some (List.filterMap_some ..)

theorem parse_text (h : ∀ l ∈ ls, OneLine l) (fits : (Utf8.encode (text ls)).length ≤ maxBytes) :
    parse lib (Utf8.encode (text ls)) = read lib (ls.map String.ofList) := by
  cases ls with
  | nil => rfl
  | cons l ls =>
    have ended : '\n' ∈ text (l :: ls) := by simp [text]
    have pos : (Utf8.encode (text (l :: ls))).length ≠ 0 := by
      intro zero
      have back := decodeText_encode (text (l :: ls))
      rw [List.length_eq_zero_iff.mp zero] at back
      rw [← Option.some.inj (back.symm.trans (decodeText_encode [])).symm] at ended
      cases ended
    rw [parse, if_neg (by omega), if_neg pos, decodeText_encode]
    simp only [ended, not_true_eq_false, false_and, if_false, scanLines_text h]

end Aquila.Diff

import Aquila.Theorems.Diff.Applied
import Aquila.Theorems.Diff.Git

/-! What `Apply` makes of the diff that git writes for one file: a hunk that only inserts is put before the line
    that its header names, and the text always ends in a newline. -/

namespace Aquila.Diff
open Unified (Text Line Hunk Edit Kind start range renderHunks placedOld side Turns linesOf unlines text)
variable {p : Patcher} {before : Nat} {kept : List String} {h : Hunk}

/-! ### What is collected -/

/-- The lines of a hunk as they are collected. -/
def collectedLines (ls : List Line) : List String := (ls.filter (· ≠ .noNewline)).map fun l => .ofList l.render

def collectedHunk (h : Nat × Hunk) : ApplyHunk :=
  { oldStart := (start h.1 h.2.oldLen : Int), lines := collectedLines h.2.lines }

section Collect
variable {c : Collector} {f : ApplyFile}

theorem flushHunk_of_out (out : c.inHunk = false) : c.flushHunk = c := by
  unfold Collector.flushHunk
  cases c.cur with
  | none => rfl
  | some f => simp only [out, Bool.false_eq_true, if_false]

theorem flushHunk_of_in (hunk : c.inHunk = true) (cur : c.cur = some f) :
    c.flushHunk.cur = some { f with hunks := f.hunks ++ [c.hunk] } := by
  simp only [Collector.flushHunk, cur, hunk, if_true]

theorem flushHunk_flushHunk (c : Collector) : c.flushHunk.flushHunk = c.flushHunk := by
  cases cur : c.cur with
  | none => simp only [Collector.flushHunk, cur]
  | some f =>
    refine flushHunk_of_out ?_
    unfold Collector.flushHunk
    simp only [cur]
    split_ifs with hunk
    · rfl
    · exact Bool.eq_false_iff.mpr hunk

theorem collect_leave (c : Collector) {line : String} (h : hunkBodyLine line = false) :
    collect c line = collect c.flushHunk line := by
  by_cases hunk : c.inHunk = true
  · unfold collect
    simp only [hunk, h, Bool.not_false, Bool.and_true, if_true, flushHunk_flushHunk, ite_self]
  · rw [flushHunk_of_out (Bool.eq_false_iff.mpr hunk)]

theorem collect_skip (out : c.inHunk = false) (lit : String) (t : List Char)
    (h : ∀ pre ∈ headWords, hasPrefix lit pre = false ∧ hasPrefix pre lit = false) :
    collect c (.ofList (lit.toList ++ t)) = .ok c := by
  have others := other_words lit headWords t h
  simp only [headWords, List.forall_mem_cons] at others
  obtain ⟨git, added, deleted, renamed, renamedTo, binary, patch, plus, minus, header, -⟩ := others
  simp only [collect, out, git, added, deleted, renamed, renamedTo, binary, ne_of_not_hasPrefix patch, plus,
    minus, header, Bool.false_eq_true, if_false, Bool.false_and, Bool.and_false, Bool.or_false, decide_false]

theorem collect_minus (cur : c.cur = some f) (out : c.inHunk = false) (t : List Char) :
    collect c (.ofList ("--- ".toList ++ t)) = .ok { c with cur := some (f.minusLine (headerPath (.ofList t))) } := by
  have others := other_words "--- " (headWords.take 8) t (by decide)
  simp only [headWords, List.take_succ_cons, List.forall_mem_cons] at others
  obtain ⟨git, added, deleted, renamed, renamedTo, binary, patch, plus, -⟩ := others
  have rest : ("--- ".toList ++ t).drop 4 = t := List.drop_left' (by decide)
  simp only [collect, out, git, added, deleted, renamed, renamedTo, binary, ne_of_not_hasPrefix patch, plus,
    hasPrefix_append, cur, Collector.onFile, String.toList_ofList, rest, Option.isNone_some, Option.map_some,
      Bool.false_eq_true, if_false, Bool.false_and,
    Bool.and_false, Bool.or_false, decide_false, if_true]

theorem collect_plus (cur : c.cur = some f) (out : c.inHunk = false) (t : List Char) :
    collect c (.ofList ("+++ ".toList ++ t)) = .ok { c with cur := some (f.plusLine (headerPath (.ofList t))) } := by
  have others := other_words "+++ " (headWords.take 7) t (by decide)
  simp only [headWords, List.take_succ_cons, List.forall_mem_cons] at others
  obtain ⟨git, added, deleted, renamed, renamedTo, binary, patch, -⟩ := others
  have rest : ("+++ ".toList ++ t).drop 4 = t := List.drop_left' (by decide)
  simp only [collect, out, git, added, deleted, renamed, renamedTo, binary, ne_of_not_hasPrefix patch,
    hasPrefix_append, cur, Collector.onFile, String.toList_ofList, rest, Option.isNone_some, Option.map_some,
      Bool.false_eq_true, if_false, Bool.false_and,
    Bool.and_false, Bool.or_false, decide_false, if_true]

theorem collect_git (both : List Char) :
    collect {} (.ofList ("diff --git ".toList ++ both)) = .ok { cur := some { path := gitPath both } } := by
  have rest (t : List Char) : ("diff --git ".toList ++ t).drop 11 = t := List.drop_left' (by decide)
  simp only [collect, hasPrefix_append, Collector.startFile, Collector.flushFile, Collector.flushHunk, Collector.onFile,
    String.toList_ofList, rest, Bool.false_and, Bool.false_eq_true, if_false, if_true, Option.map_some, gitPath]

theorem hunkOldStart_header (h : Hunk) (old new : Nat) (fits : start old h.oldLen < 2 ^ 63) :
    hunkOldStart (.ofList (h.header old new)) = some (start old h.oldLen : Int) := by
  let tail := if h.oldLen = 1 ∧ h.counted = false then [] else ',' :: Nat.toDigits 10 h.oldLen
  let after := Nat.toDigits 10 (start old h.oldLen) ++
    (tail ++ ' ' :: ('+' :: range h.counted new h.newLen ++ " @@".toList ++ h.trailer))
  have shape : h.header old new = '@' :: '@' :: ' ' :: ('-' :: after) := by
    unfold Hunk.header
    simp only [range, String.reduceToList, List.append_assoc, List.cons_append, List.nil_append, after, tail]
  have parts : cut (.ofList (h.header old new)) "-" = some ("@@ ", .ofList after) := by
    have found := cutChars_append (c := '-') (l := "@@ ".toList) (by decide) [] after
    have whole : h.header old new = "@@ ".toList ++ (['-'] ++ after) := shape
    rw [cut, whole]
    show Option.map _ (cutChars ['-'] (String.ofList _).toList) = _
    rw [String.toList_ofList, found]
    rfl
  have digit : ∀ d ∈ Nat.toDigits 10 (start old h.oldLen), (decide (d ≠ ' ') && decide (d ≠ ',')) = true := by
    intro d hd
    have isDigit := Nat.isDigit_of_mem_toDigits (by decide) (by decide) hd
    have blank : d ≠ ' ' := by
      rintro rfl
      exact absurd isDigit (by decide)
    have comma : d ≠ ',' := by
      rintro rfl
      exact absurd isDigit (by decide)
    simp [blank, comma]
  have number : after.takeWhile (fun d => decide (d ≠ ' ') && decide (d ≠ ',')) = Nat.toDigits 10
    (start old h.oldLen) := by
    rw [List.takeWhile_append_of_pos digit]
    have stop : (tail ++ ' ' :: ('+' :: range h.counted new h.newLen ++ " @@".toList ++ h.trailer)).takeWhile
        (fun d => decide (d ≠ ' ') && decide (d ≠ ',')) = [] := by
      simp only [tail]
      split_ifs <;> rfl
    rw [stop, List.append_nil]
  have spaced : containsAny (.ofList after) " ," = true := by
    refine List.any_eq_true.mpr ⟨' ', ?_, by decide⟩
    rw [String.toList_ofList]
    simp [after]
  rw [hunkOldStart, parts]
  simp only [spaced, Bool.not_true, Bool.false_eq_true, if_false, String.toList_ofList, number,
    atoi_digits, if_pos fits]
  simp

theorem collect_header (cur : c.cur = some f) (plain : f.binary = false) (h : Hunk) (old new : Nat)
    (fits : start old h.oldLen < 2 ^ 63) :
    collect c (.ofList (h.header old new)) =
      .ok { c.flushHunk with inHunk := true, hunk := { oldStart := (start old h.oldLen : Int) } } := by
  obtain ⟨body, header, others⟩ := header_words h old new
  simp only [headWords, List.dropLast_cons_cons, List.forall_mem_cons] at others
  obtain ⟨git, added, deleted, renamed, renamedTo, binary, patch, plus, minus, -⟩ := others
  obtain ⟨g, flushed, still⟩ : ∃ g, c.flushHunk.cur = some g ∧ g.binary = false := by
    unfold Collector.flushHunk
    simp only [cur]
    split_ifs
    · exact ⟨_, rfl, plain⟩
    · exact ⟨f, cur, plain⟩
  have out : c.flushHunk.inHunk = false := by
    unfold Collector.flushHunk
    simp only [cur]
    split_ifs with hunk
    · rfl
    · exact Bool.eq_false_iff.mpr hunk
  rw [collect_leave c body]
  generalize c.flushHunk = c at flushed out
  simp only [collect, out, git, added, deleted, renamed, renamedTo, binary, ne_of_not_hasPrefix patch, plus,
    minus, header, flushed, still, hunkOldStart_header h old new fits, flushHunk_of_out out, Bool.false_eq_true,
      if_false, Bool.false_and, Bool.and_false,
    Bool.or_false, decide_false, if_true]

theorem collect_line (hunk : c.inHunk = true) (cur : c.cur = some f) (plain : f.binary = false) (l : Line)
    (body : heading l = none) :
    collect c (.ofList l.render) = .ok { c with
      hunk := { c.hunk with lines := c.hunk.lines ++ collectedLines [l] } } := by
  have marked (ch : Char) (t : List Char) (mark : ch ∈ [' ', '+', '-', '\\'])
    (plus : hasPrefix (.ofList (ch :: t)) "+++ " = false)
      (minus : hasPrefix (.ofList (ch :: t)) "--- " = false) :
        collect c (.ofList (ch :: t)) = .ok (c.bodyLine (.ofList (ch :: t))) := by
    obtain ⟨body, others⟩ := marked_line mark t
    simp only [List.forall_mem_cons] at others
    obtain ⟨git, added, deleted, renamed, renamedTo, binary, patch, header, -⟩ := others
    simp only [collect, hunk, body, cur, plain, git, added, deleted, renamed, renamedTo, binary,
      ne_of_not_hasPrefix patch, header, plus, minus, Bool.not_true, Bool.and_false, Bool.false_eq_true, if_false,
        Option.isSome_some, Bool.or_false, Bool.and_true,
      decide_false, Option.any_some, Bool.not_false, if_true]
  cases l with
  | context t =>
    refine (marked ' ' t.1 (by decide) (hasPrefix_of_head _ (by decide)) (hasPrefix_of_head _ (by decide))).trans ?_
    simp [Collector.bodyLine, collectedLines, Line.render]
  | added t =>
    have plus : hasPrefix (.ofList ('+' :: t.1)) "+++ " = false := by
      rw [hasPrefix_ofList]
      by_contra both
      obtain ⟨rest, same⟩ := List.isPrefixOf_iff_prefix.mp (Bool.eq_true_of_not_eq_false both)
      rw [heading, if_pos ⟨rest, (List.cons.inj same).2⟩] at body
      cases body
    refine (marked '+' t.1 (by decide) plus (hasPrefix_of_head _ (by decide))).trans ?_
    simp [Collector.bodyLine, collectedLines, Line.render]
  | deleted t =>
    have minus : hasPrefix (.ofList ('-' :: t.1)) "--- " = false := by
      rw [hasPrefix_ofList]
      by_contra both
      obtain ⟨rest, same⟩ := List.isPrefixOf_iff_prefix.mp (Bool.eq_true_of_not_eq_false both)
      rw [heading, if_pos ⟨rest, (List.cons.inj same).2⟩] at body
      cases body
    refine (marked '-' t.1 (by decide) (hasPrefix_of_head _ (by decide)) minus).trans ?_
    simp [Collector.bodyLine, collectedLines, Line.render]
  | noNewline =>
    refine (marked '\\' _ (by decide) (hasPrefix_of_head _ (by decide)) (hasPrefix_of_head _ (by decide))).trans ?_
    simp [Collector.bodyLine, collectedLines]

theorem collect_lines {ls : List Line} (hunk : c.inHunk = true) (cur : c.cur = some f) (plain : f.binary = false)
    (body : ∀ l ∈ ls, heading l = none) : (ls.map fun l => String.ofList l.render).foldlM collect c =
      .ok { c with hunk := { c.hunk with lines := c.hunk.lines ++ collectedLines ls } } := by
  induction ls generalizing c with
  | nil =>
    show Except.ok c = _
    simp [collectedLines]
  | cons l ls ih =>
    obtain ⟨first, others⟩ := List.forall_mem_cons.mp body
    have lines : collectedLines (l :: ls) = collectedLines [l] ++ collectedLines ls := by
      simp only [collectedLines, ← List.map_append, ← List.filter_append, List.singleton_append]
    rw [List.map_cons, List.foldlM_cons, collect_line hunk cur plain l first, lines, ← List.append_assoc]
    exact ih hunk cur others

/-- The starts of the hunks on the old side are `int`s. -/
def OldStartsFit (hs : List (Nat × Hunk)) : Prop := ∀ h ∈ hs, start h.1 h.2.oldLen < 2 ^ 63

theorem cur_of_flushHunk (h : c.flushHunk.cur = some f) : ∃ g, c.cur = some g ∧ g.binary = f.binary := by
  unfold Collector.flushHunk at h
  cases cur : c.cur with
  | none => simp [cur] at h
  | some g =>
    simp only [cur] at h
    split_ifs at h
    · exact ⟨g, rfl, by rw [← Option.some.inj h]⟩
    · exact ⟨g, rfl, by rw [Option.some.inj (cur.symm.trans h)]⟩

theorem collect_hunks {hs : List Hunk} {old : Nat} (new : Nat) (cur : c.flushHunk.cur = some f)
    (plain : f.binary = false)
    (fits : OldStartsFit (placedOld old hs)) (body : ∀ h ∈ hs, ∀ l ∈ h.lines, heading l = none) :
    ∃ c', ((renderHunks old new hs).map String.ofList).foldlM collect c = .ok c' ∧ c'.files = c.files ∧
      c'.flushHunk.cur = some { f with hunks := f.hunks ++ (placedOld old hs).map collectedHunk } := by
  induction hs generalizing c f old new with
  | nil => exact ⟨c, rfl, rfl, by simpa [placedOld] using cur⟩
  | cons h hs ih =>
    obtain ⟨first, others⟩ := List.forall_mem_cons.mp body
    obtain ⟨start, starts⟩ := List.forall_mem_cons.mp fits
    obtain ⟨g, cur', binary⟩ := cur_of_flushHunk cur
    have files : c.flushHunk.files = c.files := by
      unfold Collector.flushHunk
      simp only [cur']
      split_ifs <;> rfl
    let opened : Collector := { c.flushHunk with
      inHunk := true, hunk := { oldStart := (Unified.start (old + h.skip) h.oldLen : Int) } }
    have header : collect c (.ofList (h.header (old + h.skip) (new + h.skip))) = .ok opened :=
      collect_header cur' (binary.trans plain) h _ _ start
    have lines := collect_lines (c := opened) rfl cur plain first
    obtain ⟨c', below, same, last⟩ := ih (new + h.skip + h.newLen)
      (c := { opened with hunk := { opened.hunk with lines := opened.hunk.lines ++ collectedLines h.lines } })
      (f := { f with hunks := f.hunks ++ [collectedHunk (old + h.skip, h)] })
      (flushHunk_of_in rfl cur) plain starts others
    refine ⟨c', ?_, same.trans files, last.trans (by simp [placedOld])⟩
    rw [renderHunks, List.map_append, List.map_cons, List.cons_append, List.foldlM_cons, header, List.map_map]
    refine (List.foldlM_append ..).trans ?_
    exact (congrArg (· >>= _) lines).trans below

end Collect

/-- What is collected from the diff that git writes for a modified file. -/
theorem collect_edit {e : Edit} {both old new : List Char} (spelled : Spelled both old new) (kind : e.kind = .modify)
    (fits : OldStartsFit (placedOld 0 e.hunks)) (body : ∀ l ∈ bodyLines e, heading l = none) {path : String}
    (read : canonicalPath (readPath e both new) = some path) :
    collectLines ((e.gitAs both old new).map String.ofList) = .ok
    [{ path, hunks := (placedOld 0 e.hunks).map collectedHunk }] := by
  let started : Collector := { cur := some { path := gitPath both } }
  let named : Collector := { cur := some { path := readPath e both new } }
  have git := collect_git both
  have modes : ((e.modeLines ++ e.indexLines).map String.ofList).foldlM collect started = .ok started := by
    have index : (e.indexLines.map String.ofList).foldlM collect started = .ok started := by
      unfold Edit.indexLines
      cases e.index with
      | none => rfl
      | some t => exact (congrArg (· >>= _) (collect_skip (c := started) rfl "index " t.1 (by decide))).trans rfl
    rw [List.map_append, List.foldlM_append]
    unfold Edit.modeLines
    cases e.mode with
    | none => exact index
    | some modes =>
      have old := collect_skip (c := started) rfl "old mode " modes.1.1 (by decide)
      have new := collect_skip (c := started) rfl "new mode " modes.2.1 (by decide)
      simp only [kind, List.map_cons, List.map_nil, List.foldlM_cons, List.foldlM_nil]
      rw [old]
      exact (congrArg (fun x => (x >>= pure) >>= _) new).trans index
  have modified : e.kind ≠ .add ∧ e.kind ≠ .delete := by simp [kind]
  have names : ((e.nameLines old new).map String.ofList).foldlM collect started = .ok named := by
    unfold Edit.nameLines
    by_cases headed : e.headed = true
    · have minus := collect_minus (c := started) rfl rfl old
      have plus := collect_plus (c := started) rfl rfl new
      have left : ({ path := gitPath both } : ApplyFile).minusLine (headerPath (.ofList old)) =
        { path := gitPath both } := by
        simp [ApplyFile.minusLine, spelled.both, spelled.old]
      rw [left] at minus
      rw [ApplyFile.plusLine, if_pos spelled.new] at plus
      rw [if_pos headed, if_neg modified.1, if_neg modified.2, List.map_cons, List.foldlM_cons, minus]
      refine (congrArg (· >>= pure) plus).trans ?_
      simp only [named, readPath, if_pos (And.intro headed modified.2)]
      rfl
    · simp only [named, started, readPath, if_neg headed, if_neg (fun h : _ ∧ _ => headed h.1)]
      rfl
  obtain ⟨c', hunks, files, cur⟩ := collect_hunks (c := named) (f := { path := readPath e both new }) 0 rfl rfl fits
    fun h hh l hl => body l (List.mem_flatMap.mpr ⟨h, hh, hl⟩)
  have scanned : ((e.gitAs both old new).map String.ofList).foldlM collect {} = .ok c' := by
    rw [Edit.gitAs, Edit.unifiedAs, List.map_cons, List.foldlM_cons, git]
    show List.foldlM collect started _ = _
    rw [List.map_append, List.foldlM_append, modes]
    show List.foldlM collect started _ = _
    rw [List.map_append, List.foldlM_append, names]
    exact hunks
  have some_ : readPath e both new ≠ "" := by
    intro none
    rw [none, canonicalPath_empty] at read
    cases read
  have kept : c'.flushHunk.files = c'.files := by
    unfold Collector.flushHunk
    cases c'.cur with
    | none => rfl
    | some f => dsimp only; split_ifs <;> rfl
  rw [collectLines, scanned]
  simp only [Collector.flushFile, cur, some_, if_false, read, kept, files]
  rfl

/-! ### What the hunks make of the lines -/

def lineText (l : List Char × Bool) : String := .ofList l.1

/-- The lines of a hunk on the new side. -/
def news (h : Hunk) : List String := (side Line.onNew h.lines).map lineText

/-- A hunk without old lines after the first line of the file. Its header names the line that it follows, and its
    lines are put before that line. -/
def Displaced (before : Nat) (h : Hunk) : Prop := h.oldLen = 0 ∧ 0 < before

instance (before : Nat) (h : Hunk) : Decidable (Displaced before h) := inferInstanceAs (Decidable (_ ∧ _))

/-- The lines that a hunk and those skipped before it become. -/
def patchedHunk (before : Nat) (h : Hunk) (kept : List String) : List String :=
  if Displaced before h then kept.dropLast ++ news h ++ kept.getLast?.toList else kept ++ news h

/-- The lines that the old lines become, after `before` of them. -/
def patched : (before : Nat) → List Hunk → List String → List String
  | _, [], old => old
  | before, h :: hs, old =>
    patchedHunk (before + h.skip) h (old.take h.skip) ++ patched (before + h.skip + h.oldLen) hs
    (old.drop (h.skip + h.oldLen))

theorem copyTo_eq {begin_ : Int} (rest : List String) (k : Nat) (out : List String) (cursor : Int)
    (gap : cursor + k = begin_)
    (room : k ≤ rest.length) : copyTo begin_ out rest cursor = .ok
    { out := out ++ rest.take k, rest := rest.drop k, cursor := begin_ } := by
  induction rest generalizing k out cursor with
  | nil =>
    obtain rfl : k = 0 := by simpa using room
    rw [copyTo, if_neg (by omega)]
    simp [← gap]
  | cons l rest ih =>
    cases k with
    | zero =>
      rw [copyTo, if_neg (by omega)]
      simp [← gap]
    | succ k =>
      rw [copyTo, if_pos (by omega), ih k _ _ (by omega) (by simpa using room)]
      simp

theorem patch_lines {ls : List Line} {rest : List String} (h : p.rest = (side Line.onOld ls).map lineText ++ rest) :
    (collectedLines ls).foldlM Patcher.line p =
      .ok { out := p.out ++ (side Line.onNew ls).map lineText, rest := rest, cursor := p.cursor + (ls.countP
        Line.onOld : Nat) } := by
  induction ls generalizing p with
  | nil =>
    show Except.ok p = _
    obtain ⟨out, rest', cursor⟩ := p
    obtain rfl : rest' = rest := h
    simp [side]
  | cons l ls ih =>
    cases l with
    | context t =>
      simp only [side, Line.onOld, if_true, List.map_cons, List.cons_append] at h
      have first : p.line (.ofList (' ' :: t.1)) =
          .ok { out := p.out ++ [.ofList t.1], rest := (side Line.onOld
            ls).map lineText ++ rest, cursor := p.cursor + 1 } := by
        rw [Patcher.line, if_neg (by simp), String.toList_ofList]
        simp [Patcher.expect, h, lineText, Line.body]
      show (p.line (.ofList (' ' :: t.1)) >>= fun p => (collectedLines ls).foldlM Patcher.line p) = _
      rw [first]
      have count : (Line.context t :: ls).countP Line.onOld = ls.countP Line.onOld + 1 := List.countP_cons_of_pos rfl
      refine (ih rfl).trans ?_
      simp [side, Line.onNew, lineText, Line.body, count]
      omega
    | added t =>
      have first : p.line (.ofList ('+' :: t.1)) = .ok { p with out := p.out ++ [.ofList t.1] } := by
        rw [Patcher.line, if_neg (by simp), String.toList_ofList]
        rfl
      show (p.line (.ofList ('+' :: t.1)) >>= fun p => (collectedLines ls).foldlM Patcher.line p) = _
      rw [first]
      refine (@ih { p with out := p.out ++ [.ofList t.1] } h).trans ?_
      simp [side, Line.onNew, Line.onOld, lineText, Line.body]
    | deleted t =>
      simp only [side, Line.onOld, if_true, List.map_cons, List.cons_append] at h
      have first : p.line (.ofList ('-' :: t.1)) =
          .ok { out := p.out, rest := (side Line.onOld ls).map lineText ++ rest, cursor := p.cursor + 1 } := by
        rw [Patcher.line, if_neg (by simp), String.toList_ofList]
        simp [Patcher.expect, h, lineText, Line.body]
      show (p.line (.ofList ('-' :: t.1)) >>= fun p => (collectedLines ls).foldlM Patcher.line p) = _
      rw [first]
      have count : (Line.deleted t :: ls).countP Line.onOld = ls.countP Line.onOld + 1 := List.countP_cons_of_pos rfl
      refine (ih rfl).trans ?_
      simp [side, Line.onNew, count]
      omega
    | noNewline =>
      refine (ih h).trans ?_
      simp [side, Line.onNew, Line.onOld]

theorem hunk_eq {p : Patcher} {before : Nat} {h : Hunk} (k : Nat) {rest : List String}
    (found : p.cursor + k = if start before h.oldLen = 0 then 1 else (start before h.oldLen : Int))
    (room : k ≤ p.rest.length)
    (olds : p.rest.drop k = (side Line.onOld h.lines).map lineText ++ rest) :
    p.hunk (collectedHunk (before, h)) =
      .ok { out := p.out ++ p.rest.take k ++ news h, rest := rest, cursor := p.cursor + k + (h.oldLen : Nat) } := by
  have begin_ : (if (collectedHunk (before, h)).oldStart = 0 then 1 else (collectedHunk (before, h)).oldStart) =
    p.cursor + k := by
    rw [found]
    simp only [collectedHunk, Int.natCast_eq_zero]
  rw [Patcher.hunk, begin_, if_neg (by omega), copyTo_eq p.rest k p.out p.cursor rfl room]
  exact patch_lines olds

/-- The state between two hunks after `before` old lines: a line that should have been written before the last hunk
    may be left over. -/
structure Between (before : Nat) (pending : List String) (rest : List String) (p : Patcher) : Prop where
  rest : p.rest = pending ++ rest
  cursor : p.cursor + pending.length = before + 1
  short : pending.length ≤ before

theorem patch_hunk {pending rest : List String}
    (state : Between before pending (kept ++ (side Line.onOld h.lines).map lineText ++ rest) p)
    (skip : kept.length = h.skip)
    (gap : 0 < before → 1 ≤ h.skip) : ∃ p' pending', p.hunk (collectedHunk (before + h.skip, h)) = .ok p' ∧
      Between (before + h.skip + h.oldLen) pending' rest p' ∧
      p'.out ++ pending' = p.out ++ pending ++ patchedHunk (before + h.skip) h kept := by
  obtain ⟨here, cursor, short⟩ := state
  have olds : (side Line.onOld h.lines).length = h.oldLen := Unified.length_side _ _
  rw [patchedHunk]
  by_cases displaced : Displaced (before + h.skip) h
  · -- the last line that is skipped stays behind
    obtain ⟨none, pos⟩ := displaced
    obtain ⟨ks, k, rfl⟩ := (List.eq_nil_or_concat kept).resolve_left (List.ne_nil_of_length_pos (by omega))
    rw [List.concat_eq_append] at skip here ⊢
    rw [List.length_append, List.length_singleton] at skip
    have empty : side Line.onOld h.lines = [] := List.length_eq_zero_iff.mp (olds.trans none)
    have parts : p.rest = (pending ++ ks) ++ (k :: rest) := by simp [here, empty]
    have found := @hunk_eq p (before + h.skip) h (pending ++ ks).length (k :: rest)
      (by rw [start, if_pos none, if_neg (by omega), List.length_append]; push_cast; omega)
      (by rw [parts]; exact (List.prefix_append _ _).length_le) (by rw [parts, List.drop_left, empty]; rfl)
    refine ⟨_, [k], found, ⟨rfl, ?_, ?_⟩, ?_⟩
    · rw [List.length_append, none, List.length_singleton]
      push_cast
      omega
    · rw [List.length_singleton]
      omega
    · rw [if_pos ⟨none, pos⟩, parts, List.take_left, List.dropLast_concat, List.getLast?_concat, Option.toList_some]
      simp only [List.append_assoc]
  · have parts : p.rest = (pending ++ kept) ++ ((side Line.onOld h.lines).map lineText ++ rest) := by simp [here]
    have begin_ : (if start (before + h.skip) h.oldLen = 0 then 1 else (start (before + h.skip) h.oldLen : Int)) =
        (before + h.skip + 1 : Nat) := by
      by_cases none : h.oldLen = 0
      · have top : before + h.skip = 0 := Nat.eq_zero_of_not_pos fun pos => displaced ⟨none, pos⟩
        rw [start, if_pos none, if_pos top, top]
        rfl
      · rw [start, if_neg none, if_neg (by omega)]
    have found := @hunk_eq p (before + h.skip) h (pending ++ kept).length rest
      (by rw [begin_, List.length_append]; push_cast; omega) (by rw [parts]; exact (List.prefix_append _ _).length_le)
      (by rw [parts, List.drop_left])
    refine ⟨_, [], found, ⟨rfl, ?_, Nat.zero_le _⟩, ?_⟩
    · rw [List.length_append, List.length_nil]
      push_cast
      omega
    · rw [if_neg displaced, parts, List.take_left]
      simp only [List.append_assoc, List.append_nil]

theorem patch_hunks {hs : List Hunk} {old new : List (List Char × Bool)} (turns : Turns hs old new)
    {pending : List String}
    (state : Between before pending (old.map lineText) p) (first : 0 < before → ∀ h ∈ hs, 1 ≤ h.skip)
    (apart : ∀ h ∈ hs.tail, 1 ≤ h.skip) :
    ∃ p', ((placedOld before hs).map collectedHunk).foldlM Patcher.hunk p = .ok p' ∧
      p'.out ++ p'.rest = p.out ++ pending ++ patched before hs (old.map lineText) := by
  induction hs generalizing before old new pending p with
  | nil => exact ⟨p, rfl, by rw [state.rest, patched, List.append_assoc]⟩
  | cons h hs ih =>
    obtain ⟨kept, old', new', skip, rfl, -, below⟩ := turns
    have olds : ((side Line.onOld h.lines).map lineText).length =
      h.oldLen := by rw [List.length_map, Unified.length_side]; rfl
    have keptLen : (kept.map lineText).length = h.skip := by rw [List.length_map, skip]
    rw [List.map_append, List.map_append] at state ⊢
    obtain ⟨p₁, pending', found, next, out⟩ := patch_hunk state keptLen fun pos => first pos h List.mem_cons_self
    obtain ⟨p', done, last⟩ := ih below next (fun _ => apart) fun h hh => apart h (List.mem_of_mem_tail hh)
    refine ⟨p', ?_, ?_⟩
    · rw [placedOld, List.map_cons, List.foldlM_cons, found]
      exact done
    · have drop : (kept.map lineText ++ (side Line.onOld h.lines).map lineText ++ old'.map lineText).drop
        (h.skip + h.oldLen) =
          old'.map lineText := by
        rw [← keptLen, ← olds, ← List.length_append, List.drop_left]
      rw [last, out, patched, drop, List.append_assoc (kept.map lineText), ← keptLen, List.take_left, keptLen]
      simp only [List.append_assoc]

/-- Every displaced hunk only repeats the line that it should follow. -/
def Harmless : (before : Nat) → List Hunk → List String → Prop
  | _, [], _ => True
  | before, h :: hs, old =>
    (Displaced (before + h.skip) h → ∀ l ∈ news h, (old.take h.skip).getLast? = some l) ∧
      Harmless (before + h.skip + h.oldLen) hs (old.drop (h.skip + h.oldLen))

theorem append_singleton_comm {ls : List String} {l : String} : ls ++ [l] = l :: ls ↔ ∀ x ∈ ls, l = x := by
  induction ls with
  | nil => simp
  | cons x ls ih =>
    rw [List.cons_append, List.cons.injEq, List.forall_mem_cons, ← ih, eq_comm]
    exact and_congr_right fun same => by rw [same]

theorem patchedHunk_eq_iff (some' : Displaced before h → kept ≠ []) :
    patchedHunk before h kept = kept ++ news h ↔ (Displaced before h → ∀ l ∈ news h, kept.getLast? = some l) := by
  rw [patchedHunk]
  split_ifs with displaced
  · obtain ⟨ks, k, rfl⟩ := (List.eq_nil_or_concat kept).resolve_left (some' displaced)
    rw [List.concat_eq_append, List.dropLast_concat, List.getLast?_concat, Option.toList_some, List.append_assoc,
      List.append_assoc, List.append_right_inj, List.singleton_append, append_singleton_comm]
    simp [displaced]
  · exact iff_of_true rfl fun yes => absurd yes displaced

theorem length_patchedHunk (some' : Displaced before h → kept ≠ []) :
    (patchedHunk before h kept).length = (kept ++ news h).length := by
  rw [patchedHunk]
  split_ifs with displaced
  · obtain ⟨ks, k, rfl⟩ := (List.eq_nil_or_concat kept).resolve_left (some' displaced)
    simp
  · rfl

section Result
variable {hs : List Hunk} {old new : List (List Char × Bool)}

theorem first_hunk {h : Hunk} {kept old' : List (List Char × Bool)} (skip : kept.length = h.skip) :
    ((kept ++ side Line.onOld h.lines ++ old').map lineText).take h.skip = kept.map lineText ∧
      ((kept ++ side Line.onOld h.lines ++ old').map lineText).drop (h.skip + h.oldLen) = old'.map lineText := by
  have olds : (side Line.onOld h.lines).length = h.oldLen := Unified.length_side _ _
  constructor
  · rw [← skip, ← List.map_take, List.append_assoc, List.take_left]
  · rw [← skip, ← olds, ← List.length_append, ← List.map_drop, List.drop_left]

theorem length_patched (turns : Turns hs old new) (first : 0 < before → ∀ h ∈ hs, 1 ≤ h.skip)
    (apart : ∀ h ∈ hs.tail, 1 ≤ h.skip) : (patched before hs (old.map lineText)).length = new.length := by
  induction hs generalizing old new before with
  | nil =>
    obtain rfl : old = new := turns
    rw [patched, List.length_map]
  | cons h hs ih =>
    obtain ⟨kept, old', new', skip, rfl, rfl, below⟩ := turns
    obtain ⟨take, drop⟩ := @first_hunk h kept old' skip
    have some' : Displaced (before + h.skip) h → kept.map lineText ≠ [] := by
      intro displaced
      have pos := displaced.2
      have gap := fun pos => first pos h List.mem_cons_self
      exact List.ne_nil_of_length_pos (by rw [List.length_map]; omega)
    rw [patched, take, drop, List.length_append, length_patchedHunk some', ih below (fun _ => apart) fun h hh =>
      apart h (List.mem_of_mem_tail hh)]
    simp [news]
    omega

theorem patched_eq_iff (turns : Turns hs old new) (first : 0 < before → ∀ h ∈ hs, 1 ≤ h.skip)
    (apart : ∀ h ∈ hs.tail, 1 ≤ h.skip) :
    patched before hs (old.map lineText) = new.map lineText ↔ Harmless before hs (old.map lineText) := by
  induction hs generalizing old new before with
  | nil =>
    obtain rfl : old = new := turns
    exact iff_of_true rfl trivial
  | cons h hs ih =>
    obtain ⟨kept, old', new', skip, rfl, rfl, below⟩ := turns
    obtain ⟨take, drop⟩ := @first_hunk h kept old' skip
    have some' : Displaced (before + h.skip) h → kept.map lineText ≠ [] := by
      intro displaced
      have pos := displaced.2
      have gap := fun pos => first pos h List.mem_cons_self
      exact List.ne_nil_of_length_pos (by rw [List.length_map]; omega)
    have whole : (kept ++ side Line.onNew h.lines ++ new').map lineText = (kept.map lineText ++ news h) ++
      new'.map lineText := by
      rw [List.map_append, List.map_append, news]
    rw [patched, Harmless, take, drop, whole, ← ih below (fun _ => apart) fun h hh => apart h (List.mem_of_mem_tail hh),
      ← patchedHunk_eq_iff some']
    constructor
    · exact fun same => List.append_inj same (length_patchedHunk some')
    · rintro ⟨here, later⟩
      rw [here, later]

end Result

/-! ### Texts -/

theorem map_splitLines (t : List Char) : splitLines (.ofList t) = (linesOf t).map lineText := by
  have parts (s : List Char) : split (.ofList s) '\n' = (s.splitOn '\n').map .ofList := by
    rw [split, String.toList_ofList, splitChars_eq_splitOn]
  unfold splitLines
  by_cases empty : t = []
  · subst empty
    rfl
  · have nonempty : String.ofList t ≠ "" := fun same => empty (by simpa using congrArg String.toList same)
    rw [if_neg nonempty]
    dsimp only
    by_cases last : t.getLast? = some '\n'
    · obtain ⟨s, rfl⟩ := List.getLast?_eq_some_iff.mp last
      have cut : trimSuffix (.ofList (s ++ ['\n'])) "\n" = .ofList s := by
        have has : hasSuffix (.ofList (s ++ ['\n'])) "\n" = true := by
          rw [hasSuffix, String.toList_ofList, String.toList_ofList]
          exact List.isSuffixOf_iff_suffix.mpr (List.suffix_append _ _)
        rw [trimSuffix, if_pos has, String.toList_ofList]
        simp
      rw [cut, Unified.linesOf_append_newline, List.map_map]
      split_ifs with none
      · obtain rfl : s = [] := by simpa using congrArg String.toList none
        rfl
      · exact parts s
    · have whole : trimSuffix (.ofList t) "\n" = .ofList t := by
        have has : hasSuffix (.ofList t) "\n" = false := by
          rw [hasSuffix, String.toList_ofList, String.toList_ofList]
          by_contra both
          obtain ⟨s, rfl⟩ := List.isSuffixOf_iff_suffix.mp (Bool.eq_true_of_not_eq_false both)
          exact last (List.getLast?_concat ..)
        rw [trimSuffix, has, if_neg Bool.false_ne_true]
      rw [whole, if_neg nonempty, parts, ← Unified.map_linesOf empty last, List.map_map]
      rfl

theorem toList_join_newline : ∀ {ls : List String}, ls ≠ [] → (join "\n" ls ++ "\n").toList = ls.flatMap fun l =>
    l.toList ++ ['\n']
  | [l], _ => by simp [join]
  | l :: l' :: ls, _ => by
    have rest := @toList_join_newline (l' :: ls) (by simp)
    rw [List.flatMap_cons, ← rest]
    simp [join]

/-- The text that `applyToLines` writes. -/
def ended (orig out : List String) : String := if orig ≠ [] ∨ out ≠ [] then join "\n" out ++ "\n" else join "\n" out

/-- What is written is the new text exactly if that ends in a newline, or nothing was and is there, and no hunk does
    harm. -/
structure Faithful (t t' : List Char) (hs : List Hunk) : Prop where
  newline : t = [] ∧ t' = [] ∨ t'.getLast? = some '\n'
  harmless : Harmless 0 hs (splitLines (.ofList t))

theorem linesOf_eq_nil_iff {t : List Char} : linesOf t = [] ↔ t = [] := by
  constructor
  · intro none
    have := Unified.unlines_linesOf t
    rw [none] at this
    exact this.symm
  · rintro rfl
    rfl

theorem mem_patched {hs : List Hunk} {old : List String} {l : String} (h : l ∈ patched before hs old) :
    l ∈ old ∨ ∃ h ∈ hs, l ∈ news h := by
  induction hs generalizing before old with
  | nil => exact .inl h
  | cons x hs ih =>
    rw [patched, List.mem_append] at h
    rcases h with h | h
    · have kept (mem : l ∈ old.take x.skip) : l ∈ old ∨ ∃ h ∈ x :: hs, l ∈ news h := .inl (List.mem_of_mem_take mem)
      have new (mem : l ∈ news x) : l ∈ old ∨ ∃ h ∈ x :: hs, l ∈ news h := .inr ⟨x, List.mem_cons_self, mem⟩
      rw [patchedHunk] at h
      split_ifs at h
      · rcases List.mem_append.mp h with h | h
        · rcases List.mem_append.mp h with h | h
          · exact kept (List.mem_of_mem_dropLast h)
          · exact new h
        · exact kept (List.mem_of_getLast? (Option.mem_toList.mp h))
      · exact (List.mem_append.mp h).elim kept new
    · rcases ih h with mem | ⟨h', hh', mem⟩
      · exact .inl (List.mem_of_mem_drop mem)
      · exact .inr ⟨h', List.mem_cons_of_mem _ hh', mem⟩

theorem not_mem_patched {hs : List Hunk} {t : List Char} {l : String}
    (h : l ∈ patched 0 hs ((linesOf t).map lineText)) :
    '\n' ∉ l.toList := by
  rcases mem_patched h with mem | ⟨x, -, mem⟩
  · obtain ⟨l', hl', rfl⟩ := List.mem_map.mp mem
    rw [lineText, String.toList_ofList]
    exact Unified.not_mem_linesOf hl'
  · obtain ⟨l', hl', rfl⟩ := List.mem_map.mp mem
    rw [lineText, String.toList_ofList]
    exact Unified.mem_side hl'

theorem ended_eq_iff {t t' : List Char} {hs : List Hunk} (turns : Turns hs (linesOf t) (linesOf t'))
    (apart : ∀ h ∈ hs.tail, 1 ≤ h.skip) :
    (ended (splitLines (.ofList t)) (patched 0 hs (splitLines (.ofList t)))).toList = t' ↔ Faithful t t' hs := by
  rw [map_splitLines]
  have first : 0 < 0 → ∀ h ∈ hs, 1 ≤ h.skip := fun pos => absurd pos (Nat.lt_irrefl 0)
  have length := length_patched turns first apart
  have same := patched_eq_iff turns first apart
  have faithful : Faithful t t' hs ↔ (t = [] ∧ t' = [] ∨ t'.getLast? = some '\n') ∧
    Harmless 0 hs ((linesOf t).map lineText) :=
    ⟨fun h => ⟨h.newline, map_splitLines t ▸ h.harmless⟩, fun h => ⟨h.1, (map_splitLines t).symm ▸ h.2⟩⟩
  rw [faithful, ← same]
  have text := Unified.unlines_linesOf t'
  have plain := fun l => @not_mem_patched hs t l
  generalize patched 0 hs ((linesOf t).map lineText) = out at length plain
  rw [ended]
  by_cases none : out = []
  · -- nothing is left
    subst none
    have gone : t' = [] := linesOf_eq_nil_iff.mp (List.length_eq_zero_iff.mp length.symm)
    subst gone
    by_cases empty : t = []
    · subst empty
      exact iff_of_true rfl ⟨.inl ⟨rfl, rfl⟩, rfl⟩
    · have some' : (linesOf t).map lineText ≠ [] := by simpa [linesOf_eq_nil_iff] using empty
      rw [if_pos (.inl some')]
      exact iff_of_false (by simp [join]) (by simp [empty])
  · rw [if_pos (.inr none), toList_join_newline none]
    have left : t' ≠ [] := by
      rintro rfl
      exact none (List.length_eq_zero_iff.mp length)
    have whole (all : ∀ l ∈ linesOf t', l.2 = true) :
      ((linesOf t').map lineText).flatMap (fun l => l.toList ++ ['\n']) = t' := by
      conv_rhs => rw [← text, Unified.unlines]
      rw [List.flatMap_map]
      refine List.flatMap_congr fun l hl => ?_
      rw [all l hl, lineText, String.toList_ofList, if_pos rfl]
    constructor
    · intro written
      have last : t'.getLast? = some '\n' := by
        obtain ⟨ls, l, rfl⟩ := (List.eq_nil_or_concat out).resolve_left none
        rw [← written, List.concat_eq_append, List.flatMap_append, List.flatMap_singleton, ← List.append_assoc,
          List.getLast?_concat]
      refine ⟨.inr last, ?_⟩
      have lines := @Unified.linesOf_flatMap (out.map String.toList) (by simpa using plain)
      rw [List.flatMap_map, written] at lines
      rw [lines, List.map_map, List.map_map]
      simp [Function.comp_def, lineText]
    · rintro ⟨last, rfl⟩
      rw [whole ((Unified.ended_linesOf_iff t').mpr (last.imp (·.2) id))]

end Aquila.Diff

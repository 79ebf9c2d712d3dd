import Aquila.Gitrev
import Aquila.Theorems.Cache
import Aquila.Theorems.Diff.Applied
import Aquila.Theorems.Limits

/-! What `Materialize` reads: the lines of a listing, the header of an answer, and the paths that it joins. -/

namespace Aquila.Gitrev
open Cas (text)
open Diff (pathDir names_render pathDir_render)
variable {x : UInt8} {w : List UInt8}

/-! ### Joined paths -/

section
variable {dst : String} {rs : List String}

theorem ne_empty_of_elements (ne : elements dst ≠ []) : dst ≠ "" := by
  rintro rfl
  exact ne (by decide)

theorem pathJoin_eq (ne : elements dst ≠ []) (proper : ∀ e ∈ rs, Proper e) (some_ : rs ≠ []) :
    pathJoin dst (join "/" rs) = render (hasPrefix dst "/") (elements dst ++ rs) := by
  have nonempty := ne_empty_of_elements ne
  have parts := elements_below nonempty proper some_
  rw [pathJoin, if_neg nonempty, pathClean_render (by simp [parts, ne]), parts, hasPrefix_below nonempty]

theorem parts_eq {s : String} (ne : elements s ≠ []) : parts s = elements s := by
  have normal := normal_elements s
  rw [parts, pathClean_render ne, names_render normal ne]
  exact List.filter_eq_self.mpr fun e he => by simpa using (normal.part he).2.1

theorem relParts_append : ∀ es rs : List String, relParts es (es ++ rs) = some rs
  | [], _ => by rw [List.nil_append, relParts]
  | e :: es, rs => by rw [List.cons_append, relParts, if_pos rfl, relParts_append es rs]

theorem outside_eq_false (ne : elements dst ≠ []) (proper : ∀ e ∈ rs, Proper e) (some_ : rs ≠ []) :
    outside dst (pathJoin dst (join "/" rs)) = false := by
  have normal := (normal_elements dst).append proper
  have more : elements dst ++ rs ≠ [] := by simp [ne]
  have target := pathJoin_eq ne proper some_
  have elems : elements (pathJoin dst (join "/" rs)) = elements dst ++ rs := by rw [target, elements_render normal more]
  have other : pathClean dst ≠ pathClean (pathJoin dst (join "/" rs)) := by
    intro same
    have names := congrArg Diff.names same
    rw [pathClean_render ne, pathClean_render (by rwa [elems]), elems, target, hasPrefix_render normal more,
      names_render (normal_elements dst) ne, names_render normal more] at names
    exact some_ (List.append_right_eq_self.mp names.symm)
  have rel : pathRel dst (pathJoin dst (join "/" rs)) = some (join "/" rs) := by
    have slash : hasPrefix (pathJoin dst (join "/" rs)) "/" =
      hasPrefix dst "/" := by rw [target, hasPrefix_render normal more]
    rw [pathRel, if_neg other, if_neg (by rw [slash]; simp), parts_eq ne, parts_eq (by rwa [elems]), elems,
      relParts_append, Option.map_some]
  have inner := split_join (fun e he => (proper e he).plain) some_
  have notUp : join "/" rs ≠ ".." := by
    intro same
    rw [same] at inner
    exact (proper ".." (by rw [← inner]; decide)).notUp rfl
  have notBelow : hasPrefix (join "/" rs) "../" = false := by
    by_contra up
    obtain ⟨t, text⟩ := hasPrefix_iff.mp (Bool.eq_true_of_not_eq_false up)
    have chars : (join "/" rs).toList = ['.', '.'] ++ '/' :: t := by rw [← text]; rfl
    rw [split, chars, splitChars_append, List.map_append] at inner
    exact (proper ".." (by rw [← inner]; exact List.mem_append_left _ (by decide))).notUp rfl
  rw [outside, rel]
  simp [notUp, notBelow]

/-- The directory from which a path starts. -/
def baseFrom (cwd : List String) (dst : String) : List String := if hasPrefix dst "/" then [] else cwd

variable (cwd : List String)

theorem namesFrom_render {rooted : Bool} {es : List String} (normal : Normal rooted es) (ne : es ≠ []) :
    namesFrom cwd (render rooted es) = (if rooted then [] else cwd) ++ es := by
  rw [namesFrom, hasPrefix_render normal ne, names_render normal ne]
  cases rooted <;> rfl

theorem namesFrom_clean (ne : elements dst ≠ []) :
    namesFrom cwd (pathClean dst) = baseFrom cwd dst ++ elements dst := by
  rw [pathClean_render ne, namesFrom_render cwd (normal_elements dst) ne, baseFrom]

theorem namesFrom_target (ne : elements dst ≠ []) (proper : ∀ e ∈ rs, Proper e) (some_ : rs ≠ []) :
    namesFrom cwd (pathJoin dst (join "/" rs)) = baseFrom cwd dst ++ elements dst ++ rs := by
  rw [pathJoin_eq ne proper some_, namesFrom_render cwd ((normal_elements dst).append proper) (by simp [ne]),
    ← List.append_assoc, baseFrom]

theorem namesFrom_dir (ne : elements dst ≠ []) {ds : List String} {n : String} (proper : ∀ e ∈ ds ++ [n], Proper e) :
    namesFrom cwd (pathDir (pathJoin dst (join "/" (ds ++ [n])))) = baseFrom cwd dst ++ elements dst ++ ds := by
  have above : ∀ e ∈ ds, Proper e := fun e he => proper e (by simp [he])
  have normal := (normal_elements dst).append above
  rw [pathJoin_eq ne proper (by simp), ← List.append_assoc,
    pathDir_render normal (by simp [ne]) (proper n (by simp)).plain, namesFrom_render cwd normal (by simp [ne]),
      ← List.append_assoc, baseFrom]

theorem elements_ne_nil {ns : List String} {n : String} (names : Diff.names dst = ns ++ [n]) (plain : Files.Plain n) :
    elements dst ≠ [] := by
  have skip (rooted : Bool) : ∀ l out : List String, (l.filter (· ≠ "")).foldl (cleanElem rooted) out = l.foldl
    (cleanElem rooted) out := by
    intro l
    induction l with
    | nil => exact fun _ => rfl
    | cons e l ih =>
      intro out
      by_cases empty : e = ""
      · have same : cleanElem rooted out e = out := if_pos (.inl empty)
        rw [List.filter_cons_of_neg (by simpa using empty), ih, List.foldl_cons, same]
      · rw [List.filter_cons_of_pos (by simpa using empty), List.foldl_cons, List.foldl_cons, ih]
  have last (rooted : Bool) (out : List String) : cleanElem rooted out n = n :: out := by
    simp only [cleanElem, plain.nonempty, plain.notHere, plain.notUp, or_self, if_false]
  rw [elements, ← skip, ← Diff.names, names, List.foldl_append, List.foldl_cons, List.foldl_nil, last]
  simp

end

/-! ### Names in a tree -/

theorem safeTreePath_iff {name : String} : safeTreePath name = true ↔
    ∃ rs, rs ≠ [] ∧ (∀ e ∈ rs, Proper e ∧ e ≠ ".git") ∧ '\x00' ∉ name.toList ∧ name = join "/" rs := by
  rw [safeTreePath]
  constructor
  · intro h
    split_ifs at h with bad part
    simp only [not_or] at bad
    obtain ⟨nonempty, notHere, relative, noZero⟩ := bad
    have relative : hasPrefix name "/" = false := Bool.eq_false_iff.mpr relative
    have whole := join_elements (of_decide_eq_true h) relative notHere
    refine ⟨elements name, ?_, fun e he => ?_, noZero, whole.symm⟩
    · intro none
      rw [none] at whole
      exact nonempty whole.symm
    · obtain ⟨mem, ne, here⟩ := mem_elements he
      simp only [List.any_eq_true, Bool.or_eq_true, decide_eq_true_eq, not_exists, not_and, not_or] at part
      obtain ⟨⟨up, -⟩, git⟩ := part e mem
      exact ⟨⟨ne, here, up, not_mem_of_mem_split mem⟩, git⟩
  · rintro ⟨rs, ne, parts, noZero, rfl⟩
    have proper : ∀ e ∈ rs, Proper e := fun e he => (parts e he).1
    have empty := Diff.join_ne_empty proper ne
    have here := Diff.join_ne_here proper ne
    have slash := hasPrefix_join proper
    have clean : pathClean (join "/" rs) = join "/" rs := by
      rw [pathClean_eq, slash, elements_join proper, if_neg Bool.false_ne_true, if_neg ne]
    rw [if_neg (by simp [empty, here, slash, noZero]), if_neg, clean]
    · exact decide_eq_true rfl
    · rw [split_join (fun e he => (proper e he).plain) ne]
      simp only [List.any_eq_true, Bool.or_eq_true, decide_eq_true_eq, not_exists, not_and, not_or]
      exact fun e he => ⟨⟨(proper e he).notUp, (proper e he).nonempty⟩, (parts e he).2⟩

/-! ### Words -/

/-- Bytes that are seen. -/
def Graphic (w : List UInt8) : Prop := w ≠ [] ∧ ∀ b ∈ w, 33 ≤ b.toNat ∧ b.toNat ≤ 126

instance (w : List UInt8) : Decidable (Graphic w) := @instDecidableAnd _ _ _ (List.decidableBAll _ _)

theorem blank_of_graphic (low : 33 ≤ x.toNat) (high : x.toNat ≤ 126) (b : List UInt8) : blank (x :: b) = 0 := by
  have apart : ((spaceChars.map fun c => bytes (String.singleton c)).all fun r => r.head?.any fun y =>
    y.toNat < 33 || 126 < y.toNat) = true := by
    decide
  have none_ : (spaceChars.map fun c => bytes (String.singleton c)).find? (·.isPrefixOf (x :: b)) = none := by
    refine List.find?_eq_none.mpr fun r hr start => ?_
    have first := List.all_eq_true.mp apart r hr
    cases r with
    | nil => cases first
    | cons y r =>
      obtain ⟨rest, eq⟩ := List.isPrefixOf_iff_prefix.mp start
      obtain ⟨rfl, -⟩ := List.cons_eq_cons.mp eq
      simp at first
      omega
  rw [blank, none_]
  rfl

theorem words_graphic (seen : ∀ b ∈ w, 33 ≤ b.toNat ∧ b.toNat ≤ 126) (word rest : List UInt8) :
    words 0 word (w ++ rest) = words 0 (word ++ w) rest := by
  induction w generalizing word with
  | nil => rw [List.nil_append, List.append_nil]
  | cons x w ih =>
    obtain ⟨first, others⟩ := List.forall_mem_cons.mp seen
    rw [List.cons_append, words, blank_of_graphic first.1 first.2]
    dsimp only
    rw [ih others, List.append_assoc, List.singleton_append]

theorem words_blank (space : x = 32 ∨ x = 10) {word : List UInt8} (ne : word ≠ []) (rest : List UInt8) :
    words 0 word (x :: rest) = word :: words 0 [] rest := by
  have one : blank (x :: rest) = 1 := by
    rcases space with rfl | rfl <;> rfl
  rw [words, one]
  dsimp only
  rw [if_neg ne]

theorem words_end {word : List UInt8} (ne : word ≠ []) : words 0 word [] = [word] := by rw [words, if_neg ne]

theorem fields_cons (seen : Graphic w) (space : x = 32 ∨ x = 10) (rest : List UInt8) :
    fields (w ++ x :: rest) = w :: fields rest := by
  rw [fields, words_graphic seen.2, List.nil_append, words_blank space seen.1, fields]

theorem fields_single (seen : Graphic w) : fields w = [w] := by
  have := words_graphic seen.2 [] []
  rw [List.append_nil, List.nil_append] at this
  rw [fields, this, words_end seen.1]

/-! ### Listings -/

/-- A line of `git ls-tree -r -z`. -/
structure Listed where
  mode : List UInt8
  kind : List UInt8
  blob : List UInt8
  path : List UInt8
  seen : ∀ w ∈ [mode, kind, blob], Graphic w
  whole : 0 ∉ path

namespace Listed
variable (e : Listed)

def line : List UInt8 := e.mode ++ 32 :: (e.kind ++ 32 :: (e.blob ++ 9 :: e.path))

def entry : TreeEntry := { mode := e.mode, blob := e.blob, name := text e.path }

/-- A regular file with a safe path. -/
def Supported : Prop := (e.mode = bytes "100644" ∨ e.mode = bytes "100755") ∧ e.kind = bytes "blob" ∧
    safeTreePath (text e.path) = true

instance : Decidable e.Supported := inferInstanceAs (Decidable (_ ∧ _))

end Listed

/-- The output of `git ls-tree -r -z`. -/
def listing (es : List Listed) : List UInt8 := es.flatMap fun e => e.line ++ [0]

theorem cutByte_append {c : UInt8} {b : List UInt8} (none_ : c ∉ b) (rest : List UInt8) :
    cutByte c (b ++ c :: rest) = some (b, rest) := by
  have keep : ∀ x ∈ b, decide (x ≠ c) = true := fun x hx => decide_eq_true fun same => none_ (same ▸ hx)
  rw [cutByte, List.dropWhile_append_of_pos keep, List.dropWhile_cons_of_neg (by simp),
    List.takeWhile_append_of_pos keep, List.takeWhile_cons_of_neg (by simp), List.append_nil]

theorem Graphic.not_mem (seen : Graphic w) (out : x.toNat < 33) : x ∉ w := by
  intro mem
  have := (seen.2 x mem).1
  omega

theorem Listed.refused_iff {e : Listed} : (e.mode ≠ bytes "100644" ∧ e.mode ≠ bytes "100755") ∨ e.kind ≠ bytes "blob" ∨
    safeTreePath (text e.path) = false ↔ ¬e.Supported := by
  rw [Listed.Supported, ← Bool.not_eq_true]
  tauto

theorem readEntry_line (e : Listed) : readEntry e.line =
    if e.Supported then .ok e.entry else .error ("gitrev: snapshot: unsupported entry " ++ text e.path) := by
  obtain ⟨mode, kind, blob, -⟩ : Graphic e.mode ∧ Graphic e.kind ∧ Graphic e.blob ∧ True :=
    ⟨e.seen _ (by simp), e.seen _ (by simp), e.seen _ (by simp), trivial⟩
  have header : e.line = (e.mode ++ 32 :: (e.kind ++ 32 :: e.blob)) ++ 9 :: e.path := by simp [Listed.line]
  have noTab : (9 : UInt8) ∉ e.mode ++ 32 :: (e.kind ++ 32 :: e.blob) := by
    simp [mode.not_mem (x := 9) (by decide), kind.not_mem (x := 9) (by decide), blob.not_mem (x := 9) (by decide)]
  rw [readEntry, header, cutByte_append noTab]
  dsimp only
  rw [fields_cons mode (.inl rfl), fields_cons kind (.inl rfl), fields_single blob]
  dsimp only
  by_cases supported : e.Supported
  · rw [if_pos supported, if_neg (Listed.refused_iff.not.mpr (not_not_intro supported))]
    rfl
  · rw [if_neg supported, if_pos (Listed.refused_iff.mpr supported)]

theorem splitOn_listing (es : List Listed) : (listing es).splitOn 0 = es.map Listed.line ++ [[]] := by
  induction es with
  | nil => rfl
  | cons e es ih =>
    have noZero : ∀ x ∈ e.line, (x == 0) = false := by
      intro x hx
      have graphic (w : List UInt8) (mem : w ∈ [e.mode, e.kind, e.blob]) : (0 : UInt8) ∉ w :=
        (e.seen w mem).not_mem (by decide)
      have none_ : (0 : UInt8) ∉ e.line := by
        simp [Listed.line, graphic e.mode (by simp), graphic e.kind (by simp), graphic e.blob (by simp), e.whole]
      exact beq_eq_false_iff_ne.mpr fun same => none_ (same ▸ hx)
    have first : listing (e :: es) = e.line ++ 0 :: listing es := by simp [listing]
    rw [first, List.splitOn, List.splitOnP_append_cons_of_forall_mem noZero 0 rfl, ← List.splitOn, ih]
    rfl

theorem readEntries_append_nil (lines : List (List UInt8)) : readEntries (lines ++ [[]]) = readEntries lines := by
  induction lines with
  | nil => rfl
  | cons line lines ih => rw [List.cons_append, readEntries, readEntries, ih]

/-- The entries of a listing are read, if all of them are supported. -/
theorem readEntries_listing (es : List Listed) :
    (∀ e ∈ es, e.Supported) ∧ readEntries ((listing es).splitOn 0) = .ok (es.map Listed.entry) ∨
      (¬∀ e ∈ es, e.Supported) ∧ ∃ error, readEntries ((listing es).splitOn 0) = .error error := by
  rw [splitOn_listing, readEntries_append_nil]
  induction es with
  | nil => exact .inl ⟨by simp, rfl⟩
  | cons e es ih =>
    have some_ : e.line ≠ [] := by simp [Listed.line]
    rw [List.map_cons, readEntries, if_neg some_, readEntry_line]
    simp only [List.forall_mem_cons]
    by_cases supported : e.Supported
    · rw [if_pos supported]
      rcases ih with ⟨all, read⟩ | ⟨bad, error, failed⟩
      · exact .inl ⟨⟨supported, all⟩, by rw [read]; rfl⟩
      · exact .inr ⟨fun both => bad both.2, error, by rw [failed]; rfl⟩
    · rw [if_neg supported]
      exact .inr ⟨fun both => supported both.1, _, rfl⟩

/-! ### Answers -/

theorem text_itoa (n : Nat) : text (bytes (itoa n)) = .ofList (Nat.toDigits 10 n) := by
  rw [Nexec.bytes_itoa (Int.natCast_nonneg n), Int.toNat_natCast, text, Decimal.digits, List.map_map]
  congr 1
  refine (List.map_congr_left fun c hc => ?_).trans (List.map_id _)
  have digit := Decimal.digit_of_isDigit (Nat.isDigit_of_mem_toDigits (by decide) (by decide) hc)
  rw [Function.comp_apply, digit.2, Char.ofNat_toNat]
  rfl

theorem graphic_itoa (n : Nat) : Graphic (bytes (itoa n)) := by
  rw [Nexec.bytes_itoa (Int.natCast_nonneg n), Int.toNat_natCast]
  refine ⟨Decimal.digits_ne_nil n, fun b hb => ?_⟩
  have digit := Decimal.isDigit_of_mem n b hb
  simp only [Decimal.isDigit, Bool.and_eq_true, decide_eq_true_eq, UInt8.le_iff_toNat_le] at digit
  have low : 48 ≤ b.toNat := digit.1
  have high : b.toNat ≤ 57 := digit.2
  omega

section
variable {entry : TreeEntry} {total : Int}

theorem blobSize_header (seen : Graphic entry.blob) (nonneg : 0 ≤ total) (n : Nat) :
    blobSize entry total (entry.blob ++ bytes " blob " ++ bytes (itoa n) ++ [10]) =
      if (n : Int) > maxCopyBytes - total then .error ("gitrev: materialize: tree exceeds cap " ++ itoa maxCopyBytes)
      else .ok n := by
  have header : entry.blob ++ bytes " blob " ++ bytes (itoa n) ++ [10] =
      entry.blob ++ 32 :: (bytes "blob" ++ 32 :: (bytes (itoa n) ++ 10 :: [])) := by
    have word : bytes " blob " = 32 :: (bytes "blob" ++ [32]) := by decide
    simp [word]
  have blob : Graphic (bytes "blob") := by decide
  rw [blobSize, header, fields_cons seen (.inl rfl), fields_cons blob (.inl rfl),
    fields_cons (graphic_itoa n) (.inr rfl)]
  have last : fields [] = [] := rfl
  rw [last]
  dsimp only
  rw [if_neg (by simp), text_itoa, atoi_digits]
  have cap : maxCopyBytes = 83886080 := by decide
  by_cases fits : n < 2 ^ 63
  · rw [if_pos fits]
    dsimp only
    by_cases room : (n : Int) > maxCopyBytes - total
    · rw [if_pos (.inr room), if_pos room]
    · rw [if_neg (by omega), if_neg room]
  · rw [if_neg fits, if_pos]
    omega

theorem blobSize_missing (seen : Graphic entry.blob) :
    ∃ e, blobSize entry total (entry.blob ++ bytes " missing" ++ [10]) = .error e := by
  have header : entry.blob ++ bytes " missing" ++ [10] = entry.blob ++ 32 :: (bytes "missing" ++ 10 :: []) := by
    have word : bytes " missing" = 32 :: bytes "missing" := by decide
    simp [word]
  have missing : Graphic (bytes "missing") := by decide
  have last : fields [] = [] := rfl
  rw [blobSize, header, fields_cons seen (.inl rfl), fields_cons missing (.inr rfl), last]
  exact ⟨_, rfl⟩

end

end Aquila.Gitrev

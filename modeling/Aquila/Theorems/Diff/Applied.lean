import Aquila.Apply
import Aquila.Theorems.Paths

/-! What `applyOne` does to the disk: it puts a file, takes one off, or fails. -/

namespace Aquila.Diff
open Files (Loc home grow Free dirAt)

/-! ### Destinations -/

theorem plain_of_proper {n : String} (h : Proper n) : Files.Plain n := ⟨h.nonempty, h.notHere, h.notUp⟩

theorem names_render {rooted : Bool} {es : List String} (h : Normal rooted es) (ne : es ≠ []) :
    names (render rooted es) = es := by
  have kept : es.filter (· ≠ "") = es := List.filter_eq_self.mpr fun e he => by simpa using (h.part he).1
  rw [names, split_render h ne]
  cases rooted with
  | false => exact kept
  | true => rw [if_pos rfl, List.filter_cons_of_neg (by simp), kept]

theorem names_rooted {es : List String} (h : ∀ e ∈ es, Proper e) : names ("/" ++ join "/" es) = es := by
  by_cases ne : es = []
  · subst ne
    decide
  · exact @names_render true es (.of_proper h) ne

theorem names_append (above below : String) : names (above ++ "/" ++ below) = names above ++ names below := by
  rw [names, split_below, List.filter_append, names, names]

theorem names_join {es : List String} (h : ∀ e ∈ es, Proper e) : names (join "/" es) = es := by
  have rooted := names_append "" (join "/" es)
  have top : names "" = [] := by decide
  rwa [String.empty_append, names_rooted h, top, List.nil_append, eq_comm] at rooted

theorem rooted_injective {es es' : List String} (h : ∀ e ∈ es, Proper e) (h' : ∀ e ∈ es', Proper e)
    (same : "/" ++ join "/" es = "/" ++ join "/" es') : es = es' := by
  rw [← elements_rooted h, same, elements_rooted h']

theorem containedPath_eq {root : String} {rs : List String} (rooted : hasPrefix root "/" = true)
    (h : ∀ e ∈ rs, Proper e) (ne : rs ≠ []) :
    containedPath root (join "/" rs) = if elements root = [] then .error "diff: apply: path escapes root"
      else .ok ("/" ++ join "/" (elements root ++ rs)) := by
  have above := proper_of_rooted rooted
  have proper : ∀ e ∈ elements root ++ rs, Proper e := fun e he => (List.mem_append.mp he).elim (above e) (h e)
  have named : root ≠ "" := by
    rintro rfl
    exact absurd rooted (by decide)
  have still : hasPrefix (root ++ "/" ++ join "/" rs) "/" = true := by rw [hasPrefix_below named, rooted]
  have clean : pathClean (pathClean (root ++ "/" ++ join "/" rs)) = "/" ++ join "/" (elements root ++ rs) := by
    rw [pathClean_rooted still, elements_below named h ne, pathClean_rooted (hasPrefix_rooted _),
      elements_rooted proper]
  have other : "/" ++ join "/" (elements root ++ rs) ≠ "/" ++ join "/" (elements root) := by
    intro same
    have := rooted_injective proper above same
    exact ne (List.append_right_eq_self.mp this)
  rw [containedPath, if_neg (join_ne_empty h ne), clean, pathClean_rooted rooted]
  by_cases top : elements root = []
  · have apart : hasPrefix ("/" ++ join "/" rs) ("/" ++ join "/" [] ++ "/") = false := by
      by_contra both
      obtain ⟨t, ht⟩ := hasPrefix_iff.mp (Bool.eq_true_of_not_eq_false both)
      have slash : hasPrefix (join "/" rs) "/" = true := hasPrefix_iff.mpr ⟨t, by simpa [join] using ht⟩
      rw [hasPrefix_join h] at slash
      cases slash
    rw [top, List.nil_append] at other ⊢
    rw [if_pos ⟨other, apart⟩, if_pos rfl]
  · have below : hasPrefix ("/" ++ join "/" (elements root ++ rs)) ("/" ++ join "/" (elements root) ++ "/") = true := by
      rw [hasPrefix_iff, join_append top ne]
      exact ⟨(join "/" rs).toList, by simp⟩
    rw [if_neg (by simp [below]), if_neg top]

theorem until_slash {n : String} (plain : '/' ∉ n.toList) (before : List Char) :
    ((before ++ '/' :: n.toList).reverse.dropWhile (· ≠ '/')).reverse = before ++ ['/'] := by
  rw [List.reverse_append, List.reverse_cons, List.append_assoc, List.singleton_append,
    List.dropWhile_append_of_pos fun c hc => by simpa using fun same : c = '/' => plain (same ▸ List.mem_reverse.mp hc),
    List.dropWhile_cons_of_neg (by simp), List.reverse_cons, List.reverse_reverse]

theorem pathDir_render {rooted : Bool} {es : List String} {n : String} (h : Normal rooted es) (ne : es ≠ [])
    (plain : '/' ∉ n.toList) :
    pathDir (render rooted (es ++ [n])) = render rooted es := by
  have text : (render rooted (es ++ [n])).toList = (render rooted es).toList ++ '/' :: n.toList := by
    unfold render
    split_ifs <;> simp [join_append ne, join]
  have last : String.ofList ((render rooted es).toList ++ ['/']) = render rooted es ++ "/" ++ "" := by
    rw [← String.toList_inj]
    simp
  have nonempty : render rooted es ≠ "" := by
    intro none
    have parts := names_render h ne
    rw [none] at parts
    exact ne (parts ▸ by decide)
  have still : hasPrefix (render rooted es ++ "/" ++ "") "/" =
    rooted := by rw [hasPrefix_below nonempty, hasPrefix_render h ne]
  have same : elements (render rooted es ++ "/" ++ "") = es := by
    have inner := elements_render h ne
    rw [elements, hasPrefix_render h ne] at inner
    rw [elements, still, split_below, List.foldl_append]
    exact inner
  rw [pathDir, text, until_slash plain, last, pathClean_render (by rwa [same]), still, same]

theorem pathDir_eq {ds : List String} {n : String} (h : ∀ e ∈ ds, Proper e) (plain : '/' ∉ n.toList) :
    pathDir ("/" ++ join "/" (ds ++ [n])) = "/" ++ join "/" ds := by
  by_cases top : ds = []
  · subst top
    have text : ("/" ++ join "/" ([] ++ [n])).toList = [] ++ '/' :: n.toList := by simp [join]
    rw [pathDir, text, until_slash plain]
    decide
  · exact @pathDir_render true ds n (.of_proper h) top plain

/-- The path of a directory, as `filepath.Abs` gives it. -/
def Absolute (root : String) : Prop := ∃ es, (∀ e ∈ es, Proper e) ∧ root = "/" ++ join "/" es

theorem Absolute.rooted {root : String} (h : Absolute root) : hasPrefix root "/" = true := by
  obtain ⟨es, -, rfl⟩ := h
  exact hasPrefix_rooted _

theorem absolute_absPath {cwd : String} (rooted : hasPrefix cwd "/" = true) (root : String) :
    Absolute (absPath cwd root) := by
  have clean {s : String} (h : hasPrefix s "/" = true) : Absolute (pathClean s) :=
    ⟨elements s, proper_of_rooted h, pathClean_rooted h⟩
  unfold absPath
  split_ifs with absolute
  · exact clean absolute
  · refine clean ?_
    rw [hasPrefix_iff] at rooted ⊢
    rw [String.append_assoc, String.toList_append]
    exact rooted.trans (List.prefix_append _ _)

/-- A file of a diff is to be at a name in a directory. -/
structure Destination (root path : String) (ds : List String) (n : String) : Prop where
  contained : containedPath root path = .ok ("/" ++ join "/" (ds ++ [n]))
  dirs : ∀ e ∈ ds, Proper e
  name : Proper n

namespace Destination
variable {root path : String} {ds : List String} {n : String}

theorem proper (h : Destination root path ds n) : ∀ e ∈ ds ++ [n], Proper e := by
  intro e he
  rcases List.mem_append.mp he with he | he
  · exact h.dirs e he
  · exact List.mem_singleton.mp he ▸ h.name

theorem unique {ds' : List String} {n' : String} (h : Destination root path ds n) (h' : Destination root path ds' n') :
    ds = ds' ∧ n = n' := by
  have same := rooted_injective h.proper h'.proper (Except.ok.inj (h.contained.symm.trans h'.contained))
  exact ⟨List.append_inj_left' same rfl, List.singleton_inj.mp (List.append_inj_right' same rfl)⟩

theorem plain (h : Destination root path ds n) : Files.Plain n := plain_of_proper h.name

theorem names_eq (h : Destination root path ds n) : names ("/" ++ join "/" (ds ++ [n])) = ds ++ [n] :=
  names_rooted h.proper

theorem names_dir (h : Destination root path ds n) : names (pathDir ("/" ++ join "/" (ds ++ [n]))) = ds := by
  rw [pathDir_eq h.dirs h.name.plain, names_rooted h.dirs]

end Destination

/-- A path as `CanonicalPath` gives it. -/
def Canonical (path : String) : Prop := ∃ rs, rs ≠ [] ∧ (∀ e ∈ rs, Proper e) ∧ path = join "/" rs

theorem canonical_of_canonicalPath {raw path : String} (h : canonicalPath raw = some path) : Canonical path := by
  rw [canonicalPath_eq] at h
  split_ifs at h with refused
  obtain ⟨ne, inside⟩ := not_or.mp refused
  have proper := proper_of_elements (Bool.eq_false_iff.mpr inside)
  exact ⟨_, dropDirs_ne_nil ne, fun e he => proper e (dropDirs_subset e he), (Option.some.inj h).symm⟩

theorem exists_destination {root path : String} (rooted : hasPrefix root "/" = true) (h : Canonical path) :
    (elements root = [] ∧ ∃ e, containedPath root path = .error e) ∨ ∃ ds n, Destination root path ds n := by
  obtain ⟨rs, ne, proper, rfl⟩ := h
  have contained := containedPath_eq rooted proper ne
  by_cases top : elements root = []
  · exact .inl ⟨top, _, by rw [contained, if_pos top]⟩
  · obtain ⟨rs, n, rfl⟩ := (List.eq_nil_or_concat rs).resolve_left ne
    rw [List.concat_eq_append] at contained proper ⊢
    rw [if_neg top, ← List.append_assoc] at contained
    refine .inr ⟨elements root ++ rs, n, contained, fun e he => ?_, proper n (by simp)⟩
    rcases List.mem_append.mp he with he | he
    · exact proper_of_rooted rooted e he
    · exact proper e (by simp [he])

theorem exists_place {root path : String} (absolute : Absolute root) (canonical : Canonical path) :
    (root = "/" ∧ ∃ e, containedPath root path = .error e) ∨
      root ≠ "/" ∧ ∃ ds n, Destination root path ds n ∧ names root ++ names path = ds ++ [n] := by
  have rooted := absolute.rooted
  obtain ⟨es, above, rfl⟩ := absolute
  rcases exists_destination rooted canonical with ⟨top, refused⟩ | ⟨ds, n, dest⟩
  · rw [elements_rooted above] at top
    subst top
    exact .inl ⟨by decide, refused⟩
  · obtain ⟨rs, ne, proper, rfl⟩ := canonical
    have contained := containedPath_eq rooted proper ne
    rw [elements_rooted above, dest.contained] at contained
    split_ifs at contained with top
    have whole : ∀ e ∈ es ++ rs, Proper e := fun e he => (List.mem_append.mp he).elim (above e) (proper e)
    refine .inr ⟨fun same => ?_, ds, n, dest, ?_⟩
    · have none := elements_rooted above
      rw [same] at none
      exact top (none.symm.trans (by decide))
    · rw [names_rooted above, names_join proper, rooted_injective dest.proper whole (Except.ok.inj contained)]

/-! ### Refused paths -/

/-- What the system takes of a path, the last name first. -/
def taken (slash : Bool) : (rev : List String) → List String
  | [] => []
  | n :: up => if Os.Takes (n :: up).reverse slash then n :: up else taken true up

section
variable {d : Disk} {slash : Bool} {rev ds : List String} {n : String}

theorem taken_eq (h : Os.Takes rev.reverse slash) : taken slash rev = rev := by
  cases rev with
  | nil => rfl
  | cons n up => rw [taken, if_pos h]

theorem taken_suffix (slash : Bool) (rev : List String) : taken slash rev <:+ rev := by
  induction rev generalizing slash with
  | nil => exact List.suffix_rfl
  | cons n up ih =>
    rw [taken]
    split_ifs
    · exact List.suffix_rfl
    · exact (ih true).trans (List.suffix_cons n up)

theorem takes_dir (h : Os.Takes (ds ++ [n])) : Os.Takes ds := by
  refine ⟨fun e he => h.1 e (List.mem_append_left _ he), Nat.lt_of_le_of_lt ?_ h.2⟩
  by_cases top : ds = []
  · subst top
    simp [Os.pathOf, join, byteLen]
  · simp [Os.pathOf, join_append top (List.cons_ne_nil n []), byteLen]
    omega

theorem makeDirs_eq (h : Os.Takes rev.reverse slash) : Os.makeDirs d slash rev = Files.mkdirAll d slash rev := by
  cases rev with
  | nil => rfl
  | cons n up => rw [Os.makeDirs, if_pos h]

theorem makeDirs_refused (refused : ¬Os.Takes rev.reverse slash) :
    ∃ e, Os.makeDirs d slash rev = (.error e, (Files.mkdirAll d true (taken slash rev)).2) := by
  induction rev generalizing slash with
  | nil => exact absurd (by cases slash <;> decide) refused
  | cons n up ih =>
    rw [Os.makeDirs, if_neg refused, taken, if_neg refused]
    by_cases above : Os.Takes up.reverse true
    · rw [makeDirs_eq above, taken_eq above]
      rcases Files.mkdirAll d true up with ⟨_ | _, d'⟩
      · exact ⟨_, rfl⟩
      · exact ⟨_, rfl⟩
    · obtain ⟨e, done⟩ := ih above
      rw [done]
      exact ⟨e, rfl⟩

end

/-! ### One file -/

/-- The text of a file at a location is patched. -/
structure Rewrites (t : Files.Tree (List UInt8)) (loc : Loc) (hunks : List ApplyHunk) (raw : List UInt8)
    (out : String) : Prop where
  entry : t.get loc = some (.file raw)
  short : raw.length ≤ maxApplyFile
  patched : ∃ cs, decodeText raw = some cs ∧ applyToLines (splitLines (.ofList cs)) hunks = .ok out

theorem Rewrites.unique {t : Files.Tree (List UInt8)} {loc : Loc} {hunks : List ApplyHunk} {raw raw' : List UInt8}
    {out out' : String}
    (h : Rewrites t loc hunks raw out) (h' : Rewrites t loc hunks raw' out') : raw = raw' ∧ out = out' := by
  obtain ⟨cs, decoded, patched⟩ := h.patched
  obtain ⟨cs', decoded', patched'⟩ := h'.patched
  cases h.entry.symm.trans h'.entry
  cases decoded.symm.trans decoded'
  exact ⟨rfl, Except.ok.inj (patched.symm.trans patched')⟩

/-- What applying a file of a diff does to a disk. -/
inductive Applied (root : String) (f : ApplyFile) (d : Disk) : Disk → Prop
  | add {ds : List String} {n out : String} : f.binary = false → f.status = .add → Destination root f.path ds n →
      Os.Takes (ds ++ [n]) → applyToLines [] f.hunks = .ok out →
      Free d.tree (home d.tree ds.reverse).1 ((home d.tree ds.reverse).2 ++ [n]) →
      Applied root f d ((grow d (home d.tree ds.reverse).1 (home d.tree ds.reverse).2).put
        ((home d.tree ds.reverse).1 ++ (home d.tree ds.reverse).2 ++ [n]) (.file (bytes out)))
  | delete {ds : List String} {n : String} : f.binary = false → f.status = .delete → Destination root f.path ds n →
      Os.Takes (ds ++ [n]) → (home d.tree ds.reverse).2 = [] → d.tree.get ((home d.tree ds.reverse).1 ++ [n]) ≠ none →
      d.tree.childless ((home d.tree ds.reverse).1 ++ [n]) = true →
      Applied root f d (d.erase ((home d.tree ds.reverse).1 ++ [n]))
  | modify {ds : List String} {n out : String} {raw : List UInt8} {cs : List Char} : f.binary = false →
    f.status ≠ .add →
      f.status ≠ .delete → Destination root f.path ds n → Os.Takes (ds ++ [n]) → (home d.tree ds.reverse).2 = [] →
      d.tree.get ((home d.tree ds.reverse).1 ++ [n]) = some (.file raw) → raw.length ≤ maxApplyFile →
      decodeText raw = some cs → applyToLines (splitLines (.ofList cs)) f.hunks = .ok out →
      Applied root f d (d.put ((home d.tree ds.reverse).1 ++ [n]) (.file (bytes out)))

/-- A file is to be added whose path is refused, and what the system takes of the path, `way`, can be made. -/
structure Strays (root : String) (f : ApplyFile) (t : Files.Tree (List UInt8)) (way : List String) : Prop where
  plain : f.binary = false
  status : f.status = .add
  patched : ∃ out, applyToLines [] f.hunks = .ok out
  path : ∃ ds n, Destination root f.path ds n ∧ ¬Os.Takes (ds ++ [n]) ∧ way = taken false ds.reverse
  free : Free t (home t way).1 (home t way).2

/-- What a file that is not applied leaves of a disk. -/
inductive Left (root : String) (f : ApplyFile) (d : Disk) : Disk → Prop
  | stray {way : List String} : Strays root f d.tree way →
    Left root f d (grow d (home d.tree way).1 (home d.tree way).2)
  | kept : (∀ d', ¬Applied root f d d') → (∀ way, ¬Strays root f d.tree way) → Left root f d d

section
variable {root : String} {f : ApplyFile} {d d' d'' : Disk} {ds : List String} {n : String}

theorem Applied.unique (h : Applied root f d d') (h' : Applied root f d d'') : d' = d'' := by
  cases h with
  | add _ status dest _ patched =>
    cases h' with
    | add _ _ dest' _ patched' =>
      obtain ⟨rfl, rfl⟩ := dest.unique dest'
      rw [Except.ok.inj (patched.symm.trans patched')]
    | delete _ other => exact absurd (status.symm.trans other) (by decide)
    | modify _ other => exact absurd status other
  | delete _ status dest =>
    cases h' with
    | add _ other => exact absurd (status.symm.trans other) (by decide)
    | delete _ _ dest' =>
      obtain ⟨rfl, rfl⟩ := dest.unique dest'
      rfl
    | modify _ _ other => exact absurd status other
  | modify _ add delete dest _ _ entry _ decoded patched =>
    cases h' with
    | add _ other => exact absurd other add
    | delete _ other => exact absurd other delete
    | modify _ _ _ dest' _ _ entry' _ decoded' patched' =>
      obtain ⟨rfl, rfl⟩ := dest.unique dest'
      cases entry.symm.trans entry'
      cases decoded.symm.trans decoded'
      rw [Except.ok.inj (patched.symm.trans patched')]

theorem Applied.dest (h : Applied root f d d') : f.binary = false ∧ ∃ ds n, Destination root f.path ds n ∧
    Os.Takes (ds ++ [n]) := by
  cases h with
  | add plain _ dest takes => exact ⟨plain, _, _, dest, takes⟩
  | delete plain _ dest takes => exact ⟨plain, _, _, dest, takes⟩
  | modify plain _ _ dest takes => exact ⟨plain, _, _, dest, takes⟩

theorem Strays.unique {way way' : List String} (h : Strays root f d.tree way) (h' : Strays root f d.tree way') :
    way = way' := by
  obtain ⟨ds, n, dest, -, rfl⟩ := h.path
  obtain ⟨ds', n', dest', -, rfl⟩ := h'.path
  rw [(dest.unique dest').1]

theorem Left.refused (h : Left root f d d') (d'' : Disk) : ¬Applied root f d d'' := by
  cases h with
  | kept no => exact no d''
  | stray strays =>
    intro applied
    obtain ⟨ds, n, dest, refused, -⟩ := strays.path
    obtain ⟨-, ds', n', dest', takes⟩ := applied.dest
    obtain ⟨rfl, rfl⟩ := dest.unique dest'
    exact refused takes

theorem Left.unique (h : Left root f d d') (h' : Left root f d d'') : d' = d'' := by
  cases h with
  | stray strays =>
    cases h' with
    | stray strays' => rw [strays.unique strays']
    | kept _ no => exact absurd strays (no _)
  | kept _ no =>
    cases h' with
    | stray strays => exact absurd strays (no _)
    | kept => rfl

/-- Either a file is applied, or it is refused. -/
def Settles (root : String) (f : ApplyFile) (d : Disk) (result : Except String Unit × Disk) : Prop :=
  (∃ d', Applied root f d d' ∧ result = (.ok (), d')) ∨ ∃ d' e, Left root f d d' ∧ result = (.error e, d')

theorem Settles.kept {e : String} (no : ∀ d', ¬Applied root f d d') (none : ∀ way, ¬Strays root f d.tree way) :
    Settles root f d (.error e, d) :=
  .inr ⟨d, e, .kept no none, rfl⟩

theorem lstat_refused (t : Files.Tree (List UInt8)) (dest : Destination root f.path ds n)
    (refused : ¬Os.Takes (ds ++ [n])) :
    ∃ e, Os.lstat t ("/" ++ join "/" (ds ++ [n])) = .error e := by
  rw [Os.lstat, Os.call, dest.names_eq, if_neg refused]
  exact ⟨_, rfl⟩

theorem change_refused (dest : Destination root f.path ds n) (refused : ¬Os.Takes (ds ++ [n])) (op : String) (d : Disk)
    (g : Disk → List String → Except Files.Errno Unit × Disk) :
    ∃ e, Os.change op d ("/" ++ join "/" (ds ++ [n])) g = (.error e, d) := by
  rw [Os.change, dest.names_eq, if_neg refused]
  exact ⟨_, rfl⟩

theorem writeFile_eq (dest : Destination root f.path ds n) (takes : Os.Takes (ds ++ [n])) {loc : Loc}
    (parent : dirAt d.tree ds = some loc)
    (target : d.tree.get (loc ++ [n]) = none ∨ ∃ old, d.tree.get (loc ++ [n]) = some (.file old)) (data : List UInt8) :
    Os.writeFile d ("/" ++ join "/" (ds ++ [n])) data = (.ok (), d.put (loc ++ [n]) (.file data)) := by
  rw [Os.writeFile, Os.change, dest.names_eq, if_pos takes, Files.write_concat dest.plain parent target]

theorem settles_stray (plain : f.binary = false) (status : f.status = .add) (dest : Destination root f.path ds n)
    (refused : ¬Os.Takes (ds ++ [n])) {out : String} (patched : applyToLines [] f.hunks = .ok out) (slash : Bool)
    (e : String) :
    Settles root f d (.error e, (Files.mkdirAll d slash (taken false ds.reverse)).2) := by
  have dirs : ∀ m ∈ taken false ds.reverse, Files.Plain m := fun m hm =>
    plain_of_proper (dest.dirs m (List.mem_reverse.mp ((taken_suffix _ _).subset hm)))
  obtain ⟨made, failed⟩ := Files.mkdirAll_spec d dirs slash
  by_cases free : Free d.tree (home d.tree (taken false ds.reverse)).1 (home d.tree (taken false ds.reverse)).2
  · rw [(made free).1]
    exact .inr ⟨_, e, .stray ⟨plain, status, ⟨out, patched⟩, ⟨ds, n, dest, refused, rfl⟩, free⟩, rfl⟩
  · obtain ⟨e', failed⟩ := failed free
    rw [failed]
    refine .kept (fun d' applied => ?_) fun way strays => ?_
    · obtain ⟨-, ds', n', dest', takes⟩ := applied.dest
      obtain ⟨rfl, rfl⟩ := dest.unique dest'
      exact refused takes
    · obtain ⟨ds', n', dest', -, rfl⟩ := strays.path
      obtain ⟨rfl, rfl⟩ := dest.unique dest'
      exact free strays.free

theorem settles_add_refused (plain : f.binary = false) (status : f.status = .add) (dest : Destination root f.path ds n)
    (refused : ¬Os.Takes (ds ++ [n])) : Settles root f d (applyAdd ("/" ++ join "/" (ds ++ [n])) f d) := by
  obtain ⟨e, missing⟩ := lstat_refused d.tree dest refused
  simp only [applyAdd, missing]
  cases patched : applyToLines [] f.hunks with
  | error e' =>
    refine .kept (fun d' applied => ?_) fun way strays => ?_
    · obtain ⟨-, ds', n', dest', takes⟩ := applied.dest
      obtain ⟨rfl, rfl⟩ := dest.unique dest'
      exact refused takes
    · obtain ⟨out, patched'⟩ := strays.patched
      rw [patched] at patched'
      cases patched'
  | ok out =>
    have settled := settles_stray (d := d) plain status dest refused patched
    simp only [Os.mkdirAll, dest.names_dir]
    by_cases takes : Os.Takes ds.reverse.reverse
    · rw [makeDirs_eq takes]
      rw [taken_eq takes] at settled
      have settled := settled false
      generalize Files.mkdirAll d false ds.reverse = result at settled ⊢
      obtain ⟨_ | _, d'⟩ := result
      · exact settled _
      · obtain ⟨e', unwritten⟩ := change_refused dest refused "open" d' fun d ns => Files.write d ns (bytes out)
        simp only [Os.writeFile, unwritten]
        exact settled _
    · obtain ⟨e', done⟩ := makeDirs_refused (d := d) takes
      simp only [done]
      exact settled true _

theorem settles_add (plain : f.binary = false) (status : f.status = .add) (dest : Destination root f.path ds n) :
    Settles root f d (applyAdd ("/" ++ join "/" (ds ++ [n])) f d) := by
  by_cases takes : Os.Takes (ds ++ [n])
  swap
  · exact settles_add_refused plain status dest takes
  have stays (way : List String) : ¬Strays root f d.tree way := by
    intro strays
    obtain ⟨ds', n', dest', refused, -⟩ := strays.path
    obtain ⟨rfl, rfl⟩ := dest.unique dest'
    exact refused takes
  have refused (no : ∀ out, applyToLines [] f.hunks = .ok out →
      ¬Free d.tree (home d.tree ds.reverse).1 ((home d.tree ds.reverse).2 ++ [n]))
        (d' : Disk) : ¬Applied root f d d' := by
    intro applied
    cases applied with
    | add _ _ dest' _ patched free =>
      obtain ⟨rfl, rfl⟩ := dest.unique dest'
      exact no _ patched free
    | delete _ other => exact absurd (status.symm.trans other) (by decide)
    | modify _ other => exact other status
  unfold applyAdd
  rw [Os.lstat, Os.call, dest.names_eq, if_pos takes]
  cases found : Files.lstat d.tree (ds ++ [n]) with
  | ok e =>
    obtain ⟨whole, entry⟩ := (Files.lstat_concat dest.plain).mp found
    refine .kept (refused fun _ _ free => ?_) stays
    have := free n (by rw [whole]; rfl)
    rw [entry] at this
    cases this
  | error e =>
    cases patched : applyToLines [] f.hunks with
    | error e' => exact .kept (refused (by simp [patched])) stays
    | ok out =>
      have dirs : ∀ m ∈ ds.reverse, Files.Plain m := fun m hm => plain_of_proper (dest.dirs m (List.mem_reverse.mp hm))
      obtain ⟨made, failed⟩ := Files.mkdirAll_spec d dirs false
      have above : Os.Takes ds.reverse.reverse := by
        rw [List.reverse_reverse]
        exact takes_dir takes
      simp only [Except.mapError, Os.mkdirAll, dest.names_dir, makeDirs_eq above]
      by_cases free : Free d.tree (home d.tree ds.reverse).1 ((home d.tree ds.reverse).2 ++ [n])
      · obtain ⟨done, way⟩ := made fun m hm => free m (by simp [hm])
        rw [List.reverse_reverse] at way
        have vacant := Files.vacant_of_free (Files.get_home _) free
        refine .inl ⟨_, .add plain status dest takes patched free, ?_⟩
        simp only [done, writeFile_eq dest takes way (.inl vacant)]
      · refine .inr ⟨d, ?_⟩
        have taken : ¬Free d.tree (home d.tree ds.reverse).1 (home d.tree ds.reverse).2 := by
          intro above
          refine free fun m hm => ?_
          by_cases whole : (home d.tree ds.reverse).2 = []
          · rw [whole] at hm
            cases hm
            by_contra entry
            obtain ⟨x, hx⟩ := Option.ne_none_iff_exists'.mp entry
            rw [(Files.lstat_concat dest.plain).mpr ⟨whole, hx⟩] at found
            cases found
          · exact above m (by rwa [List.head?_append_of_ne_nil _ whole] at hm)
        obtain ⟨e, failed⟩ := failed taken
        simp only [failed]
        exact ⟨_, .kept (refused fun _ _ => free) stays, rfl⟩

theorem not_strays (root : String) (add : f.status ≠ .add) (t : Files.Tree (List UInt8)) (way : List String) :
    ¬Strays root f t way :=
  fun strays => add strays.status

theorem settles_delete (plain : f.binary = false) (status : f.status = .delete) (dest : Destination root f.path ds n) :
    Settles root f d (applyDelete ("/" ++ join "/" (ds ++ [n])) d) := by
  have stays := not_strays (f := f) root (by simp [status]) d.tree
  have refused (no : ¬(Os.Takes (ds ++ [n]) ∧ (home d.tree ds.reverse).2 = [] ∧
    d.tree.get ((home d.tree ds.reverse).1 ++ [n]) ≠ none ∧
      d.tree.childless ((home d.tree ds.reverse).1 ++ [n]) = true)) (d' : Disk) : ¬Applied root f d d' := by
    intro applied
    cases applied with
    | add _ other => exact absurd (status.symm.trans other) (by decide)
    | delete _ _ dest' takes whole entry leaf =>
      obtain ⟨rfl, rfl⟩ := dest.unique dest'
      exact no ⟨takes, whole, entry, leaf⟩
    | modify _ _ other => exact other status
  unfold applyDelete
  by_cases takes : Os.Takes (ds ++ [n])
  swap
  · obtain ⟨e, unchanged⟩ := change_refused dest takes "remove" d Files.remove
    simp only [Os.remove, unchanged]
    exact .kept (refused fun h => takes h.1) stays
  rw [Os.remove, Os.change, dest.names_eq, if_pos takes]
  rcases Files.remove_concat d dest.plain with ⟨whole, entry, leaf, done⟩ | ⟨no, e, failed⟩
  · refine .inl ⟨_, .delete plain status dest takes whole entry leaf, ?_⟩
    rw [done]
  · rw [failed]
    exact .kept (refused fun h => no h.2) stays

theorem settles_modify (plain : f.binary = false) (add : f.status ≠ .add) (delete : f.status ≠ .delete)
    (dest : Destination root f.path ds n) : Settles root f d (applyModify ("/" ++ join "/" (ds ++ [n])) f d) := by
  have stays := not_strays root add d.tree
  have refused (no : ∀ raw cs out, Os.Takes (ds ++ [n]) → (home d.tree ds.reverse).2 = [] →
      d.tree.get ((home d.tree ds.reverse).1 ++ [n]) = some (.file raw) → raw.length ≤ maxApplyFile →
        decodeText raw = some cs →
      applyToLines (splitLines (.ofList cs)) f.hunks ≠ .ok out) (d' : Disk) : ¬Applied root f d d' := by
    intro applied
    cases applied with
    | add _ other => exact add other
    | delete _ other => exact delete other
    | modify _ _ _ dest' takes whole entry short decoded patched =>
      obtain ⟨rfl, rfl⟩ := dest.unique dest'
      exact no _ _ _ takes whole entry short decoded patched
  unfold applyModify
  by_cases takes : Os.Takes (ds ++ [n])
  swap
  · obtain ⟨e, missing⟩ := lstat_refused d.tree dest takes
    simp only [missing]
    exact .kept (refused fun _ _ _ h => absurd h takes) stays
  have none {e : Except Files.Errno (Files.Entry (List UInt8))} (found : Files.lstat d.tree (ds ++ [n]) = e)
    (other : ∀ raw, e ≠ .ok (.file raw))
      (d' : Disk) : ¬Applied root f d d' :=
    refused (fun raw _ _ _ whole entry _ _ =>
      absurd (found.symm.trans ((Files.lstat_concat dest.plain).mpr ⟨whole, entry⟩)) (other raw)) d'
  rw [Os.lstat, Os.call, dest.names_eq, if_pos takes]
  cases found : Files.lstat d.tree (ds ++ [n]) with
  | error e => exact .kept (none found (by simp)) stays
  | ok e =>
    cases e with
    | link rooted target => exact .kept (none found (by simp)) stays
    | dir =>
      have small : ¬size (.dir : Files.Entry (List UInt8)) > maxApplyFile := by decide
      have unread : Os.readFile d.tree ("/" ++ join "/" (ds ++ [n])) = .error
        (pathError "read" ("/" ++ join "/" (ds ++ [n])) .isDir) := by
        rw [Os.readFile, Os.call, dest.names_eq, if_pos takes, Files.stat_of_lstat found (by simp)]
      simp only [Except.mapError, small, if_false, unread]
      exact .kept (none found (by simp)) stays
    | file raw =>
      obtain ⟨whole, entry⟩ := (Files.lstat_concat dest.plain).mp found
      have read : Os.readFile d.tree ("/" ++ join "/" (ds ++ [n])) = .ok raw := by
        rw [Os.readFile, Os.call, dest.names_eq, if_pos takes, Files.stat_of_lstat found (by simp)]
      simp only [Except.mapError, size, read]
      have here {raw' : List UInt8} (entry' : d.tree.get ((home d.tree ds.reverse).1 ++ [n]) = some (.file raw')) :
        raw' = raw := by
        rw [entry] at entry'
        cases entry'
        rfl
      by_cases long : raw.length > maxApplyFile
      · rw [if_pos long]
        refine .kept (refused fun raw' cs out _ _ entry' short _ => ?_) stays
        rw [here entry'] at short
        omega
      · rw [if_neg long]
        cases decoded : decodeText raw with
        | none =>
          refine .kept (refused fun raw' cs out _ _ entry' _ decoded' => ?_) stays
          rw [here entry', decoded] at decoded'
          cases decoded'
        | some cs =>
          dsimp only
          cases patched : applyToLines (splitLines (.ofList cs)) f.hunks with
          | error e =>
            refine .kept (refused fun raw' cs' out _ _ entry' _ decoded' => ?_) stays
            rw [here entry', decoded] at decoded'
            cases decoded'
            simp [patched]
          | ok out =>
            have parent := Files.dirAt_home whole
            rw [List.reverse_reverse] at parent
            refine .inl ⟨_, .modify plain add delete dest takes whole entry (by omega) decoded patched, ?_⟩
            simp only [writeFile_eq dest takes parent (.inr ⟨raw, entry⟩)]

theorem settles_applyOne (rooted : hasPrefix root "/" = true) (path : Canonical f.path) :
    Settles root f d (applyOne root f d) := by
  have refused (no : f.binary = true ∨ ∃ e, containedPath root f.path = .error e) {e : String} :
    Settles root f d (.error e, d) := by
    have both {ds : List String} {n : String} (plain : f.binary = false)
      (dest : Destination root f.path ds n) : False := by
      rcases no with binary | ⟨e, escapes⟩
      · rw [plain] at binary
        cases binary
      · rw [dest.contained] at escapes
        cases escapes
    refine .kept (fun d' applied => ?_) fun way strays => ?_
    · obtain ⟨plain, ds, n, dest, -⟩ := applied.dest
      exact both plain dest
    · obtain ⟨ds, n, dest, -⟩ := strays.path
      exact both strays.plain dest
  unfold applyOne
  by_cases binary : f.binary = true
  · rw [if_pos binary]
    exact refused (.inl binary)
  · rw [if_neg binary]
    have plain : f.binary = false := Bool.eq_false_iff.mpr binary
    rcases exists_destination rooted path with ⟨-, e, escapes⟩ | ⟨ds, n, dest⟩
    · rw [escapes]
      exact refused (.inr ⟨e, escapes⟩)
    · rw [dest.contained]
      dsimp only
      cases status : f.status with
      | add => exact settles_add plain status dest
      | delete => exact settles_delete plain status dest
      | modify => exact settles_modify plain (by simp [status]) (by simp [status]) dest
      | rename => exact settles_modify plain (by simp [status]) (by simp [status]) dest

theorem applyOne_ok_iff (rooted : hasPrefix root "/" = true) (path : Canonical f.path) :
    applyOne root f d = (.ok (), d') ↔ Applied root f d d' := by
  rcases settles_applyOne rooted path with ⟨d₁, applied, result⟩ | ⟨d₁, e, left, result⟩
  · rw [result]
    constructor
    · intro same
      cases same
      exact applied
    · intro applied'
      rw [applied.unique applied']
  · rw [result]
    exact iff_of_false (by simp) (left.refused d')

end

namespace Sample

def app (text : List Char) : Files.Tree (List UInt8) :=
  (Files.Tree.empty.put ["app"] .dir).put ["app", "a.go"] (.file (Utf8.encode text))

end Sample
end Aquila.Diff

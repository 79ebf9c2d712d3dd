import Aquila.Theorems.Gitrev.Materialized

/-! Whether `Materialize` is exact or leaves nothing: just if the cleaned destination leads to the directory that
    was made, or cannot be a directory at all. -/

namespace Aquila.Gitrev
open Cas (text)
open Files (Loc Kept Filled Plain dirAt home Free resolve lstat)
open Effects (Ends bind_of_ok)
variable {t : Files.Tree File} {d : Files.Disk File}

/-! ### The destination -/

/-- A disk and a working directory in it. -/
structure Place where
  cwd : Loc
  disk : Files.Disk File
  dir : disk.tree.get cwd = some .dir
  plain : ∀ n ∈ cwd, Plain n

namespace Place
variable (p : Place)

def names (path : String) : List String := namesFrom p.cwd path

/-- The destination can be made at `loc`, in the directory at `up`. -/
structure New (dst : String) (ns : List String) (n : String) (up : Loc) : Prop where
  path : p.names dst = ns ++ [n]
  name : Plain n
  parent : dirAt p.disk.tree ns = some up
  missing : p.disk.tree.get (up ++ [n]) = none
  down : elements dst ≠ []

variable {p} {dst : String} {ns : List String} {n : String} {up : Loc}

theorem exists_new {loc : Loc} (way : resolve p.disk.tree false (p.names dst) = .ok loc)
    (missing : p.disk.tree.get loc = none) :
    ∃ ns n up, loc = up ++ [n] ∧ p.New dst ns n up := by
  -- The path has names of its own, since the working directory is there.
  have own : Diff.names dst ≠ [] := by
    intro none_
    have start : p.names dst = if hasPrefix dst "/" then [] else p.cwd := by
      rw [names, namesFrom, none_, List.append_nil]
    have there : p.disk.tree.get (p.names dst) = some .dir ∧ ∀ m ∈ p.names dst, Plain m := by
      rw [start]
      split_ifs
      · exact ⟨rfl, List.forall_mem_nil _⟩
      · exact ⟨p.dir, p.plain⟩
    rw [Files.resolve_loc there.2 there.1] at way
    obtain rfl := Except.ok.inj way
    rw [there.1] at missing
    cases missing
  obtain ⟨ms, n, last⟩ := (List.eq_nil_or_concat (Diff.names dst)).resolve_left own
  rw [List.concat_eq_append] at last
  have path : p.names dst = (baseFrom p.cwd dst ++ ms) ++ [n] := by
    rw [names, namesFrom, last, baseFrom]
    split_ifs <;> simp
  rw [path] at way
  have name : Plain n := by
    by_contra stays
    rw [Files.get_of_not_plain stays way] at missing
    cases missing
  rw [Files.resolve_concat name] at way
  cases parent : resolve p.disk.tree true (baseFrom p.cwd dst ++ ms) with
  | error e => simp [parent, Files.enter] at way
  | ok up =>
    have noLink := (Files.resolve_spec parent).2 rfl
    cases found : p.disk.tree.get up with
    | none => simp [parent, Files.enter, found] at way
    | some e =>
      cases e with
      | file data => simp [parent, Files.enter, found] at way
      | link rooted target => exact absurd found (noLink rooted target)
      | dir =>
        simp only [parent, Files.enter, found, Except.ok.injEq] at way
        exact ⟨_, n, up, way.symm, path, name, Files.dirAt_eq_some.mpr ⟨parent, found⟩, way ▸ missing,
          elements_ne_nil last name⟩

namespace New

theorem room (h : p.New dst ns n up) : p.disk.tree.Room (up ++ [n]) :=
  Files.room_of_free (Files.dirAt_eq_some.mp h.parent).2 h.missing

theorem resolve_eq (h : p.New dst ns n up) (kept : Kept p.disk.tree t) :
    resolve t false (p.names dst) = .ok (up ++ [n]) := by
  rw [h.path]
  exact Files.resolve_of_dirAt h.name (Files.dirAt_mono kept h.parent)

def made (_ : p.New dst ns n up) : Files.Tree File := p.disk.tree.put (up ++ [n]) .dir

theorem kept_made (h : p.New dst ns n up) : Kept p.disk.tree h.made := (Kept.refl _).put h.room h.missing .dir

theorem get_made (h : p.New dst ns n up) :
    h.made.get (up ++ [n]) = some .dir := by rw [made, Files.Tree.get_put h.room, if_pos rfl]

theorem dirAt_eq (h : p.New dst ns n up) (kept : Kept h.made t) : dirAt t (p.names dst) = some (up ++ [n]) := by
  rw [h.path]
  exact Files.dirAt_concat h.name (Files.dirAt_mono (h.kept_made.trans kept) h.parent) (kept _ _ h.get_made)

theorem mkdir_eq (h : p.New dst ns n up) :
    Files.mkdir p.disk (p.names dst) = (.ok (), p.disk.put (up ++ [n]) .dir) := by
  rw [Files.mkdir, h.resolve_eq (.refl _)]
  simp only [h.missing, Option.isSome_none, Bool.false_eq_true, if_false]

theorem get_removeAll (h : p.New dst ns n up) (kept : Kept p.disk.tree d.tree) (l : Loc) :
    (Files.removeAll d (p.names dst)).tree.get l = if up ++ [n] <+: l then none else d.tree.get l := by
  rw [Files.removeAll, h.resolve_eq kept]
  exact Files.Tree.get_prune (by simp) l

theorem kept_removeAll (h : p.New dst ns n up) (kept : Kept p.disk.tree d.tree) :
    Kept p.disk.tree (Files.removeAll d (p.names dst)).tree := by
  intro l e found
  rw [h.get_removeAll kept, if_neg, kept l e found]
  rintro ⟨rest, rfl⟩
  rw [Files.absent_below h.missing] at found
  cases found

theorem lstat_removeAll (h : p.New dst ns n up) (kept : Kept p.disk.tree d.tree) :
    lstat (Files.removeAll d (p.names dst)).tree (p.names dst) = .error .noEntry := by
  refine Files.lstat_of_absent (h.resolve_eq (h.kept_removeAll kept)) ?_
  rw [h.get_removeAll kept, if_pos (List.prefix_refl _)]

/-- The cleaned path of the destination starts at a directory, from which names lead down. -/
theorem exists_start (h : p.New dst ns n up) (kept : Kept p.disk.tree t) :
    ∃ base ps here, p.names (pathClean dst) = base ++ ps ∧ (∀ m ∈ ps, Plain m) ∧ dirAt t base = some here := by
  obtain ⟨ups, ps, parts, up_, proper, top⟩ := (normal_elements dst).split
  have path : p.names (pathClean dst) = (baseFrom p.cwd dst ++ ups) ++ ps := by
    rw [names, namesFrom_clean p.cwd h.down, parts, List.append_assoc]
  have plain : ∀ m ∈ ps, Plain m := fun m hm => Diff.plain_of_proper (proper m hm)
  cases rooted : hasPrefix dst "/" with
  | true =>
    rw [baseFrom, rooted, if_pos rfl, top rooted, List.append_nil] at path
    exact ⟨[], ps, [], path, plain, rfl⟩
  | false =>
    rw [baseFrom, rooted, if_neg Bool.false_ne_true] at path
    obtain ⟨here, found, -, -⟩ := Files.dirAt_ups p.plain (kept _ _ p.dir) up_
    exact ⟨p.cwd ++ ups, ps, here, path, plain, found⟩

end New

end Place

/-! ### What is left -/

section
variable {p : Place} {dst : String} {ns : List String} {n : String} {up : Loc} {h : Host} {s : State}

theorem names_eq (cwd : h.cwd = p.cwd) (path : String) :
    h.names path = p.names path := by rw [Host.names, Place.names, cwd]

theorem mkdir_outcome (cwd : h.cwd = p.cwd) (disk : s.disk = p.disk) :
    (Host.outcome (h.mkdir dst) s).1 = none ∧ (Host.outcome (h.mkdir dst) s).2.pending = s.pending ∧
        (∃ ns n up, p.New dst ns n up ∧ (Host.outcome (h.mkdir dst) s).2.disk = p.disk.put (up ++ [n]) .dir) ∨
      (Host.outcome (h.mkdir dst) s).1 ≠ none ∧ (Host.outcome (h.mkdir dst) s).2.disk = p.disk := by
  have ends : Ends (h.mkdir dst) s
      (fun _ s' => s'.pending = s.pending ∧ ∃ ns n up, p.New dst ns n up ∧ s'.disk = p.disk.put (up ++ [n]) .dir)
        (fun s' => s'.disk = p.disk) := by
    refine attempt_bind (fun _ => disk) fun faults => ?_
    by_cases blank : dst = ""
    · rw [if_pos blank]
      exact .throw disk
    · rw [if_neg blank]
      unfold Ends onDisk
      dsimp only
      rw [disk, names_eq cwd]
      cases run : Files.mkdir p.disk (p.names dst) with
      | mk r d =>
        cases r with
        | ok u =>
          obtain ⟨loc, way, missing, -, rfl⟩ := Files.mkdir_ok run
          obtain ⟨ns, n, up, rfl, new⟩ := Place.exists_new way missing
          exact ⟨rfl, ns, n, up, new, rfl⟩
        | error e => exact Files.mkdir_error run
  exact outcome_cases ends

theorem wait_spec (r : Option String × State) :
    ((h.wait dst r).1 = none → r.1 = none ∧ (h.wait dst r).2.disk = r.2.disk) ∧
    ((h.wait dst r).2.disk = r.2.disk ∨ (h.wait dst r).2.disk = Files.removeAll r.2.disk (h.names dst)) := by
  have ends := outcome_cases (@attempt_ends r.2)
  unfold Host.wait
  generalize Host.outcome attempt r.2 = waited at ends
  obtain ⟨err, s'⟩ := waited
  obtain ⟨faults, rfl⟩ : Frame r.2 s' := by
    rcases ends with ⟨-, frame⟩ | ⟨-, frame⟩ <;> exact frame
  cases err with
  | none => exact ⟨fun ok => ⟨ok, rfl⟩, .inl rfl⟩
  | some e =>
    dsimp only
    by_cases ok : r.1 = none
    · rw [if_pos ok]
      exact ⟨fun none_ => (by cases none_), .inr rfl⟩
    · rw [if_neg ok]
      exact ⟨fun none_ => absurd none_ ok, .inl rfl⟩

theorem fill_spec (cwd : h.cwd = p.cwd) (new : p.New dst ns n up) (disk : s.disk = p.disk.put (up ++ [n]) .dir)
    (empty : s.pending = [])
    {Fit : List TreeEntry → Files.Disk File → Prop} {entries : List TreeEntry}
    (good : ∀ e ∈ entries, safeTreePath e.name = true ∧ Graphic e.blob)
    (step : ∀ done entry s s', entry ∈ entries → Kept new.made s.disk.tree → Fit done s.disk →
      Written s (h.names (Diff.pathDir (pathJoin dst entry.name))) (h.names (pathJoin dst entry.name))
        { mode := fileMode entry, data := h.blob entry.blob } s' → Fit (done ++ [entry]) s'.disk)
    (fit : Fit [] s.disk) :
    ((h.fill dst entries s).1 = none → Kept new.made (h.fill dst entries s).2.disk.tree ∧
      Fit entries (h.fill dst entries s).2.disk ∧ h.size entries ≤ maxCopyBytes) ∧
        Kept p.disk.tree (h.fill dst entries s).2.disk.tree := by
  have kept₀ : Kept new.made s.disk.tree := by
    rw [disk]
    exact .refl _
  have ends := outcome_cases (@start_ends s)
  unfold Host.fill
  generalize Host.outcome Host.start s = started at ends
  obtain ⟨err, s₁⟩ := started
  obtain ⟨faults, rfl⟩ : Frame s s₁ := by
    rcases ends with ⟨-, frame⟩ | ⟨-, frame⟩ <;> exact frame
  cases err with
  | some e => exact ⟨fun none_ => (by cases none_), new.kept_made.trans kept₀⟩
  | none =>
    have all := @writeEntries_ends { s with faults } h _ _ new.down Fit entries good step [] 0 (by decide)
      (by decide) kept₀ empty fit
    obtain ⟨succeeds, leaves⟩ := @wait_spec dst h (Host.outcome (h.writeEntries dst 0 entries) { s with faults })
    dsimp only
    rcases outcome_cases all with ⟨ok, kept, done, size⟩ | ⟨failed, kept⟩
    · refine ⟨fun none_ => ?_, ?_⟩
      · rw [(succeeds none_).2]
        exact ⟨kept, done, by simpa using size⟩
      · rcases leaves with same | removed
        · rw [same]
          exact new.kept_made.trans kept
        · rw [removed, names_eq cwd]
          exact new.kept_removeAll (new.kept_made.trans kept)
    · refine ⟨fun none_ => absurd (succeeds none_).1 failed, ?_⟩
      rcases leaves with same | removed
      · rw [same]
        exact new.kept_made.trans kept
      · rw [removed, names_eq cwd]
        exact new.kept_removeAll (new.kept_made.trans kept)

end

/-! ### The promise -/

namespace Listed
variable (h : Host) (e : Listed)

def parts : Loc := split (text e.path) '/'

def file : File := { mode := if e.mode = bytes "100755" then 0o755 else 0o644, data := h.blob e.blob }

end Listed

/-- The directory `loc` holds just the files of the tree, and nothing is changed outside. -/
structure Contents (h : Host) (es : List Listed) (before : Files.Tree File) (loc : Loc)
    (t : Files.Tree File) : Prop where
  files : ∀ l f, t.get (loc ++ l) = some (.file f) ↔ ∃ e ∈ es, e.parts = l ∧ e.file h = f
  apart : (es.map Listed.parts).Nodup
  dirs : ∀ l, l ≠ [] → t.get (loc ++ l) = some .dir → ∃ e ∈ es, l <+: e.parts
  links : ∀ l rooted target, t.get (loc ++ l) ≠ some (.link rooted target)
  outside : ∀ l, ¬loc <+: l → t.get l = before.get l
  inside : ∀ e ∈ es, ∀ part ∈ e.parts, Plain part ∧ part ≠ ".git"
  size : (es.map fun e => (h.blob e.blob).length).sum ≤ 80 * 2 ^ 20

/-- The outcome of `Materialize` is exact or leaves nothing. -/
structure Promise (h : Host) (p : Place) (dst : String) (es : List Listed) (r : Option String × State) : Prop where
  exact : r.1 = none → ∃ loc, dirAt r.2.disk.tree (p.names dst) = some loc ∧ Contents h es p.disk.tree loc r.2.disk.tree
  nothing : (∀ e, lstat p.disk.tree (p.names dst) ≠ .ok e) → r.1 ≠ none → ∀ e, lstat r.2.disk.tree (p.names dst) ≠ .ok e
  existing : ∀ e, lstat p.disk.tree (p.names dst) = .ok e → r.1 ≠ none ∧ r.2.disk = p.disk

/-- Once the destination is made, its cleaned path leads to it, or cannot be a directory. -/
def Straight (p : Place) (dst : String) : Prop :=
  ∀ d, Files.mkdir p.disk (p.names dst) = (.ok (), d) → ∀ loc, dirAt d.tree (p.names dst) = some loc →
    dirAt d.tree (p.names (pathClean dst)) = some loc ∨
      (Files.mkdirAll d false (p.names (pathClean dst)).reverse).1 ≠ .ok ()

/-- What git and the system may do: the tree is listed, if its listing is read at all; nothing is read from the
    batch process yet. -/
structure Given (h : Host) (p : Place) (tree : String) (es : List Listed) (s : State) : Prop where
  cwd : h.cwd = p.cwd
  disk : s.disk = p.disk
  listed : ∀ raw, h.lsTree tree = .ok raw → raw = listing es
  distinct : (es.map Listed.path).Nodup
  silent : s.pending = []

section
variable {p : Place} {dst : String} {ns : List String} {n : String} {up : Loc} {h : Host} {s : State} {tree : String}
  {es : List Listed}

theorem entries_cases (given : Given h p tree es s) :
    (∃ e, h.entries tree = .error e) ∨ h.entries tree = .ok (es.map Listed.entry) ∧ ∀ e ∈ es, e.Supported := by
  unfold Host.entries
  split_ifs
  · exact .inl ⟨_, rfl⟩
  · cases raw : h.lsTree tree with
    | error e => exact .inl ⟨e, rfl⟩
    | ok raw' =>
      rw [given.listed raw' raw]
      rcases readEntries_listing es with ⟨supported, read⟩ | ⟨-, e, failed⟩
      · exact .inr ⟨read, supported⟩
      · exact .inl ⟨e, failed⟩

theorem Listed.Supported.parts {e : Listed} (supported : e.Supported) :
    e.parts ≠ [] ∧ (∀ part ∈ e.parts, Proper part ∧ part ≠ ".git") ∧ text e.path = join "/" e.parts := by
  obtain ⟨rs, some_, parts, -, name⟩ := safeTreePath_iff.mp supported.2.2
  have same : e.parts = rs := by
    rw [Listed.parts, name]
    exact split_join (fun e he => (parts e he).1.plain) some_
  rw [same]
  exact ⟨some_, parts, name⟩

def fileOf (h : Host) (entry : TreeEntry) : Loc × File :=
  (split entry.name '/', { mode := fileMode entry, data := h.blob entry.blob })

theorem names_of_safe (cwd : h.cwd = p.cwd) (down : elements dst ≠ []) {name : String}
    (safe : safeTreePath name = true) :
    ∃ ds m, (∀ e ∈ ds, Plain e) ∧ Plain m ∧ split name '/' = ds ++ [m] ∧
      h.names (Diff.pathDir (pathJoin dst name)) = p.names (pathClean dst) ++ ds ∧
      h.names (pathJoin dst name) = p.names (pathClean dst) ++ ds ++ [m] := by
  obtain ⟨rs, some_, parts, -, rfl⟩ := safeTreePath_iff.mp safe
  obtain ⟨ds, m, rfl⟩ := (List.eq_nil_or_concat rs).resolve_left some_
  rw [List.concat_eq_append] at parts ⊢
  have proper : ∀ e ∈ ds ++ [m], Proper e := fun e he => (parts e he).1
  refine ⟨ds, m, fun e he => Diff.plain_of_proper (proper e (by simp [he])), Diff.plain_of_proper (proper m (by simp)),
    split_join (fun e he => (proper e he).plain) (by simp), ?_, ?_⟩
  · rw [names_eq cwd, Place.names, Place.names, namesFrom_clean p.cwd down, namesFrom_dir p.cwd down proper]
  · rw [names_eq cwd, Place.names, Place.names, namesFrom_clean p.cwd down,
      namesFrom_target p.cwd down proper (by simp), ← List.append_assoc]

theorem filled_step (cwd : h.cwd = p.cwd) (new : p.New dst ns n up)
    (straight : dirAt new.made (p.names (pathClean dst)) = some (up ++ [n]))
    {entry : TreeEntry} (safe : safeTreePath entry.name = true) {fs : List (Loc × File)} {s s' : State}
    (kept : Kept new.made s.disk.tree)
    (filled : Filled p.disk.tree (up ++ [n]) fs s.disk.tree)
    (written : Written s (h.names (Diff.pathDir (pathJoin dst entry.name))) (h.names (pathJoin dst entry.name))
      { mode := fileMode entry, data := h.blob entry.blob } s') :
    Filled p.disk.tree (up ++ [n]) (fs ++ [fileOf h entry]) s'.disk.tree := by
  obtain ⟨ds, m, dirs, name, parts, dir, target⟩ := names_of_safe cwd new.down safe
  obtain ⟨-, d, loc, made, way, missing, room, get⟩ := written
  rw [dir] at made
  rw [target] at way
  obtain ⟨found, outside, inside, before⟩ := Files.get_mkdirAll filled.links (Files.dirAt_mono kept straight) dirs made
  have place := Files.resolve_of_dirAt name found
  rw [way] at place
  obtain rfl := Except.ok.inj place
  have added := filled.add outside inside before missing { mode := fileMode entry, data := h.blob entry.blob }
  rw [fileOf, parts]
  refine added.congr fun l => ?_
  rw [get, Files.Tree.get_put room]

theorem not_written (cwd : h.cwd = p.cwd) (new : p.New dst ns n up)
    (refused : (Files.mkdirAll (p.disk.put (up ++ [n]) .dir) false (p.names (pathClean dst)).reverse).1 ≠ .ok ())
    {entry : TreeEntry} (safe : safeTreePath entry.name = true) {s s' : State}
    (disk : s.disk = p.disk.put (up ++ [n]) .dir) {file : File} :
    ¬Written s (h.names (Diff.pathDir (pathJoin dst entry.name))) (h.names (pathJoin dst entry.name)) file s' := by
  rintro ⟨-, d, loc, made, -⟩
  obtain ⟨ds, m, dirs, -, -, dir, -⟩ := names_of_safe cwd new.down safe
  obtain ⟨base, ps, here, path, plain, start⟩ := new.exists_start new.kept_made
  rw [dir, disk, path] at made
  rw [path] at refused
  have fails : ¬Free new.made (home new.made (base ++ ps).reverse).1 (home new.made (base ++ ps).reverse).2 := by
    intro free
    have all := (Files.mkdirAll_append (p.disk.put (up ++ [n]) .dir) start plain rfl false).1 free
    exact refused (by rw [all.1])
  have below := Files.not_free_below dirs fails
  rw [List.append_assoc] at below made
  have all : ∀ m ∈ ps ++ ds, Plain m := fun m hm => (List.mem_append.mp hm).elim (plain m) (dirs m)
  obtain ⟨e, failed⟩ := (Files.mkdirAll_append (p.disk.put (up ++ [n]) .dir) start all rfl false).2 below
  rw [made] at failed
  cases failed

theorem contents_of_filled (given : Given h p tree es s) (supported : ∀ e ∈ es, e.Supported) {loc : Loc}
    (filled : Filled p.disk.tree loc ((es.map Listed.entry).map (fileOf h)) t)
    (size : h.size (es.map Listed.entry) ≤ maxCopyBytes) :
    Contents h es p.disk.tree loc t := by
  have mem (l : Loc) (f : File) : (l, f) ∈ (es.map Listed.entry).map (fileOf h) ↔ ∃ e ∈ es, e.parts = l ∧
    e.file h = f := by
    simp only [List.mem_map, exists_exists_and_eq_and]
    constructor
    · rintro ⟨e, he, same⟩
      exact ⟨e, he, Prod.mk.inj same⟩
    · rintro ⟨e, he, rfl, rfl⟩
      exact ⟨e, he, rfl⟩
  refine ⟨fun l f => ?_, ?_, fun l ne dir => ?_, filled.links, filled.outside, fun e he part hp => ?_, ?_⟩
  · by_cases ne : l = []
    · rw [ne, List.append_nil, filled.top]
      refine iff_of_false (by simp) ?_
      rintro ⟨e, he, none_, -⟩
      exact (supported e he).parts.1 none_
    · rw [filled.files l f ne, mem]
  · have nodup := given.distinct
    rw [List.Nodup, List.pairwise_map] at nodup ⊢
    refine nodup.imp_of_mem fun {a b} ha hb other same => other ?_
    have texts : text a.path = text b.path := by rw [(supported a ha).parts.2.2, (supported b hb).parts.2.2, same]
    exact Cas.text_injective texts
  · obtain ⟨f, hf, rest, -, whole⟩ := (filled.dirs l ne).mp dir
    obtain ⟨e, he, parts, -⟩ := (mem f.1 f.2).mp hf
    exact ⟨e, he, rest, by rw [parts, whole]⟩
  · have proper := (supported e he).parts.2.1 part hp
    exact ⟨Diff.plain_of_proper proper.1, proper.2⟩
  · rw [Host.size, List.map_map] at size
    exact Int.ofNat_le.mp size

theorem promise_of_straight (given : Given h p tree es s) (straight : Straight p dst) :
    Promise h p dst es (h.materialize tree dst s) := by
  have failed {e : String} {s' : State} (disk : s'.disk = p.disk) : Promise h p dst es (some e, s') := by
    refine ⟨fun none_ => (by cases none_), fun missing _ => ?_, fun _ _ => ⟨by simp, disk⟩⟩
    rw [disk]
    exact missing
  unfold Host.materialize
  rcases entries_cases given with ⟨e, refused⟩ | ⟨read, supported⟩
  · rw [refused]
    exact failed given.disk
  · rw [read]
    dsimp only
    have made := @mkdir_outcome p dst h s given.cwd given.disk
    generalize Host.outcome (h.mkdir dst) s = r at made
    obtain ⟨err, s₁⟩ := r
    rcases made with ⟨ok, pending, ns, n, up, new, disk⟩ | ⟨refused, disk⟩
    · obtain rfl : err = none := ok
      dsimp only at pending disk ⊢
      have missing (e : Files.Entry File) : lstat p.disk.tree (p.names dst) ≠ .ok e := by
        rw [Files.lstat_of_absent (new.resolve_eq (.refl _)) new.missing]
        simp
      have good : ∀ e ∈ es.map Listed.entry, safeTreePath e.name = true ∧ Graphic e.blob := by
        intro e he
        obtain ⟨l, hl, rfl⟩ := List.mem_map.mp he
        exact ⟨(supported l hl).2.2, l.seen _ (by simp [Listed.entry])⟩
      have top : Filled p.disk.tree (up ++ [n]) [] s₁.disk.tree := by
        rw [disk]
        exact Files.filled_mkdir new.room new.missing
      -- Either every file is written where it is to be, or none is.
      obtain ⟨exact_, kept⟩ : ((h.fill dst (es.map Listed.entry) s₁).1 = none →
          Kept new.made (h.fill dst (es.map Listed.entry) s₁).2.disk.tree ∧
            Contents h es p.disk.tree (up ++ [n]) (h.fill dst (es.map Listed.entry) s₁).2.disk.tree) ∧
          Kept p.disk.tree (h.fill dst (es.map Listed.entry) s₁).2.disk.tree := by
        rcases straight _ new.mkdir_eq _ (new.dirAt_eq (.refl _)) with leads | refused
        · have spec := @fill_spec p dst ns n up h s₁ given.cwd new disk (pending.trans given.silent)
            (fun done d => Filled p.disk.tree (up ++ [n]) (done.map (fileOf h)) d.tree) _ good
            (fun done e s s' he kept fit written => by
              rw [List.map_append, List.map_singleton]
              exact filled_step given.cwd new leads (good e he).1 kept fit written) top
          refine ⟨fun ok => ?_, spec.2⟩
          obtain ⟨kept, filled, size⟩ := spec.1 ok
          exact ⟨kept, contents_of_filled given supported filled size⟩
        · have spec := @fill_spec p dst ns n up h s₁ given.cwd new disk (pending.trans given.silent)
            (fun done d => done = [] ∧ d = p.disk.put (up ++ [n]) .dir) _ good
            (fun done e s s' he kept fit written =>
              absurd written (not_written given.cwd new refused (good e he).1 fit.2)) ⟨rfl, disk⟩
          refine ⟨fun ok => ?_, spec.2⟩
          obtain ⟨kept, ⟨none_, disk'⟩, size⟩ := spec.1 ok
          refine ⟨kept, contents_of_filled given supported ?_ size⟩
          rw [disk', none_]
          exact Files.filled_mkdir new.room new.missing
      unfold Host.cleanup
      generalize h.fill dst (es.map Listed.entry) s₁ = r at exact_ kept
      obtain ⟨err, s₂⟩ := r
      cases err with
      | none =>
        rw [if_pos rfl]
        obtain ⟨kept', contents⟩ := exact_ rfl
        exact ⟨fun _ => ⟨up ++ [n], new.dirAt_eq kept', contents⟩, fun _ failed => absurd rfl failed,
          fun e found => absurd found (missing e)⟩
      | some e =>
        rw [if_neg (by simp)]
        refine ⟨fun none_ => (by cases none_), fun _ _ e => ?_, fun e found => absurd found (missing e)⟩
        have gone := new.lstat_removeAll kept
        rw [← names_eq given.cwd] at gone ⊢
        show lstat (Files.removeAll s₂.disk (h.names dst)).tree (h.names dst) ≠ .ok e
        rw [gone]
        simp
    · obtain ⟨e, rfl⟩ := Option.ne_none_iff_exists'.mp refused
      exact failed disk

end

end Aquila.Gitrev

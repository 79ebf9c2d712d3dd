import Aquila.Theorems.Gitrev.Destination

/-! Runs of `Materialize` in which no call fails: the promise is not kept where the cleaned destination leads
    elsewhere. -/

namespace Aquila.Gitrev
open Cas (text)
open Files (Loc Kept Filled Plain dirAt home Free resolve lstat)
open Effects (Ends bind_of_ok)

/-! ### Calls that succeed -/

/-- No call will fail, and the batch process answers. -/
structure Calm (s : State) : Prop where
  faults : s.faults = []
  running : s.ended = false
  replies : s.replies = []

section
variable {s : State} {h : Host}

theorem fault_run (calm : Calm s) : fault s = .ok none s := by
  unfold fault
  rw [calm.faults]

theorem attempt_run (calm : Calm s) : attempt s = .ok () s := bind_of_ok (fault_run calm)

theorem close_run (calm : Calm s) : close s = .ok none s := bind_of_ok (fault_run calm)

theorem request_run (calm : Calm s) (id : List UInt8) : h.request id s = .ok ()
    { s with pending := s.pending ++ h.answer id false } := by
  have served : h.serve id s = { s with pending := s.pending ++ h.answer id false } := by
    unfold Host.serve
    rw [calm.running, if_neg Bool.false_ne_true, calm.replies]
  exact (bind_of_ok (attempt_run calm)).trans (by rw [← served]; rfl)

theorem nextBlob_run (calm : Calm s) (silent : s.pending = []) {entry : TreeEntry} (seen : Graphic entry.blob)
    {total : Int} (nonneg : 0 ≤ total)
    (room : total + (h.blob entry.blob).length ≤ maxCopyBytes) :
    h.nextBlob total entry s = .ok (h.blob entry.blob).length { s with pending := h.blob entry.blob ++ [10] } := by
  have line : (10 : UInt8) ∉ entry.blob ++ bytes " blob " ++ bytes (itoa (h.blob entry.blob).length) := by
    have size := (graphic_itoa (h.blob entry.blob).length).not_mem (x := 10) (by decide)
    have word : (10 : UInt8) ∉ bytes " blob " := by decide
    simp [seen.not_mem (x := 10) (by decide), size, word]
  have keep : ∀ x ∈ entry.blob ++ bytes " blob " ++ bytes (itoa (h.blob entry.blob).length), decide (x ≠ 10) = true :=
    fun x hx => decide_eq_true fun same => line (same ▸ hx)
  have read : readLine { s with pending := s.pending ++ h.answer entry.blob false } =
      .ok (entry.blob ++ bytes " blob " ++ bytes (itoa (h.blob entry.blob).length) ++ [10]) { s with
        pending := h.blob entry.blob ++ [10] } := by
    unfold readLine
    dsimp only
    rw [silent, List.nil_append, Host.answer, if_neg Bool.false_ne_true, List.dropWhile_append_of_pos keep,
      List.dropWhile_cons_of_neg (by simp), List.takeWhile_append_of_pos keep, List.takeWhile_cons_of_neg (by simp),
        List.append_nil]
  have size : ofExcept (blobSize entry total
    (entry.blob ++ bytes " blob " ++ bytes (itoa (h.blob entry.blob).length) ++ [10]))
      { s with pending := h.blob entry.blob ++ [10] } = .ok ((h.blob entry.blob).length : Int) { s with
        pending := h.blob entry.blob ++ [10] } := by
    rw [blobSize_header seen nonneg, if_neg (by omega)]
    rfl
  exact (bind_of_ok (attempt_run calm)).trans ((bind_of_ok (request_run calm entry.blob)).trans
    ((bind_of_ok read).trans size))

theorem writeBlob_run (calm : Calm s) {data : List UInt8} (sent : s.pending = data ++ [10]) {target : String}
    {mode : UInt32} {d d' : Files.Disk File}
    {loc : Loc} (made : Files.mkdirAll s.disk false (h.names (Diff.pathDir target)).reverse = (.ok (), d))
    (new : Files.create d (h.names target) { mode := mode &&& ~~~h.umask, data := [] } = (.ok loc, d')) :
    ∃ s', h.writeBlob target mode data.length s = .ok () s' ∧ Calm s' := by
  have calm' {d : Files.Disk File} {b : List UInt8} : Calm { s with disk := d, pending := b } :=
    ⟨calm.faults, calm.running, calm.replies⟩
  have dirs : h.mkdirAll (Diff.pathDir target) s = .ok () { s with disk := d } := by
    refine (bind_of_ok (fault_run calm)).trans ?_
    dsimp only
    rw [made]
  have opened : h.openFile target mode { s with disk := d } = .ok loc { s with disk := d' } := by
    refine (bind_of_ok (attempt_run calm')).trans ?_
    unfold onDisk
    dsimp only
    rw [new]
  have changed : chmod loc mode { s with disk := d' } = .ok () { s with
    disk := Files.modify d' loc fun f => { f with mode } } :=
    (bind_of_ok (attempt_run calm')).trans rfl
  have copied (e : Files.Disk File) : copyN loc data.length { s with disk := e } = .ok none
      { s with disk := Files.modify e loc (fun f => { f with data := f.data ++ data }), pending := [10] } := by
    refine (bind_of_ok (fault_run calm')).trans ?_
    have long : ¬s.pending.length < data.length := by simp [sent]
    have first : s.pending.take data.length = data := by rw [sent, List.take_left]
    have rest : s.pending.drop data.length = [10] := by rw [sent, List.drop_left]
    show EStateM.Result.ok (if s.pending.length < data.length then some "EOF" else none)
      (copy loc data.length { s with disk := e }) = _
    rw [if_neg long, copy]
    dsimp only
    rw [first, rest]
  refine ⟨_, (bind_of_ok dirs).trans <| (bind_of_ok opened).trans <| (bind_of_ok changed).trans
    <| (bind_of_ok (copied _)).trans <|
    (bind_of_ok (close_run calm')).trans <| rfl, calm'⟩

theorem writeEntry_run (calm : Calm s) (silent : s.pending = []) {dst : String} (down : elements dst ≠ [])
    {entry : TreeEntry}
    (safe : safeTreePath entry.name = true) (seen : Graphic entry.blob) {total : Int} (nonneg : 0 ≤ total)
    (room : total + (h.blob entry.blob).length ≤ maxCopyBytes) {d d' : Files.Disk File} {loc : Loc}
    (made : Files.mkdirAll s.disk false (h.names (Diff.pathDir (pathJoin dst entry.name))).reverse = (.ok (), d))
    (new : Files.create d (h.names (pathJoin dst entry.name)) { mode := fileMode entry &&& ~~~h.umask, data := [] } =
      (.ok loc, d')) :
    ∃ s', h.writeEntry dst total entry s = .ok (total + (h.blob entry.blob).length) s' ∧ Calm s' := by
  obtain ⟨rs, some_, parts, -, name⟩ := safeTreePath_iff.mp safe
  have inside : outside dst (pathJoin dst entry.name) = false := by
    rw [name]
    exact outside_eq_false down (fun e he => (parts e he).1) some_
  have calm₁ : Calm { s with pending := h.blob entry.blob ++ [10] } := ⟨calm.faults, calm.running, calm.replies⟩
  obtain ⟨s', written, calm'⟩ := @writeBlob_run _ h calm₁ (h.blob entry.blob) rfl _ _ _ _ _ made new
  refine ⟨s', (bind_of_ok (nextBlob_run calm silent seen nonneg room)).trans ?_, calm'⟩
  rw [inside, if_neg Bool.false_ne_true, Int.toNat_natCast]
  exact bind_of_ok written

theorem materialize_run (calm : Calm s) {p : Place} {tree dst : String} {entries : List TreeEntry} (cwd : h.cwd = p.cwd)
    (disk : s.disk = p.disk)
    (read : h.entries tree = .ok entries) {ns : List String} {n : String} {up : Loc} (new : p.New dst ns n up)
    {s' : State} (calm' : Calm s')
    (run : h.writeEntries dst 0 entries { s with disk := p.disk.put (up ++ [n]) .dir } = .ok () s') :
    h.materialize tree dst s = (none, s') := by
  have calm₁ : Calm { s with disk := p.disk.put (up ++ [n]) .dir } := ⟨calm.faults, calm.running, calm.replies⟩
  have made : h.mkdir dst s = .ok () { s with disk := p.disk.put (up ++ [n]) .dir } := by
    refine (bind_of_ok (attempt_run calm)).trans ?_
    rw [if_neg (ne_empty_of_elements new.down)]
    unfold onDisk
    dsimp only
    rw [disk, names_eq cwd, new.mkdir_eq]
  have started : Host.start { s with disk := p.disk.put (up ++ [n]) .dir } = .ok () { s with
    disk := p.disk.put (up ++ [n]) .dir } :=
    (bind_of_ok (attempt_run calm₁)).trans ((bind_of_ok (attempt_run calm₁)).trans (bind_of_ok (fault_run calm₁)))
  have outcome {x : M Unit} {s s' : State} (run : x s = .ok () s') : Host.outcome x s = (none,
    s') := by rw [Host.outcome, run]
  have filled : h.fill dst entries { s with disk := p.disk.put (up ++ [n]) .dir } = (none, s') := by
    rw [Host.fill, outcome started]
    dsimp only
    rw [outcome run, Host.wait, outcome (attempt_run calm')]
  rw [Host.materialize, read]
  dsimp only
  rw [outcome made]
  dsimp only
  rw [filled, Host.cleanup, if_pos rfl]
  rfl

end

/-! ### Where the cleaned destination leads elsewhere -/

/-- A name that no entry of a small tree has. -/
def longName (k : Nat) : String := .ofList (List.replicate (k + 1) 'a')

theorem exists_longName (t : Files.Tree File) : ∃ k, ∀ l, t.get (l ++ [longName k]) = none := by
  refine ⟨((t.entries.map Prod.fst).flatten.map fun n => n.toList.length).sum, fun l => ?_⟩
  rw [Files.Tree.get, Files.lookup, if_neg (by simp), Option.map_eq_none_iff, Keyed.get_eq_none_iff]
  intro mem
  have name : longName ((t.entries.map Prod.fst).flatten.map fun n => n.toList.length).sum ∈
    (t.entries.map Prod.fst).flatten :=
    List.mem_flatten.mpr ⟨_, mem, by simp⟩
  have short := List.le_sum_of_mem (List.mem_map_of_mem (f := fun n : String => n.toList.length) name)
  rw [longName, String.toList_ofList, List.length_replicate] at short
  omega

theorem proper_longName (k : Nat) : Proper (longName k) ∧ longName k ≠ ".git" := by
  have chars : (longName k).toList = List.replicate (k + 1) 'a' := String.toList_ofList
  have other {e : String} (dot : e = "" ∨ '.' ∈ e.toList) : longName k ≠ e := by
    rintro rfl
    rcases dot with none_ | mem
    · rw [none_] at chars
      cases chars
    · rw [chars] at mem
      exact absurd (List.eq_of_mem_replicate mem) (by decide)
  refine ⟨⟨other (.inl rfl), other (.inr (by decide)), other (.inr (by decide)), fun slash => ?_⟩,
    other (.inr (by decide))⟩
  rw [chars] at slash
  exact absurd (List.eq_of_mem_replicate slash) (by decide)

theorem safeTreePath_longName (k : Nat) : safeTreePath (longName k) = true := by
  refine safeTreePath_iff.mpr ⟨[longName k], by simp, by simpa using proper_longName k, fun zero => ?_, rfl⟩
  rw [longName, String.toList_ofList] at zero
  exact absurd (List.eq_of_mem_replicate zero) (by decide)

def longFile (k : Nat) : Listed where
  mode := bytes "100644"
  kind := bytes "blob"
  blob := bytes "a"
  path := List.replicate (k + 1) 97
  seen := by decide
  whole := fun zero => absurd (List.eq_of_mem_replicate zero) (by decide)

theorem text_longFile (k : Nat) : text (longFile k).path = longName k := by
  rw [longFile, Cas.text, List.map_replicate, longName]
  rfl

theorem split_longName (k : Nat) : split (longName k) '/' = [longName k] := by
  have plain := (proper_longName k).1.plain
  rw [split, splitChars_of_not_mem plain, List.map_singleton, String.ofList_toList]

def longHost (cwd : Loc) (k : Nat) : Host := { cwd, lsTree := fun _ => .ok (listing [longFile k]), blob := fun _ => [] }

def someTree : String := .ofList (List.replicate 40 '0')

theorem entries_longHost (cwd : Loc) (k : Nat) : (longHost cwd k).entries someTree = .ok [(longFile k).entry] := by
  have id : objectID someTree = true := by decide
  have supported : ∀ e ∈ [longFile k], e.Supported := by
    intro e he
    obtain rfl := List.mem_singleton.mp he
    refine ⟨.inl rfl, rfl, ?_⟩
    rw [text_longFile]
    exact safeTreePath_longName k
  rw [Host.entries, id, if_neg (by simp)]
  rcases readEntries_listing [longFile k] with ⟨-, read⟩ | ⟨bad, -⟩
  · exact read
  · exact absurd supported bad

section
variable {p : Place} {dst : String} {ns : List String} {n : String} {up : Loc}

theorem Place.New.exists_elsewhere (new : p.New dst ns n up)
    (astray : dirAt new.made (p.names (pathClean dst)) ≠ some (up ++ [n])) {d : Files.Disk File}
    (dirs : Files.mkdirAll (p.disk.put (up ++ [n]) .dir) false (p.names (pathClean dst)).reverse = (.ok (), d)) :
    ∃ loc, dirAt d.tree (p.names (pathClean dst)) = some loc ∧ loc ≠ up ++ [n] := by
  obtain ⟨base, ps, here, path, plain, start⟩ := new.exists_start new.kept_made
  rw [path] at dirs astray ⊢
  obtain ⟨loc, leads, old | missing⟩ := Files.dirAt_of_mkdirAll start plain dirs
  · refine ⟨loc, leads, ?_⟩
    rintro rfl
    exact astray old
  · refine ⟨loc, leads, ?_⟩
    rintro rfl
    cases missing.symm.trans new.get_made

theorem exists_written (new : p.New dst ns n up) {d : Files.Disk File}
    (dirs : Files.mkdirAll (p.disk.put (up ++ [n]) .dir) false (p.names (pathClean dst)).reverse = (.ok (), d))
    {loc : Loc}
    (leads : dirAt d.tree (p.names (pathClean dst)) = some loc) {k : Nat}
    (fresh : d.tree.get (loc ++ [longName k]) = none) :
    ∃ s', (longHost p.cwd k).materialize someTree dst { disk := p.disk } = (none, s') ∧ Kept new.made s'.disk.tree ∧
      ∀ l, l ≠ loc ++ [longName k] → s'.disk.tree.get l = d.tree.get l := by
  have name : (longFile k).entry.name = longName k := text_longFile k
  have safe : safeTreePath (longFile k).entry.name = true := by
    rw [name]
    exact safeTreePath_longName k
  have seen : Graphic (longFile k).entry.blob := (longFile k).seen _ (by simp [Listed.entry])
  obtain ⟨ds, m, -, plain, parts, dir, target⟩ := @names_of_safe p dst (longHost p.cwd k) rfl new.down _ safe
  rw [name, split_longName] at parts
  obtain ⟨rfl, alone⟩ := List.append_inj' (parts.symm.trans (List.nil_append _).symm) rfl
  obtain rfl := List.singleton_inj.mp alone
  rw [List.append_nil] at dir target
  have created := Files.create_of_dirAt plain leads fresh
    ({ mode := fileMode (longFile k).entry &&& ~~~(longHost p.cwd k).umask, data := [] } : File)
  rw [← target] at created
  rw [← dir] at dirs
  have calm (d : Files.Disk File) : Calm { disk := d } := ⟨rfl, rfl, rfl⟩
  obtain ⟨s', run, calm'⟩ := @writeEntry_run _ (longHost p.cwd k) (calm _) rfl dst new.down _ safe seen 0 (by decide)
    (show (0 : Int) + 0 ≤ maxCopyBytes by decide) d _ _ dirs created
  refine ⟨s', materialize_run (calm _) rfl rfl (entries_longHost _ _) new calm' ((bind_of_ok run).trans rfl), ?_⟩
  obtain ⟨-, -, kept, -, d', loc', dirs', way', -, -, get⟩ :=
    (@writeEntry_ends _ (longHost p.cwd k) new.made (.refl _) dst new.down _ safe seen 0 (by decide) rfl).of_ok run
  obtain rfl := (Prod.mk.inj (dirs'.symm.trans dirs)).2
  rw [target, Files.resolve_of_dirAt plain leads] at way'
  obtain rfl := Except.ok.inj way'
  exact ⟨kept, fun l other => by rw [get, if_neg other]⟩

/-- The promise needs a destination whose cleaned path leads to it. -/
theorem straight_of_promise (all : ∀ h tree es s, Given h p tree es s → Promise h p dst es (h.materialize tree dst s)) :
    Straight p dst := by
  intro d made loc found
  obtain ⟨loc₀, way, missing, -, rfl⟩ := Files.mkdir_ok made
  obtain ⟨ns, n, up, rfl, new⟩ := Place.exists_new way missing
  obtain rfl := Option.some.inj (found.symm.trans (new.dirAt_eq (.refl _)))
  by_contra neither
  obtain ⟨astray, makes⟩ := not_or.mp neither
  obtain ⟨d, dirs⟩ : ∃ d, Files.mkdirAll (p.disk.put (up ++ [n]) .dir) false (p.names (pathClean dst)).reverse =
    (.ok (), d) :=
    ⟨_, Prod.ext (Classical.not_not.mp makes) rfl⟩
  obtain ⟨loc, leads, other⟩ := new.exists_elsewhere astray dirs
  obtain ⟨k, fresh⟩ := exists_longName d.tree
  obtain ⟨s', run, kept, get⟩ := exists_written new dirs leads (fresh loc)
  have given : Given (longHost p.cwd k) p someTree [longFile k] { disk := p.disk } :=
    ⟨rfl, rfl, fun raw read => (Except.ok.inj read).symm, by simp, rfl⟩
  have promise := all _ _ _ _ given
  rw [run] at promise
  obtain ⟨loc', leads', contents⟩ := promise.exact rfl
  obtain rfl := Option.some.inj (leads'.symm.trans (new.dirAt_eq kept))
  have file := (contents.files [longName k] ((longFile k).file (longHost p.cwd k))).mpr
    ⟨longFile k, by simp, by rw [Listed.parts, text_longFile, split_longName], rfl⟩
  rw [get _ fun same => other (List.append_inj_left' same rfl).symm, fresh] at file
  cases file

end

/-- For every tree and whatever fails, `Materialize` is exact or leaves nothing: just if the cleaned destination
    leads to the directory that is made, or cannot be a directory. -/
theorem materialize_exact_iff (p : Place) (dst : String) :
    (∀ h tree es s, Given h p tree es s → Promise h p dst es (h.materialize tree dst s)) ↔ Straight p dst :=
  ⟨straight_of_promise, fun straight _ _ _ _ given => promise_of_straight given straight⟩

namespace Sample

def place : Place where
  cwd := ["w"]
  disk :=
    { tree := (((Files.Tree.empty.put ["w"] .dir).put ["x"] .dir).put ["x", "d"] .dir).put ["w", "l"]
        (.link true ["x", "d"]) }
  dir := by decide +kernel
  plain := by
    intro n hn
    obtain rfl := List.mem_singleton.mp hn
    exact ⟨by decide, by decide, by decide⟩

def result : Option String × State := (longHost ["w"] 0).materialize someTree "l/../out" { disk := place.disk }

end Sample

/-- The directory is made at `/x/out`, and the file is written to `/w/out`. -/
theorem not_materialize_exact : Given (longHost ["w"] 0) Sample.place someTree [longFile 0]
    { disk := Sample.place.disk } ∧
    Sample.result.1 = none ∧ dirAt Sample.result.2.disk.tree (Sample.place.names "l/../out") = some ["x", "out"] ∧
    Sample.result.2.disk.tree.get ["x", "out", "a"] = none ∧
    Sample.result.2.disk.tree.get ["w", "out", "a"] = some (.file { mode := 0o644, data := [] }) ∧
    ¬Promise (longHost ["w"] 0) Sample.place "l/../out" [longFile 0] Sample.result := by
  have given : Given (longHost ["w"] 0) Sample.place someTree [longFile 0] { disk := Sample.place.disk } :=
    ⟨rfl, rfl, fun raw read => (Except.ok.inj read).symm, by simp, rfl⟩
  have run : Sample.result.1 = none ∧ dirAt Sample.result.2.disk.tree (Sample.place.names "l/../out") = some
    ["x", "out"] ∧
      Sample.result.2.disk.tree.get ["x", "out", "a"] = none ∧
      Sample.result.2.disk.tree.get ["w", "out", "a"] = some (.file { mode := 0o644, data := [] }) := by
    decide +kernel
  obtain ⟨ok, leads, missing, elsewhere⟩ := run
  refine ⟨given, ok, leads, missing, elsewhere, fun promise => ?_⟩
  obtain ⟨loc, leads', contents⟩ := promise.exact ok
  obtain rfl := Option.some.inj (leads'.symm.trans leads)
  have file := (contents.files ["a"] ((longFile 0).file (longHost ["w"] 0))).mpr ⟨longFile 0, by simp, by decide, rfl⟩
  have absent : Sample.result.2.disk.tree.get (["x", "out"] ++ ["a"]) = none := missing
  rw [absent] at file
  cases file

/-- `Materialize` is exact or leaves nothing at every destination that `filepath.Join` makes in a directory. -/
theorem materialize_joined {h : Host} {p : Place} {tree dir : String} {es : List Listed} {s : State}
    (given : Given h p tree es s)
    (named : dir ≠ "") (name : String) :
    Promise h p (pathJoin dir name) es (h.materialize tree (pathJoin dir name) s) := by
  have clean : pathClean (pathJoin dir name) = pathJoin dir name := by rw [pathJoin, if_neg named, pathClean_idem]
  refine promise_of_straight given fun d _ loc found => .inl ?_
  rwa [clean]

theorem materialize_joined_sample :
    ((longHost ["w"] 0).materialize someTree (pathJoin "l" "baseline") { disk := Sample.place.disk }).1 = none ∧
      Promise (longHost ["w"] 0) Sample.place (pathJoin "l" "baseline") [longFile 0]
        ((longHost ["w"] 0).materialize someTree (pathJoin "l" "baseline") { disk := Sample.place.disk }) :=
  ⟨by decide +kernel, materialize_joined ⟨rfl, rfl, fun raw read => (Except.ok.inj read).symm, by simp, rfl⟩
    (by decide) "baseline"⟩

end Aquila.Gitrev

import Aquila.Lib.Fold
import Aquila.Net
import Aquila.Theorems.Diff.Applied

/-! What a run of `Apply` touches. A file is put below the deepest directory on its way, wherever a link has led to. -/

namespace Aquila.Diff
open Files (Loc home grow Free dirAt chain)

/-! ### The paths of a diff -/

/-- The collected files have canonical paths. -/
def Named (c : Collector) : Prop := ∀ f ∈ c.files, Canonical f.path

namespace Named
variable {c c' : Collector}

theorem flushHunk (h : Named c) : Named c.flushHunk := by
  unfold Collector.flushHunk
  cases c.cur with
  | none => exact h
  | some f =>
    dsimp only
    split_ifs
    · exact h
    · exact h

theorem flushFile (h : Named c) : Named c.flushFile := by
  have kept := h.flushHunk
  unfold Collector.flushFile
  generalize c.flushHunk = c at kept
  dsimp only
  cases c.cur with
  | none => exact kept
  | some f =>
    dsimp only
    split_ifs
    · exact kept
    · cases path : canonicalPath f.path with
      | none => exact kept
      | some p =>
        refine List.forall_mem_append.mpr ⟨kept, List.forall_mem_singleton.mpr ?_⟩
        exact canonical_of_canonicalPath path

theorem startFile (h : Named c) : Named c.startFile := h.flushFile

theorem onFile (h : Named c) (g : ApplyFile → ApplyFile) : Named (c.onFile g) := h

theorem bodyLine (h : Named c) (line : String) : Named (c.bodyLine line) := by
  unfold Collector.bodyLine
  split
  · exact h
  · exact h
  · split_ifs
    · exact h
    · exact h.flushHunk

theorem collect {line : String} (h : Named c) (ok : collect c line = .ok c') : Named c' := by
  unfold Diff.collect at ok
  dsimp only at ok
  have left : Named (if c.inHunk && !hunkBodyLine line then c.flushHunk else c) := by
    split_ifs
    · exact h.flushHunk
    · exact h
  generalize (if c.inHunk && !hunkBodyLine line then c.flushHunk else c) = c at ok left
  have opened : Named (if c.cur.isNone then c.startFile else c) := by
    split_ifs
    · exact left.startFile
    · exact left
  generalize (if c.cur.isNone then c.startFile else c) = c₁ at ok opened
  rcases ite_eq_iff.mp ok with ⟨-, ok⟩ | ⟨-, ok⟩
  · obtain rfl := Except.ok.inj ok
    exact left.startFile.onFile _
  rcases ite_eq_iff.mp ok with ⟨-, ok⟩ | ⟨-, ok⟩
  · obtain rfl := Except.ok.inj ok
    exact left.onFile _
  rcases ite_eq_iff.mp ok with ⟨-, ok⟩ | ⟨-, ok⟩
  · obtain rfl := Except.ok.inj ok
    exact left.onFile _
  rcases ite_eq_iff.mp ok with ⟨-, ok⟩ | ⟨-, ok⟩
  · cases ok
  rcases ite_eq_iff.mp ok with ⟨-, ok⟩ | ⟨-, ok⟩
  · obtain rfl := Except.ok.inj ok
    exact left.onFile fun f => { f with binary := true }
  rcases ite_eq_iff.mp ok with ⟨-, ok⟩ | ⟨-, ok⟩
  · obtain rfl := Except.ok.inj ok
    exact opened.onFile _
  rcases ite_eq_iff.mp ok with ⟨-, ok⟩ | ⟨-, ok⟩
  · obtain rfl := Except.ok.inj ok
    exact opened.onFile _
  rcases ite_eq_iff.mp ok with ⟨-, ok⟩ | ⟨-, ok⟩
  · cases cur : c.cur with
    | none =>
      rw [cur] at ok
      cases ok
    | some f =>
      rw [cur] at ok
      rcases ite_eq_iff.mp ok with ⟨-, ok⟩ | ⟨-, ok⟩
      · obtain rfl := Except.ok.inj ok
        exact left
      · cases start : hunkOldStart line with
        | none =>
          rw [start] at ok
          cases ok
        | some n =>
          rw [start] at ok
          obtain rfl := Except.ok.inj ok
          exact left.flushHunk
  rcases ite_eq_iff.mp ok with ⟨-, ok⟩ | ⟨-, ok⟩
  · obtain rfl := Except.ok.inj ok
    exact left.bodyLine line
  · obtain rfl := Except.ok.inj ok
    exact left

end Named

theorem canonical_of_collectApply {data : List UInt8} {fs : List ApplyFile} (h : collectApply data = .ok fs) :
    ∀ f ∈ fs, Canonical f.path := by
  unfold collectApply at h
  dsimp only at h
  split_ifs at h
  unfold collectLines at h
  split at h
  · cases h
  · next c done =>
    obtain rfl := Except.ok.inj h
    have start : Named {} := fun f hf => absurd hf List.not_mem_nil
    exact (Fold.keep Named.collect start done).flushFile

/-! ### One file -/

section
variable {root : String} {f : ApplyFile} {fs : List ApplyFile} {d d' : Disk} {R : Loc}

/-- The locations that applying a file adds to those touched: all below the deepest directory on its way, at least
    one directly in it. -/
structure Touches (root : String) (f : ApplyFile) (d d' : Disk) (ds : List String) (n : String)
    (new : List Loc) : Prop where
  dest : Destination root f.path ds n
  touched : d'.touched = d.touched ++ new
  below : ∀ loc ∈ new, ∃ m rest, loc = (home d.tree ds.reverse).1 ++ m :: rest
  first : ∃ m, (home d.tree ds.reverse).1 ++ [m] ∈ new

theorem Applied.touches (h : Applied root f d d') : ∃ ds n new, Touches root f d d' ds n new := by
  cases h with
  | @add ds n out _ _ dest =>
    generalize home_ : home d.tree ds.reverse = h
    obtain ⟨L, ns⟩ := h
    refine ⟨ds, n, chain L ns ++ [L ++ ns ++ [n]], dest, ?_, ?_, ?_⟩
    · show (grow d L ns).touched ++ _ = _
      rw [Files.touched_grow, List.append_assoc d.touched]
    · rw [home_]
      refine List.forall_mem_append.mpr ⟨fun loc => Files.mem_chain, List.forall_mem_singleton.mpr ?_⟩
      cases ns with
      | nil => exact ⟨n, [], by simp⟩
      | cons m ns => exact ⟨m, ns ++ [n], by simp⟩
    · rw [home_]
      cases ns with
      | nil => exact ⟨n, by simp [chain]⟩
      | cons m ns => exact ⟨m, by simp [chain]⟩
  | @delete ds n _ _ dest =>
    exact ⟨ds, n, [(home d.tree ds.reverse).1 ++ [n]], dest, rfl, List.forall_mem_singleton.mpr ⟨n, [], rfl⟩, n,
      List.mem_singleton_self _⟩
  | @modify ds n out raw cs _ _ _ dest =>
    exact ⟨ds, n, [(home d.tree ds.reverse).1 ++ [n]], dest, rfl, List.forall_mem_singleton.mpr ⟨n, [], rfl⟩, n,
      List.mem_singleton_self _⟩

/-- Below a directory. -/
def Under (R loc : Loc) : Prop := ∃ n rest, loc = R ++ n :: rest

instance (R loc : Loc) : Decidable (Under R loc) :=
  decidable_of_iff (R <+: loc ∧ loc.drop R.length ≠ []) <| by
    constructor
    · rintro ⟨⟨rest, rfl⟩, ne⟩
      rw [List.drop_left] at ne
      obtain ⟨n, rest, rfl⟩ := List.exists_cons_of_ne_nil ne
      exact ⟨n, rest, rfl⟩
    · rintro ⟨n, rest, rfl⟩
      exact ⟨List.prefix_append _ _, by simp⟩

theorem under_iff {new : List Loc} {L : Loc} (below : ∀ loc ∈ new, ∃ m rest, loc = L ++ m :: rest)
    (first : ∃ m, L ++ [m] ∈ new) :
    (∀ loc ∈ new, Under R loc) ↔ R <+: L := by
  constructor
  · intro all
    obtain ⟨m, mem⟩ := first
    obtain ⟨n, rest, eq⟩ := all _ mem
    have up := congrArg List.dropLast eq
    rw [List.dropLast_concat, List.dropLast_append_of_ne_nil (List.cons_ne_nil n rest)] at up
    exact up ▸ List.prefix_append _ _
  · rintro ⟨more, rfl⟩ loc hl
    obtain ⟨m, rest, rfl⟩ := below loc hl
    rw [List.append_assoc]
    cases more with
    | nil => exact ⟨m, rest, rfl⟩
    | cons k more => exact ⟨k, more ++ m :: rest, rfl⟩

theorem chain_under_iff {L : Loc} {ns : List String} : (∀ loc ∈ chain L ns, Under R loc) ↔ (ns ≠ [] → R <+: L) := by
  cases ns with
  | nil => exact iff_of_true (fun loc hl => absurd hl List.not_mem_nil) fun ne => absurd rfl ne
  | cons m ns =>
    rw [under_iff (fun loc => Files.mem_chain) ⟨m, List.mem_cons_self⟩]
    exact ⟨fun h _ => h, fun h => h (List.cons_ne_nil m ns)⟩

/-! ### All files -/

theorem applyAll_of_applied (rooted : hasPrefix root "/" = true) (path : Canonical f.path)
    (applied : Applied root f d d') :
    applyAll root (f :: fs) d = applyAll root fs d' := by
  rw [applyAll, (applyOne_ok_iff rooted path).mpr applied]

theorem applyAll_of_left (rooted : hasPrefix root "/" = true) (path : Canonical f.path) (left : Left root f d d')
    (fs : List ApplyFile) :
    ∃ e, applyAll root (f :: fs) d = (.error e, d') := by
  rcases settles_applyOne (d := d) rooted path with ⟨d₁, applied, -⟩ | ⟨d₁, e, left', result⟩
  · exact absurd applied (left.refused d₁)
  · exact ⟨e, by rw [applyAll, result, left.unique left']⟩

theorem applied_or_left (rooted : hasPrefix root "/" = true) (path : Canonical f.path) (d : Disk) :
    (∃ d', Applied root f d d') ∨ ∃ d', Left root f d d' := by
  rcases settles_applyOne (d := d) rooted path with ⟨d₁, applied, -⟩ | ⟨d₁, e, left, -⟩
  · exact .inl ⟨d₁, applied⟩
  · exact .inr ⟨d₁, left⟩

theorem touched_grows (rooted : hasPrefix root "/" = true) (paths : ∀ f ∈ fs, Canonical f.path) (d : Disk) :
    d.touched <+: (applyAll root fs d).2.touched := by
  induction fs generalizing d with
  | nil => exact List.prefix_rfl
  | cons f fs ih =>
    obtain ⟨path, paths⟩ := List.forall_mem_cons.mp paths
    rcases applied_or_left rooted path d with ⟨d', applied⟩ | ⟨d', left⟩
    · obtain ⟨ds, n, new, step⟩ := applied.touches
      rw [applyAll_of_applied rooted path applied]
      exact (step.touched ▸ List.prefix_append _ _).trans (ih paths d')
    · obtain ⟨e, result⟩ := applyAll_of_left rooted path left fs
      rw [result]
      cases left with
      | stray => exact Files.touched_grow d _ _ ▸ List.prefix_append _ _
      | kept => exact List.prefix_rfl

/-- Every file that is applied, or that directories are made for, has its way end below `R`. -/
def Confined (R : Loc) (root : String) : List ApplyFile → Disk → Prop
  | [], _ => True
  | f :: fs, d =>
    (∀ d', Applied root f d d' → (∀ ds n, Destination root f.path ds n → R <+: (home d.tree ds.reverse).1) ∧
      Confined R root fs d') ∧ ∀ way, Strays root f d.tree way → (home d.tree way).2 ≠ [] → R <+: (home d.tree way).1

theorem applyAll_under_iff (rooted : hasPrefix root "/" = true) (paths : ∀ f ∈ fs, Canonical f.path)
    (inside : ∀ loc ∈ d.touched, Under R loc) :
    (∀ loc ∈ (applyAll root fs d).2.touched, Under R loc) ↔ Confined R root fs d := by
  induction fs generalizing d with
  | nil => exact iff_of_true inside trivial
  | cons f fs ih =>
    obtain ⟨path, paths⟩ := List.forall_mem_cons.mp paths
    rcases applied_or_left rooted path d with ⟨d', applied⟩ | ⟨d', left⟩
    · obtain ⟨ds, n, new, step⟩ := applied.touches
      have here : (∀ loc ∈ d'.touched, Under R loc) ↔ R <+: (home d.tree ds.reverse).1 := by
        rw [step.touched, List.forall_mem_append, under_iff step.below step.first]
        exact and_iff_right inside
      rw [applyAll_of_applied rooted path applied]
      constructor
      · intro all
        have before : ∀ loc ∈ d'.touched, Under R loc :=
          fun loc hl => all loc ((touched_grows rooted paths d').subset hl)
        refine ⟨fun d₁ applied' => ?_, fun way strays => absurd applied ((Left.stray strays).refused d')⟩
        obtain rfl := applied.unique applied'
        refine ⟨fun ds' n' dest => ?_, (ih paths before).mp all⟩
        obtain ⟨rfl, rfl⟩ := step.dest.unique dest
        exact here.mp before
      · intro confined
        obtain ⟨home, later⟩ := confined.1 d' applied
        exact (ih paths (here.mpr (home ds n step.dest))).mpr later
    · obtain ⟨e, result⟩ := applyAll_of_left rooted path left fs
      have refused := left.refused
      rw [result]
      cases left with
      | @stray way strays =>
        rw [Files.touched_grow, List.forall_mem_append, and_iff_right inside, chain_under_iff]
        constructor
        · refine fun inside => ⟨fun d' h => absurd h (refused d'), fun way' strays' => ?_⟩
          rwa [← strays.unique strays']
        · intro confined
          exact confined.2 way strays
      | kept _ none => exact iff_of_true inside ⟨fun d' h => absurd h (refused d'),
          fun way strays => absurd strays (none way)⟩

end

/-- The files that `Apply` gets to, in the directory `root`. -/
def Reaches (lib : Lib) (root : String) (data : List UInt8) (fs : List ApplyFile) : Prop :=
  (∃ d, parse lib data = .ok d) ∧ Os.Takes (names root) ∧ collectApply data = .ok fs

/-- A run either refuses the data or the directory, or goes through the files. -/
theorem apply_cases (lib : Lib) (cwd root : String) (data : List UInt8) {d : Disk}
    (dir : Files.stat d.tree (names (absPath cwd root)) = .ok .dir) :
    (∃ fs, Reaches lib (absPath cwd root) data fs ∧ fs ≠ [] ∧
      apply lib cwd root data d = applyAll (absPath cwd root) fs d) ∨ (∀ fs, Reaches lib (absPath cwd root) data fs →
      fs = []) ∧ ∃ e, apply lib cwd root data d = (.error e, d) := by
  unfold apply
  cases parsed : parse lib data with
  | error e => exact .inr ⟨fun fs h => by simp [Reaches, parsed] at h, e, rfl⟩
  | ok p =>
    by_cases takes : Os.Takes (names (absPath cwd root))
    · have there : Os.stat d.tree (absPath cwd root) = .ok .dir := by rw [Os.stat, Os.call, if_pos takes, dir]; rfl
      simp only [there]
      cases collected : collectApply data with
      | error e => exact .inr ⟨fun fs h => by simp [Reaches, collected] at h, e, rfl⟩
      | ok fs =>
        dsimp only
        by_cases none : fs = []
        · rw [if_pos none]
          refine .inr ⟨fun fs' h => ?_, _, rfl⟩
          rw [← Except.ok.inj (collected.symm.trans h.2.2), none]
        · rw [if_neg none]
          exact .inl ⟨fs, ⟨⟨p, parsed⟩, takes, collected⟩, none, rfl⟩
    · obtain ⟨e, lost⟩ : ∃ e, Os.stat d.tree (absPath cwd root) = .error e := by
        rw [Os.stat, Os.call, if_neg takes]
        exact ⟨_, rfl⟩
      simp only [lost]
      exact .inr ⟨fun fs h => absurd h.2.1 takes, _, rfl⟩

/-- `Apply` stays below its directory exactly if the deepest directory on the way to each file lies there when its
    turn comes. -/
theorem apply_under_iff (lib : Lib) {cwd : String} (rooted : hasPrefix cwd "/" = true) (root : String)
    (data : List UInt8)
    (tree : Files.Tree (List UInt8)) {R : Loc} (dir : dirAt tree (names (absPath cwd root)) = some R) :
    (∀ loc ∈ (apply lib cwd root data { tree }).2.touched, Under R loc) ↔
      ∀ fs, Reaches lib (absPath cwd root) data fs → Confined R (absPath cwd root) fs { tree } := by
  have none : ∀ loc ∈ ({ tree } : Disk).touched, Under R loc := fun loc hl => absurd hl List.not_mem_nil
  have rooted := (absolute_absPath rooted root).rooted
  rcases apply_cases lib cwd root data (d := { tree }) (Files.stat_eq_dir.mpr ⟨R, dir⟩) with ⟨fs, reaches, -,
    run⟩ | ⟨no, e, run⟩
  · rw [run, applyAll_under_iff rooted (canonical_of_collectApply reaches.2.2) none]
    constructor
    · intro confined fs' reaches'
      rwa [← Except.ok.inj (reaches.2.2.symm.trans reaches'.2.2)]
    · intro all
      exact all fs reaches
  · rw [run]
    refine iff_of_true none fun fs reaches => ?_
    rw [no fs reaches]
    trivial

namespace Sample

def addBelow : List UInt8 := bytes
    "diff --git a/d/x b/d/x\nnew file mode 100644\n--- /dev/null\n+++ b/d/x\n@@ -0,0 +1 @@\n+x\n"

def linked : Files.Tree (List UInt8) := ((app ['a', '\n']).put ["out"] .dir).put ["app", "d"] (.link true ["out"])

end Sample

theorem apply_under_fresh :
    (apply Lib.plain "/" "app" Sample.addBelow { tree := Sample.app ['a', '\n'] }).2.touched = [["app", "d"],
      ["app", "d", "x"]] ∧
    ∀ fs, Reaches Lib.plain "/app" Sample.addBelow fs →
      Confined ["app"] "/app" fs { tree := Sample.app ['a', '\n'] } := by
  have touched : (apply Lib.plain "/" "app" Sample.addBelow { tree := Sample.app ['a', '\n'] }).2.touched =
    [["app", "d"], ["app", "d", "x"]] := by
    decide +kernel
  refine ⟨touched, (@apply_under_iff Lib.plain "/" (by decide) "app" Sample.addBelow (Sample.app ['a', '\n']) ["app"]
    (by decide +kernel)).mp ?_⟩
  rw [touched]
  decide

/-- A file that is added behind a link is outside. -/
theorem apply_outside : dirAt Sample.linked (names (absPath "/" "app")) = some ["app"] ∧
    (apply Lib.plain "/" "app" Sample.addBelow { tree := Sample.linked }).1 = .ok () ∧
    (apply Lib.plain "/" "app" Sample.addBelow { tree := Sample.linked }).2.touched = [["out", "x"]] ∧
      ¬Under ["app"] ["out", "x"] := by
  decide +kernel

end Aquila.Diff

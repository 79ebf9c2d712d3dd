import Mathlib.Data.List.Dedup
import Mathlib.Data.List.Induction
import Mathlib.Data.String.Basic
import Aquila.Analyze
import Aquila.Lib.Fold
import Aquila.Lib.Lists
import Aquila.Net

/-! What `Classify` says of the files of a diff after `Analyze`, also where the limit on findings dropped some. -/

namespace Aquila.Impact
open Source (Node)
variable {g : Source.Snapshot} {x : Finding} {d : Diff} {p : String} {f : Diff.File} {rep : Report}

/-! ### Extents -/

/-- The function `fn'` comes after `fn` in its file. -/
def Follows (fn fn' : Node) : Prop := fn.line < fn'.line ∨ fn.line = fn'.line ∧ fn.id < fn'.id

/-- The line lies in the extent of the function: up to its end line, or before the next function of the file if its end
    line is not known. -/
def Inside (g : Source.Snapshot) (fn : Node) (ln : Int) : Prop :=
  fn.line ≤ ln ∧ if closed fn then ln ≤ fn.endLine
    else ∀ fn' ∈ g.nodes, fn'.kind = .function → fn'.file = fn.file → Follows fn fn' → ln < fn'.line

theorem mem_funcs {path : String} {fn : Node} :
    fn ∈ funcs g path ↔ fn ∈ g.nodes ∧ fn.kind = .function ∧ fn.file ≠ "" ∧ fn.file = path := by
  rw [funcs, List.mem_insertionSort, Locate.funcs, List.mem_filter]
  simp [and_assoc]

theorem funcs_sorted (g : Source.Snapshot) (path : String) :
    (funcs g path).Pairwise fun a b => a.line < b.line ∨ a.line = b.line ∧ a.id ≤ b.id :=
  Lists.pairwise_insertionSort_lex Node.line Node.id _

theorem mem_funcSpans {fn : Node} {stop : Int} :
    ∀ {l : List Node}, (fn, stop) ∈ funcSpans l → ∃ before rest, l = before ++ fn :: rest ∧ stop = spanEnd fn rest
  | [], h => nomatch h
  | x :: l, h => by
    rcases List.mem_cons.mp h with same | later
    · obtain ⟨rfl, rfl⟩ := Prod.mk.inj same
      exact ⟨[], l, rfl, rfl⟩
    · obtain ⟨before, rest, rfl, stops⟩ := mem_funcSpans later
      exact ⟨x :: before, rest, rfl, stops⟩

theorem int64_le {x : Int} (h : 0 ≤ x) : int64 x ≤ x := by
  unfold int64
  omega

theorem hitOf_some {l : List Node} {ln : Int} {fn : Node} (h : hitOf (funcSpans l) ln = some fn) :
    ∃ before rest, l = before ++ fn :: rest ∧ fn.line ≤ ln ∧ ln < spanEnd fn rest := by
  obtain ⟨⟨x, stop⟩, found, same⟩ := Option.map_eq_some_iff.mp h
  obtain rfl : x = fn := same
  have within := List.find?_some found
  obtain ⟨before, rest, split, rfl⟩ := mem_funcSpans (List.mem_of_find?_eq_some found)
  exact ⟨before, rest, split, by simpa using within⟩

theorem hitOf_inside {path : String} {ln : Int} {x : Node}
    (h : hitOf (funcSpans (funcs g path)) ln = some x) : x ∈ funcs g path ∧ Inside g x ln := by
  obtain ⟨before, rest, split, start, upto⟩ := hitOf_some h
  have listed : x ∈ funcs g path := by rw [split]; simp
  refine ⟨listed, start, ?_⟩
  unfold spanEnd at upto
  split_ifs at upto ⊢ with known
  · have positive : 0 < x.endLine := by simp [closed] at known; exact known.2
    have := int64_le (x := x.endLine + 1) (by omega)
    omega
  · intro fn' hfn' function file follows
    have sorted := funcs_sorted g path
    have listed' : fn' ∈ funcs g path := by
      obtain ⟨_, _, named, same⟩ := mem_funcs.mp listed
      exact mem_funcs.mpr ⟨hfn', function, file ▸ named, file.trans same⟩
    rw [split] at sorted listed'
    obtain ⟨_, tail, across⟩ := List.pairwise_append.mp sorted
    -- The function does not stand before this one, and those after it begin after the line.
    rcases List.mem_append.mp listed' with earlier | later
    · have le := across fn' earlier x List.mem_cons_self
      rcases follows with lt | ⟨eq, lt⟩ <;> rcases le with lt' | ⟨eq', le⟩
      · omega
      · omega
      · omega
      · exact absurd le (not_le_of_gt lt)
    · rcases List.mem_cons.mp later with rfl | later
      · rcases follows with lt | ⟨_, lt⟩
        · omega
        · exact absurd lt (lt_irrefl _)
      · cases rest with
        | nil => exact nomatch later
        | cons next rest =>
          have order := (List.pairwise_cons.mp (List.pairwise_cons.mp tail).2).1
          rcases List.mem_cons.mp later with rfl | later
          · exact upto
          · rcases order fn' later with lt | ⟨eq, _⟩
            · exact lt_trans upto lt
            · exact eq ▸ upto

/-! ### Hits -/

theorem overlappingFuncs_append (fns : List Node) (lines : List Int) (ln : Int) :
    overlappingFuncs fns (lines ++ [ln]) =
      match hitOf (funcSpans fns) ln with
      | none => ((overlappingFuncs fns lines).1, true)
      | some fn =>
        (if fn.id ∈ (overlappingFuncs fns lines).1.map (·.1.id) then (overlappingFuncs fns lines).1
         else (overlappingFuncs fns lines).1 ++ [(fn, ln)], (overlappingFuncs fns lines).2) := by
  rw [overlappingFuncs, List.foldl_append]
  rfl

theorem mem_hits {fns : List Node} {lines : List Int} {h : Node × Int} (hit : h ∈ (overlappingFuncs fns lines).1) :
    h.2 ∈ lines ∧ hitOf (funcSpans fns) h.2 = some h.1 := by
  induction lines using List.reverseRecOn with
  | nil => exact nomatch hit
  | append_singleton lines ln ih =>
    rw [overlappingFuncs_append] at hit
    have old : h ∈ (overlappingFuncs fns lines).1 → h.2 ∈ lines ++ [ln] ∧ hitOf (funcSpans fns) h.2 = some h.1 :=
      fun hit => ⟨List.mem_append_left _ (ih hit).1, (ih hit).2⟩
    cases found : hitOf (funcSpans fns) ln with
    | none => rw [found] at hit; exact old hit
    | some fn =>
      rw [found] at hit
      dsimp only at hit
      split_ifs at hit
      · exact old hit
      · rcases List.mem_append.mp hit with hit | new
        · exact old hit
        · obtain rfl := List.mem_singleton.mp new
          exact ⟨List.mem_append_right _ (List.mem_singleton_self ln), found⟩

theorem id_mem_hits {fns : List Node} {lines : List Int} {ln : Int} {fn : Node} (hln : ln ∈ lines)
    (found : hitOf (funcSpans fns) ln = some fn) : fn.id ∈ (overlappingFuncs fns lines).1.map (·.1.id) := by
  induction lines using List.reverseRecOn with
  | nil => exact nomatch hln
  | append_singleton lines ln' ih =>
    rw [overlappingFuncs_append]
    rcases List.mem_append.mp hln with old | new
    · have kept := ih old
      cases hitOf (funcSpans fns) ln' with
      | none => exact kept
      | some fn' =>
        dsimp only
        split_ifs
        · exact kept
        · rw [List.map_append]
          exact List.mem_append_left _ kept
    · rw [← List.mem_singleton.mp new, found]
      dsimp only
      split_ifs with seen
      · exact seen
      · simp

theorem outside_iff {fns : List Node} {lines : List Int} :
    (overlappingFuncs fns lines).2 = true ↔ ∃ ln ∈ lines, hitOf (funcSpans fns) ln = none := by
  induction lines using List.reverseRecOn with
  | nil => simp [overlappingFuncs]
  | append_singleton lines ln ih =>
    rw [overlappingFuncs_append]
    cases found : hitOf (funcSpans fns) ln with
    | none => exact iff_of_true rfl ⟨ln, List.mem_append_right _ (List.mem_singleton_self ln), found⟩
    | some fn =>
      dsimp only
      rw [ih]
      constructor
      · rintro ⟨x, hx, none⟩
        exact ⟨x, List.mem_append_left _ hx, none⟩
      · rintro ⟨x, hx, none⟩
        rcases List.mem_append.mp hx with old | new
        · exact ⟨x, old, none⟩
        · rw [List.mem_singleton.mp new, found] at none
          exact nomatch none

/-! ### Findings -/

theorem foldl_appendFinding (fs dst : List Finding) :
    fs.foldl appendFinding dst = dst ++ fs.take (maxFindings - dst.length) :=
  Fold.capped (fun _ _ => rfl) fs dst

theorem mem_foldl_addNew {α : Type} [DecidableEq α] {a : α} :
    ∀ {l s : List α}, a ∈ l.foldl addNew s ↔ a ∈ s ∨ a ∈ l
  | [], s => by simp
  | x :: l, s => by
    rw [List.foldl_cons, mem_foldl_addNew, addNew]
    split_ifs with seen
    · have : a = x → a ∈ s := fun h => h ▸ seen
      rw [List.mem_cons]
      tauto
    · rw [List.mem_append, List.mem_singleton, List.mem_cons, or_assoc]

/-- The functions that the changed lines of a file are given to. -/
def hits (g : Source.Snapshot) (f : Diff.File) : List (Node × Int) :=
  if (fileNode g f.path).isSome ∧ f.binary = false then (overlappingFuncs (funcs g f.path) f.lines).1 else []

/-- The direct findings of a file. -/
def fileFindings (g : Source.Snapshot) (f : Diff.File) : List Finding :=
  match fileNode g f.path with
  | none => []
  | some node =>
    if f.binary then [fileFinding node f.path "binary"]
    else
      (if (overlappingFuncs (funcs g f.path) f.lines).2 then [fileFinding node f.path "changed_outside_func"]
        else []) ++
      (if hits g f = [] then [fileFinding node f.path "changed_file"] else (hits g f).map hitFinding)

theorem foldl_hits (hs : List (Node × Int)) (out : Changed) :
    hs.foldl (fun out h =>
      { out with directID := addNew out.directID h.1.id, direct := appendFinding out.direct (hitFinding h) }) out =
      { out with directID := (hs.map (·.1.id)).foldl addNew out.directID, direct := (hs.map
        hitFinding).foldl appendFinding out.direct } := by
  induction hs generalizing out with
  | nil => rfl
  | cons h hs ih =>
    rw [List.foldl_cons, ih]
    rfl

theorem changedFile_eq (g : Source.Snapshot) (out : Changed) (f : Diff.File) :
    (changedFile g out f).files = addNew out.files f.path ∧
      (changedFile g out f).direct = (fileFindings g f).foldl appendFinding out.direct ∧
      (changedFile g out f).directID = ((hits g f).map (·.1.id)).foldl addNew out.directID := by
  unfold changedFile fileFindings hits
  cases known : fileNode g f.path with
  | none => exact ⟨rfl, rfl, rfl⟩
  | some node =>
    cases f.binary with
    | true => exact ⟨rfl, rfl, rfl⟩
    | false =>
      dsimp only [Option.isSome_some, and_self, if_true, Bool.false_eq_true, if_false]
      cases (overlappingFuncs (funcs g f.path) f.lines).2 <;>
        by_cases none : (overlappingFuncs (funcs g f.path) f.lines).1 = []
      all_goals simp [none, foldl_hits]

theorem foldl_changedFile (g : Source.Snapshot) (files : List Diff.File) (out : Changed) :
    (files.foldl (changedFile g) out).files = (files.map (·.path)).foldl addNew out.files ∧
      (files.foldl (changedFile g) out).direct = (files.flatMap (fileFindings g)).foldl appendFinding out.direct ∧
      (files.foldl (changedFile g) out).directID =
        (files.flatMap fun f => (hits g f).map (·.1.id)).foldl addNew out.directID := by
  induction files generalizing out with
  | nil => exact ⟨rfl, rfl, rfl⟩
  | cons f files ih =>
    obtain ⟨paths, findings, ids⟩ := changedFile_eq g out f
    obtain ⟨paths', findings', ids'⟩ := ih (changedFile g out f)
    rw [List.foldl_cons, paths', findings', ids', paths, findings, ids, List.flatMap_cons, List.flatMap_cons,
      List.foldl_append, List.foldl_append]
    exact ⟨rfl, rfl, rfl⟩

theorem mem_changed_files :
    p ∈ (changedFiles g d).files ↔ p ∈ d.files.map (·.path) := by
  rw [changedFiles, (foldl_changedFile g d.files {}).1, mem_foldl_addNew]
  simp

theorem changed_direct (g : Source.Snapshot) (d : Diff) :
    (changedFiles g d).direct = (d.files.flatMap (fileFindings g)).take maxFindings := by
  rw [changedFiles, (foldl_changedFile g d.files {}).2.1, foldl_appendFinding]
  simp

theorem mem_changed_ids {id : String} :
    id ∈ (changedFiles g d).directID ↔ ∃ f ∈ d.files, ∃ h ∈ hits g f, h.1.id = id := by
  rw [changedFiles, (foldl_changedFile g d.files {}).2.2, mem_foldl_addNew]
  simp

/-! ### Classification -/

theorem mem_analyze_files {lib : Lib} {loc : Locate.Snapshot} {rt : Graph.Snapshot} :
    p ∈ (analyze lib (some g) d loc rt).files ↔ p ∈ d.files.map (·.path) := by
  unfold analyze
  rw [List.mem_insertionSort, mem_changed_files]

theorem analyze_direct_perm (lib : Lib) (g : Source.Snapshot) (d : Diff) (loc : Locate.Snapshot) (rt : Graph.Snapshot) :
    (analyze lib (some g) d loc rt).direct.Perm ((d.files.flatMap (fileFindings g)).take maxFindings) := by
  rw [← changed_direct]
  exact List.perm_insertionSort _ _

theorem mem_hits_of_file {h : Node × Int} (hit : h ∈ hits g f) :
    h.1 ∈ funcs g f.path ∧ h.2 ∈ f.lines ∧ Inside g h.1 h.2 := by
  unfold hits at hit
  split_ifs at hit
  · obtain ⟨line, found⟩ := mem_hits hit
    exact ⟨(hitOf_inside found).1, line, (hitOf_inside found).2⟩
  · exact nomatch hit

theorem file_of_mem_fileFindings (h : x ∈ fileFindings g f) :
    x.file = f.path := by
  unfold fileFindings at h
  split at h
  · exact nomatch h
  · split_ifs at h
    · rw [List.mem_singleton.mp h]; rfl
    · simp only [List.mem_append, List.mem_singleton] at h
      rcases h with rfl | rfl <;> rfl
    · rcases List.mem_append.mp h with h | h
      · rw [List.mem_singleton.mp h]; rfl
      · obtain ⟨hit, listed, rfl⟩ := List.mem_map.mp h
        exact (mem_funcs.mp (mem_hits_of_file listed).1).2.2.2
    · rw [List.nil_append, List.mem_singleton] at h
      rw [h]; rfl
    · obtain ⟨hit, listed, rfl⟩ := List.mem_map.mp h
      exact (mem_funcs.mp (mem_hits_of_file listed).1).2.2.2

/-- The findings of a file that the limit leaves are its first ones. -/
theorem take_findings_of_file {files : List Diff.File} (distinct : (files.map (·.path)).Nodup)
    (hf : f ∈ files) (n : Nat) :
    ∃ k, ((files.flatMap (fileFindings g)).take n).filter (·.file = f.path) = (fileFindings g f).take k := by
  obtain ⟨before, after, rfl⟩ := List.append_of_mem hf
  have apart : ∀ f' ∈ before ++ after, f'.path ≠ f.path := by
    rw [List.map_append, List.map_cons] at distinct
    have fresh := (List.nodup_middle.mp distinct)
    intro f' hf' same
    exact (List.nodup_cons.mp fresh).1 (by rw [← List.map_append, ← same]; exact List.mem_map_of_mem hf')
  have others : ∀ {l : List Diff.File} {m : Nat}, (∀ f' ∈ l, f'.path ≠ f.path) →
      ((l.flatMap (fileFindings g)).take m).filter (·.file = f.path) = [] := by
    intro l m apart
    rw [List.filter_eq_nil_iff]
    intro x hx same
    obtain ⟨f', hf', hx⟩ := List.mem_flatMap.mp (List.mem_of_mem_take hx)
    exact apart f' hf' ((file_of_mem_fileFindings hx).symm.trans (by simpa using same))
  have own : ∀ m, ((fileFindings g f).take m).filter (·.file = f.path) = (fileFindings g f).take m := by
    intro m
    rw [List.filter_eq_self]
    intro x hx
    simpa using file_of_mem_fileFindings (List.mem_of_mem_take hx)
  refine ⟨n - (before.flatMap (fileFindings g)).length, ?_⟩
  rw [List.flatMap_append, List.flatMap_cons, List.take_append, List.take_append, List.filter_append,
    List.filter_append, others fun f' h => apart f' (List.mem_append_left _ h),
      others fun f' h => apart f' (List.mem_append_right _ h), own,
    List.nil_append, List.append_nil]

/-- A file of the diff whose changes all lie in functions. -/
structure Analyzed (g : Source.Snapshot) (f : Diff.File) : Prop where
  text : f.binary = false
  changed : f.lines ≠ []
  known : ∃ n ∈ g.nodes, n.kind = .file ∧ n.file = f.path
  inside : ∀ ln ∈ f.lines, ∃ fn ∈ g.nodes, fn.kind = .function ∧ fn.file = f.path ∧ Inside g fn ln

theorem analyzed_of_head (first : (fileFindings g f).head? = some x)
    (lines : x.reason = "changed_lines") : Analyzed g f := by
  unfold fileFindings at first
  split at first
  · exact nomatch first
  · rename_i node known
    have whole : ∀ reason, some (fileFinding node f.path reason) = some x → reason = "changed_lines" := by
      intro reason same
      rw [← Option.some.inj same] at lines
      exact lines
    split_ifs at first with binary outside
    · exact absurd (whole _ first) (by simp)
    · exact absurd (whole _ first) (by simp)
    · exact absurd (whole _ first) (by simp)
    · exact absurd (whole _ first) (by simp)
    · rename_i hit
      have text : f.binary = false := by simpa using binary
      have found := List.find?_some known
      have listed := List.mem_of_find?_eq_some known
      refine ⟨text, ?_, ⟨node, List.mem_reverse.mp listed, ?_⟩, fun ln hln => ?_⟩
      · intro empty
        exact hit (by rw [hits, empty]; simp [overlappingFuncs])
      · simp only [Bool.and_eq_true, decide_eq_true_eq] at found
        exact ⟨found.1.1, found.2⟩
      · cases hit : hitOf (funcSpans (funcs g f.path)) ln with
        | none => exact absurd (outside_iff.mpr ⟨ln, hln, hit⟩) outside
        | some fn =>
          obtain ⟨member, inside⟩ := hitOf_inside hit
          obtain ⟨listed, function, _, path⟩ := mem_funcs.mp member
          exact ⟨fn, listed, function, path, inside⟩

theorem bound_of_mem_fileFindings (h : x ∈ fileFindings g f)
    (lines : x.reason = "changed_lines") : ∃ hit ∈ hits g f, x = hitFinding hit := by
  unfold fileFindings at h
  split at h
  · exact nomatch h
  · rename_i node known
    have whole : ∀ reason, x = fileFinding node f.path reason → reason = "changed_lines" := by
      rintro reason rfl
      exact lines
    split_ifs at h
    · exact absurd (whole _ (List.mem_singleton.mp h)) (by simp)
    · simp only [List.mem_append, List.mem_singleton] at h
      rcases h with h | h <;> exact absurd (whole _ h) (by simp)
    · rcases List.mem_append.mp h with h | h
      · exact absurd (whole _ (List.mem_singleton.mp h)) (by simp)
      · obtain ⟨hit, listed, rfl⟩ := List.mem_map.mp h
        exact ⟨hit, listed, rfl⟩
    · rw [List.nil_append] at h
      exact absurd (whole _ (List.mem_singleton.mp h)) (by simp)
    · obtain ⟨hit, listed, rfl⟩ := List.mem_map.mp h
      exact ⟨hit, listed, rfl⟩

theorem boundIDs_eq_some {ids : List String} (h : boundIDs rep p = some ids) :
    rep.direct.filter (·.file = p) ≠ [] ∧ (∀ x ∈ rep.direct, x.file = p → x.reason = "changed_lines") ∧
      ids = (rep.direct.filter (·.file = p)).map (·.sourceID) := by
  unfold boundIDs at h
  dsimp only at h
  split_ifs at h with bad
  obtain ⟨nonempty, all⟩ := not_or.mp bad
  refine ⟨nonempty, fun x hx file => ?_, (Option.some.inj h).symm⟩
  by_contra reason
  exact all (List.any_eq_true.mpr ⟨x, List.mem_filter.mpr ⟨hx, by simpa using file⟩, by simp [reason]⟩)

theorem mem_unanalyzed :
    p ∈ (classify rep).unanalyzed ↔ p ∈ rep.files ∧ inert p = false ∧ boundIDs rep p = none := by
  unfold classify
  rw [List.mem_insertionSort, List.mem_dedup, List.mem_filter, List.mem_filter]
  simp [and_assoc]

theorem mem_bound {id : String} (h : id ∈ (classify rep).bound) :
    ∃ x ∈ rep.direct, x.reason = "changed_lines" ∧ x.sourceID = id := by
  unfold classify at h
  rw [List.mem_insertionSort, List.mem_dedup] at h
  obtain ⟨p, _, h⟩ := List.mem_flatMap.mp h
  cases bound : boundIDs rep p with
  | none => rw [bound] at h; exact nomatch h
  | some ids =>
    rw [bound] at h
    obtain ⟨_, lines, rfl⟩ := boundIDs_eq_some bound
    obtain ⟨x, hx, rfl⟩ := List.mem_map.mp h
    obtain ⟨listed, file⟩ := List.mem_filter.mp hx
    exact ⟨x, listed, lines x listed (by simpa using file), rfl⟩

/-- Every file of the diff is inert, listed as unanalyzed, or has all its changed lines in functions, and only functions
    with changed lines are bound. -/
theorem classify_sound (lib : Lib) (g : Source.Snapshot) (d : Diff) (loc : Locate.Snapshot) (rt : Graph.Snapshot)
    (distinct : (d.files.map (·.path)).Nodup) :
    (∀ f ∈ d.files, inert f.path = true ∨ f.path ∈ (classify (analyze lib (some g) d loc rt)).unanalyzed ∨
      Analyzed g f) ∧ ∀ id ∈ (classify (analyze lib (some g) d loc rt)).bound,
      ∃ fn ∈ g.nodes, fn.kind = .function ∧ fn.id = id ∧
        ∃ f ∈ d.files, fn.file = f.path ∧ ∃ ln ∈ f.lines, Inside g fn ln := by
  have perm := analyze_direct_perm lib g d loc rt
  constructor
  · intro f hf
    rcases Bool.eq_false_or_eq_true (inert f.path) with inert | active
    · exact .inl inert
    · refine .inr ?_
      cases bound : boundIDs (analyze lib (some g) d loc rt) f.path with
      | none => exact .inl (mem_unanalyzed.mpr ⟨mem_analyze_files.mpr (List.mem_map_of_mem hf), active, bound⟩)
      | some ids =>
        refine .inr ?_
        obtain ⟨nonempty, lines, _⟩ := boundIDs_eq_some bound
        obtain ⟨k, kept⟩ := take_findings_of_file (g := g) distinct hf maxFindings
        have same := perm.filter (·.file = f.path)
        rw [kept] at same
        -- A finding that is left is there together with the file's first one.
        cases first : (fileFindings g f).head? with
        | none =>
          rw [List.head?_eq_none_iff.mp first, List.take_nil] at same
          exact absurd same.eq_nil nonempty
        | some x =>
          obtain ⟨rest, all⟩ := List.head?_eq_some_iff.mp first
          have listed : x ∈ (fileFindings g f).take k := by
            cases k with
            | zero => rw [List.take_zero] at same; exact absurd same.eq_nil nonempty
            | succ k => rw [all, List.take_succ_cons]; exact List.mem_cons_self
          obtain ⟨listed, file⟩ := List.mem_filter.mp (same.mem_iff.mpr listed)
          exact analyzed_of_head first (lines x listed (by simpa using file))
  · intro id hid
    obtain ⟨x, hx, lines, rfl⟩ := mem_bound hid
    obtain ⟨f, hf, hx⟩ := List.mem_flatMap.mp (List.mem_of_mem_take (perm.mem_iff.mp hx))
    obtain ⟨hit, listed, rfl⟩ := bound_of_mem_fileFindings hx lines
    obtain ⟨member, line, inside⟩ := mem_hits_of_file listed
    obtain ⟨node, function, _, path⟩ := mem_funcs.mp member
    exact ⟨hit.1, node, function, rfl, f, hf, path, hit.2, line, inside⟩

namespace Sample

def graph : Source.Snapshot :=
  { module := "m"
    nodes := [{ id := "file:a.go", kind := .file, name := "a.go", pkg := "m", file := "a.go" },
      { id := "func:m.load", kind := .function, name := "load", pkg := "m", file := "a.go", line := 3, endLine := 5 },
      { id := "func:m.serve", kind := .function, name := "serve", pkg := "m", file := "a.go", line := 7, endLine := 9 }]
    edges := [{ src := "func:m.serve", dst := "func:m.load", kind := .calls, provenance := .types }] }

def diff : Diff := { files := [{ path := "a.go", lines := [4] }] }

end Sample

theorem classify_sound_sample :
    (Sample.diff.files.map (·.path)).Nodup ∧
      classify (analyze Lib.plain (some Sample.graph) Sample.diff {} {}) =
      { bound := ["func:m.load"], unanalyzed := [] } ∧
      (∀ f ∈ Sample.diff.files, inert f.path = true ∨
        f.path ∈ (classify (analyze Lib.plain (some Sample.graph) Sample.diff {} {})).unanalyzed ∨
          Analyzed Sample.graph f) ∧
      ∀ id ∈ (classify (analyze Lib.plain (some Sample.graph) Sample.diff {} {})).bound,
        ∃ fn ∈ Sample.graph.nodes, fn.kind = .function ∧ fn.id = id ∧
          ∃ f ∈ Sample.diff.files, fn.file = f.path ∧ ∃ ln ∈ f.lines, Inside Sample.graph fn ln :=
  ⟨by decide, by decide +kernel, classify_sound Lib.plain Sample.graph Sample.diff {} {} (by decide)⟩

end Aquila.Impact

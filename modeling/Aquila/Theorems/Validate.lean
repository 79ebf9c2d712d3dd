import Mathlib.Data.List.Dedup
import Mathlib.Data.String.Basic
import Aquila.Lib.Lists
import Aquila.Validate

/-! The validation policy: `Decide` validates exactly when every requirement of the policy is met. -/

namespace Aquila.Validate
open Replay (verdictMatch shifted)
open Plan (kindEnv kindBehavior kindLatency kindConcurrency kindTests verdictSamples verdictPrepared)

/-! ### The requirements -/

/-- The verdicts that a step of each kind may have. -/
def acceptedVerdicts (kind : String) : List String :=
  if kind = kindEnv ∨ kind = kindTests then [verdictPrepared]
  else if kind = kindBehavior ∨ kind = kindConcurrency then [verdictMatch]
  else if kind = kindLatency then [verdictSamples]
  else [verdictMatch, verdictSamples, verdictPrepared]

/-- The kind has a result with an accepted verdict. -/
def Accepted (lib : Lib) (res : Plan.Evidence) (kind : String) : Prop :=
  ∃ s ∈ res.steps, s.kind = kind ∧ lib.toLower (trimSpace s.verdict) ∈ acceptedVerdicts kind

/-- Enough samples on both sides of every row, and no row shifted. -/
structure Steady (rows : List Replay.StepLatency) : Prop where
  rows_ne : rows ≠ []
  samples : ∀ row ∈ rows, minLatencyN ≤ row.baseline.n ∧ minLatencyN ≤ row.patch.n
  unshifted : ∀ row ∈ rows, shifted row = false

/-- A workload request hits the route, and a compared request of the same method and path was answered by a
    handler on both sides. -/
def Exercised (lib : Lib) (work : List Replay.Step) (res : Plan.Evidence) (route : String) : Prop :=
  ∃ st ∈ work, Impact.routeMatches lib route st.method st.path = true ∧
    ∃ s ∈ res.steps, s.kind = kindBehavior ∧
      ∃ d ∈ s.steps, d.method ++ " " ++ d.path = st.method ++ " " ++ st.path ∧
        d.baselineStatus ≠ 0 ∧ d.patchStatus ≠ 0 ∧ d.authRejected = false

/-- What the policy requires of the executed evidence and of the change. -/
structure Validates (lib : Lib) (i : Input) : Prop where
  clean : i.baselineRev.dirty = false
  built : ∀ rev ∈ [i.baselineRev, i.patchRev], rev.tree ≠ "" ∧ rev.source = sourceBuilt
  trees : i.baselineRev.tree ≠ i.patchRev.tree
  present : ∀ target ∈ [i.baseline, i.patch], trimSpace target ≠ ""
  distinct : normURL lib i.baseline ≠ normURL lib i.patch
  overall : lib.toLower (trimSpace i.result.overall) = verdictMatch
  plannedOnce : (i.plan.steps.map (·.kind)).Nodup
  executedOnce : (i.result.steps.map (·.kind)).Nodup
  core : ∀ kind ∈ coreKinds, Accepted lib i.result kind
  latency : ∀ s ∈ i.result.steps, s.kind = kindLatency → Steady s.latency
  required : ∀ s ∈ i.plan.steps, s.required = true → s.operator = false → Accepted lib i.result s.kind
  analyzed : i.changes.unanalyzed = []
  bound : i.changes.bound ≠ []
  impacted : i.impacted ≠ []
  exercised : ∀ route ∈ i.impacted, Exercised lib i.workload i.result route

/-! ### Sorted blockers -/

theorem Blocker.le_antisymm {a b : Blocker} (h : a.le b) (h' : b.le a) : a = b := by
  have both : a.subject = b.subject ∧ a.code = b.code := by
    rcases h with lt | ⟨subject, code⟩ <;> rcases h' with lt' | ⟨subject', code'⟩
    · exact absurd lt (not_lt_of_gt lt')
    · exact absurd (subject' ▸ lt) (lt_irrefl _)
    · exact absurd (subject ▸ lt') (lt_irrefl _)
    · exact ⟨subject, String.le_antisymm code code'⟩
  cases a
  cases b
  simpa [and_comm] using both

theorem eq_sortedBlockers {bs out : List Blocker} (perm : out.Perm bs) (sorted : out.Pairwise Blocker.le) :
    out = sortedBlockers bs :=
  (perm.trans (List.perm_insertionSort _ bs).symm).eq_of_pairwise (fun _ _ _ _ => Blocker.le_antisymm) sorted
    (Lists.pairwise_insertionSort_lex Blocker.subject Blocker.code bs)

/-! ### Each pass -/

@[simp] theorem blockIf_eq_nil (c : Prop) [Decidable c] (b : Blocker) : blockIf c b = [] ↔ ¬c := by
  simp [blockIf]

@[simp] theorem sortedBlockers_eq_nil (bs : List Blocker) : sortedBlockers bs = [] ↔ bs = [] := by
  rw [← List.length_eq_zero_iff, ← List.length_eq_zero_iff, sortedBlockers, List.length_insertionSort]

theorem trimSpace_empty : trimSpace "" = "" := rfl

theorem targetBlockers_eq_nil (lib : Lib) (i : Input) :
    targetBlockers lib i = [] ↔
      trimSpace i.baseline ≠ "" ∧ trimSpace i.patch ≠ "" ∧ normURL lib i.baseline ≠ normURL lib i.patch := by
  have nonempty : ∀ s, trimSpace s ≠ "" → s ≠ "" := fun s h e => h (e ▸ trimSpace_empty)
  simp only [targetBlockers, sortedBlockers_eq_nil, List.append_eq_nil_iff, blockIf_eq_nil, and_assoc]
  refine and_congr_right fun hb => and_congr_right fun hp => ?_
  simp [nonempty _ hb, nonempty _ hp]

theorem duplicateBlockers_eq_nil (i : Input) :
    duplicateBlockers i = [] ↔ (i.plan.steps.map (·.kind)).Nodup ∧ (i.result.steps.map (·.kind)).Nodup := by
  simp only [duplicateBlockers, sortedBlockers_eq_nil, List.flatMap_eq_nil_iff, List.mem_dedup, blockIf_eq_nil,
    List.mem_append, not_or, not_lt]
  -- a kind that is in neither list has no count to bound
  constructor
  · intro h
    refine ⟨List.nodup_iff_count_le_one.mpr fun k => ?_, List.nodup_iff_count_le_one.mpr fun k => ?_⟩
    · by_cases hk : k ∈ i.plan.steps.map (·.kind)
      · exact (h k (.inl hk)).1
      · simp [List.count_eq_zero_of_not_mem hk]
    · by_cases hk : k ∈ i.result.steps.map (·.kind)
      · exact (h k (.inr hk)).2
      · simp [List.count_eq_zero_of_not_mem hk]
  · rintro ⟨planned, executed⟩ k -
    exact ⟨List.nodup_iff_count_le_one.mp planned k, List.nodup_iff_count_le_one.mp executed k⟩

theorem minLatencyN_le_latencyN (got : Plan.StepResult) :
    minLatencyN ≤ latencyN got ↔
      got.latency ≠ [] ∧ ∀ row ∈ got.latency, minLatencyN ≤ row.baseline.n ∧ minLatencyN ≤ row.patch.n := by
  unfold latencyN
  cases rows : (got.latency.map fun l => min l.baseline.n l.patch.n).min? with
  | none =>
    have empty : got.latency = [] := by simpa using rows
    simp [empty, minLatencyN]
  | some m =>
    obtain ⟨mem, least⟩ := List.min?_eq_some_iff.mp rows
    have nonempty : got.latency ≠ [] := by rintro e; simp [e] at mem
    simp only [Option.getD_some, nonempty, ne_eq, not_false_eq_true, true_and, ← le_min_iff]
    constructor
    · intro h row hr
      exact h.trans (least _ (List.mem_map_of_mem hr))
    · intro h
      obtain ⟨row, hr, rfl⟩ := List.mem_map.mp mem
      exact h row hr

theorem latencyBlockers_eq_nil (got : Plan.StepResult) : latencyBlockers got = [] ↔ Steady got.latency := by
  simp only [latencyBlockers, List.append_eq_nil_iff, blockIf_eq_nil, not_lt, minLatencyN_le_latencyN,
    List.map_eq_nil_iff, List.filter_eq_nil_iff]
  constructor
  · rintro ⟨⟨nonempty, samples⟩, unshifted⟩
    exact ⟨nonempty, samples, fun row hr => by simpa using unshifted row hr⟩
  · rintro ⟨nonempty, samples, unshifted⟩
    exact ⟨⟨nonempty, samples⟩, fun row hr => by simp [unshifted row hr]⟩

theorem stepOK_iff (lib : Lib) (kind : String) (got : Plan.StepResult) :
    stepOK lib kind got = true ↔
      lib.toLower (trimSpace got.verdict) ∈ acceptedVerdicts kind ∧ (kind = kindLatency → Steady got.latency) := by
  have latency_ne : kindLatency ≠ kindEnv ∧ kindLatency ≠ kindTests ∧ kindLatency ≠ kindBehavior ∧
      kindLatency ≠ kindConcurrency := by decide
  by_cases isLatency : kind = kindLatency
  · subst isLatency
    simp only [stepOK, acceptedVerdicts, latency_ne, or_self, if_false, if_true, forall_const, Bool.and_eq_true,
      decide_eq_true_eq, ge_iff_le, minLatencyN_le_latencyN, List.mem_singleton, and_assoc]
    refine and_congr_right fun _ => ⟨?_, ?_⟩
    · rintro ⟨nonempty, samples, unshifted⟩
      exact ⟨nonempty, samples, by simpa using unshifted⟩
    · rintro ⟨nonempty, samples, unshifted⟩
      exact ⟨nonempty, samples, by simpa using unshifted⟩
  · simp only [stepOK, acceptedVerdicts, isLatency, if_false, false_implies, and_true]
    split_ifs <;> simp

theorem stepBlockers_eq_nil (lib : Lib) (kinds : List String) (results : List Plan.StepResult) :
    stepBlockers lib kinds results = [] ↔
      ∀ kind ∈ kinds, (∃ s ∈ results, s.kind = kind) ∧
        ∀ s ∈ results, s.kind = kind → stepOK lib kind s = true := by
  simp only [stepBlockers, sortedBlockers_eq_nil, List.flatMap_eq_nil_iff, List.append_eq_nil_iff]
  refine forall₂_congr fun kind _ => ?_
  by_cases found : results.filter (·.kind = kind) = []
  · have absent : ¬∃ s ∈ results, s.kind = kind := by
      rintro ⟨s, hs, hk⟩
      simpa [hk] using List.filter_eq_nil_iff.mp found s hs
    simp [found, absent]
  · have present : ∃ s ∈ results, s.kind = kind := by
      obtain ⟨s, hs⟩ := List.exists_mem_of_ne_nil _ found
      exact ⟨s, by simpa using List.mem_filter.mp hs⟩
    simp only [found, if_false, blockIf_eq_nil, present, true_and, not_exists, not_and, List.mem_filter,
      decide_eq_true_eq, and_imp, Bool.not_eq_eq_eq_not, Bool.not_true, Bool.not_eq_false]
    refine and_iff_right_of_imp fun ok => ?_
    split_ifs with isLatency
    · refine List.flatMap_eq_nil_iff.mpr fun s hs => (latencyBlockers_eq_nil s).mpr ?_
      obtain ⟨hs, hk⟩ : s ∈ results ∧ s.kind = kind := by simpa using hs
      exact ((stepOK_iff lib kind s).mp (ok s hs hk)).2 isLatency
    · rfl

theorem accepted_iff (lib : Lib) (res : Plan.Evidence) (kind : String) (once : (res.steps.map (·.kind)).Nodup)
    (steady : ∀ s ∈ res.steps, s.kind = kindLatency → Steady s.latency) :
    Accepted lib res kind ↔
      (∃ s ∈ res.steps, s.kind = kind) ∧ ∀ s ∈ res.steps, s.kind = kind → stepOK lib kind s = true := by
  constructor
  · rintro ⟨s, hs, hk, verdict⟩
    refine ⟨⟨s, hs, hk⟩, fun t ht hkt => ?_⟩
    obtain rfl : t = s := List.inj_on_of_nodup_map once ht hs (hkt.trans hk.symm)
    exact (stepOK_iff lib kind t).mpr ⟨verdict, fun e => steady t ht (hk.trans e)⟩
  · rintro ⟨⟨s, hs, hk⟩, ok⟩
    exact ⟨s, hs, hk, ((stepOK_iff lib kind s).mp (ok s hs hk)).1⟩

theorem mem_requiredKinds (dag : Plan.DAG) (kind : String) :
    kind ∈ requiredKinds dag ↔
      kind ∉ coreKinds ∧ ∃ s ∈ dag.steps, s.required = true ∧ s.operator = false ∧ s.kind = kind := by
  simp only [requiredKinds, List.mem_reverse, List.mem_dedup, List.mem_map, List.mem_filter, Bool.and_eq_true,
    Bool.not_eq_eq_eq_not, Bool.not_true, decide_eq_true_eq]
  constructor
  · rintro ⟨s, ⟨hs, ⟨req, op⟩, core⟩, rfl⟩
    exact ⟨core, s, hs, req, op, rfl⟩
  · rintro ⟨core, s, hs, req, op, rfl⟩
    exact ⟨s, ⟨hs, ⟨req, op⟩, core⟩, rfl⟩

theorem changeBlockers_eq_nil (i : Input) :
    changeBlockers i = [] ↔ i.changes.unanalyzed = [] ∧ i.changes.bound ≠ [] ∧ i.impacted ≠ [] := by
  simp only [changeBlockers, sortedBlockers_eq_nil, List.append_eq_nil_iff, List.map_eq_nil_iff]
  refine and_congr_right fun _ => ?_
  split_ifs with unbound <;> simp [unbound]

theorem mem_answered (res : Plan.Evidence) (label : String) :
    label ∈ answered res ↔
      ∃ s ∈ res.steps, s.kind = kindBehavior ∧ ∃ d ∈ s.steps, d.method ++ " " ++ d.path = label ∧
        d.baselineStatus ≠ 0 ∧ d.patchStatus ≠ 0 ∧ d.authRejected = false := by
  simp only [answered, List.mem_flatMap, List.mem_map, List.mem_filter, decide_eq_true_eq, Bool.not_eq_eq_eq_not,
    Bool.not_true, Bool.or_eq_false_iff, decide_eq_false_iff_not, and_assoc]
  refine exists_congr fun s => and_congr_right fun _ => and_congr_right fun _ => exists_congr fun d => ?_
  tauto

theorem covered_iff (lib : Lib) (route : String) (work : List Replay.Step) (res : Plan.Evidence) :
    covered lib [route] work res = true ↔ Exercised lib work res route := by
  simp only [covered, List.any_eq_true, Bool.and_eq_true, decide_eq_true_eq, mem_answered, List.mem_singleton,
    exists_eq_left, Exercised]
  exact exists_congr fun st => and_congr_right fun _ => and_comm

theorem coverageBlockers_eq_nil (lib : Lib) (i : Input) :
    coverageBlockers lib i = [] ↔ ∀ route ∈ i.impacted, Exercised lib i.workload i.result route := by
  simp [coverageBlockers, List.filter_eq_nil_iff, covered_iff]

/-! ### The decision -/

theorem blockers_eq_nil_iff (lib : Lib) (i : Input) : blockers lib i = [] ↔ Validates lib i := by
  simp only [blockers, revisionBlockers, requiredStepBlockers,
    List.append_eq_nil_iff, blockIf_eq_nil, targetBlockers_eq_nil, duplicateBlockers_eq_nil, stepBlockers_eq_nil,
    changeBlockers_eq_nil, coverageBlockers_eq_nil, not_or, not_and, ne_eq, not_not, Bool.not_eq_true]
  constructor
  · rintro ⟨⟨⟨⟨⟨⟨⟨⟨⟨⟨clean, baseBuilt⟩, patchBuilt⟩, trees⟩, baseline, patch, distinct⟩, overall⟩, planned, executed⟩,
      core⟩, required⟩, analyzed, bound, impacted⟩, exercised⟩
    have steady : ∀ s ∈ i.result.steps, s.kind = kindLatency → Steady s.latency := fun s hs hk =>
      ((stepOK_iff lib _ s).mp ((core kindLatency (by decide)).2 s hs hk)).2 rfl
    have accepted := fun kind => (accepted_iff lib i.result kind executed steady).mpr
    exact
      { clean, overall, distinct, analyzed, bound, impacted, exercised
        built := by simpa using ⟨baseBuilt, patchBuilt⟩
        trees := trees baseBuilt.1
        present := by simpa using ⟨baseline, patch⟩
        plannedOnce := planned
        executedOnce := executed
        core := fun kind hk => accepted kind (core kind hk)
        latency := steady
        required := fun s hs req op => by
          by_cases hk : s.kind ∈ coreKinds
          · exact accepted _ (core _ hk)
          · exact accepted _ (required _ ((mem_requiredKinds _ _).mpr ⟨hk, s, hs, req, op, rfl⟩)) }
  · intro v
    have accepted := fun kind => (accepted_iff lib i.result kind v.executedOnce v.latency).mp
    have built := v.built
    have present := v.present
    simp only [List.mem_cons, List.not_mem_nil, or_false, forall_eq_or_imp, forall_eq] at built present
    refine ⟨⟨⟨⟨⟨⟨⟨⟨⟨⟨v.clean, built.1⟩, built.2⟩, fun _ => v.trees⟩, present.1, present.2, v.distinct⟩, v.overall⟩,
      v.plannedOnce, v.executedOnce⟩, fun kind hk => accepted kind (v.core kind hk)⟩, fun kind hk => ?_⟩,
      v.analyzed, v.bound, v.impacted⟩, v.exercised⟩
    obtain ⟨-, s, hs, req, op, rfl⟩ := (mem_requiredKinds _ _).mp hk
    exact accepted _ (v.required s hs req op)

/-- `Decide` validates exactly the inputs that meet every requirement. -/
theorem decide_validated_iff (lib : Lib) (i : Input) : (i.decide lib).validated = true ↔ Validates lib i := by
  simp only [Input.decide, decide_eq_true_eq]
  exact blockers_eq_nil_iff lib i

theorem decide_unbuilt (lib : Lib) (i : Input) (baseline : i.baselineRev.source ≠ sourceBuilt)
    (patch : i.patchRev.source ≠ sourceBuilt) :
    (i.decide lib).validated = false ∧
      ∀ side ∈ ["baseline", "patch"], { code := codeUnverifiedRevision, subject := side } ∈
      (i.decide lib).blockers := by
  have blocked : ∀ side ∈ ["baseline", "patch"], { code := codeUnverifiedRevision, subject := side } ∈
    blockers lib i := by
    simp [blockers, revisionBlockers, blockIf, baseline, patch]
  refine ⟨decide_eq_false fun none_ => ?_, blocked⟩
  have := blocked "baseline" (by simp)
  simp [none_] at this

end Aquila.Validate

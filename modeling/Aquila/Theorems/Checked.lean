import Aquila.Wire
import Aquila.Theorems.Earned

/-! Submitted evidence: what `Check` leaves open about an artifact that a client wrote. -/

namespace Aquila.Evidence
open Validate (Validates Accepted coreKinds minLatencyN)
open Replay (StepLatency shifted verdictMatch verdictDiffer verdictIncomplete)
open Plan (kindEnv kindBehavior kindLatency kindConcurrency kindFaultStatus)
variable {lib : Lib} {marshal : Artifact → Option String} {a : Artifact} {i : Validate.Input}

theorem check_eq_none :
    check lib marshal a = none ↔
      verify lib marshal a = none ∧ a.schema = schemaV3 ∧ a.validated = (a.decision lib).validated ∧
        a.blockers = (a.decision lib).blockers := by
  unfold check
  cases verify lib marshal a with
  | some e => simp
  | none =>
    dsimp only
    split_ifs <;> simp_all

theorem validates_of_check
    (accepted : check lib marshal a = none) (validated : a.validated = true) : Validates lib a.policyInput := by
  obtain ⟨-, current, claimed, -⟩ := check_eq_none.mp accepted
  exact (decision_validated_iff current).mp (claimed ▸ validated)

/-! ### What anyone can sign -/

/-- The artifact with the decision that its own evidence earns, and with its digests. -/
def Artifact.signed (lib : Lib) (marshal : Artifact → Option String) (a : Artifact) : Artifact :=
  let a := { a with validated := (a.decision lib).validated, blockers := (a.decision lib).blockers }
  let a := { a with workloadDigest := digestWorkload lib a.workload }
  { a with artifactDigest := digestArtifact lib marshal a }

/-- A signed artifact is accepted, whatever its evidence is, if its overall verdict is one of the three. -/
theorem check_signed (current : a.schema = schemaV3)
    (legal : lib.toLower (trimSpace a.result.overall) ∈ [verdictMatch, verdictDiffer, verdictIncomplete]) :
    check lib marshal (a.signed lib marshal) = none := by
  have known : (a.signed lib marshal).schema ∈ [schemaV1, schemaV2, schemaV3] :=
    List.mem_cons_of_mem _ (List.mem_cons_of_mem _ (List.mem_singleton.mpr current))
  replace legal : lib.toLower (trimSpace (a.signed lib marshal).result.overall) ∈
    [verdictMatch, verdictDiffer, verdictIncomplete] := legal
  have others : ∀ v ∈ [verdictMatch, verdictDiffer, verdictIncomplete],
      v ∉ ["pass", "validated", "ok", "fail", "failed", "success"] ∧ v ≠ "" := by decide
  have verified : verify lib marshal (a.signed lib marshal) = none := by
    unfold verify
    dsimp only
    rw [if_neg (not_not.mpr known), if_neg (others _ legal).1, if_neg (others _ legal).2, if_neg (not_not.mpr legal),
      if_neg fun h => h.2 rfl, if_neg fun h => h.2 rfl]
  exact check_eq_none.mpr ⟨verified, current, rfl, rfl⟩

theorem check_build {clock : Time} {i : Input}
    (legal : lib.toLower (trimSpace i.result.overall) ∈ [verdictMatch, verdictDiffer, verdictIncomplete]) :
    check lib marshal (build lib marshal clock i) = none := by
  have signed : build lib marshal clock i = (assemble lib clock i).signed lib marshal := rfl
  rw [signed]
  exact check_signed rfl legal

/-! ### Latency rows -/

def latencyRows (res : Plan.Evidence) : List StepLatency :=
  (res.steps.filter (·.kind = kindLatency)).flatMap (·.latency)

/-- Every request of the workload has a latency row. -/
def Listed (work : List Replay.Step) (res : Plan.Evidence) : Prop :=
  ∀ st ∈ work, ∃ row ∈ latencyRows res, row.method = st.method ∧ row.path = st.path

/-- Every request of the workload has a latency row with 20 samples on both sides, and it has not shifted. -/
def Measured (work : List Replay.Step) (res : Plan.Evidence) : Prop :=
  ∀ st ∈ work, ∃ row ∈ latencyRows res, row.method = st.method ∧ row.path = st.path ∧
    20 ≤ row.baseline.n ∧ 20 ≤ row.patch.n ∧ shifted row = false

theorem measured_iff (v : Validates lib i) :
    Measured i.workload i.result ↔ Listed i.workload i.result := by
  constructor
  · intro measured st hst
    obtain ⟨row, hr, method, path, -⟩ := measured st hst
    exact ⟨row, hr, method, path⟩
  · intro listed st hst
    obtain ⟨row, hr, method, path⟩ := listed st hst
    obtain ⟨s, hs, mem⟩ := List.mem_flatMap.mp hr
    obtain ⟨hs, kind⟩ := List.mem_filter.mp hs
    have steady := v.latency s hs (of_decide_eq_true kind)
    obtain ⟨baseline, patch⟩ := steady.samples row mem
    exact ⟨row, hr, method, path, baseline, patch, steady.unshifted row mem⟩

/-- A validated workload is measured, request by request, exactly when every request has a latency row. -/
theorem latency_measured (lib : Lib) :
    (∀ i : Validate.Input, (i.decide lib).validated = true →
      (Measured i.workload i.result ↔ Listed i.workload i.result)) ∧
    ∀ (marshal : Artifact → Option String) (a : Artifact), check lib marshal a = none → a.validated = true →
      (Measured a.policyInput.workload a.result ↔ Listed a.policyInput.workload a.result) :=
  ⟨fun i validated => measured_iff ((Validate.blockers_eq_nil_iff lib i).mp (of_decide_eq_true validated)),
    fun _ _ accepted validated => measured_iff (validates_of_check accepted validated)⟩

namespace Sample

def evidence : Plan.Evidence :=
  { overall := verdictMatch
    steps :=
      [{ id := "env", kind := kindEnv, verdict := Plan.verdictPrepared },
        { id := "behavior", kind := kindBehavior, verdict := verdictMatch,
          steps := [{ method := "GET", path := "/cart", status := verdictMatch, baselineStatus := 200,
                      patchStatus := 200 }] },
        { id := "latency", kind := kindLatency, verdict := Plan.verdictSamples,
          latency := [{ method := "GET", path := "/cart", baseline := { n := 20 }, patch := { n := 20 } }] },
        { id := "concurrency", kind := kindConcurrency, verdict := verdictMatch }] }

def builtInput : Input :=
  { baselineRev := { tree := "t1", source := sourceBuilt }
    patchRev := { tree := "t2", source := sourceBuilt }
    baseline := "http://base:1"
    patch := "http://patch:1"
    workload := sampleWorkload
    impact := sampleReport
    plan := sampleDAG
    result := evidence }

/-- An artifact that is validated, and the same with one more request in the workload. -/
def built : Artifact := (assemble Lib.plain 0 builtInput).signed Lib.plain (Wire.json .plain).marshal

def unmeasured : Artifact :=
  (assemble Lib.plain 0 { builtInput with workload := sampleWorkload ++ [{ method := "GET", path := "/pay" }] }).signed
    Lib.plain (Wire.json .plain).marshal

end Sample

open Sample in
theorem latency_measured_sample : Measured built.policyInput.workload built.result :=
  ((latency_measured Lib.plain).2 (Wire.json .plain).marshal built (check_signed rfl (by decide +kernel))
    (by decide +kernel)).mpr
    (by unfold Listed; decide +kernel)

open Sample in
/-- A request without a latency row: the artifact is accepted and validated, and the request was never measured. -/
theorem latency_measured_fails :
    check Lib.plain (Wire.json .plain).marshal unmeasured = none ∧ unmeasured.validated = true ∧
      ¬Measured unmeasured.policyInput.workload unmeasured.result := by
  refine ⟨check_signed rfl (by decide +kernel), by decide +kernel, ?_⟩
  unfold Measured
  decide +kernel

/-! ### Derived fields -/

def Artifact.impacted (a : Artifact) : List String := (a.coverage.map (·.impacted)).getD []
def Artifact.missed (a : Artifact) : List String := (a.coverage.map (·.missed)).getD []

/-- The routes that the recorded findings give. -/
def Artifact.routes (lib : Lib) (a : Artifact) : List String :=
  Impact.runtimeRoutes lib { runtime := a.impact.runtimeFindings }

/-- The derived fields say what the recorded results, findings and requests say. -/
structure Consistent (lib : Lib) (a : Artifact) : Prop where
  overall : lib.toLower (trimSpace a.result.overall) = Plan.overall a.result.steps
  listed : ∀ route ∈ a.routes lib, route ∈ a.impacted
  covered : ∀ route ∈ a.routes lib, Validate.covered lib [route] a.policyInput.workload a.result = true
  missed : a.missed = []

/-- The results of kinds that the policy does not require are neither incomplete nor different. -/
def Quiet (res : Plan.Evidence) : Prop :=
  ∀ s ∈ res.steps, s.kind ∉ kindFaultStatus :: coreKinds → s.verdict ≠ verdictIncomplete ∧ s.verdict ≠ verdictDiffer

/-- The coverage is the one that `Build` computes of the recorded findings, requests and results; the counts of
    traces are not recorded elsewhere. -/
def Recomputed (lib : Lib) (a : Artifact) : Prop :=
  ∃ counts, a.coverage =
    coverageOf lib { runtime := a.impact.runtimeFindings, routeTraceCounts := counts } a.workload a.result

/-- The artifact with other findings and another list of missed routes. -/
def Artifact.claiming (a : Artifact) (findings : List Impact.Finding) (missed : List String) : Artifact :=
  { a with
    impact := { a.impact with runtimeFindings := findings }
    coverage := a.coverage.map fun c => { c with missed } }

theorem decision_claiming (lib : Lib) (a : Artifact) (findings : List Impact.Finding) (missed : List String) :
    (a.claiming findings missed).decision lib = a.decision lib := by
  have input : (a.claiming findings missed).policyInput = a.policyInput := by
    unfold Artifact.policyInput Artifact.claiming
    cases a.coverage <;> rfl
  unfold Artifact.decision
  rw [input]
  rfl

theorem overall_eq_match (steps : List Plan.StepResult) :
    Plan.overall steps = verdictMatch ↔
      (∀ s ∈ steps, s.kind = kindEnv → s.verdict ≠ verdictIncomplete) ∧
      (∃ s ∈ steps, s.verdict ≠ Plan.verdictSkipped ∧ s.kind ≠ kindEnv ∧ s.kind ≠ kindFaultStatus) ∧
      ∀ s ∈ steps, s.kind ≠ kindEnv → s.kind ≠ kindFaultStatus →
        s.verdict ≠ verdictIncomplete ∧ (s.kind ≠ kindLatency → s.verdict ≠ verdictDiffer) := by
  have skipped : Plan.verdictSkipped ≠ verdictIncomplete ∧ Plan.verdictSkipped ≠ verdictDiffer := by decide
  have unmatched : verdictIncomplete ≠ verdictMatch ∧ verdictDiffer ≠ verdictMatch := by decide
  unfold Plan.overall
  dsimp only
  split_ifs with env idle incomplete differ
  · obtain ⟨s, hs, found⟩ := List.any_eq_true.mp env
    simp only [Bool.and_eq_true, decide_eq_true_eq] at found
    exact iff_of_false unmatched.1 fun h => h.1 s hs found.1 found.2
  · refine iff_of_false unmatched.1 fun ⟨_, ⟨s, hs, ran⟩, _⟩ => ?_
    simpa [ran] using List.filter_eq_nil_iff.mp idle s hs
  · obtain ⟨s, hs, found⟩ := List.any_eq_true.mp incomplete
    simp only [List.mem_filter, Bool.and_eq_true, decide_eq_true_eq] at hs found
    exact iff_of_false unmatched.1 fun h => (h.2.2 s hs.1 hs.2.1.2 hs.2.2).1 found
  · obtain ⟨s, hs, found⟩ := List.any_eq_true.mp differ
    simp only [List.mem_filter, Bool.and_eq_true, decide_eq_true_eq] at hs found
    exact iff_of_false unmatched.2 fun h => (h.2.2 s hs.1 hs.2.1.2 hs.2.2).2 found.1 found.2
  · simp only [List.any_eq_true, List.mem_filter, Bool.and_eq_true, decide_eq_true_eq, not_exists, not_and, and_imp]
      at env incomplete differ
    refine iff_of_true rfl ⟨env, ?_, fun s hs notEnv notFault => ?_⟩
    · obtain ⟨s, hs⟩ := List.exists_mem_of_ne_nil _ idle
      simp only [List.mem_filter, Bool.and_eq_true, decide_eq_true_eq] at hs
      exact ⟨s, hs.1, hs.2.1.1, hs.2.1.2, hs.2.2⟩
    · by_cases ran : s.verdict = Plan.verdictSkipped
      · rw [ran]
        exact ⟨skipped.1, fun _ => skipped.2⟩
      · exact ⟨incomplete s hs ran notEnv notFault, differ s hs ran notEnv notFault⟩

theorem core_verdict (v : Validates lib i) {s : Plan.StepResult} (hs : s ∈ i.result.steps)
    (core : s.kind ∈ coreKinds) : s.verdict ∉ [Plan.verdictSkipped, verdictIncomplete, verdictDiffer] := by
  have refused : ∀ kind ∈ coreKinds, ∀ bad ∈ [Plan.verdictSkipped, verdictIncomplete, verdictDiffer],
      bad ∉ Validate.acceptedVerdicts kind := by decide
  have known : ∀ bad ∈ [Plan.verdictSkipped, verdictIncomplete, verdictDiffer], lib.toLower (trimSpace bad) = bad := by
    intro bad hbad
    refine Plan.toLower_verdict lib bad ?_
    revert bad
    decide
  intro bad
  have ok := ((Validate.accepted_iff lib i.result _ v.executedOnce v.latency).mp (v.core _ core)).2 s hs rfl
  have accepted := ((Validate.stepOK_iff lib _ s).mp ok).1
  rw [known _ bad] at accepted
  exact refused _ core _ bad accepted

theorem overall_iff (v : Validates lib i) :
    lib.toLower (trimSpace i.result.overall) = Plan.overall i.result.steps ↔ Quiet i.result := by
  have core : ∀ kind ∈ [kindEnv, kindBehavior, kindLatency], kind ∈ coreKinds := by decide
  rw [v.overall, eq_comm, overall_eq_match]
  constructor
  · rintro ⟨-, -, verdicts⟩ s hs other
    have ne : ∀ kind ∈ kindFaultStatus :: coreKinds, s.kind ≠ kind := fun kind hk e => other (e ▸ hk)
    obtain ⟨incomplete, differ⟩ := verdicts s hs (ne _ (by decide)) (ne _ (by decide))
    exact ⟨incomplete, differ (ne _ (by decide))⟩
  · intro others
    refine ⟨fun s hs env => ?_, ?_, fun s hs env fault => ?_⟩
    · have := core_verdict v hs (env ▸ core _ (by decide))
      simp_all
    · obtain ⟨s, hs, kind, -⟩ := v.core kindBehavior (by decide)
      have := core_verdict v hs (kind ▸ core _ (by decide))
      refine ⟨s, hs, by simp_all, ?_, ?_⟩ <;> rw [kind] <;> decide
    · by_cases inner : s.kind ∈ coreKinds
      · have := core_verdict v hs inner
        simp_all
      · obtain ⟨incomplete, differ⟩ := others s hs (by simp [fault, inner])
        exact ⟨incomplete, fun _ => differ⟩

theorem reached_of_exercised {route : String}
    (h : Validate.Exercised lib a.policyInput.workload a.result route) :
    reached lib a.workload a.result route = true := by
  obtain ⟨st, hst, hit, answered⟩ := h
  obtain ⟨r, hr, rfl⟩ := List.mem_map.mp hst
  refine List.any_eq_true.mpr ⟨r, List.mem_filter.mpr ⟨hr, hit⟩, ?_⟩
  exact (Validate.covered_iff ..).mpr ⟨_, List.mem_singleton_self _, hit, answered⟩

theorem missed_of_exercised
    (h : ∀ route ∈ a.impacted, Validate.Exercised lib a.policyInput.workload a.result route)
    (recomputed : Recomputed lib a) :
    (∀ route ∈ a.routes lib, route ∈ a.impacted) ∧ a.missed = [] := by
  obtain ⟨counts, coverage⟩ := recomputed
  have routes : Impact.runtimeRoutes lib { runtime := a.impact.runtimeFindings, routeTraceCounts := counts } =
    a.routes lib := rfl
  unfold coverageOf at coverage
  rw [routes] at coverage
  dsimp only at coverage
  by_cases none : a.routes lib = []
  · rw [if_pos none] at coverage
    rw [none, Artifact.missed, coverage]
    exact ⟨List.forall_mem_nil _, rfl⟩
  · rw [if_neg none] at coverage
    have impacted : a.impacted = a.routes lib := by rw [Artifact.impacted, coverage]; rfl
    refine ⟨fun route hr => impacted ▸ hr, ?_⟩
    rw [Artifact.missed, coverage]
    refine List.filter_eq_nil_iff.mpr fun route hr => ?_
    simp [reached_of_exercised (h route (impacted ▸ hr))]

/-- The derived fields of a checked and validated artifact are consistent if the other results are quiet, which is
    also necessary, and the coverage is recomputed. `Check` does not look at that: with any findings and any missed
    routes an artifact that is signed again is accepted. -/
theorem checked_consistent {lib : Lib} {marshal : Artifact → Option String} {a : Artifact}
    (accepted : check lib marshal a = none) (validated : a.validated = true) :
    (Quiet a.result ∧ Recomputed lib a → Consistent lib a) ∧ (Consistent lib a → Quiet a.result) ∧
      ∀ findings missed, check lib marshal ((a.claiming findings missed).signed lib marshal) = none ∧
        ((a.claiming findings missed).signed lib marshal).validated = true := by
  have v := validates_of_check accepted validated
  obtain ⟨-, current, claimed, -⟩ := check_eq_none.mp accepted
  have exercised : ∀ route ∈ a.impacted, Validate.Exercised lib a.policyInput.workload a.result route := v.exercised
  refine ⟨fun h => ?_, fun consistent => (overall_iff v).mp consistent.overall, fun findings missed => ⟨?_, ?_⟩⟩
  · obtain ⟨quiet, recomputed⟩ := h
    obtain ⟨listed, missed⟩ := missed_of_exercised exercised recomputed
    exact
      { overall := (overall_iff v).mpr quiet
        listed
        covered := fun route hr => (Validate.covered_iff ..).mpr (exercised route (listed route hr))
        missed }
  · have overall : lib.toLower (trimSpace (a.claiming findings missed).result.overall) = verdictMatch := v.overall
    refine check_signed current ?_
    rw [overall]
    decide
  · have same : ((a.claiming findings missed).signed lib marshal).validated = (a.decision lib).validated := by
      rw [← decision_claiming lib a findings missed]
      rfl
    rw [same, ← claimed, validated]

namespace Sample

/-- The sample evidence with failing tests that the plan does not require, a finding whose route is not impacted, and
    the covered route among the missed ones. -/
def contradicting : Artifact :=
  let a := assemble Lib.plain 0 builtInput
  { a with
    impact := { a.impact with runtimeFindings := a.impact.runtimeFindings ++ [{ route := "GET /pay" }] }
    coverage := a.coverage.map fun c => { c with missed := ["GET /cart"] }
    result := { a.result with
      steps := a.result.steps ++ [{ id := "tests", kind := Plan.kindTests, verdict := verdictDiffer }] } }

def contradictory : Artifact := contradicting.signed Lib.plain (Wire.json .plain).marshal

end Sample

open Sample in
theorem checked_consistent_sample : Consistent Lib.plain built :=
  (checked_consistent (check_signed rfl (by decide +kernel)) (by decide +kernel)).1
    ⟨by unfold Quiet; decide +kernel, [], by decide +kernel⟩

open Sample in
/-- An artifact that is accepted and validated although its results differ, its findings show a route that is not
    listed, and a route is listed as missed. -/
theorem checked_consistent_fails :
    check Lib.plain (Wire.json .plain).marshal contradictory = none ∧ contradictory.validated = true ∧
      Plan.overall contradictory.result.steps = verdictDiffer ∧
      ("GET /pay" ∈ contradictory.routes Lib.plain ∧ "GET /pay" ∉ contradictory.impacted) ∧
      contradictory.missed = ["GET /cart"] ∧ ¬Consistent Lib.plain contradictory := by
  have overall : Plan.overall contradictory.result.steps = verdictDiffer := by decide +kernel
  have claimed : Lib.plain.toLower (trimSpace contradictory.result.overall) = verdictMatch := by decide +kernel
  refine ⟨check_signed rfl (by decide +kernel), by decide +kernel, overall, by decide +kernel, by decide +kernel, ?_⟩
  intro consistent
  exact absurd (claimed.symm.trans (consistent.overall.trans overall)) (by decide)

end Aquila.Evidence

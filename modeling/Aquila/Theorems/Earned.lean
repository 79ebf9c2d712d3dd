import Aquila.Evidence
import Aquila.Theorems.Execute
import Aquila.Theorems.Validate

/-! An earned validation: what a validated artifact says about the requests that were really sent. -/

namespace Aquila.Evidence
open Plan (World DAG Side Executed Replays evalStep replayRepeats concurrencyN)
open Replay (Agree runStep samples summarize replayed)
open Validate (Validates Accepted)

abbrev observed (world : World) (url : Side → String) (side : Side) (rep i : Nat) (st : Replay.Step) :
    Replay.Observation :=
  runStep (world.replay side) (url side) rep i st

def burstObservations (world : World) (url : Side → String) (side : Side) (n : Nat) (w : List Replay.Step) :
    List Replay.Observation :=
  (List.range n).flatMap fun rep => w.zipIdx.map fun (st, i) => runStep (world.burst side) (url side) rep i st

/-- What a validated experiment has shown. `url` gives the gateway of each side. -/
structure Earned (lib : Lib) (world : World) (dag : DAG) (url : Side → String) (w : List Replay.Step)
    (rep : Impact.Report) (baselineRev patchRev : Revision) : Prop where
  -- The sides are two revisions that were built, and the baseline is clean.
  clean : baselineRev.dirty = false
  built : ∀ rev ∈ [baselineRev, patchRev], rev.tree ≠ "" ∧ rev.source = sourceBuilt
  trees : baselineRev.tree ≠ patchRev.tree
  -- Both health probes got a 2xx status.
  health : ∀ side, ∃ status,
    world.health (url side) (Replay.probedPath dag.healthPath) = .ok status ∧
      200 ≤ status ∧ status ≤ 299
  -- The first replies to every request agree.
  agree : ∀ i st, w[i]? = some st → Agree lib (observed world url .baseline 0 i st) (observed world url .patch 0 i st)
  -- Every request has enough successful repetitions on both sides.
  enough : ∀ i st, w[i]? = some st → ∀ side,
    20 ≤ (samples (world.replay side) (url side) (replayRepeats dag).1.toNat i st).length
  -- No request has become more than twice as slow and 5 ms slower in the median.
  steady : ∀ i st, w[i]? = some st →
    let median := fun side => (summarize
      (samples (world.replay side) (url side) (replayRepeats dag).1.toNat i st)).medNS
    ¬(2 * median .baseline < median .patch ∧ 5000000 ≤ median .patch - median .baseline)
  -- Both sides fail equally often under concurrency.
  burst :
    (burstObservations world url .baseline (concurrencyN dag).1.toNat w).countP Plan.burstFailed =
      (burstObservations world url .patch (concurrencyN dag).1.toNat w).countP Plan.burstFailed
  -- Every changed file is bound to functions, and the change is observed at runtime.
  analyzed : (Impact.classify rep).unanalyzed = [] ∧ (Impact.classify rep).bound ≠ []
  observedRoutes : Impact.runtimeRoutes lib rep ≠ []
  -- Every runtime route is hit by a request, and a request of the same method and path got a status on both
  -- sides that is not a refusal on both.
  covered : ∀ route ∈ Impact.runtimeRoutes lib rep, ∃ (i : Nat) (st : Replay.Step), w[i]? = some st ∧
    Impact.routeMatches lib route st.method st.path = true ∧
      ∃ (j : Nat) (st' : Replay.Step), w[j]? = some st' ∧
        st'.method ++ " " ++ st'.path = st.method ++ " " ++ st.path ∧
        ((∀ s ∈ w, ' ' ∉ s.method.toList) → st'.method = st.method ∧ st'.path = st.path) ∧
        (observed world url .baseline 0 j st').status ≠ 0 ∧ (observed world url .patch 0 j st').status ≠ 0

/-! ### From the decision to the steps -/

section
variable {lib : Lib} {world : World} {dag : DAG} {base patch : String} {w : List Replay.Step} {url : Side → String}
  {data : Plan.ExecData} {ev : Plan.Evidence}

theorem accepted_step (ran : Executed lib world dag base patch w url data ev) {kind : String} {verdicts : List String}
    (accepts : Validate.acceptedVerdicts kind = verdicts) (never : Plan.verdictSkipped ∉ verdicts)
    (h : Accepted lib ev kind) :
    ∃ s ∈ dag.steps, s.kind = kind ∧ s.operator = false ∧ evalStep lib s data ∈ ev.steps ∧
      lib.toLower (trimSpace (evalStep lib s data).verdict) ∈ verdicts := by
  subst accepts
  obtain ⟨r, hr, hk, verdict⟩ := h
  obtain ⟨s, hs, rfl⟩ := List.mem_map.mp (ran.steps ▸ hr)
  refine ⟨s, hs, (Plan.evalStep_kind ran.fault s).symm.trans hk, ?_, hr, verdict⟩
  by_contra operator
  rw [(Plan.evalStep_operator (by simpa using operator) data).1, Plan.toLower_verdict lib _ (by decide)] at verdict
  exact never verdict

theorem env_accepted (ran : Executed lib world dag base patch w url data ev) (h : Accepted lib ev Plan.kindEnv) :
    data.envErr = none ∧ Replay.healthzPath lib world.health base patch dag.healthPath = none := by
  obtain ⟨s, hs, kind, operator, -, verdict⟩ := accepted_step ran rfl (by decide) h
  have env : data.envErr = none := by
    by_contra failed
    rw [Plan.evalStep_env kind operator, if_neg failed, Plan.toLower_verdict lib _ (by decide)] at verdict
    exact absurd verdict (by decide)
  have probed : dag.steps.any (fun s => s.kind = Plan.kindEnv && !s.operator) = true :=
    List.any_eq_true.mpr ⟨s, hs, by simp [kind, operator]⟩
  refine ⟨env, ?_⟩
  rw [ran.envErr, Plan.probeEnv, if_pos probed] at env
  exact env

theorem behavior_accepted (ran : Executed lib world dag base patch w url data ev)
    (h : Accepted lib ev Plan.kindBehavior) :
    (Plan.compareFirst lib data.base data.patch).verdict = Replay.verdictMatch ∧ (replayRepeats dag).2 = true := by
  obtain ⟨s, hs, kind, operator, -, verdict⟩ := accepted_step ran rfl (by decide) h
  have known : ∀ v ∈ [Replay.verdictMatch, Replay.verdictDiffer, Replay.verdictIncomplete],
      lib.toLower (trimSpace v) = v := fun v hv => Plan.toLower_verdict lib v (List.mem_append_left [_, _, _] hv)
  rw [(Plan.evalStep_behavior kind operator data).1, known _ (Plan.compareFirst_verdict_mem ..)] at verdict
  exact ⟨List.mem_singleton.mp verdict, Plan.replayRepeats_need hs operator (.inl kind)⟩

theorem latency_accepted (ran : Executed lib world dag base patch w url data ev)
    (h : Accepted lib ev Plan.kindLatency) :
    ∃ r ∈ ev.steps, r.kind = Plan.kindLatency ∧ r.latency = Replay.latency data.base data.patch := by
  obtain ⟨s, hs, kind, operator, mem, verdict⟩ := accepted_step ran rfl (by decide) h
  rcases Plan.evalStep_latency kind operator data with incomplete | ⟨-, table⟩
  · rw [incomplete, Plan.toLower_verdict lib _ (by decide)] at verdict
    exact absurd verdict (by decide)
  · exact ⟨_, mem, (Plan.evalStep_kind ran.fault s).trans kind, table⟩

theorem concurrency_accepted (ran : Executed lib world dag base patch w url data ev)
    (h : Accepted lib ev Plan.kindConcurrency) :
    (Plan.burstErrors data.baseBurst).1 = (Plan.burstErrors data.patchBurst).1 ∧ (concurrencyN dag).2 = true := by
  obtain ⟨s, hs, kind, operator, -, verdict⟩ := accepted_step ran rfl (by decide) h
  have known : ∀ v ∈ [Replay.verdictMatch, Replay.verdictDiffer, Replay.verdictIncomplete],
      lib.toLower (trimSpace v) = v := fun v hv => Plan.toLower_verdict lib v (List.mem_append_left [_, _, _] hv)
  rw [Plan.evalStep_concurrency kind operator, known _ (Plan.compareBurst_verdict_mem ..)] at verdict
  exact ⟨Plan.compareBurst_match (List.mem_singleton.mp verdict), Plan.concurrencyN_need hs operator kind⟩

end

/-! ### The soundness of an earned validation -/

theorem coverageOf_impacted (lib : Lib) (rep : Impact.Report) (work : List Request) (res : Plan.Evidence) :
    ((coverageOf lib rep work res).map (·.impacted)).getD [] = Impact.runtimeRoutes lib rep := by
  unfold coverageOf
  dsimp only
  split_ifs with none_
  · exact none_.symm
  · rfl

theorem decision_validated_iff {lib : Lib} {a : Artifact} (current : a.schema = schemaV3) :
    (a.decision lib).validated = true ↔ Validates lib a.policyInput := by
  have v1 : a.schema ≠ schemaV1 := by rw [current]; decide
  have v2 : a.schema ≠ schemaV2 := by rw [current]; decide
  rw [Artifact.decision, if_neg v1, if_neg v2, ← Validate.blockers_eq_nil_iff]
  exact decide_eq_true_iff

theorem validates_of_build {lib : Lib} {marshal : Artifact → Option String} {clock : Time} {i : Input}
    (h : (build lib marshal clock i).validated = true) : Validates lib (assemble lib clock i).policyInput :=
  (decision_validated_iff rfl).mp h

section
variable {lib : Lib} {world : World} {dag : DAG} {base patch : String} {w : List Replay.Step} {url : Side → String}
  {data : Plan.ExecData} {ev : Plan.Evidence}

theorem first_agree (replays : Replays world dag w url data)
    (h : (Plan.compareFirst lib data.base data.patch).verdict = Replay.verdictMatch) :
    (∀ i st, w[i]? = some st →
      Agree lib (observed world url .baseline 0 i st) (observed world url .patch 0 i st)) ∧
    ∀ d ∈ (Plan.compareFirst lib data.base data.patch).steps, ∃ (j : Nat) (st : Replay.Step), w[j]? = some st ∧
      d = Replay.compareObs lib (observed world url .baseline 0 j st) (observed world url .patch 0 j st) := by
  obtain ⟨pos, hb, hp⟩ := replays
  obtain ⟨m, hm⟩ : ∃ m, (replayRepeats dag).1.toNat = m + 1 := ⟨_, (Nat.succ_pred_eq_of_pos pos).symm⟩
  obtain ⟨b, bs, p, ps, hb', hp', agree, steps⟩ := Plan.compareFirst_match h
  rw [hm, List.range_succ_eq_map, List.map_cons] at hb hp
  obtain rfl := (List.cons.inj (hb'.symm.trans hb)).1
  obtain rfl := (List.cons.inj (hp'.symm.trans hp)).1
  simp only [replayed, List.forall₂_map_left_iff, List.forall₂_map_right_iff, List.forall₂_same] at agree
  refine ⟨fun i st hi => agree (st, i) (List.mk_mem_zipIdx_iff_getElem?.mpr hi), fun d hd => ?_⟩
  rw [steps, replayed, replayed, List.zipWith_map, List.zipWith_self] at hd
  obtain ⟨⟨st, j⟩, mem, rfl⟩ := List.mem_map.mp hd
  exact ⟨j, st, List.mk_mem_zipIdx_iff_getElem?.mp mem, rfl⟩

theorem steady_rows (replays : Replays world dag w url data)
    (steady : Validate.Steady (Replay.latency data.base data.patch)) {i : Nat} {st : Replay.Step}
    (hi : w[i]? = some st) :
    let sampled := fun side => samples (world.replay side) (url side) (replayRepeats dag).1.toNat i st
    (∀ side, 20 ≤ (sampled side).length) ∧
      ¬(2 * (summarize (sampled .baseline)).medNS < (summarize (sampled .patch)).medNS ∧
        5000000 ≤ (summarize (sampled .patch)).medNS - (summarize (sampled .baseline)).medNS) := by
  intro sampled
  obtain ⟨row, mem, hb, hp⟩ := @Replay.mem_latency (world.replay .baseline) (world.replay .patch)
    (url .baseline) (url .patch) _ _ _ _ replays.pos hi
  rw [← replays.base, ← replays.patch] at mem
  obtain ⟨baseN, patchN⟩ := steady.samples row mem
  have unshifted := steady.unshifted row mem
  rw [hb, Replay.summarize_n] at baseN
  rw [hp, Replay.summarize_n] at patchN
  have enough : ∀ side, 20 ≤ (sampled side).length := by
    rintro (_ | _)
    · exact Int.ofNat_le.mp baseN
    · exact Int.ofNat_le.mp patchN
  have inRange : ∀ side, 0 < (summarize (sampled side)).medNS ∧ (summarize (sampled side)).medNS < 2 ^ 63 := by
    intro side
    have nonempty : sampled side ≠ [] := List.ne_nil_of_length_pos (by have := enough side; omega)
    exact Replay.samples_range (Replay.summarize_medNS_mem nonempty)
  refine ⟨enough, ?_⟩
  have counted : ∀ side, (summarize (sampled side)).n ≠ 0 := by
    intro side
    rw [Replay.summarize_n]
    have := enough side
    omega
  have slower := Replay.not_slower_of_unshifted (l := row)
    (by rw [hb, hp]; exact ⟨counted .baseline, counted .patch⟩)
    (by rw [hb]; exact (inRange .baseline).1) (by rw [hp]; exact (inRange .patch).2) unshifted
  rw [hb, hp] at slower
  exact slower

theorem mem_compareFirst (ran : Executed lib world dag base patch w url data ev) {s : Plan.StepResult}
    (hs : s ∈ ev.steps) (kind : s.kind = Plan.kindBehavior) {d : Replay.Delta} (hd : d ∈ s.steps) :
    d ∈ (Plan.compareFirst lib data.base data.patch).steps := by
  obtain ⟨t, -, rfl⟩ := List.mem_map.mp (ran.steps ▸ hs)
  rw [Plan.evalStep_kind ran.fault] at kind
  cases operator : t.operator with
  | true => rw [(Plan.evalStep_operator operator data).2] at hd; exact absurd hd List.not_mem_nil
  | false => exact (Plan.evalStep_behavior kind operator data).2 ▸ hd

end

theorem label_inj {m p m' p' : String} (hm : ' ' ∉ m.toList) (hm' : ' ' ∉ m'.toList)
    (h : m ++ " " ++ p = m' ++ " " ++ p') : m = m' ∧ p = p' := by
  have method : ∀ m p : String, ' ' ∉ m.toList → (m ++ " " ++ p).toList.takeWhile (· ≠ ' ') = m.toList := by
    intro m p hm
    have all : ∀ c ∈ m.toList, decide (c ≠ ' ') = true := fun c hc => by
      simpa using fun e : c = ' ' => hm (e ▸ hc)
    simp only [String.toList_append, List.append_assoc]
    rw [List.takeWhile_append_of_pos all]
    simp
  have same : m = m' := by
    rw [← String.toList_inj, ← method m p hm, ← method m' p' hm', h]
  subst same
  exact ⟨rfl, by simpa using h⟩

/-- What a validated artifact of an execution says about the requests that were really sent. -/
theorem build_validated_earned (lib : Lib) (world : World) (dag : DAG) (base patch : String) (w : List Replay.Step)
    (ev : Plan.Evidence) (executed : Plan.execute lib world dag base patch w = .ok ev)
    (marshal : Artifact → Option String) (clock now : Time) (service : String) (rep : Impact.Report)
    (baselineRev patchRev : Revision)
    (validated : (build lib marshal clock
      { baselineRev, patchRev, now, baseline := base, patch, service, workload := w, impact := rep, plan := dag,
        result := ev }).validated = true) :
    ∃ url : Side → String, Replay.parseTarget lib base = .ok (url .baseline) ∧
      Replay.parseTarget lib patch = .ok (url .patch) ∧ Earned lib world dag url w rep baselineRev patchRev := by
  obtain ⟨url, data, ran⟩ := Plan.execute_ok executed
  have v := validates_of_build validated
  obtain ⟨env, health⟩ := env_accepted ran (v.core _ (by decide))
  obtain ⟨behavior, needReplay⟩ := behavior_accepted ran (v.core _ (by decide))
  obtain ⟨bursts, needBurst⟩ := concurrency_accepted ran (v.core _ (by decide))
  have replays := ran.replays env needReplay
  obtain ⟨agree, deltas⟩ := first_agree replays behavior
  obtain ⟨table, hm, hk, rows⟩ := latency_accepted ran (v.core _ (by decide))
  have steady := rows ▸ v.latency table hm hk
  refine ⟨url, ran.parsedBase, ran.parsedPatch,
    { clean := v.clean, built := v.built, trees := v.trees, agree, analyzed := ⟨v.analyzed, v.bound⟩
      health := ?_, enough := ?_, steady := ?_, burst := ?_, observedRoutes := ?_, covered := ?_ }⟩
  · have probed {target base path : String} (parsed : Replay.parseTarget lib target = .ok base)
        (h : Replay.oneHealthz lib world.health target path = none) :
        ∃ status, world.health base path = .ok status ∧ 200 ≤ status ∧ status ≤ 299 := by
      obtain ⟨url, status, parsed', rest⟩ := Replay.oneHealthz_eq_none_iff.mp h
      obtain rfl := Except.ok.inj (parsed.symm.trans parsed')
      exact ⟨status, rest⟩
    obtain ⟨-, baseOK, patchOK⟩ := Replay.healthzPath_eq_none_iff.mp health
    rintro (_ | _)
    · exact probed ran.parsedBase baseOK
    · exact probed ran.parsedPatch patchOK
  · exact fun i st hi => (steady_rows replays steady hi).1
  · exact fun i st hi => (steady_rows replays steady hi).2
  · obtain ⟨hb, hp⟩ := ran.bursts env needBurst
    rw [hb, hp] at bursts
    simpa only [Plan.burstErrors, burstObservations, List.flatMap_map, replayed] using bursts
  · exact fun none_ => v.impacted ((coverageOf_impacted ..).trans none_)
  · intro route hr
    have impacted : route ∈ ((coverageOf lib rep (requests w) ev).map (·.impacted)).getD [] :=
      (coverageOf_impacted lib rep (requests w) ev).symm ▸ hr
    obtain ⟨q, hq, hit, s, hs, kind, d, hd, label, baseStatus, patchStatus, -⟩ := v.exercised route impacted
    obtain ⟨r, hreq, rfl⟩ := List.mem_map.mp hq
    obtain ⟨st, hst, rfl⟩ := List.mem_map.mp hreq
    obtain ⟨i, hi⟩ := List.mem_iff_getElem?.mp hst
    obtain ⟨j, st', hj, rfl⟩ := deltas d (mem_compareFirst ran hs kind hd)
    obtain ⟨method, path⟩ := Replay.runStep_request (world.replay .baseline) (url .baseline) 0 j st'
    rw [(agree j st' hj).compareObs_eq] at label baseStatus patchStatus
    dsimp only at label
    rw [method, path] at label
    exact ⟨i, st, hi, hit, j, st', hj, label,
      fun plain => label_inj (plain st' (List.mem_of_getElem? hj)) (plain st hst) label, baseStatus, patchStatus⟩

/-! One request to two gateways that answer alike. -/

def sampleWorld : World :=
  { health := fun _ _ => .ok 200
    replay := fun _ _ _ _ _ => .response 200 (.ok []) 1000
    replayCtx := fun _ _ => none
    burst := fun _ _ _ _ _ => .response 200 (.ok []) 1000
    burstCtx := fun _ _ => none
    goTest := fun _ _ => .passed
    listen := fun _ => .error "no listener"
    inject := fun _ _ _ _ _ => .badRequest "no proxy" }

def sampleDAG : DAG :=
  { steps :=
      [{ id := "env", kind := Plan.kindEnv, required := true },
        { id := "behavior", kind := Plan.kindBehavior, required := true, dependsOn := ["env"] },
        { id := "latency", kind := Plan.kindLatency, required := true, n := 20, dependsOn := ["env"] },
        { id := "concurrency", kind := Plan.kindConcurrency, required := true, n := 2, dependsOn := ["env"] }] }

def sampleReport : Impact.Report :=
  { files := ["cart.go"]
    direct := [{ file := "cart.go", sourceID := "func:cart.Add", reason := "changed_lines" }]
    runtime := [{ route := "GET /cart" }] }

def sampleWorkload : List Replay.Step := [{ method := "GET", path := "/cart" }]

def sampleEvidence : Plan.Evidence :=
  match Plan.execute Lib.plain sampleWorld sampleDAG "http://base:1" "http://patch:1" sampleWorkload with
  | .ok ev => ev
  | .error _ => {}

/-- The sample experiment is validated, so it has earned it. -/
theorem sample_earned :
    ∃ url : Side → String, Replay.parseTarget Lib.plain "http://base:1" = .ok (url .baseline) ∧
      Replay.parseTarget Lib.plain "http://patch:1" = .ok (url .patch) ∧
      Earned Lib.plain sampleWorld sampleDAG url sampleWorkload sampleReport
        { tree := "t1", source := sourceBuilt } { tree := "t2", source := sourceBuilt } :=
  build_validated_earned Lib.plain sampleWorld sampleDAG "http://base:1" "http://patch:1" sampleWorkload sampleEvidence
    rfl (fun _ => none) 0 0 "" sampleReport { tree := "t1", source := sourceBuilt }
    { tree := "t2", source := sourceBuilt } (by decide +kernel)

end Aquila.Evidence
